import Atomis.ReadAll

/-!
# The order of files

Names are compared by class and letter first and by case second. No two names are equal in that
order, so a sorted catalog depends on the set of its files alone.
-/

namespace Atomis
open Protocol

/-! ## Names -/

namespace LocaleCompare

instance : Std.LawfulEqCmp comparePair where
  eq_of_compare {a b} h := by
    simp only [comparePair, compareLex, Ordering.then_eq_eq, compareOn] at h
    exact Prod.ext (Std.LawfulEqCmp.eq_of_compare h.1) (Std.LawfulEqCmp.eq_of_compare h.2)

/-- The character that class, letter and case are those of. -/
def charOf (key : ℕ × ℕ) (upper : ℕ) : ℕ :=
  match key.1 with
  | 0 => [0x20, 0x5f, 0x2d, 0x2e, 0x2f][key.2]?.getD 0
  | 2 => if upper = 1 then key.2 + 'A'.toNat else key.2 + 'a'.toNat
  | _ => key.2

theorem charOf_key (c : Char) : charOf (primary c) (tertiary c) = c.toNat := by
  rw [primary]
  split_ifs with hblank hline hdash hdot hslash hdigit hlower hupper
  · rw [hblank]
    rfl
  · rw [hline]
    rfl
  · rw [hdash]
    rfl
  · rw [hdot]
    rfl
  · rw [hslash]
    rfl
  · rfl
  · have hlow : 'a'.toNat ≤ c.toNat := UInt32.le_iff_toNat_le.mp hlower.1
    have hno : ¬('A' ≤ c ∧ c ≤ 'Z') := by
      rintro ⟨-, hhigh⟩
      have hhigh : c.toNat ≤ 'Z'.toNat := UInt32.le_iff_toNat_le.mp hhigh
      exact absurd (hlow.trans hhigh) (by decide)
    rw [tertiary, if_neg hno]
    exact Nat.sub_add_cancel hlow
  · have hlow : 'A'.toNat ≤ c.toNat := UInt32.le_iff_toNat_le.mp hupper.1
    rw [tertiary, if_pos hupper]
    exact Nat.sub_add_cancel hlow
  · rfl

theorem key_injective {c d : Char} (hprimary : primary c = primary d)
    (htertiary : tertiary c = tertiary d) : c = d := by
  apply Char.toNat_inj.mp
  rw [← charOf_key, ← charOf_key, hprimary, htertiary]

theorem map_key_injective {left right : List Char}
    (hprimary : left.map primary = right.map primary)
    (htertiary : left.map tertiary = right.map tertiary) : left = right := by
  induction left generalizing right with
  | nil => exact (List.map_eq_nil_iff.mp hprimary.symm).symm
  | cons c left ih =>
    cases right with
    | nil => cases hprimary
    | cons d right =>
      obtain ⟨hp, hprimary⟩ := List.cons.inj hprimary
      obtain ⟨ht, htertiary⟩ := List.cons.inj htertiary
      rw [key_injective hp ht, ih hprimary htertiary]

end LocaleCompare

open LocaleCompare in
theorem eq_of_localeCompare {left right : String} (h : localeCompare left right = .eq) :
    left = right := by
  rw [localeCompare, Ordering.then_eq_eq] at h
  exact String.toList_injective (map_key_injective (Std.LawfulEqCmp.eq_of_compare h.1)
    (Std.LawfulEqCmp.eq_of_compare h.2))

theorem localeCompare_antisymm {left right : String}
    (h : (localeCompare left right).isLE = true) (h' : (localeCompare right left).isLE = true) :
    left = right := by
  apply eq_of_localeCompare
  have hswap : localeCompare right left = (localeCompare left right).swap :=
    Std.OrientedCmp.eq_swap
  rw [hswap] at h'
  cases hcmp : localeCompare left right with
  | lt =>
    rw [hcmp] at h'
    cases h'
  | eq => rfl
  | gt =>
    rw [hcmp] at h
    cases h

instance {α : Type*} (name : α → String) :
    Std.Total fun l r => (localeCompare (name l) (name r)).isLE = true where
  total l r := by
    have hswap : localeCompare (name r) (name l) = (localeCompare (name l) (name r)).swap :=
      Std.OrientedCmp.eq_swap
    rw [hswap]
    cases localeCompare (name l) (name r) <;> simp

instance {α : Type*} (name : α → String) :
    IsTrans α fun l r => (localeCompare (name l) (name r)).isLE = true where
  trans _ _ _ h h' := Std.TransCmp.isLE_trans h h'

/-! ## Sorted files -/

/-- What is sorted by distinct keys does not depend on the order before. -/
theorem insertionSort_perm {α : Type*} {r : α → α → Prop} [DecidableRel r] [Std.Total r]
    [IsTrans α r] {left right : List α} (h : left.Perm right)
    (hanti : ∀ a ∈ left, ∀ b ∈ left, r a b → r b a → a = b) :
    left.insertionSort r = right.insertionSort r := by
  have hperm : (left.insertionSort r).Perm (right.insertionSort r) :=
    ((List.perm_insertionSort r left).trans h).trans (List.perm_insertionSort r right).symm
  refine hperm.eq_of_pairwise ?_ (List.pairwise_insertionSort r left)
    (List.pairwise_insertionSort r right)
  intro a b ha hb
  exact hanti a ((List.mem_insertionSort r).mp ha) b
    (h.mem_iff.mpr ((List.mem_insertionSort r).mp hb))

theorem commit_perm (session : Session) (version : ℕ) {files files' : List ProjectFile}
    (h : files.Perm files') (hpaths : (files.map ProjectFile.path).Nodup) :
    session.commit version files = session.commit version files' := by
  have hsorted : files.insertionSort Session.before = files'.insertionSort Session.before :=
    insertionSort_perm h fun a ha b hb hab hba =>
      List.inj_on_of_nodup_map hpaths ha hb (localeCompare_antisymm hab hba)
  rw [Session.commit, Session.commit, hsorted]

variable {order order' : List (List String)} {disk : Disk} {root : List String}

theorem entries_perm (h : order.Perm order') (dir : List String) :
    (entries order disk dir).Perm (entries order' disk dir) := by
  simp only [entries]
  split_ifs
  · exact h.filter _
  · exact .refl _

theorem Reach.perm (h : order.Perm order') {q : List String} (hq : Reach order disk root q) :
    Reach order' disk root q := by
  induction hq with
  | root => exact .root
  | @child dir q _ hmem hdir ih => exact .child ih ((entries_perm h dir).mem_iff.mp hmem) hdir

theorem WithinLimits.perm (h : order.Perm order') (hlimits : WithinLimits order disk root) :
    WithinLimits order' disk root := by
  have hbelow : (textsBelow order disk root).Perm (textsBelow order' disk root) := h.filter _
  exact ⟨hbelow.length_eq ▸ hlimits.count, textSize_perm hbelow ▸ hlimits.bytes⟩

theorem readSources_sorted : (readSources order disk root).Pairwise
    fun l r => (localeCompare l.1 r.1).isLE = true :=
  List.pairwise_insertionSort _ _

theorem readSources_perm (h : order.Perm order') (horder : order.Nodup)
    (hplain : ∀ p ∈ order, ∀ n ∈ p, plainName n = true) (hlimits : WithinLimits order disk root) :
    readSources order disk root = readSources order' disk root := by
  have hpaths : ((readSources order disk root).map Prod.fst).Nodup :=
    readSources_nodup horder hplain
  obtain ⟨read, hread, hreach, hfiles⟩ := readSources_all horder hlimits
  obtain ⟨read', hread', hreach', hfiles'⟩ :=
    readSources_all (h.nodup_iff.mp horder) (hlimits.perm h)
  have hdirs : read.Perm read' := (List.perm_ext_iff_of_nodup hread hread').mpr fun q => by
    rw [hreach, hreach']
    exact ⟨.perm h, .perm h.symm⟩
  have htexts : (read.flatMap (textEntries order disk)).Perm
      (read'.flatMap (textEntries order' disk)) :=
    hdirs.flatMap fun d _ => (entries_perm h d).filter _
  have hperm := (hfiles.trans (htexts.map _)).trans hfiles'.symm
  refine hperm.eq_of_pairwise ?_ readSources_sorted readSources_sorted
  intro a b ha hb hab hba
  exact List.inj_on_of_nodup_map hpaths ha (hperm.mem_iff.mpr hb) (localeCompare_antisymm hab hba)

/-- Names are totally ordered, and what is committed or, within the limits, read does not depend
on the order in which it is given. -/
theorem catalog_of_set :
    (∀ a b c : String, localeCompare a a = .eq ∧ localeCompare b a = (localeCompare a b).swap ∧
      (localeCompare a b = .lt → localeCompare b c = .lt → localeCompare a c = .lt) ∧
      (localeCompare a b = .eq → a = b)) ∧
    (∀ (session : Session) (version : ℕ) (files files' : List ProjectFile), files.Perm files' →
      (files.map ProjectFile.path).Nodup →
      session.commit version files = session.commit version files') ∧
    ∀ (order order' : List (List String)) (disk : Disk) (root : List String), order.Perm order' →
      order.Nodup → (∀ p ∈ order, ∀ n ∈ p, plainName n = true) → WithinLimits order disk root →
      readSources order disk root = readSources order' disk root := by
  refine ⟨fun a b c => ⟨?_, ?_, ?_, ?_⟩, fun session version _ _ => commit_perm session version,
    fun _ _ _ _ => readSources_perm⟩
  · exact Std.ReflCmp.compare_self
  · exact Std.OrientedCmp.eq_swap
  · exact Std.TransCmp.lt_trans
  · exact eq_of_localeCompare

/-! ## Above the limits -/

/-- 65 names, none of them the empty one. -/
def manyNames : List (List String) :=
  (List.range 65).map fun n => ["src", String.ofList [Char.ofNat (n + 0x30)]]

def manyDisk : Disk :=
  ⟨(["src"], some .dir) :: manyNames.map fun p => (p, some (.file (.text "")))⟩

/-- One file too many, and the order decides which is passed over. -/
theorem readSources_differs : manyNames.Perm manyNames.reverse ∧ manyNames.Nodup ∧
    (∀ p ∈ manyNames, ∀ n ∈ p, plainName n = true) ∧
    readSources manyNames manyDisk ["src"] ≠ readSources manyNames.reverse manyDisk ["src"] := by
  refine ⟨(List.reverse_perm _).symm, by decide +kernel, ?_, fun heq => ?_⟩
  · have hall : (manyNames.all fun p => p.all plainName) = true := by decide +kernel
    intro p hp n hn
    exact List.all_eq_true.mp (List.all_eq_true.mp hall p hp) n hn
  · have hlast : ("p", "") ∈ readSources manyNames.reverse manyDisk ["src"] :=
      (List.mem_insertionSort _).mpr (by decide +kernel)
    rw [← heq, readSources, List.mem_insertionSort] at hlast
    revert hlast
    decide +kernel

end Atomis
