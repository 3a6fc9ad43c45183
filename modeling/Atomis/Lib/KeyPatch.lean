import Atomis.Lib.History
import Mathlib.Data.Finmap
import Mathlib.Tactic.Common

/-!
# Patches of a finite map

A patch is a list of writes, each of which sets a key or removes it. What a patch
does to a map depends only on the last write of each key, so patches without a key
in common commute.
-/

namespace Atomis

abbrev KeyMap (κ υ : Type*) := Finmap fun _ : κ => υ

abbrev KeyPatch (κ υ : Type*) := List (κ × Option υ)

namespace KeyPatch
variable {κ υ : Type*} [DecidableEq κ]

def set (m : KeyMap κ υ) (k : κ) : Option υ → KeyMap κ υ
  | some v => m.insert k v
  | none => m.erase k

def apply (m : KeyMap κ υ) (p : KeyPatch κ υ) : KeyMap κ υ :=
  p.foldl (fun m e => set m e.1 e.2) m

/-- What the patch leaves at `k`, where it writes it at all. -/
def written (p : KeyPatch κ υ) (k : κ) : Option (Option υ) := p.reverse.lookup k

theorem lookup_set (m : KeyMap κ υ) (k : κ) (v : Option υ) (j : κ) :
    (set m k v).lookup j = if j = k then v else m.lookup j := by
  by_cases hj : j = k
  · subst hj
    cases v with
    | some v => simp [set]
    | none => simp [set]
  · cases v with
    | some v => simp [set, hj, Finmap.lookup_insert_of_ne]
    | none => simp [set, hj, Finmap.lookup_erase_ne]

theorem written_nil (k : κ) : written ([] : KeyPatch κ υ) k = none := rfl

theorem written_cons (e : κ × Option υ) (p : KeyPatch κ υ) (k : κ) :
    written (e :: p) k = (written p k).or (if k = e.1 then some e.2 else none) := by
  have happend : written (e :: p) k = (written p k).or ([e].lookup k) := by
    simp only [written, List.reverse_cons, List.lookup_append]
  obtain ⟨j, v⟩ := e
  rw [happend]
  by_cases hk : k = j
  · simp [hk]
  · have hne : (k == j) = false := by simpa using hk
    simp [hk, List.lookup_cons, hne]

theorem lookup_apply (m : KeyMap κ υ) (p : KeyPatch κ υ) (k : κ) :
    (apply m p).lookup k = (written p k).getD (m.lookup k) := by
  induction p generalizing m with
  | nil => rfl
  | cons e p ih =>
    have hstep : apply m (e :: p) = apply (set m e.1 e.2) p := rfl
    rw [hstep, ih, lookup_set, written_cons]
    by_cases hk : k = e.1
    · cases hw : written p k <;> simp [hk]
    · cases hw : written p k <;> simp [hk]

theorem written_eq_none {p : KeyPatch κ υ} {k : κ} :
    written p k = none ↔ ∀ e ∈ p, e.1 ≠ k := by
  induction p with
  | nil => simp [written_nil]
  | cons e p ih =>
    rw [written_cons, Option.or_eq_none_iff, ih]
    constructor
    · rintro ⟨hp, he⟩ e' he'
      rcases List.mem_cons.mp he' with rfl | he'
      · rintro rfl
        simp at he
      · exact hp e' he'
    · intro h
      refine ⟨fun e' he' => h e' (List.mem_cons_of_mem _ he'), ?_⟩
      rw [if_neg fun hk => h e List.mem_cons_self hk.symm]

def DisjointKeys (p q : KeyPatch κ υ) : Prop := ∀ e ∈ p, ∀ e' ∈ q, e.1 ≠ e'.1

instance (p q : KeyPatch κ υ) : Decidable (DisjointKeys p q) :=
  inferInstanceAs (Decidable (∀ e ∈ p, ∀ e' ∈ q, e.1 ≠ e'.1))

theorem DisjointKeys.written {p q : KeyPatch κ υ} (h : DisjointKeys p q) (k : κ) :
    written p k = none ∨ written q k = none := by
  by_cases hp : ∃ e ∈ p, e.1 = k
  · obtain ⟨e, he, rfl⟩ := hp
    exact .inr (written_eq_none.mpr fun e' he' heq => h e he e' he' heq.symm)
  · exact .inl (written_eq_none.mpr fun e he heq => hp ⟨e, he, heq⟩)

theorem apply_comm {p q : KeyPatch κ υ} (h : DisjointKeys p q) (m : KeyMap κ υ) :
    apply (apply m p) q = apply (apply m q) p := by
  refine Finmap.ext_lookup fun k => ?_
  simp only [lookup_apply]
  rcases h.written k with hp | hq
  · simp [hp]
  · simp [hq]

/-- They leave the same at every key that both write. -/
def Agree (p q : KeyPatch κ υ) : Prop :=
  ∀ e ∈ p, written q e.1 = none ∨ written q e.1 = written p e.1

instance [DecidableEq υ] (p q : KeyPatch κ υ) : Decidable (Agree p q) :=
  inferInstanceAs (Decidable (∀ e ∈ p, written q e.1 = none ∨ written q e.1 = written p e.1))

theorem Agree.eq {p q : KeyPatch κ υ} (h : Agree p q) {k : κ} {v w : Option υ}
    (hp : written p k = some v) (hq : written q k = some w) : v = w := by
  have hex : ∃ e ∈ p, e.1 = k := by
    by_contra hnone
    rw [written_eq_none.mpr fun e he hek => hnone ⟨e, he, hek⟩] at hp
    cases hp
  obtain ⟨e, he, rfl⟩ := hex
  rcases h e he with hnone | heq
  · rw [hnone] at hq
    cases hq
  · exact Option.some.inj (hp.symm.trans (heq.symm.trans hq))

/-- The patch that writes what `f` has at the keys of a list. -/
def ofKeys (keys : List κ) (f : κ → Option υ) : KeyPatch κ υ :=
  keys.filterMap fun k => (f k).map fun v => (k, some v)

theorem written_ofKeys (keys : List κ) (f : κ → Option υ) (k : κ) :
    written (ofKeys keys f) k = if k ∈ keys then (f k).map some else none := by
  induction keys with
  | nil => rfl
  | cons j keys ih =>
    cases hf : f j with
    | none =>
      have hskip : ofKeys (j :: keys) f = ofKeys keys f := by simp [ofKeys, hf]
      rw [hskip, ih]
      by_cases hj : k = j
      · simp [hj, hf]
      · simp [hj]
    | some v =>
      have hcons : ofKeys (j :: keys) f = (j, some v) :: ofKeys keys f := by simp [ofKeys, hf]
      rw [hcons, written_cons, ih]
      by_cases hj : k = j
      · by_cases hk : j ∈ keys <;> simp [hj, hf, hk]
      · by_cases hk : k ∈ keys <;> simp [hj, hk]

def applyAll (m : KeyMap κ υ) (ps : List (KeyPatch κ υ)) : KeyMap κ υ := ps.foldl apply m

@[simp] theorem applyAll_nil (m : KeyMap κ υ) : applyAll m [] = m := rfl

@[simp] theorem applyAll_append (m : KeyMap κ υ) (ps qs : List (KeyPatch κ υ)) :
    applyAll m (ps ++ qs) = applyAll (applyAll m ps) qs :=
  List.foldl_append

@[simp] theorem applyAll_singleton (m : KeyMap κ υ) (p : KeyPatch κ υ) :
    applyAll m [p] = apply m p := rfl

theorem lookup_applyAll_of_agree {m : KeyMap κ υ} {ps : List (KeyPatch κ υ)} {k : κ}
    {v : Option υ} (hm : m.lookup k = v) (h : ∀ p ∈ ps, ∀ w, written p k = some w → w = v) :
    (applyAll m ps).lookup k = v := by
  induction ps generalizing m with
  | nil => exact hm
  | cons p ps ih =>
    refine ih (m := apply m p) ?_ fun q hq => h q (List.mem_cons_of_mem _ hq)
    rw [lookup_apply]
    cases hw : written p k with
    | none => exact hm
    | some w => exact h p List.mem_cons_self w hw

/-- One patch decides a key that none after it writes otherwise. -/
theorem lookup_applyAll_of_last {m : KeyMap κ υ} {before rest : List (KeyPatch κ υ)}
    {p : KeyPatch κ υ} {k : κ} {v : Option υ} (hp : written p k = some v)
    (h : ∀ q ∈ rest, ∀ w, written q k = some w → w = v) :
    (applyAll m (before ++ p :: rest)).lookup k = v := by
  rw [applyAll_append]
  refine lookup_applyAll_of_agree (m := apply (applyAll m before) p) ?_ h
  rw [lookup_apply, hp]
  rfl

theorem exists_last {ps : List (KeyPatch κ υ)} {k : κ} (h : ∃ p ∈ ps, written p k ≠ none) :
    ∃ before p rest v, ps = before ++ p :: rest ∧ written p k = some v ∧
      ∀ q ∈ rest, written q k = none := by
  induction ps with
  | nil =>
    obtain ⟨p, hp, -⟩ := h
    cases hp
  | cons p ps ih =>
    by_cases hlater : ∃ q ∈ ps, written q k ≠ none
    · obtain ⟨before, q, rest, v, rfl, hq⟩ := ih hlater
      exact ⟨p :: before, q, rest, v, rfl, hq⟩
    · obtain ⟨q, hq, hne⟩ := h
      have hnone : ∀ q ∈ ps, written q k = none := fun q hq =>
        not_not.mp fun hne => hlater ⟨q, hq, hne⟩
      rcases List.mem_cons.mp hq with rfl | hq
      · obtain ⟨v, hv⟩ := Option.ne_none_iff_exists'.mp hne
        exact ⟨[], q, ps, v, rfl, hv, hnone⟩
      · exact absurd (hnone q hq) hne

/-- Two orders of the same patches give one map, when those that disagree on a key stand in
the same order in both. -/
theorem applyAll_map_eq {α : Type*} {f : α → KeyPatch κ υ} {xs ys : List α}
    (hmem : ∀ a, a ∈ xs ↔ a ∈ ys)
    (hord : History.Always (fun before b => ∀ a ∈ before, History.Precedes b a xs →
      Agree (f b) (f a)) ys) (m : KeyMap κ υ) :
    applyAll m (xs.map f) = applyAll m (ys.map f) := by
  refine Finmap.ext_lookup fun k => ?_
  by_cases hwrites : ∃ p ∈ xs.map f, written p k ≠ none
  · obtain ⟨before, p, rest, v, heq, hp, hrest⟩ := exists_last hwrites
    have hlast : (applyAll m (xs.map f)).lookup k = v := by
      rw [heq]
      refine lookup_applyAll_of_last hp fun q hq w hw => ?_
      rw [hrest q hq] at hw
      cases hw
    obtain ⟨xs₁, xs', rfl, rfl, hxs'⟩ := List.map_eq_append_iff.mp heq
    obtain ⟨a, xs₂, rfl, rfl, rfl⟩ := List.map_eq_cons_iff.mp hxs'
    obtain ⟨ys₁, ys₂, rfl⟩ := List.append_of_mem ((hmem a).mp (by simp))
    rw [hlast, List.map_append, List.map_cons]
    refine (lookup_applyAll_of_last hp fun q hq w hw => ?_).symm
    obtain ⟨b, hb, rfl⟩ := List.mem_map.mp hq
    have hbx : b ∈ xs₁ ++ a :: xs₂ := (hmem b).mpr (by simp [hb])
    rcases List.mem_append.mp hbx with hb₁ | hb₁
    · obtain ⟨zs₁, zs₂, rfl⟩ := List.append_of_mem hb
      have hprec : History.Precedes b a (xs₁ ++ a :: xs₂) :=
        (List.singleton_sublist.mpr hb₁).append (List.singleton_sublist.mpr List.mem_cons_self)
      have hagree := hord (ys₁ ++ a :: zs₁) b zs₂ (by simp) a (by simp) hprec
      exact hagree.eq hw hp
    · rcases List.mem_cons.mp hb₁ with rfl | hb₂
      · exact Option.some.inj (hw.symm.trans hp)
      · rw [hrest (f b) (List.mem_map_of_mem hb₂)] at hw
        cases hw
  · have hnone : ∀ a ∈ xs, written (f a) k = none := fun a ha =>
      not_not.mp fun hne => hwrites ⟨f a, List.mem_map_of_mem ha, hne⟩
    have hsame : ∀ zs : List α, (∀ a ∈ zs, a ∈ xs) →
        (applyAll m (zs.map f)).lookup k = m.lookup k := by
      intro zs hzs
      refine lookup_applyAll_of_agree rfl fun p hp w hw => ?_
      obtain ⟨a, ha, rfl⟩ := List.mem_map.mp hp
      rw [hnone a (hzs a ha)] at hw
      cases hw
    rw [hsame xs fun a ha => ha, hsame ys fun a ha => (hmem a).mpr ha]

end KeyPatch

end Atomis
