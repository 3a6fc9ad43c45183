import Mathlib.Data.List.Infix
import Mathlib.Data.List.Count
import Mathlib.Data.List.Sort
import Mathlib.Tactic.Common

/-!
# Texts with insertions

Insertions are made one by one into a text that grows, the ones behind before the ones in
front. What comes out is the text with the inserted pieces woven in at the places where
they were in the text that was there first.
-/

namespace Atomis.Splice

variable {α : Type}

structure Insertion (α : Type) where
  offset : ℕ
  text : List α

def Insertion.apply (source : List α) (i : Insertion α) : List α :=
  source.take i.offset ++ i.text ++ source.drop i.offset

def applyAll (source : List α) (insertions : List (Insertion α)) : List α :=
  insertions.foldl Insertion.apply source

/-- The ones behind before the ones in front. -/
def Descending (insertions : List (Insertion α)) : Prop :=
  insertions.Pairwise fun i j => j.offset ≤ i.offset

/-- What stands at a place: a later insertion stands before an earlier one. -/
def textsAt (insertions : List (Insertion α)) (n : ℕ) : List α :=
  (insertions.filter fun i => i.offset = n).reverse.flatMap Insertion.text

section
variable (texts : ℕ → List α)

/-- A text that starts at `n`, each of its letters behind what stands at its place. -/
def before (n : ℕ) : List α → List α
  | [] => []
  | a :: rest => texts n ++ a :: before (n + 1) rest

def weave (n : ℕ) (source : List α) : List α :=
  before texts n source ++ texts (n + source.length)

/-- The letters of a woven text without what stands at their places. -/
def erase (n : ℕ) : ℕ → List α → List α
  | 0, _ => []
  | count + 1, text =>
    match text.drop (texts n).length with
    | [] => []
    | a :: rest => a :: erase (n + 1) count rest

end

variable {texts texts' : ℕ → List α} {source left right : List α} {n : ℕ}
  {insertions : List (Insertion α)}

/-! ## Weaving -/

theorem before_append (n : ℕ) (left right : List α) :
    before texts n (left ++ right) = before texts n left ++ before texts (n + left.length) right := by
  induction left generalizing n with
  | nil => simp [before]
  | cons a left ih =>
    have hlength : n + 1 + left.length = n + (a :: left).length := by
      simp only [List.length_cons]
      omega
    simp only [List.cons_append, before, ih, hlength, List.append_assoc]

theorem weave_append (n : ℕ) (left right : List α) :
    weave texts n (left ++ right) = before texts n left ++ weave texts (n + left.length) right := by
  rw [weave, weave, before_append, List.length_append, Nat.add_assoc, List.append_assoc]

theorem before_congr (h : ∀ k, n ≤ k → k < n + source.length → texts k = texts' k) :
    before texts n source = before texts' n source := by
  induction source generalizing n with
  | nil => rfl
  | cons a source ih =>
    have hlength : (a :: source).length = source.length + 1 := List.length_cons
    rw [before, before, h n (Nat.le_refl n) (by omega),
      ih fun k hk hk' => h k (by omega) (by omega)]

theorem before_of_empty (h : ∀ k, n ≤ k → texts k = []) : before texts n source = source := by
  induction source generalizing n with
  | nil => rfl
  | cons a source ih =>
    rw [before, h n (Nat.le_refl n), ih fun k hk => h k (by omega)]
    rfl

/-- Where nothing stands behind the first letter. -/
theorem weave_of_empty (h : ∀ k, n < k → texts k = []) :
    weave texts n source = texts n ++ source := by
  cases source with
  | nil => simp [weave, before]
  | cons a source =>
    have hlast : texts (n + (a :: source).length) = [] := by
      apply h
      simp
    rw [weave, before, hlast, before_of_empty fun k hk => h k (by omega), List.append_nil]

theorem erase_weave (n : ℕ) (source : List α) :
    erase texts n source.length (weave texts n source) = source := by
  induction source generalizing n with
  | nil => rfl
  | cons a source ih =>
    have hweave : weave texts n (a :: source) = texts n ++ a :: weave texts (n + 1) source := by
      have happend : weave texts n ([a] ++ source) = _ := weave_append n [a] source
      simpa [before] using happend
    rw [hweave, List.length_cons, erase, List.drop_left]
    simp only [ih]

/-! ## Insertions -/

theorem textsAt_cons (i : Insertion α) (insertions : List (Insertion α)) (n : ℕ) :
    textsAt (i :: insertions) n =
      textsAt insertions n ++ if i.offset = n then i.text else [] := by
  by_cases hn : i.offset = n
  · simp [textsAt, hn]
  · simp [textsAt, hn]

theorem textsAt_of_forall_ne (h : ∀ i ∈ insertions, i.offset ≠ n) : textsAt insertions n = [] := by
  have hnone : insertions.filter (fun i => i.offset = n) = [] := by
    simpa using h
  rw [textsAt, hnone]
  rfl

theorem length_apply (i : Insertion α) (source : List α) :
    (i.apply source).length = source.length + i.text.length := by
  simp only [Insertion.apply, List.length_append, List.length_take, List.length_drop]
  omega

/-- One more insertion, in front of all that were woven in. -/
theorem weave_apply {i : Insertion α} (h : ∀ j ∈ insertions, j.offset ≤ i.offset)
    (hin : i.offset ≤ source.length) :
    weave (textsAt insertions) 0 (i.apply source) =
      weave (textsAt (i :: insertions)) 0 source := by
  have hlength : (source.take i.offset).length = i.offset := List.length_take_of_le hin
  have hempty : ∀ k, i.offset < k → textsAt insertions k = [] := fun k hk =>
    textsAt_of_forall_ne fun j hj => by have := h j hj; omega
  have hempty' : ∀ k, i.offset < k → textsAt (i :: insertions) k = [] := by
    intro k hk
    rw [textsAt_cons, hempty k hk, if_neg (by omega)]
    rfl
  have hbefore : before (textsAt insertions) 0 (source.take i.offset) =
      before (textsAt (i :: insertions)) 0 (source.take i.offset) := by
    refine before_congr fun k _ hk => ?_
    rw [textsAt_cons, if_neg (by omega), List.append_nil]
  have hweave : weave (textsAt insertions) i.offset (i.text ++ source.drop i.offset) =
      weave (textsAt (i :: insertions)) i.offset (source.drop i.offset) := by
    rw [weave_of_empty hempty, weave_of_empty hempty', textsAt_cons, if_pos rfl, List.append_assoc]
  calc weave (textsAt insertions) 0 (i.apply source)
      = before (textsAt insertions) 0 (source.take i.offset) ++
          weave (textsAt insertions) i.offset (i.text ++ source.drop i.offset) := by
        rw [Insertion.apply, List.append_assoc, weave_append, hlength, Nat.zero_add]
    _ = before (textsAt (i :: insertions)) 0 (source.take i.offset) ++
          weave (textsAt (i :: insertions)) i.offset (source.drop i.offset) := by
        rw [hbefore, hweave]
    _ = weave (textsAt (i :: insertions)) 0 source := by
        conv_rhs => rw [← List.take_append_drop i.offset source]
        rw [weave_append, hlength, Nat.zero_add]

theorem applyAll_eq_weave (h : Descending insertions)
    (hin : ∀ i ∈ insertions, i.offset ≤ source.length) :
    applyAll source insertions = weave (textsAt insertions) 0 source := by
  induction insertions generalizing source with
  | nil => exact (weave_of_empty fun _ _ => rfl).symm
  | cons i insertions ih =>
    obtain ⟨hfirst, hrest⟩ := List.pairwise_cons.mp h
    have hlonger : ∀ j ∈ insertions, j.offset ≤ (i.apply source).length := by
      intro j hj
      have hj' := hin j (List.mem_cons_of_mem i hj)
      rw [length_apply]
      omega
    rw [applyAll, List.foldl_cons]
    exact (ih hrest hlonger).trans (weave_apply hfirst (hin i List.mem_cons_self))

theorem infix_textsAt {i : Insertion α} (h : i ∈ insertions) :
    i.text <:+: textsAt insertions i.offset := by
  have hmem : i ∈ (insertions.filter fun j => j.offset = i.offset).reverse := by
    simpa using h
  obtain ⟨left, right, hsplit⟩ := List.append_of_mem hmem
  refine ⟨left.flatMap Insertion.text, right.flatMap Insertion.text, ?_⟩
  rw [textsAt, hsplit]
  simp

theorem mem_textsAt {a : α} (h : a ∈ textsAt insertions n) : ∃ i ∈ insertions, a ∈ i.text := by
  obtain ⟨i, hi, ha⟩ := List.mem_flatMap.mp h
  exact ⟨i, List.mem_of_mem_filter (List.mem_reverse.mp hi), ha⟩

theorem descending_mergeSort {β : Type} (offset : β → ℕ) (given : List β)
    {insertion : β → Insertion α} (h : ∀ b, (insertion b).offset = offset b) :
    Descending ((given.mergeSort fun b b' => offset b' ≤ offset b).map insertion) := by
  have hsorted : (given.mergeSort fun b b' => offset b' ≤ offset b).Pairwise
      fun b b' => decide (offset b' ≤ offset b) = true := by
    apply List.pairwise_mergeSort
    · intro a b c hab hbc
      simp only [decide_eq_true_eq] at *
      omega
    · intro a b
      simp only [Bool.or_eq_true, decide_eq_true_eq]
      omega
  refine List.pairwise_map.mpr (hsorted.imp fun {b b'} hle => ?_)
  rw [h, h]
  exact of_decide_eq_true hle

/-! ## Letters that are not inserted -/

variable [DecidableEq α] {sep : α}

theorem count_apply {i : Insertion α} (h : sep ∉ i.text) (source : List α) :
    (i.apply source).count sep = source.count sep := by
  rw [Insertion.apply, List.count_append, List.count_append, List.count_eq_zero_of_not_mem h,
    Nat.add_zero, ← List.count_append, List.take_append_drop]

theorem count_applyAll (h : ∀ i ∈ insertions, sep ∉ i.text) (source : List α) :
    (applyAll source insertions).count sep = source.count sep := by
  induction insertions generalizing source with
  | nil => rfl
  | cons i insertions ih =>
    obtain ⟨hi, hrest⟩ := List.forall_mem_cons.mp h
    exact (ih hrest _).trans (count_apply hi source)

theorem count_before (h : ∀ k, sep ∉ texts k) (n : ℕ) (source : List α) :
    (before texts n source).count sep = source.count sep := by
  induction source generalizing n with
  | nil => rfl
  | cons a source ih =>
    rw [before, List.count_append, List.count_eq_zero_of_not_mem (h n), List.count_cons,
      List.count_cons, ih, Nat.zero_add]

/-! ## What insertions add -/

/-- Where the letter of a place stands once everything is woven in. -/
def position (texts : ℕ → List α) (source : List α) (n : ℕ) : ℕ :=
  (before texts 0 (source.take n) ++ texts n).length

/-- `generated` is `source` with nothing but insertions of one line, each letter of `source` on
the line it was on, and what was `announced` at the place it was announced for. -/
structure Adds (sep : α) (insertions : List (Insertion α)) (announced : List (ℕ × List α))
    (source generated : List α) : Prop where
  woven : generated = weave (textsAt insertions) 0 source
  erased : erase (textsAt insertions) 0 source.length generated = source
  oneLine : ∀ i ∈ insertions, sep ∉ i.text
  kept : ∀ n a, source[n]? = some a →
    generated[position (textsAt insertions) source n]? = some a ∧
      (generated.take (position (textsAt insertions) source n)).count sep =
        (source.take n).count sep
  stands : ∀ p ∈ announced, p.2 <:+: textsAt insertions p.1

omit [DecidableEq α] in
theorem weave_at {a : α} (h : source[n]? = some a) :
    weave texts 0 source = (before texts 0 (source.take n) ++ texts n) ++
      a :: weave texts (n + 1) (source.drop (n + 1)) := by
  obtain ⟨hn, ha⟩ := List.getElem?_eq_some_iff.mp h
  have hlength : (source.take n).length = n := List.length_take_of_le (Nat.le_of_lt hn)
  have hdrop : source.drop n = [a] ++ source.drop (n + 1) := by
    rw [List.drop_eq_getElem_cons hn, ha]
    rfl
  conv_lhs => rw [← List.take_append_drop n source, hdrop]
  rw [weave_append, weave_append, hlength, Nat.zero_add]
  simp [before]

theorem adds_applyAll {announced : List (ℕ × List α)} (h : Descending insertions)
    (hin : ∀ i ∈ insertions, i.offset ≤ source.length) (hline : ∀ i ∈ insertions, sep ∉ i.text)
    (hannounced : ∀ p ∈ announced, ∃ i ∈ insertions, i.offset = p.1 ∧ i.text = p.2) :
    Adds sep insertions announced source (applyAll source insertions) where
  woven := applyAll_eq_weave h hin
  erased := by
    rw [applyAll_eq_weave h hin]
    exact erase_weave 0 source
  oneLine := hline
  kept n a ha := by
    have htexts : ∀ k, sep ∉ textsAt insertions k := fun k hk => by
      obtain ⟨i, hi, hmem⟩ := mem_textsAt hk
      exact hline i hi hmem
    rw [applyAll_eq_weave h hin, weave_at ha, position]
    refine ⟨by rw [List.getElem?_append_right (Nat.le_refl _), Nat.sub_self]; rfl, ?_⟩
    rw [List.take_left, List.count_append, count_before htexts,
      List.count_eq_zero_of_not_mem (htexts n), Nat.add_zero]
  stands p hp := by
    obtain ⟨i, hi, hoffset, htext⟩ := hannounced p hp
    rw [← hoffset, ← htext]
    exact infix_textsAt hi

/-! ## Insertions that may be left out -/

/-- An insertion is made where the place passes a check of the text. -/
def Insertion.applyIf (check : List α → ℕ → Bool) (source : List α) (i : Insertion α) : List α :=
  if check source i.offset then i.apply source else source

omit [DecidableEq α] in
/-- All are made if the check is passed at first, and no insertion behind changes that. -/
theorem foldl_applyIf {check : List α → ℕ → Bool} (h : Descending insertions)
    (hcheck : ∀ i ∈ insertions, check source i.offset = true)
    (hkeep : ∀ i ∈ insertions, ∀ text n, n ≤ i.offset → check text i.offset = true →
      check text n = true → check (i.apply text) n = true) :
    insertions.foldl (Insertion.applyIf check) source = applyAll source insertions := by
  induction insertions generalizing source with
  | nil => rfl
  | cons i insertions ih =>
    obtain ⟨hfirst, hrest⟩ := List.pairwise_cons.mp h
    obtain ⟨hi, hothers⟩ := List.forall_mem_cons.mp hcheck
    obtain ⟨hkeep, hkeeps⟩ := List.forall_mem_cons.mp hkeep
    rw [List.foldl_cons, Insertion.applyIf, if_pos hi, applyAll, List.foldl_cons]
    exact ih hrest (fun j hj => hkeep source j.offset (hfirst j hj) hi (hothers j hj)) hkeeps

end Atomis.Splice
