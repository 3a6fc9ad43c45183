import Mathlib.Data.List.Basic
import Mathlib.Tactic.Common

/-!
# Cutting a text into lines as it arrives

The complete lines of a text and the unfinished one at its end. What has been read may be
cut anywhere: reading on from the unfinished line gives the lines of the whole.
-/

namespace Atomis.Lines

variable {α : Type} [DecidableEq α] (sep : α)

/-- The first complete line and what follows it. -/
def first : List α → Option (List α × List α)
  | [] => none
  | a :: text =>
    if a = sep then some ([], text) else (first text).map fun (line, rest) => (a :: line, rest)

/-- The complete lines and the unfinished one, where `line` is unfinished already. -/
def split (line : List α) : List α → List (List α) × List α
  | [] => ([], line)
  | a :: text =>
    if a = sep then (line :: (split [] text).1, (split [] text).2) else split (line ++ [a]) text

variable {sep} {line rest text : List α}

theorem split_append (line left right : List α) :
    split sep line (left ++ right) =
      ((split sep line left).1 ++ (split sep (split sep line left).2 right).1,
        (split sep (split sep line left).2 right).2) := by
  induction left generalizing line with
  | nil => rfl
  | cons a left ih =>
    by_cases ha : a = sep
    · simp [split, ha, ih]
    · simp only [List.cons_append, split, if_neg ha, ih]

/-- Nothing but the separators is lost. -/
theorem split_join (line text : List α) :
    (split sep line text).1.flatMap (· ++ [sep]) ++ (split sep line text).2 = line ++ text := by
  induction text generalizing line with
  | nil => simp [split]
  | cons a text ih =>
    rw [split]
    split_ifs with ha
    · rw [List.flatMap_cons, List.append_assoc, ih, ha]
      simp
    · rw [ih]
      simp

theorem split_of_not_mem (line : List α) (h : sep ∉ text) :
    split sep line text = ([], line ++ text) := by
  induction text generalizing line with
  | nil => simp [split]
  | cons a text ih =>
    obtain ⟨ha, htext⟩ := not_or.mp (mt List.mem_cons.mpr h)
    rw [split, if_neg (Ne.symm ha), ih _ htext]
    simp

theorem split_nil_append (h : sep ∉ line) (text : List α) :
    split sep [] (line ++ text) = split sep line text := by
  rw [split_append, split_of_not_mem [] h]
  rfl

theorem first_eq_none : first sep text = none ↔ sep ∉ text := by
  induction text with
  | nil => simp [first]
  | cons a text ih =>
    by_cases ha : a = sep
    · simp [first, ha]
    · simp [first, ha, ih, Ne.symm ha]

theorem first_eq_some (h : first sep text = some (line, rest)) :
    text = line ++ sep :: rest ∧ sep ∉ line := by
  induction text generalizing line with
  | nil => cases h
  | cons a text ih =>
    by_cases ha : a = sep
    · rw [first, if_pos ha] at h
      cases h
      exact ⟨by rw [ha]; rfl, List.not_mem_nil⟩
    · rw [first, if_neg ha] at h
      obtain ⟨⟨tail, rest'⟩, htail, heq⟩ := Option.map_eq_some_iff.mp h
      cases heq
      obtain ⟨rfl, hmem⟩ := ih htail
      exact ⟨rfl, mt List.mem_cons.mp (not_or.mpr ⟨Ne.symm ha, hmem⟩)⟩

theorem split_first (h : first sep text = some (line, rest)) :
    split sep [] text = (line :: (split sep [] rest).1, (split sep [] rest).2) := by
  obtain ⟨rfl, hmem⟩ := first_eq_some h
  rw [split_nil_append hmem, split]
  exact if_pos rfl

theorem not_mem_split_rest (line text : List α) (h : sep ∉ line) :
    sep ∉ (split sep line text).2 := by
  induction text generalizing line with
  | nil => exact h
  | cons a text ih =>
    by_cases ha : a = sep
    · rw [split, if_pos ha]
      exact ih [] List.not_mem_nil
    · rw [split, if_neg ha]
      exact ih _ (by simpa [h] using Ne.symm ha)

/-- A line begun stays the beginning of whatever line it becomes. -/
theorem split_extends (line text : List α) :
    (∃ tail, (split sep line text) = ([], line ++ tail)) ∨
      ∃ tail lines, (split sep line text).1 = (line ++ tail) :: lines := by
  induction text generalizing line with
  | nil => exact .inl ⟨[], by simp [split]⟩
  | cons a text ih =>
    by_cases ha : a = sep
    · exact .inr ⟨[], (split sep [] text).1, by simp [split, ha]⟩
    · rw [split, if_neg ha]
      rcases ih (line ++ [a]) with ⟨tail, htail⟩ | ⟨tail, lines, htail⟩
      · exact .inl ⟨a :: tail, by rw [htail]; simp⟩
      · exact .inr ⟨a :: tail, lines, by rw [htail]; simp⟩

/-- A line begun is the beginning of the first line. -/
theorem split_line (line text : List α) {head : List α} {tail : List (List α)}
    (h : (split sep [] text).1 ++ [(split sep [] text).2] = head :: tail) :
    (split sep line text).1 ++ [(split sep line text).2] = (line ++ head) :: tail := by
  induction text generalizing line head tail with
  | nil =>
    obtain ⟨rfl, rfl⟩ := List.cons.inj h
    simp [split]
  | cons a text ih =>
    by_cases ha : a = sep
    · rw [split, if_pos ha] at h ⊢
      obtain ⟨rfl, rfl⟩ := List.cons.inj h
      simp
    · rw [split, if_neg ha] at h ⊢
      obtain ⟨first, rest, hfirst⟩ := List.exists_cons_of_ne_nil (l :=
        (split sep [] text).1 ++ [(split sep [] text).2]) (by simp)
      rw [ih _ hfirst] at h ⊢
      obtain ⟨rfl, rfl⟩ := List.cons.inj h
      simp

end Atomis.Lines
