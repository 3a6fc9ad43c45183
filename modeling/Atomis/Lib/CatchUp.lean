import Mathlib.Data.List.Basic
import Mathlib.Order.MinMax
import Mathlib.Tactic.Common

/-!
# Catching up with a numbered log

A reader of a log has a level, and handles notices in order: `entry n` hands it
entry `n`, `all n` everything up to `n`, `mark n` the number alone, and `reading`
everything up to a number not known yet. It ignores what lies below its level
and otherwise raises the level to the notice's number. `CatchesUp F last level l`
says that it passes no entry of `F` it was not handed, and ends past all of
them, when the numbers are at most `last`.
-/

namespace Atomis.CatchUp

inductive Notice
  | entry (n : ℕ)
  | all (n : ℕ)
  | mark (n : ℕ)
  | reading
deriving DecidableEq

def Notice.number : Notice → ℕ
  | .entry n | .all n | .mark n => n
  | .reading => 0

def CatchesUp (F : ℕ → Prop) (last : ℕ) : ℕ → List Notice → Prop
  | level, [] => ∀ k, F k → k ≤ level
  | level, .entry n :: l =>
    n ≤ last ∧ (∀ k, F k → level < k → n ≤ k) ∧ CatchesUp F last (max level n) l
  | level, .all n :: l => n ≤ last ∧ CatchesUp F last (max level n) l
  | level, .mark n :: l =>
    n ≤ last ∧ (∀ k, F k → k ≤ n → k ≤ level) ∧ CatchesUp F last (max level n) l
  | level, .reading :: l => ∃ n ≤ last, CatchesUp F last (max level n) l

variable {F F' : ℕ → Prop} {last last' level level' : ℕ} {l l₁ l₂ : List Notice}

theorem CatchesUp.number_le (h : CatchesUp F last level l) : ∀ x ∈ l, x.number ≤ last := by
  induction l generalizing level with
  | nil =>
    intro x hx
    cases hx
  | cons x l ih =>
    rw [List.forall_mem_cons]
    cases x with
    | entry n => exact ⟨h.1, ih h.2.2⟩
    | all n => exact ⟨h.1, ih h.2⟩
    | mark n => exact ⟨h.1, ih h.2.2⟩
    | reading =>
      obtain ⟨n, -, h⟩ := h
      exact ⟨Nat.zero_le last, ih h⟩

theorem CatchesUp.mono (h : CatchesUp F last level l) (hle : level ≤ level') :
    CatchesUp F last level' l := by
  induction l generalizing level level' with
  | nil => exact fun k hk => (h k hk).trans hle
  | cons x l ih =>
    cases x with
    | entry n =>
      exact ⟨h.1, fun k hk hlt => h.2.1 k hk (hle.trans_lt hlt), ih h.2.2 (max_le_max_right n hle)⟩
    | all n => exact ⟨h.1, ih h.2 (max_le_max_right n hle)⟩
    | mark n =>
      exact ⟨h.1, fun k hk hkn => (h.2.1 k hk hkn).trans hle, ih h.2.2 (max_le_max_right n hle)⟩
    | reading =>
      obtain ⟨n, hn, h⟩ := h
      exact ⟨n, hn, ih h (max_le_max_right n hle)⟩

/-- A reader past every entry catches up whatever it is told. -/
theorem catchesUp_of_past (hpast : ∀ k, F k → k ≤ level) (hl : ∀ x ∈ l, x.number ≤ last) :
    CatchesUp F last level l := by
  induction l generalizing level with
  | nil => exact hpast
  | cons x l ih =>
    rw [List.forall_mem_cons] at hl
    have hrest : ∀ n, CatchesUp F last (max level n) l := fun n =>
      ih (fun k hk => le_max_of_le_left (hpast k hk)) hl.2
    cases x with
    | entry n =>
      refine ⟨hl.1, fun k hk hlt => ?_, hrest n⟩
      have := hpast k hk
      omega
    | all n => exact ⟨hl.1, hrest n⟩
    | mark n => exact ⟨hl.1, fun k hk _ => hpast k hk, hrest n⟩
    | reading => exact ⟨0, Nat.zero_le last, hrest 0⟩

/-- More of the log may be announced behind what is already on its way. -/
theorem CatchesUp.extend (h : CatchesUp F last level l₁) (hlast : last ≤ last')
    (hF : ∀ k, F' k → F k ∨ last < k)
    (hend : ∀ n, (∀ k, F k → k ≤ n) → CatchesUp F' last' n l₂) :
    CatchesUp F' last' level (l₁ ++ l₂) := by
  induction l₁ generalizing level with
  | nil => exact hend level h
  | cons x l ih =>
    cases x with
    | entry n =>
      refine ⟨h.1.trans hlast, fun k hk hlt => ?_, ih h.2.2⟩
      rcases hF k hk with hk | hk
      · exact h.2.1 k hk hlt
      · exact h.1.trans hk.le
    | all n => exact ⟨h.1.trans hlast, ih h.2⟩
    | mark n =>
      refine ⟨h.1.trans hlast, fun k hk hkn => ?_, ih h.2.2⟩
      rcases hF k hk with hk | hk
      · exact h.2.1 k hk hkn
      · have := h.1
        omega
    | reading =>
      obtain ⟨n, hn, h⟩ := h
      exact ⟨n, hn.trans hlast, ih h⟩

/-- What is on its way may change behind the first notices. -/
theorem CatchesUp.congr_tail (h : CatchesUp F last level (l ++ l₁))
    (htail : ∀ n, CatchesUp F last n l₁ → CatchesUp F last n l₂) :
    CatchesUp F last level (l ++ l₂) := by
  induction l generalizing level with
  | nil => exact htail level h
  | cons x l ih =>
    cases x with
    | entry n => exact ⟨h.1, h.2.1, ih h.2.2⟩
    | all n => exact ⟨h.1, ih h.2⟩
    | mark n => exact ⟨h.1, h.2.1, ih h.2.2⟩
    | reading =>
      obtain ⟨n, hn, h⟩ := h
      exact ⟨n, hn, ih h⟩

/-- Reading everything up to the last number is one way for a reading to end. -/
theorem CatchesUp.read (h : CatchesUp F last level (.reading :: l)) :
    CatchesUp F last level (.all last :: l) := by
  obtain ⟨n, hn, h⟩ := h
  exact ⟨le_rfl, h.mono (max_le_max_left level hn)⟩

end Atomis.CatchUp
