import Mathlib.Data.List.Induction
import Mathlib.Tactic.Common

/-!
# What was opened earlier in a list

A scan that keeps one flag: some elements open, which may depend on what stood before them, and
some stop. The flag is up behind a list if an element in it opened and none since then stops.
-/

namespace Atomis.OpenFlag

variable {α : Type} {opens p : List α → α → Prop} {stops : α → Prop} {before after : List α} {a : α}

def Since (opens : List α → α → Prop) (stops : α → Prop) (before : List α) : Prop :=
  ∃ front opener behind, before = front ++ opener :: behind ∧ opens front opener ∧
    ∀ a ∈ behind, ¬stops a

theorem not_since_nil : ¬Since opens stops [] := by
  rintro ⟨front, opener, behind, heq, -⟩
  simp at heq

theorem since_append :
    Since opens stops (before ++ [a]) ↔ opens before a ∨ Since opens stops before ∧ ¬stops a := by
  constructor
  · rintro ⟨front, opener, behind, heq, hopen, hbehind⟩
    cases behind using List.reverseRecOn with
    | nil =>
      obtain ⟨hfront, ha⟩ := List.append_inj' heq rfl
      rw [hfront, (List.cons.inj ha).1]
      exact Or.inl hopen
    | append_singleton behind last =>
      rw [← List.cons_append, ← List.append_assoc] at heq
      obtain ⟨hbefore, ha⟩ := List.append_inj' heq rfl
      rw [(List.cons.inj ha).1]
      refine Or.inr ⟨⟨front, opener, behind, hbefore, hopen, fun b hb => ?_⟩, ?_⟩
      · exact hbehind b (List.mem_append_left _ hb)
      · exact hbehind last (List.mem_append_right _ (List.mem_singleton_self last))
  · rintro (hopen | ⟨⟨front, opener, behind, rfl, hopen, hbehind⟩, hstops⟩)
    · exact ⟨before, a, [], rfl, hopen, by simp⟩
    · refine ⟨front, opener, behind ++ [a], by simp, hopen, fun b hb => ?_⟩
      rcases List.mem_append.mp hb with hb | hb
      · exact hbehind b hb
      · rw [List.mem_singleton.mp hb]
        exact hstops

/-- Some element of `after` is as `p` asks, given those before it. -/
def Later (p : List α → α → Prop) (before after : List α) : Prop :=
  ∃ between a behind, after = between ++ a :: behind ∧ p (before ++ between) a

theorem not_later_nil : ¬Later p before [] := by
  rintro ⟨between, a, behind, heq, -⟩
  simp at heq

theorem later_cons : Later p before (a :: after) ↔ p before a ∨ Later p (before ++ [a]) after := by
  constructor
  · rintro ⟨between, b, behind, heq, hb⟩
    cases between with
    | nil =>
      obtain ⟨rfl, -⟩ := List.cons.inj heq
      rw [List.append_nil] at hb
      exact Or.inl hb
    | cons first between =>
      obtain ⟨rfl, rfl⟩ := List.cons.inj heq
      rw [List.append_cons] at hb
      exact Or.inr ⟨between, b, behind, rfl, hb⟩
  · rintro (ha | ⟨between, b, behind, rfl, hb⟩)
    · exact ⟨[], a, after, rfl, by rwa [List.append_nil]⟩
    · exact ⟨a :: between, b, behind, rfl, by rwa [List.append_cons]⟩

end Atomis.OpenFlag
