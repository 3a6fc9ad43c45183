import Mathlib.Data.List.Basic
import Mathlib.Tactic.Common

/-!
# Regular expressions with an anchor

What an expression matches is a word together with the text in front of it, so that the start of
the text can be asked for. A text has an occurrence if some word of it is matched where it stands.
-/

namespace Atomis

inductive Regex (α : Type)
  | empty
  | start
  | one (p : α → Bool)
  | seq (r s : Regex α)
  | alt (r s : Regex α)
  | many (r : Regex α)

namespace Regex

variable {α : Type} {p : α → Bool} {r s : Regex α} {before text word : List α}

/-- Words one behind the other, each as `m` asks. -/
inductive Repeats (m : List α → List α → Prop) : List α → List α → Prop
  | nil {before : List α} : Repeats m before []
  | append {before word rest : List α} : m before word → Repeats m (before ++ word) rest →
      Repeats m before (word ++ rest)

def Match : Regex α → List α → List α → Prop
  | empty, _, word => word = []
  | start, before, word => before = [] ∧ word = []
  | one p, _, word => ∃ a, word = [a] ∧ p a = true
  | seq r s, before, word =>
    ∃ left right, word = left ++ right ∧ r.Match before left ∧ s.Match (before ++ left) right
  | alt r s, before, word => r.Match before word ∨ s.Match before word
  | many r, before, word => Repeats r.Match before word

def Occurs (r : Regex α) (text : List α) : Prop :=
  ∃ before word after, text = before ++ word ++ after ∧ r.Match before word

/-- Exactly these letters. -/
def letters [DecidableEq α] : List α → Regex α
  | [] => .empty
  | a :: text => .seq (.one (· = a)) (letters text)

theorem match_letters [DecidableEq α] : (letters text).Match before word ↔ word = text := by
  induction text generalizing before word with
  | nil => rfl
  | cons a text ih =>
    constructor
    · rintro ⟨left, right, rfl, ⟨b, rfl, hb⟩, hright⟩
      rw [ih.mp hright, of_decide_eq_true hb, List.singleton_append]
    · rintro rfl
      exact ⟨[a], text, rfl, ⟨a, rfl, decide_eq_true rfl⟩, ih.mpr rfl⟩

theorem match_many_one : (many (one p)).Match before word ↔ ∀ a ∈ word, p a = true := by
  constructor
  · intro h
    induction h with
    | nil => exact fun a ha => nomatch ha
    | append hone _ ih =>
      obtain ⟨a, rfl, ha⟩ := hone
      intro b hb
      rcases List.mem_cons.mp hb with rfl | hb
      · exact ha
      · exact ih b hb
  · intro h
    induction word generalizing before with
    | nil => exact .nil
    | cons a word ih =>
      exact .append ⟨a, rfl, h a List.mem_cons_self⟩ (ih fun b hb => h b (List.mem_cons_of_mem _ hb))

end Regex

end Atomis
