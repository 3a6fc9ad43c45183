import Mathlib.Data.List.Basic
import Mathlib.Tactic.Common

/-!
# Numbers in texts

Decimal numbers are told apart by their digits, and a text that ends in a separator and a number
can be read from its end.
-/

namespace Atomis.Decimal

theorem toString_injective {m n : ℕ} (h : (toString m).toList = (toString n).toList) : m = n := by
  rw [Nat.toString_eq_ofList_toDigits, Nat.toString_eq_ofList_toDigits, String.toList_ofList,
    String.toList_ofList] at h
  rw [← Nat.ofDigitChars_toDigits (b := 10) (n := m) (by decide) (by decide), h,
    Nat.ofDigitChars_toDigits (by decide) (by decide)]

theorem colon_notMem_toString (n : ℕ) : ':' ∉ (toString n).toList := by
  intro hmem
  rw [Nat.toString_eq_ofList_toDigits, String.toList_ofList] at hmem
  have := Nat.isDigit_of_mem_toDigits (by decide) (by decide) hmem
  simp at this

/-- A number behind the last separator is its own. -/
theorem append_cons_inj {α : Type} {c : α} {l l' r r' : List α} (hr : c ∉ r) (hr' : c ∉ r')
    (h : l ++ c :: r = l' ++ c :: r') : l = l' ∧ r = r' := by
  induction l generalizing l' with
  | nil =>
    cases l' with
    | nil => exact ⟨rfl, (List.cons.inj h).2⟩
    | cons d l' =>
      obtain ⟨-, rfl⟩ := List.cons.inj h
      exact absurd (List.mem_append_right _ List.mem_cons_self) hr
  | cons d l ih =>
    cases l' with
    | nil =>
      obtain ⟨-, rfl⟩ := List.cons.inj h
      exact absurd (List.mem_append_right _ List.mem_cons_self) hr'
    | cons d' l' =>
      obtain ⟨rfl, hrest⟩ := List.cons.inj h
      obtain ⟨rfl, hsame⟩ := ih hrest
      exact ⟨rfl, hsame⟩

theorem colon_toString_inj {l l' : List Char} {m n : ℕ}
    (h : l ++ ':' :: (toString m).toList = l' ++ ':' :: (toString n).toList) : l = l' ∧ m = n := by
  obtain ⟨hl, hn⟩ := append_cons_inj (colon_notMem_toString m) (colon_notMem_toString n) h
  exact ⟨hl, toString_injective hn⟩

end Atomis.Decimal
