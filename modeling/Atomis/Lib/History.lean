import Mathlib.Data.List.Basic
import Mathlib.Tactic.Common

/-!
# Properties of histories

A history is a list that grows at its end. `Always P h` says that everything in
it had `P` of what came before it, and `Precedes a b h` that an `a` comes before
a `b`.
-/

namespace Atomis.History
variable {α : Type*}

def Always (P : List α → α → Prop) (h : List α) : Prop :=
  ∀ before a after, h = before ++ a :: after → P before a

theorem always_nil (P : List α → α → Prop) : Always P [] := by
  intro before a after heq
  simp at heq

theorem always_mono {P Q : List α → α → Prop} {h : List α} (hall : Always P h)
    (hpq : ∀ before a, P before a → Q before a) : Always Q h :=
  fun before a after heq => hpq before a (hall before a after heq)

theorem getElem?_append_singleton (h : List α) (a : α) (i : ℕ) :
    (h ++ [a])[i]? = if i = h.length then some a else h[i]? := by
  rcases Nat.lt_trichotomy i h.length with hlt | rfl | hgt
  · rw [List.getElem?_append_left hlt, if_neg (Nat.ne_of_lt hlt)]
  · simp
  · have hnone : (h ++ [a])[i]? = none := by
      rw [List.getElem?_eq_none_iff]
      simp only [List.length_append, List.length_singleton]
      omega
    rw [hnone, if_neg (Nat.ne_of_gt hgt), List.getElem?_eq_none (Nat.le_of_lt hgt)]

theorem append_singleton_eq {h before after : List α} {m a : α}
    (heq : h ++ [m] = before ++ a :: after) :
    (h = before ∧ m = a ∧ after = []) ∨ ∃ rest, after = rest ++ [m] ∧ h = before ++ a :: rest := by
  rcases List.eq_nil_or_concat after with rfl | ⟨rest, b, rfl⟩
  · obtain ⟨rfl, hma⟩ := List.append_inj' heq rfl
    exact .inl ⟨rfl, by simpa using hma, rfl⟩
  · rw [List.concat_eq_append, ← List.cons_append, ← List.append_assoc] at heq
    obtain ⟨rfl, hmb⟩ := List.append_inj' heq rfl
    obtain rfl : m = b := by simpa using hmb
    exact .inr ⟨rest, List.concat_eq_append, rfl⟩

theorem always_append_singleton {P : List α → α → Prop} {h : List α} {m : α} :
    Always P (h ++ [m]) ↔ Always P h ∧ P h m := by
  constructor
  · intro hall
    refine ⟨fun before a after heq => ?_, hall h m [] rfl⟩
    exact hall before a (after ++ [m]) (by simp [heq])
  · rintro ⟨hall, hm⟩ before a after heq
    rcases append_singleton_eq heq with ⟨rfl, rfl, rfl⟩ | ⟨rest, rfl, hrest⟩
    · exact hm
    · exact hall before a rest hrest

def Precedes (a b : α) (h : List α) : Prop := [a, b].Sublist h

instance [DecidableEq α] (a b : α) (h : List α) : Decidable (Precedes a b h) :=
  inferInstanceAs (Decidable ([a, b].Sublist h))

theorem precedes_append_singleton {a b m : α} {h : List α} :
    Precedes a b (h ++ [m]) ↔ Precedes a b h ∨ (a ∈ h ∧ b = m) := by
  constructor
  · intro hsub
    obtain ⟨l₁, l₂, heq, h₁, h₂⟩ := List.sublist_append_iff.mp hsub
    match l₁, l₂ with
    | [], l₂ =>
      rw [List.nil_append] at heq
      have := h₂.length_le
      rw [← heq] at this
      simp at this
    | [x], l₂ =>
      obtain ⟨rfl, rfl⟩ : a = x ∧ [b] = l₂ := by simpa using heq
      exact .inr ⟨by simpa using h₁, by simpa using h₂⟩
    | x :: y :: l, l₂ =>
      obtain ⟨rfl, rfl, hnil⟩ : a = x ∧ b = y ∧ l ++ l₂ = [] := by simpa using heq
      obtain ⟨rfl, rfl⟩ := List.append_eq_nil_iff.mp hnil
      exact .inl h₁
  · rintro (hsub | ⟨hmem, rfl⟩)
    · exact hsub.trans (List.sublist_append_left h [m])
    · exact (List.singleton_sublist.mpr hmem).append (List.Sublist.refl [b])

end Atomis.History
