import Mathlib.Data.List.Basic
import Mathlib.Data.Nat.Basic
import Mathlib.Tactic.Common

/-!
# The unbroken run at the end of a list

`OwnedFrom h a n` says that every entry of `h` from position `n` on is `a`.
`IsTailRun h a n` says that the last entry of `h` is `a` and that `n` is where
its unbroken run starts. One pair `(a, n)` is enough to decide `OwnedFrom` for
every owner and every position, and appending one entry updates the pair.
-/

namespace Atomis.TailRun

variable {α : Type*} {h : List α} {a b : α} {n m : ℕ}

def OwnedFrom (h : List α) (a : α) (n : ℕ) : Prop := ∀ x ∈ h.drop n, x = a

structure IsTailRun (h : List α) (a : α) (n : ℕ) : Prop where
  lt_length : n < h.length
  owned : OwnedFrom h a n
  least : ∀ m, OwnedFrom h a m → n ≤ m

theorem ownedFrom_of_length_le (hn : h.length ≤ n) : OwnedFrom h a n := by
  simp [OwnedFrom, List.drop_eq_nil_of_le hn]

theorem OwnedFrom.mono (ho : OwnedFrom h a n) (hnm : n ≤ m) : OwnedFrom h a m := by
  intro x hx
  apply ho x
  rw [← Nat.add_sub_cancel' hnm, ← List.drop_drop] at hx
  exact List.mem_of_mem_drop hx

theorem OwnedFrom.getLast_eq (ho : OwnedFrom h a n) (hn : n < h.length)
    (hne : h ≠ []) : h.getLast hne = a := by
  have hd : h.drop n ≠ [] := by simp; omega
  rw [← List.getLast_drop hd]
  exact ho _ (List.getLast_mem hd)

/-- Counting entries from one, as revisions are. -/
theorem ownedFrom_iff_getElem? :
    OwnedFrom h a n ↔ ∀ k, n < k → k ≤ h.length → h[k - 1]? = some a := by
  constructor
  · intro ho k hnk hk
    have hlt : k - 1 < h.length := by omega
    rw [List.getElem?_eq_getElem hlt]
    have hmem : h[k - 1] ∈ h.drop n := by
      rw [List.mem_drop_iff_getElem]
      exact ⟨k - 1 - n, by omega, by congr 1; omega⟩
    exact congrArg some (ho _ hmem)
  · intro hall x hx
    obtain ⟨i, hi, rfl⟩ := List.mem_drop_iff_getElem.mp hx
    have hk := hall (n + i + 1) (by omega) (by omega)
    rw [Nat.add_sub_cancel, List.getElem?_eq_getElem (by omega)] at hk
    have := Option.some.inj hk
    simpa [Nat.add_comm] using this

/-- The pair decides ownership from every position inside the list. -/
theorem IsTailRun.ownedFrom_iff (run : IsTailRun h a n) (hm : m < h.length) :
    OwnedFrom h b m ↔ b = a ∧ n ≤ m := by
  constructor
  · intro ho
    have hne : h ≠ [] := List.ne_nil_of_length_pos (by omega)
    have hba : b = a :=
      (ho.getLast_eq hm hne).symm.trans (run.owned.getLast_eq run.lt_length hne)
    subst hba
    exact ⟨rfl, run.least m ho⟩
  · rintro ⟨rfl, hnm⟩
    exact run.owned.mono hnm

theorem ownedFrom_append_singleton (hn : n ≤ h.length) :
    OwnedFrom (h ++ [b]) a n ↔ OwnedFrom h a n ∧ b = a := by
  rw [OwnedFrom, List.drop_append_of_le_length hn]
  simp only [List.mem_append, List.mem_singleton]
  constructor
  · intro ho
    exact ⟨fun x hx => ho x (.inl hx), ho b (.inr rfl)⟩
  · rintro ⟨ho, rfl⟩ x (hx | rfl)
    · exact ho x hx
    · rfl

theorem IsTailRun.append_same (run : IsTailRun h a n) : IsTailRun (h ++ [a]) a n where
  lt_length := by
    have := run.lt_length
    simp; omega
  owned := (ownedFrom_append_singleton (Nat.le_of_lt run.lt_length)).mpr ⟨run.owned, rfl⟩
  least m ho := by
    by_cases hm : m ≤ h.length
    · exact run.least m ((ownedFrom_append_singleton hm).mp ho).1
    · have := run.lt_length
      omega

theorem isTailRun_append_other (hlast : ∀ hne : h ≠ [], h.getLast hne ≠ b) :
    IsTailRun (h ++ [b]) b h.length where
  lt_length := by simp
  owned := (ownedFrom_append_singleton le_rfl).mpr ⟨ownedFrom_of_length_le le_rfl, rfl⟩
  least m ho := by
    by_contra hm
    have hlt : m < h.length := by omega
    have hne : h ≠ [] := List.ne_nil_of_length_pos (by omega)
    exact hlast hne (((ownedFrom_append_singleton (Nat.le_of_lt hlt)).mp ho).1.getLast_eq hlt hne)

end Atomis.TailRun
