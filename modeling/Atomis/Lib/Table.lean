import Mathlib.Data.Option.Basic
import Mathlib.Tactic.Common

/-!
# Tables with a default

A total function that has its type's default value at all but finitely many
keys, kept as the list of its writes, newest first. A property of the default
value can be decided for all keys at once.
-/

namespace Atomis

structure Table (κ υ : Type*) where
  writes : List (κ × υ)

namespace Table
variable {κ υ : Type*} [DecidableEq κ] [Inhabited υ]

def empty : Table κ υ := ⟨[]⟩

def get (t : Table κ υ) (k : κ) : υ := (t.writes.lookup k).getD default

instance : CoeFun (Table κ υ) fun _ => κ → υ := ⟨get⟩

def set (t : Table κ υ) (k : κ) (v : υ) : Table κ υ := ⟨(k, v) :: t.writes⟩

@[simp, grind =] theorem empty_get (k : κ) : (empty : Table κ υ).get k = default := rfl

@[simp, grind =] theorem set_get (t : Table κ υ) (k : κ) (v : υ) (j : κ) :
    (t.set k v).get j = if j = k then v else t.get j := by
  by_cases h : j = k
  · simp [set, get, h]
  · have hne : (j == k) = false := by simpa using h
    simp [set, get, List.lookup_cons, h, hne]

theorem get_of_notMem (t : Table κ υ) {k : κ} (h : ∀ e ∈ t.writes, e.1 ≠ k) :
    t.get k = default := by
  have hnone : t.writes.lookup k = none := by
    rw [List.lookup_eq_none_iff]
    intro e he
    simpa using (h e he).symm
  simp [get, hnone]

theorem forall_get_iff (t : Table κ υ) {p : κ → υ → Prop} (hp : ∀ k, p k default) :
    (∀ k, p k (t k)) ↔ ∀ e ∈ t.writes, p e.1 (t e.1) := by
  refine ⟨fun h e _ => h e.1, fun h k => ?_⟩
  by_cases hk : ∃ e ∈ t.writes, e.1 = k
  · obtain ⟨e, he, rfl⟩ := hk
    exact h e he
  · rw [get_of_notMem t fun e he heq => hk ⟨e, he, heq⟩]
    exact hp k

/-- Every key is renamed by `g`, or dropped. -/
def rekey (t : Table κ υ) (g : κ → Option κ) : Table κ υ :=
  ⟨t.writes.filterMap fun e => (g e.1).map fun k => (k, e.2)⟩

theorem rekey_get_of_iff {t : Table κ υ} {g : κ → Option κ} {i j : κ}
    (h : ∀ k, g k = some j ↔ k = i) : (t.rekey g).get j = t.get i := by
  obtain ⟨writes⟩ := t
  simp only [rekey, get]
  congr 1
  induction writes with
  | nil => rfl
  | cons e writes ih =>
    obtain ⟨k, v⟩ := e
    cases hg : g k with
    | none =>
      have hne : (i == k) = false := by
        rw [beq_eq_false_iff_ne]
        exact fun hik => absurd ((h k).mpr hik.symm) (by simp [hg])
      simp [hg, List.lookup_cons, hne, ih]
    | some l =>
      by_cases hl : l = j
      · obtain rfl : k = i := (h k).mp (hg.trans (by rw [hl]))
        simp [hg, hl]
      · have hne : (i == k) = false := by
          rw [beq_eq_false_iff_ne]
          exact fun hik => hl (Option.some.inj (hg.symm.trans ((h k).mpr hik.symm)))
        have hne' : (j == l) = false := by
          rw [beq_eq_false_iff_ne]
          exact fun hjl => hl hjl.symm
        simp only [List.filterMap_cons, hg, Option.map_some, List.lookup_cons, hne, hne', ih]

theorem rekey_get_of_ne {t : Table κ υ} {g : κ → Option κ} {j : κ} (h : ∀ k, g k ≠ some j) :
    (t.rekey g).get j = default := by
  refine get_of_notMem _ fun e he hej => ?_
  obtain ⟨e', -, heq⟩ := List.mem_filterMap.mp he
  obtain ⟨k, hk, rfl⟩ := Option.map_eq_some_iff.mp heq
  exact h e'.1 (hk.trans (congrArg some hej))

end Table

end Atomis
