import Mathlib

/-!
# Machines that take one action at a time

A machine says which actions are enabled in a state and what each one does.
`M.Reaches s t` is reachability along any run, and `M.restrict cond` is the same
machine taking only the steps that meet a condition, decided in the state before
the step. `M.exec` is a run as a function, so that a concrete one can be
evaluated.
-/

namespace Atomis

instance two_neZero : NeZero (2 : ℕ) := ⟨two_ne_zero⟩

structure Machine (σ α : Type*) where
  enabled : σ → α → Prop
  next : σ → α → σ

namespace Machine
variable {σ α τ : Type*}

def restrict (M : Machine σ α) (cond : σ → α → Prop) : Machine σ α where
  enabled s a := M.enabled s a ∧ cond s a
  next := M.next

inductive Reaches (M : Machine σ α) : σ → σ → Prop where
  | refl (s : σ) : M.Reaches s s
  | tail {s t : σ} {a : α} : M.Reaches s t → M.enabled t a → M.Reaches s (M.next t a)

variable {M : Machine σ α}

theorem Reaches.trans {s t u : σ} (h₁ : M.Reaches s t) (h₂ : M.Reaches t u) :
    M.Reaches s u := by
  induction h₂ with
  | refl => exact h₁
  | tail _ ha ih => exact ih.tail ha

theorem Reaches.head {s u : σ} {a : α} (ha : M.enabled s a) (h : M.Reaches (M.next s a) u) :
    M.Reaches s u :=
  ((Reaches.refl s).tail ha).trans h

theorem Reaches.of_restrict {cond : σ → α → Prop} {s t : σ}
    (h : (M.restrict cond).Reaches s t) : M.Reaches s t := by
  induction h with
  | refl => exact .refl _
  | tail _ ha ih => exact ih.tail ha.1

/-- One step keeps the invariant, so every run does. -/
theorem Reaches.invariant {I : σ → Prop} (hstep : ∀ s a, I s → M.enabled s a → I (M.next s a))
    {s t : σ} (h : M.Reaches s t) (hs : I s) : I t := by
  induction h with
  | refl => exact hs
  | tail _ ha ih => exact hstep _ _ ih ha

/-- Where an invariant of the runs under one condition gives another, they are runs under
the other. -/
theorem Reaches.restrict_of_invariant {cond cond' : σ → α → Prop} {I : σ → Prop}
    (hstep : ∀ s a, I s → (M.restrict cond).enabled s a →
      (M.restrict cond').enabled s a ∧ I (M.next s a))
    {s t : σ} (h : (M.restrict cond).Reaches s t) (hs : I s) :
    (M.restrict cond').Reaches s t ∧ I t := by
  induction h with
  | refl => exact ⟨.refl _, hs⟩
  | tail _ ha ih =>
    obtain ⟨hrun, hI⟩ := ih
    obtain ⟨ha', hI'⟩ := hstep _ _ hI ha
    exact ⟨hrun.tail ha', hI'⟩

section Exec
variable [DecidableRel M.enabled]

instance {cond : σ → α → Prop} [DecidableRel cond] : DecidableRel (M.restrict cond).enabled :=
  fun s a => inferInstanceAs (Decidable (M.enabled s a ∧ cond s a))

variable (M) in
def exec : σ → List α → Option σ
  | s, [] => some s
  | s, a :: as => if M.enabled s a then exec (M.next s a) as else none

theorem reaches_of_exec {s t : σ} {as : List α} (h : M.exec s as = some t) :
    M.Reaches s t := by
  induction as generalizing s with
  | nil =>
    obtain rfl : s = t := by simpa [exec] using h
    exact .refl s
  | cons a as ih =>
    simp only [exec] at h
    split_ifs at h with ha
    exact .head ha (ih h)

theorem exists_reaches_of_exec {s : σ} {l : List α} {p : σ → Bool}
    (h : (M.exec s l).any p = true) : ∃ t, M.Reaches s t ∧ p t = true := by
  obtain ⟨t, ht, hp⟩ := (Option.any_eq_true p _).mp h
  exact ⟨t, reaches_of_exec ht, hp⟩

end Exec

end Machine

end Atomis
