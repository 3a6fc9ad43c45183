import Atomis.Lib.Machine

/-!
# Processes that confine themselves

A process has layers of restriction: its children inherit them, it may add more of its own, and
nothing takes one away. It performs what every layer permits. So what a tree of processes ever
performs is permitted by the layers its root was started with.
-/

namespace Atomis.Confinement

structure Process (Origin Layer : Type*) where
  origin : Origin
  layers : List Layer

/-- `performed` is history. -/
structure State (Origin Layer Op : Type*) where
  processes : ℕ → Option (Process Origin Layer) := fun _ => none
  performed : List (Origin × Op) := []

inductive Action (Origin Layer Op : Type*)
  | start (pid : ℕ) (origin : Origin)
  | fork (parent child : ℕ)
  | restrict (pid : ℕ) (layer : Layer)
  | perform (pid : ℕ) (op : Op)
  | exit (pid : ℕ)

section Runs

variable {Origin Layer Op : Type*} (confine : Origin → List Layer) (permits : Layer → Op → Prop)

def next (s : State Origin Layer Op) : Action Origin Layer Op → State Origin Layer Op
  | .start pid origin =>
    { s with processes := Function.update s.processes pid (some ⟨origin, confine origin⟩) }
  | .fork parent child =>
    { s with processes := Function.update s.processes child (s.processes parent) }
  | .restrict pid layer =>
    let process := (s.processes pid).map fun p => { p with layers := layer :: p.layers }
    { s with processes := Function.update s.processes pid process }
  | .perform pid op =>
    { s with performed := s.performed ++ ((s.processes pid).map fun p => (p.origin, op)).toList }
  | .exit pid => { s with processes := Function.update s.processes pid none }

def machine : Machine (State Origin Layer Op) (Action Origin Layer Op) where
  enabled s
    | .start pid _ => s.processes pid = none
    | .fork parent child => s.processes parent ≠ none ∧ s.processes child = none
    | .restrict pid _ => s.processes pid ≠ none
    | .perform pid op => ∃ p, s.processes pid = some p ∧ ∀ layer ∈ p.layers, permits layer op
    | .exit pid => s.processes pid ≠ none
  next := next confine

/-- A process keeps the layers of its origin below its own. -/
structure Inv (s : State Origin Layer Op) : Prop where
  layers : ∀ pid p, s.processes pid = some p → confine p.origin <:+ p.layers
  performed : ∀ done ∈ s.performed, ∀ layer ∈ confine done.1, permits layer done.2

variable {confine permits} {s : State Origin Layer Op}

theorem inv_start : Inv confine permits ({} : State Origin Layer Op) where
  layers _ _ h := by cases h
  performed _ h := by cases h

/-- A change of one process. -/
theorem Inv.update (h : Inv confine permits s) (pid : ℕ) {process : Option (Process Origin Layer)}
    (hprocess : ∀ p, process = some p → confine p.origin <:+ p.layers) :
    Inv confine permits { s with processes := Function.update s.processes pid process } where
  layers other p hp := by
    by_cases hother : other = pid
    · subst hother
      exact hprocess p (by simpa using hp)
    · exact h.layers other p (by simpa [Function.update_of_ne hother] using hp)
  performed := h.performed

theorem Inv.perform (h : Inv confine permits s) {pid : ℕ} {op : Op} {p : Process Origin Layer}
    (hp : s.processes pid = some p) (hop : ∀ layer ∈ p.layers, permits layer op) :
    Inv confine permits (next confine s (.perform pid op)) where
  layers := h.layers
  performed done hdone := by
    rcases List.mem_append.mp hdone with hdone | hdone
    · exact h.performed done hdone
    · rw [hp, Option.map_some, Option.toList_some, List.mem_singleton] at hdone
      subst hdone
      exact fun layer hlayer => hop layer ((h.layers pid p hp).subset hlayer)

theorem inv_next (h : Inv confine permits s) {action : Action Origin Layer Op}
    (henabled : (machine confine permits).enabled s action) :
    Inv confine permits (next confine s action) := by
  cases action with
  | start pid origin =>
    refine h.update pid fun p hp => ?_
    cases hp
    exact List.suffix_refl _
  | fork parent child => exact h.update child fun p hp => h.layers parent p hp
  | restrict pid layer =>
    refine h.update pid fun p hp => ?_
    obtain ⟨old, hold, rfl⟩ := Option.map_eq_some_iff.mp hp
    exact (h.layers pid old hold).trans (List.suffix_cons _ _)
  | perform pid op =>
    obtain ⟨p, hp, hop⟩ := henabled
    exact h.perform hp hop
  | exit pid => exact h.update pid fun p hp => by cases hp

theorem inv_of_reaches (h : (machine confine permits).Reaches {} s) : Inv confine permits s :=
  h.invariant (I := Inv confine permits) (fun _ _ hs henabled => inv_next hs henabled) inv_start

/-- A process with no layers of its own performs what its origin's permit. -/
theorem enabled_perform_iff {pid : ℕ} {p : Process Origin Layer} (hp : s.processes pid = some p)
    (hlayers : p.layers = confine p.origin) (op : Op) :
    (machine confine permits).enabled s (.perform pid op) ↔
      ∀ layer ∈ confine p.origin, permits layer op := by
  rw [← hlayers]
  constructor
  · rintro ⟨q, hq, hop⟩
    rwa [← Option.some.inj (hp.symm.trans hq)] at hop
  · exact fun hop => ⟨p, hp, hop⟩

end Runs

end Atomis.Confinement
