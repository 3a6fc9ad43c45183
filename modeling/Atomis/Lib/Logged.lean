import Mathlib.Data.List.Basic
import Mathlib.Data.Nat.Notation

/-!
# Computations that log what they do

A fallible computation leaves events behind, some of which must not occur. A walk is what a reader
makes of its input: the places that matter, and whether the end is reached. A computation agrees
with a walk where its events are good exactly if the places are.
-/

namespace Atomis

structure Logged (ν ε α : Type) where
  events : List ν
  result : Except ε α

namespace Logged

variable {ν ε α β : Type}

def pure (a : α) : Logged ν ε α := ⟨[], .ok a⟩

def fail (e : ε) : Logged ν ε α := ⟨[], .error e⟩

def log (event : ν) (a : α) : Logged ν ε α := ⟨[event], .ok a⟩

def bind (x : Logged ν ε α) (f : α → Logged ν ε β) : Logged ν ε β :=
  match x.result with
  | .ok a => ⟨x.events ++ (f a).events, (f a).result⟩
  | .error e => ⟨x.events, .error e⟩

instance : Monad (Logged ν ε) where
  pure := Logged.pure
  bind := Logged.bind

@[simp] theorem result_pure (a : α) : (Pure.pure a : Logged ν ε α).result = .ok a := rfl

@[simp] theorem result_fail (e : ε) : (fail e : Logged ν ε α).result = .error e := rfl

@[simp] theorem result_log (event : ν) (a : α) : (log event a : Logged ν ε α).result = .ok a := rfl

@[simp] theorem result_bind (x : Logged ν ε α) (f : α → Logged ν ε β) :
    (x >>= f).result = x.result >>= fun a => (f a).result := by
  change (Logged.bind x f).result = _
  rw [Logged.bind]
  cases x.result <;> rfl

/-- `for i in first..first + count`, what the steps give one after the other. -/
def forEach (step : ℕ → Logged ν ε (List β)) (first : ℕ) : ℕ → Logged ν ε (List β)
  | 0 => Pure.pure []
  | count + 1 => do
    let here ← step first
    let rest ← forEach step (first + 1) count
    Pure.pure (here ++ rest)

def Safe (good : ν → Prop) (x : Logged ν ε α) : Prop := ∀ event ∈ x.events, good event

section Safe

variable {good : ν → Prop} {x : Logged ν ε α} {f : α → Logged ν ε β}

@[simp] theorem safe_pure (a : α) : (Pure.pure a : Logged ν ε α).Safe good := by
  intro event hevent
  cases hevent

@[simp] theorem safe_fail (e : ε) : (fail e : Logged ν ε α).Safe good := by
  intro event hevent
  cases hevent

@[simp] theorem safe_log (event : ν) (a : α) :
    (log event a : Logged ν ε α).Safe good ↔ good event := by
  simp [Safe, log]

theorem safe_bind_ok {a : α} (h : x.result = .ok a) :
    (x >>= f).Safe good ↔ x.Safe good ∧ (f a).Safe good := by
  change (Logged.bind x f).Safe good ↔ _
  simp only [Logged.bind, h, Safe, List.forall_mem_append]

theorem safe_bind_error {e : ε} (h : x.result = .error e) :
    (x >>= f).Safe good ↔ x.Safe good := by
  change (Logged.bind x f).Safe good ↔ _
  simp only [Logged.bind, h, Safe]

end Safe

end Logged

structure Walk (π : Type) where
  places : List π
  finished : Bool

namespace Walk

variable {π : Type}

def done : Walk π := ⟨[], true⟩

def stuck : Walk π := ⟨[], false⟩

def mark (place : π) : Walk π := ⟨[place], true⟩

def andThen (w next : Walk π) : Walk π :=
  if w.finished then ⟨w.places ++ next.places, next.finished⟩ else w

def onSome {α : Type} (found : Option α) (next : α → Walk π) : Walk π :=
  match found with
  | some a => next a
  | none => stuck

def forEach (step : ℕ → Walk π) (first : ℕ) : ℕ → Walk π
  | 0 => done
  | count + 1 => (step first).andThen (forEach step (first + 1) count)

def Fits (fits : π → Prop) (w : Walk π) : Prop := ∀ place ∈ w.places, fits place

theorem andThen_of_finished {w : Walk π} (next : Walk π) (h : w.finished = true) :
    w.andThen next = ⟨w.places ++ next.places, next.finished⟩ := if_pos h

theorem andThen_of_not_finished {w : Walk π} (next : Walk π) (h : w.finished = false) :
    w.andThen next = w := if_neg (by simp [h])

theorem fits_of_andThen {fits : π → Prop} {w next : Walk π} (h : (w.andThen next).Fits fits) :
    w.Fits fits := by
  intro place hplace
  cases hfinished : w.finished with
  | true =>
    rw [andThen_of_finished next hfinished] at h
    exact h place (List.mem_append_left _ hplace)
  | false =>
    rw [andThen_of_not_finished next hfinished] at h
    exact h place hplace

@[simp] theorem andThen_done (w : Walk π) : w.andThen done = w := by
  cases hfinished : w.finished with
  | true => rw [andThen_of_finished done hfinished, done, List.append_nil, ← hfinished]
  | false => exact andThen_of_not_finished done hfinished

theorem finished_onSome {α : Type} {found : Option α} {next : α → Walk π}
    (h : (onSome found next).finished = true) : ∃ a, found = some a ∧ (next a).finished = true := by
  cases found with
  | none => simp [onSome, stuck] at h
  | some a => exact ⟨a, rfl, h⟩

end Walk

namespace Logged

/-- The events are good exactly if the places fit, and then both end alike. -/
structure Agrees {ν π ε α : Type} (good : ν → Prop) (fits : π → Prop) (x : Logged ν ε α)
    (w : Walk π) : Prop where
  safe : x.Safe good ↔ w.Fits fits
  ends : x.Safe good → ((∃ a, x.result = .ok a) ↔ w.finished = true)

section Agrees

variable {ν π ε α β : Type} {good : ν → Prop} {fits : π → Prop} {x : Logged ν ε α}
  {f : α → Logged ν ε β} {w : Walk π}

theorem agrees_pure (a : α) : Agrees good fits (Pure.pure a : Logged ν ε α) Walk.done where
  safe := iff_of_true (safe_pure a) (by simp [Walk.Fits, Walk.done])
  ends _ := by simp [Walk.done]

theorem agrees_fail (e : ε) : Agrees good fits (fail e : Logged ν ε α) Walk.stuck where
  safe := iff_of_true (safe_fail e) (by simp [Walk.Fits, Walk.stuck])
  ends _ := by simp [Walk.stuck]

theorem Agrees.bind {next : Walk π} (hx : Agrees good fits x w)
    (hf : x.Safe good → ∀ a, x.result = .ok a → w.finished = true →
      Agrees good fits (f a) next) : Agrees good fits (x >>= f) (w.andThen next) := by
  by_cases hsafe : x.Safe good
  · cases hresult : x.result with
    | ok a =>
      have hfinished : w.finished = true := (hx.ends hsafe).mp ⟨a, hresult⟩
      have hrest := hf hsafe a hresult hfinished
      rw [Walk.andThen_of_finished next hfinished]
      constructor
      · rw [safe_bind_ok hresult, hx.safe, hrest.safe, Walk.Fits, Walk.Fits, Walk.Fits,
          List.forall_mem_append]
      · intro hboth
        rw [result_bind, hresult]
        exact hrest.ends ((safe_bind_ok hresult).mp hboth).2
    | error e =>
      have hfinished : w.finished = false := by
        refine Bool.eq_false_iff.mpr fun hfinished => ?_
        obtain ⟨a, ha⟩ := (hx.ends hsafe).mpr hfinished
        rw [hresult] at ha
        cases ha
      rw [Walk.andThen_of_not_finished next hfinished]
      constructor
      · rw [safe_bind_error hresult, hx.safe]
      · intro _
        rw [result_bind, hresult, hfinished]
        simp [Bind.bind, Except.bind]
  · -- what went wrong first stays wrong
    have hbind : ¬(x >>= f).Safe good := by
      cases hresult : x.result with
      | ok a => exact fun h => hsafe ((safe_bind_ok hresult).mp h).1
      | error e => exact fun h => hsafe ((safe_bind_error hresult).mp h)
    exact ⟨iff_of_false hbind fun h => hsafe (hx.safe.mpr (Walk.fits_of_andThen h)),
      fun h => absurd h hbind⟩

theorem agrees_skip {a : α} (hsafe : x.Safe good) (hresult : x.result = .ok a)
    (hf : Agrees good fits (f a) w) : Agrees good fits (x >>= f) w where
  safe := by rw [safe_bind_ok hresult, and_iff_right hsafe, hf.safe]
  ends h := by
    rw [result_bind, hresult]
    exact hf.ends ((safe_bind_ok hresult).mp h).2

theorem agrees_read {found : Option α} {e : ε} {next : α → Walk π} (hsafe : x.Safe good)
    (hresult : x.result = found.elim (.error e) .ok)
    (hf : ∀ a, found = some a → Agrees good fits (f a) (next a)) :
    Agrees good fits (x >>= f) (Walk.onSome found next) := by
  cases found with
  | some a => exact agrees_skip hsafe hresult (hf a rfl)
  | none =>
    constructor
    · rw [safe_bind_error hresult]
      exact iff_of_true hsafe (by simp [Walk.Fits, Walk.onSome, Walk.stuck])
    · intro _
      rw [result_bind, hresult]
      simp [Bind.bind, Except.bind, Walk.onSome, Walk.stuck]

theorem agrees_mark {event : ν} {a : α} {place : π} (hiff : good event ↔ fits place)
    (hf : good event → Agrees good fits (f a) w) :
    Agrees good fits (log event a >>= f) ((Walk.mark place).andThen w) := by
  refine Agrees.bind ⟨?_, fun _ => by simp [Walk.mark]⟩ fun hsafe b hb _ => ?_
  · simp [Walk.Fits, Walk.mark, hiff]
  · obtain rfl : a = b := by simpa using hb
    exact hf ((safe_log event a).mp hsafe)

theorem Agrees.then_pure (hx : Agrees good fits x w) (g : α → β) :
    Agrees good fits (x >>= fun a => Pure.pure (g a)) w := by
  rw [← Walk.andThen_done w]
  exact hx.bind fun _ a _ _ => agrees_pure (g a)

/-- What holds before a step holds before the next one where the walk gets there. -/
theorem forEach_agrees {step : ℕ → Logged ν ε (List β)} {walk : ℕ → Walk π} {H : ℕ → Prop}
    (hstep : ∀ n, H n → Agrees good fits (step n) (walk n))
    (hnext : ∀ n, H n → (walk n).finished = true → H (n + 1)) (count : ℕ) {first : ℕ}
    (hfirst : H first) :
    Agrees good fits (forEach step first count) (Walk.forEach walk first count) := by
  induction count generalizing first with
  | zero => exact agrees_pure []
  | succ count ih =>
    rw [forEach, Walk.forEach]
    refine (hstep first hfirst).bind fun _ here _ hfinished => ?_
    exact (ih (hnext first hfirst hfinished)).then_pure fun rest => here ++ rest

end Agrees

end Logged

end Atomis
