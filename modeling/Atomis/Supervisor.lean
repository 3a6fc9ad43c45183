import Atomis.Lib.Machine
import Mathlib.Data.Fintype.Basic
import Mathlib.Logic.Function.Basic

/-!
# Supervising one child process

The loop of `run_inner` in `exec/supervisor.rs`, the processes of the child's
group and the task that `terminate` detaches. A step is one branch of the
`select!` or something a process does in between. Any branch whose event has
happened may be taken: the bias of the `select!` only orders the events the
runtime has already seen.
-/

namespace Atomis.Supervisor

inductive Pipe
  | stdout
  | stderr
  | probe
deriving DecidableEq

/-- `abandoned` is a pipe the drain window marked done while it was still open. -/
inductive Reading
  | reading
  | ended
  | failed
  | abandoned
deriving DecidableEq

inductive KillTask
  | unspawned
  | asleep (since : ℕ)
  | woken
deriving DecidableEq

inductive Status
  | looping
  | returned
  | dropped
deriving DecidableEq

def descendantDrainMs : ℕ := 1500

def killGraceMs : ℕ := 250

def bufBytes : ℕ := 16 * 1024

def KillTask.due (now : ℕ) : KillTask → Bool
  | .asleep since => since + killGraceMs ≤ now
  | _ => false

structure Config (ι : Type*) where
  main : ι
  timeoutMs : ℕ
  limit : Pipe → ℕ
  probeFd : Bool

structure State (ι : Type*) where
  now : ℕ
  alive : ι → Bool
  inGroup : ι → Bool
  holds : ι → Pipe → Bool
  buffered : Pipe → ℕ
  sentTerm : ι → Bool
  sentKill : ι → Bool
  cancelRequested : Bool
  cancelled : Bool
  timedOut : Bool
  terminating : Bool
  reading : Pipe → Reading
  bytes : Pipe → ℕ
  capped : Pipe → Bool
  limit : Option Pipe
  exited : Bool
  drainDeadline : Option ℕ
  killTask : KillTask
  status : Status

variable {ι : Type*} [DecidableEq ι]

/-- Right after the spawn: the child alone holds the write ends. -/
def init (c : Config ι) : State ι where
  now := 0
  alive i := i = c.main
  inGroup i := i = c.main
  holds i p := i = c.main && (p ≠ .probe || c.probeFd)
  buffered _ := 0
  sentTerm _ := false
  sentKill _ := false
  cancelRequested := false
  cancelled := false
  timedOut := false
  terminating := false
  reading p := if p = .probe ∧ c.probeFd = false then .ended else .reading
  bytes _ := 0
  capped _ := false
  limit := none
  exited := false
  drainDeadline := none
  killTask := .unspawned
  status := .looping

def State.member (s : State ι) (i : ι) : Bool := s.alive i && s.inGroup i

def State.allDone (s : State ι) : Bool :=
  s.reading .stdout ≠ .reading && s.reading .stderr ≠ .reading && s.reading .probe ≠ .reading

/-- `kill_group`. -/
def State.killGroup (s : State ι) (sent : ι → Bool) (i : ι) : Bool := sent i || s.member i

def State.terminate (s : State ι) : State ι :=
  if s.terminating then s
  else { s with
    terminating := true
    sentTerm := s.killGroup s.sentTerm
    killTask := .asleep s.now }

/-- The check at the foot of the loop, and the store of `finished` after it. -/
def State.settle (s : State ι) : State ι :=
  if s.exited && s.allDone then { s with status := .returned } else s

def State.giveUp (s : State ι) : State ι :=
  { s with reading := fun p => if s.reading p = .reading then .abandoned else s.reading p }

def State.receive (c : Config ι) (s : State ι) (p : Pipe) (n : ℕ) : State ι :=
  let s := { s with
    buffered := Function.update s.buffered p (s.buffered p - n)
    bytes := Function.update s.bytes p (s.bytes p + n) }
  if s.capped p = false ∧ c.limit p < s.bytes p then
    State.terminate { s with capped := Function.update s.capped p true, limit := some p }
  else s

inductive Action (ι : Type*)
  | pass (ms : ℕ)
  | requestCancel
  | exit (i : ι)
  | close (i : ι) (p : Pipe)
  | leaveGroup (i : ι)
  | joinGroup (i : ι)
  | fork (i j : ι)
  | hand (i j : ι) (p : Pipe)
  | write (i : ι) (p : Pipe) (n : ℕ)
  | takeCancel
  | takeTimeout
  | takeDrain
  | takeRead (p : Pipe) (n : ℕ)
  | takeEnd (p : Pipe)
  | takeError (p : Pipe)
  | takeWait
  | drop
  | wake

def enabled (c : Config ι) (s : State ι) : Action ι → Prop
  | .pass _ | .requestCancel => True
  | .exit i | .close i _ | .leaveGroup i | .joinGroup i => s.alive i = true
  | .fork i j => s.alive i = true ∧ s.alive j = false ∧ j ≠ c.main
  | .hand i j p => s.alive i = true ∧ s.alive j = true ∧ s.holds i p = true
  | .write i p n => s.alive i = true ∧ s.holds i p = true ∧ 0 < n
  | .takeCancel => s.status = .looping ∧ s.cancelRequested = true ∧ s.cancelled = false
  | .takeTimeout => s.status = .looping ∧ c.timeoutMs ≤ s.now ∧ s.timedOut = false ∧
      s.terminating = false
  | .takeDrain => s.status = .looping ∧ s.drainDeadline.any (· ≤ s.now) = true
  | .takeRead p n => s.status = .looping ∧ s.reading p = .reading ∧ 0 < n ∧
      n ≤ s.buffered p ∧ n ≤ bufBytes
  | .takeEnd p => s.status = .looping ∧ s.reading p = .reading ∧ s.buffered p = 0 ∧
      ∀ i, s.alive i = true → s.holds i p = false
  | .takeError p => s.status = .looping ∧ s.reading p = .reading
  | .takeWait => s.status = .looping ∧ s.exited = false ∧ s.alive c.main = false
  | .drop => s.status = .looping
  | .wake => s.killTask.due s.now = true

def next (c : Config ι) (s : State ι) : Action ι → State ι
  | .pass ms => { s with now := s.now + ms }
  | .requestCancel => { s with cancelRequested := true }
  | .exit i => { s with alive := Function.update s.alive i false }
  | .close i p => { s with
      holds := Function.update s.holds i (Function.update (s.holds i) p false) }
  | .leaveGroup i => { s with inGroup := Function.update s.inGroup i false }
  | .joinGroup i => { s with inGroup := Function.update s.inGroup i true }
  | .fork i j => { s with
      alive := Function.update s.alive j true
      inGroup := Function.update s.inGroup j (s.inGroup i)
      holds := Function.update s.holds j (s.holds i)
      sentTerm := Function.update s.sentTerm j false
      sentKill := Function.update s.sentKill j false }
  | .hand _ j p => { s with
      holds := Function.update s.holds j (Function.update (s.holds j) p true) }
  | .write _ p n => { s with buffered := Function.update s.buffered p (s.buffered p + n) }
  | .takeCancel => State.settle (State.terminate { s with cancelled := true })
  | .takeTimeout => State.settle (State.terminate { s with timedOut := true })
  | .takeDrain => s.terminate.giveUp.settle
  | .takeRead p n => (s.receive c p n).settle
  | .takeEnd p => State.settle { s with reading := Function.update s.reading p .ended }
  | .takeError p => State.settle { s with reading := Function.update s.reading p .failed }
  | .takeWait => State.settle { s with
      exited := true, drainDeadline := some (s.now + descendantDrainMs) }
  | .drop => { s with
      status := .dropped
      -- kill_on_drop, for a child not yet reaped
      sentKill := fun i => s.sentKill i || (i = c.main && s.exited = false && s.alive i) }
  | .wake => { s with
      killTask := .woken
      sentKill := if s.status = .returned then s.sentKill else s.killGroup s.sentKill }

def machine (c : Config ι) : Machine (State ι) (Action ι) := ⟨enabled c, next c⟩

/-! ## What holds of every run -/

structure Inv (c : Config ι) (s : State ι) : Prop where
  task : s.terminating = true → s.killTask ≠ .unspawned
  stopped : s.cancelled = true ∨ s.timedOut = true ∨ s.limit.isSome = true ∨
    (∃ p, s.reading p = .abandoned) → s.terminating = true
  ended : ∀ p, s.reading p = .ended → ∀ i, s.alive i = true → s.holds i p = false
  reaped : s.exited = true → s.alive c.main = false
  returned : s.status = .returned → s.exited = true ∧ ∀ p, s.reading p ≠ .reading

theorem inv_init (c : Config ι) : Inv c (init c) := by
  constructor <;> simp only [init]
  · simp
  · rintro (h | h | h | ⟨p, h⟩)
    · simp at h
    · simp at h
    · simp at h
    · split_ifs at h
  · intro p hp i _
    by_cases h : p = .probe ∧ c.probeFd = false
    · simp [h.1, h.2]
    · simp [h] at hp
  · simp
  · simp

variable {c : Config ι} {s : State ι}

omit [DecidableEq ι] in
theorem allDone_iff : s.allDone = true ↔ ∀ p, s.reading p ≠ .reading := by
  refine ⟨fun h p => ?_, fun h => by simp [State.allDone, h]⟩
  simp only [State.allDone, Bool.and_eq_true, decide_eq_true_eq] at h
  cases p
  · exact h.1.1
  · exact h.1.2
  · exact h.2

omit [DecidableEq ι] in
theorem Inv.settle (h : Inv c s) : Inv c s.settle := by
  unfold State.settle
  split_ifs with hs
  · rw [Bool.and_eq_true, allDone_iff] at hs
    exact ⟨h.task, h.stopped, h.ended, h.reaped, fun _ => hs⟩
  · exact h

/-- What `terminate` needs of the state it is called in: the reason for the call may
already be noted. -/
structure Callable (c : Config ι) (s : State ι) : Prop where
  task : s.terminating = true → s.killTask ≠ .unspawned
  ended : ∀ p, s.reading p = .ended → ∀ i, s.alive i = true → s.holds i p = false
  reaped : s.exited = true → s.alive c.main = false
  returned : s.status ≠ .returned

omit [DecidableEq ι] in
theorem Inv.callable (h : Inv c s) (hs : s.status = .looping) : Callable c s :=
  ⟨h.task, h.ended, h.reaped, by simp [hs]⟩

omit [DecidableEq ι] in
theorem terminate_terminating (s : State ι) : s.terminate.terminating = true := by
  unfold State.terminate
  split_ifs with h
  · exact h
  · rfl

omit [DecidableEq ι] in
theorem Callable.terminate (h : Callable c s) : Inv c s.terminate := by
  have hterm := terminate_terminating s
  unfold State.terminate at hterm ⊢
  split_ifs at hterm ⊢
  · exact ⟨h.task, fun _ => hterm, h.ended, h.reaped, fun hr => absurd hr h.returned⟩
  · exact ⟨by simp, fun _ => rfl, h.ended, h.reaped, fun hr => absurd hr h.returned⟩

omit [DecidableEq ι] in
theorem Inv.giveUp (h : Inv c s) (ht : s.terminating = true) : Inv c s.giveUp := by
  refine ⟨h.task, fun _ => ht, fun p hp => h.ended p ?_, h.reaped, fun hr => ?_⟩
  · by_cases hp' : s.reading p = .reading <;> simp_all [State.giveUp]
  · refine ⟨(h.returned hr).1, fun p => ?_⟩
    simp only [State.giveUp]
    split_ifs with hp
    · simp
    · exact hp

omit [DecidableEq ι] in
theorem Inv.receive (h : Inv c s) (hs : s.status = .looping) (p : Pipe) (n : ℕ) :
    Inv c (s.receive c p n) := by
  simp only [State.receive]
  split_ifs
  · exact Callable.terminate ⟨h.task, h.ended, h.reaped, by simp [hs]⟩
  · exact ⟨h.task, h.stopped, h.ended, h.reaped, h.returned⟩

omit [DecidableEq ι] in
/-- One pipe reaches its end or fails: the others are as they were. -/
theorem Inv.setReading (h : Inv c s) (hs : s.status = .looping) {p : Pipe} {r : Reading}
    (hr : r ≠ .abandoned) (hend : r = .ended → ∀ i, s.alive i = true → s.holds i p = false) :
    Inv c { s with reading := Function.update s.reading p r } := by
  refine ⟨h.task, fun hstop => h.stopped ?_, fun q hq => ?_, h.reaped, by simp [hs]⟩
  · rcases hstop with hc | ht | hl | ⟨q, hq⟩
    · exact .inl hc
    · exact .inr (.inl ht)
    · exact .inr (.inr (.inl hl))
    · refine .inr (.inr (.inr ⟨q, ?_⟩))
      by_cases hqp : q = p
      · exact absurd (by simpa [hqp] using hq) hr
      · simpa [hqp] using hq
  · by_cases hqp : q = p
    · subst hqp
      exact hend (by simpa using hq)
    · exact h.ended q (by simpa [hqp] using hq)

omit [DecidableEq ι] in
/-- What a process does keeps the invariant when no pipe without holders gets one. -/
theorem Inv.processes (h : Inv c s) {alive inGroup sentTerm sentKill : ι → Bool}
    {holds : ι → Pipe → Bool}
    (hmain : s.alive c.main = false → alive c.main = false)
    (hholds : ∀ p, (∀ i, s.alive i = true → s.holds i p = false) →
      ∀ i, alive i = true → holds i p = false) :
    Inv c { s with
      alive := alive, inGroup := inGroup, holds := holds
      sentTerm := sentTerm, sentKill := sentKill } :=
  ⟨h.task, h.stopped, fun p hp => hholds p (h.ended p hp), fun he => hmain (h.reaped he),
    h.returned⟩

theorem inv_step (s : State ι) (a : Action ι) (h : Inv c s) (ha : enabled c s a) :
    Inv c (next c s a) := by
  cases a with
  | pass ms => exact ⟨h.task, h.stopped, h.ended, h.reaped, h.returned⟩
  | requestCancel => exact ⟨h.task, h.stopped, h.ended, h.reaped, h.returned⟩
  | exit i =>
    refine h.processes (fun hm => ?_) fun p hp j hj => hp j ?_
    · by_cases hi : c.main = i <;> simp [hi, hm]
    · by_cases hi : j = i <;> simp_all
  | close i p =>
    refine h.processes id fun q hq j hj => ?_
    have := hq j hj
    by_cases hi : j = i <;> by_cases hqp : q = p <;> simp_all
  | leaveGroup i => exact h.processes id fun p hp => hp
  | joinGroup i => exact h.processes id fun p hp => hp
  | fork i j =>
    obtain ⟨hi, hj, hmain⟩ := ha
    refine h.processes (fun hm => ?_) fun p hp k hk => ?_
    · simpa [Function.update_apply, hmain.symm] using hm
    · by_cases hkj : k = j
      · simpa [hkj] using hp i hi
      · simpa [hkj] using hp k (by simpa [hkj] using hk)
  | hand i j p =>
    obtain ⟨hi, -, hip⟩ := ha
    refine h.processes id fun q hq k hk => ?_
    have hqp : q ≠ p := by
      rintro rfl
      simp [hq i hi] at hip
    have := hq k hk
    by_cases hkj : k = j <;> simp_all
  | write i p n => exact ⟨h.task, h.stopped, h.ended, h.reaped, h.returned⟩
  | takeCancel =>
    have hc := h.callable ha.1
    exact (Callable.terminate (s := { s with cancelled := true })
      ⟨hc.task, hc.ended, hc.reaped, hc.returned⟩).settle
  | takeTimeout =>
    have hc := h.callable ha.1
    exact (Callable.terminate (s := { s with timedOut := true })
      ⟨hc.task, hc.ended, hc.reaped, hc.returned⟩).settle
  | takeDrain =>
    exact ((h.callable ha.1).terminate.giveUp (terminate_terminating s)).settle
  | takeRead p n => exact (h.receive ha.1 p n).settle
  | takeEnd p => exact (h.setReading ha.1 (by simp) fun _ => ha.2.2.2).settle
  | takeError p => exact (h.setReading ha.1 (by simp) (by simp)).settle
  | takeWait =>
    exact Inv.settle ⟨h.task, h.stopped, h.ended, fun _ => ha.2.2, by simp [ha.1]⟩
  | drop => exact ⟨h.task, h.stopped, h.ended, h.reaped, by simp [next]⟩
  | wake => exact ⟨by simp [next], h.stopped, h.ended, h.reaped, h.returned⟩

theorem inv_of_reaches (h : (machine c).Reaches (init c) s) : Inv c s :=
  h.invariant inv_step (inv_init c)

/-! ## What the kill task leaves -/

theorem wake_sentKill (hs : s.status ≠ .returned) {i : ι} (hi : s.member i = true) :
    (next c s .wake).sentKill i = true := by
  simp [next, hs, State.killGroup, hi]

/-- A run that was stopped has its kill task. When the task is due it sends SIGKILL to
every member left, unless the loop has returned: then it sends nothing, the child is reaped
and nobody holds a pipe that was read to its end. -/
theorem terminate_sweeps (h : (machine c).Reaches (init c) s) :
    (s.cancelled = true ∨ s.timedOut = true ∨ s.limit.isSome = true ∨
      (∃ p, s.reading p = .abandoned) → s.killTask ≠ .unspawned) ∧
    (s.killTask.due s.now = true →
      (s.status ≠ .returned → ∀ i, s.member i = true → (next c s .wake).sentKill i = true) ∧
      (s.status = .returned → (∀ p, s.reading p ≠ .abandoned) →
        (next c s .wake).sentKill = s.sentKill ∧ s.alive c.main = false ∧
        ∀ p i, s.alive i = true → s.holds i p = true → s.reading p = .failed)) := by
  have hinv := inv_of_reaches h
  refine ⟨fun hstop => hinv.task (hinv.stopped hstop), fun _ => ⟨?_, ?_⟩⟩
  · intro hs i hi
    exact wake_sentKill hs hi
  · intro hs hkept
    obtain ⟨hexit, hdone⟩ := hinv.returned hs
    refine ⟨by simp [next, hs], hinv.reaped hexit, fun p i hi hp => ?_⟩
    cases hr : s.reading p with
    | reading => exact absurd hr (hdone p)
    | ended => simp [hinv.ended p hr i hi] at hp
    | failed => rfl
    | abandoned => exact absurd hr (hkept p)

/-! ## Two runs -/

def shell : Config (Fin 2) := ⟨0, 30000, fun _ => 1024, false⟩

instance [Fintype ι] : DecidableRel (machine (ι := ι) c).enabled := fun s a => by
  cases a <;> simp only [machine, enabled] <;> infer_instance

/-- A cancelled shell whose background job ignores SIGTERM and keeps the pipes. -/
def stubbornJob : List (Action (Fin 2)) :=
  [.fork 0 1, .requestCancel, .takeCancel, .exit 0, .takeWait, .pass 250]

/-- The same job with its pipes closed: the loop returns at once. -/
def silentJob : List (Action (Fin 2)) :=
  [.fork 0 1, .close 1 .stdout, .close 1 .stderr, .requestCancel, .takeCancel, .exit 0,
    .takeEnd .stdout, .takeEnd .stderr, .takeWait, .pass 250]

theorem terminate_sweeps_stubbornJob :
    ∃ s, (machine shell).Reaches (init shell) s ∧ s.member 1 = true ∧
      (next shell s .wake).sentKill 1 = true := by
  obtain ⟨s, hs, hp⟩ := Machine.exists_reaches_of_exec
    (M := machine shell) (s := init shell) (l := stubbornJob)
    (p := fun s => s.member 1 && s.killTask.due s.now && s.status ≠ .returned)
    (by decide +kernel)
  simp only [Bool.and_eq_true, decide_eq_true_eq] at hp
  obtain ⟨⟨hmem, hdue⟩, hstatus⟩ := hp
  exact ⟨s, hs, hmem, ((terminate_sweeps hs).2 hdue).1 hstatus 1 hmem⟩

/-- A member that let go of the pipes outlives the run it belongs to. -/
theorem terminate_spares_silentJob :
    ∃ s, (machine shell).Reaches (init shell) s ∧ s.terminating = true ∧
      s.killTask.due s.now = true ∧ s.member 1 = true ∧
      (next shell s .wake).sentKill 1 = false := by
  obtain ⟨s, hs, hp⟩ := Machine.exists_reaches_of_exec
    (M := machine shell) (s := init shell) (l := silentJob)
    (p := fun s => s.terminating && (s.killTask.due s.now && (s.member 1 &&
      !(next shell s .wake).sentKill 1))) (by decide +kernel)
  simp only [Bool.and_eq_true, Bool.not_eq_true'] at hp
  exact ⟨s, hs, hp⟩

end Atomis.Supervisor
