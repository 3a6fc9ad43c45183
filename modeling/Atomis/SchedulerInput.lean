import Atomis.SchedulerOverlap

/-!
# Typed input and the scheduler's slot

`write_stdin`, `Session::stdin` and the channel between them, over one
scheduler. An interactive run's channel goes by the run's id: the sender lies in
`live_input`, the receiver in the session's slot until a program takes it. A
runner that returns or panics drops the receiver its program holds. The slot's
fields agree with one another in every run in which the watchdog of a crashed
run never finds its input open.
-/

namespace Atomis.Scheduler

inductive LiveInput
  | data (bytes : List UInt8)
  | eof
deriving DecidableEq

/-- What became of a receiver that left the session's slot. -/
inductive Receiver
  | untaken
  | held (program : ℕ)
  | dropped (program : ℕ)
deriving DecidableEq, Inhabited

/-- A message `write_stdin` answered `Ok` for, and the run active at that moment. -/
structure Accepted where
  active : Option ℕ
  channel : ℕ
  input : LiveInput
deriving DecidableEq

structure Received where
  program : ℕ
  channel : ℕ
  input : LiveInput
deriving DecidableEq

structure InputState where
  core : State
  queue : Table ℕ (List LiveInput)
  receiver : Table ℕ Receiver
  accepted : List Accepted
  received : List Received

inductive InputAction
  | core (a : Action)
  | stdin (r : ℕ)
  | write (input : LiveInput)
  | recv (q : ℕ)
  | drop (q : ℕ)
deriving DecidableEq

def newInput (world : World) (language : Language) : InputState :=
  ⟨init world language, .empty, .empty, [], []⟩

/-- A running task's program holds the channel's receiver. -/
def InputState.reads (s : InputState) (q : ℕ) : Bool :=
  match s.receiver q with
  | .held p => s.core.sched.task p = .running
  | _ => false

def InputState.alive (s : InputState) (q : ℕ) : Bool :=
  s.core.world.liveStdin = some q || s.reads q

/-- `Session::stdin`, called for the program of run `r`. -/
def stdin (s : InputState) (r : ℕ) : InputState :=
  match s.core.world.liveStdin with
  | some q =>
    { s with
      core := { s.core with world := { s.core.world with liveStdin := none } }
      receiver := s.receiver.set q (.held r) }
  | none => s

def InputState.closeOnEof (s : InputState) : LiveInput → InputState
  | .eof =>
    { s with core := { s.core with sched := { s.core.sched with
        inner := { s.core.sched.inner with liveInput := none } } } }
  | .data _ => s

def InputState.push (s : InputState) (q : ℕ) (input : LiveInput) : InputState :=
  { s with
    queue := s.queue.set q (s.queue q ++ [input])
    accepted := s.accepted ++ [⟨s.core.sched.inner.activeRun, q, input⟩] }

/-- The answer of `write_stdin`, and the state it leaves. -/
def writeStdin (s : InputState) (input : LiveInput) : Bool × InputState :=
  match s.core.sched.inner.liveInput with
  | some q =>
    if s.alive q then (true, (s.push q input).closeOnEof input) else (false, s.closeOnEof input)
  | none => (false, s)

/-- The program's stdin writer takes the next message; it ends at `Eof`. -/
def recv (s : InputState) (q : ℕ) : InputState :=
  match s.receiver q, s.queue q with
  | .held p, input :: inputs =>
    { s with
      queue := s.queue.set q inputs
      receiver := if input = .eof then s.receiver.set q (.dropped p) else s.receiver
      received := s.received ++ [⟨p, q, input⟩] }
  | _, _ => s

def drop (s : InputState) (q : ℕ) : InputState :=
  match s.receiver q with
  | .held p => { s with receiver := s.receiver.set q (.dropped p) }
  | _ => s

def inputEnabled (s : InputState) : InputAction → Prop
  | .core a => enabled s.core a ∧ a ≠ .takeStdin ∧ a ≠ .writeEof
  | .stdin r => s.core.sched.task r = .running
  | .write _ => True
  | .recv q => s.reads q = true ∧ s.queue q ≠ []
  | .drop q => s.reads q = true

section
variable (present : Language → Bool)

def inputNext (s : InputState) : InputAction → InputState
  | .core a => { s with core := next present s.core a }
  | .stdin r => stdin s r
  | .write input => (writeStdin s input).2
  | .recv q => recv s q
  | .drop q => drop s q

def inputMachine : Machine InputState InputAction := ⟨inputEnabled, inputNext present⟩

instance (s : State) (a : Action) : Decidable (enabled s a) :=
  inferInstanceAs (Decidable ((machine allPresent).enabled s a))

instance : DecidableRel (inputMachine present).enabled := fun s a => by
  cases a <;> simp only [inputMachine, inputEnabled] <;> infer_instance

end

/-! ## What a step does to the slot and to the starts -/

def CallPc.start : CallPc → Option (Args × ℕ)
  | .install args _ r | .announce args _ r | .spawn args _ r => some (args, r)
  | _ => none

/-- Past cancelling what the slot held and before filling it. -/
def CallPc.cleared : CallPc → Bool
  | .takeFinished .. | .waitFinished .. | .recheckVersion .. | .setStdin .. | .install .. => true
  | _ => false

/-- The run reads what the user types. -/
def Sched.interactive (c : Sched) (r : ℕ) : Prop :=
  (∃ x args, (c.caller x).start = some (args, r) ∧ args.interactive = true) ∨
    ∃ run, c.runs r = some run ∧ run.args.interactive = true

/-- All but drawing, installing and spawning a run, a crashed run's recovery, and the
two ways to leave the invariants of typed input. -/
def State.plain (s : State) : Action → Prop
  | .step x => match s.sched.caller x with
    | .setStdin .. | .install .. | .spawn .. => False
    | _ => True
  | .watchdog r => ¬ (s.sched.watchdog r = .recovering ∧ s.sched.inner.activeRun = some r)
  | .takeStdin | .graceElapsed _ => False
  | _ => True

structure Keeps (s t : State) : Prop where
  start : ∀ x, (t.sched.caller x).start = (s.sched.caller x).start
  cleared : ∀ x, (t.sched.caller x).cleared = true →
    (s.sched.caller x).cleared = true ∨ t.sched.inner.activeRun = none
  runs : t.sched.runs = s.sched.runs
  born : ∀ r, t.sched.task r = .unborn ↔ s.sched.task r = .unborn
  ended : ∀ r, (s.sched.task r).isEnded = true → (t.sched.task r).isEnded = true
  outlived : t.sched.outlived = s.sched.outlived
  liveStdin : t.world.liveStdin = s.world.liveStdin
  slot : t.sched.inner.activeRun = none ∧ t.sched.inner.liveInput = none ∨
    t.sched.inner.activeRun = s.sched.inner.activeRun ∧
      (t.sched.inner.liveInput = none ∨ t.sched.inner.liveInput = s.sched.inner.liveInput)

theorem Keeps.refl (s : State) : Keeps s s :=
  ⟨fun _ => rfl, fun _ h => .inl h, rfl, fun _ => .rfl, fun _ h => h, rfl, rfl,
    .inr ⟨rfl, .inr rfl⟩⟩

theorem CallPc.holding_of_start {pc : CallPc} {args : Args} {r : ℕ}
    (h : pc.start = some (args, r)) : pc.holding = true := by
  cases pc <;> simp_all [CallPc.start, CallPc.holding]

/-- One caller moves on, and everything else of the slot is left alone. -/
theorem Keeps.move {s t : State} {x : Caller} {pc : CallPc}
    (hcaller : ∀ y, t.sched.caller y = if y = x then pc else s.sched.caller y)
    (hstart : pc.start = (s.sched.caller x).start)
    (hcleared : pc.cleared = true → (s.sched.caller x).cleared = true)
    (hruns : t.sched.runs = s.sched.runs) (htask : t.sched.task = s.sched.task)
    (hout : t.sched.outlived = s.sched.outlived)
    (hstdin : t.world.liveStdin = s.world.liveStdin)
    (hactive : t.sched.inner.activeRun = s.sched.inner.activeRun)
    (hlive : t.sched.inner.liveInput = s.sched.inner.liveInput) : Keeps s t where
  start y := by
    rw [hcaller]
    split_ifs with hyx
    · rw [hstart, hyx]
    · rfl
  cleared y hy := by
    rw [hcaller] at hy
    split_ifs at hy with hyx
    · exact .inl (hyx ▸ hcleared hy)
    · exact .inl hy
  runs := hruns
  born r := by rw [htask]
  ended r hr := by rwa [htask]
  outlived := hout
  liveStdin := hstdin
  slot := .inr ⟨hactive, .inr hlive⟩

/-- No caller moves. -/
theorem Keeps.aside {s t : State} (hcaller : t.sched.caller = s.sched.caller)
    (hruns : t.sched.runs = s.sched.runs) (hout : t.sched.outlived = s.sched.outlived)
    (hstdin : t.world.liveStdin = s.world.liveStdin)
    (hborn : ∀ r, t.sched.task r = .unborn ↔ s.sched.task r = .unborn)
    (hended : ∀ r, (s.sched.task r).isEnded = true → (t.sched.task r).isEnded = true)
    (hslot : t.sched.inner.activeRun = none ∧ t.sched.inner.liveInput = none ∨
      t.sched.inner.activeRun = s.sched.inner.activeRun ∧
        (t.sched.inner.liveInput = none ∨ t.sched.inner.liveInput = s.sched.inner.liveInput)) :
    Keeps s t :=
  ⟨fun x => by rw [hcaller], fun x hx => .inl (hcaller ▸ hx), hruns, hborn, hended, hout, hstdin,
    hslot⟩

/-- A task that is spawned and has not ended moves on. -/
theorem Keeps.ofTask {s t : State} {r : ℕ} {pc : TaskPc} (hborn : s.sched.task r ≠ .unborn)
    (hover : (s.sched.task r).isEnded = false) (hpc : pc ≠ .unborn)
    (htask : t.sched.task = s.sched.task.set r pc)
    (hcaller : t.sched.caller = s.sched.caller)
    (hruns : t.sched.runs = s.sched.runs) (hout : t.sched.outlived = s.sched.outlived)
    (hstdin : t.world.liveStdin = s.world.liveStdin)
    (hslot : t.sched.inner.activeRun = none ∧ t.sched.inner.liveInput = none ∨
      t.sched.inner.activeRun = s.sched.inner.activeRun ∧
        (t.sched.inner.liveInput = none ∨ t.sched.inner.liveInput = s.sched.inner.liveInput)) :
    Keeps s t := by
  refine .aside hcaller hruns hout hstdin (fun q => ?_) (fun q hq => ?_) hslot
  · rw [htask, Table.set_get]
    split_ifs with hqr
    · simp [hqr, hpc, hborn]
    · rfl
  · rw [htask, Table.set_get, if_neg]
    · exact hq
    · rintro rfl
      rw [hover] at hq
      cases hq

variable {present : Language → Bool}

theorem Keeps.cancelInternal {s : State} (hb : Basic s.sched) :
    Keeps s ⟨s.world, Scheduler.cancelInternal s.sched⟩ := by
  have hslot : ∀ y, s.sched.inner.debounce.map Caller.timer = some y →
      (s.sched.caller y).start = none := fun y hy => by
    obtain ⟨tag, hdeb, rfl⟩ := Option.map_eq_some_iff.mp hy
    have hsleep := hb.pending tag hdeb
    cases hpc : s.sched.caller (.timer tag) <;> simp_all [CallPc.isSleeping, CallPc.start]
  refine ⟨fun y => ?_, fun y _ => .inr rfl, rfl, fun _ => .rfl, fun _ h => h, rfl, rfl,
    .inl ⟨rfl, rfl⟩⟩
  change ((Scheduler.cancelInternal s.sched).caller y).start = _
  rw [cancelInternal_caller]
  split_ifs with hy
  · exact (hslot y hy).symm
  · rfl

theorem Keeps.trans {s t u : State} (h₁ : Keeps s t) (h₂ : Keeps t u) : Keeps s u where
  start x := (h₂.start x).trans (h₁.start x)
  cleared x hx := by
    rcases h₂.cleared x hx with ht | ht
    · refine (h₁.cleared x ht).imp_right fun hnone => ?_
      rcases h₂.slot with hu | hu
      · exact hu.1
      · exact hu.1.trans hnone
    · exact .inr ht
  runs := h₂.runs.trans h₁.runs
  born r := (h₂.born r).trans (h₁.born r)
  ended r hr := h₂.ended r (h₁.ended r hr)
  outlived := h₂.outlived.trans h₁.outlived
  liveStdin := h₂.liveStdin.trans h₁.liveStdin
  slot := by
    rcases h₁.slot with ⟨ha, hl⟩ | ⟨ha, hl⟩ <;> rcases h₂.slot with hu | ⟨hua, hul⟩
    · exact .inl hu
    · exact .inl ⟨hua.trans ha, hul.elim id fun h => h.trans hl⟩
    · exact .inl hu
    · exact .inr ⟨hua.trans ha, hul.elim .inl fun h => hl.imp h.trans h.trans⟩

theorem keeps_stepCaller {s : State} (hb : Basic s.sched) {x : Caller}
    (hplain : s.plain (.step x)) :
    Keeps s ⟨(stepCaller present s.world s.sched x).1,
      (stepCaller present s.world s.sched x).2⟩ := by
  have hcancel := Keeps.cancelInternal hb
  cases hx : s.sched.caller x with
  | idle => simpa only [stepCaller, hx] using Keeps.refl s
  | cancelEdit language n =>
    simp only [stepCaller, hx]
    refine hcancel.trans (.move (setCaller_caller _ x _) ?_ (fun h => by cases h)
      rfl rfl rfl rfl rfl rfl)
    rw [hcancel.start, hx]
    rfl
  | readVersion | lockStart | announce =>
    simp only [stepCaller, hx]
    exact .move (setCaller_caller _ x _) (by rw [hx]; rfl) (fun h => by cases h) rfl rfl rfl rfl
      rfl rfl
  | readSettings | sleeping | checkVersion | chooseTarget =>
    simp only [stepCaller, hx]
    split_ifs <;> exact .move (setCaller_caller _ x _) (by rw [hx]; rfl) (fun h => by cases h)
      rfl rfl rfl rfl rfl rfl
  | arm args =>
    have htimer : s.sched.caller (.timer (s.sched.inner.debounceSeq + 1)) = .idle := by
      by_contra hne
      have := hb.tagged _ hne
      omega
    have hidle : Keeps s ⟨s.world, s.sched.setCaller x .idle⟩ :=
      .move (setCaller_caller _ x _) (by rw [hx]; rfl) (fun h => by cases h) rfl rfl rfl rfl rfl rfl
    simp only [stepCaller, hx]
    refine hidle.trans (.move (setCaller_caller _ _ (.sleeping args)) ?_ (fun h => by cases h)
      rfl rfl rfl rfl rfl rfl)
    rw [hidle.start, htimer]
    rfl
  | supersede args target =>
    simp only [stepCaller, hx]
    refine ⟨fun y => ?_, fun _ _ => .inr rfl, rfl, fun _ => .rfl, fun _ h => h, rfl, rfl,
      .inl ⟨rfl, rfl⟩⟩
    change (((cancelInternal s.sched).setCaller x _).caller y).start = _
    rw [setCaller_caller]
    split_ifs with hyx
    · rw [hyx, hx]
      rfl
    · exact hcancel.start y
  | takeFinished args target =>
    simp only [stepCaller, hx]
    cases s.sched.inner.finished <;>
      exact .move (setCaller_caller _ x _) (by rw [hx]; rfl) (fun _ => by rw [hx]; rfl)
        rfl rfl rfl rfl rfl rfl
  | waitFinished args target previous =>
    simp only [stepCaller, hx]
    exact .move (setCaller_caller _ x _) (by rw [hx]; rfl) (fun _ => by rw [hx]; rfl)
      rfl rfl rfl rfl rfl rfl
  | recheckVersion args target =>
    simp only [stepCaller, hx]
    split_ifs <;> exact .move (setCaller_caller _ x _) (by rw [hx]; rfl) (fun _ => by rw [hx]; rfl)
      rfl rfl rfl rfl rfl rfl
  | setStdin | install | spawn =>
    simp only [State.plain, hx] at hplain

theorem keeps_stepTask {s : State} {r : ℕ} (hr : (s.sched.task r).finishes = true) :
    Keeps s ⟨s.world, stepTask s.world s.sched r⟩ := by
  have hborn : s.sched.task r ≠ .unborn := fun h => by rw [h] at hr; cases hr
  have hover : (s.sched.task r).isEnded = false := by
    cases h : s.sched.task r <;> simp_all [TaskPc.finishes, TaskPc.isEnded]
  cases hpc : s.sched.task r with
  | checking | checkingVersion =>
    simp only [stepTask, hpc]
    split_ifs <;> exact .ofTask hborn hover (by simp) rfl rfl rfl rfl rfl (.inr ⟨rfl, .inr rfl⟩)
  | reporting outcome =>
    cases outcome with
    | some state =>
      simp only [stepTask, hpc]
      exact .ofTask hborn hover (by simp) rfl rfl rfl rfl rfl (.inr ⟨rfl, .inr rfl⟩)
    | none =>
      simp only [stepTask, hpc]
      split <;> exact .ofTask hborn hover (by simp) rfl rfl rfl rfl rfl (.inr ⟨rfl, .inr rfl⟩)
  | finishing =>
    simp only [stepTask, hpc]
    exact .ofTask hborn hover (by simp) rfl rfl rfl rfl rfl (.inr ⟨rfl, .inr rfl⟩)
  | cleaning =>
    simp only [stepTask, hpc]
    refine .ofTask hborn hover (by simp) rfl rfl rfl rfl rfl ?_
    split_ifs
    · exact .inl ⟨rfl, rfl⟩
    · exact .inr ⟨rfl, .inr rfl⟩
  | _ =>
    rw [hpc] at hr
    cases hr

theorem keeps_stepWatchdog {s : State} {r : ℕ} (hplain : s.plain (.watchdog r)) :
    Keeps s ⟨s.world, stepWatchdog s.sched r⟩ := by
  have hslot : ∀ t : State, t.sched.inner = s.sched.inner → t.sched.caller = s.sched.caller →
      t.sched.runs = s.sched.runs → t.sched.outlived = s.sched.outlived →
      t.sched.task = s.sched.task → t.world = s.world → Keeps s t :=
    fun t hi hc hr ho ht hw => .aside hc hr ho (by rw [hw]) (fun _ => by rw [ht])
      (fun _ h => by rwa [ht]) (by rw [hi]; exact .inr ⟨rfl, .inr rfl⟩)
  cases hpc : s.sched.watchdog r with
  | recovering =>
    have hother : ¬ s.sched.inner.activeRun = some r := fun h => hplain ⟨hpc, h⟩
    simp only [stepWatchdog, hpc, if_neg hother]
    exact hslot _ rfl rfl rfl rfl rfl rfl
  | _ =>
    simp only [stepWatchdog, hpc]
    exact hslot _ rfl rfl rfl rfl rfl rfl

theorem keeps_next {s : State} (hb : Basic s.sched) {a : Action} (ha : enabled s a)
    (hplain : s.plain a) : Keeps s (next present s a) := by
  have hcancel := Keeps.cancelInternal hb
  cases a with
  | call k | edit k =>
    have hk : s.sched.caller (.external k) = .idle := ha
    exact .move (setCaller_caller _ (.external k) _) (by rw [hk]; rfl) (fun h => by cases h)
      rfl rfl rfl rfl rfl rfl
  | stop | close =>
    exact hcancel.trans (.aside rfl rfl rfl rfl (fun _ => .rfl) (fun _ h => h) (.inl ⟨rfl, rfl⟩))
  | step x => exact keeps_stepCaller hb hplain
  | takeSlot r | runnerReturn r | panic r =>
    have hr : s.sched.task r = _ := ha
    exact .ofTask (by rw [hr]; simp) (by rw [hr]; rfl) (by simp) rfl rfl rfl rfl rfl
      (.inr ⟨rfl, .inr rfl⟩)
  | leaveQueue r =>
    have hr : s.sched.task r = .queued := ha.1
    exact .ofTask (by rw [hr]; simp) (by rw [hr]; rfl) (by simp) rfl rfl rfl rfl rfl
      (.inr ⟨rfl, .inr rfl⟩)
  | drained r =>
    simp only [next]
    split
    · next hr =>
      exact .ofTask (by rw [hr]; simp) (by rw [hr]; rfl) (by simp) rfl rfl rfl rfl rfl
        (.inr ⟨rfl, .inr rfl⟩)
    · exact .refl s
  | task r => exact keeps_stepTask ha
  | forward r =>
    simp only [next, stepForward]
    split
    · split <;> exact .aside rfl rfl rfl rfl (fun _ => .rfl) (fun _ h => h) (.inr ⟨rfl, .inr rfl⟩)
    all_goals exact .aside rfl rfl rfl rfl (fun _ => .rfl) (fun _ h => h) (.inr ⟨rfl, .inr rfl⟩)
  | watchdog r => exact keeps_stepWatchdog hplain
  | watch r =>
    simp only [next, stepWatcher]
    split
    · exact .refl s
    · exact .aside rfl rfl rfl rfl (fun _ => .rfl) (fun _ h => h) (.inr ⟨rfl, .inr rfl⟩)
    · exact hcancel.trans (.aside rfl rfl rfl rfl (fun _ => .rfl) (fun _ h => h) (.inl ⟨rfl, rfl⟩))
    · exact .aside rfl rfl rfl rfl (fun _ => .rfl) (fun _ h => h) (.inr ⟨rfl, .inr rfl⟩)
  | writeEof => exact .aside rfl rfl rfl rfl (fun _ => .rfl) (fun _ h => h) (.inr ⟨rfl, .inl rfl⟩)
  | graceElapsed x => exact hplain.elim
  | takeStdin => exact hplain.elim
  | _ => exact .aside rfl rfl rfl rfl (fun _ => .rfl) (fun _ h => h) (.inr ⟨rfl, .inr rfl⟩)

/-- What a step that is not plain is. -/
theorem State.special {s : State} {a : Action} (h : ¬ s.plain a) :
    (∃ x args target, a = .step x ∧ s.sched.caller x = .setStdin args target) ∨
    (∃ x args target r, a = .step x ∧ s.sched.caller x = .install args target r) ∨
    (∃ x args target r, a = .step x ∧ s.sched.caller x = .spawn args target r) ∨
    (∃ r, a = .watchdog r ∧ s.sched.watchdog r = .recovering ∧ s.sched.inner.activeRun = some r) ∨
    a = .takeStdin ∨ ∃ x, a = .graceElapsed x := by
  cases a with
  | step x =>
    cases hx : s.sched.caller x with
    | setStdin args target => exact .inl ⟨x, args, target, rfl, hx⟩
    | install args target r => exact .inr (.inl ⟨x, args, target, r, rfl, hx⟩)
    | spawn args target r => exact .inr (.inr (.inl ⟨x, args, target, r, rfl, hx⟩))
    | _ => simp [State.plain, hx] at h
  | watchdog r =>
    obtain ⟨hpc, hactive⟩ := not_not.mp h
    exact .inr (.inr (.inr (.inl ⟨r, rfl, hpc, hactive⟩)))
  | takeStdin => exact .inr (.inr (.inr (.inr (.inl rfl))))
  | graceElapsed x => exact .inr (.inr (.inr (.inr (.inr ⟨x, rfl⟩))))
  | _ => exact (h trivial).elim

theorem Keeps.interactive {s t : State} (h : Keeps s t) (r : ℕ) :
    t.sched.interactive r ↔ s.sched.interactive r := by
  simp only [Sched.interactive, h.start, h.runs]

/-- What every run keeps of the slot. -/
structure SlotInv (c : Sched) : Prop where
  known : ∀ r run, c.runs r = some run → c.task r ≠ .unborn
  cleared : ∀ x, (c.caller x).cleared = true → c.inner.activeRun = none
  typed : ∀ q, c.inner.liveInput = some q → c.interactive q
  owned : ∀ q, c.inner.liveInput = some q →
    c.inner.activeRun = some q ∨ c.inner.activeRun = none ∧ (c.task q).isEnded = true

theorem slotInv_new (language : Language) : SlotInv (new language) := by
  constructor <;> simp [new, CallPc.cleared, default, instInhabitedCallPc.default]

theorem CallPc.holding_of_cleared {pc : CallPc} (h : pc.cleared = true) : pc.holding = true := by
  cases pc <;> simp_all [CallPc.cleared, CallPc.holding]

theorem SlotInv.keeps {s t : State} (h : SlotInv s.sched) (hk : Keeps s t) : SlotInv t.sched := by
  refine ⟨fun r run hr => ?_, fun x hx => ?_, fun q hq => ?_, fun q hq => ?_⟩
  · rw [hk.runs] at hr
    rw [Ne, hk.born]
    exact h.known r run hr
  · rcases hk.cleared x hx with hold | hnone
    · rcases hk.slot with ht | ht
      · exact ht.1
      · exact ht.1.trans (h.cleared x hold)
    · exact hnone
  · rw [hk.interactive]
    rcases hk.slot with ht | ⟨-, ht | ht⟩
    · rw [ht.2] at hq
      cases hq
    · rw [ht] at hq
      cases hq
    · exact h.typed q (ht ▸ hq)
  · rcases hk.slot with ht | ⟨ha, ht | ht⟩
    · rw [ht.2] at hq
      cases hq
    · rw [ht] at hq
      cases hq
    · rw [ha]
      exact (h.owned q (ht ▸ hq)).imp_right fun ⟨hnone, hend⟩ => ⟨hnone, hk.ended q hend⟩

/-- A caller with a start of its own is the only one. -/
theorem Basic.start_unique {c : Sched} (hb : Basic c) {x y : Caller} {args args' : Args} {r q : ℕ}
    (hx : (c.caller x).start = some (args, r)) (hy : (c.caller y).start = some (args', q)) :
    args = args' ∧ r = q := by
  obtain rfl := hb.unique (CallPc.holding_of_start hx) (CallPc.holding_of_start hy)
  simpa using hx.symm.trans hy

section
variable {w : World} {c : Sched} {x : Caller} {args : Args} {target : Language} {r : ℕ}

theorem start_install (hx : c.caller x = .install args target r) (y : Caller) :
    ((stepCaller present w c x).2.caller y).start = (c.caller y).start := by
  simp only [stepCaller, hx]
  rw [setCaller_caller]
  split_ifs with hyx hi
  · rw [hyx, hx]
    rfl
  · rw [hyx, hx]
    rfl
  · rfl

theorem start_spawn (hx : c.caller x = .spawn args target r) (y : Caller) :
    ((stepCaller present w c x).2.caller y).start = if y = x then none else (c.caller y).start := by
  simp only [stepCaller, hx]
  change ((c.setCaller x .idle).caller y).start = _
  rw [setCaller_caller]
  split_ifs <;> rfl

theorem runs_spawn (hx : c.caller x = .spawn args target r) (q : ℕ) :
    (stepCaller present w c x).2.runs q = if q = r then some ⟨args, target⟩ else c.runs q := by
  simp only [stepCaller, hx]
  exact Table.set_get ..

theorem task_spawn (hx : c.caller x = .spawn args target r) (q : ℕ) :
    (stepCaller present w c x).2.task q = if q = r then .queued else c.task q := by
  simp only [stepCaller, hx]
  exact Table.set_get ..

theorem interactive_install (hx : c.caller x = .install args target r) (q : ℕ) :
    (stepCaller present w c x).2.interactive q ↔ c.interactive q := by
  have hruns : (stepCaller present w c x).2.runs = c.runs := by simp only [stepCaller, hx]; rfl
  simp only [Sched.interactive, start_install hx, hruns]

theorem interactive_spawn (hx : c.caller x = .spawn args target r)
    (hnew : c.runs r = none) (q : ℕ) :
    (stepCaller present w c x).2.interactive q ↔ c.interactive q := by
  have hstart : (c.caller x).start = some (args, r) := by rw [hx]; rfl
  simp only [Sched.interactive, start_spawn hx, runs_spawn hx]
  constructor
  · rintro (⟨y, args', hy, hi⟩ | ⟨run, hr, hi⟩)
    · split_ifs at hy
      exact .inl ⟨y, args', hy, hi⟩
    · split_ifs at hr with hqr
      · cases hr
        exact .inl ⟨x, args, hqr ▸ hstart, hi⟩
      · exact .inr ⟨run, hr, hi⟩
  · rintro (⟨y, args', hy, hi⟩ | ⟨run, hr, hi⟩)
    · by_cases hyx : y = x
      · obtain ⟨rfl, rfl⟩ : args = args' ∧ r = q := by
          subst hyx
          simpa using hstart.symm.trans hy
        exact .inr ⟨⟨args, target⟩, by simp, hi⟩
      · exact .inl ⟨y, args', by rwa [if_neg hyx], hi⟩
    · refine .inr ⟨run, ?_, hi⟩
      rw [if_neg]
      · exact hr
      · rintro rfl
        rw [hnew] at hr
        cases hr

theorem SlotInv.unknown (h : SlotInv c) {q : ℕ} (hq : c.task q = .unborn) : c.runs q = none := by
  cases hr : c.runs q with
  | none => rfl
  | some run => exact absurd hq (h.known q run hr)

theorem SlotInv.install (h : SlotInv c) (hb : Basic c) (hx : c.caller x = .install args target r) :
    SlotInv (stepCaller present w c x).2 := by
  have hhold : (c.caller x).holding = true := by rw [hx]; rfl
  have hint : ∀ q, (stepCaller present w c x).2.interactive q ↔ c.interactive q :=
    interactive_install hx
  simp only [stepCaller, hx] at hint ⊢
  have hcaller := setCaller_caller (c.mark (.active args.request r)) x
    (if args.interactive then .announce args target r else .spawn args target r)
  refine ⟨h.known, fun y hy => ?_, fun q hq => ?_, fun q hq => ?_⟩
  · change (((c.mark _).setCaller x _).caller y).cleared = true at hy
    rw [hcaller] at hy
    split_ifs at hy with hyx
    · cases hy
    · cases hy
    · exact (hyx (hb.unique (CallPc.holding_of_cleared hy) hhold)).elim
  · rw [hint]
    change (if args.interactive then some r else none) = some q at hq
    split_ifs at hq with hi
    obtain rfl := Option.some.inj hq
    exact .inl ⟨x, args, by rw [hx]; rfl, hi⟩
  · change (if args.interactive then some r else none) = some q at hq
    split_ifs at hq
    exact .inl hq

theorem SlotInv.spawn (h : SlotInv c) (hf : Fresh w c) (hx : c.caller x = .spawn args target r) :
    SlotInv (stepCaller present w c x).2 := by
  have hborn : c.task r = .unborn := (hf.starting x r (by rw [hx]; rfl)).2
  have hinner : (stepCaller present w c x).2.inner = c.inner := by simp only [stepCaller, hx]; rfl
  refine ⟨fun q run hq => ?_, fun y hy => ?_, fun q hq => ?_, fun q hq => ?_⟩
  · rw [runs_spawn hx] at hq
    rw [task_spawn hx]
    split_ifs at hq ⊢
    · simp
    · exact h.known q run hq
  · rw [hinner]
    refine h.cleared y ?_
    simp only [stepCaller, hx] at hy
    change ((c.setCaller x .idle).caller y).cleared = true at hy
    rw [setCaller_caller] at hy
    split_ifs at hy
    · cases hy
    · exact hy
  · rw [interactive_spawn hx (h.unknown hborn)]
    exact h.typed q (hinner ▸ hq)
  · rw [hinner] at hq ⊢
    rcases h.owned q hq with howner | ⟨hnone, hend⟩
    · exact .inl howner
    · refine .inr ⟨hnone, ?_⟩
      rw [task_spawn hx, if_neg]
      · exact hend
      · rintro rfl
        rw [hborn] at hend
        cases hend

end

theorem slotInv_step {s : State} (hb : Basic s.sched) (hf : Fresh s.world s.sched)
    (h : SlotInv s.sched) {a : Action} (ha : enabled s a) : SlotInv (next present s a).sched := by
  by_cases hplain : s.plain a
  · exact h.keeps (keeps_next hb ha hplain)
  rcases State.special hplain with ⟨x, args, target, rfl, hx⟩ | ⟨x, args, target, r, rfl, hx⟩ |
    ⟨x, args, target, r, rfl, hx⟩ | ⟨r, rfl, hpc, hactive⟩ | rfl | ⟨x, rfl⟩
  · have hnone : s.sched.inner.activeRun = none := h.cleared x (by rw [hx]; rfl)
    simp only [next, stepCaller, hx]
    refine ⟨h.known, fun _ _ => hnone, fun q hq => ?_, h.owned⟩
    rcases h.typed q hq with ⟨y, args', hy, hi⟩ | hrun
    · refine .inl ⟨y, args', ?_, hi⟩
      rw [setCaller_caller, if_neg]
      · exact hy
      · rintro rfl
        rw [hx] at hy
        cases hy
    · exact .inr hrun
  · exact h.install hb hx
  · exact h.spawn hf hx
  · simp only [next, stepWatchdog, hpc, if_pos hactive]
    refine ⟨h.known, fun _ _ => rfl, h.typed, fun q hq => .inr ⟨rfl, ?_⟩⟩
    rcases h.owned q hq with hown | ⟨hnone, -⟩
    · obtain rfl : r = q := Option.some.inj (hactive.symm.trans hown)
      exact ha.1
    · rw [hactive] at hnone
      cases hnone
  · exact ⟨h.known, h.cleared, h.typed, h.owned⟩
  · simp only [next]
    split
    · next args target previous hx =>
      have hwaited : Keeps s ⟨s.world, s.sched.setCaller x (.recheckVersion args target)⟩ :=
        .move (setCaller_caller _ x _) (by rw [hx]; rfl) (fun _ => by rw [hx]; rfl) rfl rfl rfl rfl
          rfl rfl
      obtain ⟨known, cleared, typed, owned⟩ := h.keeps hwaited
      exact ⟨known, cleared, typed, owned⟩
    · exact h

/-! ## The slot over a run -/

/-- The step of the scheduler underneath. -/
def InputAction.onCore : InputAction → Option Action
  | .core a => some a
  | .stdin _ => some .takeStdin
  | .write .eof => some .writeEof
  | _ => none

theorem inputNext_core (s : InputState) (a : InputAction) :
    (inputNext present s a).core = (a.onCore.map (next present s.core)).getD s.core := by
  cases a with
  | core a => rfl
  | stdin r =>
    simp only [inputNext, stdin]
    split
    · rfl
    · next h => simp [InputAction.onCore, next, ← h]
  | write input =>
    simp only [inputNext, writeStdin]
    split
    · cases input <;> split_ifs <;> rfl
    · next h =>
      cases input with
      | data bytes => rfl
      | eof => simp [InputAction.onCore, next, ← h]
  | recv q =>
    simp only [inputNext, recv]
    split <;> rfl
  | drop q =>
    simp only [inputNext, drop]
    split <;> rfl

theorem inputNext_kept {I : State → Prop} {s : InputState} {a : InputAction} (h : I s.core)
    (ha : inputEnabled s a)
    (hstep : ∀ b, a.onCore = some b → enabled s.core b → I (next present s.core b)) :
    I (inputNext present s a).core := by
  rw [inputNext_core]
  cases hb : a.onCore with
  | none => exact h
  | some b =>
    refine hstep b hb ?_
    cases a with
    | core a =>
      cases hb
      exact ha.1
    | write input => cases input <;> cases hb <;> trivial
    | recv | drop => cases hb
    | stdin r =>
      cases hb
      trivial

structure CoreInv (s : State) : Prop where
  basic : Basic s.sched
  fresh : Fresh s.world s.sched
  slot : SlotInv s.sched

theorem coreInv_init (world : World) (language : Language) : CoreInv (init world language) :=
  ⟨basic_new language, fresh_new world language, slotInv_new language⟩

theorem CoreInv.next {s : State} (h : CoreInv s) {a : Action} (ha : enabled s a) :
    CoreInv (next present s a) :=
  ⟨basic_step h.basic a ha, fresh_step h.fresh h.basic a ha, slotInv_step h.basic h.fresh h.slot ha⟩

/-- No active run leaves no token and no input, the token is the active run's, and
input is accepted for an interactive run that is active. -/
def InputState.SlotKept (s : InputState) : Prop :=
  let inner := s.core.sched.inner
  (inner.activeRun = none → inner.cancel = none ∧ inner.liveInput = none) ∧
    inner.cancel = inner.activeRun ∧
    ∀ input, (writeStdin s input).1 = true →
      ∃ r, inner.activeRun = some r ∧ s.core.sched.interactive r

/-- The watchdog does not free the slot of a crashed run whose input is still open. -/
def SparesInput (s : InputState) (a : InputAction) : Prop :=
  match a with
  | .core (.watchdog r) => s.core.sched.watchdog r = .recovering →
      s.core.sched.inner.activeRun = some r → s.core.sched.inner.liveInput = none
  | _ => True

instance : DecidableRel SparesInput := fun s a => by
  simp only [SparesInput]
  split <;> infer_instance

def LiveActive (s : State) : Prop :=
  ∀ q, s.sched.inner.liveInput = some q → s.sched.inner.activeRun = some q

theorem liveActive_step {s : State} (hc : CoreInv s) (h : LiveActive s) {a : Action}
    (ha : enabled s a) (hok : ∀ r, a = .watchdog r → s.sched.watchdog r = .recovering →
      s.sched.inner.activeRun = some r → s.sched.inner.liveInput = none) :
    LiveActive (next present s a) := by
  intro q hq
  by_cases hplain : s.plain a
  · have hkeeps : Keeps s (next present s a) := keeps_next hc.basic ha hplain
    rcases hkeeps.slot with ht | ⟨ht, hlive⟩
    · rw [ht.2] at hq
      cases hq
    · rw [ht]
      rcases hlive with hlive | hlive
      · rw [hlive] at hq
        cases hq
      · exact h q (hlive ▸ hq)
  rcases State.special hplain with ⟨x, args, target, rfl, hx⟩ | ⟨x, args, target, r, rfl, hx⟩ |
    ⟨x, args, target, r, rfl, hx⟩ | ⟨r, rfl, hpc, hactive⟩ | rfl | ⟨x, rfl⟩
  · simp only [next, stepCaller, hx] at hq ⊢
    exact h q hq
  · simp only [next, stepCaller, hx] at hq ⊢
    split_ifs at hq
    exact hq
  · simp only [next, stepCaller, hx] at hq ⊢
    exact h q hq
  · simp only [next, stepWatchdog, hpc, if_pos hactive] at hq
    rw [hok r rfl hpc hactive] at hq
    cases hq
  · exact h q hq
  · simp only [next] at hq ⊢
    split at hq
    all_goals exact h q hq

theorem writeStdin_ok {s : InputState} {input : LiveInput} (h : (writeStdin s input).1 = true) :
    ∃ q, s.core.sched.inner.liveInput = some q := by
  simp only [writeStdin] at h
  split at h
  · next q hq => exact ⟨q, hq⟩
  · cases h

theorem slotKept_of_liveActive {s : InputState} (hc : CoreInv s.core) (h : LiveActive s.core) :
    s.SlotKept := by
  refine ⟨fun hnone => ⟨hc.basic.paired.trans hnone, ?_⟩, hc.basic.paired, fun input hok => ?_⟩
  · cases hlive : s.core.sched.inner.liveInput with
    | none => rfl
    | some q =>
      have hactive := h q hlive
      rw [hnone] at hactive
      cases hactive
  · obtain ⟨q, hq⟩ := writeStdin_ok hok
    exact ⟨q, h q hq, hc.slot.typed q hq⟩

/-- In every run in which no crashed run's slot is freed with its input open, the
slot's fields agree in every state reached. -/
theorem slotKept_of_spares {world : World} {language : Language} {s : InputState}
    (h : ((inputMachine present).restrict SparesInput).Reaches (newInput world language) s) :
    s.SlotKept := by
  have hinv : CoreInv s.core ∧ LiveActive s.core := by
    refine h.invariant (I := fun s => CoreInv s.core ∧ LiveActive s.core) (fun s a hs ha => ?_)
      ⟨coreInv_init world language, fun q hq => by cases hq⟩
    refine inputNext_kept (I := fun t => CoreInv t ∧ LiveActive t) hs ha.1 fun b hb hen => ?_
    refine ⟨hs.1.next hen, liveActive_step hs.1 hs.2 hen ?_⟩
    rintro r rfl
    obtain rfl : a = .core (.watchdog r) := by
      cases a with
      | write input => cases input <;> cases hb
      | _ => cases hb <;> rfl
    exact ha.2
  exact slotKept_of_liveActive hinv.1 hinv.2

/-- An interactive run is called for, started and given a slot, and its runner panics. -/
def crashInteractive : List InputAction :=
  (.core (.call 0 1 none true) :: List.replicate 9 (.core (.step (.external 0)))) ++
    [.core (.takeSlot 0), .core (.panic 0), .core (.watchdog 0)]

theorem slotKept_of_spares_crash :
    ∃ s, ((inputMachine allPresent).restrict SparesInput).Reaches
      (newInput ⟨1, true, false, none, 0⟩ .zig) s ∧ s.SlotKept := by
  obtain ⟨s, hs, -⟩ := Machine.exists_reaches_of_exec
    (M := (inputMachine allPresent).restrict SparesInput)
    (s := newInput ⟨1, true, false, none, 0⟩ .zig) (l := crashInteractive) (p := fun _ => true)
    (by decide)
  exact ⟨s, hs, slotKept_of_spares hs⟩

/-- The watchdog frees the slot and leaves the input open: text typed with no run
active is accepted, since the receiver still lies in the session. -/
theorem slot_broken_after_crash :
    ∃ s, (inputMachine allPresent).Reaches (newInput ⟨1, true, false, none, 0⟩ .zig) s ∧
      s.core.sched.inner.activeRun = none ∧ s.core.sched.inner.liveInput = some 0 ∧
      (writeStdin s (.data [52, 50])).1 = true ∧ ¬ s.SlotKept := by
  obtain ⟨s, hs, hp⟩ := Machine.exists_reaches_of_exec
    (M := inputMachine allPresent) (s := newInput ⟨1, true, false, none, 0⟩ .zig)
    (l := crashInteractive ++ [.core (.watchdog 0)])
    (p := fun s => s.core.sched.inner.activeRun = none ∧ s.core.sched.inner.liveInput = some 0 ∧
      (writeStdin s (.data [52, 50])).1 = true) (by decide)
  simp only [decide_eq_true_eq] at hp
  refine ⟨s, hs, hp.1, hp.2.1, hp.2.2, fun hkept => ?_⟩
  have hnone := (hkept.1 hp.1).2
  rw [hp.2.1] at hnone
  cases hnone

end Atomis.Scheduler
