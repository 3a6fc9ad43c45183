import Atomis.Lib.Machine
import Atomis.Lib.Table
import Atomis.Protocol

/-!
# The run scheduler

`domain/scheduler.rs`: one `RunScheduler` and the part of its session it reads.
A step is what one task does between two await points, and two sends in a row
are two steps. A call is a run requested from outside or an edit; a debounce
timer is a caller too, under its tag. A run's `cancel` and `finished` tokens go
by the run's id, and ids count up where the source draws random ones. Time is
left out: a timer or a grace period may elapse at any moment, and a run slot
may be free at any moment.
-/

namespace Atomis.Scheduler

inductive Caller
  | external (call : ℕ)
  | timer (tag : ℕ)
deriving DecidableEq

/-- What a run is started with, and the number of the request behind it. -/
structure Args where
  version : ℕ
  language : Option Language
  interactive : Bool
  request : ℕ
deriving DecidableEq

structure RunInfo where
  args : Args
  target : Language

inductive CallPc
  | idle
  | cancelEdit (language : Option Language) (request : ℕ)
  | readVersion (language : Option Language) (request : ℕ)
  | readSettings (language : Option Language) (request version : ℕ)
  | arm (args : Args)
  | sleeping (args : Args)
  | lockStart (args : Args)
  | checkVersion (args : Args)
  | chooseTarget (args : Args)
  | supersede (args : Args) (target : Language)
  | takeFinished (args : Args) (target : Language)
  | waitFinished (args : Args) (target : Language) (previous : ℕ)
  | recheckVersion (args : Args) (target : Language)
  | setStdin (args : Args) (target : Language)
  | install (args : Args) (target : Language) (run : ℕ)
  | announce (args : Args) (target : Language) (run : ℕ)
  | spawn (args : Args) (target : Language) (run : ℕ)
deriving DecidableEq, Inhabited

inductive RunnerEvent
  | state (state : RunState)
  | data (text : String)
deriving DecidableEq

inductive TaskPc
  | unborn
  | queued
  | running
  | draining (outcome : Option RunState)
  | checking (outcome : Option RunState)
  | checkingVersion (outcome : Option RunState)
  | reporting (outcome : Option RunState)
  | finishing
  | cleaning
  | ended (panicked : Bool)
deriving DecidableEq, Inhabited

inductive ForwardPc
  | idle
  | checking (event : RunnerEvent)
  | checkingVersion (event : RunnerEvent)
  | sending (event : RunnerEvent)
deriving DecidableEq, Inhabited

inductive WatchdogPc
  | waiting
  | recovering
  | announcing
  | done
deriving DecidableEq, Inhabited

inductive WatcherPc
  | off
  | watching
  | firing
  | announcing
deriving DecidableEq, Inhabited

inductive Event
  | runState (version : ℕ) (run : Option ℕ) (state : RunState)
  | runner (version : ℕ) (run : ℕ) (event : RunnerEvent)
  | stdinOpen (version : ℕ) (run : ℕ)
  | runFinished (version : ℕ) (run : ℕ)
  | serverError (message : String)
deriving DecidableEq

def Event.run : Event → Option ℕ
  | .runState _ run _ => run
  | .runner _ run _ | .stdinOpen _ run | .runFinished _ run => some run
  | .serverError _ => none

def noRunner (target : Language) : Event :=
  .serverError ("No runner available for " ++ target.asStr)

/-- What is remembered of a run of the scheduler, oldest first. -/
inductive Mark
  | request (number : ℕ)
  | stop
  | close
  | active (request : ℕ) (run : ℕ)
  | invoked (request : ℕ) (run : ℕ)
  | cancelled (run : ℕ)
  | sent (event : Event)
deriving DecidableEq

structure Inner where
  debounce : Option ℕ
  debounceSeq : ℕ
  cancel : Option ℕ
  activeRun : Option ℕ
  lastLanguage : Language
  finished : Option ℕ
  liveInput : Option ℕ

/-- The session's side: what every scheduler of it shares. -/
structure World where
  version : ℕ
  autoRun : Bool
  serve : Bool
  liveStdin : Option ℕ
  nextRun : ℕ

structure Sched where
  inner : Inner
  startLock : Option Caller
  caller : Table Caller CallPc
  cancelled : Table ℕ Bool
  finished : Table ℕ Bool
  outlived : Table ℕ Bool
  runs : Table ℕ (Option RunInfo)
  task : Table ℕ TaskPc
  queue : Table ℕ (List RunnerEvent)
  forwarder : Table ℕ ForwardPc
  watchdog : Table ℕ WatchdogPc
  watcher : Table ℕ WatcherPc
  requests : ℕ
  history : List Mark

structure State where
  world : World
  sched : Sched

def new (language : Language) : Sched :=
  { inner := ⟨none, 0, none, none, language, none, none⟩
    startLock := none
    caller := .empty
    cancelled := .empty
    finished := .empty
    outlived := .empty
    runs := .empty
    task := .empty
    queue := .empty
    forwarder := .empty
    watchdog := .empty
    watcher := .empty
    requests := 0
    history := [] }

def Sched.mark (c : Sched) (m : Mark) : Sched := { c with history := c.history ++ [m] }

def Sched.send (c : Sched) (event : Event) : Sched := c.mark (.sent event)

def Sched.setCaller (c : Sched) (x : Caller) (pc : CallPc) : Sched :=
  { c with caller := c.caller.set x pc }

def Sched.setTask (c : Sched) (r : ℕ) (pc : TaskPc) : Sched :=
  { c with task := c.task.set r pc }

def cancelInternal (c : Sched) : Sched :=
  { c with
    caller := match c.inner.debounce with
      | some tag => c.caller.set (.timer tag) .idle
      | none => c.caller
    cancelled := match c.inner.cancel with
      | some r => c.cancelled.set r true
      | none => c.cancelled
    history := match c.inner.activeRun with
      | some r => c.history ++ [.cancelled r]
      | none => c.history
    inner := { c.inner with debounce := none, cancel := none, activeRun := none, liveInput := none } }

/-- A start that returns: the guard of `start` is dropped with it. -/
def Sched.endStart (c : Sched) (x : Caller) : Sched :=
  { c.setCaller x .idle with startLock := none }

inductive Action
  | call (call version : ℕ) (language : Option Language) (interactive : Bool)
  | edit (call : ℕ) (language : Option Language)
  | stop
  | close
  | step (x : Caller)
  | graceElapsed (x : Caller)
  | takeSlot (r : ℕ)
  | leaveQueue (r : ℕ)
  | runnerEvent (r : ℕ) (event : RunnerEvent)
  | runnerReturn (r : ℕ) (outcome : Option RunState)
  | drained (r : ℕ)
  | task (r : ℕ)
  | panic (r : ℕ)
  | forward (r : ℕ)
  | watchdog (r : ℕ)
  | watch (r : ℕ)
  | watchEnds (r : ℕ)
  | writeEof
  | setVersion (version : ℕ)
  | setSettings (autoRun serve : Bool)
  | takeStdin
deriving DecidableEq

def CallPc.enabled (c : Sched) : CallPc → Prop
  | .idle => False
  | .lockStart _ => c.startLock = none
  | .waitFinished _ _ previous => c.finished previous = true
  | _ => True

def CallPc.waiting : CallPc → Bool
  | .waitFinished .. => true
  | _ => false

def TaskPc.isDraining : TaskPc → Bool
  | .draining _ => true
  | _ => false

def TaskPc.finishes : TaskPc → Bool
  | .checking _ | .checkingVersion _ | .reporting _ | .finishing | .cleaning => true
  | _ => false

def TaskPc.isEnded : TaskPc → Bool
  | .ended _ => true
  | _ => false

def enabled (s : State) : Action → Prop
  | .call k _ _ _ | .edit k _ => s.sched.caller (.external k) = .idle
  | .step x => (s.sched.caller x).enabled s.sched
  | .graceElapsed x => (s.sched.caller x).waiting = true
  | .takeSlot r => s.sched.task r = .queued
  | .leaveQueue r => s.sched.task r = .queued ∧ s.sched.cancelled r = true
  | .runnerEvent r _ | .runnerReturn r _ | .panic r => s.sched.task r = .running
  | .drained r => (s.sched.task r).isDraining = true ∧ s.sched.queue r = [] ∧
      s.sched.forwarder r = .idle
  | .task r => (s.sched.task r).finishes = true
  | .forward r => s.sched.queue r ≠ [] ∨ s.sched.forwarder r ≠ .idle
  | .watchdog r => (s.sched.task r).isEnded = true ∧ s.sched.watchdog r ≠ .done
  | .watch r => s.sched.watcher r ≠ .off
  | .watchEnds r => s.sched.watcher r = .watching ∧
      (s.sched.cancelled r = true ∨ s.sched.finished r = true)
  | _ => True

section
variable (present : Language → Bool)

def stepCaller (w : World) (c : Sched) (x : Caller) : World × Sched :=
  match c.caller x with
  | .idle => (w, c)
  | .cancelEdit language n => (w, (cancelInternal c).setCaller x (.readVersion language n))
  | .readVersion language n => (w, c.setCaller x (.readSettings language n w.version))
  | .readSettings language n version =>
    if w.autoRun then
      (w, (c.send (.runState version none .debouncing)).setCaller x
        (.arm ⟨version, some (language.getD c.inner.lastLanguage), false, n⟩))
    else (w, (c.send (.runState version none .idle)).setCaller x .idle)
  | .arm args =>
    let tag := c.inner.debounceSeq + 1
    (w, { (c.setCaller x .idle).setCaller (.timer tag) (.sleeping args) with
      inner := { c.inner with debounceSeq := tag, debounce := some tag } })
  | .sleeping args =>
    -- The task finds its tag in the pending slot and leaves it, or gives up.
    if c.inner.debounce.map Caller.timer = some x then
      (w, { c.setCaller x (.lockStart args) with inner := { c.inner with debounce := none } })
    else (w, c.setCaller x .idle)
  | .lockStart args => (w, { c.setCaller x (.checkVersion args) with startLock := some x })
  | .checkVersion args =>
    if w.version = args.version then (w, c.setCaller x (.chooseTarget args))
    else (w, c.endStart x)
  | .chooseTarget args =>
    let target := args.language.getD c.inner.lastLanguage
    if present target then (w, c.setCaller x (.supersede args target))
    else (w, (c.send (noRunner target)).endStart x)
  | .supersede args target => (w, (cancelInternal c).setCaller x (.takeFinished args target))
  | .takeFinished args target =>
    let pc := match c.inner.finished with
      | some previous => .waitFinished args target previous
      | none => .setStdin args target
    (w, { c.setCaller x pc with inner := { c.inner with finished := none } })
  | .waitFinished args target _ => (w, c.setCaller x (.recheckVersion args target))
  | .recheckVersion args target =>
    if w.version = args.version then (w, c.setCaller x (.setStdin args target))
    else (w, c.endStart x)
  | .setStdin args target =>
    ({ w with nextRun := w.nextRun + 1, liveStdin := if args.interactive then some w.nextRun else none },
      c.setCaller x (.install args target w.nextRun))
  | .install args target r =>
    (w, { (c.mark (.active args.request r)).setCaller x
        (if args.interactive then .announce args target r else .spawn args target r) with
      inner := { c.inner with
        lastLanguage := target
        cancel := some r
        activeRun := some r
        finished := some r
        liveInput := if args.interactive then some r else none } })
  | .announce args target r =>
    (w, (c.send (.stdinOpen args.version r)).setCaller x (.spawn args target r))
  | .spawn args target r =>
    (w, { (c.endStart x).setTask r .queued with
      runs := c.runs.set r (some ⟨args, target⟩)
      watcher := if w.serve then c.watcher.set r .watching else c.watcher })

def Sched.version (c : Sched) (r : ℕ) : ℕ := ((c.runs r).map fun run => run.args.version).getD 0

def Sched.request (c : Sched) (r : ℕ) : ℕ := ((c.runs r).map fun run => run.args.request).getD 0

/-- `!token.is_cancelled() && inner.active_run == Some(run_id)` -/
def Sched.isCurrent (c : Sched) (r : ℕ) : Bool :=
  !c.cancelled r && c.inner.activeRun = some r

def stepTask (w : World) (c : Sched) (r : ℕ) : Sched :=
  match c.task r with
  | .checking outcome =>
    if c.isCurrent r then c.setTask r (.checkingVersion outcome) else c.setTask r .cleaning
  | .checkingVersion outcome =>
    if w.version = c.version r then c.setTask r (.reporting outcome) else c.setTask r .cleaning
  | .reporting (some state) =>
    (c.send (.runState (c.version r) (some r) state)).setTask r .finishing
  | .reporting none =>
    match c.runs r with
    | some run => (c.send (noRunner run.target)).setTask r .cleaning
    | none => c.setTask r .cleaning
  | .finishing => (c.send (.runFinished (c.version r) r)).setTask r .cleaning
  | .cleaning =>
    { c.setTask r (.ended false) with
      inner := if c.inner.activeRun = some r then
        { c.inner with activeRun := none, cancel := none, liveInput := none } else c.inner }
  | _ => c

def stepForward (w : World) (c : Sched) (r : ℕ) : Sched :=
  match c.forwarder r with
  | .idle =>
    match c.queue r with
    | [] => c
    | event :: events =>
      { c with queue := c.queue.set r events, forwarder := c.forwarder.set r (.checking event) }
  | .checking event =>
    { c with forwarder := c.forwarder.set r (if c.isCurrent r then .checkingVersion event else .idle) }
  | .checkingVersion event =>
    { c with forwarder :=
        c.forwarder.set r (if w.version = c.version r then .sending event else .idle) }
  | .sending event =>
    { c.send (.runner (c.version r) r event) with forwarder := c.forwarder.set r .idle }

def stepWatchdog (c : Sched) (r : ℕ) : Sched :=
  match c.watchdog r with
  | .waiting =>
    { c with
      finished := c.finished.set r true
      watchdog := c.watchdog.set r (if c.task r = .ended true then .recovering else .done) }
  | .recovering =>
    if c.inner.activeRun = some r then
      { c with
        inner := { c.inner with activeRun := none, cancel := none }
        watchdog := c.watchdog.set r .announcing }
    else { c with watchdog := c.watchdog.set r .done }
  | .announcing =>
    { (c.send (.runState (c.version r) (some r) .idle)).send
        (.serverError "The run crashed inside the server and was reset") with
      watchdog := c.watchdog.set r .done }
  | .done => c

def stepWatcher (c : Sched) (r : ℕ) : Sched :=
  match c.watcher r with
  | .off => c
  | .watching =>
    { c with watcher := c.watcher.set r (if c.inner.activeRun = some r then .firing else .off) }
  | .firing => { cancelInternal c with watcher := c.watcher.set r .announcing }
  | .announcing =>
    { (c.send (.runState (c.version r) none .cancelled)).send
        (.serverError "The server stopped after 15 minutes without a request — Run starts it again")
      with watcher := c.watcher.set r .off }

def Sched.newRequest (c : Sched) (k : ℕ) (pc : ℕ → CallPc) : Sched :=
  { (c.mark (.request c.requests)).setCaller (.external k) (pc c.requests) with
    requests := c.requests + 1 }

def next (s : State) : Action → State
  | .call k version language interactive =>
    { s with sched := s.sched.newRequest k fun n => .lockStart ⟨version, language, interactive, n⟩ }
  | .edit k language => { s with sched := s.sched.newRequest k fun n => .cancelEdit language n }
  | .stop => { s with sched := (cancelInternal s.sched).mark .stop }
  | .close => { s with sched := (cancelInternal s.sched).mark .close }
  | .step x =>
    let (world, sched) := stepCaller present s.world s.sched x
    ⟨world, sched⟩
  | .graceElapsed x =>
    match s.sched.caller x with
    | .waitFinished args target previous =>
      { s with sched := { s.sched.setCaller x (.recheckVersion args target) with
          outlived := s.sched.outlived.set previous true } }
    | _ => s
  | .takeSlot r =>
    { s with sched := (s.sched.setTask r .running).mark (.invoked (s.sched.request r) r) }
  | .leaveQueue r => { s with sched := s.sched.setTask r (.draining none) }
  | .runnerEvent r event =>
    { s with sched := { s.sched with queue := s.sched.queue.set r (s.sched.queue r ++ [event]) } }
  | .runnerReturn r outcome => { s with sched := s.sched.setTask r (.draining outcome) }
  | .drained r =>
    match s.sched.task r with
    | .draining outcome => { s with sched := s.sched.setTask r (.checking outcome) }
    | _ => s
  | .task r => { s with sched := stepTask s.world s.sched r }
  | .panic r => { s with sched := s.sched.setTask r (.ended true) }
  | .forward r => { s with sched := stepForward s.world s.sched r }
  | .watchdog r => { s with sched := stepWatchdog s.sched r }
  | .watch r => { s with sched := stepWatcher s.sched r }
  | .watchEnds r => { s with sched := { s.sched with watcher := s.sched.watcher.set r .off } }
  | .writeEof =>
    { s with sched := { s.sched with inner := { s.sched.inner with liveInput := none } } }
  | .setVersion version => { s with world := { s.world with version := version } }
  | .setSettings autoRun serve =>
    { s with world := { s.world with autoRun := autoRun, serve := serve } }
  | .takeStdin => { s with world := { s.world with liveStdin := none } }

def machine : Machine State Action := ⟨enabled, next present⟩

instance : DecidableRel (machine present).enabled := fun s a => by
  cases a <;> simp only [machine, enabled, CallPc.enabled]
  case step x => split <;> infer_instance
  all_goals infer_instance

end

def init (world : World) (language : Language) : State := ⟨world, new language⟩

def allPresent (_ : Language) : Bool := true

def openSession : State := init ⟨1, true, false, none, 0⟩ .zig

end Atomis.Scheduler
