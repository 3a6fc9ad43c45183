import Atomis.Lib.Machine
import Atomis.Protocol
import Atomis.TerminalFolds
import Atomis.TestRun
import Mathlib.Data.List.DropRight

/-!
# What the client shows of its runs

The runtime socket feeds one piece of state. An event of another document version changes
nothing; what the others leave is worked out from the log of what was accepted since the last
reset: the values of the probes, the output since the last run began, the results of its tests
and the runs that came to their end.
-/

namespace Atomis.RuntimeView
open TerminalFolds TestRun

/-- What the view only stores. -/
structure Payloads where
  Probe : Type
  Diagnostic : Type
  Dependency : Type
  FieldLayout : Type

section Events

variable (P : Payloads)

structure ProbeValueEvent where
  documentVersion : ℕ
  runId : String
  probeId : String
  name : String
  line : ℕ
  column : ℕ
  typeName : String
  preview : String
  count : ℕ
  sequence : ℕ
  bits : Option ℕ
  sizeBytes : Option ℕ
  alignBytes : Option ℕ
  fields : Option (List P.FieldLayout)

structure InlineValue where
  probeId : String
  runId : String
  name : String
  line : ℕ
  column : ℕ
  typeName : String
  preview : String
  count : ℕ
  sequence : ℕ
  history : List String
  bits : Option ℕ
  sizeBytes : Option ℕ
  alignBytes : Option ℕ
  fields : Option (List P.FieldLayout)

structure TestResultEvent where
  documentVersion : ℕ
  testId : Option String
  name : String
  status : TestStatus
  durationMs : Float
  message : Option String

structure TestSummaryEvent where
  documentVersion : ℕ
  counts : Counts
  durationMs : Float

/-- The fields of a result that are read. -/
structure RunResult where
  exitCode : Option ℤ
  timedOut : Bool
  cancelled : Bool
  executionMs : Float

inductive DepsState
  | idle
  | installing
  | removing
  | failed
deriving DecidableEq

inductive ServerEvent
  | documentSaved
  | projectChanged (files : List ProjectFile) (revision : ℕ)
  | preferencesChanged
  | workspacePeers (count : ℕ)
  | documentChanged (path source : String) (revision : ℕ)
  | documentConflict (path : String) (revision : ℕ)
  | projectFiles (documentVersion : ℕ) (files : List ProjectFile)
  | stdinOpen (documentVersion : ℕ) (runId : String)
  | runState (documentVersion : ℕ) (runId : Option String) (state : RunState)
  | probeCatalog (documentVersion : ℕ) (probes : List P.Probe)
  | probeValue (event : ProbeValueEvent P)
  | output (documentVersion : ℕ) (category : Category) (chunk : String)
      (sourceLocation : Option TerminalSourceLocation)
  | diagnostics (documentVersion : ℕ) (owner : String) (diagnostics : List P.Diagnostic)
  | testCatalog (documentVersion : ℕ) (tests : List TestCase)
  | testResult (event : TestResultEvent)
  | testSummary (event : TestSummaryEvent)
  | runFinished (documentVersion : ℕ) (result : RunResult)
  | depsCatalog (dependencies : List P.Dependency) (supported : Bool)
      (manifest inputHint : Option String) (runsUntrustedCode : Bool)
  | depsState (state : DepsState) (error : Option String)
  | depsOutput (chunk : String)
  | serverError (message : String)

end Events

/-- `"documentVersion" in event`; what is handled before the gate has none here. -/
def ServerEvent.gate {P : Payloads} : ServerEvent P → Option ℕ
  | .projectFiles version _ | .stdinOpen version _ | .runState version _ _
  | .probeCatalog version _ | .output version _ _ _ | .diagnostics version _ _
  | .testCatalog version _ | .runFinished version _ => some version
  | .probeValue event => some event.documentVersion
  | .testResult event => some event.documentVersion
  | .testSummary event => some event.documentVersion
  | _ => none

def acceptsVersion (activeVersion eventVersion : ℕ) : Bool := activeVersion = eventVersion

/-! ## The view -/

/-- `ms` is shown with one decimal. -/
structure RunHistoryEntry where
  n : ℕ
  ok : Bool
  ms : Float

/-- The state and its refs. The files, the status and a cleared log decoration are the
caller's. -/
structure View (P : Payloads) where
  runState : RunState := .idle
  runId : Option String := none
  stdinRunId : Option String := none
  catalog : List P.Probe := []
  values : String → Option (InlineValue P) := fun _ => none
  stale : Bool := false
  peers : ℕ := 1
  revision : Option ℕ := none
  conflict : Option String := none
  remoteEdit : Option (String × String × ℕ) := none
  output : List TerminalEntry := []
  outputSeq : ℕ := 0
  diagnostics : String → List P.Diagnostic := fun _ => []
  result : Option RunResult := none
  tests : List TestCase := []
  testResults : String → Option TestResultEvent := fun _ => none
  testSummary : Option TestSummaryEvent := none
  history : List RunHistoryEntry := []
  runNo : ℕ := 0
  drawer : Bool := false
  lastRunFailed : Bool := false
  deps : List P.Dependency := []
  depsSupported : Bool := false
  depsManifest : Option String := none
  depsHint : Option String := none
  depsUntrusted : Bool := false
  depsState : DepsState := .idle
  depsError : Option String := none
  depsOutput : List String := []
  openFolds : List String := []

/-- `slice(-n)` -/
@[irreducible] def lastOf {α : Type} (n : ℕ) (l : List α) : List α := l.rtake n

def updateInlineValue {P : Payloads} (previous : String → Option (InlineValue P))
    (event : ProbeValueEvent P) : String → Option (InlineValue P) :=
  let history := match previous event.probeId with
    | some old =>
      if old.runId = event.runId then lastOf 20 (old.history ++ [event.preview])
      else [event.preview]
    | none => [event.preview]
  Function.update previous event.probeId (some {
    probeId := event.probeId, runId := event.runId, name := event.name, line := event.line,
    column := event.column, typeName := event.typeName, preview := event.preview,
    count := event.count, sequence := event.sequence, history, bits := event.bits,
    sizeBytes := event.sizeBytes, alignBytes := event.alignBytes, fields := event.fields })

def summaryHasFailures (summary : Option TestSummaryEvent) : Bool :=
  summary.any fun summary => 0 < summary.counts.failed || 0 < summary.counts.leaked

def finishedRunEntry (n : ℕ) (result : RunResult) (summary : Option TestSummaryEvent) :
    RunHistoryEntry where
  n
  ok := result.exitCode = some 0 && !result.timedOut &&
    summary.all fun summary => summary.counts.failed = 0 && summary.counts.leaked = 0
  ms := result.executionMs

namespace View

variable {P : Payloads} (v : View P)

/-- One more entry of the output, which keeps the last 500. -/
def addOutput (category : Category) (chunk : String)
    (sourceLocation : Option TerminalSourceLocation) : View P :=
  { v with
    outputSeq := v.outputSeq + 1
    output := lastOf 500 (v.output ++ [⟨category, chunk, some (v.outputSeq + 1), sourceLocation⟩]) }

def begin (v : View P) : View P :=
  { v with
    output := []
    result := none
    testResults := fun _ => none
    testSummary := none
    openFolds := []
    diagnostics := fun owner =>
      if owner ∈ ["compiler", "runtime", "atomis-instrumenter"] then [] else v.diagnostics owner }

def onState (runId : Option String) (state : RunState) : View P :=
  let v := { v with
    runState := state
    runId := runId.or v.runId
    stale := if state = .succeeded then false else v.stale }
  if state = .instrumenting then v.begin else v

def onFinished (result : RunResult) : View P :=
  let v := { v with result := some result }
  if result.cancelled then v
  else
    let failed := summaryHasFailures v.testSummary
    { v with
      runNo := v.runNo + 1
      history := (finishedRunEntry (v.runNo + 1) result v.testSummary :: v.history).take 4
      drawer := (failed && !v.lastRunFailed) || v.drawer
      lastRunFailed := failed }

/-- An accepted event. -/
def accept : ServerEvent P → View P
  | .documentSaved | .preferencesChanged | .projectFiles .. | .serverError _ => v
  | .projectChanged _ revision =>
    if revision < v.revision.getD 0 then v
    else { v with revision := some revision, stale := true }
  | .workspacePeers count => { v with peers := count }
  | .documentChanged path source revision =>
    if revision < v.revision.getD 0 then v
    else
      let v := { v with revision := some revision }
      if path ≠ "" then { v with remoteEdit := some (path, source, revision) }
      else { v with conflict := none }
  | .documentConflict path revision =>
    { v with revision := some revision, conflict := some path }
  | .stdinOpen _ runId => { v with stdinRunId := some runId }
  | .runState _ runId state => v.onState runId state
  | .probeCatalog _ probes => { v with catalog := probes }
  | .probeValue event => { v with values := updateInlineValue v.values event, stale := false }
  | .output _ category chunk sourceLocation => v.addOutput category chunk sourceLocation
  | .diagnostics _ owner diagnostics =>
    { v with diagnostics := Function.update v.diagnostics owner diagnostics }
  | .testCatalog _ tests => { v with tests }
  | .testResult event =>
    { v with
      testResults :=
        Function.update v.testResults (event.testId.getD event.name) (some event) }
  | .testSummary event => { v with testSummary := some event }
  | .runFinished _ result => v.onFinished result
  | .depsCatalog dependencies supported manifest inputHint runsUntrustedCode =>
    { v with
      deps := dependencies, depsSupported := supported, depsManifest := manifest,
      depsHint := inputHint, depsUntrusted := runsUntrustedCode }
  | .depsState state error =>
    let v := { v with depsState := state, depsError := error }
    if state = .installing ∨ state = .removing then { v with depsOutput := [] } else v
  | .depsOutput chunk => { v with depsOutput := lastOf 200 (v.depsOutput ++ [chunk]) }

end View

/-- `handleRuntimeEvent` -/
def handleRuntimeEvent {P : Payloads} (version : ℕ) (v : View P) (event : ServerEvent P) :
    View P :=
  if event.gate.all (acceptsVersion version) then v.accept event else v

/-! ## Runs -/

inductive Action (P : Payloads)
  | receive (event : ServerEvent P)
  /-- A keystroke: another version, and the values are of the old text. -/
  | edit (version : ℕ)
  /-- The version alone, as when a session is adopted. -/
  | setVersion (version : ℕ)
  | echoInput (text : String)
  | clearOutput
  | setDrawer (openDrawer : Bool)
  | setOpenFolds (openFolds : List String)
  | setConflict (path : Option String)
  | reset

/-- What the view is made from. -/
inductive Entry (P : Payloads)
  | server (event : ServerEvent P)
  | edit
  | echo (text : String)
  | cleared

/-- An older revision than the one known. -/
def View.outdates {P : Payloads} (v : View P) : ServerEvent P → Bool
  | .projectChanged _ revision => revision < v.revision.getD 0
  | .documentChanged _ _ revision => revision < v.revision.getD 0
  | _ => false

/-- `log` is history, the newest entry first. -/
structure State (P : Payloads) where
  version : ℕ := 1
  view : View P := {}
  log : List (Entry P) := []

/-- The event is of this version, and not an old revision. -/
def taken {P : Payloads} (s : State P) (event : ServerEvent P) : Bool :=
  event.gate.all (acceptsVersion s.version) && !s.view.outdates event

def next {P : Payloads} (s : State P) : Action P → State P
  | .receive event =>
    { s with
      view := handleRuntimeEvent s.version s.view event
      log := if taken s event then .server event :: s.log else s.log }
  | .edit version =>
    { version, view := { s.view with stale := true }, log := .edit :: s.log }
  | .setVersion version => { s with version }
  | .echoInput text =>
    { s with view := s.view.addOutput .input text none, log := .echo text :: s.log }
  | .clearOutput => { s with view := { s.view with output := [] }, log := .cleared :: s.log }
  | .setDrawer openDrawer => { s with view := { s.view with drawer := openDrawer } }
  | .setOpenFolds openFolds => { s with view := { s.view with openFolds } }
  | .setConflict path => { s with view := { s.view with conflict := path } }
  | .reset => { s with view := {}, log := [] }

/-- The client takes every action at any time. -/
def machine (P : Payloads) : Machine (State P) (Action P) where
  enabled _ _ := True
  next := next

/-! ## What a log shows -/

namespace Entry

variable {P : Payloads}

def probe : Entry P → Option (ProbeValueEvent P)
  | .server (.probeValue event) => some event
  | _ => none

/-- The category, the text and the source of a line of output. -/
def output : Entry P → Option (Category × String × Option TerminalSourceLocation)
  | .server (.output _ category chunk sourceLocation) => some (category, chunk, sourceLocation)
  | .echo text => some (.input, text, none)
  | _ => none

/-- A run begins. -/
def begins : Entry P → Bool
  | .server (.runState _ _ .instrumenting) => true
  | _ => false

def clears : Entry P → Bool
  | .cleared => true
  | e => e.begins

def testResult : Entry P → Option TestResultEvent
  | .server (.testResult event) => some event
  | _ => none

def summary : Entry P → Option TestSummaryEvent
  | .server (.testSummary event) => some event
  | _ => none

/-- A run that came to its end by itself. -/
def finished : Entry P → Option RunResult
  | .server (.runFinished _ result) => if result.cancelled then none else some result
  | _ => none

/-- What an entry says about whether the values are of an old text. -/
def staleness : Entry P → Option Bool
  | .edit | .server (.projectChanged _ _) => some true
  | .server (.probeValue _) | .server (.runState _ _ .succeeded) => some false
  | _ => none

def revision : Entry P → Option ℕ
  | .server (.projectChanged _ revision) => some revision
  | .server (.documentChanged _ _ revision) => some revision
  | .server (.documentConflict _ revision) => some revision
  | _ => none

/-- What an entry says about the diagnostics of an owner. -/
def diagnosed (owner : String) : Entry P → Option (List P.Diagnostic)
  | .server (.diagnostics _ other diagnostics) => if other = owner then some diagnostics else none
  | .server (.runState _ _ .instrumenting) =>
    if owner ∈ ["compiler", "runtime", "atomis-instrumenter"] then some [] else none
  | _ => none

end Entry

section Shown

variable {P : Payloads}

/-- The value of a probe with these events, the newest first. -/
def inlineValue : List (ProbeValueEvent P) → Option (InlineValue P)
  | [] => none
  | event :: older => some {
      probeId := event.probeId, runId := event.runId, name := event.name, line := event.line,
      column := event.column, typeName := event.typeName, preview := event.preview,
      count := event.count, sequence := event.sequence
      history := (((event :: older.takeWhile fun e => e.runId = event.runId).map
        ProbeValueEvent.preview).take 20).reverse
      bits := event.bits, sizeBytes := event.sizeBytes, alignBytes := event.alignBytes,
      fields := event.fields }

def probeEvents (probeId : String) (log : List (Entry P)) : List (ProbeValueEvent P) :=
  (log.filterMap Entry.probe).filter fun event => event.probeId = probeId

/-- The lines of output, each with its number. -/
def lines : List (Entry P) → List TerminalEntry
  | [] => []
  | e :: log =>
    match e.output with
    | none => lines log
    | some (category, chunk, sourceLocation) =>
      ⟨category, chunk, some ((lines log).length + 1), sourceLocation⟩ :: lines log

/-- Those that no later entry has cleared. -/
def shownLines (log : List (Entry P)) : List TerminalEntry :=
  (lines log).take ((log.takeWhile fun e => !e.clears).filterMap Entry.output).length

/-- The entries of the run that began last. -/
def ofRun (log : List (Entry P)) : List (Entry P) := log.takeWhile fun e => !e.begins

def summaryOf (log : List (Entry P)) : Option TestSummaryEvent :=
  ((ofRun log).filterMap Entry.summary).head?

/-- The runs that came to their end by themselves, with their summaries. -/
def finishedRuns : List (Entry P) → List (RunResult × Option TestSummaryEvent)
  | [] => []
  | e :: log =>
    match e.finished with
    | none => finishedRuns log
    | some result => (result, summaryOf log) :: finishedRuns log

def historyOf : List (RunResult × Option TestSummaryEvent) → List RunHistoryEntry
  | [] => []
  | run :: older => finishedRunEntry (older.length + 1) run.1 run.2 :: historyOf older

/-- The view that a log has led to. -/
structure Shows (log : List (Entry P)) (v : View P) : Prop where
  values : ∀ probeId, v.values probeId = inlineValue (probeEvents probeId log)
  stale : v.stale = (log.findSome? Entry.staleness).getD false
  output : v.output = ((shownLines log).take 500).reverse
  outputSeq : v.outputSeq = (lines log).length
  testResults : ∀ key, v.testResults key =
    ((ofRun log).filterMap Entry.testResult).find? fun event =>
      event.testId.getD event.name = key
  testSummary : v.testSummary = summaryOf log
  history : v.history = (historyOf (finishedRuns log)).take 4
  runNo : v.runNo = (finishedRuns log).length
  lastRunFailed : v.lastRunFailed =
    (finishedRuns log).head?.any fun run => summaryHasFailures run.2
  revision : v.revision = log.findSome? Entry.revision
  diagnostics : ∀ owner, v.diagnostics owner = (log.findSome? (Entry.diagnosed owner)).getD []

/-! ## One entry more -/

theorem lastOf_reverse_take {α : Type} (n : ℕ) (l : List α) (a : α) :
    lastOf n ((l.take n).reverse ++ [a]) = ((a :: l).take n).reverse := by
  rw [lastOf, List.rtake_eq_reverse_take_reverse, List.reverse_append, List.reverse_reverse]
  cases n with
  | zero => rfl
  | succ n => simp [List.take_take]

theorem updateInlineValue_self {events : List (ProbeValueEvent P)}
    {values : String → Option (InlineValue P)} {event : ProbeValueEvent P}
    (h : values event.probeId = inlineValue events) :
    updateInlineValue values event event.probeId = inlineValue (event :: events) := by
  rw [updateInlineValue, Function.update_self, inlineValue, h]
  congr 2
  cases events with
  | nil => simp [inlineValue]
  | cons old older =>
    by_cases hrun : old.runId = event.runId
    · simp only [inlineValue, hrun, if_true, lastOf_reverse_take]
      simp [hrun]
    · simp [inlineValue, hrun]

/-- What one entry does to the view. -/
structure Steps (e : Entry P) (v v' : View P) : Prop where
  values : v'.values = match e.probe with
    | some event => updateInlineValue v.values event
    | none => v.values
  stale : v'.stale = e.staleness.getD v.stale
  output : v'.output = if e.clears then [] else match e.output with
    | some line => lastOf 500 (v.output ++ [⟨line.1, line.2.1, some (v.outputSeq + 1), line.2.2⟩])
    | none => v.output
  outputSeq : v'.outputSeq = v.outputSeq + e.output.toList.length
  testResults : v'.testResults = if e.begins then fun _ => none else match e.testResult with
    | some event => Function.update v.testResults (event.testId.getD event.name) (some event)
    | none => v.testResults
  testSummary : v'.testSummary = if e.begins then none else e.summary.or v.testSummary
  history : v'.history = match e.finished with
    | some result => (finishedRunEntry (v.runNo + 1) result v.testSummary :: v.history).take 4
    | none => v.history
  runNo : v'.runNo = v.runNo + e.finished.toList.length
  lastRunFailed : v'.lastRunFailed = match e.finished with
    | some _ => summaryHasFailures v.testSummary
    | none => v.lastRunFailed
  revision : v'.revision = e.revision.or v.revision
  diagnostics : ∀ owner, v'.diagnostics owner = (e.diagnosed owner).getD (v.diagnostics owner)

variable {log : List (Entry P)} {v v' : View P} {e : Entry P}

theorem steps_onFinished (result : RunResult) (version : ℕ) :
    Steps (.server (.runFinished version result)) v (v.onFinished result) := by
  by_cases hcancelled : result.cancelled
  · have hnone : Entry.finished (.server (.runFinished version result) : Entry P) = none := if_pos hcancelled
    constructor <;> simp [View.onFinished, hcancelled, hnone, Entry.probe, Entry.staleness, Entry.output,
      Entry.clears, Entry.begins, Entry.testResult, Entry.summary, Entry.revision, Entry.diagnosed]
  · have hsome : Entry.finished (.server (.runFinished version result) : Entry P) = some result := if_neg hcancelled
    constructor <;> simp [View.onFinished, hcancelled, hsome, Entry.probe, Entry.staleness, Entry.output,
      Entry.clears, Entry.begins, Entry.testResult, Entry.summary, Entry.revision, Entry.diagnosed]

theorem steps_onState (version : ℕ) (runId : Option String) (state : RunState) :
    Steps (.server (.runState version runId state)) v (v.onState runId state) := by
  cases state
  case instrumenting =>
    refine ⟨rfl, rfl, rfl, rfl, rfl, rfl, rfl, rfl, rfl, rfl, fun owner => ?_⟩
    simp only [View.onState, View.begin, Entry.diagnosed, if_true]
    split_ifs <;> rfl
  all_goals exact ⟨rfl, rfl, rfl, rfl, rfl, rfl, rfl, rfl, rfl, rfl, fun _ => rfl⟩

theorem steps_accept {event : ServerEvent P} (hnew : v.outdates event = false) :
    Steps (.server event) v (v.accept event) := by
  cases event
  case runState version runId state => exact steps_onState version runId state
  case runFinished version result => exact steps_onFinished result version
  case projectChanged files revision =>
    have hrevision : ¬revision < v.revision.getD 0 := of_decide_eq_false hnew
    simp only [View.accept, if_neg hrevision]
    exact ⟨rfl, rfl, rfl, rfl, rfl, rfl, rfl, rfl, rfl, rfl, fun _ => rfl⟩
  case documentChanged path source revision =>
    have hrevision : ¬revision < v.revision.getD 0 := of_decide_eq_false hnew
    simp only [View.accept, if_neg hrevision]
    split_ifs <;> exact ⟨rfl, rfl, rfl, rfl, rfl, rfl, rfl, rfl, rfl, rfl, fun _ => rfl⟩
  case diagnostics version owner diagnostics =>
    refine ⟨rfl, rfl, rfl, rfl, rfl, rfl, rfl, rfl, rfl, rfl, fun other => ?_⟩
    by_cases howner : other = owner
    · subst howner
      simp [View.accept, Entry.diagnosed]
    · simp [View.accept, Entry.diagnosed, Function.update_of_ne howner, Ne.symm howner]
  case output version category chunk sourceLocation =>
    refine ⟨rfl, rfl, ?_, rfl, rfl, rfl, rfl, rfl, rfl, rfl, fun _ => rfl⟩
    simp only [View.accept, View.addOutput, Entry.output, Entry.clears, Entry.begins]
    exact (if_neg Bool.false_ne_true).symm
  case depsState state error =>
    simp only [View.accept]
    split_ifs <;> exact ⟨rfl, rfl, rfl, rfl, rfl, rfl, rfl, rfl, rfl, rfl, fun _ => rfl⟩
  all_goals exact ⟨rfl, rfl, rfl, rfl, rfl, rfl, rfl, rfl, rfl, rfl, fun _ => rfl⟩

theorem shownLines_none (houtput : e.output = none) (hclears : e.clears = false) :
    shownLines (e :: log) = shownLines log := by
  simp [shownLines, lines, houtput, hclears]

theorem shownLines_clears (hclears : e.clears = true) : shownLines (e :: log) = [] := by
  simp [shownLines, hclears]

theorem shownLines_some {line : Category × String × Option TerminalSourceLocation}
    (houtput : e.output = some line) (hclears : e.clears = false) :
    shownLines (e :: log) =
      ⟨line.1, line.2.1, some ((lines log).length + 1), line.2.2⟩ :: shownLines log := by
  simp [shownLines, lines, houtput, hclears]

theorem ofRun_cons (hbegins : e.begins = false) : ofRun (e :: log) = e :: ofRun log := by
  simp [ofRun, hbegins]

theorem ofRun_begins (hbegins : e.begins = true) : ofRun (e :: log) = [] := by
  simp [ofRun, hbegins]

/-- An entry for the values of one probe. -/
theorem Shows.values_cons (h : Shows log v) (hs : Steps e v v') (probeId : String) :
    v'.values probeId = inlineValue (probeEvents probeId (e :: log)) := by
  rw [hs.values, probeEvents]
  cases hprobe : e.probe with
  | none =>
    rw [List.filterMap_cons_none hprobe]
    exact h.values probeId
  | some event =>
    rw [List.filterMap_cons_some hprobe]
    by_cases hid : event.probeId = probeId
    · subst hid
      rw [List.filter_cons_of_pos (by simp)]
      exact updateInlineValue_self (h.values event.probeId)
    · rw [List.filter_cons_of_neg (by simpa using hid)]
      simp only [updateInlineValue, Function.update_of_ne (Ne.symm hid)]
      exact h.values probeId

theorem Shows.output_cons (h : Shows log v) (hs : Steps e v v') :
    v'.output = ((shownLines (e :: log)).take 500).reverse := by
  rw [hs.output]
  by_cases hclears : e.clears
  · rw [if_pos hclears, shownLines_clears hclears]
    rfl
  · have hfalse : e.clears = false := by simpa using hclears
    rw [if_neg hclears]
    cases houtput : e.output with
    | none =>
      rw [shownLines_none houtput hfalse]
      exact h.output
    | some line =>
      rw [shownLines_some houtput hfalse, h.output, h.outputSeq]
      exact lastOf_reverse_take 500 _ _

theorem Shows.tests_cons (h : Shows log v) (hs : Steps e v v') (key : String) :
    v'.testResults key = ((ofRun (e :: log)).filterMap Entry.testResult).find? fun event =>
      event.testId.getD event.name = key := by
  rw [hs.testResults]
  by_cases hbegins : e.begins
  · rw [if_pos hbegins, ofRun_begins hbegins]
    rfl
  · rw [if_neg hbegins, ofRun_cons (by simpa using hbegins), List.filterMap_cons]
    cases e.testResult with
    | none => exact h.testResults key
    | some event =>
      by_cases hkey : event.testId.getD event.name = key
      · subst hkey
        simp
      · simp only [Function.update_of_ne (Ne.symm hkey), List.find?_cons, decide_eq_false hkey]
        exact h.testResults key

theorem Shows.summary_cons (h : Shows log v) (hs : Steps e v v') :
    v'.testSummary = summaryOf (e :: log) := by
  rw [hs.testSummary, summaryOf]
  by_cases hbegins : e.begins
  · rw [if_pos hbegins, ofRun_begins hbegins]
    rfl
  · rw [if_neg hbegins, ofRun_cons (by simpa using hbegins), List.filterMap_cons]
    cases e.summary with
    | none => exact h.testSummary
    | some summary => rfl

theorem Shows.cons (h : Shows log v) (hs : Steps e v v') : Shows (e :: log) v' where
  values := h.values_cons hs
  stale := by
    rw [hs.stale, List.findSome?_cons, h.stale]
    cases e.staleness <;> rfl
  output := h.output_cons hs
  outputSeq := by
    rw [hs.outputSeq, h.outputSeq, lines]
    cases e.output <;> rfl
  testResults := h.tests_cons hs
  testSummary := h.summary_cons hs
  history := by
    rw [hs.history, finishedRuns, h.history, h.runNo, h.testSummary]
    cases e.finished with
    | none => rfl
    | some result => simp [historyOf, List.take_take]
  runNo := by
    rw [hs.runNo, h.runNo, finishedRuns]
    cases e.finished <;> rfl
  lastRunFailed := by
    rw [hs.lastRunFailed, finishedRuns, h.testSummary, h.lastRunFailed]
    cases e.finished <;> rfl
  revision := by
    rw [hs.revision, List.findSome?_cons, h.revision]
    cases e.revision <;> rfl
  diagnostics owner := by
    rw [hs.diagnostics, List.findSome?_cons, h.diagnostics]
    cases e.diagnosed owner <;> rfl

/-! ## Every run of the client -/

theorem shows_new : Shows ([] : List (Entry P)) {} where
  values _ := rfl
  stale := rfl
  output := rfl
  outputSeq := rfl
  testResults _ := rfl
  testSummary := rfl
  history := rfl
  runNo := rfl
  lastRunFailed := rfl
  revision := rfl
  diagnostics _ := rfl

theorem Shows.setDrawer (h : Shows log v) (drawer : Bool) : Shows log { v with drawer } :=
  ⟨h.values, h.stale, h.output, h.outputSeq, h.testResults, h.testSummary, h.history, h.runNo,
    h.lastRunFailed, h.revision, h.diagnostics⟩

theorem Shows.setOpenFolds (h : Shows log v) (openFolds : List String) :
    Shows log { v with openFolds } :=
  ⟨h.values, h.stale, h.output, h.outputSeq, h.testResults, h.testSummary, h.history, h.runNo,
    h.lastRunFailed, h.revision, h.diagnostics⟩

theorem Shows.setConflict (h : Shows log v) (conflict : Option String) :
    Shows log { v with conflict } :=
  ⟨h.values, h.stale, h.output, h.outputSeq, h.testResults, h.testSummary, h.history, h.runNo,
    h.lastRunFailed, h.revision, h.diagnostics⟩

theorem accept_outdated {event : ServerEvent P} (h : v.outdates event = true) :
    v.accept event = v := by
  cases event
  case projectChanged => exact if_pos (of_decide_eq_true h)
  case documentChanged => exact if_pos (of_decide_eq_true h)
  all_goals cases h

theorem shows_receive {s : State P} (h : Shows s.log s.view) (event : ServerEvent P) :
    Shows (next s (.receive event)).log (next s (.receive event)).view := by
  simp only [next, taken, handleRuntimeEvent]
  by_cases hversion : event.gate.all (acceptsVersion s.version)
  · by_cases hold : s.view.outdates event
    · simpa [hversion, hold, accept_outdated hold] using h
    · rw [Bool.not_eq_true] at hold
      simpa [hversion, hold] using h.cons (steps_accept hold)
  · simpa [hversion] using h

theorem steps_edit : Steps .edit v { v with stale := true } :=
  ⟨rfl, rfl, rfl, rfl, rfl, rfl, rfl, rfl, rfl, rfl, fun _ => rfl⟩

theorem steps_cleared : Steps .cleared v { v with output := [] } :=
  ⟨rfl, rfl, rfl, rfl, rfl, rfl, rfl, rfl, rfl, rfl, fun _ => rfl⟩

theorem steps_echo (text : String) : Steps (.echo text) v (v.addOutput .input text none) := by
  refine ⟨rfl, rfl, ?_, rfl, rfl, rfl, rfl, rfl, rfl, rfl, fun _ => rfl⟩
  simp only [View.addOutput, Entry.output, Entry.clears, Entry.begins]
  exact (if_neg Bool.false_ne_true).symm

theorem shows_next {s : State P} (h : Shows s.log s.view) (action : Action P) :
    Shows (next s action).log (next s action).view := by
  cases action with
  | receive event => exact shows_receive h event
  | edit version => exact h.cons steps_edit
  | setVersion version => exact h
  | echoInput text => exact h.cons (steps_echo text)
  | clearOutput => exact h.cons steps_cleared
  | setDrawer openDrawer => exact h.setDrawer openDrawer
  | setOpenFolds openFolds => exact h.setOpenFolds openFolds
  | setConflict path => exact h.setConflict path
  | reset => exact shows_new

theorem shows_of_reaches {s : State P} (h : (machine P).Reaches {} s) : Shows s.log s.view :=
  h.invariant (I := fun s => Shows s.log s.view) (fun _ action hs _ => shows_next hs action)
    shows_new

theorem reaches_foldl (s : State P) (actions : List (Action P)) :
    (machine P).Reaches s (actions.foldl next s) := by
  induction actions generalizing s with
  | nil => exact .refl s
  | cons action actions ih =>
    exact ((Machine.Reaches.refl (M := machine P) s).tail (a := action) trivial).trans (ih _)

/-- What an action adds to what is seen of the log, a run of actions adds. -/
theorem seen_foldl {α : Type} {version : ℕ} {Fair : Action P → Prop}
    {seen : List (Entry P) → List α} {news : Action P → Option α}
    (hstep : ∀ s action, s.version = version → Fair action →
      (next s action).version = version ∧
        seen (next s action).log = (news action).toList ++ seen s.log)
    {s : State P} (hs : s.version = version) {actions : List (Action P)}
    (hfair : ∀ action ∈ actions, Fair action) :
    (actions.foldl next s).version = version ∧
      seen (actions.foldl next s).log = (actions.filterMap news).reverse ++ seen s.log := by
  induction actions generalizing s with
  | nil => exact ⟨hs, rfl⟩
  | cons action actions ih =>
    obtain ⟨hfirst, hrest⟩ := List.forall_mem_cons.mp hfair
    obtain ⟨hversion, hlog⟩ := hstep s action hs hfirst
    obtain ⟨hend, hseen⟩ := ih hversion hrest
    refine ⟨hend, ?_⟩
    rw [List.foldl_cons, hseen, hlog]
    cases hnews : news action with
    | none => rw [List.filterMap_cons_none hnews, Option.toList_none, List.nil_append]
    | some a =>
      rw [List.filterMap_cons_some hnews, List.reverse_cons, List.append_assoc, Option.toList_some]

/-! ## The numbers of the lines -/

theorem seq_lines (log : List (Entry P)) :
    (lines log).reverse.map TerminalEntry.seq =
      (List.range' 1 (lines log).length).map some := by
  induction log with
  | nil => rfl
  | cons e log ih =>
    rw [lines]
    cases e.output with
    | none => exact ih
    | some line =>
      rw [List.reverse_cons, List.map_append, ih, List.length_cons, List.range'_1_concat,
        List.map_append, Nat.add_comm 1]
      rfl

theorem numbered_output {s : State P} (h : (machine P).Reaches {} s) :
    Numbered s.view.output := by
  have hsub : s.view.output.Sublist (lines s.log).reverse := by
    rw [(shows_of_reaches h).output]
    exact ((List.take_sublist _ _).trans (List.take_sublist _ _)).reverse
  have hseqs := hsub.map TerminalEntry.seq
  rw [seq_lines] at hseqs
  obtain ⟨seqs, hseqs, hmap⟩ := List.sublist_map_iff.mp hseqs
  exact ⟨seqs, hmap, List.Pairwise.sublist hseqs (List.pairwise_lt_range' ..)⟩

/-- No two folds of what the client shows share a key. -/
theorem shown_folds_keys_nodup {s : State P} (h : (machine P).Reaches {} s) (loops : Bool) :
    (foldKeys (groupOutput s.view.output loops)).Nodup :=
  foldKeys_nodup (numbered_output h)

end Shown

/-! ## A short session -/

def quickPayloads : Payloads := ⟨Unit, Unit, Unit, Unit⟩

def quickProbe (version : ℕ) (runId preview : String) : ProbeValueEvent quickPayloads where
  documentVersion := version
  runId
  probeId := "p"
  name := "x"
  line := 1
  column := 1
  typeName := "i32"
  preview
  count := 1
  sequence := 0
  bits := none
  sizeBytes := none
  alignBytes := none
  fields := none

/-- The last event is of the version before the keystroke. -/
def quickActions : List (Action quickPayloads) :=
  [.receive (.runState 1 (some "r1") .instrumenting),
    .receive (.probeValue (quickProbe 1 "r1" "1")), .receive (.probeValue (quickProbe 1 "r1" "2")),
    .receive (.output 1 .program "hello" none), .echoInput "yes",
    .receive (.runFinished 1 ⟨some 0, false, false, 2.5⟩), .edit 2,
    .receive (.probeValue (quickProbe 1 "r1" "3"))]

theorem shown_folds_keys_nodup_quick :
    (foldKeys (groupOutput (quickActions.foldl next {}).view.output true)).Nodup :=
  shown_folds_keys_nodup (reaches_foldl {} quickActions) true

end Atomis.RuntimeView
