import Atomis.Ndjson

/-!
# A run of the tests

Zig, Python and the C family run their tests the same way: the records of the test channel are
counted and sent as they come, and when the process has ended what they leave open is reported
too. A `Runner` holds what the three do differently. The order in which a `HashMap` gives its
values is a parameter.
-/

namespace Atomis.TestRun
open Ndjson

structure TestCase where
  testId : String
  path : String
  name : String
  line : ℕ
  column : ℕ
deriving DecidableEq

inductive TestStatus
  | passed
  | failed
  | skipped
  | leaked
  | timedOut
deriving DecidableEq

/-- The events of a test run; an output goes to stderr as an error. -/
inductive RunnerEvent
  | testing
  | testResult (testId : Option String) (name : String) (status : TestStatus)
      (durationMs : Float) (message : Option String)
  | output (chunk : List Char)
  | testSummary (passed failed skipped leaked : ℕ) (durationMs : Float)

structure Counts where
  passed : ℕ := 0
  failed : ℕ := 0
  skipped : ℕ := 0
  leaked : ℕ := 0
deriving DecidableEq

def Counts.add (counts : Counts) : TestStatus → Counts
  | .passed => { counts with passed := counts.passed + 1 }
  | .failed | .timedOut => { counts with failed := counts.failed + 1 }
  | .skipped => { counts with skipped := counts.skipped + 1 }
  | .leaked => { counts with leaked := counts.leaked + 1 }

/-! ## Names and messages -/

/-- Each place where `marker` stands in a text: what is before it and what behind it. -/
def occurrences (marker before : List Char) : List Char → List (List Char × List Char)
  | [] => []
  | c :: text =>
    if marker.isPrefixOf (c :: text) then
      (before, (c :: text).drop marker.length) :: occurrences marker (before ++ [c]) text
    else occurrences marker (before ++ [c]) text

def stripSuffix (suffix text : List Char) : Option (List Char) :=
  if suffix.isSuffixOf text then some (text.take (text.length - suffix.length)) else none

def stripPrefix (start text : List Char) : Option (List Char) :=
  if start.isPrefixOf text then some (text.drop start.length) else none

/-- The last piece of a text that is split at `c`. -/
def lastPiece (c : Char) (text : List Char) : List Char := text.rtakeWhile (· ≠ c)

/-- The source files of a session are modules of the package, named by their paths. -/
def expectedPrefix (path : List Char) : List Char :=
  ((stripSuffix ".zig".toList path).getD path).map fun c => if c = '/' then '.' else c

def matchRunnerName (catalog : List TestCase) (runnerName : String) : Option TestCase :=
  let places := occurrences ".test.".toList [] runnerName.toList
  let matched := places.findSome? fun (start, title) =>
    catalog.find? fun c => expectedPrefix c.path.toList = start ∧ c.name.toList = title
  let fallbackTitle := match places with
    | (_, title) :: _ => title
    | [] => lastPiece '.' runnerName.toList
  matched.or (catalog.find? fun c => c.name.toList = fallbackTitle)

def matchPyTestName (catalog : List TestCase) (runnerName : String) : Option TestCase :=
  let bySuffix := catalog.filter fun c => runnerName = c.name ∨
    (stripSuffix c.name.toList runnerName.toList).any fun head => head.getLast? = some '.'
  let stem (c : TestCase) :=
    let inside := (stripPrefix "src/".toList c.path.toList).getD c.path.toList
    lastPiece '/' ((stripSuffix ".py".toList inside).getD c.path.toList)
  if bySuffix.length ≤ 1 then bySuffix.head?
  else
    (bySuffix.find? fun c => (stripSuffix c.name.toList runnerName.toList).bind
      (stripSuffix ['.']) = some (stem c)).or bySuffix.head?

/-- The catalog entry of a C or C++ test. -/
def matchName (catalog : List TestCase) (name : String) : Option TestCase :=
  catalog.find? fun c => c.name = name

def truncateChars (text : List Char) (most : ℕ) : List Char := text.take most

def tailChars (text : List Char) (most : ℕ) : List Char := text.drop (text.length - most)

def abortedMessage (perTest wholeRun : List Char) : Option String :=
  if trim perTest ≠ [] then some (String.ofList (truncateChars (trim perTest) 1200))
  else if trim wholeRun = [] then none
  else some (String.ofList (tailChars (trim wholeRun) 1200))

/-- The message of a test with a record, from what it wrote to stderr or else from the record. -/
def failureMessage (failing : Bool) (stderrBuffer : List Char) (error : Option String) :
    Option String :=
  let tail := trim stderrBuffer
  if failing then if tail = [] then error else some (String.ofList (truncateChars tail 1200))
  else none

/-! ## The three runners -/

structure Runner where
  matched : List TestCase → String → Option TestCase
  status : RawTestStatus → TestStatus
  message : TestStatus → List Char → Option String → Option String
  /-- What is kept of a summary record. -/
  summary : Counts → Counts
  /-- Whether the reader is told that the channel has ended. -/
  ends : Bool
  /-- Whether what is left in the stderr buffer is shown where no summary came. -/
  leavings : Bool

def zig : Runner where
  matched := matchRunnerName
  status
    | .passed => .passed
    | .failed => .failed
    | .skipped => .skipped
    | .leaked => .leaked
  message status := failureMessage (status = .failed ∨ status = .leaked)
  summary counts := counts
  ends := false
  leavings := false

def cfamily : Runner where
  matched := matchName
  status
    | .passed => .passed
    | .skipped => .skipped
    | _ => .failed
  message _ _ _ := none
  summary counts := { counts with leaked := 0 }
  ends := true
  leavings := false

def py : Runner where
  matched := matchPyTestName
  status
    | .passed => .passed
    | .skipped => .skipped
    | _ => .failed
  message status := failureMessage (status = .failed)
  summary counts := { counts with leaked := 0 }
  ends := true
  leavings := true

inductive Language
  | zig
  | cfamily
  | py

def Language.runner : Language → Runner
  | .zig => TestRun.zig
  | .cfamily => TestRun.cfamily
  | .py => TestRun.py

/-! ## While the process runs -/

structure TestRunState where
  started : List (ℕ × String) := []
  counts : Counts := {}
  stderrBuffer : List Char := []
  reported : List String := []
  summary : Option Counts := none
  sent : List RunnerEvent := []

/-- The test that a name stands for, as a result shows it. -/
def testResult (matched : Option TestCase) (name : String) (status : TestStatus)
    (durationMs : Float) (message : Option String) : RunnerEvent :=
  .testResult (matched.map (·.testId)) ((matched.map (·.name)).getD name) status durationMs message

/-- The callback of the reader. -/
def onEvent (runner : Runner) (catalog : List TestCase) (state : TestRunState) :
    RawTestEvent → TestRunState
  | .testStart index name =>
    { state with
      started := state.started.filter (·.1 ≠ index) ++ [(index, name)]
      stderrBuffer := [] }
  | .testResult index name status durationNs error =>
    let matched := runner.matched catalog name
    { state with
      started := state.started.filter (·.1 ≠ index)
      counts := state.counts.add (runner.status status)
      reported := state.reported ++ (matched.map (·.testId)).toList
      sent := state.sent ++ [testResult matched name (runner.status status)
        (durationNs / 1000000.0) (runner.message (runner.status status) state.stderrBuffer error)]
      stderrBuffer := [] }
  | .testSummary passed failed skipped leaked =>
    { state with summary := some (runner.summary ⟨passed, failed, skipped, leaked⟩) }

/-- What the supervisor hands on, in the order it is read. -/
inductive Signal
  | stderr (chunk : List Char)
  | probe (chunk : List UInt8)

structure Live where
  reader : Reader RawTestEvent := {}
  readError : Option String := none
  state : TestRunState := { sent := [.testing] }

section Live

variable (runner : Runner) (serde : List Char → Except String TestEnvelope)
  (catalog : List TestCase)

def Live.receive (live : Live) : Signal → Live
  | .stderr chunk =>
    { live with state.stderrBuffer := live.state.stderrBuffer ++ chunk }
  | .probe chunk =>
    let reader := live.reader.push (testChannel serde) chunk
    let news := reader.delivered.drop live.reader.delivered.length
    { reader
      readError := live.readError.or reader.error
      state := news.foldl (onEvent runner catalog) live.state }

def Live.receiveAll (live : Live) (signals : List Signal) : Live :=
  signals.foldl (Live.receive runner serde catalog) live

/-- The error of the channel, as each runner finds it when the process has ended. -/
def Live.channelError (live : Live) : Option String :=
  if runner.ends then (live.reader.close (testChannel serde)).error else live.readError

end Live

/-! ## When it has ended -/

def reportAbortedTests (wholeStderr : List Char) (timedOut : Bool)
    (lookup : String → Option TestCase) : List String → TestRunState → ℕ × TestRunState
  | [], state => (0, state)
  | name :: started, state =>
    let matched := lookup name
    let (reported, state) := reportAbortedTests wholeStderr timedOut lookup started
      { state with
        reported := state.reported ++ (matched.map (·.testId)).toList
        sent := state.sent ++ [testResult matched name (if timedOut then .timedOut else .failed)
          0.0 (abortedMessage state.stderrBuffer wholeStderr)]
        stderrBuffer := [] }
    (reported + 1, state)

def reportTimedOutRemainder (reportedIds : List String) :
    List TestCase → ℕ × List RunnerEvent
  | [] => (0, [])
  | test :: catalog =>
    let (reported, sent) := reportTimedOutRemainder reportedIds catalog
    if test.testId ∈ reportedIds then (reported, sent)
    else (reported + 1, .testResult (some test.testId) test.name .timedOut 0.0 none :: sent)

structure Execution where
  exitCode : Option ℤ
  timedOut : Bool
  cancelled : Bool
  stderr : List Char
  durationMs : Float

/-- An order in which a hash map gives its values. -/
structure HashOrder where
  arrange : List String → List String
  perm : ∀ names, (arrange names).Perm names

/-- What happens around a test run. The token is looked at before the process is started and
after it has ended. -/
structure Run where
  cancelledBefore : Bool
  signals : List Signal
  execution : Execution
  cancelledAfter : Bool
  order : HashOrder

def channelErrorText (message : String) : List Char :=
  "test channel error: ".toList ++ message.toList ++ ['\n']

section Finish

variable (runner : Runner) (serde : List Char → Except String TestEnvelope)
  (catalog : List TestCase) (run : Run)

/-- The state when what the process left open is counted too. -/
def settle (live : Live) : TestRunState :=
  let execution := run.execution
  let (aborted, state) := reportAbortedTests execution.stderr execution.timedOut
    (runner.matched catalog) (run.order.arrange (live.state.started.map (·.2))) live.state
  let state := { state with counts.failed := state.counts.failed + aborted }
  if execution.timedOut then
    let (remainder, sent) := reportTimedOutRemainder state.reported catalog
    { state with counts.failed := state.counts.failed + remainder, sent := state.sent ++ sent }
  else state

/-- What is shown before the summary. -/
def outputs (live : Live) (state : TestRunState) : List RunnerEvent :=
  let leavings :=
    if runner.leavings ∧ state.summary = none ∧ run.execution.exitCode ≠ some 0 ∧
      trim state.stderrBuffer ≠ [] then [RunnerEvent.output state.stderrBuffer] else []
  leavings ++ ((live.channelError runner serde).map
    fun message => RunnerEvent.output (channelErrorText message)).toList

def runTests : List RunnerEvent :=
  if catalog = [] ∨ run.cancelledBefore then []
  else
    let live := Live.receiveAll runner serde catalog {} run.signals
    if run.execution.cancelled ∨ run.cancelledAfter then live.state.sent
    else
      let state := settle runner catalog run live
      let counts := state.summary.getD state.counts
      state.sent ++ outputs runner serde run live state ++
        [.testSummary counts.passed counts.failed counts.skipped counts.leaked
          run.execution.durationMs]

end Finish

end Atomis.TestRun
