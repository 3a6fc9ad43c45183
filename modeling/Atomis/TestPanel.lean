import Atomis.RuntimeView
import Atomis.ZigTestRunner

/-!
# From a test to the panel

The scheduler stamps the events of a test run with the version of its document; the client keeps
one result under each name and the summary, until another run begins. When a run of Zig tests has
ended, every result is one that came of the tests, and the run counts as failed exactly where a
test failed, leaked or ended the process.
-/

namespace Atomis.TestPanel
open Ndjson RuntimeView TestRun ZigTestRunner

/-! ## What the client is sent -/

section Client

variable {P : Payloads}

/-- `translate`, as the client reads it. -/
def translate (version : ℕ) (runId : String) : TestRun.RunnerEvent → ServerEvent P
  | .testing => .runState version (some runId) .testing
  | .testResult testId name status durationMs message =>
    .testResult { documentVersion := version, testId, name, status, durationMs, message }
  | .output chunk => .output version .error (String.ofList chunk) none
  | .testSummary passed failed skipped leaked durationMs =>
    .testSummary
      { documentVersion := version, counts := ⟨passed, failed, skipped, leaked⟩, durationMs }

def tested : ServerEvent P → Bool
  | .testResult _ | .testSummary _ => true
  | _ => false

def asResult (event : ServerEvent P) : Option TestResultEvent := Entry.testResult (.server event)

def asSummary (event : ServerEvent P) : Option TestSummaryEvent := Entry.summary (.server event)

/-- The version stays and no other run begins. -/
def Keeps : Action P → Prop
  | .edit _ | .setVersion _ | .reset | .receive (.runState _ _ .instrumenting) => False
  | _ => True

def received : Action P → Option (ServerEvent P)
  | .receive event => if tested event then some event else none
  | _ => none

def ofTests : Entry P → Option (ServerEvent P)
  | .server event => if tested event then some event else none
  | _ => none

/-- What the last run has said of its tests, the newest first. -/
def testEvents (log : List (Entry P)) : List (ServerEvent P) := (ofRun log).filterMap ofTests

/-- A run from its beginning to its end, with what happens meanwhile. -/
def wholeRun (version : ℕ) (runId : String) (actions : List (Action P)) (result : RunResult) :
    List (Action P) :=
  .receive (.runState version (some runId) .instrumenting) ::
    (actions ++ [.receive (.runFinished version result)])

variable {s : RuntimeView.State P} {action : Action P} {actions : List (Action P)}

theorem taken_of_gate {event : ServerEvent P} (hgate : event.gate = some s.version)
    (hnew : s.view.outdates event = false) : taken s event = true := by
  simp [taken, hgate, acceptsVersion, hnew]

theorem begins_of_keeps {event : ServerEvent P} (h : Keeps (.receive event)) :
    Entry.begins (.server event) = false := by
  cases event with
  | runState version runId state =>
    cases state with
    | instrumenting => cases h
    | _ => rfl
  | _ => rfl

theorem outdates_tested {v : View P} {event : ServerEvent P} (h : tested event) :
    v.outdates event = false := by
  cases event with
  | testResult => rfl
  | testSummary => rfl
  | _ => cases h

theorem testEvents_next (hkeeps : Keeps action)
    (hgate : ∀ event ∈ received action, event.gate = some s.version) :
    (next s action).version = s.version ∧
      testEvents (next s action).log = (received action).toList ++ testEvents s.log := by
  cases action with
  | receive event =>
    have hbegins := begins_of_keeps hkeeps
    refine ⟨rfl, ?_⟩
    by_cases htested : tested event
    · have hreceived : received (.receive event) = some event := if_pos htested
      have htaken := taken_of_gate (hgate event hreceived) (outdates_tested htested)
      have hentry : ofTests (.server event) = some event := if_pos htested
      rw [next]
      dsimp only
      rw [if_pos htaken, testEvents, ofRun_cons hbegins, List.filterMap_cons_some hentry,
        hreceived]
      rfl
    · have hreceived : received (.receive event) = none := if_neg htested
      have hentry : ofTests (.server event) = none := if_neg htested
      rw [next, hreceived]
      dsimp only
      split_ifs
      · rw [testEvents, ofRun_cons hbegins, List.filterMap_cons_none hentry]
        rfl
      · rfl
  | edit version => cases hkeeps
  | setVersion version => cases hkeeps
  | reset => cases hkeeps
  | _ => exact ⟨rfl, rfl⟩

theorem testEvents_foldl (hkeeps : ∀ action ∈ actions, Keeps action)
    (hgate : ∀ event ∈ actions.filterMap received, event.gate = some s.version) :
    (actions.foldl next s).version = s.version ∧
      testEvents (actions.foldl next s).log =
        (actions.filterMap received).reverse ++ testEvents s.log := by
  have hstep : ∀ (t : RuntimeView.State P) (action : Action P), t.version = s.version →
      (Keeps action ∧ ∀ event ∈ received action, event.gate = some s.version) →
      (next t action).version = s.version ∧
        testEvents (next t action).log = (received action).toList ++ testEvents t.log := by
    rintro t action hversion ⟨hkeep, hevents⟩
    rw [← hversion] at hevents ⊢
    exact testEvents_next hkeep hevents
  exact @seen_foldl P _ _ _ testEvents received hstep s rfl actions
    fun action haction => ⟨hkeeps action haction, fun event hevent =>
      hgate event (List.mem_filterMap.mpr ⟨action, haction, hevent⟩)⟩

theorem log_wholeRun {runId : String} {result : RunResult}
    (hkeeps : ∀ action ∈ actions, Keeps action)
    (hgate : ∀ event ∈ actions.filterMap received, event.gate = some s.version) :
    ∃ log, ((wholeRun s.version runId actions result).foldl next s).log =
        .server (.runFinished s.version result) :: log ∧
      testEvents log = (actions.filterMap received).reverse := by
  have hbegun : taken s (.runState s.version (some runId) .instrumenting) = true :=
    taken_of_gate rfl rfl
  obtain ⟨hversion, hevents⟩ := testEvents_foldl
    (s := next s (.receive (.runState s.version (some runId) .instrumenting))) hkeeps hgate
  have hfinished := @taken_of_gate P _ (.runFinished s.version result)
    (congrArg some hversion.symm) rfl
  refine ⟨_, ?_, hevents.trans ?_⟩
  · rw [wholeRun, List.foldl_cons, List.foldl_append, List.foldl_cons, List.foldl_nil, next]
    exact if_pos hfinished
  · rw [next]
    dsimp only
    rw [if_pos hbegun, testEvents, ofRun_begins rfl]
    exact List.append_nil _

/-- What is shown when a run has ended that sent this of its tests. -/
structure Ended (sent : List (ServerEvent P)) (result : RunResult) (v : View P) : Prop where
  results : ∀ key, v.testResults key =
    (sent.filterMap asResult).reverse.find? fun event => event.testId.getD event.name = key
  failed : v.lastRunFailed = summaryHasFailures (sent.filterMap asSummary).reverse.head?
  history : ∃ n older, v.history =
    finishedRunEntry n result (sent.filterMap asSummary).reverse.head? :: older

/-- A reading of entries that looks at those about tests only. -/
theorem filterMap_ofRun {α : Type} {read : Entry P → Option α}
    (hread : ∀ e, read e = (ofTests e).bind fun event => read (.server event))
    (log : List (Entry P)) :
    (ofRun log).filterMap read = (testEvents log).filterMap fun event => read (.server event) := by
  rw [testEvents, List.filterMap_filterMap]
  exact List.filterMap_congr fun e _ => hread e

theorem ended_wholeRun (hs : (RuntimeView.machine P).Reaches {} s) {runId : String}
    {result : RunResult} (hkeeps : ∀ action ∈ actions, Keeps action)
    (hgate : ∀ event ∈ actions.filterMap received, event.gate = some s.version)
    (hcompleted : result.cancelled = false) :
    Ended (actions.filterMap received) result
      ((wholeRun s.version runId actions result).foldl next s).view := by
  have hshows := shows_of_reaches (hs.trans (reaches_foldl s (wholeRun s.version runId actions
    result)))
  obtain ⟨log, hlog, hevents⟩ := @log_wholeRun P s actions runId result hkeeps hgate
  rw [hlog] at hshows
  have hresult : ∀ e : Entry P, Entry.testResult e = (ofTests e).bind asResult := by
    rintro (event | _ | _ | _)
    · cases event <;> rfl
    all_goals rfl
  have hsummary : ∀ e : Entry P, Entry.summary e = (ofTests e).bind asSummary := by
    rintro (event | _ | _ | _)
    · cases event <;> rfl
    all_goals rfl
  have hof : summaryOf log = ((actions.filterMap received).filterMap asSummary).reverse.head? := by
    rw [summaryOf, filterMap_ofRun hsummary, hevents, List.filterMap_reverse]
    rfl
  have hfinished : Entry.finished (.server (.runFinished s.version result) : Entry P) =
      some result := if_neg (by simp [hcompleted])
  refine ⟨fun key => ?_, ?_, ?_⟩
  · rw [hshows.testResults, ofRun_cons rfl, List.filterMap_cons_none rfl,
      filterMap_ofRun hresult, hevents, List.filterMap_reverse]
    rfl
  · rw [hshows.lastRunFailed, finishedRuns, hfinished, ← hof]
    rfl
  · rw [hshows.history, finishedRuns, hfinished, ← hof]
    exact ⟨_, _, rfl⟩

end Client

/-! ## A run of Zig tests -/

def resultEvents (version : ℕ) (events : List TestRun.RunnerEvent) : List TestResultEvent :=
  events.filterMap fun
    | .testResult testId name status durationMs message =>
      some { documentVersion := version, testId, name, status, durationMs, message }
    | _ => none

def summaryEvents (version : ℕ) (events : List TestRun.RunnerEvent) : List TestSummaryEvent :=
  events.filterMap fun
    | .testSummary passed failed skipped leaked durationMs =>
      some { documentVersion := version, counts := ⟨passed, failed, skipped, leaked⟩, durationMs }
    | _ => none

/-- What the client is sent of its tests. -/
def sentOf (P : Payloads) (version : ℕ) (runId : String) (events : List TestRun.RunnerEvent) :
    List (ServerEvent P) :=
  (events.map (translate version runId)).filter tested

section Sent

variable {P : Payloads} {version : ℕ} {runId : String} {events : List TestRun.RunnerEvent}

theorem gate_sentOf {event : ServerEvent P} (h : event ∈ sentOf P version runId events) :
    event.gate = some version := by
  obtain ⟨hevent, -⟩ := List.mem_filter.mp h
  obtain ⟨e, -, rfl⟩ := List.mem_map.mp hevent
  cases e <;> rfl

theorem results_sentOf :
    (sentOf P version runId events).filterMap asResult = resultEvents version events := by
  rw [sentOf, List.filterMap_filter, List.filterMap_map]
  exact List.filterMap_congr fun e _ => by cases e <;> rfl

theorem summaries_sentOf :
    (sentOf P version runId events).filterMap asSummary = summaryEvents version events := by
  rw [sentOf, List.filterMap_filter, List.filterMap_map]
  exact List.filterMap_congr fun e _ => by cases e <;> rfl

theorem resultsOf_events :
    resultsOf events = (resultEvents version events).map fun e => (e.testId, e.status) := by
  rw [resultEvents, List.map_filterMap]
  exact List.filterMap_congr fun e _ => by cases e <;> rfl

theorem summariesOf_events :
    summariesOf events = (summaryEvents version events).map TestSummaryEvent.counts := by
  rw [summaryEvents, List.map_filterMap]
  exact List.filterMap_congr fun e _ => by cases e <;> rfl

/-- An entry with a result shows one. -/
theorem find_of_resultsOf {id : String} (h : some id ∈ (resultsOf events).map (·.1)) :
    ((resultEvents version events).reverse.find? fun event =>
      event.testId.getD event.name = id) ≠ none := by
  intro hnone
  rw [@resultsOf_events version events, List.map_map] at h
  obtain ⟨event, hevent, hid⟩ := List.mem_map.mp h
  rw [List.find?_eq_none] at hnone
  refine hnone event (List.mem_reverse.mpr hevent) ?_
  have htestId : event.testId = some id := hid
  simp [htestId]

theorem mem_resultsOf_of_find {key id : String} {event : TestResultEvent}
    (h : ((resultEvents version events).reverse.find? fun event =>
      event.testId.getD event.name = key) = some event) (hid : event.testId = some id) :
    (some id, event.status) ∈ resultsOf events := by
  have hevent := List.mem_reverse.mp (List.mem_of_find?_eq_some h)
  rw [@resultsOf_events version events, ← hid]
  exact List.mem_map_of_mem (f := fun e : TestResultEvent => (e.testId, e.status)) hevent

theorem head_of_summariesOf {counts : Counts} (h : summariesOf events = [counts]) :
    ∃ summary, (summaryEvents version events).reverse.head? = some summary ∧
      summary.counts = counts := by
  rw [@summariesOf_events version events] at h
  obtain ⟨summary, hsingle, hcounts⟩ := List.map_eq_singleton_iff.mp h
  refine ⟨summary, ?_, hcounts⟩
  rw [hsingle]
  rfl

end Sent

/-- A test failed or leaked, or the process ended inside one. -/
def Failing (tests : List Test) : Prop :=
  (∃ t ∈ finished tests, t.2 = .failed ∨ t.2 = .leaked) ∨ inside tests ≠ none

/-- Where a result under an identifier comes from. -/
inductive Stands (catalog : List TestCase) (tests : List Test) (timedOut : Bool) (id : String) :
    TestStatus → Prop
  | finished {t : List Char × RawTestStatus} (ht : t ∈ ZigTestRunner.finished tests)
      (hid : idOf zig catalog (String.ofList t.1) = some id) :
      Stands catalog tests timedOut id (zig.status t.2)
  | inside {name : List Char} (hname : ZigTestRunner.inside tests = some name)
      (hid : idOf zig catalog (String.ofList name) = some id) :
      Stands catalog tests timedOut id (if timedOut then .timedOut else .failed)
  | late (h : timedOut = true) : Stands catalog tests timedOut id .timedOut

/-- What the panel shows when the run has ended. -/
structure Panel {P : Payloads} (catalog : List TestCase) (tests : List Test) (run : Run)
    (result : RunResult) (v : View P) : Prop where
  shown : ∀ name, name ∈ (finished tests).map (·.1) ∨ inside tests = some name →
    ∀ id, idOf zig catalog (String.ofList name) = some id → v.testResults id ≠ none
  timeouts : run.execution.timedOut → ∀ test ∈ catalog, v.testResults test.testId ≠ none
  stands : ∀ key event, v.testResults key = some event → ∀ id, event.testId = some id →
    Stands catalog tests run.execution.timedOut id event.status
  failed : v.lastRunFailed = true ↔ Failing tests
  history : ∃ entry older, v.history = entry :: older ∧ (entry.ok = true ↔
    result.exitCode = some 0 ∧ result.timedOut = false ∧ ¬Failing tests)

section Zig

variable {catalog : List TestCase} {tests : List Test} {run : Run}
  {events : List TestRun.RunnerEvent}

theorem timedOut_of_late {late : List Result} (hnone : run.execution.timedOut = false → late = [])
    {result : Result} (h : result ∈ late) : run.execution.timedOut = true := by
  by_contra htimedOut
  rw [hnone (Bool.eq_false_iff.mpr htimedOut)] at h
  cases h

theorem mem_resultsOf (h : Reported catalog tests run events) {id : String} {status : TestStatus}
    (hmem : (some id, status) ∈ resultsOf events) :
    Stands catalog tests run.execution.timedOut id status := by
  obtain ⟨late, hresults, hnone, hlate⟩ := h.results
  rw [hresults, List.mem_append, List.mem_append] at hmem
  rcases hmem with (hfinished | hinside) | hrest
  · obtain ⟨t, ht, heq⟩ := List.mem_map.mp hfinished
    obtain ⟨hid, rfl⟩ := Prod.mk.inj heq
    exact .finished ht hid
  · obtain ⟨name, hname, heq⟩ := List.mem_map.mp hinside
    obtain ⟨hid, rfl⟩ := Prod.mk.inj heq
    exact .inside (Option.mem_toList.mp hname) hid
  · obtain ⟨test, -, heq⟩ := hlate _ hrest
    obtain ⟨-, rfl⟩ := Prod.mk.inj heq
    exact .late (timedOut_of_late hnone hrest)

theorem resultsOf_begun (h : Reported catalog tests run events) {name : List Char}
    (hname : name ∈ (finished tests).map (·.1) ∨ inside tests = some name) :
    idOf zig catalog (String.ofList name) ∈ (resultsOf events).map (·.1) := by
  obtain ⟨late, hresults, -⟩ := h.results
  rw [hresults, List.map_append, List.map_append, List.mem_append, List.mem_append]
  rcases hname with hname | hname
  · obtain ⟨t, ht, rfl⟩ := List.mem_map.mp hname
    exact .inl (.inl (List.mem_map.mpr ⟨_, List.mem_map_of_mem ht, rfl⟩))
  · exact .inl (.inr (by simp [hname]))

theorem failing_iff (h : Reported catalog tests run events)
    (hhangs : run.execution.timedOut → inside tests ≠ none) :
    (∃ status ∈ (resultsOf events).map (·.2),
      status = .failed ∨ status = .timedOut ∨ status = .leaked) ↔ Failing tests := by
  obtain ⟨late, hresults, hnone, hlate⟩ := h.results
  constructor
  · rintro ⟨status, hstatus, hbad⟩
    rw [hresults, List.map_append, List.map_append, List.mem_append, List.mem_append] at hstatus
    rcases hstatus with (hfinished | hinside) | hrest
    · rw [List.map_map] at hfinished
      obtain ⟨t, ht, rfl⟩ := List.mem_map.mp hfinished
      refine .inl ⟨t, ht, ?_⟩
      obtain ⟨name, raw⟩ := t
      cases raw <;> simp_all [zig]
    · refine .inr fun hinsideNone => ?_
      simp [hinsideNone] at hinside
    · obtain ⟨result, hresult, -⟩ := List.mem_map.mp hrest
      exact .inr (hhangs (timedOut_of_late hnone hresult))
  · rw [hresults, List.map_append, List.map_append]
    rintro (⟨t, ht, hbad⟩ | hinside)
    · refine ⟨zig.status t.2, ?_, ?_⟩
      · refine List.mem_append_left _ (List.mem_append_left _ ?_)
        rw [List.map_map]
        exact List.mem_map_of_mem (f := fun t => zig.status t.2) ht
      · rcases hbad with hbad | hbad <;> simp [hbad, zig]
    · obtain ⟨name, hname⟩ := Option.ne_none_iff_exists'.mp hinside
      refine ⟨if run.execution.timedOut then .timedOut else .failed, ?_, ?_⟩
      · refine List.mem_append_left _ (List.mem_append_right _ ?_)
        simp [hname]
      · cases run.execution.timedOut <;> simp

theorem failures_tally (statuses : List TestStatus) :
    (0 < (tally statuses).failed ∨ 0 < (tally statuses).leaked) ↔
      ∃ status ∈ statuses, status = .failed ∨ status = .timedOut ∨ status = .leaked := by
  simp only [tally, Nat.add_pos_iff_pos_or_pos, List.count_pos_iff]
  constructor
  · rintro ((h | h) | h)
    · exact ⟨_, h, .inl rfl⟩
    · exact ⟨_, h, .inr (.inl rfl)⟩
    · exact ⟨_, h, .inr (.inr rfl)⟩
  · rintro ⟨status, h, rfl | rfl | rfl⟩
    · exact .inl (.inl h)
    · exact .inl (.inr h)
    · exact .inr h

theorem panel_of_reported {P : Payloads} (h : Reported catalog tests run events)
    (hhangs : run.execution.timedOut → inside tests ≠ none) {version : ℕ} {runId : String}
    {result : RunResult} {v : View P} (hended : Ended (sentOf P version runId events) result v) :
    Panel catalog tests run result v := by
  obtain ⟨hresults, hfailed, n, older, hhistory⟩ := hended
  rw [results_sentOf] at hresults
  obtain ⟨summary, hhead, hcounts⟩ := @head_of_summariesOf version events _ h.totals
  rw [summaries_sentOf, hhead] at hfailed hhistory
  have hfailing := (failures_tally _).trans (failing_iff h hhangs)
  rw [← hcounts] at hfailing
  refine ⟨fun name hname id hid => ?_, fun htimedOut test htest => ?_,
    fun key event hevent id hid => ?_, ?_, ?_⟩
  · rw [hresults]
    exact find_of_resultsOf (hid ▸ resultsOf_begun h hname)
  · rw [hresults]
    exact find_of_resultsOf (h.timeouts htimedOut test htest)
  · rw [hresults] at hevent
    exact mem_resultsOf h (mem_resultsOf_of_find hevent hid)
  · rw [hfailed, ← hfailing]
    simp [summaryHasFailures]
  · refine ⟨_, _, hhistory, ?_⟩
    rw [← hfailing]
    simp [finishedRunEntry, and_assoc]

end Zig

/-! ## A process that ends inside a test -/

/-- The client is sent nothing else. -/
def quickActions : List (Action quickPayloads) :=
  (sentOf quickPayloads 1 "r1" (runTests zig (RuntimeJson.fromStr RuntimeJson.testEnvelope)
    quickCatalog quickRun)).map .receive

def quickResult : RunResult := ⟨some 134, false, false, 3.0⟩

theorem received_map {P : Payloads} {events : List (ServerEvent P)}
    (h : ∀ event ∈ events, tested event = true) :
    (events.map Action.receive).filterMap received = events := by
  rw [List.filterMap_map]
  refine (List.filterMap_congr fun event hevent => ?_).trans List.filterMap_some
  exact if_pos (h event hevent)

theorem keeps_map {P : Payloads} {events : List (ServerEvent P)}
    (h : ∀ event ∈ events, tested event = true) : ∀ action ∈ events.map Action.receive,
      Keeps action := by
  intro action haction
  obtain ⟨event, hevent, rfl⟩ := List.mem_map.mp haction
  have htested := h event hevent
  cases event with
  | runState => cases htested
  | _ => trivial

theorem tested_sentOf {P : Payloads} {version : ℕ} {runId : String}
    {events : List TestRun.RunnerEvent} :
    ∀ event ∈ sentOf P version runId events, tested event = true := fun _ hevent =>
  (List.mem_filter.mp hevent).2

end Atomis.TestPanel
