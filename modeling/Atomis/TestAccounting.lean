import Atomis.TestRun

/-!
# Test accounting

What a test run sends is worked out from the records of the channel: a result for each result
record, one for each start that no record answers and, on a timeout, one for each entry of the
catalog that has none of these. The summary counts them all unless the channel has a summary of
its own.
-/

namespace Atomis.TestRun
open Ndjson

/-! ## What is sent -/

abbrev Result := Option String × TestStatus

def resultsOf (events : List RunnerEvent) : List Result :=
  events.filterMap fun | .testResult testId _ status _ _ => some (testId, status) | _ => none

def outputsOf (events : List RunnerEvent) : List (List Char) :=
  events.filterMap fun | .output chunk => some chunk | _ => none

def summariesOf (events : List RunnerEvent) : List Counts :=
  events.filterMap fun
    | .testSummary passed failed skipped leaked _ => some ⟨passed, failed, skipped, leaked⟩
    | _ => none

instance : Add Counts where
  add left right := ⟨left.passed + right.passed, left.failed + right.failed,
    left.skipped + right.skipped, left.leaked + right.leaked⟩

/-- The results by status; what timed out has failed. -/
def tally (statuses : List TestStatus) : Counts where
  passed := statuses.count .passed
  failed := statuses.count .failed + statuses.count .timedOut
  skipped := statuses.count .skipped
  leaked := statuses.count .leaked

theorem Counts.add_def (left right : Counts) :
    left + right = ⟨left.passed + right.passed, left.failed + right.failed,
      left.skipped + right.skipped, left.leaked + right.leaked⟩ := rfl

theorem resultsOf_append (left right : List RunnerEvent) :
    resultsOf (left ++ right) = resultsOf left ++ resultsOf right := List.filterMap_append

theorem outputsOf_append (left right : List RunnerEvent) :
    outputsOf (left ++ right) = outputsOf left ++ outputsOf right := List.filterMap_append

theorem summariesOf_append (left right : List RunnerEvent) :
    summariesOf (left ++ right) = summariesOf left ++ summariesOf right := List.filterMap_append

theorem tally_append (left right : List TestStatus) :
    tally (left ++ right) = tally left + tally right := by
  simp only [tally, List.count_append, Counts.add_def]
  congr 1
  omega

theorem tally_singleton (counts : Counts) (status : TestStatus) :
    counts + tally [status] = counts.add status := by
  cases status <;> rfl

theorem tally_replicate (n : ℕ) {status : TestStatus}
    (h : status = .failed ∨ status = .timedOut) :
    tally (List.replicate n status) = ⟨0, n, 0, 0⟩ := by
  rcases h with rfl | rfl <;> simp [tally, List.count_replicate]

/-! ## What the channel says -/

def resultRecords (records : List RawTestEvent) : List (String × RawTestStatus) :=
  records.filterMap fun | .testResult _ name status _ _ => some (name, status) | _ => none

def indexOf : RawTestEvent → Option ℕ
  | .testStart index _ => some index
  | .testResult index .. => some index
  | .testSummary .. => none

/-- The starts with no later record of the same index. -/
def unfinished : List RawTestEvent → List (ℕ × String)
  | [] => []
  | record :: records =>
    match record with
    | .testStart index name =>
      if records.any (indexOf · = some index) then unfinished records
      else (index, name) :: unfinished records
    | _ => unfinished records

section Records

variable (runner : Runner) (catalog : List TestCase)

def lastSummary (records : List RawTestEvent) : Option Counts :=
  (records.filterMap fun
    | .testSummary passed failed skipped leaked =>
      some (runner.summary ⟨passed, failed, skipped, leaked⟩)
    | _ => none).getLast?

def idOf (name : String) : Option String := (runner.matched catalog name).map (·.testId)

/-- The entries that neither a result nor an unfinished start is about. -/
def unreported (records : List RawTestEvent) : List TestCase :=
  catalog.filter fun test =>
    some test.testId ∉ (resultRecords records).map (idOf runner catalog ·.1) ∧
      some test.testId ∉ (unfinished records).map (idOf runner catalog ·.2)

/-- The tallies that the records, the unfinished tests and the timeout come to. -/
def due (timedOut : Bool) (records : List RawTestEvent) : Counts :=
  tally ((resultRecords records).map (runner.status ·.2)) +
    ⟨0, (unfinished records).length +
      if timedOut then (unreported runner catalog records).length else 0, 0, 0⟩

end Records

theorem unfinished_append (records : List RawTestEvent) (record : RawTestEvent) :
    unfinished (records ++ [record]) =
      (unfinished records).filter (indexOf record ≠ some ·.1) ++ unfinished [record] := by
  induction records with
  | nil => rfl
  | cons first records ih =>
    cases first with
    | testStart index name =>
      simp only [List.cons_append, unfinished, List.any_append, List.any_cons, List.any_nil,
        Bool.or_false, ih]
      by_cases hlater : records.any (indexOf · = some index)
      · simp [hlater]
      · by_cases hrecord : indexOf record = some index <;> simp [hlater, hrecord]
    | testResult => exact ih
    | testSummary => exact ih

/-! ## While the process runs -/

section Tracks

variable (runner : Runner) (catalog : List TestCase)

def recordResults (records : List RawTestEvent) : List Result :=
  (resultRecords records).map fun record =>
    (idOf runner catalog record.1, runner.status record.2)

/-- The state after these records. -/
structure Tracks (records : List RawTestEvent) (state : TestRunState) : Prop where
  started : state.started = unfinished records
  counts : state.counts = tally ((recordResults runner catalog records).map (·.2))
  reported : state.reported = (recordResults runner catalog records).filterMap (·.1)
  summary : state.summary = lastSummary runner records
  results : resultsOf state.sent = recordResults runner catalog records
  outputs : outputsOf state.sent = []
  summaries : summariesOf state.sent = []

variable {runner catalog} {records : List RawTestEvent} {state : TestRunState}

theorem tracks_new : Tracks runner catalog [] { sent := [.testing] } where
  started := rfl
  counts := rfl
  reported := rfl
  summary := rfl
  results := rfl
  outputs := rfl
  summaries := rfl

theorem Tracks.stderr (h : Tracks runner catalog records state) (text : List Char) :
    Tracks runner catalog records { state with stderrBuffer := text } :=
  ⟨h.started, h.counts, h.reported, h.summary, h.results, h.outputs, h.summaries⟩

theorem recordResults_append (left right : List RawTestEvent) :
    recordResults runner catalog (left ++ right) =
      recordResults runner catalog left ++ recordResults runner catalog right := by
  simp [recordResults, resultRecords]

theorem filter_index (starts : List (ℕ × String)) (index : ℕ) :
    starts.filter (some index ≠ some ·.1) = starts.filter (·.1 ≠ index) := by
  simp only [ne_eq, Option.some.injEq, eq_comm]

theorem Tracks.onEvent (h : Tracks runner catalog records state) (record : RawTestEvent) :
    Tracks runner catalog (records ++ [record]) (onEvent runner catalog state record) := by
  cases record with
  | testStart index name =>
    have hsame : recordResults runner catalog (records ++ [.testStart index name]) =
        recordResults runner catalog records := by simp [recordResults, resultRecords]
    refine ⟨?_, ?_, ?_, ?_, ?_, h.outputs, h.summaries⟩
    · rw [unfinished_append, indexOf, filter_index, ← h.started]
      rfl
    · rw [hsame]; exact h.counts
    · rw [hsame]; exact h.reported
    · simp only [lastSummary, List.filterMap_append, List.filterMap_cons, List.filterMap_nil,
        List.append_nil]
      exact h.summary
    · rw [hsame]; exact h.results
  | testResult index name status durationNs error =>
    have hmore : recordResults runner catalog
        (records ++ [.testResult index name status durationNs error]) =
        recordResults runner catalog records ++
          [(idOf runner catalog name, runner.status status)] := by
      rw [recordResults_append]
      rfl
    refine ⟨?_, ?_, ?_, ?_, ?_, ?_, ?_⟩
    · rw [unfinished_append, indexOf, filter_index, ← h.started]
      exact (List.append_nil _).symm
    · rw [hmore, List.map_append, tally_append, ← h.counts]
      exact (tally_singleton _ _).symm
    · rw [hmore, List.filterMap_append, ← h.reported]
      simp only [TestRun.onEvent, idOf]
      cases runner.matched catalog name <;> rfl
    · simp only [lastSummary, List.filterMap_append, List.filterMap_cons, List.filterMap_nil,
        List.append_nil]
      exact h.summary
    · simp only [TestRun.onEvent, resultsOf_append, h.results, hmore]
      rfl
    · simp only [TestRun.onEvent, outputsOf_append, h.outputs]
      rfl
    · simp only [TestRun.onEvent, summariesOf_append, h.summaries]
      rfl
  | testSummary passed failed skipped leaked =>
    have hsame : recordResults runner catalog (records ++ [.testSummary passed failed skipped leaked])
        = recordResults runner catalog records := by simp [recordResults, resultRecords]
    refine ⟨?_, ?_, ?_, ?_, ?_, h.outputs, h.summaries⟩
    · rw [unfinished_append, indexOf]
      simpa [unfinished, TestRun.onEvent] using h.started
    · rw [hsame]; exact h.counts
    · rw [hsame]; exact h.reported
    · simp [lastSummary, TestRun.onEvent]
    · rw [hsame]; exact h.results

theorem Tracks.foldl (h : Tracks runner catalog records state) (news : List RawTestEvent) :
    Tracks runner catalog (records ++ news) (news.foldl (TestRun.onEvent runner catalog) state) := by
  induction news generalizing records state with
  | nil => simpa using h
  | cons record news ih =>
    have hnext := ih (h.onEvent record)
    rwa [List.append_assoc] at hnext

end Tracks

/-! ## The channel -/

def chunksOf (signals : List Signal) : List (List UInt8) :=
  signals.filterMap fun | .probe chunk => some chunk | .stderr _ => none

section Channel

variable (serde : List Char → Except String TestEnvelope)

def readerOf (chunks : List (List UInt8)) : Reader RawTestEvent :=
  Reader.pushAll (testChannel serde) {} chunks

/-- The records that arrive on a channel before the reader refuses one. -/
def recordsOf (signals : List Signal) : List RawTestEvent :=
  (readerOf serde (chunksOf signals)).delivered

/-- The text of a channel, read as UTF-8. -/
def textOf (signals : List Signal) : List Char := (Utf8.run .start (chunksOf signals).flatten).1

/-- A channel of UTF-8 text that stops inside a line or inside a character. -/
def EndsInside (signals : List Signal) : Prop :=
  Utf8.broken .start (chunksOf signals).flatten = false ∧
    ((Lines.split '\n' [] (textOf signals)).2.all isWhitespace = false ∨
      (Utf8.run .start (chunksOf signals).flatten).2 ≠ .start)

/-- A line is no record, too long or one too many, or the last one is already too long. -/
def Refused (signals : List Signal) : Prop :=
  (∃ before line after, (Lines.split '\n' [] (textOf signals)).1 = before ++ line :: after ∧
      Bad (testChannel serde) 10000 (nonEmpty before).length line) ∨
    maxLine < byteLen (Lines.split '\n' [] (textOf signals)).2

variable {serde} {signals : List Signal} {r : Reader RawTestEvent} {text : List Char}

theorem push_of_error {Event : Type} {channel : Channel Event} {r : Reader Event} {error : String}
    (h : r.error = some error) (chunk : List UInt8) : r.push channel chunk = r := by
  simp [Reader.push, h]

theorem readerOf_follows (serde : List Char → Except String TestEnvelope)
    (h : Utf8.broken .start (chunksOf signals).flatten = false) :
    Follows (testChannel serde) 10000 (textOf signals)
      (Utf8.run .start (chunksOf signals).flatten).2 (readerOf serde (chunksOf signals)) := by
  have hnew : Follows (testChannel serde) 10000 [] .start { maxEvents := 10000 } := .inl alive_new
  exact hnew.pushAll h

/-- A reader that is told of the end reports the text it is left with. -/
theorem close_error (h : EndsInside signals) :
    ((readerOf serde (chunksOf signals)).close (testChannel serde)).error.isSome := by
  obtain ⟨hbroken, hinside⟩ := h
  rcases readerOf_follows serde hbroken with halive | ⟨error, herror, -⟩
  · have hblank : ((readerOf serde (chunksOf signals)).buffer ++
        (readerOf serde (chunksOf signals)).decoder.finish.1).all isWhitespace = false := by
      rw [halive.decoder.finish, halive.buffer, List.all_append, Bool.and_eq_false_iff]
      rcases hinside with hrest | hopen
      · exact .inl hrest
      · right
        cases hq : (Utf8.run .start (chunksOf signals).flatten).2 with
        | start => exact absurd hq hopen
        | inside => rfl
    simp [Reader.close, halive.error, hblank, Reader.fail]
  · simp [Reader.close, herror]

theorem verdict_ok_iff (lines : List (List Char)) :
    (∃ log count, verdict (testChannel serde) 10000 0 lines = (log, .ok count)) ↔
      ¬∃ before line after, lines = before ++ line :: after ∧
        Bad (testChannel serde) 10000 (nonEmpty before).length line := by
  obtain ⟨before, after, hfirst, hverdict⟩ := verdict_firstBad (testChannel serde) 10000 0 lines
  cases after with
  | nil =>
    have hall : lines = before := by rw [hfirst.split, List.append_nil]
    refine ⟨fun _ => ?_, fun _ => ⟨_, _, hverdict⟩⟩
    rintro ⟨left, line, right, hlines, hbad⟩
    have hgood := hfirst.good left line right (hall ▸ hlines)
    rw [Nat.zero_add] at hgood
    exact hgood hbad
  | cons line after =>
    have hbad := hfirst.bad line after rfl
    obtain ⟨good, error, hjudge, -⟩ := judge_bad hbad
    simp only [hjudge] at hverdict
    rw [Nat.zero_add] at hbad
    refine ⟨fun ⟨log, count, hok⟩ => ?_, fun hnone => ?_⟩
    · rw [hverdict] at hok
      cases hok
    · exact absurd ⟨before, line, after, hfirst.split, hbad⟩ hnone

theorem split_append_replicate (n : ℕ) :
    Lines.split '\n' [] (text ++ List.replicate n 'a') =
      ((Lines.split '\n' [] text).1, (Lines.split '\n' [] text).2 ++ List.replicate n 'a') := by
  have hnot : '\n' ∉ List.replicate n 'a' := by simp [List.mem_replicate]
  rw [Lines.split_append, Lines.split_of_not_mem _ hnot, List.append_nil]

theorem byteLen_replicate (n : ℕ) : byteLen (List.replicate n 'a') = n := by
  induction n with
  | zero => rfl
  | succ n ih =>
    rw [List.replicate_succ, ← List.singleton_append, byteLen_append, ih]
    exact Nat.add_comm 1 n

/-- Until it is told of the end, a reader has an error exactly if it has refused something: what
follows an unfinished line could still make it too long. -/
theorem readerOf_error (h : Utf8.broken .start (chunksOf signals).flatten = false) :
    (readerOf serde (chunksOf signals)).error.isSome ↔ Refused serde signals := by
  rcases readerOf_follows serde h with halive | ⟨error, herror, houtcome⟩
  · have hok := (verdict_ok_iff _).mp ⟨_, _, halive.log⟩
    have hshort := halive.short
    rw [halive.buffer] at hshort
    rw [halive.error]
    refine ⟨fun herror => (by cases herror), fun hrefused => ?_⟩
    rcases hrefused with hbad | hlong
    · exact absurd hbad hok
    · exact absurd hlong (Nat.not_lt.mpr hshort)
  · rw [herror]
    refine ⟨fun _ => ?_, fun _ => rfl⟩
    by_contra hnone
    rw [Refused, not_or, ← verdict_ok_iff, Nat.not_lt] at hnone
    obtain ⟨⟨log, count, hverdict⟩, hshort⟩ := hnone
    have hnow := houtcome []
    have hlater := houtcome (List.replicate (maxLine + 1) 'a')
    have hlong : maxLine < byteLen ((Lines.split '\n' [] (textOf signals)).2 ++
        List.replicate (maxLine + 1) 'a') := by
      rw [byteLen_append, byteLen_replicate]
      omega
    rw [outcome, split_append_replicate] at hlater
    simp only [hverdict, remainder, if_pos hlong] at hlater
    rw [outcome, List.append_nil] at hnow
    simp only [hverdict, remainder, if_neg (Nat.not_lt.mpr hshort)] at hnow
    obtain ⟨-, hlater⟩ := Prod.mk.inj hlater
    by_cases hblank : (Lines.split '\n' [] (textOf signals)).2.all isWhitespace
    · simp [hblank] at hnow
    · simp only [if_neg hblank, Prod.mk.injEq, Option.some.injEq] at hnow hlater
      rw [← hnow.2] at hlater
      change "Test event exceeds 64 KiB" = "Test channel ended with partial NDJSON" at hlater
      exact absurd hlater (by decide)

end Channel

/-! ## What the process leaves behind -/

section Live

variable {runner : Runner} {serde : List Char → Except String TestEnvelope}
  {catalog : List TestCase} {live : Live} {signals : List Signal}

/-- What a runner has received. -/
structure Live.After (runner : Runner) (serde : List Char → Except String TestEnvelope)
    (catalog : List TestCase) (signals : List Signal) (live : Live) : Prop where
  reader : live.reader = readerOf serde (chunksOf signals)
  readError : live.readError = live.reader.error
  tracks : Tracks runner catalog live.reader.delivered live.state

theorem Live.after_new : Live.After runner serde catalog [] {} where
  reader := rfl
  readError := rfl
  tracks := tracks_new

theorem delivered_push (channel : Channel RawTestEvent) (r : Reader RawTestEvent)
    (chunk : List UInt8) :
    r.delivered ++ (r.push channel chunk).delivered.drop r.delivered.length =
      (r.push channel chunk).delivered := by
  obtain ⟨more, hmore⟩ := push_log channel r chunk
  rw [Reader.delivered, Reader.delivered, ← hmore, deliveries_append, List.drop_left]

theorem Live.After.receive (h : Live.After runner serde catalog signals live) (signal : Signal) :
    Live.After runner serde catalog (signals ++ [signal])
      (live.receive runner serde catalog signal) := by
  cases signal with
  | stderr chunk =>
    refine ⟨?_, h.readError, h.tracks.stderr _⟩
    rw [chunksOf, List.filterMap_append]
    exact h.reader.trans (by simp [chunksOf])
  | probe chunk =>
    refine ⟨?_, ?_, ?_⟩
    · simp only [Live.receive, h.reader, readerOf, chunksOf, List.filterMap_append,
        Reader.pushAll, List.foldl_append]
      rfl
    · simp only [Live.receive, h.readError]
      cases herror : live.reader.error with
      | none => exact Option.none_or
      | some error => rw [push_of_error herror, herror, Option.or_self]
    · have htracks := h.tracks.foldl
        ((live.reader.push (testChannel serde) chunk).delivered.drop live.reader.delivered.length)
      rwa [delivered_push] at htracks

theorem Live.After.receiveAll (h : Live.After runner serde catalog signals live)
    (more : List Signal) :
    Live.After runner serde catalog (signals ++ more)
      (live.receiveAll runner serde catalog more) := by
  induction more generalizing signals live with
  | nil => simpa [Live.receiveAll] using h
  | cons signal more ih =>
    have hnext := ih (h.receive signal)
    rwa [List.append_assoc] at hnext

end Live

/-! ## What is sent in the end -/

section Settle

variable (runner : Runner) (catalog : List TestCase)

def abortedResults (timedOut : Bool) (names : List String) : List Result :=
  names.map fun name => (idOf runner catalog name, if timedOut then .timedOut else .failed)

def remainderResults (tests : List TestCase) : List Result :=
  tests.map fun test => (some test.testId, .timedOut)

/-- The results of a run, in the order they are sent. -/
def dueResults (run : Run) (records : List RawTestEvent) : List Result :=
  recordResults runner catalog records ++
    abortedResults runner catalog run.execution.timedOut
      (run.order.arrange ((unfinished records).map (·.2))) ++
    if run.execution.timedOut then remainderResults (unreported runner catalog records) else []

/-- What `reportAbortedTests` does to the state. -/
structure Aborts (timedOut : Bool) (names : List String) (before after : TestRunState) : Prop where
  reported : after.reported = before.reported ++ names.filterMap (idOf runner catalog)
  results : resultsOf after.sent =
    resultsOf before.sent ++ abortedResults runner catalog timedOut names
  outputs : outputsOf after.sent = outputsOf before.sent
  summaries : summariesOf after.sent = summariesOf before.sent
  counts : after.counts = before.counts
  summary : after.summary = before.summary

variable {runner catalog} {run : Run} {records : List RawTestEvent} {names : List String}
  {before after state : TestRunState} {live : Live}

theorem reportAbortedTests_aborts (runner : Runner) (catalog : List TestCase)
    (wholeStderr : List Char) (timedOut : Bool) (names : List String) (state : TestRunState) :
    (reportAbortedTests wholeStderr timedOut (runner.matched catalog) names state).1 =
        names.length ∧
      Aborts runner catalog timedOut names state
        (reportAbortedTests wholeStderr timedOut (runner.matched catalog) names state).2 := by
  induction names generalizing state with
  | nil =>
    exact ⟨rfl, ⟨(List.append_nil _).symm, (List.append_nil _).symm, rfl, rfl, rfl, rfl⟩⟩
  | cons name names ih =>
    simp only [reportAbortedTests]
    obtain ⟨hcount, h⟩ := ih { state with
      reported := state.reported ++ ((runner.matched catalog name).map (·.testId)).toList
      sent := state.sent ++ [testResult (runner.matched catalog name) name
        (if timedOut then .timedOut else .failed) 0.0
        (abortedMessage state.stderrBuffer wholeStderr)]
      stderrBuffer := [] }
    refine ⟨by rw [hcount, List.length_cons], ⟨?_, ?_, ?_, ?_, h.counts, h.summary⟩⟩
    · rw [h.reported, List.append_assoc]
      simp only [List.filterMap_cons, idOf]
      cases runner.matched catalog name <;> rfl
    · rw [h.results, resultsOf_append, List.append_assoc]
      rfl
    · rw [h.outputs, outputsOf_append]
      exact List.append_nil _
    · rw [h.summaries, summariesOf_append]
      exact List.append_nil _

theorem reportTimedOutRemainder_eq (reportedIds : List String) (catalog : List TestCase) :
    reportTimedOutRemainder reportedIds catalog =
      ((catalog.filter (·.testId ∉ reportedIds)).length,
        (catalog.filter (·.testId ∉ reportedIds)).map fun test =>
          .testResult (some test.testId) test.name .timedOut 0.0 none) := by
  induction catalog with
  | nil => rfl
  | cons test catalog ih =>
    rw [reportTimedOutRemainder, ih]
    by_cases hmem : test.testId ∈ reportedIds <;> simp [hmem]

/-- What the runner takes for reported is what the channel is about. -/
theorem filter_reported (runner : Runner) (catalog : List TestCase)
    (records : List RawTestEvent) (order : HashOrder) :
    catalog.filter (·.testId ∉ (recordResults runner catalog records).filterMap (·.1) ++
        (order.arrange ((unfinished records).map (·.2))).filterMap (idOf runner catalog)) =
      unreported runner catalog records := by
  refine List.filter_congr fun test _ => decide_eq_decide.mpr ?_
  rw [List.mem_append, not_or]
  refine and_congr (not_congr ?_) (not_congr ?_)
  · simp [recordResults]
  · rw [List.mem_filterMap]
    simp only [(order.perm _).mem_iff, List.mem_map]
    constructor
    · rintro ⟨name, ⟨start, hstart, rfl⟩, hid⟩
      exact ⟨start, hstart, hid⟩
    · rintro ⟨start, hstart, hid⟩
      exact ⟨start.2, ⟨start, hstart, rfl⟩, hid⟩

theorem resultsOf_remainder (tests : List TestCase) :
    resultsOf (tests.map fun test => .testResult (some test.testId) test.name .timedOut 0.0 none) =
      remainderResults tests := by
  simp [resultsOf, remainderResults, List.filterMap_map]

theorem outputsOf_remainder (tests : List TestCase) :
    outputsOf (tests.map fun test => .testResult (some test.testId) test.name .timedOut 0.0 none) =
      [] := by
  simp [outputsOf]

theorem summariesOf_remainder (tests : List TestCase) :
    summariesOf (tests.map fun test =>
      .testResult (some test.testId) test.name .timedOut 0.0 none) = [] := by
  simp [summariesOf]

theorem tally_aborted (timedOut : Bool) (names : List String) :
    tally ((abortedResults runner catalog timedOut names).map (·.2)) =
      ⟨0, names.length, 0, 0⟩ := by
  rw [abortedResults, List.map_map]
  simp only [Function.comp_def, List.map_const']
  exact tally_replicate _ (by cases timedOut <;> simp)

theorem tally_remainder (tests : List TestCase) :
    tally ((remainderResults tests).map (·.2)) = ⟨0, tests.length, 0, 0⟩ := by
  rw [remainderResults, List.map_map]
  simp only [Function.comp_def, List.map_const']
  exact tally_replicate _ (.inr rfl)

theorem length_arrange (order : HashOrder) :
    (order.arrange ((unfinished records).map (·.2))).length = (unfinished records).length := by
  rw [(order.perm _).length_eq, List.length_map]

theorem tally_records :
    tally ((recordResults runner catalog records).map (·.2)) =
      tally ((resultRecords records).map (runner.status ·.2)) := by
  rw [recordResults, List.map_map]
  rfl

theorem tally_dueResults :
    tally ((dueResults runner catalog run records).map (·.2)) =
      due runner catalog run.execution.timedOut records := by
  rw [dueResults, List.map_append, List.map_append, tally_append, tally_append, tally_records,
    tally_aborted, length_arrange, due]
  split_ifs
  · rw [tally_remainder]
    simp only [Counts.add_def, Nat.add_zero, Nat.add_assoc]
  · rfl

structure Settled (runner : Runner) (catalog : List TestCase) (run : Run)
    (records : List RawTestEvent) (state : TestRunState) : Prop where
  results : resultsOf state.sent = dueResults runner catalog run records
  counts : state.counts = due runner catalog run.execution.timedOut records
  summary : state.summary = lastSummary runner records
  outputs : outputsOf state.sent = []
  summaries : summariesOf state.sent = []

theorem settle_settled (run : Run) (h : Tracks runner catalog records live.state) :
    Settled runner catalog run records (settle runner catalog run live) := by
  obtain ⟨hcount, haborts⟩ := reportAbortedTests_aborts runner catalog run.execution.stderr
    run.execution.timedOut (run.order.arrange ((unfinished records).map (·.2))) live.state
  have hleft := filter_reported runner catalog records run.order
  rw [settle, h.started]
  generalize reportAbortedTests run.execution.stderr run.execution.timedOut
    (runner.matched catalog) (run.order.arrange ((unfinished records).map (·.2))) live.state =
    aborted at hcount haborts
  rw [length_arrange] at hcount
  rw [← h.reported, ← haborts.reported] at hleft
  dsimp only
  split_ifs with htimedOut
  · rw [reportTimedOutRemainder_eq, hleft]
    refine ⟨?_, ?_, haborts.summary.trans h.summary, ?_, ?_⟩
    · simp only [resultsOf_append, haborts.results, h.results, resultsOf_remainder, dueResults,
        htimedOut, if_true]
    · simp only [hcount, haborts.counts, h.counts, tally_records, due, htimedOut, if_true,
        Counts.add_def, Nat.add_zero, Nat.add_assoc]
    · simp only [outputsOf_append, haborts.outputs, h.outputs, outputsOf_remainder,
        List.append_nil]
    · simp only [summariesOf_append, haborts.summaries, h.summaries, summariesOf_remainder,
        List.append_nil]
  · refine ⟨?_, ?_, haborts.summary.trans h.summary, haborts.outputs.trans h.outputs,
      haborts.summaries.trans h.summaries⟩
    · simp only [haborts.results, h.results, dueResults, htimedOut, Bool.false_eq_true, if_false,
        List.append_nil]
    · simp only [hcount, haborts.counts, h.counts, tally_records, due, htimedOut,
        Bool.false_eq_true, if_false, Counts.add_def, Nat.add_zero]

end Settle

/-! ## The accounts -/

/-- The process was started, and the run was never cancelled. -/
structure Finished (catalog : List TestCase) (run : Run) : Prop where
  tests : catalog ≠ []
  before : run.cancelledBefore = false
  during : run.execution.cancelled = false
  after : run.cancelledAfter = false

section Accounted

variable (runner : Runner) (serde : List Char → Except String TestEnvelope)
  (catalog : List TestCase) (run : Run)

/-- How many result records are about a test. -/
def reports (test : TestCase) : ℕ :=
  (resultRecords (recordsOf serde run.signals)).countP
    (idOf runner catalog ·.1 = some test.testId)

/-- How many unfinished starts are. -/
def starts (test : TestCase) : ℕ :=
  (unfinished (recordsOf serde run.signals)).countP (idOf runner catalog ·.2 = some test.testId)

structure Accounted (events : List RunnerEvent) : Prop where
  totals : summariesOf events = [tally ((resultsOf events).map (·.2))]
  timeouts : run.execution.timedOut → ∀ test ∈ catalog,
    some test.testId ∈ (resultsOf events).map (·.1)
  once : ∀ test ∈ catalog, 2 ≤ (resultsOf events).countP (·.1 = some test.testId) →
    2 ≤ reports runner serde catalog run test
  broken : EndsInside run.signals → ∃ message, channelErrorText message ∈ outputsOf events

/-- What the channel has to be like for that. -/
structure InStep : Prop where
  summary : ∀ counts, lastSummary runner (recordsOf serde run.signals) = some counts →
    counts = due runner catalog run.execution.timedOut (recordsOf serde run.signals)
  once : ∀ test ∈ catalog, 2 ≤ reports runner serde catalog run test ∨
    reports runner serde catalog run test + starts runner serde catalog run test ≤ 1
  distinct : run.execution.timedOut →
    ((unreported runner catalog (recordsOf serde run.signals)).map (·.testId)).Nodup
  channel : EndsInside run.signals → runner.ends ∨ Refused serde run.signals

/-- What a run that comes to its end sends. -/
structure Sends (events : List RunnerEvent) : Prop where
  results : resultsOf events = dueResults runner catalog run (recordsOf serde run.signals)
  summaries : summariesOf events =
    [(lastSummary runner (recordsOf serde run.signals)).getD
      (due runner catalog run.execution.timedOut (recordsOf serde run.signals))]
  outputs : ∃ leavings, (runner.leavings = false → leavings = []) ∧ outputsOf events = leavings ++
    ((Live.receiveAll runner serde catalog {} run.signals).channelError runner serde).toList.map
      channelErrorText

variable {runner serde catalog run} {events : List RunnerEvent}

theorem resultsOf_outputs (live : Live) (state : TestRunState) :
    resultsOf (outputs runner serde run live state) = [] := by
  rw [outputs, resultsOf_append]
  cases live.channelError runner serde <;> split_ifs <;> rfl

theorem summariesOf_outputs (live : Live) (state : TestRunState) :
    summariesOf (outputs runner serde run live state) = [] := by
  rw [outputs, summariesOf_append]
  cases live.channelError runner serde <;> split_ifs <;> rfl

theorem outputsOf_outputs (runner : Runner) (serde : List Char → Except String TestEnvelope)
    (run : Run) (live : Live) (state : TestRunState) :
    ∃ leavings, (runner.leavings = false → leavings = []) ∧
      outputsOf (outputs runner serde run live state) =
        leavings ++ (live.channelError runner serde).toList.map channelErrorText := by
  rw [outputs, outputsOf_append]
  refine ⟨_, fun hleavings => ?_, congrArg _ ?_⟩
  · rw [if_neg (by simp [hleavings])]
    rfl
  · cases live.channelError runner serde <;> rfl

theorem after_signals (runner : Runner) (serde : List Char → Except String TestEnvelope)
    (catalog : List TestCase) (signals : List Signal) :
    Live.After runner serde catalog signals
      (Live.receiveAll runner serde catalog {} signals) :=
  Live.after_new.receiveAll signals

theorem runTests_sends (h : Finished catalog run) :
    Sends runner serde catalog run (runTests runner serde catalog run) := by
  have hafter := after_signals runner serde catalog run.signals
  have htracks := hafter.tracks
  rw [hafter.reader] at htracks
  have hsettled := settle_settled run htracks
  rw [runTests, if_neg (by simp [h.tests, h.before])]
  simp only [h.during, h.after, Bool.false_eq_true, or_self, if_false]
  refine ⟨?_, ?_, ?_⟩
  · rw [resultsOf_append, resultsOf_append, resultsOf_outputs, hsettled.results]
    simp [resultsOf, recordsOf]
  · rw [summariesOf_append, summariesOf_append, summariesOf_outputs, hsettled.summaries,
      hsettled.summary, hsettled.counts]
    rfl
  · obtain ⟨leavings, hleavings, houtputs⟩ := outputsOf_outputs runner serde run
      (Live.receiveAll runner serde catalog {} run.signals)
      (settle runner catalog run (Live.receiveAll runner serde catalog {} run.signals))
    refine ⟨leavings, hleavings, ?_⟩
    rw [outputsOf_append, outputsOf_append, hsettled.outputs, houtputs]
    simp [outputsOf]

theorem totals_iff (h : Sends runner serde catalog run events) :
    summariesOf events = [tally ((resultsOf events).map (·.2))] ↔
      ∀ counts, lastSummary runner (recordsOf serde run.signals) = some counts →
        counts = due runner catalog run.execution.timedOut (recordsOf serde run.signals) := by
  rw [h.summaries, h.results, tally_dueResults, List.cons_eq_cons, and_iff_left rfl]
  cases lastSummary runner (recordsOf serde run.signals) with
  | none => simp
  | some counts => simp

theorem mem_unreported (runner : Runner) (records : List RawTestEvent) {test : TestCase} (htest : test ∈ catalog) :
    test ∈ unreported runner catalog records ∨
      some test.testId ∈ (resultRecords records).map (idOf runner catalog ·.1) ∨
        some test.testId ∈ (unfinished records).map (idOf runner catalog ·.2) := by
  by_cases hresult : some test.testId ∈ (resultRecords records).map (idOf runner catalog ·.1)
  · exact .inr (.inl hresult)
  by_cases hstart : some test.testId ∈ (unfinished records).map (idOf runner catalog ·.2)
  · exact .inr (.inr hstart)
  · exact .inl (List.mem_filter.mpr ⟨htest, decide_eq_true ⟨hresult, hstart⟩⟩)

theorem timeouts_hold (h : Sends runner serde catalog run events)
    (htimedOut : run.execution.timedOut) {test : TestCase} (htest : test ∈ catalog) :
    some test.testId ∈ (resultsOf events).map (·.1) := by
  rw [h.results, dueResults, if_pos htimedOut, List.map_append, List.map_append]
  rcases mem_unreported runner (recordsOf serde run.signals) htest with
    hleft | hresult | hstart
  · refine List.mem_append_right _ (List.mem_map.mpr ⟨(some test.testId, .timedOut), ?_, rfl⟩)
    exact List.mem_map_of_mem hleft
  · refine List.mem_append_left _ (List.mem_append_left _ ?_)
    rwa [recordResults, List.map_map]
  · refine List.mem_append_left _ (List.mem_append_right _ ?_)
    obtain ⟨start, hmem, hid⟩ := List.mem_map.mp hstart
    rw [abortedResults, List.map_map]
    exact List.mem_map.mpr ⟨start.2, (run.order.perm _).mem_iff.mpr (List.mem_map_of_mem hmem), hid⟩

/-- Where the results of a test come from. -/
theorem countP_results (h : Sends runner serde catalog run events) (test : TestCase) :
    (resultsOf events).countP (·.1 = some test.testId) =
      reports runner serde catalog run test + starts runner serde catalog run test +
        if run.execution.timedOut then
          ((unreported runner catalog (recordsOf serde run.signals)).map (·.testId)).count
            test.testId
        else 0 := by
  rw [h.results, dueResults, List.countP_append, List.countP_append]
  congr 1
  · congr 1
    · rw [recordResults, List.countP_map]
      rfl
    · rw [abortedResults, List.countP_map, (run.order.perm _).countP_eq, List.countP_map]
      rfl
  · split_ifs
    · rw [remainderResults, List.countP_map, List.count, List.countP_map]
      exact List.countP_congr fun other _ => by simp
    · rfl

theorem count_unreported {test : TestCase} (h : 0 <
    ((unreported runner catalog (recordsOf serde run.signals)).map (·.testId)).count test.testId) :
    reports runner serde catalog run test = 0 ∧ starts runner serde catalog run test = 0 := by
  obtain ⟨other, hother, hid⟩ := List.mem_map.mp (List.count_pos_iff.mp h)
  obtain ⟨hresult, hstart⟩ := of_decide_eq_true (List.mem_filter.mp hother).2
  rw [hid] at hresult hstart
  refine ⟨List.countP_eq_zero.mpr fun record hrecord hcon => ?_,
    List.countP_eq_zero.mpr fun start hmem hcon => ?_⟩
  · exact hresult (List.mem_map.mpr ⟨record, hrecord, of_decide_eq_true hcon⟩)
  · exact hstart (List.mem_map.mpr ⟨start, hmem, of_decide_eq_true hcon⟩)

theorem once_iff (h : Sends runner serde catalog run events) :
    (∀ test ∈ catalog, 2 ≤ (resultsOf events).countP (·.1 = some test.testId) →
        2 ≤ reports runner serde catalog run test) ↔
      (∀ test ∈ catalog, 2 ≤ reports runner serde catalog run test ∨
        reports runner serde catalog run test + starts runner serde catalog run test ≤ 1) ∧
      (run.execution.timedOut →
        ((unreported runner catalog (recordsOf serde run.signals)).map (·.testId)).Nodup) := by
  simp only [countP_results h]
  constructor
  · intro honce
    refine ⟨fun test htest => ?_, fun htimedOut => ?_⟩
    · have htwo := honce test htest
      omega
    · rw [List.nodup_iff_count]
      intro id
      by_contra hmany
      obtain ⟨test, htest, rfl⟩ := List.mem_map.mp (List.count_pos_iff.mp (by omega :
        0 < ((unreported runner catalog (recordsOf serde run.signals)).map (·.testId)).count id))
      have hzero : reports runner serde catalog run test = 0 ∧
          starts runner serde catalog run test = 0 := count_unreported (by omega)
      have htwo := honce test (List.mem_of_mem_filter htest)
      rw [if_pos htimedOut] at htwo
      omega
  · rintro ⟨honce, hdistinct⟩ test htest htwo
    have hone := honce test htest
    split_ifs at htwo with htimedOut
    · have hcount := List.nodup_iff_count.mp (hdistinct htimedOut) test.testId
      by_cases hzero : 0 <
          ((unreported runner catalog (recordsOf serde run.signals)).map (·.testId)).count
            test.testId
      · have hnone := count_unreported hzero
        omega
      · omega
    · omega

theorem channelError_isSome {live : Live} {signals : List Signal}
    (hlive : live.After runner serde catalog signals) (hinside : EndsInside signals) :
    (live.channelError runner serde).isSome ↔ runner.ends ∨ Refused serde signals := by
  rw [Live.channelError]
  split_ifs with hends
  · rw [hlive.reader]
    exact iff_of_true (close_error hinside) (.inl hends)
  · rw [hlive.readError, hlive.reader, readerOf_error hinside.1, or_iff_right hends]

theorem broken_iff (h : Sends runner serde catalog run events)
    (hleavings : runner.leavings → runner.ends) (hinside : EndsInside run.signals) :
    (∃ message, channelErrorText message ∈ outputsOf events) ↔
      runner.ends ∨ Refused serde run.signals := by
  rw [← channelError_isSome (after_signals runner serde catalog run.signals) hinside]
  obtain ⟨leavings, hnone, houtputs⟩ := h.outputs
  rw [houtputs]
  constructor
  · rintro ⟨message, hmem⟩
    by_cases hleft : runner.leavings
    · rw [channelError_isSome (after_signals runner serde catalog run.signals) hinside]
      exact .inl (hleavings hleft)
    · rw [hnone (by simpa using hleft), List.nil_append] at hmem
      obtain ⟨error, herror, -⟩ := List.mem_map.mp hmem
      rw [Option.mem_toList.mp herror]
      rfl
  · intro hsome
    obtain ⟨error, herror⟩ := Option.isSome_iff_exists.mp hsome
    exact ⟨error, List.mem_append_right _ (List.mem_map_of_mem (by simp [herror]))⟩

theorem Sends.accounted_iff (h : Sends runner serde catalog run events)
    (hleavings : runner.leavings → runner.ends) :
    Accounted runner serde catalog run events ↔ InStep runner serde catalog run := by
  constructor
  · intro haccounted
    obtain ⟨honce, hdistinct⟩ := (once_iff h).mp haccounted.once
    exact ⟨(totals_iff h).mp haccounted.totals, honce, hdistinct,
      fun hinside => (broken_iff h hleavings hinside).mp (haccounted.broken hinside)⟩
  · intro hstep
    exact ⟨(totals_iff h).mpr hstep.summary, fun htimedOut test htest =>
      timeouts_hold h htimedOut htest, (once_iff h).mpr ⟨hstep.once, hstep.distinct⟩,
      fun hinside => (broken_iff h hleavings hinside).mpr (hstep.channel hinside)⟩

end Accounted

/-- The accounts of a run are right exactly if the channel is in step with them. -/
theorem accounted_iff_inStep (language : Language)
    (serde : List Char → Except String TestEnvelope) {catalog : List TestCase} {run : Run}
    (h : Finished catalog run) :
    Accounted language.runner serde catalog run (runTests language.runner serde catalog run) ↔
      InStep language.runner serde catalog run := by
  refine (runTests_sends h).accounted_iff ?_
  cases language <;> decide

/-! ## A summary that comes too early -/

/-- What the Python runner writes when it has found no test. -/
def noTests : List Char :=
  "\x7b\"protocolVersion\": 1, \"kind\": \"test_summary\", ".toList ++
    "\"passed\": 0, \"failed\": 0, \"skipped\": 0, \"leaked\": 0\x7d".toList

def parseNoTests (line : List Char) : Except String TestEnvelope :=
  if line = noTests then .ok ⟨1, .testSummary 0 0 0 0⟩ else .error "expected value"

/-- A method that the catalog lists and the runner does not run: its class is no `TestCase`. -/
def methodTest : TestCase :=
  { testId := "a_test.py:2", path := "src/a_test.py", name := "A.test_a", line := 2, column := 1 }

/-- The summary is written, and then the process does not end. -/
def hangs : Run where
  cancelledBefore := false
  signals := [.probe (Utf8.encode (noTests ++ ['\n']))]
  execution := ⟨none, true, false, [], 3000.0⟩
  cancelledAfter := false
  order := ⟨id, fun _ => .rfl⟩

theorem accounted_iff_inStep_hangs :
    Accounted Language.py.runner parseNoTests [methodTest] hangs
        (runTests Language.py.runner parseNoTests [methodTest] hangs) ↔
      InStep Language.py.runner parseNoTests [methodTest] hangs :=
  accounted_iff_inStep .py parseNoTests ⟨by decide, rfl, rfl, rfl⟩

/-- The test is sent as timed out, and the summary counts no test. -/
theorem hangs_not_accounted :
    ¬Accounted Language.py.runner parseNoTests [methodTest] hangs
      (runTests Language.py.runner parseNoTests [methodTest] hangs) := by
  intro h
  have htotals := h.totals
  revert htotals
  decide +kernel

end Atomis.TestRun
