import Atomis.RuntimeJson
import Atomis.TestAccounting

/-!
# The test runner of a Zig session

It writes a record before and after each test and a summary at the end, unless the process ends
inside a test. What the server sends of the channel is what became of the tests, however the
bytes are cut and whatever goes to stderr between them.
-/

namespace Atomis.ZigTestRunner
open Json Utf8 Ndjson RuntimeJson TestRun

/-! ## The runner -/

/-- A test function that has returned: an error has a name. -/
structure Ran where
  result : Except (List Char) Unit
  leak : Bool
  durationNs : UInt64

/-- The process ends inside a test that has not run to its end. -/
structure Test where
  name : List Char
  ran : Option Ran

/-- The status of a record, and its error. -/
def Ran.verdict (ran : Ran) : RawTestStatus × Option (List Char) :=
  match ran.result with
  | .ok () => if ran.leak then (.leaked, some "MemoryLeak".toList) else (.passed, none)
  | .error name =>
    if name = "SkipZigTest".toList then (.skipped, none) else (.failed, some name)

/-- `@tagName` -/
def tagName : RawTestStatus → String
  | .passed => "passed"
  | .failed => "failed"
  | .skipped => "skipped"
  | .leaked => "leaked"

/-- A record that its buffer does not hold is not written. -/
def buffered (size : ℕ) (record : List UInt8) : List UInt8 :=
  if size < record.length then [] else record

def emitStart (index : ℕ) (name : List Char) : List UInt8 :=
  buffered 8192 (print "\x7b\"protocolVersion\":1,\"kind\":\"test_start\",\"index\":" ++
    printNumber index ++ print ",\"name\":" ++ appendJsonString (encode name) ++
    print "\x7d\n")

def emitResult (index : ℕ) (name : List Char) (verdict : RawTestStatus × Option (List Char))
    (durationNs : UInt64) : List UInt8 :=
  buffered 8192 (print "\x7b\"protocolVersion\":1,\"kind\":\"test_result\",\"index\":" ++
    printNumber index ++ print ",\"status\":\"" ++ print (tagName verdict.1) ++
    print "\",\"durationNs\":" ++ printNumber durationNs.toNat ++ print ",\"name\":" ++
    appendJsonString (encode name) ++
    (match verdict.2 with
      | some detail => print ",\"error\":" ++ appendJsonString (encode detail)
      | none => []) ++
    print "\x7d\n")

def emitSummary (counts : Counts) : List UInt8 :=
  buffered 256 (print "\x7b\"protocolVersion\":1,\"kind\":\"test_summary\",\"passed\":" ++
    printNumber counts.passed ++ print ",\"failed\":" ++ printNumber counts.failed ++
    print ",\"skipped\":" ++ printNumber counts.skipped ++ print ",\"leaked\":" ++
    printNumber counts.leaked ++ print "\x7d\n")

/-- The branch that is taken counts the test. -/
def count (counts : Counts) : RawTestStatus → Counts
  | .passed => { counts with passed := counts.passed + 1 }
  | .failed => { counts with failed := counts.failed + 1 }
  | .skipped => { counts with skipped := counts.skipped + 1 }
  | .leaked => { counts with leaked := counts.leaked + 1 }

/-- The loop of `main` and what follows it. -/
def main (index : ℕ) (counts : Counts) : List Test → List UInt8
  | [] => emitSummary counts
  | test :: tests =>
    emitStart index test.name ++
      match test.ran with
      | none => []
      | some ran =>
        emitResult index test.name ran.verdict ran.durationNs ++
          main (index + 1) (count counts ran.verdict.1) tests

/-! ## Its records -/

inductive Record
  | start (index : ℕ) (name : List Char)
  | result (index : ℕ) (name : List Char) (verdict : RawTestStatus × Option (List Char))
      (durationNs : UInt64)
  | summary (counts : Counts)

def records (index : ℕ) (counts : Counts) : List Test → List Record
  | [] => [.summary counts]
  | test :: tests =>
    .start index test.name ::
      match test.ran with
      | none => []
      | some ran =>
        .result index test.name ran.verdict ran.durationNs ::
          records (index + 1) (count counts ran.verdict.1) tests

namespace Record

def fields : Record → List Field
  | .start index name =>
    [numberField "protocolVersion" 1, textField "kind" "test_start".toList,
      numberField "index" index, textField "name" name]
  | .result index name verdict durationNs =>
    [numberField "protocolVersion" 1, textField "kind" "test_result".toList,
      numberField "index" index, textField "status" (tagName verdict.1).toList,
      numberField "durationNs" durationNs.toNat, textField "name" name] ++
    (verdict.2.map (textField "error")).toList
  | .summary counts =>
    [numberField "protocolVersion" 1, textField "kind" "test_summary".toList,
      numberField "passed" counts.passed, numberField "failed" counts.failed,
      numberField "skipped" counts.skipped, numberField "leaked" counts.leaked]

def line (r : Record) : List Char := '\x7b' :: (Field.joined r.fields ++ ['\x7d'])

def event : Record → RawTestEvent
  | .start index name => .testStart index (String.ofList name)
  | .result index name verdict durationNs =>
    .testResult index (String.ofList name) verdict.1 (Float.ofNat durationNs.toNat)
      (verdict.2.map String.ofList)
  | .summary counts => .testSummary counts.passed counts.failed counts.skipped counts.leaked

theorem right_fields (r : Record) : ∀ f ∈ r.fields, f.Right := by
  cases r with
  | start index name =>
    simp only [fields, List.forall_mem_cons]
    exact ⟨right_numberField (by simp [plain]) _, right_textField (by simp [plain]) _,
      right_numberField (by simp [plain]) _, right_textField (by simp [plain]) _,
      List.forall_mem_nil _⟩
  | result index name verdict durationNs =>
    simp only [fields, List.forall_mem_append, List.forall_mem_cons]
    refine ⟨⟨right_numberField (by simp [plain]) _, right_textField (by simp [plain]) _,
      right_numberField (by simp [plain]) _, right_textField (by simp [plain]) _,
      right_numberField (by simp [plain]) _, right_textField (by simp [plain]) _,
      List.forall_mem_nil _⟩, ?_⟩
    cases verdict.2 with
    | none => exact List.forall_mem_nil _
    | some detail =>
      exact List.forall_mem_singleton.mpr (right_textField (by simp [plain]) _)
  | summary counts =>
    simp only [fields, List.forall_mem_cons]
    exact ⟨right_numberField (by simp [plain]) _, right_textField (by simp [plain]) _,
      right_numberField (by simp [plain]) _, right_numberField (by simp [plain]) _,
      right_numberField (by simp [plain]) _, right_numberField (by simp [plain]) _,
      List.forall_mem_nil _⟩

theorem text_line (r : Record) : Text (Field.object r.fields) r.line := by
  have hright := r.right_fields
  rw [line]
  cases r <;> exact Field.text_object hright

theorem rawTestStatus_tagName (status : RawTestStatus) :
    rawTestStatus (.string (tagName status).toList) = some status := by
  cases status <;> simp [rawTestStatus, tagName]

/-- The numbers are no larger than those of the server. -/
def Small : Record → Prop
  | .start index _ => index < 2 ^ 32
  | .result index .. => index < 2 ^ 32
  | .summary counts => counts.passed < 2 ^ 32 ∧ counts.failed < 2 ^ 32 ∧
      counts.skipped < 2 ^ 32 ∧ counts.leaked < 2 ^ 32

theorem testEnvelope_fields {r : Record} (h : r.Small) :
    testEnvelope (Field.object r.fields) = some { protocolVersion := 1, event := r.event } := by
  cases r with
  | start index name =>
    have hindex : index < 4294967296 := h
    simp [testEnvelope, rawTestEvent, Field.object, Field.member, fields, numberField, textField,
      required, unique, unsigned, text, event, hindex]
  | result index name verdict durationNs =>
    have hindex : index < 4294967296 := h
    have hduration : durationNs.toNat < 18446744073709551616 := durationNs.toNat_lt
    obtain ⟨status, detail⟩ := verdict
    cases detail <;>
      simp [testEnvelope, rawTestEvent, Field.object, Field.member, fields, numberField, textField,
        required, defaulted, unique, unsigned, text, float, rawTestStatus_tagName, event, hindex,
        hduration]
  | summary counts =>
    obtain ⟨hpassed, hfailed, hskipped, hleaked⟩ := h
    norm_num at hpassed hfailed hskipped hleaked
    simp [testEnvelope, rawTestEvent, Field.object, Field.member, fields, numberField, textField,
      required, unique, unsigned, text, event, hpassed, hfailed, hskipped, hleaked]

end Record

/-! ## What is written -/

def errorName (ran : Ran) : List Char :=
  match ran.result with
  | .ok () => []
  | .error name => name

/-- The names of a test fit into the buffer of a record. -/
def Test.Fits (test : Test) : Prop :=
  byteLen test.name + ((test.ran.map fun ran => byteLen (errorName ran)).getD 0) ≤ 1300

theorem buffered_encode {size : ℕ} {record : List Char} (h : byteLen record ≤ size) :
    buffered size (encode record) = encode record := if_neg (Nat.not_lt.mpr h)

theorem length_buffered (size : ℕ) (record : List UInt8) :
    (buffered size record).length ≤ size := by
  rw [buffered]
  split_ifs with hlong
  · exact Nat.zero_le _
  · exact Nat.le_of_not_lt hlong

theorem byteLen_verdict (ran : Ran) :
    ∀ detail ∈ ran.verdict.2, byteLen detail ≤ byteLen (errorName ran) + 10 := by
  intro detail hdetail
  have hleak : byteLen "MemoryLeak".toList = 10 := by decide
  obtain ⟨result | ⟨⟩, leak, durationNs⟩ := ran
  · simp only [Ran.verdict] at hdetail
    split_ifs at hdetail
    · cases hdetail
    · cases hdetail
      exact Nat.le_add_right _ _
  · cases leak
    · cases hdetail
    · cases hdetail
      exact Nat.le_of_eq hleak

set_option maxRecDepth 4000 in
theorem emitStart_eq {index : ℕ} (hindex : index < 2 ^ 32) {name : List Char}
    (hname : byteLen name ≤ 1300) :
    emitStart index name = encode ((Record.start index name).line ++ ['\n']) := by
  have hdigits := byteLen_decimal (n := index) (k := 10) (by decide)
    (Nat.lt_trans hindex (by decide))
  have hquoted := byteLen_quoted name
  have hliterals :
      byteLen "\x7b\"protocolVersion\":1,\"kind\":\"test_start\",\"index\":".toList +
        byteLen ",\"name\":".toList + byteLen "\x7d\n".toList ≤ 100 := by
    decide
  unfold emitStart
  simp only [print, printNumber, appendJsonString_quoted, ← encode_append]
  rw [buffered_encode]
  · apply congrArg encode
    have hkind : quoted ['t', 'e', 's', 't', '_', 's', 't', 'a', 'r', 't'] =
        ['"', 't', 'e', 's', 't', '_', 's', 't', 'a', 'r', 't', '"'] := by
      simp [quoted, pushJsonEscaped, escapeChar]
    have hone : decimal 1 = ['1'] := rfl
    simp [Record.line, Record.fields, Field.joined, Field.written, numberField, textField, hkind,
      hone]
  · simp only [byteLen_append]
    omega

theorem plain_tagName (status : RawTestStatus) :
    quoted (tagName status).toList = '"' :: ((tagName status).toList ++ ['"']) := by
  cases status <;> simp [quoted, tagName, pushJsonEscaped, escapeChar]

set_option maxRecDepth 4000 in
theorem emitResult_eq {index : ℕ} (hindex : index < 2 ^ 32) {name : List Char} (ran : Ran)
    (hfits : byteLen name + byteLen (errorName ran) ≤ 1300) :
    emitResult index name ran.verdict ran.durationNs =
      encode ((Record.result index name ran.verdict ran.durationNs).line ++ ['\n']) := by
  have hdigits := byteLen_decimal (n := index) (k := 10) (by decide)
    (Nat.lt_trans hindex (by decide))
  have hduration := byteLen_decimal (n := ran.durationNs.toNat) (k := 20) (by decide)
    (Nat.lt_trans ran.durationNs.toNat_lt (by decide))
  have hquoted := byteLen_quoted name
  have hdetail := byteLen_verdict ran
  generalize ran.durationNs = durationNs at hduration ⊢
  generalize ran.verdict = verdict at hdetail ⊢
  obtain ⟨status, detail⟩ := verdict
  have hstatus : byteLen (tagName status).toList ≤ 7 := by cases status <;> decide
  have hliterals :
      byteLen "\x7b\"protocolVersion\":1,\"kind\":\"test_result\",\"index\":".toList +
        byteLen ",\"status\":\"".toList + byteLen "\",\"durationNs\":".toList +
        byteLen ",\"name\":".toList + byteLen ",\"error\":".toList +
        byteLen "\x7d\n".toList ≤ 120 := by
    decide
  have hkind : quoted ['t', 'e', 's', 't', '_', 'r', 'e', 's', 'u', 'l', 't'] =
      ['"', 't', 'e', 's', 't', '_', 'r', 'e', 's', 'u', 'l', 't', '"'] := by
    simp [quoted, pushJsonEscaped, escapeChar]
  have hone : decimal 1 = ['1'] := rfl
  unfold emitResult
  cases detail with
  | none =>
    simp only [print, printNumber, appendJsonString_quoted, List.append_nil, ← encode_append]
    rw [buffered_encode]
    · apply congrArg encode
      simp [Record.line, Record.fields, Field.joined, Field.written, numberField, textField, hkind,
        hone, plain_tagName]
    · simp only [byteLen_append]
      omega
  | some detail =>
    have hdetail := hdetail detail rfl
    have herror := byteLen_quoted detail
    simp only [print, printNumber, appendJsonString_quoted, ← encode_append]
    rw [buffered_encode]
    · apply congrArg encode
      simp [Record.line, Record.fields, Field.joined, Field.written, numberField, textField, hkind,
        hone, plain_tagName]
    · simp only [byteLen_append]
      omega

set_option maxRecDepth 4000 in
theorem emitSummary_eq {counts : Counts} (h : (Record.summary counts).Small) :
    emitSummary counts = encode ((Record.summary counts).line ++ ['\n']) := by
  obtain ⟨hpassed, hfailed, hskipped, hleaked⟩ := h
  have hdigits : ∀ {n : ℕ}, n < 2 ^ 32 → byteLen (decimal n) ≤ 10 := fun hn =>
    byteLen_decimal (by decide) (Nat.lt_trans hn (by decide))
  have hpassed := hdigits hpassed
  have hfailed := hdigits hfailed
  have hskipped := hdigits hskipped
  have hleaked := hdigits hleaked
  have hliterals :
      byteLen "\x7b\"protocolVersion\":1,\"kind\":\"test_summary\",\"passed\":".toList +
        byteLen ",\"failed\":".toList + byteLen ",\"skipped\":".toList +
        byteLen ",\"leaked\":".toList + byteLen "\x7d\n".toList ≤ 120 := by
    decide
  have hkind : quoted ['t', 'e', 's', 't', '_', 's', 'u', 'm', 'm', 'a', 'r', 'y'] =
      ['"', 't', 'e', 's', 't', '_', 's', 'u', 'm', 'm', 'a', 'r', 'y', '"'] := by
    simp [quoted, pushJsonEscaped, escapeChar]
  have hone : decimal 1 = ['1'] := rfl
  unfold emitSummary
  simp only [print, printNumber, ← encode_append]
  rw [buffered_encode]
  · apply congrArg encode
    simp [Record.line, Record.fields, Field.joined, Field.written, numberField, textField, hkind,
      hone]
  · simp only [byteLen_append]
    omega

/-- A record that the reader takes. -/
structure Record.Goes (r : Record) : Prop where
  small : r.Small
  short : byteLen r.line ≤ maxLine

theorem goes_of_encode {r : Record} (hsmall : r.Small) {size : ℕ} {record : List UInt8}
    (hsize : size ≤ maxLine) (h : buffered size record = encode (r.line ++ ['\n'])) : r.Goes := by
  have hlength := length_buffered size record
  rw [h, encode_append, List.length_append] at hlength
  exact ⟨hsmall, Nat.le_trans (Nat.le_add_right _ _) (Nat.le_trans hlength hsize)⟩

def total (counts : Counts) : ℕ := counts.passed + counts.failed + counts.skipped + counts.leaked

theorem total_count (counts : Counts) (status : RawTestStatus) :
    total (count counts status) = total counts + 1 := by
  cases status <;> simp only [total, count] <;> omega

theorem ended_cons (line : List Char) (lines : List (List Char)) :
    ended (line :: lines) = line ++ ['\n'] ++ ended lines := rfl

theorem main_eq {tests : List Test} (hfits : ∀ test ∈ tests, test.Fits) {index : ℕ}
    {counts : Counts} (hindex : index + tests.length < 2 ^ 32) (hcounts : total counts ≤ index) :
    main index counts tests = encode (ended ((records index counts tests).map Record.line)) ∧
      ∀ r ∈ records index counts tests, r.Goes := by
  induction tests generalizing index counts with
  | nil =>
    have hsmall : (Record.summary counts).Small := by
      rw [total] at hcounts
      rw [List.length_nil] at hindex
      refine ⟨?_, ?_, ?_, ?_⟩ <;> omega
    have hsummary := emitSummary_eq hsmall
    refine ⟨?_, fun r hr => ?_⟩
    · rw [main, hsummary]
      simp [records, ended]
    · rw [List.mem_singleton.mp hr]
      exact goes_of_encode hsmall (by decide) hsummary
  | cons test tests ih =>
    obtain ⟨htest, htests⟩ := List.forall_mem_cons.mp hfits
    rw [List.length_cons] at hindex
    have hsmall : index < 2 ^ 32 := by omega
    have hname : byteLen test.name ≤ 1300 := Nat.le_of_add_right_le htest
    have hstart := emitStart_eq hsmall hname
    have hgoes : (Record.start index test.name).Goes := goes_of_encode hsmall (by decide) hstart
    rcases hran : test.ran with _ | ran
    · simp only [main, records, hran, hstart]
      refine ⟨by simp [ended], fun r hr => ?_⟩
      rw [List.mem_singleton.mp hr]
      exact hgoes
    · have hnames : byteLen test.name + byteLen (errorName ran) ≤ 1300 := by
        rw [Test.Fits, hran] at htest
        exact htest
      have hresult := emitResult_eq hsmall ran hnames
      have hrest : index + 1 + tests.length < 2 ^ 32 := by omega
      have htotal : total (count counts ran.verdict.1) ≤ index + 1 := by
        rw [total_count]
        omega
      obtain ⟨hmain, hmore⟩ := ih htests hrest htotal
      simp only [main, records, hran, hstart, hresult, hmain, List.map_cons, ended_cons,
        encode_append, List.append_assoc, List.forall_mem_cons]
      exact ⟨trivial, hgoes, goes_of_encode hsmall (by decide) hresult, hmore⟩

/-! ## What became of the tests -/

/-- The tests that came to their end. -/
def finished : List Test → List (List Char × RawTestStatus)
  | [] => []
  | test :: tests =>
    match test.ran with
    | none => []
    | some ran => (test.name, ran.verdict.1) :: finished tests

/-- The test that the process ends in. -/
def inside : List Test → Option (List Char)
  | [] => none
  | test :: tests => if test.ran = none then some test.name else inside tests

def events (index : ℕ) (counts : Counts) (tests : List Test) : List RawTestEvent :=
  (records index counts tests).map Record.event

theorem events_nil (index : ℕ) (counts : Counts) : events index counts [] =
    [.testSummary counts.passed counts.failed counts.skipped counts.leaked] := rfl

theorem events_none {index : ℕ} {counts : Counts} {test : Test} {tests : List Test}
    (h : test.ran = none) :
    events index counts (test :: tests) = [.testStart index (String.ofList test.name)] := by
  simp [events, records, h, Record.event]

theorem events_some {index : ℕ} {counts : Counts} {test : Test} {tests : List Test} {ran : Ran}
    (h : test.ran = some ran) :
    events index counts (test :: tests) = .testStart index (String.ofList test.name) ::
      .testResult index (String.ofList test.name) ran.verdict.1
        (Float.ofNat ran.durationNs.toNat) (ran.verdict.2.map String.ofList) ::
      events (index + 1) (count counts ran.verdict.1) tests := by
  simp [events, records, h, Record.event]

theorem resultRecords_events (index : ℕ) (counts : Counts) (tests : List Test) :
    resultRecords (events index counts tests) =
      (finished tests).map fun t => (String.ofList t.1, t.2) := by
  induction tests generalizing index counts with
  | nil => rfl
  | cons test tests ih =>
    rcases hran : test.ran with _ | ran
    · rw [events_none hran]
      simp [finished, hran, resultRecords]
    · have hrest := ih (index + 1) (count counts ran.verdict.1)
      rw [events_some hran]
      simp only [finished, hran, resultRecords, List.filterMap_cons, List.map_cons] at hrest ⊢
      rw [hrest]

theorem unfinished_events (index : ℕ) (counts : Counts) (tests : List Test) :
    (unfinished (events index counts tests)).map (·.2) =
      ((inside tests).map String.ofList).toList := by
  induction tests generalizing index counts with
  | nil => rfl
  | cons test tests ih =>
    rcases hran : test.ran with _ | ran
    · rw [events_none hran]
      simp [inside, hran, unfinished]
    · have hrest := ih (index + 1) (count counts ran.verdict.1)
      rw [events_some hran]
      simpa [inside, hran, unfinished, indexOf] using hrest

/-- The summary of a process that came to its end counts every test. -/
theorem lastSummary_events (index : ℕ) (counts : Counts) (tests : List Test) :
    lastSummary zig (events index counts tests) =
      if inside tests = none then
        some (counts + tally ((finished tests).map fun t => zig.status t.2))
      else none := by
  induction tests generalizing index counts with
  | nil => simp [events_nil, lastSummary, inside, finished, zig, tally, Counts.add_def]
  | cons test tests ih =>
    rcases hran : test.ran with _ | ran
    · rw [events_none hran]
      simp [inside, hran, lastSummary]
    · have hrest := ih (index + 1) (count counts ran.verdict.1)
      have hcount : count counts ran.verdict.1 = counts + tally [zig.status ran.verdict.1] := by
        rw [tally_singleton]
        cases ran.verdict.1 <;> rfl
      have hcons : tally ((finished (test :: tests)).map fun t => zig.status t.2) =
          tally [zig.status ran.verdict.1] +
            tally ((finished tests).map fun t => zig.status t.2) := by
        rw [← tally_append]
        simp [finished, hran]
      have hinside : inside (test :: tests) = inside tests := by simp [inside, hran]
      rw [hinside, hcons]
      rw [hcount] at hrest
      rw [events_some hran, hcount]
      simp only [lastSummary, List.filterMap_cons] at hrest ⊢
      rw [hrest]
      simp only [Counts.add_def, Nat.add_assoc]

/-! ## What the server makes of it -/

/-- What is sent for a run of these tests. -/
structure Reported (catalog : List TestCase) (tests : List Test) (run : Run)
    (sent : List RunnerEvent) : Prop where
  results : ∃ late, resultsOf sent =
      (finished tests).map (fun t => (idOf zig catalog (String.ofList t.1), zig.status t.2)) ++
      (inside tests).toList.map (fun name => (idOf zig catalog (String.ofList name),
        if run.execution.timedOut then .timedOut else .failed)) ++ late ∧
    (run.execution.timedOut = false → late = []) ∧
    ∀ result ∈ late, ∃ test ∈ catalog, result = (some test.testId, .timedOut)
  timeouts : run.execution.timedOut → ∀ test ∈ catalog,
    some test.testId ∈ (resultsOf sent).map (·.1)
  totals : summariesOf sent = [tally ((resultsOf sent).map (·.2))]
  silent : outputsOf sent = []

theorem isEvent_record {serde : List Char → Except String TestEnvelope}
    (hserde : ReadsJson testEnvelope serde) {r : Record} (h : r.Goes) :
    IsEvent (testChannel serde) r.event r.line := by
  have htext := r.text_line
  refine ⟨List.cons_ne_nil _ _, h.short, fun hmem => ?_, ?_⟩
  · exact absurd (printable_text htext _ hmem) (by decide)
  · simp [testChannel, hserde _ _ _ htext (Record.testEnvelope_fields h.small)]

theorem delivered_close {Event : Type} (channel : Channel Event) (r : Reader Event) :
    (r.close channel).delivered = r.delivered := by
  simp only [Reader.close]
  split_ifs
  · simp [Reader.delivered, Reader.fail, deliveries]
  · rfl

theorem length_events (index : ℕ) (counts : Counts) (tests : List Test) :
    (records index counts tests).length ≤ 2 * tests.length + 1 := by
  induction tests generalizing index counts with
  | nil => exact Nat.le_refl _
  | cons test tests ih =>
    rw [records]
    cases test.ran with
    | none => simp
    | some ran =>
      have hrest := ih (index + 1) (count counts ran.verdict.1)
      simp only [List.length_cons]
      omega

/-- The reader has every record, and no error. -/
theorem recordsOf_main {serde : List Char → Except String TestEnvelope}
    (hserde : ReadsJson testEnvelope serde) {tests : List Test}
    (hfits : ∀ test ∈ tests, test.Fits) (hfew : 2 * tests.length < 10000)
    {signals : List Signal} (hchannel : (chunksOf signals).flatten = main 0 {} tests) :
    recordsOf serde signals = events 0 {} tests ∧
      (readerOf serde (chunksOf signals)).error = none := by
  obtain ⟨hmain, hgoes⟩ := main_eq hfits (show 0 + tests.length < 2 ^ 32 by omega)
    (show total {} ≤ 0 from Nat.le_refl _)
  rw [hmain] at hchannel
  have hevents := fun r hr => isEvent_record hserde (hgoes r hr)
  obtain ⟨hdelivered, herror⟩ := read_isEvent hevents 10000 hchannel
  have hlength : (records 0 {} tests).length ≤ 10000 := by
    have hrecords := length_events 0 {} tests
    omega
  rw [List.take_of_length_le hlength, Reader.read, delivered_close] at hdelivered
  rw [if_pos hlength, Reader.read] at herror
  refine ⟨hdelivered, ?_⟩
  simp only [Reader.close] at herror
  split_ifs at herror
  · exact (Option.some_ne_none _ herror).elim
  · exact herror

theorem arrange_inside (order : HashOrder) (tests : List Test) :
    order.arrange ((inside tests).map String.ofList).toList =
      ((inside tests).map String.ofList).toList := by
  cases inside tests with
  | none => exact List.perm_nil.mp (order.perm _)
  | some name => exact List.perm_singleton.mp (order.perm _)

theorem reported {serde : List Char → Except String TestEnvelope}
    (hserde : ReadsJson testEnvelope serde) {catalog : List TestCase} {tests : List Test}
    {run : Run} (hrun : Finished catalog run) (hfits : ∀ test ∈ tests, test.Fits)
    (hfew : 2 * tests.length < 10000)
    (hchannel : (chunksOf run.signals).flatten = main 0 {} tests)
    (hhangs : run.execution.timedOut → inside tests ≠ none) :
    Reported catalog tests run (runTests zig serde catalog run) := by
  have hsends : Sends zig serde catalog run (runTests zig serde catalog run) :=
    runTests_sends hrun
  obtain ⟨hrecords, herror⟩ := recordsOf_main hserde hfits hfew hchannel
  have hresults := hsends.results
  rw [dueResults, hrecords, recordResults, resultRecords_events, unfinished_events,
    arrange_inside, abortedResults, List.map_map, ← Option.toList_map, Option.map_map,
    Option.toList_map] at hresults
  refine ⟨⟨_, hresults, fun hrest => ?_, fun result hresult => ?_⟩,
    fun htimedOut test htest => timeouts_hold hsends htimedOut htest, ?_, ?_⟩
  · simp [hrest]
  · split_ifs at hresult
    · obtain ⟨test, htest, rfl⟩ := List.mem_map.mp hresult
      exact ⟨test, List.mem_of_mem_filter htest, rfl⟩
    · cases hresult
  · rw [totals_iff hsends, hrecords, lastSummary_events]
    intro counts hcounts
    split_ifs at hcounts with hinside
    have htimedOut : ¬run.execution.timedOut := fun htimedOut => hhangs htimedOut hinside
    have hunfinished := unfinished_events 0 {} tests
    rw [hinside] at hunfinished
    rw [due, resultRecords_events, List.map_eq_nil_iff.mp hunfinished, if_neg htimedOut,
      List.map_map, ← Option.some.inj hcounts]
    simp [Counts.add_def, Function.comp_def]
  · obtain ⟨leavings, hleavings, houtputs⟩ := hsends.outputs
    have hafter := after_signals zig serde catalog run.signals
    have hquiet : (Live.receiveAll zig serde catalog {} run.signals).channelError zig serde =
        none := by
      rw [Live.channelError, if_neg (by decide), hafter.readError, hafter.reader, herror]
    rw [houtputs, hleavings rfl, hquiet]
    rfl

/-- A test that passes, one that fails and one that the process ends in. -/
def quickTests : List Test :=
  [⟨"main.test.sum".toList, some ⟨.ok (), false, 1500⟩⟩,
    ⟨"main.test.\"é\"".toList, some ⟨.error "TestExpectedEqual".toList, true, 20⟩⟩,
    ⟨"main.test.crash".toList, none⟩]

/-- The channel in two pieces, with a message on stderr between them. -/
def quickRun : Run where
  cancelledBefore := false
  signals := [.probe ((main 0 {} quickTests).take 100), .stderr "expected 1".toList,
    .probe ((main 0 {} quickTests).drop 100)]
  execution := ⟨some 134, false, false, "thread panic".toList, 3.0⟩
  cancelledAfter := false
  order := ⟨id, fun names => List.Perm.refl names⟩

def quickCatalog : List TestCase := [⟨"t1", "main.zig", "sum", 1, 1⟩]

theorem finished_quickRun : Finished quickCatalog quickRun := ⟨List.cons_ne_nil _ _, rfl, rfl, rfl⟩

theorem fits_quickTests : ∀ test ∈ quickTests, test.Fits := by
  simp only [quickTests, List.forall_mem_cons, Test.Fits]
  exact ⟨by decide, by decide, by decide, List.forall_mem_nil _⟩

theorem channel_quickRun : (chunksOf quickRun.signals).flatten = main 0 {} quickTests := by
  simp [quickRun, chunksOf]

end Atomis.ZigTestRunner
