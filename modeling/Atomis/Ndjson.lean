import Atomis.Lib.Lines
import Atomis.Utf8Carry
import Mathlib.Data.List.DropRight
import Mathlib.Data.List.Induction

/-!
# The probe and test channels

Both readers cut the text that arrives into lines, parse each non-empty one and stop at the
first that is too long, too many or no event of the channel. They differ in what they parse
and in their messages, which a `Channel` holds. `log` is history: what has been parsed,
delivered and refused, in order.
-/

namespace Atomis.Ndjson
open Utf8 Util

def maxLine : ℕ := 64 * 1024

structure ProbeFieldLayout where
  name : String
  typeName : String
  offset : ℕ
  size : ℕ
  preview : String

structure RawProbeEvent where
  protocolVersion : ℕ
  kind : String
  probeId : String
  name : String
  line : ℕ
  column : ℕ
  typeName : String
  preview : String
  truncated : Bool
  sequence : ℕ
  bits : Option ℕ
  sizeBytes : Option ℕ
  alignBytes : Option ℕ
  fields : Option (List ProbeFieldLayout)

inductive RawTestStatus
  | passed
  | failed
  | skipped
  | leaked

inductive RawTestEvent
  | testStart (index : ℕ) (name : String)
  | testResult (index : ℕ) (name : String) (status : RawTestStatus) (durationNs : Float)
      (error : Option String)
  | testSummary (passed failed skipped leaked : ℕ)

structure TestEnvelope where
  protocolVersion : ℕ
  event : RawTestEvent

structure Channel (Event : Type) where
  read : List Char → Except String Event
  tooLong : String
  tooMany : String
  partialLine : String

/-- `serde` is `serde_json::from_str::<RawProbeEvent>`. -/
def probeChannel (serde : List Char → Except String RawProbeEvent) : Channel RawProbeEvent where
  read line :=
    match serde line with
    | .ok event =>
      if event.protocolVersion = 1 ∧ event.kind = "probe_value" then .ok event
      else .error "Invalid probe event schema"
    | .error error => .error ("Invalid probe JSON: " ++ error)
  tooLong := "Probe event exceeds 64 KiB"
  tooMany := "Probe event count exceeds run limit"
  partialLine := "Probe channel ended with partial NDJSON"

/-- `serde` is `serde_json::from_str::<TestEnvelope>`. -/
def testChannel (serde : List Char → Except String TestEnvelope) : Channel RawTestEvent where
  read line :=
    match serde line with
    | .ok envelope =>
      if envelope.protocolVersion = 1 then .ok envelope.event else .error "Invalid test event"
    | .error error => .error ("Invalid test JSON: " ++ error)
  tooLong := "Test event exceeds 64 KiB"
  tooMany := "Test event count exceeds run limit"
  partialLine := "Test channel ended with partial NDJSON"

inductive Action (Event : Type)
  | parsed (line : List Char)
  | delivered (event : Event)
  | failed (error : String)

def deliveries {Event : Type} (log : List (Action Event)) : List Event :=
  log.filterMap fun | .delivered event => some event | _ => none

def parses {Event : Type} (log : List (Action Event)) : List (List Char) :=
  log.filterMap fun | .parsed line => some line | _ => none

structure Reader (Event : Type) where
  buffer : List Char := []
  decoder : Utf8Carry := {}
  events : ℕ := 0
  maxEvents : ℕ := 10000
  error : Option String := none
  log : List (Action Event) := []

/-- The length of a `String` is in bytes. -/
def byteLen (text : List Char) : ℕ := (encode text).length

/-- `char::is_whitespace` -/
def isWhitespace (c : Char) : Bool :=
  let n := c.toNat
  (9 ≤ n && n ≤ 13) || (0x2000 ≤ n && n ≤ 0x200A) ||
    [0x20, 0x85, 0xA0, 0x1680, 0x2028, 0x2029, 0x202F, 0x205F, 0x3000].contains n

/-- `str::trim` -/
def trim (text : List Char) : List Char :=
  (text.dropWhile isWhitespace).rdropWhile isWhitespace

namespace Reader

variable {Event : Type} (channel : Channel Event) (r : Reader Event)

def fail (error : String) : Reader Event :=
  { r with error := some error, log := r.log ++ [.failed error] }

def parse (line : List Char) : Reader Event :=
  let r := { r with events := r.events + 1 }
  if r.maxEvents < r.events then r.fail channel.tooMany
  else
    let r := { r with log := r.log ++ [Action.parsed line] }
    match channel.read line with
    | .ok event => { r with log := r.log ++ [Action.delivered event] }
    | .error error => r.fail error

/-- One complete line, which has left the buffer. -/
def take (line : List Char) : Reader Event :=
  if maxLine < byteLen line then r.fail channel.tooLong
  else if line = [] then r else r.parse channel line

/-- The loop of `push`, which an error leaves; `fuel` bounds the lines in the buffer. -/
def drain (fuel : ℕ) (r : Reader Event) : Reader Event :=
  match fuel with
  | 0 => r
  | fuel + 1 =>
    match Lines.first '\n' r.buffer with
    | none => r
    | some (line, rest) =>
      let r := { r with buffer := rest }.take channel line
      if r.error.isSome then r else drain fuel r

def push (chunk : List UInt8) : Reader Event :=
  if r.error.isSome then r
  else
    let (text, decoder) := r.decoder.decode chunk
    let r := { r with buffer := r.buffer ++ text, decoder }
    let r := drain channel (r.buffer.length + 1) r
    if r.error.isSome then r
    else if maxLine < byteLen r.buffer then r.fail channel.tooLong else r

/-- `end` -/
def close : Reader Event :=
  let (text, decoder) := r.decoder.finish
  let r := { r with buffer := r.buffer ++ text, decoder }
  if r.error.isNone ∧ ¬r.buffer.all isWhitespace then r.fail channel.partialLine else r

def pushAll (r : Reader Event) (chunks : List (List UInt8)) : Reader Event :=
  chunks.foldl (push channel) r

/-- A whole run over a stream in these chunks. -/
def read (limit : ℕ) (chunks : List (List UInt8)) : Reader Event :=
  (pushAll channel { maxEvents := limit } chunks).close channel

def delivered : List Event := deliveries r.log

def parsed : List (List Char) := parses r.log

end Reader

/-! ## What a text amounts to -/

section Verdict

variable {Event : Type} (channel : Channel Event) (limit : ℕ)

/-- What is done with one complete line after `events` parsed ones, and how many are parsed
then, or the error. -/
def judge (events : ℕ) (line : List Char) : List (Action Event) × Except String ℕ :=
  if maxLine < byteLen line then ([.failed channel.tooLong], .error channel.tooLong)
  else if line = [] then ([], .ok events)
  else if limit ≤ events then ([.failed channel.tooMany], .error channel.tooMany)
  else
    match channel.read line with
    | .ok event => ([.parsed line, .delivered event], .ok (events + 1))
    | .error error => ([.parsed line, .failed error], .error error)

def verdict (events : ℕ) : List (List Char) → List (Action Event) × Except String ℕ
  | [] => ([], .ok events)
  | line :: lines =>
    match judge channel limit events line with
    | (log, .ok events) => (log ++ (verdict events lines).1, (verdict events lines).2)
    | (log, .error error) => (log, .error error)

/-- What is left of a stream when it ends. -/
def remainder (rest : List Char) : Option String :=
  if maxLine < byteLen rest then some channel.tooLong
  else if rest.all isWhitespace then none else some channel.partialLine

def outcome (text : List Char) : List (Action Event) × Option String :=
  match verdict channel limit 0 (Lines.split '\n' [] text).1 with
  | (log, .error error) => (log, some error)
  | (log, .ok _) =>
    match remainder channel (Lines.split '\n' [] text).2 with
    | some error => (log ++ [.failed error], some error)
    | none => (log, none)

variable {channel limit} {events events' : ℕ} {line : List Char} {lines : List (List Char)}
  {log : List (Action Event)} {error : String}

theorem verdict_append_ok (h : verdict channel limit events lines = (log, .ok events'))
    (more : List (List Char)) :
    verdict channel limit events (lines ++ more) =
      (log ++ (verdict channel limit events' more).1, (verdict channel limit events' more).2) := by
  induction lines generalizing events log with
  | nil =>
    cases h
    rfl
  | cons line lines ih =>
    rw [List.cons_append, verdict]
    rw [verdict] at h
    rcases hjudge : judge channel limit events line with ⟨first, _ | count⟩
    all_goals simp only [hjudge] at h ⊢
    · cases h
    · obtain ⟨rfl, hcount⟩ := Prod.mk.inj h
      rw [ih (Prod.ext rfl hcount), List.append_assoc]

theorem verdict_append_error (h : verdict channel limit events lines = (log, .error error))
    (more : List (List Char)) :
    verdict channel limit events (lines ++ more) = (log, .error error) := by
  induction lines generalizing events log with
  | nil => cases h
  | cons line lines ih =>
    rw [List.cons_append, verdict]
    rw [verdict] at h
    rcases hjudge : judge channel limit events line with ⟨first, _ | count⟩
    all_goals simp only [hjudge] at h ⊢
    · exact h
    · obtain ⟨rfl, hcount⟩ := Prod.mk.inj h
      rw [ih (Prod.ext rfl hcount)]

theorem byteLen_append (left right : List Char) :
    byteLen (left ++ right) = byteLen left + byteLen right := by
  rw [byteLen, encode_append, List.length_append]
  rfl

theorem outcome_of_error {text : List Char}
    (h : verdict channel limit 0 (Lines.split '\n' [] text).1 = (log, .error error))
    (more : List Char) : outcome channel limit (text ++ more) = (log, some error) := by
  rw [outcome, Lines.split_append, verdict_append_error h]

/-- An unfinished line that is too long stays so. -/
theorem outcome_of_long {text : List Char}
    (h : verdict channel limit 0 (Lines.split '\n' [] text).1 = (log, .ok events))
    (hlong : maxLine < byteLen (Lines.split '\n' [] text).2) (more : List Char) :
    outcome channel limit (text ++ more) =
      (log ++ [.failed channel.tooLong], some channel.tooLong) := by
  rw [outcome, Lines.split_append, verdict_append_ok h]
  rcases @Lines.split_extends _ _ '\n' (Lines.split '\n' [] text).2 more with
    ⟨tail, htail⟩ | ⟨tail, lines, htail⟩
  all_goals
    have htoo : maxLine < byteLen ((Lines.split '\n' [] text).2 ++ tail) := by
      rw [byteLen_append]
      omega
  · simp [htail, verdict, remainder, htoo]
  · simp [htail, verdict, judge, htoo]

end Verdict

/-! ## What a reader does with it -/

section Follows

variable {Event : Type} {channel : Channel Event} {limit count : ℕ} {r : Reader Event}
  {q : Decoder} {line text : List Char} {log : List (Action Event)} {error : String}
  {chunk : List UInt8}

theorem take_ok (h : judge channel r.maxEvents r.events line = (log, .ok count)) :
    r.take channel line = { r with events := count, log := r.log ++ log } := by
  rw [judge] at h
  rw [Reader.take]
  split_ifs at h ⊢ with hlong hempty hmany
  · cases h
  · cases h
    rw [List.append_nil]
  · cases h
  · have hcount : ¬r.maxEvents < r.events + 1 := by omega
    simp only [Reader.parse, if_neg hcount]
    cases hread : channel.read line with
    | error error => simp [hread] at h
    | ok event =>
      simp only [hread, Prod.mk.injEq, Except.ok.injEq] at h
      obtain ⟨rfl, rfl⟩ := h
      simp only [List.append_assoc]
      rfl

theorem take_error (h : judge channel r.maxEvents r.events line = (log, .error error)) :
    (r.take channel line).log = r.log ++ log ∧ (r.take channel line).error = some error := by
  rw [judge] at h
  rw [Reader.take]
  split_ifs at h ⊢ with hlong hempty hmany
  · cases h
    exact ⟨rfl, rfl⟩
  · cases h
  · cases h
    have hcount : r.maxEvents < r.events + 1 := by omega
    simp only [Reader.parse, if_pos hcount]
    exact ⟨rfl, rfl⟩
  · have hcount : ¬r.maxEvents < r.events + 1 := by omega
    simp only [Reader.parse, if_neg hcount]
    cases hread : channel.read line with
    | ok event => simp [hread] at h
    | error error =>
      simp only [hread, Prod.mk.injEq, Except.error.injEq] at h
      obtain ⟨rfl, rfl⟩ := h
      exact ⟨by simp [Reader.fail], rfl⟩

theorem drain_ok (fuel : ℕ) (hfuel : r.buffer.length < fuel) (hr : r.error = none)
    (h : verdict channel r.maxEvents r.events (Lines.split '\n' [] r.buffer).1 =
      (log, .ok count)) :
    Reader.drain channel fuel r = { r with
      buffer := (Lines.split '\n' [] r.buffer).2, events := count, log := r.log ++ log } := by
  induction fuel generalizing r log with
  | zero => exact absurd hfuel (Nat.not_lt_zero _)
  | succ fuel ih =>
    rw [Reader.drain]
    rcases hfirst : Lines.first '\n' r.buffer with _ | ⟨line, rest⟩
    · rw [Lines.split_of_not_mem [] (Lines.first_eq_none.mp hfirst)] at h ⊢
      cases h
      simp
    · have hlength : rest.length < r.buffer.length := by
        rw [(Lines.first_eq_some hfirst).1, List.length_append, List.length_cons]
        omega
      rw [Lines.split_first hfirst, verdict] at h
      rcases hjudge : judge channel r.maxEvents r.events line with ⟨first, _ | parsed⟩
      all_goals rw [hjudge] at h
      · cases h
      · obtain ⟨rfl, hcount⟩ := Prod.mk.inj h
        have htake := take_ok (r := { r with buffer := rest }) hjudge
        have hgoes : ¬(r.error.isSome = true) := by simp [hr]
        have hrest := ih (r := { r with buffer := rest, events := parsed, log := r.log ++ first })
          (Nat.lt_of_lt_of_le hlength (Nat.le_of_lt_succ hfuel)) hr (Prod.ext rfl hcount)
        simp only [htake, if_neg hgoes, hrest, Lines.split_first hfirst, List.append_assoc]

theorem drain_error (fuel : ℕ) (hfuel : r.buffer.length < fuel) (hr : r.error = none)
    (h : verdict channel r.maxEvents r.events (Lines.split '\n' [] r.buffer).1 =
      (log, .error error)) :
    (Reader.drain channel fuel r).log = r.log ++ log ∧
      (Reader.drain channel fuel r).error = some error := by
  induction fuel generalizing r log with
  | zero => exact absurd hfuel (Nat.not_lt_zero _)
  | succ fuel ih =>
    rw [Reader.drain]
    rcases hfirst : Lines.first '\n' r.buffer with _ | ⟨line, rest⟩
    · rw [Lines.split_of_not_mem [] (Lines.first_eq_none.mp hfirst)] at h
      cases h
    · have hlength : rest.length < r.buffer.length := by
        rw [(Lines.first_eq_some hfirst).1, List.length_append, List.length_cons]
        omega
      rw [Lines.split_first hfirst, verdict] at h
      rcases hjudge : judge channel r.maxEvents r.events line with ⟨first, failed | parsed⟩
      all_goals rw [hjudge] at h
      · obtain ⟨hlog, herror⟩ := take_error (r := { r with buffer := rest }) hjudge
        cases h
        simp only [herror, Option.isSome_some, if_true]
        exact ⟨hlog, trivial⟩
      · obtain ⟨rfl, hcount⟩ := Prod.mk.inj h
        have htake := take_ok (r := { r with buffer := rest }) hjudge
        have hgoes : ¬(r.error.isSome = true) := by simp [hr]
        have hrest := ih (r := { r with buffer := rest, events := parsed, log := r.log ++ first })
          (Nat.lt_of_lt_of_le hlength (Nat.le_of_lt_succ hfuel)) hr (Prod.ext rfl hcount)
        simp only [htake, if_neg hgoes]
        rwa [List.append_assoc] at hrest

theorem take_log (channel : Channel Event) (r : Reader Event) (line : List Char) :
    r.log <+: (r.take channel line).log := by
  rw [Reader.take]
  split_ifs
  · exact List.prefix_append _ _
  · exact List.prefix_rfl
  · simp only [Reader.parse]
    split_ifs
    · exact List.prefix_append _ _
    · cases channel.read line with
      | ok event => exact ⟨[.parsed line, .delivered event], by simp⟩
      | error error => exact ⟨[.parsed line, .failed error], by simp [Reader.fail]⟩

theorem drain_log (channel : Channel Event) (fuel : ℕ) (r : Reader Event) :
    r.log <+: (Reader.drain channel fuel r).log := by
  induction fuel generalizing r with
  | zero => exact List.prefix_rfl
  | succ fuel ih =>
    rw [Reader.drain]
    rcases Lines.first '\n' r.buffer with _ | ⟨line, rest⟩
    · exact List.prefix_rfl
    · have htake := take_log channel { r with buffer := rest } line
      dsimp only
      split_ifs
      · exact htake
      · exact htake.trans (ih _)

/-- What has been delivered stays so. -/
theorem push_log (channel : Channel Event) (r : Reader Event) (chunk : List UInt8) :
    r.log <+: (r.push channel chunk).log := by
  have hdrain := drain_log channel ((r.buffer ++ (r.decoder.decode chunk).1).length + 1)
    { r with
      buffer := r.buffer ++ (r.decoder.decode chunk).1, decoder := (r.decoder.decode chunk).2 }
  simp only [Reader.push]
  split_ifs
  · exact List.prefix_rfl
  · exact hdrain
  · exact hdrain.trans (List.prefix_append _ _)
  · exact hdrain

/-- A reader that has read `text` and holds the unfinished character `q`, and no error. -/
structure Alive (channel : Channel Event) (limit : ℕ) (text : List Char) (q : Decoder)
    (r : Reader Event) : Prop where
  error : r.error = none
  maxEvents : r.maxEvents = limit
  decoder : Carries r.decoder q
  buffer : r.buffer = (Lines.split '\n' [] text).2
  short : byteLen r.buffer ≤ maxLine
  log : verdict channel limit 0 (Lines.split '\n' [] text).1 = (r.log, .ok r.events)

/-- A reader whose error is the outcome of every way to go on. -/
def Dead (channel : Channel Event) (limit : ℕ) (text : List Char) (r : Reader Event) : Prop :=
  ∃ error, r.error = some error ∧
    ∀ more, outcome channel limit (text ++ more) = (r.log, some error)

def Follows (channel : Channel Event) (limit : ℕ) (text : List Char) (q : Decoder)
    (r : Reader Event) : Prop :=
  Alive channel limit text q r ∨ Dead channel limit text r

theorem alive_new : Alive channel limit [] .start { maxEvents := limit } where
  error := rfl
  maxEvents := rfl
  decoder := carries_empty
  buffer := rfl
  short := Nat.zero_le _
  log := rfl

theorem Dead.append (h : Dead channel limit text r) (more : List Char) :
    Dead channel limit (text ++ more) r := by
  obtain ⟨error, herror, houtcome⟩ := h
  exact ⟨error, herror, fun rest => by rw [List.append_assoc, houtcome]⟩

theorem push_eq {s : Reader Event} (hr : r.error = none) (hs : s = { r with
      buffer := r.buffer ++ (r.decoder.decode chunk).1, decoder := (r.decoder.decode chunk).2 }) :
    r.push channel chunk =
      if (Reader.drain channel (s.buffer.length + 1) s).error.isSome then
        Reader.drain channel (s.buffer.length + 1) s
      else if maxLine < byteLen (Reader.drain channel (s.buffer.length + 1) s).buffer then
        (Reader.drain channel (s.buffer.length + 1) s).fail channel.tooLong
      else Reader.drain channel (s.buffer.length + 1) s := by
  rw [Reader.push, if_neg (by simp [hr]), hs]

theorem Alive.push (h : Alive channel limit text q r) (hchunk : broken q chunk = false) :
    Follows channel limit (text ++ (run q chunk).1) (run q chunk).2 (r.push channel chunk) := by
  obtain ⟨htext, hdecoder⟩ := h.decoder.decode hchunk
  have hsplit : Lines.split '\n' [] (r.buffer ++ (run q chunk).1) =
      Lines.split '\n' (Lines.split '\n' [] text).2 (run q chunk).1 := by
    rw [← Lines.split_nil_append (Lines.not_mem_split_rest [] text List.not_mem_nil), h.buffer]
  have hwhole := @Lines.split_append _ _ '\n' [] text (run q chunk).1
  rw [← hsplit] at hwhole
  obtain ⟨s, hs⟩ : ∃ s : Reader Event, s = { r with
      buffer := r.buffer ++ (r.decoder.decode chunk).1,
      decoder := (r.decoder.decode chunk).2 } := ⟨_, rfl⟩
  have hbuffer : s.buffer = r.buffer ++ (run q chunk).1 := by rw [hs, ← htext]
  have hevents : s.events = r.events ∧ s.maxEvents = limit ∧ s.log = r.log := by
    rw [hs]
    exact ⟨rfl, h.maxEvents, rfl⟩
  have herror : s.error = none := by
    rw [hs]
    exact h.error
  rw [push_eq h.error hs]
  rw [← hbuffer] at hwhole
  rcases hverdict : verdict channel s.maxEvents s.events (Lines.split '\n' [] s.buffer).1 with
    ⟨log, error | count⟩
  · obtain ⟨hlog, hfailed⟩ := drain_error (s.buffer.length + 1) (Nat.lt_succ_self _) herror hverdict
    rw [if_pos (by rw [hfailed]; rfl)]
    refine .inr ⟨error, hfailed, fun more => ?_⟩
    rw [hlog, hevents.2.2]
    refine outcome_of_error ?_ more
    rw [hwhole, verdict_append_ok h.log, ← hevents.1, ← hevents.2.1, hverdict]
  · have hdrain := drain_ok (s.buffer.length + 1) (Nat.lt_succ_self _) herror hverdict
    have hlog : verdict channel limit 0 (Lines.split '\n' [] (text ++ (run q chunk).1)).1 =
        (s.log ++ log, .ok count) := by
      rw [hwhole, verdict_append_ok h.log, ← hevents.1, ← hevents.2.1, hverdict, hevents.2.2]
    have hrest : (Lines.split '\n' [] (text ++ (run q chunk).1)).2 =
        (Lines.split '\n' [] s.buffer).2 := by
      rw [hwhole]
    rw [hdrain, if_neg (by simp [herror])]
    split_ifs with hlong
    · refine .inr ⟨channel.tooLong, rfl, fun more => ?_⟩
      exact outcome_of_long hlog (by rw [hrest]; exact hlong) more
    · exact .inl {
        error := herror
        maxEvents := hevents.2.1
        decoder := by rw [hs]; exact hdecoder
        buffer := hrest.symm
        short := Nat.le_of_not_lt hlong
        log := hlog }

theorem Follows.push (h : Follows channel limit text q r) (hchunk : broken q chunk = false) :
    Follows channel limit (text ++ (run q chunk).1) (run q chunk).2 (r.push channel chunk) := by
  rcases h with h | h
  · exact h.push hchunk
  · have hstays : r.push channel chunk = r := by
      obtain ⟨error, herror, -⟩ := h
      simp [Reader.push, herror]
    rw [hstays]
    exact .inr (h.append _)

theorem Follows.pushAll {chunks : List (List UInt8)} (h : Follows channel limit text q r)
    (hchunks : broken q chunks.flatten = false) :
    Follows channel limit (text ++ (run q chunks.flatten).1) (run q chunks.flatten).2
      (r.pushAll channel chunks) := by
  induction chunks generalizing text q r with
  | nil => simpa [run, Reader.pushAll] using h
  | cons chunk chunks ih =>
    rw [List.flatten_cons, broken_append, Bool.or_eq_false_iff] at hchunks
    have hnext := ih (h.push hchunks.1) hchunks.2
    rw [List.flatten_cons, run_append, ← List.append_assoc]
    exact hnext

theorem Follows.close (h : Follows channel limit text .start r) :
    ((r.close channel).log, (r.close channel).error) = outcome channel limit text := by
  rcases h with h | ⟨error, herror, houtcome⟩
  · have hfinish : r.decoder.finish.1 = [] := h.decoder.finish
    have hshort : ¬maxLine < byteLen r.buffer := Nat.not_lt.mpr h.short
    simp only [outcome, h.log, remainder, ← h.buffer, if_neg hshort]
    simp only [Reader.close, hfinish, List.append_nil, h.error, Option.isNone_none, true_and]
    by_cases hblank : r.buffer.all isWhitespace
    · simp [hblank]
    · simp [hblank, Reader.fail]
  · have hwhole := houtcome []
    rw [List.append_nil] at hwhole
    rw [hwhole]
    simp [Reader.close, herror]

theorem read_eq_outcome (channel : Channel Event) (limit : ℕ) {chunks : List (List UInt8)}
    (h : chunks.flatten = encode text) :
    ((Reader.read channel limit chunks).log, (Reader.read channel limit chunks).error) =
      outcome channel limit text := by
  have hnew : Follows channel limit [] .start { maxEvents := limit } := .inl alive_new
  have hfollows := hnew.pushAll (show broken .start chunks.flatten = false by rw [h, broken_encode])
  rw [h, run_encode] at hfollows
  exact hfollows.close

end Follows

/-! ## What has been delivered -/

section Reads

variable {Event : Type} {channel : Channel Event} {limit count : ℕ} {line text : List Char}
  {lines : List (List Char)} {log : List (Action Event)}

def nonEmpty (lines : List (List Char)) : List (List Char) := lines.filter (· ≠ [])

/-- A complete line that ends the reading, where `count` have been parsed. -/
def Bad (channel : Channel Event) (limit count : ℕ) (line : List Char) : Prop :=
  maxLine < byteLen line ∨
    line ≠ [] ∧ (limit ≤ count ∨ ∀ event, channel.read line ≠ .ok event)

/-- `before` are the lines before the first bad one, all of them if none is bad. -/
structure FirstBad (channel : Channel Event) (limit count : ℕ)
    (lines before after : List (List Char)) : Prop where
  split : lines = before ++ after
  good : ∀ left line right, before = left ++ line :: right →
    ¬Bad channel limit (count + (nonEmpty left).length) line
  bad : ∀ line right, after = line :: right →
    Bad channel limit (count + (nonEmpty before).length) line

/-- What a reader may have done with a text. -/
structure Reads (channel : Channel Event) (limit : ℕ) (text : List Char) (r : Reader Event) :
    Prop where
  parsed_le : r.parsed.length ≤ limit
  parsed_short : ∀ line ∈ r.parsed, byteLen line ≤ maxLine
  stops : ∃ good, (∀ error, Action.failed error ∉ good) ∧
    r.log = good ++ (r.error.map Action.failed).toList
  delivers : ∃ before after,
    FirstBad channel limit 0 (Lines.split '\n' [] text).1 before after ∧
      r.delivered = (nonEmpty before).filterMap fun line => (channel.read line).toOption

/-- The log up to the first bad line. -/
def goodLog (channel : Channel Event) (lines : List (List Char)) : List (Action Event) :=
  (nonEmpty lines).flatMap fun line => .parsed line ::
    (channel.read line).toOption.toList.map Action.delivered

theorem judge_good (hbad : ¬Bad channel limit count line) :
    judge channel limit count line =
      (goodLog channel [line], .ok (count + (nonEmpty [line]).length)) := by
  simp only [Bad, not_or, not_and, not_forall, not_not] at hbad
  rw [judge, if_neg hbad.1]
  by_cases hempty : line = []
  · simp [hempty, goodLog, nonEmpty]
  · obtain ⟨hcount, event, hread⟩ := hbad.2 hempty
    simp [hempty, hcount, hread, goodLog, nonEmpty, Except.toOption]

theorem judge_bad (hbad : Bad channel limit count line) :
    ∃ good error, judge channel limit count line = (good ++ [.failed error], .error error) ∧
      (good = [] ∨ good = [.parsed line] ∧ byteLen line ≤ maxLine ∧ count < limit) := by
  rw [judge]
  split_ifs with hlong hempty hmany
  · exact ⟨[], _, rfl, .inl rfl⟩
  · exact (hbad.elim hlong fun h => h.1 hempty).elim
  · exact ⟨[], _, rfl, .inl rfl⟩
  · rcases hread : channel.read line with error | event
    · exact ⟨[.parsed line], error, rfl, .inr ⟨rfl, by omega, by omega⟩⟩
    · rcases hbad with hbad | ⟨-, hbad | hbad⟩
      · exact absurd hbad hlong
      · exact absurd hbad hmany
      · exact absurd hread (hbad event)

theorem goodLog_cons (line : List Char) (lines : List (List Char)) :
    goodLog channel (line :: lines) = goodLog channel [line] ++ goodLog channel lines := by
  rw [goodLog, goodLog, goodLog, ← List.flatMap_append, nonEmpty, nonEmpty, nonEmpty,
    ← List.filter_append]
  rfl

theorem verdict_firstBad (channel : Channel Event) (limit count : ℕ) (lines : List (List Char)) :
    ∃ before after, FirstBad channel limit count lines before after ∧
      match after with
      | [] => verdict channel limit count lines =
        (goodLog channel before, .ok (count + (nonEmpty before).length))
      | line :: _ => verdict channel limit count lines =
        (goodLog channel before ++ (judge channel limit (count + (nonEmpty before).length) line).1,
          (judge channel limit (count + (nonEmpty before).length) line).2) := by
  induction lines generalizing count with
  | nil =>
    refine ⟨[], [], ⟨rfl, fun left line right h => ?_, fun line right h => ?_⟩, rfl⟩
    · cases left <;> cases h
    · cases h
  | cons line lines ih =>
    by_cases hbad : Bad channel limit count line
    · refine ⟨[], line :: lines, ⟨rfl, fun left line right h => ?_, fun line' right h => ?_⟩, ?_⟩
      · cases left <;> cases h
      · cases h
        exact hbad
      · obtain ⟨good, error, hjudge, -⟩ := judge_bad hbad
        simp [verdict, goodLog, nonEmpty, hjudge]
    · have hjudge := judge_good hbad
      obtain ⟨before, after, hfirst, hverdict⟩ := ih (count + (nonEmpty [line]).length)
      have hcount : (nonEmpty (line :: before)).length =
          (nonEmpty [line]).length + (nonEmpty before).length := by
        rw [← List.length_append, nonEmpty, nonEmpty, nonEmpty, ← List.filter_append]
        rfl
      refine ⟨line :: before, after, ⟨?_, ?_, ?_⟩, ?_⟩
      · rw [hfirst.split]
        rfl
      · intro left line' right h
        cases left with
        | nil =>
          cases h
          exact hbad
        | cons head left =>
          obtain ⟨rfl, hbefore⟩ := List.cons.inj h
          have hgood := hfirst.good left line' right hbefore
          rwa [Nat.add_assoc, ← List.length_append, nonEmpty, nonEmpty, ← List.filter_append] at hgood
      · intro line' right h
        rw [hcount, ← Nat.add_assoc]
        exact hfirst.bad line' right h
      · rw [verdict, hjudge, hcount, ← Nat.add_assoc]
        cases after with
        | nil => simp only [hverdict, goodLog_cons line before]
        | cons head after => simp only [hverdict, goodLog_cons line before, List.append_assoc]

theorem deliveries_append (left right : List (Action Event)) :
    deliveries (left ++ right) = deliveries left ++ deliveries right := List.filterMap_append

theorem parses_append (left right : List (Action Event)) :
    parses (left ++ right) = parses left ++ parses right := List.filterMap_append

theorem failed_not_mem_goodLog (error : String) (lines : List (List Char)) :
    Action.failed error ∉ goodLog channel lines := by
  simp [goodLog]

theorem parses_goodLog (lines : List (List Char)) :
    parses (goodLog channel lines) = nonEmpty lines := by
  rw [goodLog]
  induction nonEmpty lines with
  | nil => rfl
  | cons line lines ih =>
    rw [List.flatMap_cons, parses_append, ih]
    cases channel.read line <;> rfl

theorem deliveries_goodLog (lines : List (List Char)) :
    deliveries (goodLog channel lines) =
      (nonEmpty lines).filterMap fun line => (channel.read line).toOption := by
  rw [goodLog]
  induction nonEmpty lines with
  | nil => rfl
  | cons line lines ih =>
    rw [List.flatMap_cons, deliveries_append, ih]
    cases hread : channel.read line <;> simp [hread, deliveries, Except.toOption]

theorem nonEmpty_append (left right : List (List Char)) :
    nonEmpty (left ++ right) = nonEmpty left ++ nonEmpty right := List.filter_append ..

variable {before after : List (List Char)}

theorem FirstBad.short (h : FirstBad channel limit count lines before after)
    (hline : line ∈ nonEmpty before) : byteLen line ≤ maxLine := by
  obtain ⟨left, right, rfl⟩ := List.append_of_mem (List.mem_of_mem_filter hline)
  exact Nat.le_of_not_lt fun hlong => h.good left line right rfl (.inl hlong)

/-- Each line parsed is parsed while the limit is not reached. -/
theorem nonEmpty_length_le (hcount : count ≤ limit) (hgood : ∀ left line right,
      before = left ++ line :: right → ¬Bad channel limit (count + (nonEmpty left).length) line) :
    count + (nonEmpty before).length ≤ limit := by
  induction before using List.reverseRecOn with
  | nil => exact hcount
  | append_singleton before line ih =>
    have hbefore := ih fun left line' right h =>
      hgood left line' (right ++ [line]) (by rw [h]; simp)
    have hline := hgood before line [] rfl
    rw [nonEmpty_append, List.length_append]
    by_cases hempty : line = []
    · simpa [hempty, nonEmpty] using hbefore
    · simp only [Bad, not_or, not_and] at hline
      have hlimit := (hline.2 hempty).1
      have hone : (nonEmpty [line]).length = 1 := by simp [nonEmpty, hempty]
      omega

theorem outcome_cases (channel : Channel Event) (limit : ℕ) (text : List Char) :
    ∃ before after last,
      FirstBad channel limit 0 (Lines.split '\n' [] text).1 before after ∧
      (last = [] ∨ ∃ line, last = [Action.parsed line] ∧ byteLen line ≤ maxLine ∧
        (nonEmpty before).length < limit) ∧
      (outcome channel limit text).1 = goodLog channel before ++ last ++
        ((outcome channel limit text).2.map Action.failed).toList := by
  obtain ⟨before, after, hfirst, hverdict⟩ :=
    verdict_firstBad channel limit 0 (Lines.split '\n' [] text).1
  simp only [outcome]
  cases after with
  | nil =>
    refine ⟨before, [], [], hfirst, .inl rfl, ?_⟩
    simp only [hverdict]
    cases remainder channel (Lines.split '\n' [] text).2 <;> simp
  | cons line after =>
    obtain ⟨good, error, hjudge, hgood⟩ := judge_bad (hfirst.bad line after rfl)
    refine ⟨before, line :: after, good, hfirst, ?_, ?_⟩
    · rcases hgood with hgood | ⟨hgood, hshort, hcount⟩
      · exact .inl hgood
      · exact .inr ⟨line, hgood, hshort, by omega⟩
    · simp only [hjudge] at hverdict
      simp [hverdict]

theorem read_reads {chunks : List (List UInt8)} (h : chunks.flatten = encode text) :
    Reads channel limit text (Reader.read channel limit chunks) := by
  have heq := read_eq_outcome channel limit h
  obtain ⟨before, after, last, hfirst, hlast, hlog⟩ := outcome_cases channel limit text
  simp only [← heq] at hlog
  have hparsed : (Reader.read channel limit chunks).parsed = nonEmpty before ++ parses last := by
    rw [Reader.parsed, hlog, parses_append, parses_append, parses_goodLog]
    cases (Reader.read channel limit chunks).error <;> simp [parses]
  have hfew := nonEmpty_length_le (Nat.zero_le limit) hfirst.good
  refine ⟨?_, fun line hline => ?_, ?_, ?_⟩
  · rw [hparsed, List.length_append]
    rcases hlast with rfl | ⟨line, rfl, -, hcount⟩
    · simpa [parses] using hfew
    · have hone : (parses ([.parsed line] : List (Action Event))).length = 1 := rfl
      omega
  · rw [hparsed] at hline
    rcases List.mem_append.mp hline with hline | hline
    · exact hfirst.short hline
    · rcases hlast with rfl | ⟨line', rfl, hshort, -⟩
      · cases hline
      · rw [List.mem_singleton.mp (show line ∈ [line'] from hline)]
        exact hshort
  · refine ⟨goodLog channel before ++ last, fun error hmem => ?_, hlog⟩
    rcases List.mem_append.mp hmem with hmem | hmem
    · exact failed_not_mem_goodLog error before hmem
    · rcases hlast with rfl | ⟨line, rfl, -⟩ <;> simp at hmem
  · refine ⟨before, after, hfirst, ?_⟩
    rw [Reader.delivered, hlog, deliveries_append, deliveries_append, deliveries_goodLog]
    rcases hlast with rfl | ⟨line, rfl, -⟩ <;>
      cases (Reader.read channel limit chunks).error <;> simp [deliveries]

/-- Two readers of the same text agree, whatever the chunks. -/
structure Agree (channel : Channel Event) (limit : ℕ) (text : List Char) (r r' : Reader Event) :
    Prop where
  delivered : r.delivered = r'.delivered
  error : r.error = r'.error
  reads : Reads channel limit text r

theorem read_agree {chunks chunks' : List (List UInt8)} (h : chunks.flatten = encode text)
    (h' : chunks'.flatten = encode text) :
    Agree channel limit text (Reader.read channel limit chunks)
      (Reader.read channel limit chunks') := by
  have heq := (read_eq_outcome channel limit h).trans (read_eq_outcome channel limit h').symm
  obtain ⟨hlog, herror⟩ := Prod.mk.inj heq
  exact ⟨by rw [Reader.delivered, hlog]; rfl, herror, read_reads h⟩

end Reads

variable {text : List Char} {chunks chunks' : List (List UInt8)}

theorem readers_agree (h : chunks.flatten = encode text) (h' : chunks'.flatten = encode text)
    (limit : ℕ) :
    (∀ serde, Agree (probeChannel serde) limit text
        (Reader.read (probeChannel serde) limit chunks)
        (Reader.read (probeChannel serde) limit chunks')) ∧
      ∀ serde, Agree (testChannel serde) limit text
        (Reader.read (testChannel serde) limit chunks)
        (Reader.read (testChannel serde) limit chunks') :=
  ⟨fun _ => read_agree h h', fun _ => read_agree h h'⟩

/-- A line cut inside a character, and in one piece. -/
theorem readers_agree_cut :
    (∀ serde, Agree (probeChannel serde) 10000 ['ñ', '\n']
        (Reader.read (probeChannel serde) 10000 [[0xC3], [0xB1, 0x0A]])
        (Reader.read (probeChannel serde) 10000 [[0xC3, 0xB1, 0x0A]])) ∧
      ∀ serde, Agree (testChannel serde) 10000 ['ñ', '\n']
        (Reader.read (testChannel serde) 10000 [[0xC3], [0xB1, 0x0A]])
        (Reader.read (testChannel serde) 10000 [[0xC3, 0xB1, 0x0A]]) :=
  readers_agree (by decide) (by decide) 10000

end Atomis.Ndjson
