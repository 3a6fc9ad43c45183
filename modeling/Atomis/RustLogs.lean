import Atomis.MarkerChunks
import Atomis.RustProbes

/-!
# Rust log statements

A log statement prints at most a line, and its runtime writes a marker behind it with the place
and, in a loop, with a name and what it held. However the bytes of the stream are cut, the server
shows each line once, with its own place.
-/

namespace Atomis.RustLogs
open Json Markers RuntimeJson RustProbes Utf8 Util

/-! ## The runtime -/

structure LoopCapture where
  line : UInt32
  column : UInt32
  loopVariable : List Char
  preview : List Char

/-- A log statement: what it prints, and the arguments of its macro. -/
structure LogCall where
  text : List Char
  fileId : UInt32
  line : UInt32
  column : UInt32
  capture : Option LoopCapture

def place (fileId line column : UInt32) : List Char :=
  decimal fileId.toNat ++ ':' :: (decimal line.toNat ++ ':' :: decimal column.toNat)

def emitLog (fileId line column : UInt32) : List Char :=
  markerPrefix ++ place fileId line column ++ [markerEnd]

/-- The delimiters of a marker, and a line break. -/
def cleanChar (c : Char) : List Char :=
  if c = markerStart ∨ c = markerEnd then ['?'] else if c = '\n' then ['\\', 'n'] else [c]

def cleanPreview (preview : List Char) : List Char :=
  (truncatePreview preview).1.flatMap cleanChar

def emitLogLoop (fileId line column : UInt32) (capture : LoopCapture) : List Char :=
  markerPrefix ++ (place fileId line column ++ ':' :: (decimal capture.line.toNat ++
    ':' :: (decimal capture.column.toNat ++ ':' :: (capture.loopVariable ++
      ':' :: cleanPreview capture.preview)))) ++ [markerEnd]

namespace LogCall

variable (call : LogCall)

/-- What reaches the stream, a line being flushed at its end. -/
def chars : List Char :=
  call.text ++ match call.capture with
    | none => emitLog call.fileId call.line call.column
    | some capture => emitLogLoop call.fileId call.line call.column capture

/-- At most one line, and in a loop a name of ASCII characters. -/
structure Plain : Prop where
  plain : markerStart ∉ call.text
  oneLine : '\n' ∉ call.text.dropLast
  starts : ∀ capture ∈ call.capture, startsName capture.loopVariable = true
  named : ∀ capture ∈ call.capture, ∀ c ∈ capture.loopVariable, nameChar c = true

/-- The place the line should be shown with. -/
def marker : ParsedMarker where
  start := 0
  stop := 0
  fileId := call.fileId.toNat
  line := call.line.toNat
  column := call.column.toNat
  loopInfo := call.capture.map fun capture =>
    ⟨capture.line.toNat, capture.column.toNat, capture.loopVariable, cleanPreview capture.preview⟩

def body : List Char :=
  place call.fileId call.line call.column ++ match call.capture with
    | none => []
    | some capture => ':' :: (decimal capture.line.toNat ++ ':' :: (decimal capture.column.toNat ++
      ':' :: (capture.loopVariable ++ ':' :: cleanPreview capture.preview)))

def write : Write := ⟨call.text, call.body, call.marker⟩

end LogCall

/-- The texts that the callback of a stream is given. -/
def texts (carry : Utf8Carry) : List (List UInt8) → List (List Char)
  | [] => if carry.finish.1 = [] then [] else [carry.finish.1]
  | chunk :: chunks => (carry.decode chunk).1 :: texts (carry.decode chunk).2 chunks

/-! ## A marker is read back -/

variable {call : LogCall}

theorem chars_eq (call : LogCall) : call.chars = call.write.chars := by
  rw [LogCall.chars, Write.chars, LogCall.write, wrap, LogCall.body]
  cases call.capture <;> simp [emitLog, emitLogLoop]

theorem takeNumber_decimal (n : UInt32) {rest : List Char} (h : Stops rest) :
    takeNumber (decimal n.toNat ++ rest) = some (n.toNat, rest) := by
  have hdigits := (takeWhile_digits n.toNat h).1
  have hvalue : Nat.ofDigitChars 10 (Nat.toDigits 10 n.toNat) 0 = n.toNat :=
    Nat.ofDigitChars_toDigits (by decide) (by decide)
  have hsmall : n.toNat < 2 ^ 32 := n.toNat_lt
  rw [takeNumber, decimal, hdigits]
  simp only [Nat.toDigits_ne_nil, if_false, hvalue, hsmall, if_true, List.drop_left]

theorem stripPrefix_colon (rest : List Char) : stripPrefix ':' (':' :: rest) = some rest := by
  simp [stripPrefix]

theorem takeWhile_name {name : List Char} (h : ∀ c ∈ name, nameChar c = true) (rest : List Char) :
    (name ++ ':' :: rest).takeWhile nameChar = name := by
  rw [List.takeWhile_append_of_pos h, List.takeWhile_cons_of_neg (by decide), List.append_nil]

theorem parseBody_body (h : call.Plain) : parseBody call.body 0 0 = some call.marker := by
  have hcolon : ∀ rest, Stops (':' :: rest) := fun rest => stops_cons (by decide) rest
  rcases hcapture : call.capture with _ | capture
  · have hlast := takeNumber_decimal call.column stops_nil
    rw [List.append_nil] at hlast
    simp [parseBody, LogCall.body, place, hcapture, takeNumber_decimal _ (hcolon _),
      hlast, stripPrefix, LogCall.marker]
  · have hname := takeWhile_name (h.named capture hcapture) (cleanPreview capture.preview)
    simp [parseBody, LogCall.body, place, hcapture, takeNumber_decimal _ (hcolon _),
      stripPrefix_colon, hname, h.starts capture hcapture, LogCall.marker]

theorem notMem_cleanChar {c d : Char} (hd : d = markerEnd ∨ d = '\n') : d ∉ cleanChar c := by
  rw [cleanChar]
  split_ifs with hmark hbreak
  · rcases hd with rfl | rfl <;> decide
  · rcases hd with rfl | rfl <;> decide
  · rw [List.mem_singleton]
    rintro rfl
    exact hd.elim (fun heq => hmark (.inr heq)) hbreak

theorem notMem_body (h : call.Plain) {d : Char} (hd : d = markerEnd ∨ d = '\n') :
    d ∉ call.body := by
  have hname : nameChar d = false := by rcases hd with rfl | rfl <;> decide
  have hdigit : d.isDigit = false := by rcases hd with rfl | rfl <;> decide
  have hcolon : d ≠ ':' := by rcases hd with rfl | rfl <;> decide
  have hdecimal : ∀ n, d ∉ decimal n := fun n hmem =>
    absurd (Nat.isDigit_of_mem_toDigits (by decide) (by decide) hmem) (by simp [hdigit])
  have hplace : d ∉ place call.fileId call.line call.column := by
    simp [place, hdecimal, hcolon]
  rw [LogCall.body, List.mem_append, not_or]
  refine ⟨hplace, ?_⟩
  rcases hcapture : call.capture with _ | capture
  · exact List.not_mem_nil
  · have hvariable : d ∉ capture.loopVariable := fun hmem =>
      absurd (h.named capture hcapture d hmem) (by simp [hname])
    have hpreview : d ∉ cleanPreview capture.preview := by
      rw [cleanPreview, List.mem_flatMap]
      rintro ⟨c, -, hmem⟩
      exact notMem_cleanChar hd hmem
    simp [hdecimal, hcolon, hvariable, hpreview]

theorem wellFormed_write (h : call.Plain) : call.write.WellFormed where
  plain := h.plain
  oneLine := h.oneLine
  ended := notMem_body h (.inl rfl)
  flat := notMem_body h (.inr rfl)
  parses := parseBody_body h

/-! ## The bytes of the stream -/

theorem flatten_texts (carry : Utf8Carry) (chunks : List (List UInt8)) :
    (texts carry chunks).flatten = carry.decodeAll chunks := by
  induction chunks generalizing carry with
  | nil =>
    rw [texts, Utf8Carry.decodeAll]
    split_ifs with hfinish
    · exact hfinish.symm
    · exact List.flatten_singleton
  | cons chunk chunks ih =>
    rw [texts, List.flatten_cons, ih, Utf8Carry.decodeAll]

theorem not_torn {q : Decoder} {chunks : List (List UInt8)} (h : broken q chunks.flatten = false) :
    ¬Torn q chunks := by
  induction chunks generalizing q with
  | nil => exact not_false
  | cons chunk chunks ih =>
    rw [List.flatten_cons, broken_append, Bool.or_eq_false_iff] at h
    rw [torn_of_not_broken h.1]
    exact ih h.2

/-- However a text is cut, what the callback is given is the text. -/
theorem flatten_texts_encode {text : List Char} {chunks : List (List UInt8)}
    (h : chunks.flatten = encode text) : (texts {} chunks).flatten = text := by
  have htorn : ¬Torn .start chunks := not_torn (by rw [h, broken_encode])
  rw [flatten_texts, decodeAll_eq carries_empty htorn, h, lossyFrom_start, lossy_encode]

theorem partial_nil {writes : List Write} : Partial [] writes := by
  cases writes with
  | nil => rfl
  | cons w writes => exact ⟨w.chars, by simp [Write.chars, wrap], rfl⟩

/-- The lines of the log statements, each with its place and how often that was reached. -/
theorem shown_texts {fileIds : ℕ → Option String} (hfiles : ∀ id, fileIds id ≠ some "unknown")
    {calls : List LogCall} (hcalls : ∀ call ∈ calls, call.Plain) {chunks : List (List UInt8)}
    (hchunks : chunks.flatten = encode (calls.flatMap LogCall.chars)) :
    shown (((texts {} chunks).foldl Parser.push (Parser.new .stdout false fileIds)).flush).log =
      annotated fileIds [] (calls.map LogCall.write) := by
  have hwrites : ∀ w ∈ calls.map LogCall.write, w.WellFormed := by
    intro w hw
    obtain ⟨call, hcall, rfl⟩ := List.mem_map.mp hw
    exact wellFormed_write (hcalls call hcall)
  have hstream : (texts {} chunks).flatten = stream (calls.map LogCall.write) := by
    rw [flatten_texts_encode hchunks, stream, List.flatMap_map]
    exact List.flatMap_congr fun call _ => chars_eq call
  have hstart : Annotated fileIds (Parser.new .stdout false fileIds) [] :=
    ⟨rfl, rfl, rfl, fun _ _ => rfl, rfl⟩
  obtain ⟨hann, hempty⟩ := pushes_annotated hfiles (texts {} chunks) hstart hwrites
    (by simpa [Parser.new] using hstream) partial_nil
  -- nothing is held back when the last marker is whole
  rw [Parser.flush, hempty, Parser.emitText, Parser.lines, List.foldl_nil]
  exact hann.log

end Atomis.RustLogs
