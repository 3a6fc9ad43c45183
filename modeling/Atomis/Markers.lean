import Mathlib.Data.List.DropRight
import Mathlib.Data.Nat.Digits.Defs
import Mathlib.Logic.Function.Basic
import Mathlib.Tactic.Common

/-!
# Log markers in a program's output

`languages/markers.rs`: the parser that takes the markers out of what a program
writes and gives each the text before it. A string is the list of its characters
and a position counts characters; only `utf8Len` counts bytes. `log` is history:
what was emitted and what was taken out, in order.
-/

namespace Atomis.Markers

/-! ## Strings -/

/-- `len`. -/
def utf8Len (text : List Char) : ℕ := (text.map Char.utf8Size).sum

def find (needle : List Char) : List Char → Option ℕ
  | [] => if needle = [] then some 0 else none
  | c :: text =>
    if needle.isPrefixOf (c :: text) then some 0 else (find needle text).map (· + 1)

def contains (needle text : List Char) : Bool := (find needle text).isSome

def rfind (c : Char) : List Char → Option ℕ
  | [] => none
  | d :: text =>
    match rfind c text with
    | some index => some (index + 1)
    | none => if d = c then some 0 else none

def stripPrefix (c : Char) : List Char → Option (List Char)
  | [] => none
  | d :: text => if d = c then some text else none

/-- `char::is_whitespace`. -/
def isWhitespace (c : Char) : Bool :=
  let n := c.toNat
  (decide (0x9 ≤ n) && decide (n ≤ 0xD)) || n = 0x20 || n = 0x85 || n = 0xA0 || n = 0x1680 ||
    (decide (0x2000 ≤ n) && decide (n ≤ 0x200A)) || n = 0x2028 || n = 0x2029 || n = 0x202F ||
    n = 0x205F || n = 0x3000

/-- `to_lowercase`, but for letters whose lower case is not ASCII: they are looked for nowhere. -/
def toLowercase (line : List Char) : List Char :=
  line.flatMap fun c =>
    if c.toNat = 0x130 then ['i', Char.ofNat 0x307]
    else if c.toNat = 0x212A then ['k']
    else [c.toLower]

def endsWithWhitespace (text : List Char) : Bool := text.getLast?.any isWhitespace

/-! ## Markers -/

def markerStart : Char := Char.ofNat 0x1e
def markerEnd : Char := Char.ofNat 0x1f
def markerPrefix : List Char := markerStart :: "ATOMIS_LOG:".toList
def maxPendingMarker : ℕ := 4096

structure LoopInfo where
  line : ℕ
  column : ℕ
  loopVariable : List Char
  value : List Char
deriving DecidableEq

structure ParsedMarker where
  start : ℕ
  stop : ℕ
  fileId : ℕ
  line : ℕ
  column : ℕ
  loopInfo : Option LoopInfo
deriving DecidableEq

/-- A `u32`. -/
def takeNumber (rest : List Char) : Option (ℕ × List Char) :=
  let digits := rest.takeWhile Char.isDigit
  if digits = [] then none
  else
    let number := Nat.ofDigitChars 10 digits 0
    if number < 2 ^ 32 then some (number, rest.drop digits.length) else none

def isAsciiAlphabetic (c : Char) : Bool := c.isAlpha

def nameChar (c : Char) : Bool := c.isAlphanum || c = '_'

def startsName (name : List Char) : Bool := name.head?.any fun c => isAsciiAlphabetic c || c = '_'

def parseBody (body : List Char) (start stop : ℕ) : Option ParsedMarker := do
  let (fileId, rest) ← takeNumber body
  let rest ← stripPrefix ':' rest
  let (line, rest) ← takeNumber rest
  let rest ← stripPrefix ':' rest
  let (column, rest) ← takeNumber rest
  match stripPrefix ':' rest with
  | some tail =>
    let (loopLine, tail) ← takeNumber tail
    let tail ← stripPrefix ':' tail
    let (loopColumn, tail) ← takeNumber tail
    let tail ← stripPrefix ':' tail
    let name := tail.takeWhile nameChar
    if startsName name then
      let value ← stripPrefix ':' (tail.drop name.length)
      some ⟨start, stop, fileId, line, column, some ⟨loopLine, loopColumn, name, value⟩⟩
    else none
  | none => if rest = [] then some ⟨start, stop, fileId, line, column, none⟩ else none

/-- The search goes on behind a prefix that starts no marker. No other prefix starts within one,
so it goes on at the next character. -/
def findMarkerFrom (start : ℕ) : List Char → Option ParsedMarker
  | [] => none
  | c :: text =>
    if markerPrefix.isPrefixOf (c :: text) then
      let rest := (c :: text).drop markerPrefix.length
      let body := rest.takeWhile (· ≠ markerEnd)
      if rest.contains markerEnd then
        match parseBody body start (start + markerPrefix.length + body.length + 1) with
        | some parsed => some parsed
        | none => findMarkerFrom (start + 1) text
      else none
    else findMarkerFrom (start + 1) text

def findMarker (buffer : List Char) : Option ParsedMarker := findMarkerFrom 0 buffer

/-! ## Panics and errors -/

/-- `thread 7 ` in front of `panic:`. -/
def threadPrefix (before : List Char) : Bool :=
  let trimmed := before.rdropWhile isWhitespace
  if trimmed.getLast?.any Char.isDigit then
    let digitsTrimmed := trimmed.dropLast.rdropWhile Char.isDigit
    let thread := "thread ".toList
    thread.isSuffixOf digitsTrimmed &&
      (decide (digitsTrimmed.length ≤ thread.length) ||
        endsWithWhitespace (digitsTrimmed.take (digitsTrimmed.length - thread.length)))
  else false

def isPanicLine (line : List Char) : Bool :=
  let lower := toLowercase line
  if contains "panicked at".toList lower ||
      contains "traceback (most recent call last)".toList lower then true
  else if (find "assertion ".toList lower).any fun index =>
      contains "failed".toList (lower.drop index) then true
  else
    match find "panic:".toList lower with
    | none => false
    | some index =>
      let before := lower.take index
      before.isEmpty || endsWithWhitespace before || threadPrefix before

def errorAfter (previous : Option Char) : List Char → Bool
  | [] => false
  | c :: text =>
    ("error:".toList.isPrefixOf (c :: text) && previous.all isWhitespace) ||
      errorAfter (some c) text

def lineHasError (line : List Char) : Bool := errorAfter none (toLowercase line)

/-! ## The parser -/

inductive Stream
  | stdout
  | stderr
deriving DecidableEq

inductive OutputCategory
  | program
  | error
deriving DecidableEq

structure LogSourceLocation where
  path : Option String
  line : ℕ
  column : ℕ
  executionIndex : ℕ
  loopInfo : Option LoopInfo
deriving DecidableEq

inductive Event
  | emit (text : List Char) (category : OutputCategory) (source : Option LogSourceLocation)
  | strip (text : List Char) (marker : ParsedMarker)
deriving DecidableEq

structure Parser where
  stream : Stream
  detectErrors : Bool
  fileIds : ℕ → Option String
  buffer : List Char
  stickyError : Bool
  logCounts : String → ℕ
  log : List Event

namespace Parser

def new (stream : Stream) (detectErrors : Bool) (fileIds : ℕ → Option String) : Parser where
  stream := stream
  detectErrors := detectErrors
  fileIds := fileIds
  buffer := []
  stickyError := false
  logCounts := fun _ => 0
  log := []

/-- Lines with their newlines: `/[^\n]*\n|[^\n]+/g`. -/
def lines : List Char → List (List Char)
  | [] => []
  | c :: text =>
    if c = '\n' then [c] :: lines text
    else
      match lines text with
      | [] => [[c]]
      | line :: rest => (c :: line) :: rest

def emitLine (location : Option LogSourceLocation) (s : Parser) (line : List Char) : Parser :=
  let sticky := s.stickyError || (s.detectErrors && isPanicLine line)
  let isError := s.detectErrors && (sticky || lineHasError line)
  { s with
    stickyError := sticky
    log := s.log ++ [.emit line (if isError then .error else .program)
      (if sticky then none else location)] }

def emitText (s : Parser) (text : List Char) (location : Option LogSourceLocation) : Parser :=
  (lines text).foldl (emitLine location) s

def countKey (path : Option String) (marker : ParsedMarker) : String :=
  path.getD "unknown" ++ ":" ++ toString marker.line ++ ":" ++ toString marker.column

def annotate (s : Parser) (marker : ParsedMarker) : Parser :=
  let path := s.fileIds marker.fileId
  let key := countKey path marker
  let executionIndex := s.logCounts key + 1
  let location : LogSourceLocation :=
    ⟨path, marker.line, marker.column, executionIndex, marker.loopInfo⟩
  let before := s.buffer.take marker.start
  let marked := (s.buffer.drop marker.start).take (marker.stop - marker.start)
  let rest := s.buffer.drop marker.stop
  let s := emitText { s with logCounts := Function.update s.logCounts key executionIndex }
    before (some location)
  { s with buffer := rest, log := s.log ++ [.strip marked marker] }

/-- The loop of `push`; every marker takes characters out, so the buffer's length is enough. -/
def takeMarkers : ℕ → Parser → Parser
  | 0, s => s
  | fuel + 1, s =>
    match findMarker s.buffer with
    | none => s
    | some marker => takeMarkers fuel (s.annotate marker)

def lineHoldback (buffer : List Char) : ℕ :=
  match rfind '\n' buffer with
  | none => 0
  | some last =>
    match rfind '\n' (buffer.take last) with
    | some previous => previous + 1
    | none => 0

/-- Where a marker that is still to be completed starts. -/
def markerHold (buffer : List Char) : ℕ :=
  match rfind markerStart buffer with
  | some index =>
    let pending := buffer.drop index
    if !pending.contains markerEnd && decide (utf8Len pending ≤ maxPendingMarker) then index
    else buffer.length
  | none => buffer.length

def emitUpTo (s : Parser) (hold : ℕ) : Parser :=
  if 0 < hold then emitText { s with buffer := s.buffer.drop hold } (s.buffer.take hold) none else s

def push (s : Parser) (chunk : List Char) : Parser :=
  let buffer := s.buffer ++ chunk
  let s := takeMarkers buffer.length { s with buffer := buffer }
  s.emitUpTo (min (lineHoldback s.buffer) (markerHold s.buffer))

def release (s : Parser) : Parser :=
  s.emitUpTo <|
    match rfind markerStart s.buffer with
    | some index => if !(s.buffer.drop index).contains markerEnd then index else s.buffer.length
    | none => s.buffer.length

def flush (s : Parser) : Parser := emitText { s with buffer := [] } s.buffer none

end Parser

end Atomis.Markers
