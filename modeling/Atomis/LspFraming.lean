import Atomis.Ndjson

/-!
# Framing a language server's messages

A message is a header, which names the length of its body, an empty line and the body. The
framer takes the bytes of the server as the pipe cuts them: `expectedBody` is set between a
header and its body. Its loop returns at the first error with none of the messages that the
same call has already read.
-/

namespace Atomis.Lsp
open Utf8 Ndjson

def maxLspMessage : ℕ := 8 * 1024 * 1024

structure Framer where
  buffer : List UInt8 := []
  expectedBody : Option ℕ := none
deriving DecidableEq

def terminator : List UInt8 := [13, 10, 13, 10]

def findHeaderEnd : List UInt8 → Option ℕ
  | [] => none
  | b :: bytes =>
    if terminator.isPrefixOf (b :: bytes) then some 0 else (findHeaderEnd bytes).map (· + 1)

/-- `str::split("\r\n")`, `line` already read. -/
def splitCrlf (line : List Char) : List Char → List (List Char)
  | '\r' :: '\n' :: text => line :: splitCrlf [] text
  | c :: text => splitCrlf (line ++ [c]) text
  | [] => [line]

def trim (text : List Char) : List Char :=
  ((text.dropWhile isWhitespace).reverse.dropWhile isWhitespace).reverse

/-- `str::parse::<usize>` -/
def parseUsize (raw : List Char) : Option ℕ :=
  let digits := match raw with
    | '+' :: digits => digits
    | _ => raw
  if digits ≠ [] ∧ digits.all Char.isDigit ∧ Nat.ofDigitChars 10 digits 0 < 2 ^ 64 then
    some (Nat.ofDigitChars 10 digits 0)
  else none

def contentLengthKey : List Char := "content-length:".toList

/-- The length a header names. No letter outside ASCII has one of the key in its lower case. -/
def contentLength (header : List Char) : Except String ℕ :=
  match (splitCrlf [] header).filter
      fun line => contentLengthKey.isPrefixOf (line.map Char.toLower) with
  | [line] =>
    let raw := trim ((line.splitOn ':')[1]?.getD [])
    match parseUsize raw with
    | none => .error "Invalid LSP Content-Length"
    | some length =>
      if length = 0 ∨ maxLspMessage < length then
        .error ("LSP body length " ++ String.ofList raw ++ " is outside the limit")
      else .ok length
  | _ => .error "LSP frame must contain one Content-Length header"

/-- One turn of the loop of `push`. -/
inductive Step (V : Type)
  | wait (framer : Framer)
  | next (framer : Framer) (message : V)
  | fail (framer : Framer) (error : String)
deriving DecidableEq

namespace Framer

-- `decode` is `serde_json::from_slice`.
variable {V : Type} (decode : List UInt8 → Except String V)

def body (buffer : List UInt8) (expected : ℕ) : Step V :=
  if buffer.length < expected then .wait ⟨buffer, some expected⟩
  else
    match decode (buffer.take expected) with
    | .ok value => .next ⟨buffer.drop expected, none⟩ value
    | .error error => .fail ⟨buffer.drop expected, none⟩ ("Invalid LSP JSON: " ++ error)

def step (framer : Framer) : Step V :=
  match framer.expectedBody with
  | some expected => body decode framer.buffer expected
  | none =>
    match findHeaderEnd framer.buffer with
    | none =>
      if 8192 < framer.buffer.length then .fail framer "LSP header exceeds 8 KiB"
      else .wait framer
    | some position =>
      match contentLength (lossy (framer.buffer.take position)) with
      | .error error => .fail ⟨framer.buffer.drop (position + 4), none⟩ error
      | .ok length => body decode (framer.buffer.drop (position + 4)) length

def drain : ℕ → Framer → Framer × Except String (List V)
  | 0, framer => (framer, .ok [])
  | fuel + 1, framer =>
    match step decode framer with
    | .wait framer => (framer, .ok [])
    | .fail framer error => (framer, .error error)
    | .next framer message =>
      ((drain fuel framer).1, (drain fuel framer).2.map (message :: ·))

/-- Each message takes at least one byte off the buffer. -/
def push (framer : Framer) (chunk : List UInt8) : Framer × Except String (List V) :=
  let buffer := framer.buffer ++ chunk
  drain decode (buffer.length + 1) { framer with buffer }

end Framer

/-- What the proxy's reader has forwarded when the chunks are all read, or at an error. -/
structure Received (V : Type) where
  messages : List V
  framer : Framer
  error : Option String
deriving DecidableEq

def receive {V : Type} (decode : List UInt8 → Except String V) (framer : Framer) :
    List (List UInt8) → Received V
  | [] => ⟨[], framer, none⟩
  | chunk :: chunks =>
    match framer.push decode chunk with
    | (framer, .error error) => ⟨[], framer, some error⟩
    | (framer, .ok messages) =>
      { receive decode framer chunks with
        messages := messages ++ (receive decode framer chunks).messages }

/-- `encode` is `serde_json::to_vec`. -/
def frame {V : Type} (encode : V → List UInt8) (message : V) : List UInt8 :=
  Utf8.encode ("Content-Length: ".toList ++ Nat.toDigits 10 (encode message).length ++
    "\r\n\r\n".toList) ++ encode message

/-! ## The end of a header -/

section HeaderEnd

variable {bytes left right : List UInt8} {position : ℕ}

theorem length_of_findHeaderEnd (h : findHeaderEnd bytes = some position) :
    position + 4 ≤ bytes.length := by
  induction bytes generalizing position with
  | nil => cases h
  | cons b bytes ih =>
    rw [findHeaderEnd] at h
    split_ifs at h with hprefix
    · cases h
      exact (List.isPrefixOf_iff_prefix.mp hprefix).length_le
    · obtain ⟨rest, hrest, rfl⟩ := Option.map_eq_some_iff.mp h
      have := ih hrest
      simp only [List.length_cons]
      omega

theorem isPrefixOf_append_iff (hlength : 4 ≤ left.length) (right : List UInt8) :
    terminator.isPrefixOf (left ++ right) = terminator.isPrefixOf left := by
  rw [Bool.eq_iff_iff, List.isPrefixOf_iff_prefix, List.isPrefixOf_iff_prefix]
  exact ⟨fun h => List.prefix_of_prefix_length_le h (List.prefix_append left right) hlength,
    fun h => h.trans (List.prefix_append left right)⟩

theorem findHeaderEnd_append (h : findHeaderEnd left = some position) (right : List UInt8) :
    findHeaderEnd (left ++ right) = some position := by
  induction left generalizing position with
  | nil => cases h
  | cons b left ih =>
    have hlength := length_of_findHeaderEnd h
    rw [List.cons_append, findHeaderEnd, ← List.cons_append,
      isPrefixOf_append_iff (by omega)]
    rw [findHeaderEnd] at h
    split_ifs at h ⊢ with hprefix
    · exact h
    · obtain ⟨rest, hrest, rfl⟩ := Option.map_eq_some_iff.mp h
      rw [ih hrest]
      rfl

/-- A prefix holds the end of the header exactly when it is long enough. -/
theorem findHeaderEnd_of_append (h : findHeaderEnd (left ++ right) = some position) :
    findHeaderEnd left = if position + 4 ≤ left.length then some position else none := by
  induction left generalizing position with
  | nil => simp [findHeaderEnd]
  | cons b left ih =>
    rw [List.cons_append, findHeaderEnd, ← List.cons_append] at h
    rw [findHeaderEnd]
    by_cases hlength : 4 ≤ (b :: left).length
    · rw [isPrefixOf_append_iff hlength] at h
      by_cases hprefix : terminator.isPrefixOf (b :: left)
      · rw [if_pos hprefix] at h ⊢
        cases h
        rw [if_pos hlength]
      · rw [if_neg hprefix] at h ⊢
        obtain ⟨rest, hrest, rfl⟩ := Option.map_eq_some_iff.mp h
        have hiff : rest + 1 + 4 ≤ (b :: left).length ↔ rest + 4 ≤ left.length := by
          rw [List.length_cons]
          omega
        rw [ih hrest]
        simp only [hiff]
        split_ifs <;> rfl
    · have hshort : ¬terminator.isPrefixOf (b :: left) := fun hprefix =>
        hlength (List.isPrefixOf_iff_prefix.mp hprefix).length_le
      have hnone : findHeaderEnd left = none := by
        cases hleft : findHeaderEnd left with
        | none => rfl
        | some rest =>
          have := length_of_findHeaderEnd hleft
          simp only [List.length_cons] at hlength
          omega
      rw [if_neg hshort, hnone, if_neg (by omega)]
      rfl

theorem findHeaderEnd_of_none (h : findHeaderEnd (left ++ right) = none) :
    findHeaderEnd left = none := by
  cases hleft : findHeaderEnd left with
  | none => rfl
  | some position =>
    rw [findHeaderEnd_append hleft] at h
    cases h

end HeaderEnd

end Atomis.Lsp
