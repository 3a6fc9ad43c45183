import Mathlib.Data.List.Basic
import Mathlib.Tactic.Common

/-!
# Go source files up to their imports

The concrete syntax of a file of the language as far as its import declarations go, with its
layout: between two tokens stands a gap of blanks, line ends and comments. A line end behind a
name, a string or a parenthesis is a semicolon, and a comment over several lines counts as one.
Behind the imports stands any text.
-/

namespace Atomis.GoSource

/-- The quote of a raw string. -/
def backquote : Char := Char.ofNat 0x60

inductive Piece
  | blank (c : Char) (valid : c ∈ [' ', '\t', '\r'])
  | newline
  | line (text : List Char) (valid : '\n' ∉ text)
  | general (text : List Char) (valid : ¬ ['*', '/'] <:+: text)

def Piece.text : Piece → List Char
  | blank c _ => [c]
  | newline => ['\n']
  | line text _ => '/' :: '/' :: text ++ ['\n']
  | general text _ => '/' :: '*' :: text ++ ['*', '/']

/-- Whether a piece of layout ends the line. -/
def Piece.breaks (piece : Piece) : Bool := piece.text.contains '\n'

abbrev Gap := List Piece

def Gap.text (gap : Gap) : List Char := gap.flatMap Piece.text

def Gap.breaks (gap : Gap) : Bool := gap.any Piece.breaks

/-- A gap that stays in its line. -/
structure Stay where
  gap : Gap
  stays : gap.breaks = false

/-! ## Strings -/

/-- The value of a digit, sixteen for anything else. -/
def digitValue (c : Char) : ℕ :=
  if c.isDigit then c.toNat - 48
  else if 'a' ≤ c ∧ c ≤ 'f' then c.toNat - 87
  else if 'A' ≤ c ∧ c ≤ 'F' then c.toNat - 55
  else 16

def number (base : ℕ) (digits : List Char) : Option ℕ :=
  if digits.all (digitValue · < base) then
    some (digits.foldl (fun n c => base * n + digitValue c) 0)
  else none

def byteEscape (base length : ℕ) (digits : List Char) : Option (List UInt8) :=
  if digits.length = length then
    (number base digits).bind fun n => if n < 256 then some [UInt8.ofNat n] else none
  else none

def runeEscape (length : ℕ) (digits : List Char) : Option (List UInt8) :=
  if digits.length = length then
    (number 16 digits).bind fun n =>
      if n.isValidChar then some (String.utf8EncodeChar (Char.ofNat n)) else none
  else none

/-- What a backslash and the characters behind it stand for; no import path has a control
character, a quote or a backslash in it. -/
def escapeBytes : List Char → Option (List UInt8)
  | 'x' :: digits => byteEscape 16 2 digits
  | 'u' :: digits => runeEscape 4 digits
  | 'U' :: digits => runeEscape 8 digits
  | digits => byteEscape 8 3 digits

inductive Element
  | plain (c : Char) (valid : c ≠ '"' ∧ c ≠ '\\' ∧ c ≠ '\n')
  | escape (spelling : List Char) (bytes : List UInt8) (valid : escapeBytes spelling = some bytes)

def Element.text : Element → List Char
  | plain c _ => [c]
  | escape spelling _ _ => '\\' :: spelling

def Element.bytes : Element → List UInt8
  | plain c _ => String.utf8EncodeChar c
  | escape _ bytes _ => bytes

inductive Literal
  | interpreted (elements : List Element)
  | raw (text : List Char) (valid : backquote ∉ text)

def Literal.text : Literal → List Char
  | interpreted elements => '"' :: elements.flatMap Element.text ++ ['"']
  | raw text _ => backquote :: text ++ [backquote]

/-- Carriage returns in a raw string do not count. -/
def Literal.bytes : Literal → List UInt8
  | interpreted elements => elements.flatMap Element.bytes
  | raw text _ => (text.filter (· ≠ '\r')).flatMap String.utf8EncodeChar

/-! ## Declarations -/

def isNameStart (c : Char) : Bool := c.isAlpha || c = '_' || 128 ≤ c.toNat

def isNamePart (c : Char) : Bool := isNameStart c || c.isDigit

def isName : List Char → Bool
  | [] => false
  | c :: text => isNameStart c && text.all isNamePart

/-- The name in front of an import path: an identifier, which may be the blank one, or a dot. -/
inductive Alias
  | name (ident : List Char) (valid : isName ident) (gap : Stay)
  | dot (gap : Gap)

def Alias.text : Alias → List Char
  | name ident _ gap => ident ++ gap.gap.text
  | dot gap => '.' :: gap.text

structure Spec where
  localName : Option Alias
  literal : Literal
  path : List Char
  spells : literal.bytes = path.flatMap String.utf8EncodeChar
  ne_nil : path ≠ []

def Spec.text (spec : Spec) : List Char :=
  ((spec.localName.map Alias.text).getD []) ++ spec.literal.text

/-- Whether an identifier comes first, which must not touch the keyword. -/
def Spec.startsWithName (spec : Spec) : Bool :=
  match spec.localName with
  | some (.name ..) => true
  | _ => false

/-- A semicolon, written or at the end of a line. -/
inductive End
  | semicolon (before : Stay) (after : Gap)
  | newline (gap : Gap) (breaks : gap.breaks = true)

def End.text : End → List Char
  | semicolon before after => before.gap.text ++ ';' :: after.text
  | newline gap _ => gap.text

inductive Decl
  | single (gap : Gap) (spec : Spec) (apart : spec.startsWithName = true → gap ≠ [])
  | block (gap inside : Gap) (specs : List (Spec × End)) (last : Option (Spec × Stay))

def Decl.specs : Decl → List Spec
  | single _ spec _ => [spec]
  | block _ _ specs last => specs.map Prod.fst ++ (last.map Prod.fst).toList

def importWord : List Char := "import".toList

def Decl.text : Decl → List Char
  | single gap spec _ => importWord ++ gap.text ++ spec.text
  | block gap inside specs last =>
    importWord ++ gap.text ++ '(' :: inside.text ++
      specs.flatMap (fun (spec, stop) => spec.text ++ stop.text) ++
      ((last.map fun (spec, stay) => spec.text ++ stay.gap.text).getD []) ++ [')']

/-- What follows the declarations that end in a semicolon: other declarations, or a last import
at the end of the file, with a line comment that need not end. -/
inductive Rest
  | other (text : List Char) (valid : text.head?.all isNameStart = true ∧ ¬ importWord <+: text)
  | last (decl : Decl) (gap : Stay) (comment : Option { line : List Char // '\n' ∉ line })

def Rest.decls : Rest → List Decl
  | other .. => []
  | last decl _ _ => [decl]

def Rest.text : Rest → List Char
  | other text _ => text
  | last decl gap comment => decl.text ++ gap.gap.text ++
      ((comment.map fun line => '/' :: '/' :: line.val).getD [])

/-- A file, with or without a byte order mark. -/
structure File where
  mark : Bool
  head : Gap
  gap : Gap
  apart : gap ≠ []
  package : List Char
  valid : isName package
  stop : End
  imports : List (Decl × End)
  rest : Rest

namespace File

def decls (file : File) : List Decl := file.imports.map Prod.fst ++ file.rest.decls

def text (file : File) : List Char :=
  (if file.mark then [Char.ofNat 0xFEFF] else []) ++ file.head.text ++ "package".toList ++
    file.gap.text ++ file.package ++ file.stop.text ++
    file.imports.flatMap (fun (decl, stop) => decl.text ++ stop.text) ++ file.rest.text

/-- The import paths of a file. -/
def paths (file : File) : List (List Char) := (file.decls.flatMap Decl.specs).map Spec.path

theorem path_ne_nil {file : File} {path : List Char} (h : path ∈ file.paths) : path ≠ [] := by
  obtain ⟨spec, -, rfl⟩ := List.mem_map.mp h
  exact spec.ne_nil

end File

end Atomis.GoSource
