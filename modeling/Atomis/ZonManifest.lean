import Atomis.Lib.Zon
import Atomis.Ndjson

/-!
# The Zig manifest

`build.zig.zon` with its layout, and the three functions that read or edit it: `deps.rs` lists
and removes dependencies line by line, and the compile server looks for words.
-/

namespace Atomis.ZonManifest
open Ndjson Zon

/-! ## The manifest -/

abbrev Entry := FieldInit (Block (FieldInit Value))

inductive Top
  | dependencies (f : FieldInit (Block Entry))
  | other (f : FieldInit Value)

def Top.name : Top → Name
  | dependencies f => f.name
  | other f => f.name

def Entry.text (entry : Entry) : List Char :=
  FieldInit.text (Block.text (FieldInit.text Value.text)) entry

def Top.text : Top → List Char
  | dependencies f => FieldInit.text (Block.text Entry.text) f
  | other f => FieldInit.text Value.text f

def dependenciesName : List Char := "dependencies".toList

/-- The field `dependencies` is a struct of structs, and no struct has a field twice. -/
def Top.Proper : Top → Prop
  | dependencies f => f.name.spelling = dependenciesName ∧
      (f.value.items.map fun entry : Entry => entry.name.spelling).Nodup ∧
      ∀ entry ∈ f.value.items, (entry.value.items.map (·.name.spelling)).Nodup
  | other f => f.name.spelling ≠ dependenciesName

/-- What follows the last brace: a comment there need not end. -/
structure Tail where
  gap : Gap
  comment : Option { line : List Char // '\n' ∉ line }

def Tail.text (tail : Tail) : List Char :=
  tail.gap.text ++ ((tail.comment.map fun line => '/' :: '/' :: line.val).getD [])

structure Manifest where
  head : Gap
  root : Block Top
  tail : Tail
  distinct : (root.items.map fun item : Top => item.name.spelling).Nodup
  proper : ∀ item ∈ root.items, item.Proper

namespace Manifest

def text (m : Manifest) : List Char := m.head.text ++ m.root.text Top.text ++ m.tail.text

def entries (m : Manifest) : List Entry :=
  m.root.items.flatMap fun | .dependencies f => f.value.items | .other _ => []

def names (m : Manifest) : List (List Char) := m.entries.map (·.name.spelling)

end Manifest

/-! ## Pieces of a text -/

def stripReturn (line : List Char) : List Char :=
  if line.getLast? = some '\r' then line.dropLast else line

/-- `str::lines` -/
def lines (text : List Char) : List (List Char) :=
  (Lines.split '\n' [] text).1.map stripReturn ++
    if (Lines.split '\n' [] text).2 = [] then [] else [(Lines.split '\n' [] text).2]

/-- The text from the first place where `word` stands. -/
def findFrom (word : List Char) : List Char → Option (List Char)
  | [] => if word = [] then some [] else none
  | c :: text => if word.isPrefixOf (c :: text) then some (c :: text) else findFrom word text

/-- The second piece of a text that is split at `sep`. -/
def secondPiece (sep : Char) (text : List Char) : Option (List Char) :=
  match text.dropWhile (· ≠ sep) with
  | [] => none
  | _ :: rest => some (rest.takeWhile (· ≠ sep))

structure Dependency where
  name : List Char
  version : List Char
deriving DecidableEq

/-- The middle field of a hash. -/
def hashVersion (hash : List Char) : List Char := (secondPiece '-' hash).getD []

/-- The version of a dependency, from the string in its field `hash`. -/
def versionOf (entry : Entry) : List Char :=
  match entry.value.items.find? (·.name.spelling = "hash".toList) with
  | some f => hashVersion ((secondPiece '"' f.value.text).getD [])
  | none => []

def Manifest.dependencies (m : Manifest) : List Dependency :=
  m.entries.map fun entry => ⟨entry.name.spelling, versionOf entry⟩

/-! ## Listing -/

def dependenciesWord : List Char := ".dependencies".toList

/-- The name in a line that opens an entry: `.name = .{`. -/
def openerName (trimmed : List Char) : Option (List Char) :=
  match trimmed with
  | '.' :: rest =>
    let name := trim (rest.takeWhile (· ≠ '='))
    if name ≠ [] ∧ ".\x7b".toList.isSuffixOf trimmed then some name else none
  | _ => none

def closes (trimmed : List Char) : Bool := ['}'].isPrefixOf trimmed

def lineVersion (trimmed : List Char) : Option (List Char) :=
  if ".hash".toList.isPrefixOf trimmed then
    (secondPiece '"' (trimmed.drop ".hash".length)).map hashVersion
  else none

/-- The first entry of that name gets the version. -/
def setVersion (name version : List Char) : List Dependency → List Dependency
  | [] => []
  | entry :: found =>
    if entry.name = name then { entry with version } :: found
    else entry :: setVersion name version found

structure Scan where
  depth : ℕ := 0
  current : Option (List Char) := none
  found : List Dependency := []

/-- The loop of `parseBuildZon`. -/
def scan (state : Scan) : List (List Char) → List Dependency
  | [] => state.found
  | line :: lines =>
    let trimmed := trim line
    if state.depth = 0 then
      match openerName trimmed with
      | some name => scan
          { depth := 1, current := some name, found := state.found ++ [⟨name, []⟩] } lines
      | none => if closes trimmed then state.found else scan state lines
    else if closes trimmed then scan { state with depth := 0, current := none } lines
    else
      match state.current, lineVersion trimmed with
      | some name, some version =>
        scan { state with found := setVersion name version state.found } lines
      | _, _ => scan state lines

def parseBuildZon (text : List Char) : List Dependency :=
  match findFrom dependenciesWord text with
  | none => []
  | some rest => scan {} ((lines rest).drop 1)

/-! ## Removing -/

/-- Where a line is read to: in a string or not, and behind a backslash or not. -/
structure Quoting where
  inString : Bool := false
  escaped : Bool := false
  opens : ℕ := 0
  closes : ℕ := 0

def Quoting.next (q : Quoting) (c : Char) : Quoting :=
  if q.escaped then { q with escaped := false }
  else if c = '\\' ∧ q.inString then { q with escaped := true }
  else if c = '"' then { q with inString := !q.inString }
  else if c = '{' ∧ !q.inString then { q with opens := q.opens + 1 }
  else if c = '}' ∧ !q.inString then { q with closes := q.closes + 1 }
  else q

def bracesOutsideStrings (line : List Char) : ℕ × ℕ :=
  let q := line.foldl Quoting.next {}
  (q.opens, q.closes)

def openerText (name : List Char) : List Char := '.' :: name ++ " = .\x7b".toList

structure Edit where
  out : List Char := []
  skipping : Bool := false
  removed : Bool := false
  depth : ℤ := 0

/-- One line of the loop of `zonWithout`. -/
def Edit.next (opener : List Char) (edit : Edit) (line : List Char) : Edit :=
  if !edit.skipping ∧ opener.isPrefixOf (trim line) then
    { edit with skipping := true, removed := true, depth := 1 }
  else if edit.skipping then
    let (opens, closes) := bracesOutsideStrings line
    let depth := edit.depth + opens - closes
    { edit with depth, skipping := 0 < depth }
  else { edit with out := edit.out ++ line ++ ['\n'] }

def zonWithout (text name : List Char) : Option (List Char) :=
  let edit := (lines text).foldl (Edit.next (openerText name)) {}
  if edit.removed then some edit.out else none

/-! ## The compile server -/

/-- The text behind the first place where `word` stands. -/
def splitOnce (word text : List Char) : Option (List Char) :=
  (findFrom word text).map (·.drop word.length)

def contains (word text : List Char) : Bool := (findFrom word text).isSome

def packageWords : List (List Char) := [".url".toList, ".path".toList, ".hash".toList]

def declaresDependencies (manifest : List Char) : Bool :=
  (splitOnce dependenciesWord manifest).any fun rest => packageWords.any (contains · rest)

end Atomis.ZonManifest
