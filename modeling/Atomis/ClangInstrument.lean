import Atomis.Lib.SyntaxTree
import Atomis.ProbeId

/-!
# The C and C++ instrumenter

`cfamily/instrumenter/clive-instrument.mjs`: the visit of clang's JSON dump, the textual pass
over stream statements, and the splice. The visit reads locations as it goes; here they are
read first, in the same order.
-/

namespace Atomis.ClangInstrument

open Atomis.SyntaxTree Atomis.Instrument

/-! ## The dump -/

structure Spot where
  offset : Option ℕ
  file : Option String
  line : Option ℕ
  col : Option ℕ
  tokLen : Option ℕ
deriving DecidableEq

structure Location where
  spot : Spot
  spellingLoc : Option Spot
deriving DecidableEq

/-- `none` is an object without a kind. A variable may be implicit, as those of a range-for are,
and is automatic if it lives in a function's frame; `captures` are the explicit captures of a
lambda with no default one. -/
inductive Kind
  | none
  | ifStmt
  | switchStmt
  | lambdaExpr (captures : Option (List String))
  | cxxRecordDecl (closure : Bool)
  | forStmt
  | whileStmt
  | doStmt
  | cxxForRangeStmt
  | declStmt
  | varDecl (name : String) (hasInit implicit automatic : Bool)
  | parmVarDecl (name : String)
  | functionDecl (name : String)
  | compoundStmt
  | declRefExpr (name : String)
  | expr
  | other
deriving DecidableEq

structure JsonNode where
  kind : Kind
  loc : Option Location
  first : Option Location
  last : Option Location
deriving DecidableEq

abbrev Json := RoseTree JsonNode Unit

def Kind.isLoop : Kind → Bool
  | .forStmt | .whileStmt | .doStmt | .cxxForRangeStmt => true
  | _ => false

/-- The kinds whose declarations stand in a header. -/
def Kind.hasHeader (kind : Kind) : Bool :=
  kind = .ifStmt || kind = .switchStmt || kind.isLoop

/-- A kind that ends in `Expr` or `Operator`. -/
def Kind.isExpression : Kind → Bool
  | .expr | .declRefExpr _ | .lambdaExpr _ => true
  | _ => false

def Kind.isClosure : Kind → Bool
  | .lambdaExpr _ | .cxxRecordDecl _ => true
  | _ => false

/-! ## Locations -/

structure Options where
  inputPath : String
  inputName : String
  uri : String
  fileId : ℕ
  autoInspect : Bool
  manualIds : List String

structure Tracked where
  file : String
  line : ℕ
deriving DecidableEq

def track (s : Tracked) : Option Location → Option Spot × Tracked
  | some location =>
    let spot := location.spellingLoc.getD location.spot
    (some spot, ⟨spot.file.getD s.file, spot.line.getD s.line⟩)
  | Option.none => (Option.none, s)

def Options.inInput (o : Options) (s : Tracked) : Bool :=
  s.file = o.inputPath || s.file.endsWith ("/" ++ o.inputName)

structure SourceRange where
  first : ℕ
  firstLine : ℕ
  firstCol : ℕ
  last : ℕ
deriving DecidableEq

def rangeOf (s : Tracked) (node : JsonNode) : Option SourceRange × Tracked :=
  let (first, s) := track s node.first
  let firstLine := s.line
  let (last, s) := track s node.last
  (do
    let first ← first
    let last ← last
    let firstOffset ← first.offset
    let lastOffset ← last.offset
    return ⟨firstOffset, firstLine, first.col.getD 1, lastOffset + last.tokLen.getD 0⟩, s)

/-- A node as the visit has it. `line` is the line of the last location read, and `declared` has
the line, the column and the offset that are recorded for a declaration. -/
structure Node where
  kind : Kind
  range : Option SourceRange
  inMain : Bool
  line : ℕ
  declared : Option (ℕ × ℕ × ℕ)
deriving DecidableEq

abbrev Ast := RoseTree Node Unit

abbrev Place := Path Node Unit

def varDecls (children : Forest JsonNode Unit) : List (JsonNode × String) :=
  children.trees.filterMap fun child =>
    match child.kind.kind with
    | .varDecl name .. => some (child.kind, name)
    | _ => Option.none

/-- The variable that a declaration statement records. -/
def recordedDecl (children : Forest JsonNode Unit) : Option JsonNode :=
  match varDecls children with
  | (node, name) :: _ => if name = "" then Option.none else some node
  | [] => Option.none

/-- `parent` is the kind of the object the node is in. -/
def readNode (o : Options) (parent : Kind) (s : Tracked) (node : JsonNode)
    (children : Forest JsonNode Unit) : Node × Tracked :=
  if node.kind = .none then
    let (_, s) := track s node.loc
    (⟨.none, Option.none, o.inInput s, s.line, Option.none⟩, s)
  else
    let (range, s) := rangeOf s node
    let (_, s) := track s node.loc
    let inMain := o.inInput s
    let records := node.kind = .declStmt && inMain && range.isSome && !parent.hasHeader
    match records, recordedDecl children with
    | true, some varDecl =>
      let (loc, s') := track s varDecl.loc
      let declared := (s'.line, (loc.bind (·.col)).getD 1, (loc.bind (·.offset)).getD 0)
      (⟨node.kind, range, inMain, s.line, some declared⟩, s')
    | _, _ => (⟨node.kind, range, inMain, s.line, Option.none⟩, s)

mutual

def read (o : Options) (parent : Kind) (s : Tracked) : Json → Ast × Tracked
  | .node node children =>
    let (seen, s) := readNode o parent s node children
    let (children, s) := readAll o node.kind s children
    (.node seen children, s)

def readAll (o : Options) (parent : Kind) (s : Tracked) :
    Forest JsonNode Unit → Forest Node Unit × Tracked
  | .nil => (.nil, s)
  | .cons _ child rest =>
    let (child, s) := read o parent s child
    let (rest, s) := readAll o parent s rest
    (.cons () child rest, s)

end

/-! ## Patterns -/

/-- What `\s` matches. -/
def isSpace (c : Char) : Bool :=
  let n := c.toNat
  (9 ≤ n && n ≤ 13) || n = 0x20 || n = 0xA0 || n = 0x1680 || (0x2000 ≤ n && n ≤ 0x200A) ||
    n = 0x2028 || n = 0x2029 || n = 0x202F || n = 0x205F || n = 0x3000 || n = 0xFEFF

def isWord (c : Char) : Bool :=
  ('a' ≤ c && c ≤ 'z') || ('A' ≤ c && c ≤ 'Z') || ('0' ≤ c && c ≤ '9') || c = '_'

inductive Piece
  | text (word : String)
  | spaces
  | boundary

/-- The pattern matches where the text starts; `before` is the character before it. -/
def matchAt (before : Option Char) : List Piece → List Char → Bool
  | [], _ => true
  | .text word :: pieces, text =>
    word.toList.isPrefixOf text &&
      matchAt (word.toList.getLast?.or before) pieces (text.drop word.length)
  | .spaces :: pieces, text =>
    matchAt ((text.takeWhile isSpace).getLast?.or before) pieces (text.dropWhile isSpace)
  | .boundary :: pieces, text =>
    (before.any isWord != text.head?.any isWord) && matchAt before pieces text

def test (pieces : List Piece) (before : Option Char) : List Char → Bool
  | [] => matchAt before pieces []
  | c :: text => matchAt before pieces (c :: text) || test pieces (some c) text

def writesError (text : List Char) : Bool :=
  test [.boundary, .text "cerr", .boundary] Option.none text ||
    test [.text "fprintf", .spaces, .text "(", .spaces, .text "stderr"] Option.none text

def writesOutput (text : List Char) : Bool :=
  test [.boundary, .text "cout", .boundary] Option.none text ||
    test [.boundary, .text "printf", .spaces, .text "("] Option.none text ||
      test [.boundary, .text "puts", .spaces, .text "("] Option.none text

/-- The stream that a statement writes to. -/
def fdOf (text : List Char) : Option ℕ :=
  if writesError text then some 2 else if writesOutput text then some 1 else Option.none

def byteSlice (source : List Char) (range : SourceRange) : List Char :=
  Utf8.lossy (((Utf8.encode source).drop range.first).take (range.last - range.first))

/-! ## The visit -/

structure LoopMeta where
  line : ℕ
  column : ℕ
  loopVariable : String
deriving DecidableEq

inductive Snippet
  | probe (id : String) (line column : ℕ) (name : String)
  | marker (fd line column : ℕ) (loop : Option LoopMeta)
deriving DecidableEq

/-- `place` says which node the insertion is for. -/
structure Insertion where
  offset : ℕ
  snippet : Snippet
  place : Option Place
deriving DecidableEq

structure LoopRange where
  loop : LoopMeta
  firstLine : ℕ
  lastLine : ℕ
deriving DecidableEq

structure Collector where
  probes : List Probe
  insertions : List Insertion
  /-- The innermost loop first. -/
  loops : List LoopMeta
  loopRanges : List LoopRange
  markedLines : List ℕ

def Collector.new : Collector := ⟨[], [], [], [], []⟩

mutual

def firstDeclRefName : Ast → String
  | .node node children =>
    match node.kind with
    | .declRefExpr name => if name = "" then firstDeclRefNameIn children else name
    | _ => firstDeclRefNameIn children

def firstDeclRefNameIn : Forest Node Unit → String
  | .nil => ""
  | .cons _ child rest =>
    if firstDeclRefName child = "" then firstDeclRefNameIn rest else firstDeclRefName child

end

/-- The first variable with a name that a declaration statement declares. -/
def declaredName (child : Ast) : Option String :=
  if child.kind.kind = .declStmt then
    child.children.trees.findSome? fun inner =>
      match inner.kind.kind with
      | .varDecl name .. => if name = "" then Option.none else some name
      | _ => Option.none
  else Option.none

def loopVariable (children : Forest Node Unit) : String :=
  match children.trees.findSome? declaredName, children.trees.head? with
  | some name, _ => name
  | Option.none, some child => firstDeclRefName child
  | Option.none, Option.none => ""

def loopMeta (node : Node) (children : Forest Node Unit) : LoopMeta where
  line := (node.range.map (·.firstLine)).getD node.line
  column := (node.range.map (·.firstCol)).getD 1
  loopVariable := loopVariable children

def loopRange (node : Node) (children : Forest Node Unit) : Option LoopRange :=
  if node.inMain && node.range.isSome then
    some ⟨loopMeta node children, (loopMeta node children).line, node.line⟩
  else Option.none

/-- The kind of the object around a node that has one. -/
def parentKind (place : Place) : Option Kind :=
  (place.reverse.find? fun frame => frame.kind.kind ≠ .none).map (·.kind.kind)

/-- The text from the name on, or its last character. -/
def afterName (name : List Char) : List Char → List Char
  | [] => []
  | [c] => [c]
  | c :: text => if name.isPrefixOf (c :: text) then c :: text else afterName name text

def initialized (source : List Char) (range : SourceRange) (name : String) (hasInit : Bool) :
    Bool :=
  hasInit || (afterName name.toList (byteSlice source range)).any fun c => c ∈ ['=', '{', '(']

def recordProbe (o : Options) (place : Place) (range : SourceRange) (name : String)
    (declared : ℕ × ℕ × ℕ) (reason : Option String) (c : Collector) : Collector :=
  let (line, column, startByte) := declared
  let originalRange : Range :=
    ⟨line, column, line, column + name.length, startByte, startByte + name.length⟩
  let id := probeId "clive-v1" o.uri originalRange name
  let active := reason.isNone && (o.autoInspect || o.manualIds.contains id)
  { c with
    insertions := if active then
        c.insertions ++ [⟨range.last, .probe id line column name, some place⟩]
      else c.insertions
    probes := c.probes ++ [⟨id, name, reason.isNone, reason, originalRange,
      if active then some range.last else Option.none, if o.autoInspect then .auto else .manual⟩] }

def recordDecl (o : Options) (source : List Char) (place : Place) (node : Node)
    (children : Forest Node Unit) (c : Collector) : Collector :=
  let names := children.trees.filterMap fun child =>
    match child.kind.kind with
    | .varDecl name hasInit .. => some (name, hasInit)
    | _ => Option.none
  match node.declared, node.range, names with
  | some declared, some range, [(name, hasInit)] =>
    let reason := if initialized source range name hasInit then Option.none
      else some "declaration without initializer"
    recordProbe o place range name declared reason c
  | some declared, some range, (name, _) :: _ :: _ =>
    recordProbe o place range name declared (some "multiple declaration") c
  | _, _, _ => c

/-- The stream and the range of a statement that gets a marker. -/
def marked (source : List Char) (place : Place) (node : Node) : Option (ℕ × SourceRange) :=
  if parentKind place = some .compoundStmt && node.kind.isExpression && node.inMain then
    node.range.bind fun range => (fdOf (byteSlice source range)).map fun fd => (fd, range)
  else Option.none

/-- The loop that a marker names: the top of the stack, if it has a variable. -/
def named (loop : Option LoopMeta) : Option LoopMeta :=
  loop.filter fun loop => loop.loopVariable ≠ ""

def markStatement (source : List Char) (place : Place) (node : Node) (c : Collector) : Collector :=
  match marked source place node with
  | some (fd, range) =>
    { c with
      markedLines := c.markedLines ++ [range.firstLine]
      insertions := c.insertions ++ [⟨range.last,
        .marker fd range.firstLine range.firstCol (named c.loops.head?), some place⟩] }
  | Option.none => c

def visit (o : Options) (source : List Char) (place : Place) (node : Node)
    (children : Forest Node Unit) (visitChildren : Collector → Collector) (c : Collector) :
    Collector :=
  if node.kind = .none then visitChildren c
  else if node.kind.isClosure then
    let c' := visitChildren { c with loops := ⟨0, 0, ""⟩ :: c.loops }
    { c' with loops := c'.loops.drop (c'.loops.length - c.loops.length) }
  else if node.kind.isLoop then
    let c' := visitChildren { c with
      loops := loopMeta node children :: c.loops
      loopRanges := c.loopRanges ++ (loopRange node children).toList }
    { c' with loops := c'.loops.drop 1 }
  else visitChildren (markStatement source place node (recordDecl o source place node children c))

/-! ## The textual pass -/

inductive LexMode
  | code
  | blockComment
  | lineComment
  | string
  | char
  | raw (delimiter : List Char)
deriving DecidableEq

/-- The delimiter of the raw string that starts behind `R"`. -/
def rawDelimiter (text : List Char) : Option (List Char) :=
  let delimiter := text.takeWhile fun c => c ∉ [' ', '(', ')', '\\', '\t', '\x0b', '\x0c', '\n']
  if delimiter.length ≤ 16 && (text.drop delimiter.length).head? = some '(' then some delimiter
  else Option.none

/-- The mode behind a character, and how many characters are passed over. -/
def lexChar (mode : LexMode) (before : Option Char) (c : Char) (text : List Char) : LexMode × ℕ :=
  match mode with
  | .code =>
    if c = '/' && text.head? = some '/' then (.lineComment, 0)
    else if c = '/' && text.head? = some '*' then (.blockComment, 0)
    else if c = '"' then
      match (if before = some 'R' then rawDelimiter text else Option.none) with
      | some delimiter => (.raw ([')'] ++ delimiter ++ ['"']), delimiter.length + 1)
      | Option.none => (.string, 0)
    else if c = '\'' then (.char, 0)
    else (.code, 0)
  | .blockComment => if c = '*' && text.head? = some '/' then (.code, 1) else (.blockComment, 0)
  | .lineComment => (.lineComment, 0)
  | .string => if c = '\\' then (.string, 1) else if c = '"' then (.code, 0) else (.string, 0)
  | .char => if c = '\\' then (.char, 1) else if c = '\'' then (.code, 0) else (.char, 0)
  | .raw delimiter =>
    if delimiter.isPrefixOf (c :: text) then (.code, delimiter.length - 1)
    else (.raw delimiter, 0)

def lexNewline : LexMode → LexMode
  | .lineComment | .string | .char => .code
  | mode => mode

/-- The lines that begin inside of a raw string or a comment; `skip` characters are passed over. -/
def lexLines (mode : LexMode) (line : ℕ) (before : Option Char) (skip : ℕ) : List Char → List ℕ
  | [] => []
  | c :: text =>
    if 0 < skip then lexLines mode line (some c) (skip - 1) text
    else if c = '\n' then
      let mode := lexNewline mode
      (if mode = .code then [] else [line + 1]) ++ lexLines mode (line + 1) (some c) 0 text
    else
      let (mode, skip) := lexChar mode before c text
      lexLines mode line (some c) skip text

def linesInsideStringsOrComments (source : List Char) : List ℕ :=
  lexLines .code 1 Option.none 0 source

def dropWord? (word : String) (text : List Char) : Option (List Char) :=
  if word.toList.isPrefixOf text then some (text.drop word.length) else Option.none

def isLineEnd (c : Char) : Bool := c = '\n' || c = '\r' || c.toNat = 0x2028 || c.toNat = 0x2029

/-- The text behind `std ::`, if it is there. -/
def dropStd (text : List Char) : List Char :=
  (do
    let text ← dropWord? "std" text
    let text ← dropWord? "::" (text.dropWhile isSpace)
    return text.dropWhile isSpace : Option (List Char)).getD text

/-- The stream of a line that is one stream statement. -/
def streamLine (text : List Char) : Option ℕ := do
  let text := dropStd (text.dropWhile isSpace)
  let (fd, text) ← match dropWord? "cout" text, dropWord? "cerr" text with
    | some text, _ => some (1, text)
    | Option.none, some text => some (2, text)
    | Option.none, Option.none => Option.none
  let text ← dropWord? "<<" (text.dropWhile isSpace)
  let statement := (text.reverse.dropWhile isSpace).reverse
  if statement.getLast? = some ';' && !(statement.dropLast).any isLineEnd then some fd
  else Option.none

/-- The text before the last semicolon. -/
def beforeSemicolon (text : List Char) : List Char :=
  ((text.reverse.dropWhile (· ≠ ';')).drop 1).reverse

/-- A line that is one stream statement: the stream, the line, the column and the byte of its
semicolon. -/
structure StreamStatement where
  fd : ℕ
  line : ℕ
  column : ℕ
  offset : ℕ
deriving DecidableEq

def streamStatements (line offset : ℕ) : List (List Char) → List StreamStatement
  | [] => []
  | text :: lines =>
    ((streamLine text).map fun fd => ⟨fd, line, (text.takeWhile isSpace).length + 1,
      offset + (Utf8.encode (beforeSemicolon text)).length⟩ : Option StreamStatement).toList ++
      streamStatements (line + 1) (offset + (Utf8.encode text).length + 1) lines

/-- The last loop of the dump whose lines have the line. -/
def loopOver (loopRanges : List LoopRange) (line : ℕ) : Option LoopMeta :=
  let around := loopRanges.filter fun loop => loop.firstLine ≤ line && line ≤ loop.lastLine
  around.getLast?.map (·.loop)

/-- The stream statements that have no marker yet. -/
def unmarked (source : List Char) (markedLines : List ℕ) : List StreamStatement :=
  let inside := linesInsideStringsOrComments source
  (streamStatements 1 0 (source.splitOn '\n')).filter fun statement =>
    !markedLines.contains statement.line && !inside.contains statement.line

def streamMarkers (source : List Char) (c : Collector) : List Insertion :=
  (unmarked source c.markedLines).map fun statement => ⟨statement.offset, .marker statement.fd
    statement.line statement.column (named (loopOver c.loopRanges statement.line)), Option.none⟩

/-! ## The splice -/

def collect (o : Options) (source : List Char) (ast : Ast) : Collector :=
  let c := ast.visit (visit o source) [] .new
  { c with insertions := c.insertions ++ streamMarkers source c }

def quoted (text : String) : String := "\"" ++ text ++ "\""

def Snippet.text (fileId : ℕ) : Snippet → String
  | .probe id line column name =>
    " __atomis_probe(" ++ quoted id ++ ", " ++ toString line ++ ", " ++ toString column ++ ", " ++
      quoted name ++ ", " ++ name ++ ");"
  | .marker fd line column Option.none =>
    ", __atomis_log(" ++ toString fd ++ ", " ++ toString fileId ++ ", " ++ toString line ++ ", " ++
      toString column ++ ")"
  | .marker fd line column (some loop) =>
    ", __atomis_log_loop(" ++ toString fd ++ ", " ++ toString fileId ++ ", " ++ toString line ++
      ", " ++ toString column ++ ", " ++ toString loop.line ++ ", " ++ toString loop.column ++
        ", " ++ quoted loop.loopVariable ++ ", " ++ loop.loopVariable ++ ")"

def splice (fileId : ℕ) (generated : List UInt8) (insertion : Insertion) : List UInt8 :=
  if insertion.offset ≤ generated.length then
    generated.take insertion.offset ++ Utf8.encode (insertion.snippet.text fileId).toList ++
      generated.drop insertion.offset
  else generated

def generate (o : Options) (source : List Char) (insertions : List Insertion) : List Char :=
  Utf8.lossy ((insertions.mergeSort fun left right => right.offset ≤ left.offset).foldl
    (splice o.fileId) (Utf8.encode source))

/-- The dump as the visit has it. -/
def seen (o : Options) (dump : Json) : Ast := (read o .other ⟨"", 0⟩ dump).1

def instrument (o : Options) (source : List Char) (dump : Json) : List Char × List Probe :=
  let c := collect o source (seen o dump)
  let generated := generate o source c.insertions
  if source.count '\n' ≠ generated.count '\n' then (source, [])
  else (generated, c.probes)

end Atomis.ClangInstrument
