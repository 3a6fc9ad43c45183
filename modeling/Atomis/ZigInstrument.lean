import Atomis.Lib.SyntaxTree
import Atomis.ProbeId

/-!
# The Zig instrumenter

`zig/instrumenter/src/AstAdapter.zig`: the probes, log markers and commented discards of a
parsed file. Text is a list of bytes. `std.zig.Ast` keeps its nodes in one array; here they
are the nodes of a tree, each with the bytes from its first token to its last, and a node is
named by its place. The hash that names a probe is a parameter.
-/

namespace Atomis.ZigInstrument

open Atomis.SyntaxTree

abbrev Bytes := List UInt8

def bytes (text : String) : Bytes := Utf8.encode text.toList

def decimal (n : ℕ) : Bytes := bytes (toString n)

/-! ## Syntax -/

inductive Field
  | member
  | part
  | stmt
  | init
  | lhs
  | rhs
  | callee
  | body
  | cont
  | orElse
deriving DecidableEq

/-- `outer` says that the body of the loop may read the identifier: it is a capture or a name from
outside of the loop, not a label, a field or a name of the condition's own. -/
inductive Token
  | identifier (text : Bytes) (outer : Bool)
  | other (text : Bytes)
deriving DecidableEq

def Token.slice : Token → Bytes
  | .identifier text _ => text
  | .other text => text

structure VarDecl where
  isGlobal : Bool
  comptimeToken : Bool
  name : Bytes
  firstByte : ℕ
deriving DecidableEq

/-- `forLoop` has the tokens of its payload; `whileLoop` those of its payload and continuation,
where it has them, and of its condition. `capture` is a node that names values for its body or
its else branch. The declarations of an `assignDestructure` are its `part`s. A container or
function that is an initializer is one of `container`, `fnDecl` and `fnProto`. -/
inductive Tag
  | root
  | container
  | fnDecl (name : Bytes) (params : List Bytes)
  | fnProto
  | comptime
  | block
  | varDecl (declaration : VarDecl)
  | assign
  | assignOp
  | assignDestructure
  | identifier (name : Bytes)
  | call
  | fieldAccess (name : Bytes)
  | try
  | catch (payload : List Bytes)
  | grouped
  | forLoop (token : ℕ) (payload : List Token)
  | whileLoop (token : ℕ) (payload cont : Option (List Token)) (cond : List Token)
    (elsePayload : List Bytes)
  | capture (payload elsePayload : List Bytes)
  | other
deriving DecidableEq

/-- `semicolon` is the end of the semicolon right behind the node. -/
structure Node where
  tag : Tag
  first : ℕ
  last : ℕ
  semicolon : Option ℕ
deriving DecidableEq

abbrev Syntax := RoseTree Node Field

abbrev Place := Path Node Field

abbrev Occurrence := Place × Syntax

/-- A parsed file: its text and its nodes. -/
structure Ast where
  source : Bytes
  tree : Syntax

def Ast.nodes (ast : Ast) : List Occurrence := ast.tree.occurrences []

/-! ## Places -/

/-- `utf8ByteSequenceLength`, 1 where there is none. -/
def sequenceLength (byte : UInt8) : ℕ :=
  if 0xC0 ≤ byte ∧ byte < 0xE0 then 2 else if 0xE0 ≤ byte ∧ byte < 0xF0 then 3
  else if 0xF0 ≤ byte ∧ byte < 0xF8 then 4 else 1

/-- `left` bytes are left, and `skip` of them are the rest of a character. -/
def positionFrom (line column skip : ℕ) : ℕ → Bytes → ℕ × ℕ
  | 0, _ | _, [] => (line, column)
  | left + 1, byte :: rest =>
    if 0 < skip then positionFrom line column (skip - 1) left rest
    else if byte = 10 then positionFrom (line + 1) 1 0 left rest
    else positionFrom line (column + 1) (sequenceLength byte - 1) left rest

/-- The line and the column of a byte; a column counts characters. -/
def position (source : Bytes) (offset : ℕ) : ℕ × ℕ := positionFrom 1 1 0 offset source

def isRoot (place : Place) : Bool :=
  match place with
  | [frame] => frame.kind.tag = .root
  | _ => false

def within (inner outer : Node) : Bool := outer.first ≤ inner.first && inner.last ≤ outer.last

def Ast.inComptime (ast : Ast) (node : Node) : Bool :=
  ast.nodes.any fun p => p.2.kind.tag = .comptime && within node p.2.kind

def isLogCallee (name : Bytes) : Bool :=
  name = bytes "std.debug.print" ||
    ["std.log.debug", "std.log.info", "std.log.warn", "std.log.err"].any fun c => name = bytes c

def isDirectBlockStatement (place : Place) : Bool :=
  place.getLast?.any fun frame => frame.kind.tag = .block && frame.field = .stmt

def Tag.isLoop : Tag → Bool
  | .forLoop .. | .whileLoop .. => true
  | _ => false

def isDirectLoopBody (place : Place) : Bool :=
  place.getLast?.any fun frame => frame.kind.tag.isLoop && frame.field = .body

/-- The shortest of some spans, the first of those. -/
def shortest {α : Type} (spans : List (ℕ × α)) : Option (ℕ × α) :=
  spans.foldl (fun best span =>
    match best with
    | some best => if best.1 ≤ span.1 then some best else some span
    | none => some span) none

/-- The bytes of the innermost function around a node. -/
def Ast.enclosingFunctionSpan (ast : Ast) (node : Node) : Option Node :=
  (shortest (ast.nodes.filterMap fun p =>
    match p.2.kind.tag with
    | .fnDecl .. =>
      if within node p.2.kind then some (p.2.kind.last - p.2.kind.first, p.2.kind) else none
    | _ => none)).map (·.2)

structure LoopContext where
  line : ℕ
  column : ℕ
  loopVariable : Bytes
deriving DecidableEq

def isAlphabetic (byte : UInt8) : Bool :=
  (0x41 ≤ byte && byte ≤ 0x5A) || (0x61 ≤ byte && byte ≤ 0x7A)

def isAlphanumeric (byte : UInt8) : Bool := isAlphabetic byte || (0x30 ≤ byte && byte ≤ 0x39)

def underscore : UInt8 := 0x5F

def plainIdentifier (value : Bytes) : Bool :=
  match value with
  | [] => false
  | byte :: rest =>
    (isAlphabetic byte || byte = underscore) &&
      (rest.all fun byte => isAlphanumeric byte || byte = underscore) && value ≠ [underscore]

def Token.isPlain : Token → Bool
  | .identifier text _ => plainIdentifier text
  | .other _ => false

def lastPayloadIdentifier (payload : List Token) : Option Token :=
  (payload.filter Token.isPlain).getLast?

def firstNodeIdentifier (tokens : List Token) : Option Token :=
  (tokens.filter Token.isPlain).head?

/-- The keyword of a loop and the identifier it is shown with. -/
def Tag.loop : Tag → Option (ℕ × Option Token)
  | .forLoop token payload => some (token, lastPayloadIdentifier payload)
  | .whileLoop token payload cont cond _ =>
    some (token, match payload, cont with
      | some payload, _ => lastPayloadIdentifier payload
      | none, some cont => firstNodeIdentifier cont
      | none, none => firstNodeIdentifier cond)
  | _ => none

/-- A loop whose body has the node, with the length of the body. -/
def loopAround (source : Bytes) (node : Node) (t : Syntax) : Option (ℕ × LoopContext) := do
  let (token, loopVariable) ← t.kind.tag.loop
  let body ← t.children.get? .body
  let loopVariable ← loopVariable
  if within node body.kind then
    let (line, column) := position source token
    some (body.kind.last - body.kind.first, ⟨line, column, loopVariable.slice⟩)
  else none

def Ast.enclosingLoop (ast : Ast) (node : Node) : Option LoopContext :=
  (shortest (ast.nodes.filterMap fun p => loopAround ast.source node p.2)).map (·.2)

/-! ## Initializers -/

def unsupportedInitializer (init : Syntax) : Bool :=
  match init.kind.tag with
  | .fnDecl .. | .fnProto | .container => true
  | _ => false

def uninitialized : List String :=
  ["alloc", "allocSentinel", "alignedAlloc", "allocWithOptions", "create", "realloc",
    "addManyAsSlice", "addManyAsArray", "addOne", "addManyAt", "allocAdvanced"]

/-- The call's callee is a field access with one of the names. -/
def allocates (children : Forest Node Field) : Bool :=
  match children.get? .callee with
  | some callee =>
    match callee.kind.tag with
    | .fieldAccess name => uninitialized.any fun c => name = bytes c
    | _ => false
  | none => false

mutual

/-- `try`, `catch` and parentheses are looked through: what they are about is their first child. -/
def allocatesUninitialized : Syntax → Bool
  | .node node children =>
    match node.tag with
    | .try | .catch _ | .grouped => firstAllocates children
    | .call => allocates children
    | _ => false

def firstAllocates : Forest Node Field → Bool
  | .nil => false
  | .cons _ child _ => allocatesUninitialized child

end

/-! ## Probes -/

structure Options where
  /-- 32 hexadecimal digits from a hash of the file, the range and the name. -/
  probeId : ℕ → ℕ → Bytes → Bytes
  probeId_length : ∀ start stop name, (probeId start stop name).length = 32
  autoInspect : Bool
  manualIds : List Bytes
  fileId : ℕ

structure Range where
  startLine : ℕ
  startColumn : ℕ
  endLine : ℕ
  endColumn : ℕ
  startByte : ℕ
  endByte : ℕ
deriving DecidableEq

inductive Mode
  | auto
  | manual
deriving DecidableEq

/-- `place` says which node the probe is for. -/
structure Probe where
  probeId : Bytes
  name : Bytes
  supported : Bool
  reason : Option String
  range : Range
  insertionByte : Option ℕ
  mode : Mode
  place : Place
deriving DecidableEq

def Options.selected (o : Options) (id : Bytes) : Bool := o.manualIds.contains id

def Options.active (o : Options) (id : Bytes) : Bool := o.autoInspect || o.selected id

def probeRange (ast : Ast) (start stop : ℕ) : Range :=
  let startPos := position ast.source start
  let endPos := position ast.source stop
  ⟨startPos.1, startPos.2, endPos.1, endPos.2, start, stop⟩

/-- Why a declaration is not probed. -/
def unsupportedReason (ast : Ast) (place : Place) (node : Node) (declaration : VarDecl)
    (children : Forest Node Field) : Option String :=
  if isRoot place || declaration.isGlobal then some "top-level declaration"
  else if declaration.name = [underscore] then some "discard identifier"
  else if declaration.comptimeToken || ast.inComptime node then some "comptime context"
  else
    match children.get? .init with
    | some init =>
      if unsupportedInitializer init then some "type, namespace, or function value"
      else if init.kind.tag = .identifier (bytes "undefined") then some "undefined value"
      else if allocatesUninitialized init then some "freshly allocated, still undefined"
      else if !isDirectBlockStatement place then some "container-level declaration"
      else none
    | none => some "declaration has no initializer"

def makeProbe (o : Options) (ast : Ast) (place : Place) (name : Bytes) (start stop : ℕ)
    (reason : Option String) : Probe :=
  let id := o.probeId start stop name
  let active := reason.isNone && o.active id
  ⟨id, name, reason.isNone, reason, probeRange ast start stop, if active then some stop else none,
    if o.selected id then .manual else .auto, place⟩

def declarationProbe (o : Options) (ast : Ast) (p : Occurrence) : Option Probe :=
  match p.2 with
  | .node node children =>
    match node.tag with
    | .varDecl declaration =>
      some (makeProbe o ast p.1 declaration.name declaration.firstByte
        (node.semicolon.getD node.last) (unsupportedReason ast p.1 node declaration children))
    | _ => none

/-- The identifier in a field. -/
def identifierIn (field : Field) (children : Forest Node Field) : Option Bytes :=
  match children.get? field with
  | some child =>
    match child.kind.tag with
    | .identifier name => some name
    | _ => none
  | none => none

def Tag.assigns : Tag → Bool
  | .assign | .assignOp => true
  | _ => false

def assignmentProbe (o : Options) (ast : Ast) (p : Occurrence) : Option Probe :=
  match p.2 with
  | .node node children =>
    if node.tag.assigns then do
      let name ← identifierIn .lhs children
      if name = [underscore] then none
      else if ast.inComptime node || !isDirectBlockStatement p.1 then none
      else
        let stop ← node.semicolon
        some (makeProbe o ast p.1 name node.first stop none)
    else none

def probes (o : Options) (ast : Ast) : List Probe :=
  ast.nodes.filterMap (declarationProbe o ast) ++ ast.nodes.filterMap (assignmentProbe o ast)

/-! ## Insertions -/

inductive Snippet
  | probe (probe : Probe)
  | commentOpen
  | logBlockOpen
  | logMarker (line column : ℕ) (loop : Option LoopContext) (closesLoopBlock : Bool)
deriving DecidableEq

/-- `place` says which node the insertion is for. -/
structure Insertion where
  offset : ℕ
  snippet : Snippet
  place : Place
deriving DecidableEq

def probeInsertions (probes : List Probe) : List Insertion :=
  probes.filterMap fun probe =>
    probe.insertionByte.map fun offset => ⟨offset, .probe probe, probe.place⟩

def slice (source : Bytes) (node : Node) : Bytes :=
  (source.drop node.first).take (node.last - node.first)

/-- The callee of a log call that gets a marker, and the end of its semicolon. -/
def loggedCall (ast : Ast) (p : Occurrence) : Option (Node × ℕ) :=
  match p.2 with
  | .node node children =>
    if node.tag = .call then do
      let callee ← children.get? .callee
      if !isLogCallee (slice ast.source callee.kind) then none
      else if ast.inComptime node ||
          (!isDirectBlockStatement p.1 && !isDirectLoopBody p.1) then none
      else
        let stop ← node.semicolon
        some (callee.kind, stop)
    else none

def logInsertions (ast : Ast) (p : Occurrence) : List Insertion :=
  match loggedCall ast p with
  | some (callee, stop) =>
    let at_ := position ast.source callee.first
    let wraps := isDirectLoopBody p.1
    (if wraps then [⟨p.2.kind.first, .logBlockOpen, p.1⟩] else []) ++
      [⟨stop, .logMarker at_.1 at_.2 (ast.enclosingLoop p.2.kind) wraps, p.1⟩]
  | none => []

/-- The name of `_ = name`. -/
def discardedName : Syntax → Option Bytes
  | .node node children =>
    if node.tag = .assign && identifierIn .lhs children = some [underscore] then
      identifierIn .rhs children
    else none

/-- A probe in the function around the node observes the name. -/
def observed (ast : Ast) (probes : List Probe) (node : Node) (name : Bytes) : Bool :=
  let scope := ast.enclosingFunctionSpan node
  probes.any fun probe =>
    probe.insertionByte.isSome && probe.name = name &&
      scope.all fun span => span.first ≤ probe.range.startByte && probe.range.startByte ≤ span.last

def blank (byte : UInt8) : Bool := byte = 0x20 || byte = 0x09 || byte = 0x0D

/-- Nothing but blanks behind the node on its line. -/
def endsLine (source : Bytes) (node : Node) : Bool :=
  ((source.drop (node.semicolon.getD node.last)).takeWhile (· ≠ 10)).all blank

def discardInsertions (ast : Ast) (probes : List Probe) (p : Occurrence) : List Insertion :=
  match discardedName p.2 with
  | some name =>
    if observed ast probes p.2.kind name && endsLine ast.source p.2.kind then
      [⟨p.2.kind.first, .commentOpen, p.1⟩]
    else []
  | none => []

def insertions (o : Options) (ast : Ast) : List Insertion :=
  probeInsertions (probes o ast) ++ ast.nodes.flatMap (logInsertions ast) ++
    ast.nodes.flatMap (discardInsertions ast (probes o ast))

/-! ## The generated text -/

inductive InstrumentError
  | noSpaceLeft
deriving DecidableEq

/-- `bufPrint` to a buffer of `size` bytes. -/
def bufPrint (size : ℕ) (text : Bytes) : Except InstrumentError Bytes :=
  if text.length ≤ size then .ok text else .error .noSpaceLeft

def runtime : String := " @import(\"runzig_runtime.zig\")."

def logText (fileId line column : ℕ) (loop : Option LoopContext) (closes : Bool) : Bytes :=
  let suffix := bytes (if closes then " \x7d" else "")
  match loop with
  | some loop =>
    bytes (runtime ++ "logSourceLoop(.\x7b .file_id = ") ++ decimal fileId ++
      bytes ", .line = " ++ decimal line ++ bytes ", .column = " ++ decimal column ++
      bytes ", .loop_line = " ++ decimal loop.line ++ bytes ", .loop_column = " ++
      decimal loop.column ++ bytes ", .loop_name = \"" ++ loop.loopVariable ++
      bytes "\" \x7d, " ++ loop.loopVariable ++ bytes ");" ++ suffix
  | none =>
    bytes (runtime ++ "logSource(.\x7b .file_id = ") ++ decimal fileId ++ bytes ", .line = " ++
      decimal line ++ bytes ", .column = " ++ decimal column ++ bytes " \x7d);" ++ suffix

def probeText (probe : Probe) : Bytes :=
  bytes (runtime ++ "probe(\"") ++ probe.probeId ++ bytes "\", " ++ probe.name ++
    bytes ", .\x7b .line = " ++ decimal probe.range.startLine ++ bytes ", .column = " ++
    decimal probe.range.startColumn ++ bytes ", .name = \"" ++ probe.name ++ bytes "\" \x7d);"

def snippetText (fileId : ℕ) : Snippet → Except InstrumentError Bytes
  | .commentOpen => .ok (bytes "// atomis: observed discard ")
  | .logBlockOpen => .ok (bytes "\x7b ")
  | .logMarker line column loop closes => bufPrint 384 (logText fileId line column loop closes)
  | .probe probe => bufPrint 512 (probeText probe)

def splice (fileId : ℕ) (generated : Bytes) (insertion : Insertion) :
    Except InstrumentError Bytes := do
  let text ← snippetText fileId insertion.snippet
  return generated.take insertion.offset ++ text ++ generated.drop insertion.offset

def generate (o : Options) (ast : Ast) : Except InstrumentError Bytes :=
  ((insertions o ast).mergeSort fun left right => right.offset ≤ left.offset).foldlM
    (splice o.fileId) ast.source

/-! ## What is probed -/

/-- A declaration or an assignment with an active probe: its name, its first byte and the byte the
probe is put at. -/
inductive Probed (o : Options) (ast : Ast) : Occurrence → Bytes → ℕ → ℕ → Prop
  | declaration {place : Place} {node : Node} {children : Forest Node Field}
      {declaration : VarDecl} (tag : node.tag = .varDecl declaration)
      (supported : unsupportedReason ast place node declaration children = none)
      (active : o.active (o.probeId declaration.firstByte (node.semicolon.getD node.last)
        declaration.name) = true) :
      Probed o ast (place, .node node children) declaration.name declaration.firstByte
        (node.semicolon.getD node.last)
  | assignment {place : Place} {node : Node} {children : Forest Node Field} {name : Bytes}
      {stop : ℕ} (assigns : node.tag.assigns = true)
      (lhs : identifierIn .lhs children = some name) (named : name ≠ [underscore])
      (runs : ast.inComptime node = false) (statement : isDirectBlockStatement place = true)
      (semicolon : node.semicolon = some stop)
      (active : o.active (o.probeId node.first stop name) = true) :
      Probed o ast (place, .node node children) name node.first stop

section
variable {o : Options} {ast : Ast} {p : Occurrence} {probe : Probe} {name : Bytes} {start stop : ℕ}

theorem makeProbe_insertionByte {place : Place} {reason : Option String} {offset : ℕ} :
    (makeProbe o ast place name start stop reason).insertionByte = some offset ↔
      reason = none ∧ o.active (o.probeId start stop name) = true ∧ offset = stop := by
  rw [makeProbe]
  dsimp only
  cases reason with
  | none =>
    by_cases hactive : o.active (o.probeId start stop name) = true
    · simp [hactive, eq_comm]
    · simp [hactive]
  | some reason => simp

theorem declarationProbe_active : (declarationProbe o ast p = some probe ∧
    probe.insertionByte = some stop) → ∃ name start, Probed o ast p name start stop ∧
      probe = makeProbe o ast p.1 name start stop none := by
  obtain ⟨place, node, children⟩ := p
  rintro ⟨hprobe, hbyte⟩
  unfold declarationProbe at hprobe
  dsimp only at hprobe
  split at hprobe
  next declaration htag =>
    obtain rfl := Option.some.inj hprobe
    obtain ⟨hreason, hactive, rfl⟩ := makeProbe_insertionByte.mp hbyte
    refine ⟨_, _, .declaration htag hreason hactive, ?_⟩
    rw [hreason]
  next => exact absurd hprobe (Option.some_ne_none probe).symm

theorem assignmentProbe_active : (assignmentProbe o ast p = some probe ∧
    probe.insertionByte = some stop) → ∃ name start, Probed o ast p name start stop ∧
      probe = makeProbe o ast p.1 name start stop none := by
  obtain ⟨place, node, children⟩ := p
  rintro ⟨hprobe, hbyte⟩
  unfold assignmentProbe at hprobe
  dsimp only at hprobe
  split at hprobe
  next hassigns =>
    obtain ⟨name, hname, hprobe⟩ := Option.bind_eq_some_iff.mp hprobe
    split at hprobe
    next => exact absurd hprobe (Option.some_ne_none probe).symm
    next hnamed =>
      split at hprobe
      next => exact absurd hprobe (Option.some_ne_none probe).symm
      next hruns =>
        obtain ⟨stop', hstop, hprobe⟩ := Option.bind_eq_some_iff.mp hprobe
        obtain rfl := Option.some.inj hprobe
        obtain ⟨-, hactive, rfl⟩ := makeProbe_insertionByte.mp hbyte
        simp only [Bool.or_eq_true, Bool.not_eq_true', not_or, Bool.not_eq_true,
          Bool.not_eq_false] at hruns
        exact ⟨name, node.first, .assignment hassigns hname hnamed hruns.1 hruns.2 hstop hactive,
          rfl⟩
  next => exact absurd hprobe (Option.some_ne_none probe).symm

theorem Probed.exists_probe (h : Probed o ast p name start stop) :
    ∃ probe, (declarationProbe o ast p = some probe ∨ assignmentProbe o ast p = some probe) ∧
      probe.insertionByte = some stop ∧ probe = makeProbe o ast p.1 name start stop none := by
  cases h with
  | declaration htag hsupported hactive =>
    refine ⟨_, Or.inl ?_, makeProbe_insertionByte.mpr ⟨rfl, hactive, rfl⟩, rfl⟩
    unfold declarationProbe
    dsimp only
    rw [htag]
    dsimp only
    rw [hsupported]
  | assignment hassigns hname hnamed hruns hstatement hstop hactive =>
    refine ⟨_, Or.inr ?_, makeProbe_insertionByte.mpr ⟨rfl, hactive, rfl⟩, rfl⟩
    unfold assignmentProbe
    dsimp only
    rw [if_pos hassigns, hname]
    simp [hnamed, hruns, hstatement, hstop]

theorem mem_probes : probe ∈ probes o ast ↔
    ∃ p ∈ ast.nodes, declarationProbe o ast p = some probe ∨
      assignmentProbe o ast p = some probe := by
  simp only [probes, List.mem_append, List.mem_filterMap, ← exists_or, ← and_or_left]

/-- The active probes are those of the probed declarations and assignments. -/
theorem mem_probes_active : probe ∈ probes o ast ∧ probe.insertionByte = some stop ↔
    ∃ p ∈ ast.nodes, ∃ name start, Probed o ast p name start stop ∧
      probe = makeProbe o ast p.1 name start stop none := by
  rw [mem_probes]
  constructor
  · rintro ⟨⟨p, hp, hprobe | hprobe⟩, hbyte⟩
    · exact ⟨p, hp, declarationProbe_active ⟨hprobe, hbyte⟩⟩
    · exact ⟨p, hp, assignmentProbe_active ⟨hprobe, hbyte⟩⟩
  · rintro ⟨p, hp, name, start, hprobed, heq⟩
    obtain ⟨probe', hprobe, hbyte, heq'⟩ := hprobed.exists_probe
    obtain rfl := heq.trans heq'.symm
    exact ⟨⟨p, hp, hprobe⟩, hbyte⟩

theorem mem_probeInsertions {i : Insertion} : i ∈ probeInsertions (probes o ast) ↔
    ∃ p ∈ ast.nodes, ∃ name start stop, Probed o ast p name start stop ∧
      i = ⟨stop, .probe (makeProbe o ast p.1 name start stop none), p.1⟩ := by
  simp only [probeInsertions, List.mem_filterMap, Option.map_eq_some_iff]
  constructor
  · rintro ⟨probe, hprobe, stop, hbyte, rfl⟩
    obtain ⟨p, hp, name, start, hprobed, rfl⟩ := mem_probes_active.mp ⟨hprobe, hbyte⟩
    exact ⟨p, hp, name, start, stop, hprobed, rfl⟩
  · rintro ⟨p, hp, name, start, stop, hprobed, rfl⟩
    obtain ⟨hprobe, hbyte⟩ := mem_probes_active.mpr ⟨p, hp, name, start, hprobed, rfl⟩
    exact ⟨_, hprobe, stop, hbyte, rfl⟩

/-- A probed statement in the function around the node has the name. -/
def Observed (o : Options) (ast : Ast) (node : Node) (name : Bytes) : Prop :=
  ∃ q ∈ ast.nodes, ∃ start stop, Probed o ast q name start stop ∧
    ∀ span, ast.enclosingFunctionSpan node = some span → span.first ≤ start ∧ start ≤ span.last

theorem observed_iff {node : Node} :
    observed ast (probes o ast) node name = true ↔ Observed o ast node name := by
  have hspan (start : ℕ) : (ast.enclosingFunctionSpan node).all (fun span =>
      decide (span.first ≤ start) && decide (start ≤ span.last)) = true ↔
        ∀ span, ast.enclosingFunctionSpan node = some span →
          span.first ≤ start ∧ start ≤ span.last := by
    cases ast.enclosingFunctionSpan node with
    | none => simp
    | some span => simp
  simp only [observed, List.any_eq_true, Bool.and_eq_true, decide_eq_true_eq, hspan]
  constructor
  · rintro ⟨probe, hprobe, ⟨hactive, hname⟩, hscope⟩
    obtain ⟨stop, hbyte⟩ := Option.isSome_iff_exists.mp hactive
    obtain ⟨p, hp, name', start, hprobed, rfl⟩ := mem_probes_active.mp ⟨hprobe, hbyte⟩
    obtain rfl : name' = name := hname
    exact ⟨p, hp, start, stop, hprobed, hscope⟩
  · rintro ⟨p, hp, start, stop, hprobed, hscope⟩
    obtain ⟨hprobe, hbyte⟩ := mem_probes_active.mpr ⟨p, hp, name, start, hprobed, rfl⟩
    exact ⟨_, hprobe, ⟨by rw [hbyte]; rfl, rfl⟩, hscope⟩

/-- `_ = name;` with nothing behind it on its line, where a probe observes the name. -/
def Commented (o : Options) (ast : Ast) (p : Occurrence) (name : Bytes) : Prop :=
  discardedName p.2 = some name ∧ Observed o ast p.2.kind name ∧
    endsLine ast.source p.2.kind = true

theorem mem_discardInsertions {i : Insertion} : i ∈ discardInsertions ast (probes o ast) p ↔
    ∃ name, Commented o ast p name ∧ i = ⟨p.2.kind.first, .commentOpen, p.1⟩ := by
  unfold discardInsertions Commented
  cases discardedName p.2 with
  | none => simp
  | some name =>
    simp only [← observed_iff, Bool.and_eq_true]
    by_cases hcommented : observed ast (probes o ast) p.2.kind name = true ∧
        endsLine ast.source p.2.kind = true
    · simp [hcommented]
    · rw [if_neg hcommented]
      simp only [List.not_mem_nil, Option.some.injEq, false_iff]
      rintro ⟨name', ⟨rfl, hobserved⟩, -⟩
      exact hcommented hobserved

end

end Atomis.ZigInstrument
