import Atomis.Lib.SyntaxTree
import Atomis.ProbeId

/-!
# The Rust instrumenter

`rust/instrumenter/src/instrument.rs`: the collector that visits a parsed file and notes
what is spliced in, and where. A node keeps what the collector reads of it; what stands in
its last field (a block, a value, a length) is its body. A loop and an insertion also say
which node they belong to, which nothing reads.
-/

namespace Atomis.RustInstrument

open Atomis.SyntaxTree Atomis.Instrument

/-! ## Syntax -/

inductive Field
  | part
  | body
deriving DecidableEq

/-- An attribute: its path, and the paths of the arguments `parse_nested_meta` gets to. -/
structure Attribute where
  path : List String
  nested : List (List String)
deriving DecidableEq

inductive Pat
  | ident (name : String) (range : Range) (subpat : Bool)
  | type (pat : Pat)
  | wild
  | tuple
  | tupleStruct
  | struct
  | other
deriving DecidableEq

structure Local where
  pat : Pat
  patRange : Range
  init : Bool
  stop : ℕ
deriving DecidableEq

structure StmtMacro where
  path : List String
  line : ℕ
  column : ℕ
  stop : ℕ
deriving DecidableEq

/-- Where a loop's keyword stands, and the end of its body's opening brace. -/
structure LoopPlace where
  line : ℕ
  column : ℕ
  bodyStart : ℕ
deriving DecidableEq

/-- `item` are the items no method is written for, `other` everything else. -/
inductive Kind
  | itemFn (attrs : List Attribute) (constness : Bool)
  | implItemFn (constness : Bool)
  | traitItemFn (constness : Bool)
  | itemConst
  | itemStatic
  | implItemConst
  | traitItemConst
  | exprConst
  | exprRepeat
  | typeArray
  | variant
  | genericArgument
  | constParam
  | exprClosure
  | exprAsync
  | itemMod (attrs : List Attribute)
  | item
  | exprForLoop (place : LoopPlace) (pat : Pat)
  | exprWhile (place : LoopPlace)
  | exprLoop (place : LoopPlace)
  | exprPath (ident : Option String)
  | «local» (node : Local)
  | stmtMacro (node : StmtMacro)
  | other
deriving DecidableEq

abbrev Syntax := RoseTree Kind Field

abbrev Place := Path Kind Field

/-! ## The collector -/

structure LoopMeta where
  line : ℕ
  column : ℕ
  loopVariable : Option String
  shadow : String
  bodyStart : ℕ
  used : Bool
  place : Place
deriving DecidableEq

inductive Call
  | probe (id : String) (line column : ℕ) (name : String)
  | log (fd file line column : ℕ)
  | logLoop (fd file line column loopLine loopColumn : ℕ) (loopVariable shadow : String)
  | capture (shadow loopVariable : String)
deriving DecidableEq

def Call.text : Call → String
  | .probe id line column name =>
    " crate::atomis_probe!(\"" ++ id ++ "\", " ++ toString line ++ ", " ++ toString column ++
      ", \"" ++ name ++ "\", &" ++ name ++ ");"
  | .log fd file line column =>
    " crate::atomis_log!(" ++ toString fd ++ ", " ++ toString file ++ ", " ++ toString line ++
      ", " ++ toString column ++ ");"
  | .logLoop fd file line column loopLine loopColumn loopVariable shadow =>
    " crate::atomis_log_loop!(" ++ toString fd ++ ", " ++ toString file ++ ", " ++
      toString line ++ ", " ++ toString column ++ ", " ++ toString loopLine ++ ", " ++
      toString loopColumn ++ ", \"" ++ loopVariable ++ "\", captured &" ++ shadow ++ ");"
  | .capture shadow loopVariable =>
    " let " ++ shadow ++ " = crate::atomis_loop_capture!(&" ++ loopVariable ++ ");"

/-- A capture stands at the start of the body of the loop at `place`, any other call behind the
statement at `place`. -/
structure Insertion where
  byte : ℕ
  call : Call
  place : Place
deriving DecidableEq

structure Options where
  uri : String
  fileId : ℕ
  autoInspect : Bool
  manualIds : List String

structure Collector where
  probes : List Probe
  insertions : List Insertion
  /-- The innermost loop first. -/
  loops : List LoopMeta
  loopCounter : ℕ
  testDepth : ℕ
  constDepth : ℕ

namespace Collector

def new : Collector := ⟨[], [], [], 0, 0, 0⟩

end Collector

def logMacros : List String := ["println", "print", "eprintln", "eprint", "dbg"]

def stderrMacros : List String := ["eprintln", "eprint", "dbg"]

def isTestAttr (attrs : List Attribute) : Bool :=
  attrs.any fun attr =>
    attr.path.getLast? = some "test" || (attr.path = ["cfg"] && attr.nested.contains ["test"])

mutual

def firstIdent : Syntax → Option String
  | .node (.exprPath ident) _ => ident
  | .node _ children => firstIdentOf children

def firstIdentOf : Forest Kind Field → Option String
  | .nil => none
  | .cons _ child rest => (firstIdent child).or (firstIdentOf rest)

end

/-- The condition is the first thing in a `while`. -/
def condIdent : Forest Kind Field → Option String
  | .nil => none
  | .cons _ cond _ => firstIdent cond

def Options.active (o : Options) (id : String) : Bool := o.autoInspect || o.manualIds.contains id

def shadowName (n : ℕ) : String := "__atomis_loop_v" ++ toString n

namespace Collector

def pushLoop (at_ : LoopPlace) (loopVariable : Option String) (place : Place) (c : Collector) :
    Collector :=
  { c with
    loopCounter := c.loopCounter + 1
    loops := ⟨at_.line, at_.column, loopVariable, shadowName (c.loopCounter + 1), at_.bodyStart,
      false, place⟩ :: c.loops }

def popLoop (c : Collector) : Collector :=
  match c.loops with
  | [] => c
  | loop :: loops =>
    let c := { c with loops := loops }
    if loop.used then
      match loop.loopVariable with
      | some loopVariable =>
        { c with
          insertions := c.insertions ++
            [⟨loop.bodyStart, .capture loop.shadow loopVariable, loop.place⟩] }
      | none => c
    else c

def withLoopBarrier (visit : Collector → Collector) (c : Collector) : Collector :=
  { visit { c with loops := [] } with loops := c.loops }

def withTest (test : Bool) (visit : Collector → Collector) (c : Collector) : Collector :=
  if test then
    let c := visit { c with testDepth := c.testDepth + 1 }
    { c with testDepth := c.testDepth - 1 }
  else visit c

def withConst (konst : Bool) (visit : Collector → Collector) (c : Collector) : Collector :=
  if konst then
    let c := visit { c with constDepth := c.constDepth + 1 }
    { c with constDepth := c.constDepth - 1 }
  else visit c

end Collector

def localIdent : Pat → Except String (Option (String × Range))
  | .ident name range subpat =>
    if subpat then .error "pattern with a @ subpattern" else .ok (some (name, range))
  | .type pat => localIdent pat
  | .wild => .ok none
  | .tuple | .tupleStruct | .struct => .error "destructuring pattern"
  | .other => .error "unsupported pattern"

/-! ## The visitor's methods -/

section
variable (o : Options) (place : Place) (visit : Collector → Collector) (c : Collector)

def visitItemFn (attrs : List Attribute) (constness : Bool) : Collector :=
  Collector.withTest (isTestAttr attrs)
    (Collector.withConst constness (Collector.withLoopBarrier visit)) c

def visitImplItemFn (constness : Bool) : Collector :=
  Collector.withConst constness (Collector.withLoopBarrier visit) c

def visitItemConst : Collector := Collector.withConst true visit c

def visitItemStatic : Collector := Collector.withConst true visit c

def visitExprConst : Collector := Collector.withConst true visit c

def visitExprClosure : Collector := Collector.withLoopBarrier visit c

def visitExprAsync : Collector := Collector.withLoopBarrier visit c

def visitItemMod (attrs : List Attribute) : Collector :=
  Collector.withTest (isTestAttr attrs) visit c

def visitExprForLoop (at_ : LoopPlace) (pat : Pat) : Collector :=
  let loopVariable := match localIdent pat with
    | .ok (some (name, _)) => some name
    | _ => none
  (visit (c.pushLoop at_ loopVariable place)).popLoop

def visitExprWhile (at_ : LoopPlace) (children : Forest Kind Field) : Collector :=
  (visit (c.pushLoop at_ (condIdent children) place)).popLoop

def visitExprLoop (at_ : LoopPlace) : Collector := (visit (c.pushLoop at_ none place)).popLoop

def unsupported (name reason : String) (range : Range) : Probe :=
  ⟨probeId "rustlive-v1" o.uri range name, name, false, some reason, range, none, .auto⟩

def recordLocal (node : Local) : Collector :=
  if 0 < c.testDepth then c
  else if 0 < c.constDepth then
    match localIdent node.pat with
    | .ok (some (name, range)) =>
      { c with probes := c.probes ++ [unsupported o name "const context" range] }
    | _ => c
  else
    match localIdent node.pat with
    | .ok none => c
    | .error reason =>
      { c with probes := c.probes ++ [unsupported o "<pattern>" reason node.patRange] }
    | .ok (some (name, range)) =>
      if !node.init then
        { c with
          probes := c.probes ++ [unsupported o name "declaration without initializer" range] }
      else
        let id := probeId "rustlive-v1" o.uri range name
        let active := o.active id
        { c with
          insertions := if active then
              c.insertions ++
                [⟨node.stop, .probe id range.startLine range.startColumn name, place⟩]
            else c.insertions
          probes := c.probes ++ [⟨id, name, true, none, range,
            if active then some node.stop else none,
            if o.autoInspect then .auto else .manual⟩] }

def visitLocal (node : Local) : Collector := recordLocal o place (visit c) node

/-- The log call for a statement, and the loops with what it reads marked. -/
def logCall (fd : ℕ) (node : StmtMacro) : List LoopMeta → Call × List LoopMeta
  | [] => (.log fd o.fileId node.line node.column, [])
  | loop :: loops =>
    match loop.loopVariable with
    | some loopVariable =>
      (.logLoop fd o.fileId node.line node.column loop.line loop.column loopVariable loop.shadow,
        { loop with used := true } :: loops)
    | none => (.log fd o.fileId node.line node.column, loop :: loops)

def recordMacro (node : StmtMacro) : Collector :=
  if 0 < c.testDepth || 0 < c.constDepth then c
  else
    match node.path.getLast? with
    | none => c
    | some name =>
      if !logMacros.contains name then c
      else
        let fd := if stderrMacros.contains name then 2 else 1
        let (call, loops) := logCall o fd node c.loops
        { c with loops := loops, insertions := c.insertions ++ [⟨node.stop, call, place⟩] }

def visitStmtMacro (node : StmtMacro) : Collector := recordMacro o place (visit c) node

end

/-- The kinds no method is written for are visited as they are. -/
def visitNode (o : Options) (place : Place) (kind : Kind) (children : Forest Kind Field)
    (visit : Collector → Collector) (c : Collector) : Collector :=
  match kind with
  | .itemFn attrs constness => visitItemFn visit c attrs constness
  | .implItemFn constness => visitImplItemFn visit c constness
  | .itemConst => visitItemConst visit c
  | .itemStatic => visitItemStatic visit c
  | .exprConst => visitExprConst visit c
  | .exprClosure => visitExprClosure visit c
  | .exprAsync => visitExprAsync visit c
  | .itemMod attrs => visitItemMod visit c attrs
  | .exprForLoop at_ pat => visitExprForLoop place visit c at_ pat
  | .exprWhile at_ => visitExprWhile place visit c at_ children
  | .exprLoop at_ => visitExprLoop place visit c at_
  | .«local» node => visitLocal o place visit c node
  | .stmtMacro node => visitStmtMacro o place visit c node
  | .traitItemFn _ | .implItemConst | .traitItemConst | .exprRepeat | .typeArray | .variant
  | .genericArgument | .constParam | .item | .exprPath _ | .other => visit c

def collect (o : Options) (file : Syntax) : Collector := file.visit (visitNode o) [] .new

end Atomis.RustInstrument
