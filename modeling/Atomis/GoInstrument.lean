import Atomis.Lib.SyntaxTree
import Atomis.ProbeId

/-!
# The Go instrumenter

`go/instrumenter/instrument.go`: the collector that walks the functions of a parsed file.
The children of a node stand in the fields of `go/ast`, in the order `ast.Inspect` visits
them. A statement in `initStmts` is named by its place, and an insertion also says behind
which statement it stands, which nothing reads.
-/

namespace Atomis.GoInstrument

open Atomis.SyntaxTree Atomis.Instrument

/-! ## Syntax -/

inductive Field
  | decl
  | body
  | init
  | cond
  | post
  | orElse
  | tag
  | assign
  | comm
  | key
  | value
  | x
  | callee
  | sel
  | spec
  | stmt
  | part
deriving DecidableEq

structure Ident where
  name : String
  range : Range
deriving DecidableEq

inductive Tok
  | var
  | const
  | type
  | import
deriving DecidableEq

/-- `file` has the file's declarations. One that is no function with a body has no children: the
collector does not walk it. `other` is everything that is not looked at. -/
inductive Kind
  | file
  | funcDecl (params : List String)
  | funcLit (params : List String)
  | blockStmt
  | ifStmt
  | switchStmt
  | typeSwitchStmt
  | commClause
  | forStmt (line column : ℕ)
  | rangeStmt (line column : ℕ) (key value : Option String) (define : Bool)
  | assignStmt (define : Bool) (lhs : List (Option Ident)) (stop : ℕ)
  | declStmt (stop : ℕ)
  | genDecl (tok : Tok)
  | valueSpec (names : List Ident) (values : ℕ)
  | typeSpec (name : String)
  | labeledStmt
  | exprStmt (line column stop : ℕ)
  | callExpr
  | selectorExpr
  | ident (name : String)
  | other
deriving DecidableEq

abbrev Syntax := RoseTree Kind Field

abbrev Place := Path Kind Field

/-! ## The collector -/

structure LoopMeta where
  line : ℕ
  column : ℕ
  loopVariable : String
deriving DecidableEq

inductive Call
  | probe (id : String) (line column : ℕ) (name : String)
  | log (fd file line column : ℕ)
  | logLoop (fd file line column : ℕ) (loop : LoopMeta)
deriving DecidableEq

def quoted (text : String) : String := "\"" ++ text ++ "\""

def Call.text : Call → String
  | .probe id line column name =>
    "; __atomis_probe(" ++ quoted id ++ ", " ++ toString line ++ ", " ++ toString column ++ ", " ++
      quoted name ++ ", " ++ name ++ ")"
  | .log fd file line column =>
    "; __atomis_log(" ++ toString fd ++ ", " ++ toString file ++ ", " ++ toString line ++ ", " ++
      toString column ++ ")"
  | .logLoop fd file line column loop =>
    "; __atomis_log_loop(" ++ toString fd ++ ", " ++ toString file ++ ", " ++ toString line ++
      ", " ++ toString column ++ ", " ++ toString loop.line ++ ", " ++ toString loop.column ++
      ", " ++ quoted loop.loopVariable ++ ", " ++ loop.loopVariable ++ ")"

structure Insertion where
  offset : ℕ
  call : Call
  place : Place
deriving DecidableEq

structure Options where
  uri : String
  fileId : ℕ
  autoInspect : Bool
  manualIds : List String

structure Collector where
  initStmts : List Place
  probes : List Probe
  insertions : List Insertion
  /-- The innermost loop first. -/
  loops : List LoopMeta

def Collector.new : Collector := ⟨[], [], [], []⟩

def Options.active (o : Options) (id : String) : Bool := o.autoInspect || o.manualIds.contains id

def logTargets (name : String) : Option ℕ :=
  if name ∈ ["fmt.Print", "fmt.Println", "fmt.Printf"] then some 1
  else if name ∈ ["log.Print", "log.Println", "log.Printf"] then some 2
  else none

def recordProbe (o : Options) (place : Place) (ident : Ident) (stop : ℕ) (unsupported : String)
    (c : Collector) : Collector :=
  let id := probeId "golive-v1" o.uri ident.range ident.name
  let active := unsupported = "" && o.active id
  { c with
    insertions := if active then
        c.insertions ++ [⟨stop,
          .probe id ident.range.startLine ident.range.startColumn ident.name, place⟩]
      else c.insertions
    probes := c.probes ++ [⟨id, ident.name, unsupported = "",
      if unsupported = "" then none else some unsupported, ident.range,
      if active then some stop else none, if o.autoInspect then .auto else .manual⟩] }

/-- The stream a print statement writes to. -/
def logFd : Forest Kind Field → Option ℕ := fun children => do
  let .node .callExpr call ← children.get? .x | none
  let .node .selectorExpr selector ← call.get? .callee | none
  let .node (.ident pkg) _ ← selector.get? .x | none
  let .node (.ident name) _ ← selector.get? .sel | none
  logTargets (pkg ++ "." ++ name)

/-- The specs of a `var` declaration. -/
def varSpecs (children : Forest Kind Field) : List Syntax :=
  match children.get? .decl with
  | some (.node (.genDecl .var) specs) => specs.trees
  | _ => []

def recordSpec (o : Options) (place : Place) (stop : ℕ) (c : Collector) (spec : Syntax) :
    Collector :=
  match spec.kind with
  | .valueSpec [ident] values =>
    if ident.name = "_" then c
    else if values = 0 then recordProbe o place ident stop "declaration without initializer" c
    else recordProbe o place ident stop "" c
  | _ => c

def logCall (o : Options) (fd line column : ℕ) (loops : List LoopMeta) : Call :=
  match loops with
  | loop :: _ =>
    if loop.loopVariable ≠ "" then .logLoop fd o.fileId line column loop
    else .log fd o.fileId line column
  | [] => .log fd o.fileId line column

def visitStmt (o : Options) (place : Place) (kind : Kind) (children : Forest Kind Field)
    (c : Collector) : Collector :=
  match kind with
  | .assignStmt define lhs stop =>
    if !define || c.initStmts.contains place then c
    else
      match lhs with
      | [some ident] => if ident.name = "_" then c else recordProbe o place ident stop "" c
      | [none] => c
      | some ident :: _ =>
        if ident.name ≠ "_" then recordProbe o place ident stop "multiple declaration" c else c
      | _ => c
  | .declStmt stop => (varSpecs children).foldl (recordSpec o place stop) c
  | .exprStmt line column stop =>
    match logFd children with
    | some fd =>
      { c with
        insertions := c.insertions ++ [⟨stop, logCall o fd line column c.loops, place⟩] }
    | none => c
  | _ => c

mutual

def firstIdent : Syntax → String
  | .node (.ident name) _ => name
  | .node _ children => firstIdentOf children

def firstIdentOf : Forest Kind Field → String
  | .nil => ""
  | .cons _ child rest => if firstIdent child ≠ "" then firstIdent child else firstIdentOf rest

end

/-- The fields whose statements `walk` marks before it gets to them. -/
def headerField : Kind → Field → Bool
  | .ifStmt, .init | .switchStmt, .init | .typeSwitchStmt, .init | .typeSwitchStmt, .assign
  | .commClause, .comm | .forStmt .., .init | .forStmt .., .post => true
  | _, _ => false

def markHeader (place : Place) (kind : Kind) (children : Forest Kind Field) (c : Collector) :
    Collector :=
  { c with
    initStmts := c.initStmts ++ (children.fields.zipIdx.filter fun p => headerField kind p.1).map
      fun p => place ++ [⟨kind, p.1, p.2⟩] }

/-- What a loop puts on the stack. -/
def loopMeta (kind : Kind) (children : Forest Kind Field) : Option LoopMeta :=
  match kind with
  | .forStmt line column =>
    some ⟨line, column, match children.get? .cond with
      | some cond => firstIdent cond
      | none => ""⟩
  | .rangeStmt line column key value _ =>
    some ⟨line, column, match key, value with
      | some key, value => if key ≠ "_" then key else (value.filter (· ≠ "_")).getD ""
      | none, value => (value.filter (· ≠ "_")).getD ""⟩
  | _ => none

def walk (o : Options) (place : Place) (kind : Kind) (children : Forest Kind Field)
    (walkChildren : Collector → Collector) (c : Collector) : Collector :=
  let c := markHeader place kind children c
  match loopMeta kind children with
  | some loop =>
    let c := walkChildren { c with loops := loop :: c.loops }
    { c with loops := c.loops.drop 1 }
  | none => walkChildren (visitStmt o place kind children c)

def collect (o : Options) (file : Syntax) : Collector := file.visit (walk o) [] .new

end Atomis.GoInstrument
