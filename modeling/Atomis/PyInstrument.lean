import Atomis.ProbeId
import Atomis.PyProgram

/-!
# The Python instrumenter

`python/instrumenter/pylive_instrument.py`: the collector that visits the statements of a
parsed file, and the calls it splices into the text behind them. A text is its bytes.
-/

namespace Atomis.PyInstrument

open Atomis.SyntaxTree Atomis.Instrument

/-! ## Lines -/

/-- Where a line starts, counted from 0; `ends` says of what is left whether a line ends. -/
def lineStart (ends : List UInt8 → Bool) : ℕ → List UInt8 → Option ℕ
  | 0, _ => some 0
  | _ + 1, [] => none
  | n + 1, byte :: rest =>
    (lineStart ends (if ends (byte :: rest) then n else n + 1) rest).map (· + 1)

/-- Lines as `source.split("\n")` has them. -/
def splitEnds (text : List UInt8) : Bool := text.head? = some 10

/-- `\r` alone. -/
def loneReturn : List UInt8 → Bool
  | 13 :: rest => rest.head? ≠ some 10
  | _ => false

/-- Lines as Python counts them. -/
def pythonEnds (text : List UInt8) : Bool := splitEnds text || loneReturn text

/-- The byte a position stands for. -/
def Position.offset (ends : List UInt8 → Bool) (text : List UInt8) (place : Position) : Option ℕ :=
  (lineStart ends (place.line - 1) text).map (· + place.col)

/-! ## The collector -/

structure Options where
  uri : String
  fileId : ℕ
  autoInspect : Bool
  manualIds : List String

structure Insertion where
  place : Position
  call : Call
deriving DecidableEq

/-- `failed` once a line was looked up that the text does not have, an `IndexError`. -/
structure Collector where
  failed : Bool
  probes : List Probe
  insertions : List Insertion
  /-- The innermost loop first. -/
  loops : List LoopMeta

def Collector.new : Collector := ⟨false, [], [], []⟩

def quoted (text : String) : String := "\"" ++ text ++ "\""

def Call.text : Call → String
  | .probe id line column name =>
    "; _atomis_probe(" ++ quoted id ++ ", " ++ toString line ++ ", " ++ toString column ++ ", " ++
      quoted name ++ ", " ++ name ++ ")"
  | .log file line column =>
    "; _atomis_log(1, " ++ toString file ++ ", " ++ toString line ++ ", " ++ toString column ++ ")"
  | .logLoop file line column loop =>
    "; _atomis_log_loop(1, " ++ toString file ++ ", " ++ toString line ++ ", " ++
      toString column ++ ", " ++ toString loop.line ++ ", " ++ toString loop.column ++ ", " ++
      quoted loop.loopVariable ++ ", " ++ loop.loopVariable ++ ")"

def Options.active (o : Options) (id : String) : Bool := o.autoInspect || o.manualIds.contains id

/-- `_record`. -/
def record (o : Options) (text : List UInt8) (nameNode : Name) (statement : Span)
    (reason : Option String) (c : Collector) : Collector :=
  let start := nameNode.span.start
  let stop := nameNode.span.stop
  let startByte := start.offset splitEnds text
  let endByte := stop.offset splitEnds text
  let insertionByte := statement.stop.offset splitEnds text
  let range : Range := ⟨start.line, start.col + 1, stop.line, stop.col + 1, startByte.getD 0,
    endByte.getD 0⟩
  let id := probeId "pylive-v1" o.uri range nameNode.id
  let active := reason.isNone && o.active id
  { c with
    failed := c.failed || startByte.isNone || endByte.isNone || (active && insertionByte.isNone)
    insertions := if active then
        c.insertions ++ [⟨statement.stop, .probe id start.line (start.col + 1) nameNode.id⟩]
      else c.insertions
    probes := c.probes ++ [⟨id, nameNode.id, reason.isNone, reason, range,
      if active then insertionByte else none, if o.autoInspect then .auto else .manual⟩] }

def firstName (elts : List Element) : Option Name :=
  elts.findSome? fun element =>
    match element with
    | .name name => some name
    | .other _ => none

/-- A call of the name `print`. -/
def isPrint : Expr → Bool
  | .node .call children =>
    match children.get? .func with
    | some func => nameOf func = some "print"
    | none => false
  | _ => false

def logCall (o : Options) (start : Position) (loops : List LoopMeta) : Call :=
  match loops with
  | loop :: _ =>
    if loop.loopVariable ≠ "" then .logLoop o.fileId start.line (start.col + 1) loop
    else .log o.fileId start.line (start.col + 1)
  | [] => .log o.fileId start.line (start.col + 1)

/-- `visit_Assign`, `visit_AnnAssign` and `visit_Expr`. -/
def visitSimple (o : Options) (text : List UInt8) (span : Span) (simple : Simple)
    (c : Collector) : Collector :=
  match simple with
  | .assign [.name name] _ => record o text name span none c
  | .assign [.tuple elts] _ | .assign [.list elts] _ =>
    match firstName elts with
    | some first => record o text first span (some "destructuring pattern") c
    | none => c
  | .assign (.name name :: _ :: _) _ => record o text name span (some "multiple assignment") c
  | .annAssign (.name name) (some _) => record o text name span none c
  | .annAssign (.name name) none =>
    record o text name span (some "declaration without initializer") c
  | .expr value =>
    if isPrint value then
      { c with insertions := c.insertions ++ [⟨span.stop, logCall o span.start c.loops⟩] }
    else c
  | _ => c

/-- `ast.walk`: the nodes in a queue, and behind them their children. -/
def walk : ℕ → List Expr → List Expr
  | 0, _ | _, [] => []
  | fuel + 1, node :: queue => node :: walk fuel (queue ++ node.children.trees)

def loopVariable : Compound → Option String
  | .forStmt (.name name) _ => some name.id
  | .forStmt (.tuple elts) _ => some (((firstName elts).map Name.id).getD "")
  | .forStmt _ _ => some ""
  | .whileStmt test =>
    some (((walk (test.occurrences []).length [test]).findSome? nameOf).getD "")
  | _ => none

/-- What a loop puts on the stack. -/
def loopMeta (span : Span) (compound : Compound) : Option LoopMeta :=
  (loopVariable compound).map fun name => ⟨span.start.line, span.start.col + 1, name⟩

mutual

def Stmt.visit (o : Options) (text : List UInt8) : Stmt → Collector → Collector
  | .simple span simple, c => visitSimple o text span simple c
  | .compound span compound suites, c =>
    match loopMeta span compound with
    | some loop =>
      let c := suites.visit o text { c with loops := loop :: c.loops }
      { c with loops := c.loops.drop 1 }
    | none => suites.visit o text c
  | .call _, c => c

def Suite.visit (o : Options) (text : List UInt8) : Suite → Collector → Collector
  | .nil, c => c
  | .cons stmt rest, c => rest.visit o text (stmt.visit o text c)

def Suites.visit (o : Options) (text : List UInt8) : Suites → Collector → Collector
  | .nil, c => c
  | .cons suite rest, c => rest.visit o text (suite.visit o text c)

end

def collect (o : Options) (text : List UInt8) (file : Suite) : Collector :=
  file.visit o text .new

/-! ## The generated program -/

/-- What is spliced in at a position: the last insertion is made before the others. -/
def callsAt (insertions : List Insertion) (place : Position) : List Call :=
  ((insertions.filter fun insertion => insertion.place = place).map Insertion.call).reverse

def Stmt.calls (behind : Position → List Call) : Stmt → List Call
  | .simple span _ => behind span.stop
  | _ => []

mutual

/-- The program whose text has calls at the ends of simple statements. -/
def Stmt.splice (behind : Position → List Call) : Stmt → Stmt
  | .simple span simple => .simple span simple
  | .compound span compound suites => .compound span compound (suites.splice behind)
  | .call call => .call call

def Suite.splice (behind : Position → List Call) : Suite → Suite
  | .nil => .nil
  | .cons stmt rest => .cons (stmt.splice behind) ((rest.splice behind).after (stmt.calls behind))

def Suites.splice (behind : Position → List Call) : Suites → Suites
  | .nil => .nil
  | .cons suite rest => .cons (suite.splice behind) (rest.splice behind)

end

def spliced (o : Options) (text : List UInt8) (file : Suite) : Suite :=
  file.splice (callsAt (collect o text file).insertions)

/-- Every line that is looked up is there. -/
def Runs (o : Options) (text : List UInt8) (file : Suite) : Prop :=
  (collect o text file).failed = false ∧
    ∀ insertion ∈ (collect o text file).insertions,
      (insertion.place.offset splitEnds text).isSome = true

end Atomis.PyInstrument
