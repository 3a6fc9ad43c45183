import Atomis.PyProgram
import Mathlib.Data.List.Basic

/-!
# Runs of Python programs

A machine for the control flow and the scopes of Python. What an expression evaluates to is
not modelled: a step says how it ended, what it left in memory and which functions it called
meanwhile. A name lives in one namespace, which the scopes determine.
-/

namespace Atomis.PyInstrument

/-! ## Control -/

/-- What is left to do in a frame, the next thing first. -/
inductive Kont
  | suite (suite : Suite)
  /-- In the body of a loop. -/
  | loop (stmt : Stmt)
  /-- In the body of a `try`, with all its suites. -/
  | handling (suites : Suites)
  | finally (suite : Suite)
  /-- In the body of a `with`. -/
  | leaving
  /-- In a `finally` that goes on with a signal. -/
  | pending (signal : Signal)

structure Control where
  signal : Option Signal
  konts : List Kont

/-- How a step ends: at the end of what it is about, with an exception, or in a suite. -/
inductive Choice
  | done
  | raise
  | enter (suite : ℕ)
deriving DecidableEq

namespace Suites

def handler (suites : Suites) (i : ℕ) : Option Suite := suites.toList.dropLast.dropLast.tail[i]?

def orElse (suites : Suites) : Suite := (suites.toList.dropLast.getLast?).getD .nil

def final (suites : Suites) : Suite := (suites.toList.getLast?).getD .nil

end Suites

/-- What stands behind a suite that a compound statement enters. -/
def marks (span : Span) (suites : Suites) : Compound → ℕ → Option (List Kont)
  | .ifStmt _, _ | .matchStmt _, _ => some []
  | .forStmt target iter, 0 => some [.loop (.compound span (.forStmt target iter) suites)]
  | .whileStmt test, 0 => some [.loop (.compound span (.whileStmt test) suites)]
  | .forStmt .., 1 | .whileStmt _, 1 => some []
  | .withStmt _, 0 => some [.leaving]
  | .tryStmt _, 0 => some [.handling suites]
  | _, _ => none

/-- One step of a statement, with what follows it. -/
def Stmt.begin (rest : Suite) (ks : List Kont) : Choice → Stmt → Option Control
  | _, .call _ => none
  | .raise, _ => some ⟨some .raised, ks⟩
  | .done, .simple _ (.exit how _) => some ⟨some how, ks⟩
  | .done, .simple .. | .done, .compound _ (.matchStmt _) _
  | .done, .compound _ (.functionDef ..) _ | .done, .compound _ (.classDef ..) _ =>
    some ⟨none, .suite rest :: ks⟩
  | .enter i, .compound span kind suites =>
    match marks span suites kind i, suites.toList[i]? with
    | some marks, some suite => some ⟨none, .suite suite :: (marks ++ .suite rest :: ks)⟩
    | _, _ => none
  | _, _ => none

/-- One step of what is left to do. -/
def Kont.run (ks : List Kont) : Choice → Kont → Option Control
  | .done, .suite .nil => some ⟨none, ks⟩
  | choice, .suite (.cons stmt rest) => stmt.begin rest ks choice
  | .done, .loop stmt => some ⟨none, .suite (.cons stmt .nil) :: ks⟩
  | .done, .handling suites =>
    some ⟨none, .suite suites.orElse :: .finally suites.final :: ks⟩
  | .done, .finally last => some ⟨none, .suite last :: ks⟩
  | .done, .leaving => some ⟨none, ks⟩
  | .raise, .leaving => some ⟨some .raised, ks⟩
  | .done, .pending signal => some ⟨some signal, ks⟩
  | _, _ => none

/-- One step out of it, on a signal. -/
def Kont.unwind (signal : Signal) (ks : List Kont) : Choice → Kont → Option Control
  | .done, .suite _ | .done, .pending _ => some ⟨some signal, ks⟩
  | .done, .loop stmt =>
    match signal with
    | .broke => some ⟨none, ks⟩
    | .continued => some ⟨none, .loop stmt :: ks⟩
    | _ => some ⟨some signal, ks⟩
  | .done, .handling suites => some ⟨none, .suite suites.final :: .pending signal :: ks⟩
  | .enter i, .handling suites =>
    if signal = .raised then
      (suites.handler i).map fun handler => ⟨none, .suite handler :: .finally suites.final :: ks⟩
    else none
  | .raise, .handling suites =>
    if signal = .raised then some ⟨none, .suite suites.final :: .pending .raised :: ks⟩ else none
  | .done, .finally last => some ⟨none, .suite last :: .pending signal :: ks⟩
  | .done, .leaving => some ⟨some signal, ks⟩
  | .enter 0, .leaving => if signal = .raised then some ⟨none, ks⟩ else none
  | .raise, .leaving => some ⟨some .raised, ks⟩
  | _, _ => none

def Control.next (choice : Choice) : Control → Option Control
  | ⟨_, []⟩ => none
  | ⟨none, kont :: ks⟩ => kont.run ks choice
  | ⟨some signal, kont :: ks⟩ => kont.unwind signal ks choice

/-- The statement a control is at. -/
def Control.head : Control → Option Stmt
  | ⟨none, .suite (.cons stmt _) :: _⟩ => some stmt
  | _ => none

/-- The names that get a value when a step ends so. -/
def Stmt.stores : Choice → Stmt → List String
  | .done, .simple _ (.assign targets _) => targets.flatMap Target.bound
  | .done, .simple _ (.annAssign target (some _)) => target.bound
  | .enter 0, .compound _ (.forStmt target _) _ => target.bound
  | .done, .compound _ (.functionDef name ..) _ | .done, .compound _ (.classDef name _) _ => [name]
  | _, _ => []

/-! ## States -/

structure Frame where
  chain : Chain
  control : Control

def Frame.owner (frame : Frame) : Option String := frame.chain.head?.bind fun p => p.1.owner

/-- A function object: its code and the scopes around it. -/
structure Closure where
  chain : Chain
  owner : Option String
  params : List String
  body : Suite

/-- The running frame first. Generators and coroutines that wait are suspended. -/
structure State (V : Type) where
  memory : Memory V
  frames : List Frame
  suspended : List Frame
  closures : List Closure
  fresh : ℕ

/-- `step`, `call` and the others leave the memory they name. -/
inductive Action (V : Type)
  | step (choice : Choice) (memory : Memory V) (values : String → V)
  | call (closure : ℕ) (memory : Memory V)
  | enterClass (memory : Memory V)
  | resume (frame : ℕ) (memory : Memory V)
  | suspend (memory : Memory V)
  | report

def Action.isReport {V : Type} : Action V → Bool
  | .report => true
  | _ => false

def Call.function : Call → String
  | .probe .. => "_atomis_probe"
  | .log .. => "_atomis_log"
  | .logLoop .. => "_atomis_log_loop"

/-- The name whose value a call is given. -/
def Call.reads : Call → Option String
  | .probe _ _ _ name => some name
  | .log .. => none
  | .logLoop _ _ _ loop => some loop.loopVariable

/-- What calling a value with another one leaves in memory, and whether it raises. -/
abbrev Apply (V : Type) := V → Option V → Memory V → Memory V × Bool

variable {V : Type}

def Frame.read (frame : Frame) (memory : Memory V) (name : String) : Option V :=
  memory.read frame.chain (mangle frame.owner name)

/-- What an inserted call leaves in memory, and whether it raises. -/
def Frame.outcome (apply : Apply V) (frame : Frame) (memory : Memory V) (call : Call) :
    Memory V × Bool :=
  match frame.read memory call.function, call.reads with
  | none, _ => (memory, true)
  | some function, none => apply function none memory
  | some function, some name =>
    match frame.read memory name with
    | none => (memory, true)
    | some value => apply function (some value) memory

/-- The inserted call the running frame is at. -/
def State.atCall (s : State V) : Option Call :=
  match s.frames with
  | frame :: _ =>
    match frame.control.head with
    | some (.call call) => some call
    | _ => none
  | [] => none

/-- The call leaves the memory as it was and does not raise. -/
def State.Quiet (apply : Apply V) (s : State V) (call : Call) : Prop :=
  ∀ frame ∈ s.frames.head?, frame.outcome apply s.memory call = (s.memory, false)

/-- The frame with the call behind it. -/
def Frame.afterCall (frame : Frame) (raised : Bool) : Frame :=
  match frame.control with
  | ⟨none, .suite (.cons (.call _) rest) :: ks⟩ =>
    { frame with control := ⟨if raised then some .raised else none, .suite rest :: ks⟩ }
  | _ => frame

def Frame.defines (frame : Frame) (choice : Choice) : List Closure :=
  match choice, frame.control.head with
  | .done, some (.compound _ (.functionDef _ params _) suites) =>
    suites.toList.map fun body => ⟨frame.chain, frame.owner, params, body⟩
  | _, _ => []

def Frame.stores (frame : Frame) (choice : Choice) : List String :=
  ((frame.control.head.map (Stmt.stores choice)).getD []).map (mangle frame.owner)

def Closure.frame (closure : Closure) (space : ℕ) : Frame :=
  ⟨(closure.body.scope .function closure.owner closure.params, space) :: closure.chain,
    ⟨none, [.suite closure.body]⟩⟩

/-- The frame of a class body. -/
def Frame.classFrame (frame : Frame) (space : ℕ) : Option Frame :=
  match frame.control.head with
  | some (.compound _ (.classDef name _) (.cons body .nil)) =>
    some ⟨(body.scope .cls (some name) [], space) :: frame.chain, ⟨none, [.suite body]⟩⟩
  | _ => none

/-- One step of the running frame; a frame with nothing left to do is dropped. -/
def State.advance (s : State V) (frame : Frame) (below : List Frame) (choice : Choice)
    (memory : Memory V) (values : String → V) : Option (State V) :=
  match frame.control.konts with
  | [] =>
    if choice = .done ∧ below ≠ [] then some { s with memory := memory, frames := below } else none
  | _ :: _ =>
    (frame.control.next choice).map fun control =>
      { s with
        memory := memory.bind frame.chain (frame.stores choice) values
        frames := { frame with control := control } :: below
        closures := s.closures ++ frame.defines choice }

def State.next (apply : Apply V) (s : State V) (a : Action V) : Option (State V) :=
  match s.frames with
  | [] => none
  | frame :: below =>
    match s.atCall, a with
    | some call, .report =>
      let outcome := frame.outcome apply s.memory call
      some { s with
        memory := outcome.1
        frames := frame.afterCall outcome.2 :: below }
    | none, .step choice memory values => s.advance frame below choice memory values
    | none, .call closure memory =>
      s.closures[closure]?.map fun closure =>
        { s with
          memory := memory
          frames := closure.frame s.fresh :: frame :: below
          fresh := s.fresh + 1 }
    | none, .enterClass memory =>
      (frame.classFrame s.fresh).map fun body =>
        { s with
          memory := memory
          frames := body :: frame :: below
          fresh := s.fresh + 1 }
    | none, .resume i memory =>
      s.suspended[i]?.map fun waiting =>
        { s with
          memory := memory
          frames := waiting :: frame :: below
          suspended := s.suspended.eraseIdx i }
    | none, .suspend memory =>
      if below ≠ [] then
        some { s with
          memory := memory
          frames := below
          suspended := s.suspended ++ [frame] }
      else none
    | _, _ => none

def State.exec (apply : Apply V) : State V → List (Action V) → Option (State V)
  | s, [] => some s
  | s, a :: as => (s.next apply a).bind fun s => s.exec apply as

/-- A module about to run. -/
def Suite.start (file : Suite) (memory : Memory V) : State V where
  memory := memory
  frames := [⟨[(file.scope .module none [], moduleSpace)], ⟨none, [.suite file]⟩⟩]
  suspended := []
  closures := []
  fresh := moduleSpace + 1

end Atomis.PyInstrument
