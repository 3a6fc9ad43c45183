import Atomis.Lib.SyntaxTree

/-!
# Python programs

The part of Python's syntax that the instrumenter and the scopes read: statements, suites,
and of an expression its names. What else a statement binds (an import, a capture, a
starred target) stands with the statement as a list of names.
-/

namespace Atomis.PyInstrument

open Atomis.SyntaxTree

/-! ## Syntax -/

/-- `lineno`, from 1, and a column in bytes. -/
structure Position where
  line : ℕ
  col : ℕ
deriving DecidableEq

structure Span where
  start : Position
  stop : Position
deriving DecidableEq

inductive Label
  | name (id : String)
  | call
  | namedExpr
  | lambda
  | other
deriving DecidableEq

inductive Part
  | func
  | target
  | body
  | part
deriving DecidableEq

abbrev Expr := RoseTree Label Part

structure Name where
  id : String
  span : Span
deriving DecidableEq

inductive Element
  | name (name : Name)
  | other (bound : List String)

inductive Target
  | name (name : Name)
  | tuple (elts : List Element)
  | list (elts : List Element)
  | other (bound : List String)

/-- How a suite is left before its end. -/
inductive Signal
  | raised
  | returned
  | broke
  | continued
deriving DecidableEq

inductive Simple
  | assign (targets : List Target) (value : Expr)
  | annAssign (target : Target) (value : Option Expr)
  | expr (value : Expr)
  | globalStmt (names : List String)
  | nonlocalStmt (names : List String)
  | exit (how : Signal) (bound : List String)
  | other (bound : List String)

/-- An `async` statement is as the one without `async`. -/
inductive Compound
  | ifStmt (test : Expr)
  | forStmt (target : Target) (iter : Expr)
  | whileStmt (test : Expr)
  | withStmt (bound : List String)
  | tryStmt (bound : List String)
  | matchStmt (bound : List String)
  | functionDef (name : String) (params : List String) (bound : List String)
  | classDef (name : String) (bound : List String)

structure LoopMeta where
  line : ℕ
  column : ℕ
  loopVariable : String
deriving DecidableEq

inductive Call
  | probe (id : String) (line column : ℕ) (name : String)
  | log (file line column : ℕ)
  | logLoop (file line column : ℕ) (loop : LoopMeta)
deriving DecidableEq

mutual

/-- `call` is an inserted one. The suites of a loop are its body and its `else`, those of a
`try` its body, its handlers, its `else` and its `finally`. -/
inductive Stmt
  | simple (span : Span) (simple : Simple)
  | compound (span : Span) (compound : Compound) (suites : Suites)
  | call (call : Call)

inductive Suite
  | nil
  | cons (stmt : Stmt) (rest : Suite)

inductive Suites
  | nil
  | cons (suite : Suite) (rest : Suites)

end

def Suites.toList : Suites → List Suite
  | .nil => []
  | .cons suite rest => suite :: rest.toList

def Suite.ofList : List Stmt → Suite
  | [] => .nil
  | stmt :: rest => .cons stmt (.ofList rest)

def Suites.ofList : List Suite → Suites
  | [] => .nil
  | suite :: rest => .cons suite (.ofList rest)

/-- Calls before the statements of a suite. -/
def Suite.after (calls : List Call) (suite : Suite) : Suite :=
  calls.foldr (fun call rest => .cons (.call call) rest) suite

/-! ## Names that are bound -/

def Element.bound : Element → List String
  | .name n => [n.id]
  | .other bound => bound

def Target.bound : Target → List String
  | .name n => [n.id]
  | .tuple elts | .list elts => elts.flatMap Element.bound
  | .other bound => bound

def nameOf : Expr → Option String
  | .node (.name id) _ => some id
  | _ => none

mutual

/-- The names that assignment expressions bind in the scope of an expression. -/
def assigned : Expr → List String
  | .node label children => assignedIn label children

def assignedIn (label : Label) : Forest Label Part → List String
  | .nil => []
  | .cons field child rest =>
    (if label = .namedExpr ∧ field = .target then (nameOf child).toList else []) ++
      (if label = .lambda ∧ field = .body then [] else assigned child) ++
      assignedIn label rest

end

def Simple.bound : Simple → List String
  | .assign targets value => targets.flatMap Target.bound ++ assigned value
  | .annAssign target value => target.bound ++ (value.map assigned).getD []
  | .expr value => assigned value
  | .globalStmt _ | .nonlocalStmt _ => []
  | .exit _ bound => bound
  | .other bound => bound

def Compound.bound : Compound → List String
  | .ifStmt test | .whileStmt test => assigned test
  | .forStmt target iter => target.bound ++ assigned iter
  | .withStmt bound | .tryStmt bound | .matchStmt bound => bound
  | .functionDef name _ bound | .classDef name bound => name :: bound

def Compound.opensScope : Compound → Bool
  | .functionDef .. | .classDef .. => true
  | _ => false

mutual

/-- The simple and compound statements of one scope, those in the suites of compound ones
included. -/
def Stmt.own : Stmt → List (Simple ⊕ Compound)
  | .simple _ simple => [.inl simple]
  | .compound _ compound suites =>
    .inr compound :: if compound.opensScope then [] else suites.own
  | .call _ => []

def Suite.own : Suite → List (Simple ⊕ Compound)
  | .nil => []
  | .cons stmt rest => stmt.own ++ rest.own

def Suites.own : Suites → List (Simple ⊕ Compound)
  | .nil => []
  | .cons suite rest => suite.own ++ rest.own

end

/-! ## Scopes -/

/-- `__name` in a class `Class` is `_Class__name`. -/
def mangle (owner : Option String) (name : String) : String :=
  match owner with
  | none => name
  | some cls =>
    let stem := cls.toList.dropWhile (· = '_')
    if ['_', '_'].isPrefixOf name.toList && !(['_', '_'].isSuffixOf name.toList) && stem ≠ [] then
      String.ofList ('_' :: stem) ++ name
    else name

inductive ScopeKind
  | module
  | function
  | cls
deriving DecidableEq

/-- What the compiler knows of the names of a block; `owner` is the innermost class around. -/
structure Scope where
  kind : ScopeKind
  owner : Option String
  binds : List String
  globals : List String
  nonlocals : List String
deriving DecidableEq

def globalNames : Simple ⊕ Compound → List String
  | .inl (.globalStmt names) => names
  | _ => []

def nonlocalNames : Simple ⊕ Compound → List String
  | .inl (.nonlocalStmt names) => names
  | _ => []

def Suite.scope (kind : ScopeKind) (owner : Option String) (params : List String)
    (body : Suite) : Scope :=
  let own := body.own
  let globals := (own.flatMap globalNames).map (mangle owner)
  let nonlocals := (own.flatMap nonlocalNames).map (mangle owner)
  { kind := kind
    owner := owner
    binds := ((params ++ own.flatMap (Sum.elim Simple.bound Compound.bound)).map
      (mangle owner)).filter fun name => name ∉ globals ∧ name ∉ nonlocals
    globals := globals
    nonlocals := nonlocals }

/-- A scope with the number of its namespace, the scopes around it behind. -/
abbrev Chain := List (Scope × ℕ)

/-- The namespaces of the builtins and of the module. -/
def builtinSpace : ℕ := 0

def moduleSpace : ℕ := 1

/-- The function around that has the name as a variable of its own. -/
def cellOf : Chain → String → Option ℕ
  | [], _ => none
  | (scope, space) :: outer, name =>
    if scope.kind = .function then
      if name ∈ scope.globals then none
      else if name ∈ scope.binds then some space
      else cellOf outer name
    else cellOf outer name

/-- The namespaces a name is looked up in, the first one first. -/
def spacesOf : Chain → String → List ℕ
  | [], _ => [moduleSpace, builtinSpace]
  | (scope, space) :: outer, name =>
    let global := [moduleSpace, builtinSpace]
    if name ∈ scope.globals then global
    else
      match scope.kind with
      | .module => global
      | .function =>
        if name ∈ scope.binds then [space]
        else
          match cellOf outer name with
          | some cell => [cell]
          | none => global
      | .cls =>
        if name ∈ scope.binds then space :: global
        else
          match cellOf outer name with
          | some cell => [space, cell]
          | none => space :: global

/-- The namespace an assignment in the innermost scope writes to. -/
def storeSpace : Chain → String → ℕ
  | [], _ => moduleSpace
  | (scope, space) :: outer, name =>
    if name ∈ scope.globals then moduleSpace
    else
      match scope.kind with
      | .module => moduleSpace
      | .function =>
        if name ∈ scope.binds then space else (cellOf outer name).getD moduleSpace
      | .cls =>
        if name ∈ scope.nonlocals ∧ name ∉ scope.binds then (cellOf outer name).getD space
        else space

theorem storeSpace_mem (chain : Chain) (name : String) :
    storeSpace chain name ∈ spacesOf chain name := by
  cases chain with
  | nil => exact List.mem_cons_self
  | cons head outer =>
    obtain ⟨scope, space⟩ := head
    simp only [storeSpace, spacesOf]
    by_cases hglobal : name ∈ scope.globals
    · simp [hglobal]
    · by_cases hbinds : name ∈ scope.binds
      · cases hkind : scope.kind <;> simp [hglobal, hbinds]
      · by_cases hnonlocal : name ∈ scope.nonlocals <;> cases hcell : cellOf outer name <;>
          cases hkind : scope.kind <;> simp [hglobal, hbinds, hnonlocal]

/-! ## Memory -/

/-- Which names have a value in which namespace. -/
abbrev Memory (V : Type) := ℕ → String → Option V

variable {V : Type}

def Memory.read (memory : Memory V) (chain : Chain) (name : String) : Option V :=
  (spacesOf chain name).findSome? fun space => memory space name

def Memory.write (memory : Memory V) (chain : Chain) (name : String) (value : V) : Memory V :=
  fun space other => if space = storeSpace chain name ∧ other = name then some value
    else memory space other

/-- The names a statement binds get their values one after the other. -/
def Memory.bind (memory : Memory V) (chain : Chain) (names : List String)
    (values : String → V) : Memory V :=
  names.foldl (fun memory name => memory.write chain name (values name)) memory

section
variable {memory : Memory V} {chain : Chain} {name : String} {names : List String}
  {values : String → V} {space : ℕ}

theorem Memory.bind_isSome (h : (memory space name).isSome = true) :
    (memory.bind chain names values space name).isSome = true := by
  induction names generalizing memory with
  | nil => exact h
  | cons first rest ih =>
    refine ih ?_
    simp only [Memory.write]
    split_ifs
    · rfl
    · exact h

/-- What a statement binds can be read right after it. -/
theorem Memory.read_bind (h : name ∈ names) :
    ((memory.bind chain names values).read chain name).isSome = true := by
  have hstored : (memory.bind chain names values (storeSpace chain name) name).isSome = true := by
    induction names generalizing memory with
    | nil => exact absurd h List.not_mem_nil
    | cons first rest ih =>
      rcases List.mem_cons.mp h with rfl | h
      · have hwritten : (memory.write chain name (values name) (storeSpace chain name) name).isSome =
            true := by
          simp [Memory.write]
        change ((memory.write chain name (values name)).bind chain rest values _ _).isSome = true
        exact Memory.bind_isSome hwritten
      · exact ih h
  rw [Memory.read, List.findSome?_isSome_iff]
  exact ⟨_, storeSpace_mem chain name, hstored⟩

end

end Atomis.PyInstrument
