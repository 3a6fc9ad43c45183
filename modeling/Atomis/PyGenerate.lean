import Atomis.Lib.Lines
import Atomis.Lib.OneLine
import Atomis.PyInstrument

/-!
# What the Python instrumenter writes

`instrument`: the calls that the collector recorded are inserted into the lines of the
source, the last place first. The parser is a parameter.
-/

namespace Atomis.PyInstrument

open Atomis.SyntaxTree Atomis.Instrument

/-! ## The instrumenter -/

def bytes (text : String) : List UInt8 := Utf8.encode text.toList

/-- What is known of a refusal: `msg`, `lineno` and `offset`. -/
structure SyntaxError where
  msg : Option String
  lineno : Option ℕ
  offset : Option ℕ

abbrev Parser := List UInt8 → Except SyntaxError Suite

structure Diagnostic where
  message : String
  line : ℕ
  column : ℕ
deriving DecidableEq

structure Output where
  generated : Option (List UInt8)
  probes : List Probe
  parseDiagnostics : List Diagnostic
deriving DecidableEq

/-- `error.lineno or 1`. -/
def orOne (number : Option ℕ) : ℕ := if number.getD 0 = 0 then 1 else number.getD 0

def SyntaxError.diagnostic (error : SyntaxError) : Diagnostic :=
  ⟨if error.msg.getD "" = "" then "invalid syntax" else error.msg.getD "", orOne error.lineno,
    orOne error.offset⟩

def callMarks : List String := ["; _atomis_probe(\"", "; _atomis_log(", "; _atomis_log_loop("]

/-- A text that was instrumented before. -/
def marked (source : List UInt8) : Bool := callMarks.any fun mark => bytes mark <:+: source

/-- `source.split("\n")`. -/
def encodedLines (source : List UInt8) : List (List UInt8) :=
  (Lines.split 10 [] source).1 ++ [(Lines.split 10 [] source).2]

/-- Whether a place is not in front of another. -/
def notBefore (left right : Position) : Bool :=
  right.line < left.line || (right.line = left.line && right.col ≤ left.col)

/-- `sort(key=…, reverse=True)`: what has one key stays in its order. -/
def sorted (insertions : List Insertion) : List Insertion :=
  insertions.mergeSort fun i j => notBefore i.place j.place

/-- `none` is an `IndexError`. -/
def insertInto (lines : List (List UInt8)) (insertion : Insertion) : Option (List (List UInt8)) :=
  let index := insertion.place.line - 1
  match lines[index]? with
  | some line =>
    some (lines.set index (line.take insertion.place.col ++ bytes insertion.call.text ++
      line.drop insertion.place.col))
  | none => none

/-- `none` is an exception. -/
def instrument (parse : Parser) (o : Options) (source : List UInt8) : Option Output :=
  if marked source then some ⟨some source, [], []⟩
  else
    match parse source with
    | .error error => some ⟨none, [], [error.diagnostic]⟩
    | .ok file =>
      let collector := collect o source file
      if collector.failed then none
      else
        match (sorted collector.insertions).foldlM insertInto (encodedLines source) with
        | none => none
        | some lines =>
          let generated := [10].intercalate lines
          if generated.count 10 ≠ source.count 10 then
            some ⟨none, [], [⟨"instrumentation would change the line count", 1, 1⟩]⟩
          else some ⟨some generated, collector.probes, []⟩

/-! ## What the parser promises -/

def Element.names : Element → List Name
  | .name n => [n]
  | .other _ => []

def Target.names : Target → List Name
  | .name n => [n]
  | .tuple elts | .list elts => elts.flatMap Element.names
  | .other _ => []

/-- The names that a statement assigns to. -/
def Simple.names : Simple → List Name
  | .assign targets _ => targets.flatMap Target.names
  | .annAssign target _ => target.names
  | _ => []

def Position.Within (lines : List (List UInt8)) (place : Position) : Prop :=
  0 < place.line ∧ ∃ line, lines[place.line - 1]? = some line ∧ place.col ≤ line.length

/-- A place in a text whose lines end in `\n`. -/
def Position.In (source : List UInt8) (place : Position) : Prop :=
  place.Within (encodedLines source)

def Label.Plain : Label → Prop
  | .name id => OneLine id
  | _ => True

mutual

def Named : Expr → Prop
  | .node label children => label.Plain ∧ NamedIn children

def NamedIn : Forest Label Part → Prop
  | .nil => True
  | .cons _ child rest => Named child ∧ NamedIn rest

end

structure Simple.Placed (source : List UInt8) (span : Span) (simple : Simple) : Prop where
  stop : span.stop.In source
  names : ∀ name ∈ simple.names,
    name.span.start.In source ∧ name.span.stop.In source ∧ OneLine name.id

def Compound.Named : Compound → Prop
  | .forStmt target _ => ∀ name ∈ target.names, OneLine name.id
  | .whileStmt test => PyInstrument.Named test
  | _ => True

section
variable (P : Span → Simple → Prop) (Q : Compound → Prop)

mutual

/-- `P` of the simple statements and `Q` of the compound ones, and no inserted calls. -/
def Stmt.Each : Stmt → Prop
  | .simple span simple => P span simple
  | .compound _ compound suites => Q compound ∧ suites.Each
  | .call _ => False

def Suite.Each : Suite → Prop
  | .nil => True
  | .cons stmt rest => stmt.Each ∧ rest.Each

def Suites.Each : Suites → Prop
  | .nil => True
  | .cons suite rest => suite.Each ∧ rest.Each

end

end

/-- `\r\n` and `\r` are `\n`. -/
def translate : List UInt8 → List UInt8
  | 13 :: 10 :: rest => 10 :: translate rest
  | 13 :: rest => 10 :: translate rest
  | byte :: rest => byte :: translate rest
  | [] => []

/-- Line ends are all one to the parser, the places it gives are in the text, and no line
ends in a name. -/
structure Parser.Documented (parse : Parser) : Prop where
  translated : ∀ source, parse (translate source) = parse source
  placed : ∀ source file, 13 ∉ source → parse source = .ok file →
    file.Each (Simple.Placed source) Compound.Named

/-! ## What a visit keeps -/

section
variable {o : Options} {text : List UInt8} {P : Span → Simple → Prop} {Q : Compound → Prop}
  {I : Collector → Prop} {c : Collector}

mutual

theorem Stmt.visit_keeps (hsimple : ∀ span simple c, P span simple → I c →
      I (visitSimple o text span simple c))
    (hpush : ∀ span compound loop c, Q compound → loopMeta span compound = some loop → I c →
      I { c with loops := loop :: c.loops })
    (hpop : ∀ c, I c → I { c with loops := c.loops.drop 1 }) (stmt : Stmt)
    (h : stmt.Each P Q) {c : Collector} (hc : I c) : I (stmt.visit o text c) := by
  match stmt with
  | .simple span simple => exact hsimple span simple c h hc
  | .compound span compound suites =>
    simp only [Stmt.visit]
    split
    next loop hloop =>
      exact hpop _ (suites.visit_keeps hsimple hpush hpop h.2
        (hpush span compound loop c h.1 hloop hc))
    next => exact suites.visit_keeps hsimple hpush hpop h.2 hc
  | .call _ => exact h.elim

theorem Suite.visit_keeps (hsimple : ∀ span simple c, P span simple → I c →
      I (visitSimple o text span simple c))
    (hpush : ∀ span compound loop c, Q compound → loopMeta span compound = some loop → I c →
      I { c with loops := loop :: c.loops })
    (hpop : ∀ c, I c → I { c with loops := c.loops.drop 1 }) (suite : Suite)
    (h : suite.Each P Q) {c : Collector} (hc : I c) : I (suite.visit o text c) := by
  match suite with
  | .nil => exact hc
  | .cons stmt rest =>
    exact rest.visit_keeps hsimple hpush hpop h.2 (stmt.visit_keeps hsimple hpush hpop h.1 hc)

theorem Suites.visit_keeps (hsimple : ∀ span simple c, P span simple → I c →
      I (visitSimple o text span simple c))
    (hpush : ∀ span compound loop c, Q compound → loopMeta span compound = some loop → I c →
      I { c with loops := loop :: c.loops })
    (hpop : ∀ c, I c → I { c with loops := c.loops.drop 1 }) (suites : Suites)
    (h : suites.Each P Q) {c : Collector} (hc : I c) : I (suites.visit o text c) := by
  match suites with
  | .nil => exact hc
  | .cons suite rest =>
    exact rest.visit_keeps hsimple hpush hpop h.2 (suite.visit_keeps hsimple hpush hpop h.1 hc)

end

/-- A simple statement is recorded with one of its names, or it is a call of `print`. -/
theorem visitSimple_cases (o : Options) (text : List UInt8) (span : Span) (simple : Simple) (c : Collector) :
    visitSimple o text span simple c = c ∨
      (∃ name ∈ simple.names, ∃ reason,
        visitSimple o text span simple c = record o text name span reason c) ∨
      visitSimple o text span simple c =
        { c with insertions := c.insertions ++ [⟨span.stop, logCall o span.start c.loops⟩] } := by
  have hfirst : ∀ {elts : List Element} {first : Name}, firstName elts = some first →
      first ∈ elts.flatMap Element.names := by
    intro elts first hfirst
    obtain ⟨element, hmem, helement⟩ := List.exists_of_findSome?_eq_some hfirst
    refine List.mem_flatMap.mpr ⟨element, hmem, ?_⟩
    cases element with
    | name n => simpa [Element.names] using helement.symm
    | other _ => cases helement
  have htargets : ∀ {targets : List Target} {value : Expr} {target : Target} {n : Name},
      target ∈ targets → n ∈ target.names → n ∈ (Simple.assign targets value).names :=
    fun htarget hn => List.mem_flatMap.mpr ⟨_, htarget, hn⟩
  simp only [visitSimple]
  split
  next n value =>
    exact .inr (.inl ⟨n, htargets List.mem_cons_self List.mem_cons_self, none, rfl⟩)
  next elts value =>
    split
    next first hsome =>
      exact .inr (.inl ⟨first, htargets List.mem_cons_self (hfirst hsome), _, rfl⟩)
    next => exact .inl rfl
  next elts value =>
    split
    next first hsome =>
      exact .inr (.inl ⟨first, htargets List.mem_cons_self (hfirst hsome), _, rfl⟩)
    next => exact .inl rfl
  next n _ _ value =>
    exact .inr (.inl ⟨n, htargets List.mem_cons_self List.mem_cons_self, _, rfl⟩)
  next n value => exact .inr (.inl ⟨n, List.mem_cons_self, none, rfl⟩)
  next n => exact .inr (.inl ⟨n, List.mem_cons_self, _, rfl⟩)
  next value =>
    split_ifs
    · exact .inr (.inr rfl)
    · exact .inl rfl
  next => exact .inl rfl

end

/-! ## Calls are of one line -/

section
variable {o : Options} {text : List UInt8} {c : Collector} {file : Suite} {name : String}

theorem oneLine_quoted (h : OneLine name) : OneLine (quoted name) :=
  ((show OneLine "\"" by decide).append h).append (by decide)

def Call.Plain : Call → Prop
  | .probe id _ _ name => OneLine id ∧ OneLine name
  | .log .. => True
  | .logLoop _ _ _ loop => OneLine loop.loopVariable

theorem Call.text_probe (id : String) (line column : ℕ) (name : String) :
    (Call.probe id line column name).text =
      "; _atomis_probe(" ++ quoted id ++ ", " ++ toString line ++ ", " ++ toString column ++ ", " ++
        quoted name ++ ", " ++ name ++ ")" := rfl

theorem Call.text_log (file line column : ℕ) :
    (Call.log file line column).text = "; _atomis_log(1, " ++ toString file ++ ", " ++
      toString line ++ ", " ++ toString column ++ ")" := rfl

theorem Call.text_logLoop (file line column : ℕ) (loop : LoopMeta) :
    (Call.logLoop file line column loop).text =
      "; _atomis_log_loop(1, " ++ toString file ++ ", " ++ toString line ++ ", " ++
        toString column ++ ", " ++ toString loop.line ++ ", " ++ toString loop.column ++ ", " ++
        quoted loop.loopVariable ++ ", " ++ loop.loopVariable ++ ")" := rfl

theorem Call.Plain.oneLine {call : Call} (h : call.Plain) : OneLine call.text := by
  have hnumber := OneLine.decimal
  cases call with
  | probe id line column name =>
    have hid := oneLine_quoted h.1
    have hquoted := oneLine_quoted h.2
    simp only [Call.text_probe, OneLine.append_iff, and_assoc]
    exact ⟨by decide, hid, by decide, hnumber line, by decide, hnumber column, by decide, hquoted,
      by decide, h.2, by decide⟩
  | log file line column =>
    simp only [Call.text_log, OneLine.append_iff, and_assoc]
    exact ⟨by decide, hnumber file, by decide, hnumber line, by decide, hnumber column, by decide⟩
  | logLoop file line column loop =>
    have hquoted := oneLine_quoted h
    simp only [Call.text_logLoop, OneLine.append_iff, and_assoc]
    exact ⟨by decide, hnumber file, by decide, hnumber line, by decide, hnumber column, by decide,
      hnumber loop.line, by decide, hnumber loop.column, by decide, hquoted, by decide, h,
      by decide⟩

structure Collector.Plain (c : Collector) : Prop where
  insertions : ∀ i ∈ c.insertions, i.call.Plain
  loops : ∀ loop ∈ c.loops, OneLine loop.loopVariable

theorem Collector.Plain.record (h : c.Plain) {n : Name} (hn : OneLine n.id) (span : Span)
    (reason : Option String) : (record o text n span reason c).Plain where
  insertions := by
    intro i hi
    simp only [PyInstrument.record] at hi
    split_ifs at hi
    · rcases List.mem_append.mp hi with hi | hi
      · exact h.insertions i hi
      · rw [List.mem_singleton.mp hi]
        exact ⟨oneLine_probeId _ _ _ _, hn⟩
    · exact h.insertions i hi
  loops := h.loops

theorem plain_logCall {start : Position} {loops : List LoopMeta}
    (h : ∀ loop ∈ loops, OneLine loop.loopVariable) : (logCall o start loops).Plain := by
  cases loops with
  | nil => trivial
  | cons loop loops =>
    simp only [logCall]
    split_ifs
    · exact h loop List.mem_cons_self
    · trivial

theorem namedIn_trees (children : Forest Label Part) (h : NamedIn children) :
    ∀ child ∈ children.trees, Named child := by
  match children with
  | .nil => exact fun child hchild => absurd hchild List.not_mem_nil
  | .cons _ first rest =>
    intro child hchild
    rcases List.mem_cons.mp hchild with rfl | hchild
    · exact h.1
    · exact namedIn_trees rest h.2 child hchild

theorem Named.children {t : Expr} (h : Named t) : ∀ child ∈ t.children.trees, Named child := by
  match t with
  | .node _ children => exact namedIn_trees children h.2

theorem named_walk {fuel : ℕ} {queue : List Expr} (h : ∀ t ∈ queue, Named t) :
    ∀ t ∈ walk fuel queue, Named t := by
  induction fuel generalizing queue with
  | zero => simp [walk]
  | succ fuel ih =>
    cases queue with
    | nil => simp [walk]
    | cons node queue =>
      obtain ⟨hnode, hqueue⟩ := List.forall_mem_cons.mp h
      refine List.forall_mem_cons.mpr ⟨hnode, ih fun t ht => ?_⟩
      rcases List.mem_append.mp ht with ht | ht
      · exact hqueue t ht
      · exact hnode.children t ht

theorem oneLine_firstName {elts : List Element} (h : ∀ n ∈ elts.flatMap Element.names, OneLine n.id) :
    OneLine (((firstName elts).map Name.id).getD "") := by
  cases hfirst : firstName elts with
  | none => exact OneLine.empty
  | some n =>
    obtain ⟨element, hmem, helement⟩ := List.exists_of_findSome?_eq_some hfirst
    cases element with
    | name n' =>
      obtain rfl := Option.some.inj helement
      exact h n' (List.mem_flatMap.mpr ⟨_, hmem, List.mem_singleton_self n'⟩)
    | other _ => cases helement

theorem oneLine_loopMeta {span : Span} {compound : Compound} {loop : LoopMeta}
    (h : compound.Named) (hloop : loopMeta span compound = some loop) :
    OneLine loop.loopVariable := by
  obtain ⟨variable', hvariable, rfl⟩ := Option.map_eq_some_iff.mp hloop
  match compound, hvariable with
  | .forStmt (.name n) _, hvariable =>
    obtain rfl := Option.some.inj hvariable
    exact h n List.mem_cons_self
  | .forStmt (.tuple elts) _, hvariable =>
    obtain rfl := Option.some.inj hvariable
    exact oneLine_firstName h
  | .forStmt (.list _) _, hvariable | .forStmt (.other _) _, hvariable =>
    obtain rfl := Option.some.inj hvariable
    exact OneLine.empty
  | .whileStmt test, hvariable =>
    obtain rfl := Option.some.inj hvariable
    cases hfound : (walk (test.occurrences []).length [test]).findSome? nameOf with
    | none => exact OneLine.empty
    | some id =>
      obtain ⟨node, hmem, hnode⟩ := List.exists_of_findSome?_eq_some hfound
      have htest : ∀ t ∈ [test], Named t := List.forall_mem_singleton.mpr h
      have hnamed : Named node := named_walk htest node hmem
      match node, hnode, hnamed with
      | .node (.name _) _, hnode, hnamed =>
        obtain rfl := Option.some.inj hnode
        exact hnamed.1

theorem plain_collect (h : file.Each (fun _ simple => ∀ n ∈ simple.names, OneLine n.id)
    Compound.Named) : (collect o text file).Plain := by
  refine file.visit_keeps (I := Collector.Plain) ?_ ?_ ?_ h ⟨by simp [Collector.new], by
    simp [Collector.new]⟩
  · intro span simple c hsimple hc
    rcases visitSimple_cases o text span simple c with
      hsame | ⟨n, hn, reason, hrecord⟩ | hlog
    · rwa [hsame]
    · rw [hrecord]
      exact hc.record (hsimple n hn) span reason
    · rw [hlog]
      refine ⟨fun i hi => ?_, hc.loops⟩
      rcases List.mem_append.mp hi with hi | hi
      · exact hc.insertions i hi
      · rw [List.mem_singleton.mp hi]
        exact plain_logCall hc.loops
  · intro span compound loop c hcompound hloop hc
    exact ⟨hc.insertions, List.forall_mem_cons.mpr ⟨oneLine_loopMeta hcompound hloop, hc.loops⟩⟩
  · intro c hc
    exact ⟨hc.insertions, fun loop hloop => hc.loops loop (List.mem_of_mem_drop hloop)⟩

end

end Atomis.PyInstrument
