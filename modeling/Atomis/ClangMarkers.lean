import Atomis.ClangInstrument

/-!
# C and C++ markers

What the variable of a marker denotes where the marker stands, and which loop the marker is in.
-/

namespace Atomis.ClangInstrument

open Atomis.SyntaxTree Atomis.Instrument

/-! ## Scopes -/

/-- What a name denotes: a variable or not, one of clang's own or not, in a function's frame or
not. -/
structure Entity where
  isVariable : Bool
  implicit : Bool
  automatic : Bool
deriving DecidableEq

abbrev Scope := String → Option Entity

def Scope.declare (scope : Scope) (names : List (String × Entity)) : Scope :=
  names.foldl (fun scope p => Function.update scope p.1 (some p.2)) scope

/-- What a closure has of the scope around it: of the variables in the frame, those that it
captures. -/
def Scope.close (scope : Scope) (captured : String → Bool) : Scope := fun name =>
  (scope name).filter fun entity => !entity.automatic || captured name

def declaredHere (t : Ast) : List (String × Entity) :=
  match t.kind.kind with
  | .varDecl name _ implicit automatic => [(name, ⟨true, implicit, automatic⟩)]
  | .parmVarDecl name => [(name, ⟨true, false, true⟩)]
  | .functionDecl name => [(name, ⟨false, false, false⟩)]
  | _ => []

/-- What a node declares for the nodes behind it. -/
def declared (t : Ast) : List (String × Entity) :=
  match t.kind.kind with
  | .declStmt => t.children.trees.flatMap declaredHere
  | _ => declaredHere t

def closeFor (kind : Kind) (scope : Scope) : Scope :=
  match kind with
  | .lambdaExpr (some captures) => scope.close fun name => captures.contains name
  | .cxxRecordDecl false => scope.close fun _ => false
  | _ => scope

/-- The innermost loop is that of the same function body. -/
structure Context where
  scope : Scope
  loop : Option (Node × Forest Node Unit)

def Context.enter (context : Context) (node : Node) (children : Forest Node Unit) : Context where
  scope := closeFor node.kind context.scope
  loop :=
    if node.kind.isClosure then Option.none
    else if node.kind.isLoop then some (node, children)
    else context.loop

/-- A child sees what the children before it declare. -/
def down (_ : Place) (node : Node) (children : Forest Node Unit) (_ : Unit) (index : ℕ)
    (context : Context) : Context :=
  let inner := context.enter node children
  ⟨inner.scope.declare ((children.trees.take index).flatMap declared), inner.loop⟩

abbrev ScopedNode := Site Node Unit Context

def sites (ast : Ast) : List ScopedNode := ast.sites down [] ⟨fun _ => Option.none, Option.none⟩

/-- The context at a byte of the text: that inside of the last node around it, behind the
children that end before it. -/
def contextAt (ast : Ast) (offset : ℕ) : Option Context :=
  let around := (sites ast).filter fun site =>
    site.tree.kind.range.any fun range => range.first ≤ offset && offset ≤ range.last
  around.getLast?.map fun site =>
    let inner := site.context.enter site.tree.kind site.tree.children
    let before := site.tree.children.trees.filter fun child =>
      child.kind.range.any fun range => range.last ≤ offset
    ⟨inner.scope.declare (before.flatMap declared), inner.loop⟩

/-! ## Markers -/

/-- The line and the column of a byte. -/
def placeAt (source : List Char) (offset : ℕ) : ℕ × ℕ :=
  let before := (Utf8.encode source).take offset
  (before.count 10 + 1, (before.reverse.takeWhile (· ≠ 10)).length + 1)

/-- The variable of the loop is one of the source's and can be read, and the loop is where the
innermost one is. -/
def Fits (source : List Char) (context : Context) (loop : LoopMeta) : Prop :=
  (∃ entity, context.scope loop.loopVariable = some entity ∧ entity.isVariable = true ∧
    entity.implicit = false) ∧
  ∃ node children range, context.loop = some (node, children) ∧ node.range = some range ∧
    (loop.line, loop.column) = placeAt source range.first

/-- The context an insertion stands in. -/
inductive StandsIn (ast : Ast) (i : Insertion) : Context → Prop
  | node {site : ScopedNode} (mem : site ∈ sites ast) (place : i.place = some site.place) :
      StandsIn ast i site.context
  | text {context : Context} (place : i.place = Option.none)
      (context_eq : contextAt ast i.offset = some context) : StandsIn ast i context

/-- Each marker with a loop stands where its variable and its loop are right. -/
def RightMarkers (o : Options) (source : List Char) (ast : Ast) : Prop :=
  ∀ i ∈ (collect o source ast).insertions, ∀ fd line column loop,
    i.snippet = .marker fd line column (some loop) →
      ∃ context, StandsIn ast i context ∧ Fits source context loop

/-! ## What the visit collects -/

section
variable {o : Options} {source : List Char} {place : Place} {node : Node}
  {children : Forest Node Unit} {c c' c'' : Collector} {context : Context}
  {l l' : List ScopedNode}

def contextMeta (context : Context) : Option LoopMeta :=
  context.loop.map fun p => loopMeta p.1 p.2

def statementMarker (source : List Char) (site : ScopedNode) : Option Insertion :=
  (marked source site.place site.tree.kind).map fun p => ⟨p.2.last,
    .marker p.1 p.2.firstLine p.2.firstCol (named (contextMeta site.context)), some site.place⟩

/-- A node that may have a marker of its own. -/
def IsPlain (kind : Kind) : Bool := !(kind = .none || kind.isClosure || kind.isLoop)

def siteMarker (source : List Char) (site : ScopedNode) : Option Insertion :=
  if IsPlain site.tree.kind.kind then statementMarker source site else Option.none

def siteLine (source : List Char) (site : ScopedNode) : Option ℕ :=
  if IsPlain site.tree.kind.kind then
    (marked source site.place site.tree.kind).map fun p => p.2.firstLine
  else Option.none

def siteRange (site : ScopedNode) : Option LoopRange :=
  if site.tree.kind.kind.isLoop then loopRange site.tree.kind site.tree.children else Option.none

def isMarker (i : Insertion) : Bool :=
  match i.snippet with
  | .marker .. => true
  | .probe .. => false

structure Walked (source : List Char) (l : List ScopedNode) (c c' : Collector) : Prop where
  loops : c'.loops = c.loops
  markers : c'.insertions.filter isMarker =
    c.insertions.filter isMarker ++ l.filterMap (siteMarker source)
  lines : c'.markedLines = c.markedLines ++ l.filterMap (siteLine source)
  ranges : c'.loopRanges = c.loopRanges ++ l.filterMap siteRange

/-- The top of the stack is the innermost loop of the function body, where it has a variable. -/
def Reached (context : Context) (c : Collector) : Prop :=
  named c.loops.head? = named (contextMeta context)

theorem walked_nil : Walked source [] c c :=
  ⟨rfl, (List.append_nil _).symm, (List.append_nil _).symm, (List.append_nil _).symm⟩

theorem Walked.append (h : Walked source l c c') (h' : Walked source l' c' c'') :
    Walked source (l ++ l') c c'' where
  loops := h'.loops.trans h.loops
  markers := by rw [h'.markers, h.markers, List.append_assoc, List.filterMap_append]
  lines := by rw [h'.lines, h.lines, List.append_assoc, List.filterMap_append]
  ranges := by rw [h'.ranges, h.ranges, List.append_assoc, List.filterMap_append]

theorem recordProbe_walked {range : SourceRange} {name : String} {declared : ℕ × ℕ × ℕ}
    {reason : Option String} :
    Walked source [] c (recordProbe o place range name declared reason c) := by
  refine ⟨rfl, ?_, (List.append_nil _).symm, (List.append_nil _).symm⟩
  rw [recordProbe]
  dsimp only
  split_ifs
  · rw [List.filter_append]
    rfl
  · exact (List.append_nil _).symm

theorem recordDecl_walked : Walked source [] c (recordDecl o source place node children c) := by
  unfold recordDecl
  dsimp only
  split
  · exact recordProbe_walked
  · exact recordProbe_walked
  · exact walked_nil

theorem down_contextMeta {index : ℕ} : contextMeta (down place node children () index context) =
    if node.kind.isClosure then Option.none
    else if node.kind.isLoop then some (loopMeta node children) else contextMeta context := by
  rw [down, contextMeta, Context.enter]
  dsimp only
  split_ifs <;> rfl

theorem sites_plain (hplain : IsPlain node.kind = false) (hloop : node.kind.isLoop = false)
    {t : Ast} (ht : t.kind = node) :
    Walked source [⟨place, t, context⟩] c c := by
  refine ⟨rfl, ?_, ?_, ?_⟩
  · simp [siteMarker, ht, hplain]
  · simp [siteLine, ht, hplain]
  · simp [siteRange, ht, hloop]

theorem markStatement_walked (h : Reached context c) (hplain : IsPlain node.kind = true) :
    Walked source [⟨place, .node node children, context⟩] c
      (markStatement source place node c) := by
  have hloop : node.kind.isLoop = false := by
    simp only [IsPlain, Bool.not_eq_true', Bool.or_eq_false_iff] at hplain
    exact hplain.2
  unfold markStatement
  cases hmarked : marked source place node with
  | none =>
    refine ⟨rfl, ?_, ?_, ?_⟩
    · simp [siteMarker, RoseTree.kind, hplain, statementMarker, hmarked]
    · simp [siteLine, RoseTree.kind, hplain, hmarked]
    · simp [siteRange, RoseTree.kind, hloop]
  | some p =>
    obtain ⟨fd, range⟩ := p
    refine ⟨rfl, ?_, ?_, ?_⟩
    · simp [siteMarker, RoseTree.kind, hplain, statementMarker, hmarked, isMarker,
        show named c.loops.head? = named (contextMeta context) from h]
    · simp [siteLine, RoseTree.kind, hplain, hmarked]
    · simp [siteRange, RoseTree.kind, hloop]

/-- The visit marks the statements that write, with the innermost loop of the function body. -/
theorem visit_walked (o : Options) (source : List Char) (ast : Ast) :
    Walked source (sites ast) .new (ast.visit (visit o source) [] .new) := by
  refine RoseTree.visit_sites (fun _ context c => Reached context c) (Walked source)
    (fun _ => walked_nil)
    (fun h h' => h.append h') (fun hr h => ?_) (fun {place context node children c} f hr hf => ?_)
    ast (rfl : Reached ⟨fun _ => Option.none, Option.none⟩ .new)
  · rw [Reached, h.loops]
    exact hr
  have hsites (c c' : Collector) (h : Walked source [⟨place, .node node children, context⟩] c c')
      (c'' : Collector)
      (h' : Walked source (children.sites down place node 0 context children) c' c'') :
      Walked source (⟨place, .node node children, context⟩ ::
        children.sites down place node 0 context children) c c'' := h.append h'
  unfold visit
  split_ifs with hnone hclosure hloop
  · have hplain : IsPlain node.kind = false := by rw [IsPlain, hnone]; rfl
    refine hsites _ _ (sites_plain hplain (by rw [hnone]; rfl) rfl) _ (hf _ fun index field _ => ?_)
    rw [Reached, down_contextMeta, hnone]
    exact hr
  · have hplain : IsPlain node.kind = false := by rw [IsPlain, hclosure, Bool.or_true]; rfl
    have hloop : node.kind.isLoop = false := by
      cases hkind : node.kind <;> first | rfl | (rw [hkind] at hclosure; cases hclosure)
    have hinner := hf { c with loops := ⟨0, 0, ""⟩ :: c.loops } fun index field _ => by
      rw [Reached, down_contextMeta, if_pos hclosure]
      rfl
    refine hsites _ _ (sites_plain hplain hloop rfl) _
      ⟨?_, hinner.markers, hinner.lines, hinner.ranges⟩
    dsimp only
    rw [hinner.loops, List.length_cons, Nat.add_sub_cancel_left]
    rfl
  · have hplain : IsPlain node.kind = false := by rw [IsPlain, hloop, Bool.or_true]; rfl
    have hinner := hf { c with
        loops := loopMeta node children :: c.loops
        loopRanges := c.loopRanges ++ (loopRange node children).toList } fun index field _ => by
      rw [Reached, down_contextMeta, if_neg hclosure, if_pos hloop]
      rfl
    refine ⟨?_, ?_, ?_, ?_⟩
    · dsimp only
      rw [hinner.loops]
      rfl
    · rw [List.filterMap_cons_none (by simp [siteMarker, RoseTree.kind, hplain])]
      exact hinner.markers
    · rw [List.filterMap_cons_none (by simp [siteLine, RoseTree.kind, hplain])]
      exact hinner.lines
    · have hsite : siteRange ⟨place, .node node children, context⟩ = loopRange node children :=
        if_pos hloop
      dsimp only
      rw [hinner.ranges, List.append_assoc, List.filterMap_cons, hsite]
      cases loopRange node children with
      | none => rfl
      | some range => rfl
  · have hplain : IsPlain node.kind = true := by
      simp only [IsPlain, Bool.not_eq_true', Bool.or_eq_false_iff, decide_eq_false_iff_not,
        Bool.not_eq_true] at hnone hclosure hloop ⊢
      exact ⟨⟨hnone, hclosure⟩, hloop⟩
    have hdecl : Walked source [] c (recordDecl o source place node children c) :=
      recordDecl_walked
    have hreached : Reached context (recordDecl o source place node children c) := by
      rw [Reached, hdecl.loops]
      exact hr
    have hmark : Walked source [⟨place, .node node children, context⟩]
        (recordDecl o source place node children c)
        (markStatement source place node (recordDecl o source place node children c)) :=
      markStatement_walked hreached hplain
    refine hsites _ _ (hdecl.append hmark) _ (hf _ fun index field _ => ?_)
    rw [Reached, down_contextMeta, if_neg hclosure, if_neg hloop, hmark.loops, hdecl.loops]
    exact hr

theorem named_eq_some {loop : Option LoopMeta} {l : LoopMeta} :
    named loop = some l ↔ loop = some l ∧ l.loopVariable ≠ "" := by
  rw [named, Option.filter_eq_some_iff, decide_eq_true_eq]

theorem siteMarker_eq_some {site : ScopedNode} {i : Insertion} :
    siteMarker source site = some i ↔ IsPlain site.tree.kind.kind = true ∧ ∃ fd range,
      marked source site.place site.tree.kind = some (fd, range) ∧ i = ⟨range.last,
        .marker fd range.firstLine range.firstCol (named (contextMeta site.context)),
          some site.place⟩ := by
  rw [siteMarker]
  split_ifs with hplain
  · simp only [statementMarker, Option.map_eq_some_iff, Prod.exists, hplain, true_and,
      @eq_comm _ i]
  · simp [hplain]

end

/-! ## Right markers -/

/-- The loops of the dump with the lines they take. -/
def ranges (ast : Ast) : List LoopRange := (sites ast).filterMap siteRange

/-- The stream statements that get their marker from the text. -/
def textual (source : List Char) (ast : Ast) : List StreamStatement :=
  unmarked source ((sites ast).filterMap (siteLine source))

/-- The loop has a variable of the source that the context can read, and its first byte is in the
line and the column that the visit has for it. -/
structure Readable (source : List Char) (context : Context) (node : Node)
    (children : Forest Node Unit) : Prop where
  entity : ∃ entity, context.scope (loopVariable children) = some entity ∧
    entity.isVariable = true ∧ entity.implicit = false
  located : ∃ range, node.range = some range ∧
    (range.firstLine, range.firstCol) = placeAt source range.first

/-- A marked statement in a loop with a variable can read it. For a marked line, the last loop of
the dump that has the line is the innermost one of the function body, if it has a variable. -/
structure Suitable (source : List Char) (ast : Ast) : Prop where
  statements : ∀ site ∈ sites ast, IsPlain site.tree.kind.kind = true → ∀ fd range,
    marked source site.place site.tree.kind = some (fd, range) → ∀ node children,
      site.context.loop = some (node, children) → loopVariable children ≠ "" →
        Readable source site.context node children
  lines : ∀ statement ∈ textual source ast, ∀ loop,
    loopOver (ranges ast) statement.line = some loop → loop.loopVariable ≠ "" →
      ∃ context, contextAt ast statement.offset = some context ∧ Fits source context loop

section
variable {o : Options} {source : List Char} {ast : Ast} {i : Insertion}

theorem mem_collect {fd line column : ℕ} {loop : Option LoopMeta}
    (hi : i.snippet = .marker fd line column loop) :
    i ∈ (collect o source ast).insertions ↔
      (∃ site ∈ sites ast, siteMarker source site = some i) ∨
      ∃ statement ∈ textual source ast, i = ⟨statement.offset, .marker statement.fd
        statement.line statement.column (named (loopOver (ranges ast) statement.line)),
          Option.none⟩ := by
  have hwalk := visit_walked o source ast
  have hmarkers : i ∈ (ast.visit (visit o source) [] .new).insertions ↔
      ∃ site ∈ sites ast, siteMarker source site = some i := by
    rw [← List.mem_filterMap, ← List.nil_append ((sites ast).filterMap (siteMarker source)),
      show ([] : List Insertion) = Collector.new.insertions.filter isMarker from rfl,
      ← hwalk.markers, List.mem_filter, isMarker, hi]
    simp
  have hlines : (ast.visit (visit o source) [] .new).markedLines =
      (sites ast).filterMap (siteLine source) := hwalk.lines
  have hranges : (ast.visit (visit o source) [] .new).loopRanges = ranges ast := hwalk.ranges
  rw [collect]
  dsimp only
  rw [List.mem_append, hmarkers, streamMarkers, hlines, hranges, List.mem_map]
  refine or_congr Iff.rfl (exists_congr fun statement => and_congr_right fun _ => eq_comm)

theorem contextMeta_eq_some {context : Context} {loop : LoopMeta} :
    contextMeta context = some loop ↔ ∃ node children,
      context.loop = some (node, children) ∧ loopMeta node children = loop := by
  rw [contextMeta, Option.map_eq_some_iff]
  constructor
  · rintro ⟨⟨node, children⟩, hloop, rfl⟩
    exact ⟨node, children, hloop, rfl⟩
  · rintro ⟨node, children, hloop, rfl⟩
    exact ⟨(node, children), hloop, rfl⟩

theorem fits_iff_readable {context : Context} {node : Node} {children : Forest Node Unit}
    (hloop : context.loop = some (node, children)) :
    Fits source context (loopMeta node children) ↔ Readable source context node children := by
  constructor
  · rintro ⟨hentity, node', children', range, hloop', hrange, hplace⟩
    obtain ⟨rfl, rfl⟩ := Prod.mk.inj (Option.some.inj (hloop.symm.trans hloop'))
    refine ⟨hentity, range, hrange, ?_⟩
    rw [← hplace, loopMeta, hrange]
    rfl
  · rintro ⟨hentity, range, hrange, hplace⟩
    refine ⟨hentity, node, children, range, hloop, hrange, ?_⟩
    rw [← hplace, loopMeta, hrange]
    rfl

end

/-- A location with the parts that clang prints of it. -/
def location (offset col tokLen : ℕ) (line : Option ℕ) : Option Location :=
  some ⟨⟨some offset, Option.none, line, some col, some tokLen⟩, Option.none⟩

def json (kind : Kind) (loc first last : Option Location) (inner : List Json) : Json :=
  .node ⟨kind, loc, first, last⟩ (.ofList (inner.map fun child => ((), child)))

/-- An implicit variable of a range-for. -/
def implicitDecl (name ref : String) (loc : Option Location) : Json :=
  json .declStmt Option.none loc loc
    [json (.varDecl name true true true) loc loc loc
      [json (.declRefExpr ref) Option.none loc loc []]]

def rangeForSource : List Char :=
  "#include <iostream>
int main() \x7b
  int xs[2] = \x7b1, 2\x7d;
  for (int x : xs) \x7b
    std::cout << \"x\";
  \x7d
\x7d
".toList

/-- `std` is not declared where the headers are empty, and the statement is not in the dump. -/
def rangeForDump : Json :=
  json .other Option.none Option.none Option.none
    [json (.functionDecl "main")
      (some ⟨⟨some 24, some "/w/main.cpp", some 2, some 5, some 4⟩, Option.none⟩)
      (location 20 1 3 Option.none) (location 102 1 1 (some 7))
      [json .compoundStmt Option.none (location 31 12 1 (some 2)) (location 102 1 1 (some 7))
        [json .declStmt Option.none (location 35 3 3 (some 3)) (location 53 21 1 Option.none)
          [json (.varDecl "xs" true false true) (location 39 7 2 Option.none)
            (location 35 3 3 Option.none) (location 52 20 1 Option.none) []],
        json .cxxForRangeStmt Option.none (location 57 3 3 (some 4)) (location 100 3 1 (some 6))
          [json .none Option.none Option.none Option.none [],
          implicitDecl "__range1" "xs" (location 70 16 2 (some 4)),
          implicitDecl "__begin1" "__range1" (location 68 14 1 Option.none),
          implicitDecl "__end1" "__range1" (location 68 14 1 Option.none),
          json .expr Option.none (location 68 14 1 Option.none) (location 68 14 1 Option.none) [],
          json .expr Option.none (location 68 14 1 Option.none) (location 68 14 1 Option.none) [],
          json .declStmt Option.none (location 62 8 3 Option.none) (location 72 18 1 Option.none)
            [json (.varDecl "x" true false true) (location 66 12 1 Option.none)
              (location 62 8 3 Option.none) (location 68 14 1 Option.none) []],
          json .compoundStmt Option.none (location 74 20 1 Option.none)
            (location 100 3 1 (some 6)) []]]]]

def rangeForOptions : Options := ⟨"/w/main.cpp", "main.cpp", "file:///w/main.cpp", 1, true, []⟩

end Atomis.ClangInstrument
