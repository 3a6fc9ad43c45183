import Atomis.GoInstrument

/-!
# Go markers

What the names in the markers of a Go file denote, and where the markers stand.
-/

namespace Atomis.GoInstrument

open Atomis.SyntaxTree Atomis.Instrument

/-! ## Scopes -/

inductive Entity
  | variable
  | constant
  | function
  | type
  | package
  | builtin
  | nil
deriving DecidableEq

abbrev Scope := String → Option Entity

def Scope.declare (scope : Scope) (names : List (String × Entity)) : Scope :=
  names.foldl (fun scope p => Function.update scope p.1 (some p.2)) scope

/-- A variable, a parameter or a constant. -/
def Scope.IsValue (scope : Scope) (name : String) : Prop :=
  scope name = some .variable ∨ scope name = some .constant

def declaredSpec (tok : Tok) (spec : Syntax) : List (String × Entity) :=
  match tok, spec.kind with
  | .var, .valueSpec names _ => names.map fun ident => (ident.name, .variable)
  | .const, .valueSpec names _ => names.map fun ident => (ident.name, .constant)
  | .type, .typeSpec name => [(name, .type)]
  | _, _ => []

mutual

/-- What a statement declares for the statements behind it. -/
def declared : Syntax → List (String × Entity)
  | .node (.assignStmt true lhs _) _ =>
    lhs.filterMap fun ident => ident.map fun ident => (ident.name, .variable)
  | .node (.declStmt _) children =>
    match children.get? .decl with
    | some (.node (.genDecl tok) specs) => specs.trees.flatMap (declaredSpec tok)
    | _ => []
  | .node .labeledStmt children => declaredLabeled children
  | _ => []

def declaredLabeled : Forest Kind Field → List (String × Entity)
  | .nil => []
  | .cons .stmt child _ => declared child
  | .cons _ _ rest => declaredLabeled rest

end

def declaredIn (kind : Kind) (child : Syntax) : List (String × Entity) :=
  match kind with
  | .genDecl tok => declaredSpec tok child
  | _ => declared child

/-- What a node declares for a field. -/
def bound : Kind → Field → List (String × Entity)
  | .funcDecl params, .body | .funcLit params, .body => params.map fun name => (name, .variable)
  | .rangeStmt _ _ key value true, .body =>
    (key.toList ++ value.toList).map fun name => (name, .variable)
  | _, _ => []

structure Context where
  loops : List LoopMeta
  scope : Scope

/-- The scope of a child has what the children before it declare. -/
def down (_ : Place) (kind : Kind) (children : Forest Kind Field) (field : Field) (index : ℕ)
    (context : Context) : Context where
  loops := (loopMeta kind children).toList ++ context.loops
  scope := (context.scope.declare ((children.trees.take index).flatMap (declaredIn kind))).declare
    (bound kind field)

/-- `scope` is what the names mean in the file: the universe, the package and the imports. -/
def sites (scope : Scope) (file : Syntax) : List (Site Kind Field Context) :=
  file.sites down [] ⟨[], scope⟩

/-- A statement that stands in a header, and not in a block. -/
def inHeader (place : Place) : Bool :=
  place.getLast?.any fun frame => headerField frame.kind frame.field

/-! ## What a walk inserts -/

def probes (o : Options) (place : Place) (ident : Ident) (stop : ℕ) : List Insertion :=
  let id := probeId "golive-v1" o.uri ident.range ident.name
  if o.active id then
    [⟨stop, .probe id ident.range.startLine ident.range.startColumn ident.name, place⟩]
  else []

def specProbes (o : Options) (place : Place) (stop : ℕ) (spec : Syntax) : List Insertion :=
  match spec.kind with
  | .valueSpec [ident] values =>
    if ident.name = "_" || values = 0 then [] else probes o place ident stop
  | _ => []

/-- What is inserted for a node. -/
def reported (o : Options) (place : Place) (inHeader : Bool) (loops : List LoopMeta) (kind : Kind)
    (children : Forest Kind Field) : List Insertion :=
  match kind with
  | .assignStmt define lhs stop =>
    if !define || inHeader then []
    else
      match lhs with
      | [some ident] => if ident.name = "_" then [] else probes o place ident stop
      | _ => []
  | .declStmt stop => (varSpecs children).flatMap (specProbes o place stop)
  | .exprStmt line column stop =>
    match logFd children with
    | some fd => [⟨stop, logCall o fd line column loops, place⟩]
    | none => []
  | _ => []

section
variable {o : Options} {place : Place} {kind : Kind} {children : Forest Kind Field}
  {c c' c'' : Collector} {ident : Ident} {stop : ℕ}

theorem recordProbe_insertions {unsupported : String} :
    (recordProbe o place ident stop unsupported c).insertions =
      c.insertions ++ if unsupported = "" then probes o place ident stop else [] := by
  rw [recordProbe, probes]
  by_cases hsupported : unsupported = ""
  · simp only [hsupported, decide_true, Bool.true_and, if_true]
    split_ifs
    · rfl
    · rw [List.append_nil]
  · simp only [hsupported, decide_false, Bool.false_and, if_false, List.append_nil,
      Bool.false_eq_true]

theorem recordSpec_other {spec : Syntax}
    (h : ∀ ident values, spec.kind ≠ .valueSpec [ident] values) :
    recordSpec o place stop c spec = c := by
  rw [recordSpec]
  split
  next ident values hkind => exact absurd hkind (h ident values)
  next => rfl

theorem specProbes_other {spec : Syntax}
    (h : ∀ ident values, spec.kind ≠ .valueSpec [ident] values) :
    specProbes o place stop spec = [] := by
  rw [specProbes]
  split
  next ident values hkind => exact absurd hkind (h ident values)
  next => rfl

theorem recordSpec_insertions {spec : Syntax} :
    (recordSpec o place stop c spec).insertions =
      c.insertions ++ specProbes o place stop spec := by
  by_cases hspec : ∃ ident values, spec.kind = .valueSpec [ident] values
  · obtain ⟨ident, values, hkind⟩ := hspec
    rw [recordSpec, specProbes, hkind]
    dsimp only
    by_cases hblank : ident.name = "_"
    · simp only [hblank, decide_true, Bool.true_or, if_true, List.append_nil]
    · by_cases hvalues : values = 0
      · simp only [hblank, hvalues, if_true, if_false, decide_true, Bool.or_true,
          recordProbe_insertions]
        rfl
      · simp only [hblank, hvalues, if_false, decide_false, Bool.or_false, Bool.false_eq_true,
          recordProbe_insertions, if_true]
  · have hother : ∀ ident values, spec.kind ≠ .valueSpec [ident] values :=
      fun ident values hkind => hspec ⟨ident, values, hkind⟩
    rw [recordSpec_other hother, specProbes_other hother, List.append_nil]

theorem recordSpecs_insertions (specs : List Syntax) :
    (specs.foldl (recordSpec o place stop) c).insertions =
      c.insertions ++ specs.flatMap (specProbes o place stop) := by
  induction specs generalizing c with
  | nil => exact (List.append_nil _).symm
  | cons spec specs ih =>
    rw [List.foldl_cons, ih, recordSpec_insertions, List.flatMap_cons, List.append_assoc]

theorem recordProbe_loops {unsupported : String} :
    (recordProbe o place ident stop unsupported c).loops = c.loops ∧
      (recordProbe o place ident stop unsupported c).initStmts = c.initStmts := ⟨rfl, rfl⟩

theorem recordSpecs_loops (specs : List Syntax) :
    (specs.foldl (recordSpec o place stop) c).loops = c.loops ∧
      (specs.foldl (recordSpec o place stop) c).initStmts = c.initStmts := by
  induction specs generalizing c with
  | nil => exact ⟨rfl, rfl⟩
  | cons spec specs ih =>
    have hspec : (recordSpec o place stop c spec).loops = c.loops ∧
        (recordSpec o place stop c spec).initStmts = c.initStmts := by
      rw [recordSpec]
      split
      · split_ifs
        · exact ⟨rfl, rfl⟩
        · exact recordProbe_loops
        · exact recordProbe_loops
      · exact ⟨rfl, rfl⟩
    rw [List.foldl_cons]
    exact ⟨(ih.1).trans hspec.1, (ih.2).trans hspec.2⟩

theorem visitStmt_keeps :
    (visitStmt o place kind children c).loops = c.loops ∧
      (visitStmt o place kind children c).initStmts = c.initStmts := by
  unfold visitStmt
  split
  · split
    · exact ⟨rfl, rfl⟩
    · split
      · split_ifs
        · exact ⟨rfl, rfl⟩
        · exact recordProbe_loops
      · exact ⟨rfl, rfl⟩
      · split_ifs
        · exact recordProbe_loops
        · exact ⟨rfl, rfl⟩
      · exact ⟨rfl, rfl⟩
  · exact recordSpecs_loops _
  · split
    · exact ⟨rfl, rfl⟩
    · exact ⟨rfl, rfl⟩
  · exact ⟨rfl, rfl⟩

theorem visitStmt_insertions :
    (visitStmt o place kind children c).insertions = c.insertions ++
      reported o place (c.initStmts.contains place) c.loops kind children := by
  cases kind with
  | assignStmt define lhs stop =>
    unfold visitStmt reported
    dsimp only
    by_cases hskip : (!define || c.initStmts.contains place) = true
    · rw [if_pos hskip, if_pos hskip, List.append_nil]
    · rw [if_neg hskip, if_neg hskip]
      rcases lhs with _ | ⟨_ | ident, _ | ⟨second, rest⟩⟩
      · exact (List.append_nil _).symm
      · exact (List.append_nil _).symm
      · exact (List.append_nil _).symm
      · by_cases hblank : ident.name = "_"
        · simp only [hblank, if_true, List.append_nil]
        · simp only [hblank, if_false, recordProbe_insertions, if_true]
      · by_cases hblank : ident.name = "_"
        · simp [hblank]
        · simp only [ne_eq, hblank, not_false_eq_true, if_true, recordProbe_insertions]
          rfl
  | declStmt stop => exact recordSpecs_insertions _
  | exprStmt line column stop =>
    rw [visitStmt, reported]
    cases logFd children with
    | some fd => rfl
    | none => exact (List.append_nil _).symm
  | _ => exact (List.append_nil _).symm

/-! ## The walk -/

def siteReported (o : Options) (site : Site Kind Field Context) : List Insertion :=
  reported o site.place (inHeader site.place) site.context.loops site.tree.kind site.tree.children

/-- What the collector knows where it gets to a node. -/
structure Reached (place : Place) (context : Context) (c : Collector) : Prop where
  loops : c.loops = context.loops
  marked : inHeader place = true → place ∈ c.initStmts
  sound : ∀ q ∈ c.initStmts, inHeader q = true

structure Walked (o : Options) (l : List (Site Kind Field Context)) (c c' : Collector) :
    Prop where
  loops : c'.loops = c.loops
  initStmts : ∀ q ∈ c.initStmts, q ∈ c'.initStmts
  sound : (∀ q ∈ c.initStmts, inHeader q = true) → ∀ q ∈ c'.initStmts, inHeader q = true
  insertions : c'.insertions = c.insertions ++ l.flatMap (siteReported o)

variable {context : Context} {l l' : List (Site Kind Field Context)}

theorem walked_nil : Walked o [] c c :=
  ⟨rfl, fun _ => id, id, (List.append_nil _).symm⟩

theorem Walked.append (h : Walked o l c c') (h' : Walked o l' c' c'') :
    Walked o (l ++ l') c c'' where
  loops := h'.loops.trans h.loops
  initStmts q hq := h'.initStmts q (h.initStmts q hq)
  sound hsound := h'.sound (h.sound hsound)
  insertions := by
    rw [h'.insertions, h.insertions, List.append_assoc, List.flatMap_append]

theorem Walked.keep (h : Walked o l c c') (hr : Reached place context c) :
    Reached place context c' :=
  ⟨h.loops.trans hr.loops, fun hheader => h.initStmts _ (hr.marked hheader), h.sound hr.sound⟩

theorem inHeader_append {field : Field} {index : ℕ} :
    inHeader (place ++ [⟨kind, field, index⟩]) = headerField kind field := by
  rw [inHeader, List.getLast?_append_of_ne_nil _ (List.cons_ne_nil _ _)]
  rfl

theorem mem_markHeader {q : Place} : q ∈ (markHeader place kind children c).initStmts ↔
    q ∈ c.initStmts ∨ ∃ index field, children.fields[index]? = some field ∧
      headerField kind field = true ∧ q = place ++ [⟨kind, field, index⟩] := by
  simp only [markHeader, List.mem_append, List.mem_map, List.mem_filter, Prod.exists,
    List.mem_zipIdx_iff_getElem?]
  constructor
  · rintro (hq | ⟨field, index, ⟨hfield, hheader⟩, rfl⟩)
    · exact Or.inl hq
    · exact Or.inr ⟨index, field, hfield, hheader, rfl⟩
  · rintro (hq | ⟨index, field, hfield, hheader, rfl⟩)
    · exact Or.inl hq
    · exact Or.inr ⟨field, index, ⟨hfield, hheader⟩, rfl⟩

theorem markHeader_sound (hr : Reached place context c) :
    ∀ q ∈ (markHeader place kind children c).initStmts, inHeader q = true := by
  intro q hq
  rcases mem_markHeader.mp hq with hq | ⟨index, field, -, hheader, rfl⟩
  · exact hr.sound q hq
  · rw [inHeader_append, hheader]

theorem loopMeta_reported {loop : LoopMeta} {loops : List LoopMeta} {header : Bool}
    (h : loopMeta kind children = some loop) :
    reported o place header loops kind children = [] := by
  cases kind <;> first | rfl | exact absurd h (by simp [loopMeta])

/-- A node inserts its own calls, and then its children theirs. -/
theorem walk_walked (f : Collector → Collector) (hr : Reached place context c)
    (hf : ∀ c, (∀ index field, children.fields[index]? = some field →
        Reached (place ++ [⟨kind, field, index⟩]) (down place kind children field index context) c) →
      Walked o (children.sites down place kind 0 context children) c (f c)) :
    Walked o (⟨place, .node kind children, context⟩ ::
        children.sites down place kind 0 context children) c (walk o place kind children f c) := by
  have hmark (c' : Collector) (hinit : c'.initStmts = (markHeader place kind children c).initStmts)
      (hloops : c'.loops = (loopMeta kind children).toList ++ context.loops) (index : ℕ)
      (field : Field) (hfield : children.fields[index]? = some field) :
      Reached (place ++ [⟨kind, field, index⟩]) (down place kind children field index context) c' := by
    refine ⟨hloops, fun hheader => ?_, fun q hq => markHeader_sound hr q (hinit ▸ hq)⟩
    rw [inHeader_append] at hheader
    rw [hinit]
    exact mem_markHeader.mpr (Or.inr ⟨index, field, hfield, hheader, rfl⟩)
  have hmarked : ∀ q ∈ c.initStmts, q ∈ (markHeader place kind children c).initStmts :=
    fun q hq => mem_markHeader.mpr (Or.inl hq)
  rw [walk]
  cases hloop : loopMeta kind children with
  | some loop =>
    have h := hf { markHeader place kind children c with loops := loop :: c.loops }
      (hmark _ rfl (by rw [hloop, hr.loops]; rfl))
    refine ⟨?_, fun q hq => h.initStmts q (hmarked q hq), fun _ => h.sound (markHeader_sound hr),
      ?_⟩
    · exact congrArg (List.drop 1) h.loops
    · refine h.insertions.trans ?_
      have hnone : reported o place (inHeader place) context.loops kind children = [] :=
        loopMeta_reported hloop
      change c.insertions ++ _ = c.insertions ++
        (reported o place (inHeader place) context.loops kind children ++ _)
      rw [hnone, List.nil_append]
      rfl
  | none =>
    let marked := markHeader place kind children c
    have hkeeps : (visitStmt o place kind children marked).loops = marked.loops ∧
        (visitStmt o place kind children marked).initStmts = marked.initStmts := visitStmt_keeps
    have h := hf (visitStmt o place kind children marked)
      (hmark _ hkeeps.2 (by rw [hkeeps.1, hloop]; exact hr.loops))
    have hcontains : (markHeader place kind children c).initStmts.contains place =
        inHeader place := by
      rw [Bool.eq_iff_iff, List.contains_iff_mem]
      exact ⟨markHeader_sound hr place, fun hheader => hmarked _ (hr.marked hheader)⟩
    refine ⟨h.loops.trans hkeeps.1, fun q hq => h.initStmts q (hkeeps.2 ▸ hmarked q hq),
      fun _ => h.sound (hkeeps.2 ▸ markHeader_sound hr), h.insertions.trans ?_⟩
    rw [visitStmt_insertions, hcontains, List.append_assoc, List.flatMap_cons]
    change c.insertions ++ (reported o place (inHeader place) c.loops kind children ++ _) = _
    rw [hr.loops]
    rfl

/-- The calls are those of the sites, in order. -/
theorem collect_insertions (o : Options) (scope : Scope) (file : Syntax) :
    (collect o file).insertions = (sites scope file).flatMap (siteReported o) := by
  have hreached : Reached [] ⟨[], scope⟩ .new :=
    ⟨rfl, by simp [inHeader], by simp [Collector.new]⟩
  have h : Walked o (sites scope file) .new (collect o file) :=
    RoseTree.visit_sites Reached (Walked o) (fun _ => walked_nil) Walked.append
      (fun hr h => h.keep hr) walk_walked file hreached
  exact h.insertions

end

/-! ## Accepted files -/

def Call.reads : Call → Option String
  | .logLoop _ _ _ _ loop => some loop.loopVariable
  | _ => none

/-- Every loop marker reads a value, and nothing stands in a header. -/
structure Accepted (o : Options) (scope : Scope) (file : Syntax) : Prop where
  markers : ∀ i ∈ (collect o file).insertions, ∀ name, i.call.reads = some name →
    ∃ site ∈ sites scope file, site.place = i.place ∧ site.context.scope.IsValue name
  headers : ∀ i ∈ (collect o file).insertions, inHeader i.place = false

def IsPrint (t : Syntax) : Prop :=
  ∃ line column stop, t.kind = .exprStmt line column stop ∧ (logFd t.children).isSome = true

/-- A `var` declaration of one name with a value, and a probe selected for it. -/
def DeclaresProbed (o : Options) (t : Syntax) : Prop :=
  ∃ stop, t.kind = .declStmt stop ∧ ∃ spec ∈ varSpecs t.children, ∃ ident values,
    spec.kind = .valueSpec [ident] values ∧ ident.name ≠ "_" ∧ values ≠ 0 ∧
      o.active (probeId "golive-v1" o.uri ident.range ident.name) = true

/-- A print or `var` statement is no header, and the loop around a print statement, if it has a
name, is named after a value. -/
structure Fits (o : Options) (site : Site Kind Field Context) : Prop where
  header : IsPrint site.tree ∨ DeclaresProbed o site.tree → inHeader site.place = false
  loops : IsPrint site.tree → ∀ loop, site.context.loops.head? = some loop →
    loop.loopVariable ≠ "" → site.context.scope.IsValue loop.loopVariable

section
variable {o : Options} {site : Site Kind Field Context} {i : Insertion}

theorem mem_probes {place : Place} {ident : Ident} {stop : ℕ} (h : i ∈ probes o place ident stop) :
    i.place = place ∧ i.call.reads = none := by
  rw [probes] at h
  split_ifs at h
  · rw [List.mem_singleton.mp h]
    exact ⟨rfl, rfl⟩
  · exact absurd h List.not_mem_nil

theorem mem_specProbes {place : Place} {spec : Syntax} {stop : ℕ}
    (h : i ∈ specProbes o place stop spec) : i.place = place ∧ i.call.reads = none := by
  unfold specProbes at h
  split at h
  · split_ifs at h
    · exact absurd h List.not_mem_nil
    · exact mem_probes h
  · exact absurd h List.not_mem_nil

theorem logCall_reads {fd line column : ℕ} {loops : List LoopMeta} {name : String} :
    (logCall o fd line column loops).reads = some name ↔
      ∃ loop, loops.head? = some loop ∧ loop.loopVariable ≠ "" ∧ loop.loopVariable = name := by
  cases loops with
  | nil => simp [logCall, Call.reads]
  | cons loop loops =>
    rw [logCall]
    by_cases hname : loop.loopVariable = ""
    · simp [hname, Call.reads]
    · simp [hname, Call.reads]

/-- A statement is reported behind itself, and only a print statement reads a loop. -/
theorem mem_siteReported (h : i ∈ siteReported o site) :
    i.place = site.place ∧ ∀ name, i.call.reads = some name →
      IsPrint site.tree ∧ ∃ loop, site.context.loops.head? = some loop ∧ loop.loopVariable ≠ "" ∧
        loop.loopVariable = name := by
  rw [siteReported] at h
  generalize hkind : site.tree.kind = kind at h
  have hprobe (hi : i.place = site.place ∧ i.call.reads = none) :
      i.place = site.place ∧ ∀ name, i.call.reads = some name →
      IsPrint site.tree ∧ ∃ loop, site.context.loops.head? = some loop ∧ loop.loopVariable ≠ "" ∧
        loop.loopVariable = name := by
    refine ⟨hi.1, fun name hname => ?_⟩
    rw [hi.2] at hname
    exact absurd hname (Option.some_ne_none name).symm
  cases kind with
  | assignStmt define lhs stop =>
    unfold reported at h
    dsimp only at h
    split_ifs at h
    · exact absurd h List.not_mem_nil
    · split at h
      · split_ifs at h
        · exact absurd h List.not_mem_nil
        · exact hprobe (mem_probes h)
      · exact absurd h List.not_mem_nil
  | declStmt stop =>
    obtain ⟨spec, -, h⟩ := List.mem_flatMap.mp h
    exact hprobe (mem_specProbes h)
  | exprStmt line column stop =>
    unfold reported at h
    dsimp only at h
    cases hfd : logFd site.tree.children with
    | none =>
      rw [hfd] at h
      exact absurd h List.not_mem_nil
    | some fd =>
      rw [hfd] at h
      rw [List.mem_singleton.mp h]
      exact ⟨rfl, fun name hname => ⟨⟨line, column, stop, hkind, by rw [hfd]; rfl⟩,
        logCall_reads.mp hname⟩⟩
  | _ => exact absurd h List.not_mem_nil

theorem exists_siteReported_print (h : IsPrint site.tree) : ∃ stop fd line column,
    (⟨stop, logCall o fd line column site.context.loops, site.place⟩ : Insertion) ∈
      siteReported o site := by
  obtain ⟨line, column, stop, hkind, hfd⟩ := h
  obtain ⟨fd, hfd⟩ := Option.isSome_iff_exists.mp hfd
  refine ⟨stop, fd, line, column, ?_⟩
  rw [siteReported, hkind]
  unfold reported
  dsimp only
  rw [hfd]
  exact List.mem_singleton_self _

theorem exists_siteReported_declares (h : DeclaresProbed o site.tree) :
    ∃ i, i ∈ siteReported o site := by
  obtain ⟨stop, hkind, spec, hspec, ident, values, hvalue, hblank, hvalues, hactive⟩ := h
  have hprobes : ∃ i, i ∈ specProbes o site.place stop spec := by
    rw [specProbes, hvalue]
    simp only [hblank, hvalues, decide_false, Bool.or_false, Bool.false_eq_true, if_false, probes,
      hactive, if_true]
    exact ⟨_, List.mem_singleton_self _⟩
  obtain ⟨i, hi⟩ := hprobes
  refine ⟨i, ?_⟩
  rw [siteReported, hkind]
  exact List.mem_flatMap.mpr ⟨spec, hspec, hi⟩

theorem exists_active_of_mem_probes {place : Place} {ident : Ident} {stop : ℕ}
    (h : i ∈ probes o place ident stop) :
    o.active (probeId "golive-v1" o.uri ident.range ident.name) = true := by
  rw [probes] at h
  split_ifs at h with hactive
  · exact hactive
  · exact absurd h List.not_mem_nil

/-- A `:=` in a header is left out. -/
theorem reports_of_inHeader (h : i ∈ siteReported o site) (hheader : inHeader site.place = true) :
    IsPrint site.tree ∨ DeclaresProbed o site.tree := by
  rw [siteReported] at h
  generalize hkind : site.tree.kind = kind at h
  cases kind with
  | assignStmt define lhs stop =>
    unfold reported at h
    dsimp only at h
    rw [hheader, Bool.or_true, if_pos rfl] at h
    exact absurd h List.not_mem_nil
  | declStmt stop =>
    obtain ⟨spec, hspec, h⟩ := List.mem_flatMap.mp h
    unfold specProbes at h
    split at h
    next ident values hvalue =>
      split_ifs at h with hskip
      · exact absurd h List.not_mem_nil
      · simp only [Bool.or_eq_true, decide_eq_true_eq, not_or] at hskip
        exact Or.inr ⟨stop, hkind, spec, hspec, ident, values, hvalue, hskip.1, hskip.2,
          exists_active_of_mem_probes h⟩
    next => exact absurd h List.not_mem_nil
  | exprStmt line column stop =>
    unfold reported at h
    dsimp only at h
    cases hfd : logFd site.tree.children with
    | none =>
      rw [hfd] at h
      exact absurd h List.not_mem_nil
    | some fd => exact Or.inl ⟨line, column, stop, hkind, by rw [hfd]; rfl⟩
  | _ => exact absurd h List.not_mem_nil

end

/-- `for len(xs) > 0 { fmt.Println(xs) }`. -/
def lenLoop : Syntax :=
  .node .file <| .ofList
    [(.decl, .node (.funcDecl ["xs"]) <| .ofList
      [(.body, .node .blockStmt <| .ofList
        [(.stmt, .node (.forStmt 6 2) <| .ofList
          [(.cond, .node .other <| .ofList
            [(.x, .node .callExpr <| .ofList
              [(.callee, .node (.ident "len") .nil), (.part, .node (.ident "xs") .nil)])]),
            (.body, .node .blockStmt <| .ofList
              [(.stmt, .node (.exprStmt 7 3 95) <| .ofList
                [(.x, .node .callExpr <| .ofList
                  [(.callee, .node .selectorExpr <| .ofList
                    [(.x, .node (.ident "fmt") .nil), (.sel, .node (.ident "Println") .nil)]),
                    (.part, .node (.ident "xs") .nil)])])])])])])]

end Atomis.GoInstrument
