import Atomis.ZigSnippets

/-!
# Zig discards

What the name of a discard refers to, and when a comment takes the discard and nothing more
from the program, and leaves its local with a read.
-/

namespace Atomis.ZigInstrument

open Atomis.SyntaxTree

/-! ## Scopes -/

/-- A name and the node that declares it. A parameter or a capture is in a field of its node. -/
structure Binding where
  place : Place
  field : Option Field
  name : Bytes
deriving DecidableEq

abbrev Scope := List Binding

def Scope.resolve (scope : Scope) (name : Bytes) : Option Binding :=
  scope.find? fun binding => binding.name = name

def placed (place : Place) (node : Node) (index : ℕ) : Forest Node Field → List Occurrence
  | .nil => []
  | .cons field child rest =>
    (place ++ [⟨node, field, index⟩], child) :: placed place node (index + 1) rest

def declaredHere (p : Occurrence) : Scope :=
  match p.2.kind.tag with
  | .varDecl declaration => [⟨p.1, none, declaration.name⟩]
  | .fnDecl name _ => [⟨p.1, none, name⟩]
  | _ => []

/-- What a statement or a member declares for the nodes beside it. -/
def declared (p : Occurrence) : Scope :=
  match p.2.kind.tag with
  | .assignDestructure => (placed p.1 p.2.kind 0 p.2.children).flatMap declaredHere
  | _ => declaredHere p

def captures (place : Place) (field : Field) (names : List Bytes) : Scope :=
  names.map fun name => ⟨place, some field, name⟩

def payloadNames (payload : List Token) : List Bytes :=
  payload.filterMap fun token =>
    match token with
    | .identifier text _ => some text
    | .other _ => none

/-- What a node declares for a field. -/
def bound (place : Place) : Tag → Field → Scope
  | .fnDecl _ params, _ => captures place .body params
  | .forLoop _ payload, .body => captures place .body (payloadNames payload)
  | .whileLoop _ (some payload) _ _ _, .body => captures place .body (payloadNames payload)
  | .whileLoop _ (some payload) _ _ _, .cont => captures place .body (payloadNames payload)
  | .whileLoop _ _ _ _ elsePayload, .orElse => captures place .orElse elsePayload
  | .capture payload _, .body => captures place .body payload
  | .capture _ elsePayload, .orElse => captures place .orElse elsePayload
  | .catch payload, .rhs => captures place .rhs payload
  | _, _ => []

/-- A container's members see each other, a block's statements those before them. -/
def down (place : Place) (node : Node) (children : Forest Node Field) (field : Field)
    (index : ℕ) (scope : Scope) : Scope :=
  let siblings := placed place node 0 children
  match node.tag with
  | .root | .container => siblings.flatMap declared ++ scope
  | .block => (siblings.take index).flatMap declared ++ scope
  | tag => bound place tag field ++ scope

abbrev ScopedNode := Site Node Field Scope

def Ast.sites (ast : Ast) : List ScopedNode := ast.tree.sites down [] []

/-- What a declaration declares, or the name that is assigned refers to. -/
def about (site : ScopedNode) (name : Bytes) : Option Binding :=
  match site.tree.kind.tag with
  | .varDecl declaration => some ⟨site.place, none, declaration.name⟩
  | _ => site.context.resolve name

section
variable {o : Options} {ast : Ast} {site : ScopedNode} {p : Occurrence} {name : Bytes}
  {start stop : ℕ} {binding : Binding}

theorem Ast.sites_nodes (hsite : site ∈ ast.sites) : (site.place, site.tree) ∈ ast.nodes :=
  RoseTree.mem_occurrences hsite

theorem Ast.tree_eq (hsite : site ∈ ast.sites) (hp : p ∈ ast.nodes) (h : site.place = p.1) :
    (site.place, site.tree) = p := by
  have hnode := Ast.sites_nodes hsite
  obtain ⟨place, tree⟩ := p
  dsimp only at h
  subst h
  rw [ast.tree.occurrences_unique [] hnode hp]

theorem Scope.resolve_name {scope : Scope} (h : scope.resolve name = some binding) :
    binding.name = name := by
  have hfound := List.find?_some h
  exact of_decide_eq_true hfound

theorem Probed.about_name (h : Probed o ast (site.place, site.tree) name start stop)
    (habout : about site name = some binding) : binding.name = name := by
  unfold about at habout
  split at habout
  next declaration htag =>
    obtain rfl := Option.some.inj habout
    obtain ⟨place, tree, scope⟩ := site
    cases h with
    | declaration htag' => exact (Tag.varDecl.inj (htag.symm.trans htag')) ▸ rfl
    | assignment hassigns => rw [RoseTree.kind] at htag; rw [htag] at hassigns; cases hassigns
  next => exact Scope.resolve_name habout

end

/-! ## Safe comments -/

/-- The node and its semicolon are on one line. -/
def oneLine (source : Bytes) (node : Node) : Bool :=
  !((source.drop node.first).take (node.semicolon.getD node.last - node.first)).contains 10

/-- A probe that is not itself behind a comment reads what is declared. -/
def ReadByProbe (o : Options) (ast : Ast) (binding : Binding) : Prop :=
  ∃ j ∈ insertions o ast, ∃ probe, j.snippet = .probe probe ∧
    (∃ site ∈ ast.sites, site.place = j.place ∧ about site probe.name = some binding) ∧
      ∀ i ∈ insertions o ast, i.snippet = .commentOpen → i.offset ≠ j.offset

structure SafeDiscards (o : Options) (ast : Ast) : Prop where
  comments : ∀ i ∈ insertions o ast, i.snippet = .commentOpen → ∀ site ∈ ast.sites,
    site.place = i.place → ∃ name binding, discardedName site.tree = some name ∧
      isDirectBlockStatement site.place = true ∧ oneLine ast.source site.tree.kind = true ∧
        site.context.resolve name = some binding ∧ ReadByProbe o ast binding
  others : ∀ site ∈ ast.sites, ∀ name, discardedName site.tree = some name →
    (∀ binding, site.context.resolve name = some binding → ¬ ReadByProbe o ast binding) →
      ∀ i ∈ insertions o ast, i.place = site.place → i.snippet ≠ .commentOpen

/-- A discard that ends its line, of a name that some probed statement of the function has: it
stands in a block, on one line, and one of the probed statements of the name is about the same
declaration and does not end where such a discard starts. -/
structure Distinct (o : Options) (ast : Ast) (site : ScopedNode) (name : Bytes) : Prop where
  statement : isDirectBlockStatement site.place = true
  line : oneLine ast.source site.tree.kind = true
  same : ∃ site' ∈ ast.sites, ∃ start stop,
    Probed o ast (site'.place, site'.tree) name start stop ∧
      (site.context.resolve name).isSome = true ∧
        about site' name = site.context.resolve name ∧
          ∀ p ∈ ast.nodes, ∀ name', Commented o ast p name' → p.2.kind.first ≠ stop

section
variable {o : Options} {ast : Ast}

theorem snippet_probe {i : Insertion} (hi : i ∈ insertions o ast) {probe : Probe}
    (h : i.snippet = .probe probe) : ∃ p ∈ ast.nodes, i.place = p.1 ∧
      ∃ start, Probed o ast p probe.name start i.offset := by
  obtain ⟨p, hp, ⟨name, start, stop, hprobed, rfl⟩ | ⟨callee, stop, -, rfl | ⟨-, rfl⟩⟩ |
    ⟨name, -, rfl⟩⟩ := mem_insertions.mp hi
  · obtain rfl := Snippet.probe.inj h
    exact ⟨p, hp, rfl, start, hprobed⟩
  · simp [markerOf] at h
  · simp at h
  · simp at h

theorem snippet_commentOpen {i : Insertion} (hi : i ∈ insertions o ast)
    (h : i.snippet = .commentOpen) : ∃ p ∈ ast.nodes, i.place = p.1 ∧ i.offset = p.2.kind.first ∧
      ∃ name, Commented o ast p name := by
  obtain ⟨p, hp, ⟨name, start, stop, -, rfl⟩ | ⟨callee, stop, -, rfl | ⟨-, rfl⟩⟩ |
    ⟨name, hcommented, rfl⟩⟩ := mem_insertions.mp hi
  · simp at h
  · simp [markerOf] at h
  · simp at h
  · exact ⟨p, hp, rfl, rfl, name, hcommented⟩

theorem keeps_declaration_iff {stop : ℕ} :
    (∀ i ∈ insertions o ast, i.snippet = .commentOpen → i.offset ≠ stop) ↔
      ∀ p ∈ ast.nodes, ∀ name, Commented o ast p name → p.2.kind.first ≠ stop := by
  constructor
  · intro h p hp name hcommented
    exact h _ (hcommented.mem_insertions hp) rfl
  · intro h i hi hsnippet
    obtain ⟨p, hp, -, hoffset, name, hcommented⟩ := snippet_commentOpen hi hsnippet
    rw [hoffset]
    exact h p hp name hcommented

/-- A probe reads a declaration just when a probed statement of its name is about it. -/
theorem readByProbe_iff {binding : Binding} : ReadByProbe o ast binding ↔
    ∃ site ∈ ast.sites, ∃ start stop,
      Probed o ast (site.place, site.tree) binding.name start stop ∧
        about site binding.name = some binding ∧
          ∀ p ∈ ast.nodes, ∀ name, Commented o ast p name → p.2.kind.first ≠ stop := by
  constructor
  · rintro ⟨j, hj, probe, hsnippet, ⟨site, hsite, hplace, habout⟩, hkept⟩
    obtain ⟨p, hp, hplace', start, hprobed⟩ := snippet_probe hj hsnippet
    rw [← Ast.tree_eq hsite hp (hplace.trans hplace')] at hprobed
    have hname := hprobed.about_name habout
    rw [← hname] at hprobed habout
    exact ⟨site, hsite, start, j.offset, hprobed, habout, keeps_declaration_iff.mp hkept⟩
  · rintro ⟨site, hsite, start, stop, hprobed, habout, hkept⟩
    exact ⟨_, hprobed.mem_insertions (Ast.sites_nodes hsite), _, rfl,
      ⟨site, hsite, rfl, habout⟩, keeps_declaration_iff.mpr hkept⟩

/-- Comments are safe just when each discard that is commented is distinct. -/
theorem safeDiscards_iff (o : Options) (ast : Ast) : SafeDiscards o ast ↔
    ∀ site ∈ ast.sites, ∀ name, Commented o ast (site.place, site.tree) name →
      Distinct o ast site name := by
  constructor
  · rintro ⟨hcomments, -⟩ site hsite name hcommented
    obtain ⟨name', binding, hname', hstatement, hline, hresolve, hread⟩ := hcomments _
      (hcommented.mem_insertions (Ast.sites_nodes hsite)) rfl site hsite rfl
    obtain rfl := Option.some.inj (hcommented.1.symm.trans hname')
    obtain rfl := Scope.resolve_name hresolve
    obtain ⟨site', hsite', start, stop, hprobed, habout, hkept⟩ := readByProbe_iff.mp hread
    exact ⟨hstatement, hline, site', hsite', start, stop, hprobed,
      Option.isSome_iff_exists.mpr ⟨binding, hresolve⟩, habout.trans hresolve.symm, hkept⟩
  · intro h
    have hcomments : ∀ i ∈ insertions o ast, i.snippet = .commentOpen → ∀ site ∈ ast.sites,
        site.place = i.place → ∃ name binding, discardedName site.tree = some name ∧
          isDirectBlockStatement site.place = true ∧
            oneLine ast.source site.tree.kind = true ∧
              site.context.resolve name = some binding ∧ ReadByProbe o ast binding := by
      intro i hi hsnippet site hsite hplace
      obtain ⟨p, hp, hplace', -, name, hcommented⟩ := snippet_commentOpen hi hsnippet
      rw [← Ast.tree_eq hsite hp (hplace.trans hplace')] at hcommented
      obtain ⟨hstatement, hline, site', hsite', start, stop, hprobed, hsome, habout, hkept⟩ :=
        h site hsite name hcommented
      obtain ⟨binding, hresolve⟩ := Option.isSome_iff_exists.mp hsome
      obtain rfl := Scope.resolve_name hresolve
      exact ⟨binding.name, binding, hcommented.1, hstatement, hline, hresolve,
        readByProbe_iff.mpr ⟨site', hsite', start, stop, hprobed, habout.trans hresolve, hkept⟩⟩
    refine ⟨hcomments, fun site hsite name hname hunread i hi hplace hsnippet => ?_⟩
    obtain ⟨name', binding, hname', -, -, hresolve, hread⟩ :=
      hcomments i hi hsnippet site hsite hplace.symm
    obtain rfl := Option.some.inj (hname.symm.trans hname')
    exact hunread binding hresolve hread

end

/-- `if (c)` with `_ = x;` as its branch, on the next line. -/
def branchDiscard : Ast where
  source := bytes
    "fn f(c: bool) void \x7b\n    const x = 1;\n    if (c)\n        _ = x;\n    g();\n\x7d\n"
  tree := .node ⟨.root, 0, 75, none⟩ <| .ofList
    [(.member, .node ⟨.fnDecl (bytes "f") [bytes "c"], 0, 74, none⟩ <| .ofList
      [(.body, .node ⟨.block, 19, 74, none⟩ <| .ofList
        [(.stmt, .node ⟨.varDecl ⟨false, false, bytes "x", 25⟩, 25, 36, some 37⟩ <| .ofList
          [(.init, .node ⟨.other, 35, 36, some 37⟩ .nil)]),
        (.stmt, .node ⟨.other, 42, 62, some 63⟩ <| .ofList
          [(.part, .node ⟨.identifier (bytes "c"), 46, 47, none⟩ .nil),
            (.body, .node ⟨.assign, 57, 62, some 63⟩ <| .ofList
              [(.lhs, .node ⟨.identifier [underscore], 57, 58, none⟩ .nil),
                (.rhs, .node ⟨.identifier (bytes "x"), 61, 62, some 63⟩ .nil)])]),
        (.stmt, .node ⟨.call, 68, 71, some 72⟩ <| .ofList
          [(.callee, .node ⟨.identifier (bytes "g"), 68, 69, none⟩ .nil)])])])]

/-- The comment makes the next statement the branch. -/
theorem branchDiscard_unsafe : ¬ SafeDiscards
    (inspectAll (bytes "7e09db6785c1472ce5aa5993b8566fb9") (by decide)) branchDiscard := by
  intro h
  have hmem : ∃ i ∈ insertions (inspectAll (bytes "7e09db6785c1472ce5aa5993b8566fb9") (by decide))
      branchDiscard, i.snippet = .commentOpen ∧ ∃ site ∈ branchDiscard.sites,
        site.place = i.place ∧ isDirectBlockStatement site.place = false := by decide
  obtain ⟨i, hi, hsnippet, site, hsite, hplace, hstatement⟩ := hmem
  obtain ⟨name, binding, -, hstatement', -⟩ := h.comments i hi hsnippet site hsite hplace
  exact absurd (hstatement.symm.trans hstatement') Bool.false_ne_true

end Atomis.ZigInstrument
