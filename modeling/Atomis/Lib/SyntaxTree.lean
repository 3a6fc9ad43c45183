import Mathlib

/-!
# Syntax trees and visitors

Trees whose nodes have a kind and whose children stand in fields, the places in such a
tree, and visitors that run code around the visit of a node's children.
-/

namespace Atomis.SyntaxTree

variable {κ φ : Type} {σ : Type*}

mutual

inductive RoseTree (κ φ : Type)
  | node (kind : κ) (children : Forest κ φ)

inductive Forest (κ φ : Type)
  | nil
  | cons (field : φ) (child : RoseTree κ φ) (rest : Forest κ φ)

end

/-- One step from a node to a child. -/
structure Frame (κ φ : Type) where
  kind : κ
  field : φ
  index : ℕ
deriving DecidableEq

/-- The way from the root to a node, the root's step first. -/
abbrev Path (κ φ : Type) := List (Frame κ φ)

def RoseTree.kind : RoseTree κ φ → κ
  | .node kind _ => kind

def RoseTree.children : RoseTree κ φ → Forest κ φ
  | .node _ children => children

def Forest.ofList : List (φ × RoseTree κ φ) → Forest κ φ
  | [] => .nil
  | (field, child) :: rest => .cons field child (.ofList rest)

mutual

/-- The nodes of a tree that stands at `path`, each with its place. -/
def RoseTree.occurrences (path : Path κ φ) : RoseTree κ φ → List (Path κ φ × RoseTree κ φ)
  | .node kind children => (path, .node kind children) :: children.occurrences path kind 0

def Forest.occurrences (path : Path κ φ) (kind : κ) (index : ℕ) :
    Forest κ φ → List (Path κ φ × RoseTree κ φ)
  | .nil => []
  | .cons field child rest =>
    child.occurrences (path ++ [⟨kind, field, index⟩]) ++ rest.occurrences path kind (index + 1)

end

def Forest.fields : Forest κ φ → List φ
  | .nil => []
  | .cons field _ rest => field :: rest.fields

def Forest.trees : Forest κ φ → List (RoseTree κ φ)
  | .nil => []
  | .cons _ child rest => child :: rest.trees

/-- The first child in a field. -/
def Forest.get? [DecidableEq φ] (f : φ) : Forest κ φ → Option (RoseTree κ φ)
  | .nil => none
  | .cons field child rest => if field = f then some child else rest.get? f

/-! ## Sites -/

/-- A node with its place and what it has from the nodes above it. -/
structure Site (κ φ γ : Type) where
  place : Path κ φ
  tree : RoseTree κ φ
  context : γ

section
variable {γ : Type} (down : Path κ φ → κ → Forest κ φ → φ → ℕ → γ → γ)

mutual

/-- The nodes of a tree, where `down` has what a node gives a child on. -/
def RoseTree.sites (path : Path κ φ) (context : γ) : RoseTree κ φ → List (Site κ φ γ)
  | .node kind children =>
    ⟨path, .node kind children, context⟩ :: children.sites path kind 0 context children

def Forest.sites (path : Path κ φ) (kind : κ) (index : ℕ) (context : γ) :
    Forest κ φ → Forest κ φ → List (Site κ φ γ)
  | .nil, _ => []
  | .cons field child rest, all =>
    child.sites (path ++ [⟨kind, field, index⟩]) (down path kind all field index context) ++
      rest.sites path kind (index + 1) context all

end

end

mutual

/-- `around` has what is done at a node, given the visit of its children. -/
def RoseTree.visit (around : Path κ φ → κ → Forest κ φ → (σ → σ) → σ → σ) (path : Path κ φ) :
    RoseTree κ φ → σ → σ
  | .node kind children, s =>
    around path kind children (fun s => children.visit around path kind 0 s) s

def Forest.visit (around : Path κ φ → κ → Forest κ φ → (σ → σ) → σ → σ) (path : Path κ φ)
    (kind : κ) (index : ℕ) : Forest κ φ → σ → σ
  | .nil, s => s
  | .cons field child rest, s =>
    rest.visit around path kind (index + 1)
      (child.visit around (path ++ [⟨kind, field, index⟩]) s)

end

/-! ## Places -/

variable {path : Path κ φ} {kind : κ} {index : ℕ}

mutual

theorem RoseTree.occurrences_below (t : RoseTree κ φ) (path : Path κ φ) {p : Path κ φ × RoseTree κ φ}
    (h : p ∈ t.occurrences path) : ∃ below, p.1 = path ++ below := by
  match t with
  | .node kind children =>
    rw [RoseTree.occurrences, List.mem_cons] at h
    rcases h with rfl | h
    · exact ⟨[], (List.append_nil _).symm⟩
    · obtain ⟨frame, below, -, -, hbelow⟩ := children.occurrences_below path kind 0 h
      exact ⟨frame :: below, hbelow⟩

theorem Forest.occurrences_below (f : Forest κ φ) (path : Path κ φ) (kind : κ) (index : ℕ)
    {p : Path κ φ × RoseTree κ φ} (h : p ∈ f.occurrences path kind index) :
    ∃ frame below, frame.kind = kind ∧ index ≤ frame.index ∧ p.1 = path ++ frame :: below := by
  match f with
  | .nil => exact absurd h List.not_mem_nil
  | .cons field child rest =>
    rw [Forest.occurrences, List.mem_append] at h
    rcases h with h | h
    · obtain ⟨below, hbelow⟩ := child.occurrences_below _ h
      exact ⟨⟨kind, field, index⟩, below, rfl, Nat.le_refl _, by
        rw [hbelow, List.append_assoc]; rfl⟩
    · obtain ⟨frame, below, hkind, hindex, hbelow⟩ := rest.occurrences_below path kind (index + 1) h
      exact ⟨frame, below, hkind, Nat.le_of_succ_le hindex, hbelow⟩

end

mutual

/-- What is below a node of a tree is below it in the tree. -/
theorem RoseTree.occurrences_trans (t : RoseTree κ φ) (path : Path κ φ) {q : Path κ φ} {u : RoseTree κ φ}
    (h : (q, u) ∈ t.occurrences path) {p : Path κ φ × RoseTree κ φ} (hp : p ∈ u.occurrences q) :
    p ∈ t.occurrences path := by
  match t with
  | .node kind children =>
    rw [RoseTree.occurrences, List.mem_cons] at h
    rcases h with h | h
    · obtain ⟨rfl, rfl⟩ := Prod.mk.inj h
      exact hp
    · exact List.mem_cons_of_mem _ (children.occurrences_trans path kind 0 h hp)

theorem Forest.occurrences_trans (f : Forest κ φ) (path : Path κ φ) (kind : κ) (index : ℕ)
    {q : Path κ φ} {u : RoseTree κ φ} (h : (q, u) ∈ f.occurrences path kind index)
    {p : Path κ φ × RoseTree κ φ} (hp : p ∈ u.occurrences q) :
    p ∈ f.occurrences path kind index := by
  match f with
  | .nil => exact absurd h List.not_mem_nil
  | .cons field child rest =>
    rw [Forest.occurrences, List.mem_append] at h ⊢
    rcases h with h | h
    · exact Or.inl (child.occurrences_trans _ h hp)
    · exact Or.inr (rest.occurrences_trans path kind (index + 1) h hp)

end

theorem RoseTree.mem_occurrences_self (t : RoseTree κ φ) (path : Path κ φ) :
    (path, t) ∈ t.occurrences path := by
  cases t with
  | node kind children => exact List.mem_cons_self

theorem Forest.get?_mem [DecidableEq φ] {f : φ} (children : Forest κ φ) {child : RoseTree κ φ}
    (h : children.get? f = some child) (path : Path κ φ) (kind : κ) (start : ℕ) :
    ∃ index, children.fields.idxOf? f = some index ∧
      (path ++ [⟨kind, f, start + index⟩], child) ∈ children.occurrences path kind start := by
  match children with
  | .nil => exact absurd h (Option.some_ne_none child).symm
  | .cons field first rest =>
    rw [Forest.get?] at h
    rw [Forest.fields, List.idxOf?_cons, Forest.occurrences]
    by_cases hfield : field = f
    · rw [if_pos hfield] at h
      obtain rfl := Option.some.inj h
      refine ⟨0, by rw [hfield]; simp, List.mem_append_left _ ?_⟩
      rw [hfield]
      exact first.mem_occurrences_self _
    · rw [if_neg hfield] at h
      obtain ⟨index, hindex, hmem⟩ := rest.get?_mem h path kind (start + 1)
      refine ⟨index + 1, ?_, List.mem_append_right _ ?_⟩
      · rw [if_neg (by simpa using hfield), hindex]
        rfl
      · rwa [Nat.add_assoc, Nat.add_comm 1 index] at hmem

theorem Forest.exists_get? [DecidableEq φ] {f : φ} (children : Forest κ φ) {index : ℕ}
    (h : children.fields.idxOf? f = some index) : ∃ child, children.get? f = some child := by
  match children with
  | .nil => exact absurd h (Option.some_ne_none index).symm
  | .cons field first rest =>
    rw [Forest.get?]
    rw [Forest.fields, List.idxOf?_cons] at h
    by_cases hfield : field = f
    · exact ⟨first, if_pos hfield⟩
    · rw [if_neg (by simpa using hfield)] at h
      obtain ⟨i, hi, -⟩ := Option.map_eq_some_iff.mp h
      obtain ⟨child, hchild⟩ := rest.exists_get? hi
      exact ⟨child, by rw [if_neg hfield, hchild]⟩

section
variable {γ : Type} {down : Path κ φ → κ → Forest κ φ → φ → ℕ → γ → γ}

mutual

theorem RoseTree.sites_occurrences (down : Path κ φ → κ → Forest κ φ → φ → ℕ → γ → γ)
    (t : RoseTree κ φ) (path : Path κ φ) (context : γ) :
    (t.sites down path context).map (fun site => (site.place, site.tree)) =
      t.occurrences path := by
  match t with
  | .node kind children =>
    rw [RoseTree.sites, RoseTree.occurrences, List.map_cons,
      children.sites_occurrences down path kind 0 context children]

theorem Forest.sites_occurrences (down : Path κ φ → κ → Forest κ φ → φ → ℕ → γ → γ)
    (f : Forest κ φ) (path : Path κ φ) (kind : κ) (index : ℕ) (context : γ) (all : Forest κ φ) :
    (f.sites down path kind index context all).map (fun site => (site.place, site.tree)) =
      f.occurrences path kind index := by
  match f with
  | .nil => rfl
  | .cons field child rest =>
    rw [Forest.sites, Forest.occurrences, List.map_append, child.sites_occurrences,
      rest.sites_occurrences down path kind (index + 1) context all]

end

theorem RoseTree.mem_occurrences {t : RoseTree κ φ} {context : γ} {site : Site κ φ γ}
    (h : site ∈ t.sites down path context) : (site.place, site.tree) ∈ t.occurrences path := by
  rw [← t.sites_occurrences down path context]
  exact List.mem_map_of_mem h

theorem Forest.mem_occurrences {f all : Forest κ φ} {context : γ} {site : Site κ φ γ}
    (h : site ∈ f.sites down path kind index context all) :
    (site.place, site.tree) ∈ f.occurrences path kind index := by
  rw [← f.sites_occurrences down path kind index context all]
  exact List.mem_map_of_mem h

mutual

/-- There is one node at a place. -/
theorem RoseTree.sites_unique (t : RoseTree κ φ) (path : Path κ φ) (context : γ) {u v : Site κ φ γ}
    (hu : u ∈ t.sites down path context) (hv : v ∈ t.sites down path context)
    (h : u.place = v.place) : u = v := by
  match t with
  | .node kind children =>
    rw [RoseTree.sites, List.mem_cons] at hu hv
    have hnot {w : Site κ φ γ} (hw : w ∈ children.sites down path kind 0 context children)
        (hplace : w.place = path) : False := by
      obtain ⟨frame, below, -, -, hbelow⟩ :=
        children.occurrences_below path kind 0 (Forest.mem_occurrences hw)
      have := congrArg List.length (hplace.symm.trans hbelow)
      simp only [List.length_append, List.length_cons] at this
      omega
    rcases hu with hroot | hu
    · rcases hv with hroot' | hv
      · exact hroot.trans hroot'.symm
      · exact (hnot hv (h.symm.trans (congrArg Site.place hroot))).elim
    · rcases hv with hroot' | hv
      · exact (hnot hu (h.trans (congrArg Site.place hroot'))).elim
      · exact children.sites_unique path kind 0 context children hu hv h

theorem Forest.sites_unique (f : Forest κ φ) (path : Path κ φ) (kind : κ) (index : ℕ)
    (context : γ) (all : Forest κ φ) {u v : Site κ φ γ}
    (hu : u ∈ f.sites down path kind index context all)
    (hv : v ∈ f.sites down path kind index context all) (h : u.place = v.place) : u = v := by
  match f with
  | .nil => exact absurd hu List.not_mem_nil
  | .cons field child rest =>
    rw [Forest.sites, List.mem_append] at hu hv
    have hnot {w w' : Site κ φ γ}
        (hw : w ∈ child.sites down (path ++ [⟨kind, field, index⟩])
          (down path kind all field index context))
        (hw' : w' ∈ rest.sites down path kind (index + 1) context all)
        (hplace : w.place = w'.place) : False := by
      obtain ⟨below, hbelow⟩ := child.occurrences_below _ (RoseTree.mem_occurrences hw)
      obtain ⟨frame, below', -, hindex, hbelow'⟩ :=
        rest.occurrences_below _ _ _ (Forest.mem_occurrences hw')
      rw [List.append_assoc] at hbelow
      have heq := (List.cons.inj (List.append_cancel_left
        (hbelow.symm.trans (hplace.trans hbelow')))).1
      rw [← heq] at hindex
      exact Nat.not_succ_le_self _ hindex
    rcases hu with hu | hu
    · rcases hv with hv | hv
      · exact child.sites_unique _ _ hu hv h
      · exact (hnot hu hv h).elim
    · rcases hv with hv | hv
      · exact (hnot hv hu h.symm).elim
      · exact rest.sites_unique path kind (index + 1) context all hu hv h

end

end

theorem RoseTree.occurrences_unique (t : RoseTree κ φ) (path : Path κ φ) {p : Path κ φ}
    {u v : RoseTree κ φ} (hu : (p, u) ∈ t.occurrences path) (hv : (p, v) ∈ t.occurrences path) :
    u = v := by
  rw [← t.sites_occurrences (fun _ _ _ _ _ (_ : Unit) => ()) path (), List.mem_map]
    at hu hv
  obtain ⟨site, hu, heq⟩ := hu
  obtain ⟨site', hv, heq'⟩ := hv
  have hsame := t.sites_unique path () hu hv
    ((Prod.mk.inj heq).1.trans (Prod.mk.inj heq').1.symm)
  rw [← (Prod.mk.inj heq).2, ← (Prod.mk.inj heq').2, hsame]

/-! ## Visitors -/

section
variable {γ : Type} {down : Path κ φ → κ → Forest κ φ → φ → ℕ → γ → γ}
  {around : Path κ φ → κ → Forest κ φ → (σ → σ) → σ → σ}

mutual

/-- The visitor rule. `Pre` is what holds when a node is reached, `R` what the visit of some
nodes does: it is enough to look at one node, with its children's visit given. -/
theorem RoseTree.visit_sites (Pre : Path κ φ → γ → σ → Prop)
    (R : List (Site κ φ γ) → σ → σ → Prop) (nil : ∀ s, R [] s s)
    (append : ∀ {l l' s s' s''}, R l s s' → R l' s' s'' → R (l ++ l') s s'')
    (keep : ∀ {path context l s s'}, Pre path context s → R l s s' → Pre path context s')
    (node : ∀ {path context kind children s} (f : σ → σ), Pre path context s →
      (∀ s, (∀ index field, children.fields[index]? = some field →
          Pre (path ++ [⟨kind, field, index⟩]) (down path kind children field index context) s) →
        R (children.sites down path kind 0 context children) s (f s)) →
      R (⟨path, .node kind children, context⟩ :: children.sites down path kind 0 context children)
        s (around path kind children f s))
    (t : RoseTree κ φ) {path : Path κ φ} {context : γ} {s : σ} (h : Pre path context s) :
    R (t.sites down path context) s (t.visit around path s) := by
  match t with
  | .node kind children =>
    rw [RoseTree.sites, RoseTree.visit]
    refine node _ h fun s hs => children.visit_sites Pre R nil append keep node
      fun index field hfield => ?_
    rw [Nat.zero_add]
    exact hs index field hfield

theorem Forest.visit_sites (Pre : Path κ φ → γ → σ → Prop)
    (R : List (Site κ φ γ) → σ → σ → Prop) (nil : ∀ s, R [] s s)
    (append : ∀ {l l' s s' s''}, R l s s' → R l' s' s'' → R (l ++ l') s s'')
    (keep : ∀ {path context l s s'}, Pre path context s → R l s s' → Pre path context s')
    (node : ∀ {path context kind children s} (f : σ → σ), Pre path context s →
      (∀ s, (∀ index field, children.fields[index]? = some field →
          Pre (path ++ [⟨kind, field, index⟩]) (down path kind children field index context) s) →
        R (children.sites down path kind 0 context children) s (f s)) →
      R (⟨path, .node kind children, context⟩ :: children.sites down path kind 0 context children)
        s (around path kind children f s))
    (f : Forest κ φ) {path : Path κ φ} {kind : κ} {all : Forest κ φ} {start : ℕ} {context : γ}
    {s : σ} (h : ∀ index field, f.fields[index]? = some field →
      Pre (path ++ [⟨kind, field, start + index⟩])
        (down path kind all field (start + index) context) s) :
    R (f.sites down path kind start context all) s (f.visit around path kind start s) := by
  match f with
  | .nil =>
    rw [Forest.sites, Forest.visit]
    exact nil s
  | .cons field child rest =>
    have hchild := child.visit_sites Pre R nil append keep node (h 0 field rfl)
    rw [Forest.sites, Forest.visit]
    refine append hchild (rest.visit_sites Pre R nil append keep node
      fun index field hfield => ?_)
    have hpre := h (index + 1) field hfield
    rw [Nat.add_right_comm]
    exact keep hpre hchild

end

end

section
variable {around : Path κ φ → κ → Forest κ φ → (σ → σ) → σ → σ}

/-- The visitor rule where a node has nothing from above but its place. -/
theorem RoseTree.visit_rule (Pre : Path κ φ → σ → Prop)
    (R : List (Path κ φ × RoseTree κ φ) → σ → σ → Prop) (nil : ∀ s, R [] s s)
    (append : ∀ {l l' s s' s''}, R l s s' → R l' s' s'' → R (l ++ l') s s'')
    (keep : ∀ {path l s s'}, Pre path s → R l s s' → Pre path s')
    (node : ∀ {path kind children s} (f : σ → σ), Pre path s →
      (∀ s, (∀ field index, Pre (path ++ [⟨kind, field, index⟩]) s) →
        R (children.occurrences path kind 0) s (f s)) →
      R ((path, .node kind children) :: children.occurrences path kind 0) s
        (around path kind children f s))
    (t : RoseTree κ φ) {path : Path κ φ} {s : σ} (h : Pre path s) :
    R (t.occurrences path) s (t.visit around path s) := by
  have hsites (t : RoseTree κ φ) (path : Path κ φ) :=
    t.sites_occurrences (fun _ _ _ _ _ (_ : Unit) => ()) path ()
  have hforest (f : Forest κ φ) (path : Path κ φ) (kind : κ) :=
    f.sites_occurrences (fun _ _ _ _ _ (_ : Unit) => ()) path kind 0 () f
  rw [← hsites]
  refine RoseTree.visit_sites (fun path _ s => Pre path s)
    (fun l s s' => R (l.map fun site => (site.place, site.tree)) s s') nil (fun h h' => ?_)
    keep (fun f hpre hf => ?_) t h
  · rw [List.map_append]
    exact append h h'
  · rw [List.map_cons, hforest]
    exact node f hpre fun s hs => hforest _ _ _ ▸ hf s fun index field _ => hs field index

end

/-- What every node's visit keeps, given that the visit of its children does. -/
theorem RoseTree.visit_invariant {around : Path κ φ → κ → Forest κ φ → (σ → σ) → σ → σ}
    (Fit : RoseTree κ φ → Prop) (I : σ → Prop)
    (node : ∀ path kind children (f : σ → σ) s,
      (∀ p ∈ (RoseTree.node kind children).occurrences path, Fit p.2) → (∀ s, I s → I (f s)) →
        I s → I (around path kind children f s))
    (t : RoseTree κ φ) (path : Path κ φ) (h : ∀ p ∈ t.occurrences path, Fit p.2) {s : σ}
    (hs : I s) : I (t.visit around path s) := by
  refine RoseTree.visit_rule (fun _ _ => True)
    (fun l s s' => (∀ p ∈ l, Fit p.2) → I s → I s') (fun _ _ => id) ?_ (fun _ _ => trivial) ?_ t
    trivial h hs
  · intro l l' s s' s'' h h' hfit hs
    exact h' (fun p hp => hfit p (List.mem_append_right l hp))
      (h (fun p hp => hfit p (List.mem_append_left l' hp)) hs)
  · intro path kind children s f _ hf hfit hs
    exact node path kind children f s hfit (fun s hs => hf s (fun _ _ => trivial)
      (fun p hp => hfit p (List.mem_cons_of_mem _ hp)) hs) hs

end Atomis.SyntaxTree
