import Atomis.Lib.Decimal
import Atomis.RustConstContexts

/-!
# Rust loop captures

Which loop a marker reads, and where that loop's variable is captured.
-/

namespace Atomis.RustInstrument

open Atomis.SyntaxTree Atomis.Instrument

def Kind.isLoop : Kind → Bool
  | .exprForLoop .. | .exprWhile _ | .exprLoop _ => true
  | _ => false

/-- The kinds the collector leaves the loops outside for. -/
def Kind.isBarrier : Kind → Bool
  | .itemFn .. | .implItemFn _ | .exprClosure | .exprAsync => true
  | _ => false

/-- A function, a closure, an async block or a nested item. -/
def Kind.separates : Kind → Bool
  | .itemFn .. | .implItemFn _ | .traitItemFn _ | .itemConst | .itemStatic | .implItemConst
  | .traitItemConst | .itemMod _ | .item | .exprClosure | .exprAsync => true
  | _ => false

/-- The variable the collector takes for a loop. -/
def loopVariableOf : Syntax → Option String
  | .node (.exprForLoop _ pat) _ =>
    match localIdent pat with
    | .ok (some (name, _)) => some name
    | _ => none
  | .node (.exprWhile _) children => condIdent children
  | _ => none

/-- `frame`, at `q`, is the loop that encloses `p` with no other loop and no barrier between. -/
def Encloses (q : Place) (frame : Frame Kind Field) (p : Place) : Prop :=
  frame.kind.isLoop = true ∧ ∃ below, p = q ++ frame :: below ∧
    ∀ g ∈ below, g.kind.isLoop = false ∧ g.kind.isBarrier = false

def Call.reads : Call → Option String
  | .logLoop _ _ _ _ _ _ _ shadow => some shadow
  | _ => none

def Call.captured : Call → Option String
  | .capture shadow _ => some shadow
  | _ => none

section
variable {o : Options} {place p q q' : Place} {frame frame' : Frame Kind Field} {kind : Kind}
  {c c' c'' : Collector} {children : Forest Kind Field} {l l' : List (Place × Syntax)}

/-! ## Places -/

theorem Encloses.unique (h : Encloses q frame p) (h' : Encloses q' frame' p) :
    q = q' ∧ frame = frame' := by
  obtain ⟨hloop, below, hp, hbelow⟩ := h
  obtain ⟨hloop', below', hp', hbelow'⟩ := h'
  have hsplit := hp.symm.trans hp'
  rcases List.append_eq_append_iff.mp hsplit with ⟨more, hq, hmore⟩ | ⟨more, hq, hmore⟩
  · cases more with
    | nil =>
      rw [List.append_nil] at hq
      exact ⟨hq.symm, (List.cons.inj hmore).1⟩
    | cons g more =>
      obtain ⟨rfl, rfl⟩ := List.cons.inj hmore
      have := (hbelow frame' (List.mem_append_right _ List.mem_cons_self)).1
      rw [hloop'] at this
      exact absurd this.symm Bool.false_ne_true
  · cases more with
    | nil =>
      rw [List.append_nil] at hq
      exact ⟨hq, (List.cons.inj hmore).1.symm⟩
    | cons g more =>
      obtain ⟨rfl, rfl⟩ := List.cons.inj hmore
      have := (hbelow' frame (List.mem_append_right _ List.mem_cons_self)).1
      rw [hloop] at this
      exact absurd this.symm Bool.false_ne_true

theorem encloses_self (h : frame.kind.isLoop = true) : Encloses q frame (q ++ [frame]) :=
  ⟨h, [], rfl, by simp⟩

theorem encloses_append (hloop : frame'.kind.isLoop = false)
    (hbarrier : frame'.kind.isBarrier = false) :
    Encloses q frame (p ++ [frame']) ↔ Encloses q frame p := by
  constructor
  · rintro ⟨h, below, heq, hbelow⟩
    rcases List.eq_nil_or_concat below with rfl | ⟨front, g, rfl⟩
    · obtain ⟨-, heq⟩ := List.append_inj' heq rfl
      rw [(List.cons.inj heq).1, h] at hloop
      exact absurd hloop.symm Bool.false_ne_true
    · rw [List.concat_eq_append, ← List.cons_append, ← List.append_assoc] at heq
      obtain ⟨heq, -⟩ := List.append_inj' heq rfl
      exact ⟨h, front, heq, fun g hg => hbelow g (by
        rw [List.concat_eq_append]; exact List.mem_append_left _ hg)⟩
  · rintro ⟨h, below, rfl, hbelow⟩
    refine ⟨h, below ++ [frame'], by simp, fun g hg => ?_⟩
    rcases List.mem_append.mp hg with hg | hg
    · exact hbelow g hg
    · rw [List.mem_singleton.mp hg]
      exact ⟨hloop, hbarrier⟩

theorem not_encloses_barrier (hbarrier : frame'.kind.isBarrier = true) :
    ¬ Encloses q frame (p ++ [frame']) := by
  rintro ⟨h, below, heq, hbelow⟩
  rcases List.eq_nil_or_concat below with rfl | ⟨front, g, rfl⟩
  · obtain ⟨-, heq⟩ := List.append_inj' heq rfl
    rw [(List.cons.inj heq).1] at hbarrier
    rcases frame with ⟨kind, field, index⟩
    cases kind <;> simp_all [Kind.isLoop, Kind.isBarrier]
  · rw [List.concat_eq_append, ← List.cons_append, ← List.append_assoc] at heq
    obtain ⟨-, heq⟩ := List.append_inj' heq rfl
    have := (hbelow g (by simp)).2
    rw [← (List.cons.inj heq).1, hbarrier] at this
    exact absurd this.symm Bool.false_ne_true

/-! ## Shadows -/

theorem shadowName_injective {m n : ℕ} (h : shadowName m = shadowName n) : m = n := by
  have h := congrArg String.toList h
  rw [shadowName, shadowName, String.toList_append, String.toList_append] at h
  exact Decimal.toString_injective (List.append_cancel_left h)

def capturedIn (new : List Insertion) : List String := new.filterMap (·.call.captured)

/-- A log statement where the collector inserts. -/
def Logs (l : List (Place × Syntax)) (p : Place) : Prop :=
  ∃ node children, (p, .node (.stmtMacro node) children) ∈ l ∧ isLog node = true ∧ ¬ LeftAlone p

/-- `p` reads the loop `m`. -/
def Reads (m : LoopMeta) (shadow : String) (p : Place) : Prop :=
  m.shadow = shadow ∧ m.loopVariable.isSome = true ∧ ∃ frame, Encloses m.place frame p

/-- Nothing names a variable of the loop around `p`. -/
def Unnamed (l : List (Place × Syntax)) (loops : List LoopMeta) (p : Place) : Prop :=
  ∀ q frame, Encloses q frame p → (∃ t, (q, t) ∈ l ∧ loopVariableOf t = none) ∨
    ∃ m ms, loops = m :: ms ∧ m.place = q ∧ m.loopVariable = none

/-- What the visit of the nodes `l` inserts, with the loops and the counter before and after. -/
structure Captures (l : List (Place × Syntax)) (loops loops' : List LoopMeta) (n n' : ℕ)
    (new : List Insertion) : Prop where
  counter : n ≤ n'
  tail : loops'.tail = loops.tail
  used : ∀ m ms m' ms', loops = m :: ms → loops' = m' :: ms' →
    m' = { m with used := m'.used } ∧ (m.used = true → m'.used = true) ∧
      (m'.used = true → m.used = true ∨ ∃ i ∈ new, i.call.reads = some m.shadow)
  length : loops'.length = loops.length
  readers : ∀ i ∈ new, ∀ s, i.call.reads = some s → Logs l i.place ∧
    ((∃ m ms, loops' = m :: ms ∧ m.used = true ∧ Reads m s i.place) ∨
      ∃ k ∈ new, k.call.captured = some s ∧ ∃ frame, Encloses k.place frame i.place)
  captures : ∀ k ∈ new, ∀ s, k.call.captured = some s →
    (∃ number, n < number ∧ number ≤ n' ∧ s = shadowName number) ∧
      (∃ t, (k.place, t) ∈ l ∧ (loopVariableOf t).isSome = true) ∧
        ∃ i ∈ new, i.call.reads = some s
  distinct : (capturedIn new).Nodup
  logs : ∀ p, Logs l p → ∃ i ∈ new, i.place = p ∧
    (i.call.reads.isSome = true ∨ Unnamed l loops p)

/-- The loops are those around the place. -/
structure Stacked (place : Place) (c : Collector) : Prop where
  depths : Depths place c
  none : c.loops = [] → ∀ q frame, ¬ Encloses q frame place
  top : ∀ m ms, c.loops = m :: ms → ∃ frame, Encloses m.place frame place

section
variable {loops loops' loops'' : List LoopMeta} {n n' n'' : ℕ} {new new' : List Insertion}

theorem Logs.mono (h : Logs l p) (hl : ∀ x ∈ l, x ∈ l') : Logs l' p := by
  obtain ⟨node, children, hmem, h⟩ := h
  exact ⟨node, children, hl _ hmem, h⟩

theorem Unnamed.mono (h : Unnamed l loops p) (hl : ∀ x ∈ l, x ∈ l') : Unnamed l' loops p := by
  intro q frame hq
  rcases h q frame hq with ⟨t, hmem, ht⟩ | h
  · exact Or.inl ⟨t, hl _ hmem, ht⟩
  · exact Or.inr h

theorem Captures.of_mem (h : Captures l loops loops' n n' new) (hl : ∀ x, x ∈ l ↔ x ∈ l') :
    Captures l' loops loops' n n' new where
  counter := h.counter
  tail := h.tail
  used := h.used
  length := h.length
  readers i hi s hs := ⟨(h.readers i hi s hs).1.mono fun x => (hl x).mp, (h.readers i hi s hs).2⟩
  captures k hk s hs := by
    obtain ⟨hnumber, ⟨t, hmem, ht⟩, hreader⟩ := h.captures k hk s hs
    exact ⟨hnumber, ⟨t, (hl _).mp hmem, ht⟩, hreader⟩
  distinct := h.distinct
  logs p hp := by
    obtain ⟨i, hi, hplace, hor⟩ := h.logs p (hp.mono fun x => (hl x).mpr)
    exact ⟨i, hi, hplace, hor.imp_right fun h => h.mono fun x => (hl x).mp⟩

theorem captures_plain (h : ∀ p, ¬ Logs l p)
    (hnew : ∀ i ∈ new, i.call.reads = none ∧ i.call.captured = none) :
    Captures l loops loops n n new where
  counter := Nat.le_refl n
  tail := rfl
  used m ms m' ms' hm hm' := by
    obtain ⟨rfl, -⟩ := List.cons.inj (hm.symm.trans hm')
    exact ⟨rfl, id, Or.inl⟩
  length := rfl
  readers i hi s hs := by
    rw [(hnew i hi).1] at hs
    exact absurd hs (Option.some_ne_none s).symm
  captures k hk s hs := by
    rw [(hnew k hk).2] at hs
    exact absurd hs (Option.some_ne_none s).symm
  distinct := by
    rw [capturedIn, List.filterMap_eq_nil_iff.mpr fun k hk => (hnew k hk).2]
    exact List.nodup_nil
  logs p hp := absurd hp (h p)

theorem captures_rfl (h : ∀ p, ¬ Logs l p) : Captures l loops loops n n [] :=
  captures_plain h (by simp)

theorem Captures.append (h : Captures l loops loops' n n' new)
    (h' : Captures l' loops' loops'' n' n'' new') :
    Captures (l ++ l') loops loops'' n n'' (new ++ new') where
  counter := Nat.le_trans h.counter h'.counter
  tail := h'.tail.trans h.tail
  used m ms m'' ms'' hm hm'' := by
    obtain ⟨m', ms', hm'⟩ : ∃ m' ms', loops' = m' :: ms' := by
      have hlength := h.length
      rw [hm, List.length_cons] at hlength
      exact List.exists_cons_of_length_eq_add_one hlength
    obtain ⟨heq, hmono, hused⟩ := h.used m ms m' ms' hm hm'
    obtain ⟨heq', hmono', hused'⟩ := h'.used m' ms' m'' ms'' hm' hm''
    refine ⟨by rw [heq', heq], fun hu => hmono' (hmono hu), fun hu => ?_⟩
    rcases hused' hu with hu | ⟨i, hi, hreads⟩
    · rcases hused hu with hu | ⟨i, hi, hreads⟩
      · exact Or.inl hu
      · exact Or.inr ⟨i, List.mem_append_left _ hi, hreads⟩
    · rw [heq] at hreads
      exact Or.inr ⟨i, List.mem_append_right _ hi, hreads⟩
  length := h'.length.trans h.length
  readers i hi s hs := by
    rcases List.mem_append.mp hi with hi | hi
    · obtain ⟨hlogs, hor⟩ := h.readers i hi s hs
      refine ⟨hlogs.mono fun x => List.mem_append_left _, ?_⟩
      rcases hor with ⟨m', ms', hm', hused, hreads⟩ | ⟨k, hk, hor⟩
      · obtain ⟨m'', ms'', hm''⟩ : ∃ m'' ms'', loops'' = m'' :: ms'' := by
          have hlength := h'.length
          rw [hm', List.length_cons] at hlength
          exact List.exists_cons_of_length_eq_add_one hlength
        obtain ⟨heq, hmono, -⟩ := h'.used m' ms' m'' ms'' hm' hm''
        refine Or.inl ⟨m'', ms'', hm'', hmono hused, ?_⟩
        rw [heq]
        exact hreads
      · exact Or.inr ⟨k, List.mem_append_left _ hk, hor⟩
    · obtain ⟨hlogs, hor⟩ := h'.readers i hi s hs
      refine ⟨hlogs.mono fun x => List.mem_append_right _, ?_⟩
      rcases hor with hor | ⟨k, hk, hor⟩
      · exact Or.inl hor
      · exact Or.inr ⟨k, List.mem_append_right _ hk, hor⟩
  captures k hk s hs := by
    rcases List.mem_append.mp hk with hk | hk
    · obtain ⟨⟨number, hlow, hhigh, hname⟩, ⟨t, hmem, ht⟩, i, hi, hreads⟩ := h.captures k hk s hs
      exact ⟨⟨number, hlow, Nat.le_trans hhigh h'.counter, hname⟩,
        ⟨t, List.mem_append_left _ hmem, ht⟩, i, List.mem_append_left _ hi, hreads⟩
    · obtain ⟨⟨number, hlow, hhigh, hname⟩, ⟨t, hmem, ht⟩, i, hi, hreads⟩ := h'.captures k hk s hs
      exact ⟨⟨number, Nat.lt_of_le_of_lt h.counter hlow, hhigh, hname⟩,
        ⟨t, List.mem_append_right _ hmem, ht⟩, i, List.mem_append_right _ hi, hreads⟩
  distinct := by
    rw [capturedIn, List.filterMap_append]
    refine List.nodup_append.mpr ⟨h.distinct, h'.distinct, fun s hs s' hs' heq => ?_⟩
    obtain ⟨k, hk, hs⟩ := List.mem_filterMap.mp hs
    obtain ⟨k', hk', hs'⟩ := List.mem_filterMap.mp hs'
    obtain ⟨⟨number, -, hhigh, hname⟩, -⟩ := h.captures k hk s hs
    obtain ⟨⟨number', hlow, -, hname'⟩, -⟩ := h'.captures k' hk' s' hs'
    have := shadowName_injective (hname.symm.trans (heq.trans hname'))
    omega
  logs p hp := by
    obtain ⟨node, children, hmem, hp⟩ := hp
    rcases List.mem_append.mp hmem with hmem | hmem
    · obtain ⟨i, hi, hplace, hor⟩ := h.logs p ⟨node, children, hmem, hp⟩
      exact ⟨i, List.mem_append_left _ hi, hplace,
        hor.imp_right fun h => h.mono fun x => List.mem_append_left _⟩
    · obtain ⟨i, hi, hplace, hor⟩ := h'.logs p ⟨node, children, hmem, hp⟩
      refine ⟨i, List.mem_append_right _ hi, hplace, hor.imp_right fun hunnamed q frame hq => ?_⟩
      rcases hunnamed q frame hq with ⟨t, hmem, ht⟩ | ⟨m', ms', hm', hplace, hnone⟩
      · exact Or.inl ⟨t, List.mem_append_right _ hmem, ht⟩
      · obtain ⟨m, ms, hm⟩ : ∃ m ms, loops = m :: ms := by
          have hlength := h.length.symm
          rw [hm', List.length_cons] at hlength
          exact List.exists_cons_of_length_eq_add_one hlength
        obtain ⟨heq, -⟩ := h.used m ms m' ms' hm hm'
        rw [heq] at hplace hnone
        exact Or.inr ⟨m, ms, hm, hplace, hnone⟩

/-! ## The methods -/

/-- What a visit keeps and inserts. -/
structure Visited (o : Options) (l : List (Place × Syntax)) (c c' : Collector) : Prop where
  reported : Reported o l c c'
  captures : ∃ new, c'.insertions = c.insertions ++ new ∧
    Captures l c.loops c'.loops c.loopCounter c'.loopCounter new

theorem not_logs_nil (p : Place) : ¬ Logs [] p := by
  rintro ⟨node, children, hmem, -⟩
  exact absurd hmem List.not_mem_nil

theorem visited_nil : Visited o [] c c :=
  ⟨reported_rfl not_reports_nil, [], (List.append_nil _).symm, captures_rfl not_logs_nil⟩

theorem Visited.append (h : Visited o l c c') (h' : Visited o l' c' c'') :
    Visited o (l ++ l') c c'' := by
  obtain ⟨new, heq, hnew⟩ := h.captures
  obtain ⟨new', heq', hnew'⟩ := h'.captures
  exact ⟨h.reported.append h'.reported, new ++ new', by rw [heq', heq, List.append_assoc],
    hnew.append hnew'⟩

theorem Visited.keep (h : Visited o l c c') (hs : Stacked place c) : Stacked place c' where
  depths := h.reported.keep hs.depths
  none hnil := by
    obtain ⟨new, -, hnew⟩ := h.captures
    have hlength := hnew.length
    rw [hnil] at hlength
    exact hs.none (List.length_eq_zero_iff.mp hlength.symm)
  top m' ms' hm' := by
    obtain ⟨new, -, hnew⟩ := h.captures
    obtain ⟨m, ms, hm⟩ : ∃ m ms, c.loops = m :: ms := by
      have hlength := hnew.length.symm
      rw [hm', List.length_cons] at hlength
      exact List.exists_cons_of_length_eq_add_one hlength
    obtain ⟨heq, -⟩ := hnew.used m ms m' ms' hm hm'
    rw [heq]
    exact hs.top m ms hm

/-- A node that is no log statement, visited like its children. -/
theorem Captures.node {t : Syntax} (h : Captures l loops loops' n n' new)
    (ht : ∀ node children, t ≠ .node (.stmtMacro node) children) :
    Captures ((place, t) :: l) loops loops' n n' new := by
  refine (captures_rfl fun p hp => ?_ : Captures [(place, t)] loops loops n n []).append h
  obtain ⟨node, children, hmem, -⟩ := hp
  exact ht node children (Prod.mk.inj (List.mem_singleton.mp hmem)).2.symm

/-- Behind a barrier there is no loop to read. -/
theorem Captures.barrier (h : Captures l [] loops' n n' new) : Captures l loops loops n n' new where
  counter := h.counter
  tail := rfl
  used m ms m' ms' hm hm' := by
    obtain ⟨rfl, -⟩ := List.cons.inj (hm.symm.trans hm')
    exact ⟨rfl, id, Or.inl⟩
  length := rfl
  readers i hi s hs := by
    obtain ⟨hlogs, hor⟩ := h.readers i hi s hs
    refine ⟨hlogs, Or.inr (hor.resolve_left ?_)⟩
    rintro ⟨m, ms, hm, -⟩
    have hlength := h.length
    rw [hm] at hlength
    exact Nat.succ_ne_zero _ hlength
  captures := h.captures
  distinct := h.distinct
  logs p hp := by
    obtain ⟨i, hi, hplace, hor⟩ := h.logs p hp
    refine ⟨i, hi, hplace, hor.imp_right fun hunnamed q frame hq => ?_⟩
    rcases hunnamed q frame hq with h | ⟨m, ms, hm, -⟩
    · exact Or.inl h
    · exact absurd hm.symm (List.cons_ne_nil m ms)

section
variable {m m' : LoopMeta} {t : Syntax} {ms' : List LoopMeta}

/-- The loop that is left is read by nothing. -/
theorem Captures.leave (h : Captures l (m :: loops) (m' :: ms') (n + 1) n' new)
    (hmem : (m.place, t) ∈ l) (hvariable : m.loopVariable = loopVariableOf t)
    (hunread : m'.used = false ∨ m.loopVariable = none) :
    Captures l loops ms' n n' new where
  counter := Nat.le_of_succ_le h.counter
  tail := congrArg List.tail h.tail
  used m₁ ms₁ m₂ ms₂ hm₁ hm₂ := by
    have htail : ms' = loops := h.tail
    obtain ⟨rfl, -⟩ := List.cons.inj (hm₂.symm.trans (htail.trans hm₁))
    exact ⟨rfl, id, Or.inl⟩
  length := Nat.succ.inj h.length
  readers i hi s hs := by
    obtain ⟨hlogs, hor⟩ := h.readers i hi s hs
    refine ⟨hlogs, Or.inr (hor.resolve_left ?_)⟩
    rintro ⟨m₁, ms₁, hm₁, hused, -, hsome, -⟩
    obtain ⟨rfl, -⟩ := List.cons.inj hm₁
    rcases hunread with hunread | hunread
    · rw [hused] at hunread
      exact Bool.false_ne_true hunread.symm
    · rw [(h.used m loops m' ms' rfl rfl).1, hunread] at hsome
      exact Bool.false_ne_true hsome
  captures k hk s hs := by
    obtain ⟨⟨number, hlow, hhigh, hname⟩, hrest⟩ := h.captures k hk s hs
    exact ⟨⟨number, Nat.lt_of_succ_lt hlow, hhigh, hname⟩, hrest⟩
  distinct := h.distinct
  logs p hp := by
    obtain ⟨i, hi, hplace, hor⟩ := h.logs p hp
    refine ⟨i, hi, hplace, hor.imp_right fun hunnamed q frame hq => ?_⟩
    rcases hunnamed q frame hq with h | ⟨m₁, ms₁, hm₁, rfl, hnone⟩
    · exact Or.inl h
    · obtain ⟨rfl, -⟩ := List.cons.inj hm₁
      exact Or.inl ⟨t, hmem, hvariable.symm.trans hnone⟩

/-- The loop that is left is read, and its variable captured. -/
theorem Captures.capture (h : Captures l (m :: loops) (m' :: ms') (n + 1) n' new)
    (hmem : (m.place, t) ∈ l) (hvariable : m.loopVariable = loopVariableOf t)
    (hshadow : m.shadow = shadowName (n + 1)) (hfresh : m.used = false)
    (hused : m'.used = true) {x : String} (hx : m.loopVariable = some x) (byte : ℕ) :
    Captures l loops ms' n n' (new ++ [⟨byte, .capture m.shadow x, m.place⟩]) where
  counter := Nat.le_of_succ_le h.counter
  tail := congrArg List.tail h.tail
  used m₁ ms₁ m₂ ms₂ hm₁ hm₂ := by
    have htail : ms' = loops := h.tail
    obtain ⟨rfl, -⟩ := List.cons.inj (hm₂.symm.trans (htail.trans hm₁))
    exact ⟨rfl, id, Or.inl⟩
  length := Nat.succ.inj h.length
  readers i hi s hs := by
    rcases List.mem_append.mp hi with hi | hi
    · obtain ⟨hlogs, hor⟩ := h.readers i hi s hs
      refine ⟨hlogs, Or.inr ?_⟩
      rcases hor with ⟨m₁, ms₁, hm₁, -, hname, -, hframe⟩ | ⟨k, hk, hor⟩
      · obtain ⟨rfl, -⟩ := List.cons.inj hm₁
        rw [(h.used m loops m' ms' rfl rfl).1] at hname hframe
        exact ⟨_, List.mem_append_right _ (List.mem_singleton_self _), congrArg some hname, hframe⟩
      · exact ⟨k, List.mem_append_left _ hk, hor⟩
    · rw [List.mem_singleton.mp hi] at hs
      exact absurd hs (by simp [Call.reads])
  captures k hk s hs := by
    rcases List.mem_append.mp hk with hk | hk
    · obtain ⟨⟨number, hlow, hhigh, hname⟩, hloop, i, hi, hreads⟩ := h.captures k hk s hs
      exact ⟨⟨number, Nat.lt_of_succ_lt hlow, hhigh, hname⟩, hloop, i,
        List.mem_append_left _ hi, hreads⟩
    · rw [List.mem_singleton.mp hk] at hs ⊢
      obtain rfl := Option.some.inj hs
      obtain ⟨i, hi, hreads⟩ := ((h.used m loops m' ms' rfl rfl).2.2 hused).resolve_left
        (by rw [hfresh]; exact Bool.false_ne_true)
      refine ⟨⟨n + 1, Nat.lt_succ_self n, h.counter, hshadow⟩,
        ⟨t, hmem, ?_⟩, i, List.mem_append_left _ hi, hreads⟩
      rw [← hvariable, hx]
      rfl
  distinct := by
    rw [capturedIn, List.filterMap_append]
    refine List.nodup_append.mpr ⟨h.distinct, List.pairwise_singleton _ _, fun s hs s' hs' heq => ?_⟩
    obtain ⟨k, hk, hs⟩ := List.mem_filterMap.mp hs
    obtain ⟨⟨number, hlow, -, hname⟩, -⟩ := h.captures k hk s hs
    have hs' : s' = m.shadow := List.mem_singleton.mp hs'
    have := shadowName_injective (hname.symm.trans (heq.trans (hs'.trans hshadow)))
    omega
  logs p hp := by
    obtain ⟨i, hi, hplace, hor⟩ := h.logs p hp
    refine ⟨i, List.mem_append_left _ hi, hplace, hor.imp_right fun hunnamed q frame hq => ?_⟩
    rcases hunnamed q frame hq with h | ⟨m₁, ms₁, hm₁, rfl, hnone⟩
    · exact Or.inl h
    · obtain ⟨rfl, -⟩ := List.cons.inj hm₁
      exact Or.inl ⟨t, hmem, hvariable.symm.trans hnone⟩

end

theorem popLoop_captures {at_ : LoopPlace} {t : Syntax} {x : Option String}
    (hmem : (place, t) ∈ l) (hvariable : x = loopVariableOf t)
    (h : ∃ new, c'.insertions = c.insertions ++ new ∧ Captures l (c.pushLoop at_ x place).loops
      c'.loops (c.loopCounter + 1) c'.loopCounter new) :
    ∃ new, c'.popLoop.insertions = c.insertions ++ new ∧
      Captures l c.loops c'.popLoop.loops c.loopCounter c'.popLoop.loopCounter new := by
  obtain ⟨new, heq, hnew⟩ := h
  rw [Collector.pushLoop] at hnew
  cases hc : c'.loops with
  | nil =>
    rw [hc] at hnew
    exact absurd hnew.length (Nat.succ_ne_zero _).symm
  | cons m' ms' =>
    rw [hc] at hnew
    obtain ⟨hm', -⟩ := hnew.used _ _ m' ms' rfl rfl
    have hx : m'.loopVariable = x := by rw [hm']
    rw [Collector.popLoop, hc]
    cases hused : m'.used with
    | false =>
      simp only [Bool.false_eq_true, if_false, hused]
      exact ⟨new, heq, hnew.leave hmem hvariable (Or.inl hused)⟩
    | true =>
      cases x with
      | none =>
        simp only [if_true, hused, hx]
        exact ⟨new, heq, hnew.leave hmem hvariable (Or.inr rfl)⟩
      | some x =>
        simp only [if_true, hused, hx]
        refine ⟨_, (congrArg (· ++ _) heq).trans (List.append_assoc _ _ _), ?_⟩
        have hcapture := hnew.capture hmem hvariable rfl rfl hused rfl m'.bodyStart
        rwa [show m'.shadow = shadowName (c.loopCounter + 1) by rw [hm'],
          show m'.place = place by rw [hm']]

theorem recordLocal_captures {node : Local} {children : Forest Kind Field} :
    ∃ new, (recordLocal o place c node).insertions = c.insertions ++ new ∧
      Captures [(place, .node (.«local» node) children)] c.loops (recordLocal o place c node).loops
        c.loopCounter (recordLocal o place c node).loopCounter new := by
  have hnot (p : Place) : ¬ Logs [(place, .node (.«local» node) children)] p := by
    rintro ⟨node, children, hmem, -⟩
    simp at hmem
  have hidle : ∃ new, c.insertions = c.insertions ++ new ∧
      Captures [(place, .node (.«local» node) children)] c.loops c.loops c.loopCounter
        c.loopCounter new := ⟨[], (List.append_nil _).symm, captures_rfl hnot⟩
  rw [recordLocal]
  by_cases htest : 0 < c.testDepth
  · rw [if_pos htest]
    exact hidle
  · rw [if_neg htest]
    by_cases hconst : 0 < c.constDepth
    · rw [if_pos hconst]
      split
      · exact hidle
      · exact hidle
    · rw [if_neg hconst]
      split
      · exact hidle
      · exact hidle
      next name range hpat =>
        cases hinit : node.init with
        | false => exact hidle
        | true =>
          simp only [Bool.not_true, Bool.false_eq_true, ↓reduceIte]
          cases hactive : o.active (probeId "rustlive-v1" o.uri range name) with
          | false =>
            simp only [Bool.false_eq_true, ↓reduceIte]
            exact hidle
          | true =>
            simp only [↓reduceIte]
            refine ⟨[_], rfl, captures_plain hnot fun i hi => ?_⟩
            rw [List.mem_singleton.mp hi]
            exact ⟨rfl, rfl⟩

/-- A log statement reads the loop around it, if that has a variable. -/
theorem recordMacro_captures {node : StmtMacro} {children : Forest Kind Field}
    (hs : Stacked place c) :
    ∃ new, (recordMacro o place c node).insertions = c.insertions ++ new ∧
      Captures [(place, .node (.stmtMacro node) children)] c.loops
        (recordMacro o place c node).loops c.loopCounter
        (recordMacro o place c node).loopCounter new := by
  have hlogs {p : Place} : Logs [(place, .node (.stmtMacro node) children)] p ↔
      p = place ∧ isLog node = true ∧ ¬ LeftAlone place := by
    constructor
    · rintro ⟨node, children, hmem, h⟩
      obtain ⟨rfl, heq⟩ := Prod.mk.inj (List.mem_singleton.mp hmem)
      obtain ⟨heq, -⟩ := RoseTree.node.inj heq
      obtain rfl := Kind.stmtMacro.inj heq
      exact ⟨rfl, h⟩
    · rintro ⟨rfl, h⟩
      exact ⟨node, children, List.mem_singleton_self _, h⟩
  have hidle (hnot : isLog node = false ∨ LeftAlone place) :
      ∃ new, c.insertions = c.insertions ++ new ∧
        Captures [(place, .node (.stmtMacro node) children)] c.loops c.loops c.loopCounter
          c.loopCounter new := by
    refine ⟨[], (List.append_nil _).symm, captures_rfl fun p hp => ?_⟩
    obtain ⟨-, hlog, hopen⟩ := hlogs.mp hp
    rcases hnot with hnot | hnot
    · rw [hnot] at hlog
      exact Bool.false_ne_true hlog
    · exact hopen hnot
  rw [recordMacro]
  by_cases hleft : LeftAlone place
  · have hdepth : (decide (0 < c.testDepth) || decide (0 < c.constDepth)) = true := by
      simpa using hs.depths.leftAlone_iff.mp hleft
    rw [if_pos hdepth]
    exact hidle (Or.inr hleft)
  · have hdepth : ¬ (decide (0 < c.testDepth) || decide (0 < c.constDepth)) = true := by
      simpa using fun h => hleft (hs.depths.leftAlone_iff.mpr h)
    rw [if_neg hdepth]
    split
    next hlast => exact hidle (Or.inl (by rw [isLog, hlast]; rfl))
    next name hlast =>
      cases hname : logMacros.contains name with
      | false => exact hidle (Or.inl (by rw [isLog, hlast]; exact hname))
      | true =>
        have hlog : isLog node = true := by
          rw [isLog, hlast]
          exact hname
        simp only [Bool.not_true, Bool.false_eq_true, ↓reduceIte]
        refine ⟨[_], rfl, ?_⟩
        cases hloops : c.loops with
        | nil =>
          refine ⟨Nat.le_refl _, rfl, fun m ms m' ms' hm => by simp at hm, rfl, fun i hi s hreads => ?_,
            fun k hk s hcaptured => ?_, List.nodup_nil, fun p hp => ?_⟩
          · rw [List.mem_singleton.mp hi] at hreads
            simp [logCall, Call.reads] at hreads
          · rw [List.mem_singleton.mp hk] at hcaptured
            simp [logCall, Call.captured] at hcaptured
          · obtain ⟨rfl, -⟩ := hlogs.mp hp
            exact ⟨_, List.mem_singleton_self _, rfl, Or.inr fun q frame hq =>
              absurd hq (hs.none hloops q frame)⟩
        | cons m ms =>
          obtain ⟨frame, hframe⟩ := hs.top m ms hloops
          cases hvariable : m.loopVariable with
          | none =>
            simp only [logCall, hvariable]
            refine ⟨Nat.le_refl _, rfl, fun m ms m' ms' hm hm' => ?_, rfl, fun i hi s hreads => ?_,
              fun k hk s hcaptured => ?_, List.nodup_nil, fun p hp => ?_⟩
            · obtain ⟨rfl, -⟩ := List.cons.inj (hm.symm.trans hm')
              exact ⟨rfl, id, Or.inl⟩
            · rw [List.mem_singleton.mp hi] at hreads
              exact absurd hreads (Option.some_ne_none s).symm
            · rw [List.mem_singleton.mp hk] at hcaptured
              exact absurd hcaptured (Option.some_ne_none s).symm
            · obtain ⟨rfl, -⟩ := hlogs.mp hp
              refine ⟨_, List.mem_singleton_self _, rfl, Or.inr fun q frame' hq => ?_⟩
              exact Or.inr ⟨m, ms, rfl, (hframe.unique hq).1, hvariable⟩
          | some x =>
            simp only [logCall, hvariable]
            refine ⟨Nat.le_refl _, rfl, fun m₁ ms₁ m' ms' hm hm' => ?_, rfl, fun i hi s hreads => ?_,
              fun k hk s hcaptured => ?_, List.nodup_nil, fun p hp => ?_⟩
            · obtain ⟨rfl, -⟩ := List.cons.inj hm
              obtain ⟨rfl, -⟩ := List.cons.inj hm'
              exact ⟨by rw [hvariable], fun _ => rfl,
                fun _ => Or.inr ⟨_, List.mem_singleton_self _, rfl⟩⟩
            · rw [List.mem_singleton.mp hi] at hreads ⊢
              obtain rfl := Option.some.inj hreads
              exact ⟨hlogs.mpr ⟨rfl, hlog, hleft⟩,
                Or.inl ⟨_, ms, rfl, rfl, rfl, rfl, frame, hframe⟩⟩
            · rw [List.mem_singleton.mp hk] at hcaptured
              exact absurd hcaptured (Option.some_ne_none s).symm
            · obtain ⟨rfl, -⟩ := hlogs.mp hp
              exact ⟨_, List.mem_singleton_self _, rfl, Or.inl rfl⟩

theorem stacked_loop {at_ : LoopPlace} {x : Option String} (hloop : kind.isLoop = true)
    (hd : ∀ field index, Depths (place ++ [⟨kind, field, index⟩]) (c.pushLoop at_ x place))
    (field : Field) (index : ℕ) :
    Stacked (place ++ [⟨kind, field, index⟩]) (c.pushLoop at_ x place) where
  depths := hd field index
  none hnil := absurd hnil (List.cons_ne_nil _ _)
  top m ms hm := by
    obtain ⟨rfl, -⟩ := List.cons.inj hm
    exact ⟨⟨kind, field, index⟩, encloses_self hloop⟩

theorem stacked_barrier (hbarrier : kind.isBarrier = true) (hnil : c.loops = [])
    (hd : ∀ field index, Depths (place ++ [⟨kind, field, index⟩]) c)
    (field : Field) (index : ℕ) : Stacked (place ++ [⟨kind, field, index⟩]) c where
  depths := hd field index
  none _ _ _ := not_encloses_barrier hbarrier
  top m ms hm := absurd (hnil.symm.trans hm).symm (List.cons_ne_nil m ms)

theorem stacked_plain (hloop : kind.isLoop = false) (hbarrier : kind.isBarrier = false)
    (hs : Stacked place c) (hloops : c'.loops = c.loops)
    (hd : ∀ field index, Depths (place ++ [⟨kind, field, index⟩]) c')
    (field : Field) (index : ℕ) : Stacked (place ++ [⟨kind, field, index⟩]) c' where
  depths := hd field index
  none hnil q frame hq :=
    hs.none (hloops.symm.trans hnil) q frame ((encloses_append hloop hbarrier).mp hq)
  top m ms hm := by
    obtain ⟨frame, hframe⟩ := hs.top m ms (hloops.symm.trans hm)
    exact ⟨frame, (encloses_append hloop hbarrier).mpr hframe⟩

theorem withTest_captures {test : Bool} {f : Collector → Collector}
    (h : ∃ new, (f { c with testDepth := c.testDepth + if test then 1 else 0 }).insertions =
        c.insertions ++ new ∧ Captures l c.loops
      (f { c with testDepth := c.testDepth + if test then 1 else 0 }).loops c.loopCounter
      (f { c with testDepth := c.testDepth + if test then 1 else 0 }).loopCounter new) :
    ∃ new, (Collector.withTest test f c).insertions = c.insertions ++ new ∧
      Captures l c.loops (Collector.withTest test f c).loops c.loopCounter
        (Collector.withTest test f c).loopCounter new := by
  cases test with
  | false => exact h
  | true => exact h

theorem withConst_captures {konst : Bool} {f : Collector → Collector}
    (h : ∃ new, (f { c with constDepth := c.constDepth + if konst then 1 else 0 }).insertions =
        c.insertions ++ new ∧ Captures l c.loops
      (f { c with constDepth := c.constDepth + if konst then 1 else 0 }).loops c.loopCounter
      (f { c with constDepth := c.constDepth + if konst then 1 else 0 }).loopCounter new) :
    ∃ new, (Collector.withConst konst f c).insertions = c.insertions ++ new ∧
      Captures l c.loops (Collector.withConst konst f c).loops c.loopCounter
        (Collector.withConst konst f c).loopCounter new := by
  cases konst with
  | false => exact h
  | true => exact h

theorem withLoopBarrier_captures {f : Collector → Collector}
    (h : ∃ new, (f { c with loops := [] }).insertions = c.insertions ++ new ∧
      Captures l [] (f { c with loops := [] }).loops c.loopCounter
        (f { c with loops := [] }).loopCounter new) :
    ∃ new, (Collector.withLoopBarrier f c).insertions = c.insertions ++ new ∧
      Captures l c.loops (Collector.withLoopBarrier f c).loops c.loopCounter
        (Collector.withLoopBarrier f c).loopCounter new := by
  obtain ⟨new, heq, hnew⟩ := h
  exact ⟨new, heq, hnew.barrier⟩

theorem captures_node {t : Syntax} (ht : ∀ node children, t ≠ .node (.stmtMacro node) children)
    (h : ∃ new, c'.insertions = c.insertions ++ new ∧
      Captures l c.loops c'.loops c.loopCounter c'.loopCounter new) :
    ∃ new, c'.insertions = c.insertions ++ new ∧
      Captures ((place, t) :: l) c.loops c'.loops c.loopCounter c'.loopCounter new := by
  obtain ⟨new, heq, hnew⟩ := h
  exact ⟨new, heq, hnew.node ht⟩

end

/-- One case for each method. -/
theorem visitNode_visited (f : Collector → Collector) (hs : Stacked place c)
    (hf : ∀ c, (∀ field index, Stacked (place ++ [⟨kind, field, index⟩]) c) →
      Visited o (children.occurrences place kind 0) c (f c)) :
    Visited o ((place, .node kind children) :: children.occurrences place kind 0) c
      (visitNode o place kind children f c) := by
  have hdepths {c' : Collector}
      (hconst : c'.constDepth = c.constDepth + if countsConst kind then 1 else 0)
      (htest : c'.testDepth = c.testDepth + if countsTest kind then 1 else 0)
      (field : Field) (index : ℕ) : Depths (place ++ [⟨kind, field, index⟩]) c' :=
    ⟨by rw [hconst, hs.depths.const, constDepthAt_append],
      by rw [htest, hs.depths.test, testDepthAt_append]⟩
  have hbelow : ∀ p ∈ children.occurrences place kind 0, place <+: p.1 := by
    intro p hp
    obtain ⟨frame, below, -, -, hbelow⟩ := Forest.occurrences_below _ _ _ _ hp
    exact ⟨frame :: below, hbelow.symm⟩
  have hswap {l : List (Place × Syntax)} {x : Place × Syntax} {c c' : Collector}
      (h : Visited o (l ++ [x]) c c') : Visited o (x :: l) c c' := by
    obtain ⟨new, heq, hnew⟩ := h.captures
    refine ⟨h.reported.swap, new, heq, hnew.of_mem fun y => ?_⟩
    rw [List.mem_append, List.mem_singleton, List.mem_cons, or_comm]
  cases kind with
  | itemFn attrs constness =>
    have h := hf _ (stacked_barrier rfl rfl (@hdepths { c with
      testDepth := c.testDepth + if isTestAttr attrs then 1 else 0
      constDepth := c.constDepth + if constness then 1 else 0
      loops := [] } rfl rfl))
    exact ⟨(withTest_reported (withConst_reported (withLoopBarrier_reported h.reported))).node rfl,
      captures_node nofun
        (withTest_captures (withConst_captures (withLoopBarrier_captures h.captures)))⟩
  | implItemFn constness =>
    have h := hf _ (stacked_barrier rfl rfl (@hdepths { c with
      constDepth := c.constDepth + if constness then 1 else 0
      loops := [] } rfl rfl))
    exact ⟨(withConst_reported (withLoopBarrier_reported h.reported)).node rfl,
      captures_node nofun (withConst_captures (withLoopBarrier_captures h.captures))⟩
  | exprClosure =>
    have h := hf _ (stacked_barrier rfl rfl (@hdepths { c with loops := [] } rfl rfl))
    exact ⟨(withLoopBarrier_reported h.reported).node rfl,
      captures_node nofun (withLoopBarrier_captures h.captures)⟩
  | exprAsync =>
    have h := hf _ (stacked_barrier rfl rfl (@hdepths { c with loops := [] } rfl rfl))
    exact ⟨(withLoopBarrier_reported h.reported).node rfl,
      captures_node nofun (withLoopBarrier_captures h.captures)⟩
  | itemConst =>
    have h := hf { c with constDepth := c.constDepth + if true then 1 else 0 }
      (stacked_plain rfl rfl hs rfl (hdepths rfl rfl))
    exact ⟨(withConst_reported h.reported).node rfl,
      captures_node nofun (withConst_captures h.captures)⟩
  | itemStatic =>
    have h := hf { c with constDepth := c.constDepth + if true then 1 else 0 }
      (stacked_plain rfl rfl hs rfl (hdepths rfl rfl))
    exact ⟨(withConst_reported h.reported).node rfl,
      captures_node nofun (withConst_captures h.captures)⟩
  | exprConst =>
    have h := hf { c with constDepth := c.constDepth + if true then 1 else 0 }
      (stacked_plain rfl rfl hs rfl (hdepths rfl rfl))
    exact ⟨(withConst_reported h.reported).node rfl,
      captures_node nofun (withConst_captures h.captures)⟩
  | itemMod attrs =>
    have h := hf { c with testDepth := c.testDepth + if isTestAttr attrs then 1 else 0 }
      (stacked_plain rfl rfl hs rfl (hdepths rfl rfl))
    exact ⟨(withTest_reported h.reported).node rfl,
      captures_node nofun (withTest_captures h.captures)⟩
  | exprForLoop at_ pat =>
    have h := hf (c.pushLoop at_ (loopVariableOf (.node (.exprForLoop at_ pat) children)) place)
      (stacked_loop rfl (hdepths rfl rfl))
    exact ⟨(popLoop_reported hbelow h.reported).node rfl,
      popLoop_captures List.mem_cons_self rfl
        (captures_node (t := .node (.exprForLoop at_ pat) children) nofun h.captures)⟩
  | exprWhile at_ =>
    have h := hf (c.pushLoop at_ (loopVariableOf (.node (.exprWhile at_) children)) place)
      (stacked_loop rfl (hdepths rfl rfl))
    exact ⟨(popLoop_reported hbelow h.reported).node rfl,
      popLoop_captures List.mem_cons_self rfl
        (captures_node (t := .node (.exprWhile at_) children) nofun h.captures)⟩
  | exprLoop at_ =>
    have h := hf (c.pushLoop at_ (loopVariableOf (.node (.exprLoop at_) children)) place)
      (stacked_loop rfl (hdepths rfl rfl))
    exact ⟨(popLoop_reported hbelow h.reported).node rfl,
      popLoop_captures List.mem_cons_self rfl
        (captures_node (t := .node (.exprLoop at_) children) nofun h.captures)⟩
  | «local» node =>
    have h := hf c (stacked_plain rfl rfl hs rfl (hdepths rfl rfl))
    exact hswap (h.append ⟨recordLocal_reported (h.reported.keep hs.depths), recordLocal_captures⟩)
  | stmtMacro node =>
    have h := hf c (stacked_plain rfl rfl hs rfl (hdepths rfl rfl))
    exact hswap (h.append ⟨recordMacro_reported (h.reported.keep hs.depths),
      recordMacro_captures (h.keep hs)⟩)
  | traitItemFn _ =>
    have h := hf c (stacked_plain rfl rfl hs rfl (hdepths rfl rfl))
    exact ⟨h.reported.node rfl, captures_node nofun h.captures⟩
  | implItemConst =>
    have h := hf c (stacked_plain rfl rfl hs rfl (hdepths rfl rfl))
    exact ⟨h.reported.node rfl, captures_node nofun h.captures⟩
  | traitItemConst =>
    have h := hf c (stacked_plain rfl rfl hs rfl (hdepths rfl rfl))
    exact ⟨h.reported.node rfl, captures_node nofun h.captures⟩
  | exprRepeat =>
    have h := hf c (stacked_plain rfl rfl hs rfl (hdepths rfl rfl))
    exact ⟨h.reported.node rfl, captures_node nofun h.captures⟩
  | typeArray =>
    have h := hf c (stacked_plain rfl rfl hs rfl (hdepths rfl rfl))
    exact ⟨h.reported.node rfl, captures_node nofun h.captures⟩
  | variant =>
    have h := hf c (stacked_plain rfl rfl hs rfl (hdepths rfl rfl))
    exact ⟨h.reported.node rfl, captures_node nofun h.captures⟩
  | genericArgument =>
    have h := hf c (stacked_plain rfl rfl hs rfl (hdepths rfl rfl))
    exact ⟨h.reported.node rfl, captures_node nofun h.captures⟩
  | constParam =>
    have h := hf c (stacked_plain rfl rfl hs rfl (hdepths rfl rfl))
    exact ⟨h.reported.node rfl, captures_node nofun h.captures⟩
  | item =>
    have h := hf c (stacked_plain rfl rfl hs rfl (hdepths rfl rfl))
    exact ⟨h.reported.node rfl, captures_node nofun h.captures⟩
  | exprPath _ =>
    have h := hf c (stacked_plain rfl rfl hs rfl (hdepths rfl rfl))
    exact ⟨h.reported.node rfl, captures_node nofun h.captures⟩
  | other =>
    have h := hf c (stacked_plain rfl rfl hs rfl (hdepths rfl rfl))
    exact ⟨h.reported.node rfl, captures_node nofun h.captures⟩

theorem visit_visited (t : Syntax) (hs : Stacked place c) :
    Visited o (t.occurrences place) c (t.visit (visitNode o) place c) :=
  RoseTree.visit_rule Stacked (Visited o) (fun _ => visited_nil)
    Visited.append (fun hs h => h.keep hs) visitNode_visited t hs

/-! ## The stack -/

/-- A loop but for the mark that it is read. -/
def LoopMeta.unread (m : LoopMeta) : LoopMeta := { m with used := false }

theorem logCall_unread {fd : ℕ} {node : StmtMacro} (loops : List LoopMeta) :
    (logCall o fd node loops).2.map LoopMeta.unread = loops.map LoopMeta.unread := by
  cases loops with
  | nil => rfl
  | cons m loops =>
    rw [logCall]
    split
    · rfl
    · rfl

theorem popLoop_unread {at_ : LoopPlace} {x : Option String}
    (h : c'.loops.map LoopMeta.unread = (c.pushLoop at_ x place).loops.map LoopMeta.unread) :
    c'.popLoop.loops.map LoopMeta.unread = c.loops.map LoopMeta.unread := by
  rw [Collector.popLoop]
  cases hc : c'.loops with
  | nil =>
    rw [hc] at h
    exact absurd h (List.cons_ne_nil _ _).symm
  | cons m loops =>
    rw [hc] at h
    have htail := (List.cons.inj h).2
    cases hused : m.used with
    | false =>
      simp only [hused, Bool.false_eq_true, ↓reduceIte]
      exact htail
    | true =>
      simp only [hused, ↓reduceIte]
      split
      · exact htail
      · exact htail

theorem recordLocal_loops {node : Local} : (recordLocal o place c node).loops = c.loops := by
  rw [recordLocal]
  split
  · rfl
  · split
    · split <;> rfl
    · split
      · rfl
      · rfl
      · split <;> rfl

theorem recordMacro_unread {node : StmtMacro} :
    (recordMacro o place c node).loops.map LoopMeta.unread = c.loops.map LoopMeta.unread := by
  rw [recordMacro]
  split
  · rfl
  · split
    · rfl
    · split
      · rfl
      · exact logCall_unread _

/-- Whatever the state, a visit leaves the loops it found. -/
theorem visit_unread (t : Syntax) (place : Place) (c : Collector) :
    (t.visit (visitNode o) place c).loops.map LoopMeta.unread = c.loops.map LoopMeta.unread := by
  refine RoseTree.visit_rule (fun _ _ => True)
    (fun _ (c c' : Collector) => c'.loops.map LoopMeta.unread = c.loops.map LoopMeta.unread)
    (fun _ => rfl) (fun h h' => h'.trans h) (fun _ _ => trivial)
    (fun {place kind children c} f _ hf => ?_) t trivial
  have hf (c : Collector) := hf c fun _ _ => trivial
  have hconst (konst : Bool) (f : Collector → Collector)
      (hf : ∀ c, (f c).loops.map LoopMeta.unread = c.loops.map LoopMeta.unread) (c : Collector) :
      (Collector.withConst konst f c).loops.map LoopMeta.unread = c.loops.map LoopMeta.unread := by
    cases konst with
    | false => exact hf c
    | true => exact hf _
  have htest (test : Bool) (f : Collector → Collector)
      (hf : ∀ c, (f c).loops.map LoopMeta.unread = c.loops.map LoopMeta.unread) (c : Collector) :
      (Collector.withTest test f c).loops.map LoopMeta.unread = c.loops.map LoopMeta.unread := by
    cases test with
    | false => exact hf c
    | true => exact hf _
  cases kind with
  | itemFn attrs constness => exact htest _ _ (hconst _ (Collector.withLoopBarrier f) fun _ => rfl) c
  | implItemFn constness => exact hconst _ (Collector.withLoopBarrier f) (fun _ => rfl) c
  | exprClosure => rfl
  | exprAsync => rfl
  | itemConst => exact hconst true _ hf c
  | itemStatic => exact hconst true _ hf c
  | exprConst => exact hconst true _ hf c
  | itemMod attrs => exact htest _ _ hf c
  | exprForLoop at_ pat => exact popLoop_unread (hf _)
  | exprWhile at_ => exact popLoop_unread (hf _)
  | exprLoop at_ => exact popLoop_unread (hf _)
  | «local» node =>
    change (recordLocal o place (f c) node).loops.map LoopMeta.unread = _
    rw [recordLocal_loops]
    exact hf c
  | stmtMacro node => exact recordMacro_unread.trans (hf c)
  | traitItemFn _ => exact hf c
  | implItemConst => exact hf c
  | traitItemConst => exact hf c
  | exprRepeat => exact hf c
  | typeArray => exact hf c
  | variant => exact hf c
  | genericArgument => exact hf c
  | constParam => exact hf c
  | item => exact hf c
  | exprPath _ => exact hf c
  | other => exact hf c

/-! ## Loop captures -/

/-- The capture `k` is the only one of its shadow, and the loop it is in is around `i`, with
nothing between that separates. -/
def ReadsFrom (insertions : List Insertion) (i k : Insertion) (shadow : String) : Prop :=
  k.call.captured = some shadow ∧
    (∀ k' ∈ insertions, k'.call.captured = some shadow → k' = k) ∧
      ∃ frame below, frame.kind.isLoop = true ∧ i.place = k.place ++ frame :: below ∧
        frame.field = .body ∧ ∀ g ∈ below, g.kind.separates = false

structure WellScoped (o : Options) (file : Syntax) : Prop where
  markers : ∀ i ∈ (collect o file).insertions, ∀ s, i.call.reads = some s →
    ∃ k ∈ (collect o file).insertions, ReadsFrom (collect o file).insertions i k s
  captures : ∀ s, (∃ k ∈ (collect o file).insertions, k.call.captured = some s) ↔
    ∃ i ∈ (collect o file).insertions, i.call.reads = some s
  distinct : (capturedIn (collect o file).insertions).Nodup
  restored : ∀ p ∈ file.occurrences [], ∀ c,
    (p.2.visit (visitNode o) p.1 c).loops.map LoopMeta.unread = c.loops.map LoopMeta.unread

theorem capturedIn_unique {insertions : List Insertion} (h : (capturedIn insertions).Nodup)
    {k k' : Insertion} (hk : k ∈ insertions) (hk' : k' ∈ insertions) {s : String}
    (hs : k.call.captured = some s) (hs' : k'.call.captured = some s) : k' = k := by
  induction insertions with
  | nil => exact absurd hk List.not_mem_nil
  | cons i insertions ih =>
    have hnot {k : Insertion} (hk : k ∈ insertions) (hs : k.call.captured = some s)
        (hi : i.call.captured = some s) : False := by
      simp only [capturedIn, List.filterMap_cons, hi, List.nodup_cons] at h
      exact h.1 (List.mem_filterMap.mpr ⟨k, hk, hs⟩)
    have hrest : (capturedIn insertions).Nodup := by
      cases hi : i.call.captured with
      | none =>
        simp only [capturedIn, List.filterMap_cons, hi] at h
        exact h
      | some s =>
        simp only [capturedIn, List.filterMap_cons, hi, List.nodup_cons] at h
        exact h.2
    rcases List.mem_cons.mp hk with heq | hmem
    · rcases List.mem_cons.mp hk' with heq' | hmem'
      · exact heq'.trans heq.symm
      · exact (hnot hmem' hs' (heq ▸ hs)).elim
    · rcases List.mem_cons.mp hk' with heq' | hmem'
      · exact (hnot hmem hs (heq' ▸ hs')).elim
      · exact ih hrest hmem hmem'

end

/-- The captures are well scoped just when no log statement that reads a loop stands in the
loop's header or, within its body, in an item that is no barrier. -/
theorem wellScoped_iff (o : Options) (file : Syntax) :
    WellScoped o file ↔ ∀ p, Logs (file.occurrences []) p → ∀ q frame below,
      Encloses q frame p → p = q ++ frame :: below →
      ∀ t, (q, t) ∈ file.occurrences [] → (loopVariableOf t).isSome = true →
        frame.field = .body ∧ ∀ g ∈ below, g.kind.separates = false := by
  have hstart : Stacked [] Collector.new := by
    refine ⟨⟨rfl, rfl⟩, fun _ q frame => ?_, fun m ms hm => absurd hm.symm (List.cons_ne_nil m ms)⟩
    rintro ⟨-, below, heq, -⟩
    exact absurd (congrArg List.length heq) (by simp)
  obtain ⟨new, hnew, h⟩ := (visit_visited (o := o) file hstart).captures
  rw [Collector.new, List.nil_append] at hnew
  have hinsertions : (collect o file).insertions = new := hnew
  have hreaders (i : Insertion) (hi : i ∈ new) (s : String) (hs : i.call.reads = some s) :
      ∃ k ∈ new, k.call.captured = some s ∧ ∃ frame, Encloses k.place frame i.place := by
    refine (h.readers i hi s hs).2.resolve_left ?_
    rintro ⟨m, ms, hm, -⟩
    have hlength := h.length
    rw [hm] at hlength
    exact Nat.succ_ne_zero _ hlength
  constructor
  · rintro ⟨hmarkers, -, -, -⟩ p hp q frame below hencloses hsplit t hmem hsome
    obtain ⟨i, hi, rfl, hor⟩ := h.logs p hp
    have hreads : i.call.reads.isSome = true := by
      refine hor.resolve_right fun hunnamed => ?_
      rcases hunnamed q frame hencloses with ⟨t', hmem', hnone⟩ | ⟨m, ms, hm, -⟩
      · rw [file.occurrences_unique [] hmem hmem', hnone] at hsome
        exact Bool.false_ne_true hsome
      · exact absurd hm.symm (List.cons_ne_nil m ms)
    obtain ⟨s, hs⟩ := Option.isSome_iff_exists.mp hreads
    rw [hinsertions] at hmarkers
    obtain ⟨k, hk, hcaptured, -, frame', below', -, hplace, hbody, hclean⟩ := hmarkers i hi s hs
    obtain ⟨k', hk', hcaptured', frame'', hencloses'⟩ := hreaders i hi s hs
    obtain rfl := capturedIn_unique h.distinct hk hk' hcaptured hcaptured'
    obtain ⟨rfl, -⟩ := hencloses.unique hencloses'
    have heq := List.append_cancel_left (hsplit.symm.trans hplace)
    obtain ⟨rfl, rfl⟩ := List.cons.inj heq
    exact ⟨hbody, hclean⟩
  · intro hcond
    refine ⟨fun i hi s hs => ?_, fun s => ?_, ?_, fun p _ c => visit_unread p.2 p.1 c⟩
    · rw [hinsertions] at hi ⊢
      obtain ⟨k, hk, hcaptured, frame, hencloses⟩ := hreaders i hi s hs
      obtain ⟨hloop, below, hsplit, -⟩ := id hencloses
      obtain ⟨-, ⟨t, hmem, hsome⟩, -⟩ := h.captures k hk s hcaptured
      obtain ⟨hbody, hclean⟩ :=
        hcond i.place (h.readers i hi s hs).1 k.place frame below hencloses hsplit t hmem hsome
      exact ⟨k, hk, hcaptured,
        fun k' hk' hcaptured' => capturedIn_unique h.distinct hk hk' hcaptured hcaptured',
        frame, below, hloop, hsplit, hbody, hclean⟩
    · rw [hinsertions]
      constructor
      · rintro ⟨k, hk, hs⟩
        exact (h.captures k hk s hs).2.2
      · rintro ⟨i, hi, hs⟩
        obtain ⟨k, hk, hcaptured, -⟩ := hreaders i hi s hs
        exact ⟨k, hk, hcaptured⟩
    · rw [hinsertions]
      exact h.distinct

/-- `fn main() { let mut i = 0; while { println!("x"); i < 3 } { i += 1; } }`. -/
def headerLog : Syntax :=
  .node .other <| .ofList
    [(.body, .node (.itemFn [] false) <| .ofList
      [(.body, .node (.exprWhile ⟨1, 28, 60⟩) <| .ofList
        [(.part, .node .other <| .ofList
          [(.body, .node (.stmtMacro ⟨["println"], 1, 36, 49⟩) .nil),
            (.body, .node (.exprPath (some "i")) .nil)]),
          (.body, .node .other .nil)])])]

/-- The marker in the condition reads a shadow that is declared in the body. -/
theorem headerLog_unscoped : ¬ WellScoped ⟨"file:///main.rs", 1, false, []⟩ headerLog := by
  intro h
  obtain ⟨k, hk, hcaptured, -, frame, below, -, hplace, hbody, -⟩ :=
    h.markers _ List.mem_cons_self "__atomis_loop_v1" rfl
  have houter : ∀ k ∈ (collect ⟨"file:///main.rs", 1, false, []⟩ headerLog).insertions,
      k.call.captured = some "__atomis_loop_v1" →
        k.place = [⟨.other, .body, 0⟩, ⟨.itemFn [] false, .body, 0⟩] := by decide
  rw [houter k hk hcaptured] at hplace
  have hframe := (List.cons.inj (List.cons.inj (List.cons.inj hplace).2).2).1
  rw [← hframe] at hbody
  exact absurd hbody (by decide)

end Atomis.RustInstrument
