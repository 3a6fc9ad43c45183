import Atomis.RustInstrument

/-!
# Rust const contexts

What the collector inserts, and the places Rust evaluates at compile time.
-/

namespace Atomis.RustInstrument

open Atomis.SyntaxTree Atomis.Instrument

/-- What Rust evaluates at compile time: the body of a `const fn`, and the values of constants and
statics, `const` blocks, array lengths, discriminants, and const generic arguments and defaults. -/
def evaluated : Kind → Field → Bool
  | .itemFn _ constness, .body | .implItemFn constness, .body
  | .traitItemFn constness, .body => constness
  | .itemConst, .body | .itemStatic, .body | .implItemConst, .body | .traitItemConst, .body
  | .exprConst, .body | .exprRepeat, .body | .typeArray, .body | .variant, .body
  | .genericArgument, .body | .constParam, .body => true
  | _, _ => false

def InConst (place : Place) : Prop := ∃ frame ∈ place, evaluated frame.kind frame.field = true

instance : DecidablePred InConst := fun place =>
  inferInstanceAs (Decidable (∃ frame ∈ place, _))

/-- The kinds the collector counts as const contexts. -/
def countsConst : Kind → Bool
  | .itemFn _ constness | .implItemFn constness => constness
  | .itemConst | .itemStatic | .exprConst => true
  | _ => false

def countsTest : Kind → Bool
  | .itemFn attrs _ | .itemMod attrs => isTestAttr attrs
  | _ => false

/-- A place where the collector inserts nothing. -/
def LeftAlone (place : Place) : Prop :=
  ∃ frame ∈ place, (countsConst frame.kind || countsTest frame.kind) = true

instance : DecidablePred LeftAlone := fun place =>
  inferInstanceAs (Decidable (∃ frame ∈ place, _))

def isLog (node : StmtMacro) : Bool := node.path.getLast?.any logMacros.contains

def isProbed (o : Options) (node : Local) : Bool :=
  match localIdent node.pat with
  | .ok (some (name, range)) => node.init && o.active (probeId "rustlive-v1" o.uri range name)
  | _ => false

/-- A `let` that is probed, or a log statement. -/
def reports (o : Options) : Kind → Bool
  | .«local» node => isProbed o node
  | .stmtMacro node => isLog node
  | _ => false

/-! ## Depths -/

def constDepthAt (place : Place) : ℕ := place.countP fun frame => countsConst frame.kind

def testDepthAt (place : Place) : ℕ := place.countP fun frame => countsTest frame.kind

/-- The depths are those of the place. -/
structure Depths (place : Place) (c : Collector) : Prop where
  const : c.constDepth = constDepthAt place
  test : c.testDepth = testDepthAt place

section
variable {o : Options} {place : Place} {kind : Kind} {field : Field} {index : ℕ}
  {c c' c'' : Collector} {children : Forest Kind Field} {l l' : List (Place × Syntax)}

theorem constDepthAt_append : constDepthAt (place ++ [⟨kind, field, index⟩]) =
    constDepthAt place + if countsConst kind then 1 else 0 := by
  rw [constDepthAt, List.countP_append, List.countP_singleton, constDepthAt]

theorem testDepthAt_append : testDepthAt (place ++ [⟨kind, field, index⟩]) =
    testDepthAt place + if countsTest kind then 1 else 0 := by
  rw [testDepthAt, List.countP_append, List.countP_singleton, testDepthAt]

theorem Depths.leftAlone_iff (h : Depths place c) :
    LeftAlone place ↔ 0 < c.testDepth ∨ 0 < c.constDepth := by
  rw [h.const, h.test, testDepthAt, constDepthAt, List.countP_pos_iff, List.countP_pos_iff]
  constructor
  · rintro ⟨frame, hmem, h⟩
    rcases Bool.or_eq_true_iff.mp h with h | h
    · exact Or.inr ⟨frame, hmem, h⟩
    · exact Or.inl ⟨frame, hmem, h⟩
  · rintro (⟨frame, hmem, h⟩ | ⟨frame, hmem, h⟩)
    · exact ⟨frame, hmem, by rw [h, Bool.or_true]⟩
    · exact ⟨frame, hmem, by rw [h, Bool.true_or]⟩

/-! ## What a visit inserts -/

def LoopMeta.SameBut (used : Prop) (m m' : LoopMeta) : Prop :=
  m' = { m with used := m'.used } ∧ (m.used = true → m'.used = true) ∧
    (m'.used = true → m.used = true ∨ used)

/-- A node of `l` that is reported where the collector inserts. -/
def Reports (o : Options) (l : List (Place × Syntax)) (p : Place) : Prop :=
  ∃ t, (p, t) ∈ l ∧ reports o t.kind = true ∧ ¬ LeftAlone p

structure Reported (o : Options) (l : List (Place × Syntax)) (c c' : Collector) : Prop where
  const : c'.constDepth = c.constDepth
  test : c'.testDepth = c.testDepth
  loops : List.Forall₂ (LoopMeta.SameBut (∃ p, Reports o l p)) c.loops c'.loops
  insertions : ∃ new, c'.insertions = c.insertions ++ new ∧
    (∀ i ∈ new, ∃ p, Reports o l p ∧ i.place <+: p) ∧
    ∀ p, Reports o l p → ∃ i ∈ new, i.place = p

theorem Reports.left {p : Place} (h : Reports o l p) : Reports o (l ++ l') p := by
  obtain ⟨t, hmem, h⟩ := h
  exact ⟨t, List.mem_append_left _ hmem, h⟩

theorem Reports.right {p : Place} (h : Reports o l' p) : Reports o (l ++ l') p := by
  obtain ⟨t, hmem, h⟩ := h
  exact ⟨t, List.mem_append_right _ hmem, h⟩

theorem LoopMeta.sameBut_rfl {used : Prop} (m : LoopMeta) : m.SameBut used m :=
  ⟨rfl, id, Or.inl⟩

theorem LoopMeta.SameBut.trans {used used' used'' : Prop} {m m' m'' : LoopMeta}
    (h : m.SameBut used m') (h' : m'.SameBut used' m'') (hl : used → used'') (hr : used' → used'') :
    m.SameBut used'' m'' := by
  refine ⟨by rw [h'.1, h.1], fun hused => h'.2.1 (h.2.1 hused), fun hused => ?_⟩
  rcases h'.2.2 hused with hused | hused
  · exact (h.2.2 hused).imp_right hl
  · exact Or.inr (hr hused)

theorem sameBut_loops_rfl {used : Prop} (loops : List LoopMeta) :
    List.Forall₂ (LoopMeta.SameBut used) loops loops := by
  induction loops with
  | nil => exact .nil
  | cons m loops ih => exact .cons m.sameBut_rfl ih

theorem sameBut_loops_trans {used used' used'' : Prop} {loops loops' loops'' : List LoopMeta}
    (h : List.Forall₂ (LoopMeta.SameBut used) loops loops')
    (h' : List.Forall₂ (LoopMeta.SameBut used') loops' loops'')
    (hl : used → used'') (hr : used' → used'') :
    List.Forall₂ (LoopMeta.SameBut used'') loops loops'' := by
  induction h generalizing loops'' with
  | nil => cases h'; exact .nil
  | cons hm _ ih =>
    cases h' with
    | cons hm' h' => exact .cons (hm.trans hm' hl hr) (ih h')

theorem reported_rfl (h : ∀ p, ¬ Reports o l p) : Reported o l c c where
  const := rfl
  test := rfl
  loops := sameBut_loops_rfl _
  insertions := ⟨[], (List.append_nil _).symm, by simp, fun p hp => absurd hp (h p)⟩

theorem not_reports_nil (p : Place) : ¬ Reports o [] p := by
  rintro ⟨t, hmem, -⟩
  exact absurd hmem List.not_mem_nil

theorem reports_singleton {t : Syntax} {p : Place} :
    Reports o [(place, t)] p ↔ p = place ∧ reports o t.kind = true ∧ ¬ LeftAlone place := by
  constructor
  · rintro ⟨u, hmem, h⟩
    obtain ⟨rfl, rfl⟩ := Prod.mk.inj (List.mem_singleton.mp hmem)
    exact ⟨rfl, h⟩
  · rintro ⟨rfl, h⟩
    exact ⟨t, List.mem_singleton_self _, h⟩

theorem Reported.append (h : Reported o l c c') (h' : Reported o l' c' c'') :
    Reported o (l ++ l') c c'' where
  const := h'.const.trans h.const
  test := h'.test.trans h.test
  loops := sameBut_loops_trans h.loops h'.loops (fun ⟨p, hp⟩ => ⟨p, hp.left⟩)
    fun ⟨p, hp⟩ => ⟨p, hp.right⟩
  insertions := by
    obtain ⟨new, heq, hsound, hall⟩ := h.insertions
    obtain ⟨new', heq', hsound', hall'⟩ := h'.insertions
    refine ⟨new ++ new', by rw [heq', heq, List.append_assoc], fun i hi => ?_, ?_⟩
    · rcases List.mem_append.mp hi with hi | hi
      · obtain ⟨p, hp, hpre⟩ := hsound i hi
        exact ⟨p, hp.left, hpre⟩
      · obtain ⟨p, hp, hpre⟩ := hsound' i hi
        exact ⟨p, hp.right, hpre⟩
    · rintro p ⟨t, hmem, hp⟩
      rcases List.mem_append.mp hmem with hmem | hmem
      · obtain ⟨i, hi, hplace⟩ := hall p ⟨t, hmem, hp⟩
        exact ⟨i, List.mem_append_left _ hi, hplace⟩
      · obtain ⟨i, hi, hplace⟩ := hall' p ⟨t, hmem, hp⟩
        exact ⟨i, List.mem_append_right _ hi, hplace⟩

theorem Reports.swap {x : Place × Syntax} {p : Place} :
    Reports o (l ++ [x]) p ↔ Reports o (x :: l) p :=
  exists_congr fun t => and_congr_left fun _ => by
    rw [List.mem_append, List.mem_singleton, List.mem_cons, or_comm]

theorem Reported.swap {x : Place × Syntax} (h : Reported o (l ++ [x]) c c') :
    Reported o (x :: l) c c' := by
  obtain ⟨hconst, htest, hloops, hnew⟩ := h
  simp only [Reports.swap] at hloops hnew
  exact ⟨hconst, htest, hloops, hnew⟩

theorem Reported.keep (h : Reported o l c c') (hd : Depths place c) : Depths place c' :=
  ⟨h.const.trans hd.const, h.test.trans hd.test⟩

theorem Reported.node {t : Syntax} (h : Reported o l c c') (ht : reports o t.kind = false) :
    Reported o ((place, t) :: l) c c' := by
  refine (reported_rfl fun p hp => ?_ : Reported o [(place, t)] c c).append h
  rw [reports_singleton, ht] at hp
  exact absurd hp.2.1 Bool.false_ne_true

/-! ## The methods -/

variable {f : Collector → Collector}

theorem withConst_reported {konst : Bool}
    (h : Reported o l { c with constDepth := c.constDepth + if konst then 1 else 0 }
      (f { c with constDepth := c.constDepth + if konst then 1 else 0 })) :
    Reported o l c (Collector.withConst konst f c) := by
  cases konst with
  | false => exact h
  | true =>
    refine ⟨?_, h.test, h.loops, h.insertions⟩
    have hconst : (f { c with constDepth := c.constDepth + 1 }).constDepth = c.constDepth + 1 :=
      h.const
    change (f { c with constDepth := c.constDepth + 1 }).constDepth - 1 = c.constDepth
    omega

theorem withTest_reported {test : Bool}
    (h : Reported o l { c with testDepth := c.testDepth + if test then 1 else 0 }
      (f { c with testDepth := c.testDepth + if test then 1 else 0 })) :
    Reported o l c (Collector.withTest test f c) := by
  cases test with
  | false => exact h
  | true =>
    refine ⟨h.const, ?_, h.loops, h.insertions⟩
    have htest : (f { c with testDepth := c.testDepth + 1 }).testDepth = c.testDepth + 1 := h.test
    change (f { c with testDepth := c.testDepth + 1 }).testDepth - 1 = c.testDepth
    omega

theorem withLoopBarrier_reported
    (h : Reported o l { c with loops := [] } (f { c with loops := [] })) :
    Reported o l c (Collector.withLoopBarrier f c) :=
  ⟨h.const, h.test, sameBut_loops_rfl _, h.insertions⟩

/-- A capture is inserted only where a log statement has marked the loop. -/
theorem popLoop_reported {at_ : LoopPlace} {loopVariable : Option String}
    (hbelow : ∀ p ∈ l, place <+: p.1)
    (h : Reported o l (c.pushLoop at_ loopVariable place) c') : Reported o l c c'.popLoop := by
  obtain ⟨hconst, htest, hloops, new, hnew, hsound, hall⟩ := h
  rw [Collector.pushLoop] at hloops
  cases hc : c'.loops with
  | nil => rw [hc] at hloops; cases hloops
  | cons m loops =>
    rw [hc] at hloops
    cases hloops with
    | cons hm hrest =>
      rw [Collector.popLoop, hc]
      by_cases hused : m.used = true
      · cases hvariable : m.loopVariable with
        | none =>
          simp only [hused, if_true, hvariable]
          exact ⟨hconst, htest, hrest, new, hnew, hsound, hall⟩
        | some loopVariable =>
          simp only [hused, if_true, hvariable]
          refine ⟨hconst, htest, hrest,
            new ++ [⟨m.bodyStart, .capture m.shadow loopVariable, m.place⟩],
            (congrArg (· ++ _) hnew).trans (List.append_assoc _ _ _), fun i hi => ?_, fun p hp => ?_⟩
          · rcases List.mem_append.mp hi with hi | hi
            · exact hsound i hi
            · rw [List.mem_singleton.mp hi]
              obtain ⟨p, hp⟩ := (hm.2.2 hused).resolve_left Bool.false_ne_true
              obtain ⟨t, hmem, -⟩ := id hp
              refine ⟨p, hp, ?_⟩
              rw [show m.place = place by rw [hm.1]]
              exact hbelow _ hmem
          · obtain ⟨i, hi, hplace⟩ := hall p hp
            exact ⟨i, List.mem_append_left _ hi, hplace⟩
      · simp only [hused, if_false, Bool.false_eq_true]
        exact ⟨hconst, htest, hrest, new, hnew, hsound, hall⟩

theorem recordLocal_reported {node : Local} {children : Forest Kind Field}
    (hd : Depths place c) :
    Reported o [(place, .node (.«local» node) children)] c (recordLocal o place c node) := by
  have hidle (probes : List Probe) (hnot : isProbed o node = false ∨ LeftAlone place) :
      Reported o [(place, .node (.«local» node) children)] c { c with probes := probes } := by
    have hnone (p : Place) : ¬ Reports o [(place, .node (.«local» node) children)] p := by
      rw [reports_singleton]
      rintro ⟨-, hprobed, hopen⟩
      rcases hnot with hnot | hnot
      · rw [RoseTree.kind, reports, hnot] at hprobed
        exact Bool.false_ne_true hprobed
      · exact hopen hnot
    obtain ⟨hconst, htest, hloops, hnew⟩ := reported_rfl (c := c) hnone
    exact ⟨hconst, htest, hloops, hnew⟩
  rw [recordLocal]
  by_cases htest : 0 < c.testDepth
  · rw [if_pos htest]
    exact hidle _ (Or.inr (hd.leftAlone_iff.mpr (Or.inl htest)))
  · rw [if_neg htest]
    by_cases hconst : 0 < c.constDepth
    · rw [if_pos hconst]
      have hleft := Or.inr (a := isProbed o node = false) (hd.leftAlone_iff.mpr (Or.inr hconst))
      split
      · exact hidle _ hleft
      · exact hidle _ hleft
    · rw [if_neg hconst]
      have hopen : ¬ LeftAlone place := fun h =>
        (hd.leftAlone_iff.mp h).elim htest hconst
      split
      next hpat => exact hidle _ (Or.inl (by rw [isProbed, hpat]))
      next reason hpat => exact hidle _ (Or.inl (by rw [isProbed, hpat]))
      next name range hpat =>
        cases hinit : node.init with
        | false => exact hidle _ (Or.inl (by rw [isProbed, hpat, hinit]; rfl))
        | true =>
          cases hactive : o.active (probeId "rustlive-v1" o.uri range name) with
          | false =>
            simp only [Bool.not_true, hactive, Bool.false_eq_true, ↓reduceIte]
            exact hidle _ (Or.inl (by simp only [isProbed, hpat, hinit, hactive, Bool.and_false]))
          | true =>
            simp only [Bool.not_true, hactive, Bool.false_eq_true, ↓reduceIte]
            have hreports : Reports o [(place, .node (.«local» node) children)] place := by
              rw [reports_singleton]
              exact ⟨rfl, by simp only [RoseTree.kind, reports, isProbed, hpat, hinit, hactive,
                Bool.and_self], hopen⟩
            refine ⟨rfl, rfl, sameBut_loops_rfl _, [_], rfl, fun i hi => ?_, fun p hp => ?_⟩
            · rw [List.mem_singleton.mp hi]
              exact ⟨place, hreports, List.prefix_rfl⟩
            · exact ⟨_, List.mem_singleton_self _, (reports_singleton.mp hp).1.symm⟩

theorem logCall_sameBut {fd : ℕ} {node : StmtMacro} {used : Prop} (h : used)
    (loops : List LoopMeta) :
    List.Forall₂ (LoopMeta.SameBut used) loops (logCall o fd node loops).2 := by
  cases loops with
  | nil => exact .nil
  | cons m loops =>
    rw [logCall]
    split
    · exact .cons ⟨rfl, fun _ => rfl, fun _ => Or.inr h⟩ (sameBut_loops_rfl loops)
    · exact sameBut_loops_rfl _

theorem recordMacro_reported {node : StmtMacro} {children : Forest Kind Field}
    (hd : Depths place c) :
    Reported o [(place, .node (.stmtMacro node) children)] c (recordMacro o place c node) := by
  rw [recordMacro]
  by_cases hleft : LeftAlone place
  · have hdepth : (decide (0 < c.testDepth) || decide (0 < c.constDepth)) = true := by
      simpa using hd.leftAlone_iff.mp hleft
    rw [if_pos hdepth]
    exact reported_rfl fun p hp => (reports_singleton.mp hp).2.2 hleft
  · have hdepth : ¬ (decide (0 < c.testDepth) || decide (0 < c.constDepth)) = true := by
      simpa using fun h => hleft (hd.leftAlone_iff.mpr h)
    rw [if_neg hdepth]
    have hidle (hlog : isLog node = false) :
        Reported o [(place, .node (.stmtMacro node) children)] c c := by
      refine reported_rfl fun p hp => ?_
      have := (reports_singleton.mp hp).2.1
      rw [RoseTree.kind, reports, hlog] at this
      exact Bool.false_ne_true this
    split
    next hlast => exact hidle (by rw [isLog, hlast]; rfl)
    next name hlast =>
      cases hname : logMacros.contains name with
      | false => exact hidle (by rw [isLog, hlast]; exact hname)
      | true =>
        simp only [Bool.not_true, Bool.false_eq_true, if_false]
        have hreports : Reports o [(place, .node (.stmtMacro node) children)] place := by
          rw [reports_singleton]
          exact ⟨rfl, by rw [RoseTree.kind, reports, isLog, hlast]; exact hname, hleft⟩
        refine ⟨rfl, rfl, logCall_sameBut ⟨place, hreports⟩ _, [_], rfl, fun i hi => ?_,
          fun p hp => ?_⟩
        · rw [List.mem_singleton.mp hi]
          exact ⟨place, hreports, List.prefix_rfl⟩
        · exact ⟨_, List.mem_singleton_self _, (reports_singleton.mp hp).1.symm⟩

/-- One case for each method; the depths grow where a method counts. -/
theorem visitNode_reported (f : Collector → Collector) (hd : Depths place c)
    (hf : ∀ c, (∀ field index, Depths (place ++ [⟨kind, field, index⟩]) c) →
      Reported o (children.occurrences place kind 0) c (f c)) :
    Reported o ((place, .node kind children) :: children.occurrences place kind 0) c
      (visitNode o place kind children f c) := by
  have hbelow : ∀ p ∈ children.occurrences place kind 0, place <+: p.1 := by
    intro p hp
    obtain ⟨frame, below, -, -, hbelow⟩ := Forest.occurrences_below _ _ _ _ hp
    exact ⟨frame :: below, hbelow.symm⟩
  have hdepths {c' : Collector}
      (hconst : c'.constDepth = c.constDepth + if countsConst kind then 1 else 0)
      (htest : c'.testDepth = c.testDepth + if countsTest kind then 1 else 0)
      (field : Field) (index : ℕ) : Depths (place ++ [⟨kind, field, index⟩]) c' :=
    ⟨by rw [hconst, hd.const, constDepthAt_append], by rw [htest, hd.test, testDepthAt_append]⟩
  cases kind with
  | itemFn attrs constness =>
    exact (withTest_reported (withConst_reported (withLoopBarrier_reported
      (hf _ (hdepths rfl rfl))))).node rfl
  | implItemFn constness =>
    exact (withConst_reported (withLoopBarrier_reported (hf _ (hdepths rfl rfl)))).node rfl
  | itemConst => exact (withConst_reported (hf _ (hdepths rfl rfl))).node rfl
  | itemStatic => exact (withConst_reported (hf _ (hdepths rfl rfl))).node rfl
  | exprConst => exact (withConst_reported (hf _ (hdepths rfl rfl))).node rfl
  | exprClosure => exact (withLoopBarrier_reported (hf _ (hdepths rfl rfl))).node rfl
  | exprAsync => exact (withLoopBarrier_reported (hf _ (hdepths rfl rfl))).node rfl
  | itemMod attrs => exact (withTest_reported (hf _ (hdepths rfl rfl))).node rfl
  | exprForLoop at_ pat => exact (popLoop_reported hbelow (hf _ (hdepths rfl rfl))).node rfl
  | exprWhile at_ => exact (popLoop_reported hbelow (hf _ (hdepths rfl rfl))).node rfl
  | exprLoop at_ => exact (popLoop_reported hbelow (hf _ (hdepths rfl rfl))).node rfl
  | «local» node =>
    have h := hf c (hdepths rfl rfl)
    exact (h.append (recordLocal_reported (h.keep hd))).swap
  | stmtMacro node =>
    have h := hf c (hdepths rfl rfl)
    exact (h.append (recordMacro_reported (h.keep hd))).swap
  | traitItemFn _ => exact (hf c (hdepths rfl rfl)).node rfl
  | implItemConst => exact (hf c (hdepths rfl rfl)).node rfl
  | traitItemConst => exact (hf c (hdepths rfl rfl)).node rfl
  | exprRepeat => exact (hf c (hdepths rfl rfl)).node rfl
  | typeArray => exact (hf c (hdepths rfl rfl)).node rfl
  | variant => exact (hf c (hdepths rfl rfl)).node rfl
  | genericArgument => exact (hf c (hdepths rfl rfl)).node rfl
  | constParam => exact (hf c (hdepths rfl rfl)).node rfl
  | item => exact (hf c (hdepths rfl rfl)).node rfl
  | exprPath _ => exact (hf c (hdepths rfl rfl)).node rfl
  | other => exact (hf c (hdepths rfl rfl)).node rfl

theorem visit_reported (t : Syntax) (hd : Depths place c) :
    Reported o (t.occurrences place) c (t.visit (visitNode o) place c) :=
  RoseTree.visit_rule Depths (Reported o) (fun _ => reported_rfl not_reports_nil)
    Reported.append (fun hd h => h.keep hd) visitNode_reported t hd

end

/-! ## Const contexts -/

/-- Nothing is inserted where Rust evaluates at compile time, and the depths are back at zero. -/
structure RespectsConst (c : Collector) : Prop where
  outside : ∀ i ∈ c.insertions, ¬ InConst i.place
  const : c.constDepth = 0
  test : c.testDepth = 0

theorem InConst.mono {p q : Place} (h : InConst p) (hpq : p <+: q) : InConst q := by
  obtain ⟨frame, hmem, heval⟩ := h
  exact ⟨frame, hpq.subset hmem, heval⟩

/-- The collector respects const contexts just when every `let` it would probe and every log
statement in one of them is also in one of those it counts, or in a test. -/
theorem respectsConst_iff (o : Options) (file : Syntax) :
    RespectsConst (collect o file) ↔
      ∀ p ∈ file.occurrences [], reports o p.2.kind = true → InConst p.1 → LeftAlone p.1 := by
  have h : Reported o (file.occurrences []) .new (file.visit (visitNode o) [] .new) :=
    visit_reported file ⟨rfl, rfl⟩
  obtain ⟨new, hnew, hsound, hall⟩ := h.insertions
  rw [Collector.new, List.nil_append] at hnew
  constructor
  · rintro ⟨houtside, -, -⟩ ⟨p, t⟩ hmem hreports hconst
    by_contra hleft
    obtain ⟨i, hi, rfl⟩ := hall p ⟨t, hmem, hreports, hleft⟩
    exact houtside i (hnew ▸ hi) hconst
  · intro hcond
    refine ⟨fun i hi hconst => ?_, h.const, h.test⟩
    obtain ⟨p, ⟨t, hmem, hreports, hleft⟩, hpre⟩ := hsound i (hnew ▸ hi)
    exact hleft (hcond (p, t) hmem hreports (hconst.mono hpre))

def traitConst : Syntax :=
  .node .other <| .ofList
    [(.body, .node .item <| .ofList
      [(.body, .node .traitItemConst <| .ofList
        [(.body, .node .other <| .ofList
          [(.body, .node (.«local» ⟨.ident "x" ⟨1, 34, 1, 35, 33, 34⟩ false,
            ⟨1, 34, 1, 35, 33, 34⟩, true, 39⟩) .nil)])])])]

/-- `trait T { const N: usize = { let x = 3; x }; }`: `x` is probed. -/
theorem traitConst_probed :
    ¬ RespectsConst (collect ⟨"file:///main.rs", 1, true, []⟩ traitConst) := by
  intro h
  have hprobe : ∃ i ∈ (collect ⟨"file:///main.rs", 1, true, []⟩ traitConst).insertions,
      InConst i.place := by decide
  obtain ⟨i, hi, hconst⟩ := hprobe
  exact h.outside i hi hconst

end Atomis.RustInstrument
