import Atomis.Lib.OneLine
import Atomis.Lib.Splice
import Atomis.RustInstrument

/-!
# What the Rust instrumenter writes

`instrument`: the calls are inserted into the text that the parser sees, the last place
first, and the entry file gets the runtime module at its end. The parser is a parameter.
-/

namespace Atomis.RustInstrument

open Atomis.SyntaxTree Atomis.Instrument

def bytes (text : String) : List UInt8 := Utf8.encode text.toList

/-- A line may be 0, and a column is counted from 0. -/
structure SyntaxError where
  message : String
  line : ℕ
  column : ℕ

abbrev Parser := List UInt8 → Except (List SyntaxError) Syntax

structure ParseDiagnostic where
  message : String
  line : ℕ
  column : ℕ

structure Output where
  generated : Option (List UInt8)
  probes : List Probe
  parseDiagnostics : List ParseDiagnostic

def SyntaxError.diagnostic (error : SyntaxError) : ParseDiagnostic :=
  ⟨error.message, max error.line 1, error.column + 1⟩

def callMarks : List String :=
  ["crate::atomis_probe!(", "crate::atomis_log!(", "crate::atomis_log_loop!("]

/-- A text that was instrumented before. -/
def marked (source : List UInt8) : Bool := callMarks.any fun mark => bytes mark <:+: source

/-- No byte inside of a character stands there. -/
def isCharBoundary (text : List UInt8) (n : ℕ) : Bool :=
  n = 0 || n = text.length || (text[n]?).any fun byte => byte < 0x80 || 0xC0 ≤ byte

/-- `insert_str`, where it would not panic. -/
def insertCall (text : List UInt8) (i : Insertion) : List UInt8 :=
  if i.byte ≤ text.length && isCharBoundary text i.byte then
    text.take i.byte ++ bytes i.call.text ++ text.drop i.byte
  else text

def suffix : String := "\n#[path = \"atomis_runtime.rs\"]\nmod __atomis_runtime;\n"

def sorted (insertions : List Insertion) : List Insertion :=
  insertions.mergeSort fun left right => right.byte ≤ left.byte

def generate (entry : Bool) (insertions : List Insertion) (source : List UInt8) : List UInt8 :=
  (sorted insertions).foldl insertCall source ++ if entry then bytes suffix else []

def instrument (parse : Parser) (o : Options) (entry : Bool) (source : List UInt8) : Output :=
  let source := Utf8.stripMark source
  if marked source then ⟨some source, [], []⟩
  else
    match parse source with
    | .error errors => ⟨none, [], errors.map SyntaxError.diagnostic⟩
    | .ok file =>
      let collector := collect o file
      ⟨some (generate entry collector.insertions source), collector.probes, []⟩

/-! ## What the parser promises -/

def Pat.Named (pat : Pat) : Prop :=
  ∀ name range, localIdent pat = .ok (some (name, range)) → OneLine name

/-- Statements and opening braces end between characters, and no line ends in a name. -/
def Kind.Fits (source : List UInt8) : Kind → Prop
  | .«local» node => isCharBoundary source node.stop = true ∧ node.pat.Named
  | .stmtMacro node => isCharBoundary source node.stop = true
  | .exprForLoop place pat => isCharBoundary source place.bodyStart = true ∧ pat.Named
  | .exprWhile place | .exprLoop place => isCharBoundary source place.bodyStart = true
  | .exprPath ident => ∀ name ∈ ident, OneLine name
  | _ => True

def Fits (source : List UInt8) (t : Syntax) : Prop := t.kind.Fits source

/-! ## What the collector keeps -/

def Call.Plain : Call → Prop
  | .probe id _ _ name => OneLine id ∧ OneLine name
  | .log .. => True
  | .logLoop _ _ _ _ _ _ loopVariable shadow => OneLine loopVariable ∧ OneLine shadow
  | .capture shadow loopVariable => OneLine shadow ∧ OneLine loopVariable

structure LoopMeta.Kept (source : List UInt8) (loop : LoopMeta) : Prop where
  start : isCharBoundary source loop.bodyStart = true
  loopVariable : ∀ name ∈ loop.loopVariable, OneLine name
  shadow : OneLine loop.shadow

structure Collector.Kept (source : List UInt8) (c : Collector) : Prop where
  places : ∀ i ∈ c.insertions, isCharBoundary source i.byte = true
  calls : ∀ i ∈ c.insertions, i.call.Plain
  loops : ∀ loop ∈ c.loops, loop.Kept source
  announced : ∀ probe ∈ c.probes, ∀ n, probe.insertionByte = some n →
    ∃ i ∈ c.insertions, i.byte = n ∧
      i.call = .probe probe.probeId probe.range.startLine probe.range.startColumn probe.name

section
variable {source : List UInt8} {c : Collector} {o : Options} {place : Place}

theorem Collector.Kept.withLoops (h : c.Kept source) {loops : List LoopMeta}
    (hloops : ∀ loop ∈ loops, loop.Kept source) :
    ({ c with loops := loops } : Collector).Kept source :=
  ⟨h.places, h.calls, hloops, h.announced⟩

theorem Collector.Kept.insert (h : c.Kept source) {byte : ℕ} {call : Call}
    (hbyte : isCharBoundary source byte = true) (hcall : call.Plain) :
    ({ c with insertions := c.insertions ++ [⟨byte, call, place⟩] } : Collector).Kept source where
  places := by
    intro i hi
    rcases List.mem_append.mp hi with hi | hi
    · exact h.places i hi
    · rw [List.mem_singleton.mp hi]
      exact hbyte
  calls := by
    intro i hi
    rcases List.mem_append.mp hi with hi | hi
    · exact h.calls i hi
    · rw [List.mem_singleton.mp hi]
      exact hcall
  loops := h.loops
  announced := by
    intro probe hprobe n hn
    obtain ⟨i, hi, hannounced⟩ := h.announced probe hprobe n hn
    exact ⟨i, List.mem_append_left _ hi, hannounced⟩

/-- A probe that is not active. -/
theorem Collector.Kept.report (h : c.Kept source) {probe : Probe}
    (hprobe : probe.insertionByte = none) :
    ({ c with probes := c.probes ++ [probe] } : Collector).Kept source where
  places := h.places
  calls := h.calls
  loops := h.loops
  announced := by
    intro other hother n hn
    rcases List.mem_append.mp hother with hother | hother
    · exact h.announced other hother n hn
    · rw [List.mem_singleton.mp hother, hprobe] at hn
      cases hn

/-- The field `loops` may be what it was, or another that was there before. -/
theorem Collector.Kept.withTest {visit : Collector → Collector}
    (hvisit : ∀ c : Collector, c.Kept source → (visit c).Kept source) (test : Bool)
    (h : c.Kept source) : (Collector.withTest test visit c).Kept source := by
  simp only [Collector.withTest]
  split_ifs
  · have hinner := hvisit { c with testDepth := c.testDepth + 1 }
      ⟨h.places, h.calls, h.loops, h.announced⟩
    exact ⟨hinner.places, hinner.calls, hinner.loops, hinner.announced⟩
  · exact hvisit c h

theorem Collector.Kept.withConst {visit : Collector → Collector}
    (hvisit : ∀ c : Collector, c.Kept source → (visit c).Kept source) (konst : Bool)
    (h : c.Kept source) : (Collector.withConst konst visit c).Kept source := by
  simp only [Collector.withConst]
  split_ifs
  · have hinner := hvisit { c with constDepth := c.constDepth + 1 }
      ⟨h.places, h.calls, h.loops, h.announced⟩
    exact ⟨hinner.places, hinner.calls, hinner.loops, hinner.announced⟩
  · exact hvisit c h

theorem Collector.Kept.withLoopBarrier {visit : Collector → Collector}
    (hvisit : ∀ c : Collector, c.Kept source → (visit c).Kept source) (h : c.Kept source) :
    (Collector.withLoopBarrier visit c).Kept source :=
  (hvisit _ (h.withLoops fun _ hloop => absurd hloop List.not_mem_nil)).withLoops h.loops

theorem Collector.Kept.pushLoop (h : c.Kept source) {at_ : LoopPlace}
    (hat : isCharBoundary source at_.bodyStart = true) {loopVariable : Option String}
    (hvariable : ∀ name ∈ loopVariable, OneLine name) :
    (c.pushLoop at_ loopVariable place).Kept source := by
  have hloop : (⟨at_.line, at_.column, loopVariable, shadowName (c.loopCounter + 1),
      at_.bodyStart, false, place⟩ : LoopMeta).Kept source :=
    ⟨hat, hvariable, (show OneLine "__atomis_loop_v" by decide).append (OneLine.decimal _)⟩
  exact ⟨h.places, h.calls, List.forall_mem_cons.mpr ⟨hloop, h.loops⟩, h.announced⟩

theorem Collector.Kept.popLoop (h : c.Kept source) : c.popLoop.Kept source := by
  cases hloops : c.loops with
  | nil =>
    rw [Collector.popLoop, hloops]
    exact h
  | cons loop loops =>
    have hkept := h.loops
    rw [hloops] at hkept
    obtain ⟨hloop, hrest⟩ := List.forall_mem_cons.mp hkept
    rw [Collector.popLoop, hloops]
    dsimp only
    split_ifs
    · cases hvariable : loop.loopVariable with
      | none => exact h.withLoops hrest
      | some name =>
        have hcall : (Call.capture loop.shadow name).Plain :=
          ⟨hloop.shadow, hloop.loopVariable name hvariable⟩
        exact (h.withLoops hrest).insert hloop.start hcall
    · exact h.withLoops hrest

theorem Collector.Kept.probe (h : c.Kept source) (active : Bool) {byte : ℕ}
    (hbyte : isCharBoundary source byte = true) {id name : String} (hid : OneLine id)
    (hname : OneLine name) (range : Range) (mode : Mode) :
    ({ c with
      insertions := if active then
          c.insertions ++ [⟨byte, .probe id range.startLine range.startColumn name, place⟩]
        else c.insertions
      probes := c.probes ++ [⟨id, name, true, none, range, if active then some byte else none,
        mode⟩] } : Collector).Kept source := by
  cases active with
  | false => exact h.report rfl
  | true =>
    have hcall : (Call.probe id range.startLine range.startColumn name).Plain := ⟨hid, hname⟩
    have hinsert : ({ c with insertions := c.insertions ++
        [⟨byte, .probe id range.startLine range.startColumn name, place⟩] } : Collector).Kept
        source := h.insert hbyte hcall
    refine ⟨hinsert.places, hinsert.calls, hinsert.loops, fun other hother n hn => ?_⟩
    rcases List.mem_append.mp hother with hother | hother
    · exact hinsert.announced other hother n hn
    · rw [List.mem_singleton.mp hother] at hn ⊢
      exact ⟨_, List.mem_append_right _ (List.mem_singleton_self _), Option.some.inj hn, rfl⟩

theorem Collector.Kept.recordLocal (h : c.Kept source) {node : Local}
    (hstop : isCharBoundary source node.stop = true) (hnamed : node.pat.Named) :
    (recordLocal o place c node).Kept source := by
  by_cases htest : 0 < c.testDepth
  · rw [RustInstrument.recordLocal, if_pos htest]
    exact h
  · by_cases hconst : 0 < c.constDepth
    · rw [RustInstrument.recordLocal, if_neg htest, if_pos hconst]
      split
      next => exact h.report rfl
      next => exact h
    · rw [RustInstrument.recordLocal, if_neg htest, if_neg hconst]
      split
      next => exact h
      next => exact h.report rfl
      next name range hident =>
        by_cases hinit : (!node.init) = true
        · rw [if_pos hinit]
          exact h.report rfl
        · rw [if_neg hinit]
          exact h.probe _ hstop (oneLine_probeId _ _ _ _) (hnamed name range hident) range _

theorem Collector.Kept.recordMacro (h : c.Kept source) {node : StmtMacro}
    (hstop : isCharBoundary source node.stop = true) :
    (recordMacro o place c node).Kept source := by
  simp only [RustInstrument.recordMacro]
  split_ifs with hdepth
  · exact h
  · split
    next => exact h
    next name _ =>
      split_ifs
      · exact h
      all_goals
        generalize hcall : logCall o _ node c.loops = result
        cases hloops : c.loops with
        | nil =>
          rw [hloops] at hcall
          rw [← hcall]
          exact (h.withLoops (fun _ hloop => absurd hloop List.not_mem_nil)).insert hstop trivial
        | cons loop loops =>
          have hkept := h.loops
          rw [hloops] at hkept hcall
          obtain ⟨hloop, hrest⟩ := List.forall_mem_cons.mp hkept
          simp only [logCall] at hcall
          split at hcall
          next variable' hvariable =>
            rw [← hcall]
            have hused : ({ loop with used := true } : LoopMeta).Kept source :=
              ⟨hloop.start, hloop.loopVariable, hloop.shadow⟩
            exact (h.withLoops (List.forall_mem_cons.mpr ⟨hused, hrest⟩)).insert hstop
              ⟨hloop.loopVariable variable' hvariable, hloop.shadow⟩
          next =>
            rw [← hcall]
            exact (h.withLoops (List.forall_mem_cons.mpr ⟨hloop, hrest⟩)).insert hstop trivial

end

end Atomis.RustInstrument
