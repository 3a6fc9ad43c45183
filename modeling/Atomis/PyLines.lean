import Atomis.Lib.Splice
import Atomis.PyGenerate
import Mathlib.Data.List.Sort

/-!
# Insertions into lines

What is inserted into a line at a column is inserted into the text at the line's start plus
the column, as long as the places behind come first.
-/

namespace Atomis.PyInstrument

open Atomis.Instrument

variable {source text : List UInt8} {lines lines' : List (List UInt8)} {place place' : Position}
  {insertion : Insertion} {insertions : List Insertion} {index : ℕ}

/-! ## Lines -/

/-- Where a line starts in the text of all lines. -/
def startOf : List (List UInt8) → ℕ → ℕ
  | [], _ | _, 0 => 0
  | line :: rest, index + 1 => line.length + 1 + startOf rest index

theorem encodedLines_ne_nil (source : List UInt8) : encodedLines source ≠ [] := by
  simp [encodedLines]

theorem encodedLines_newline (rest : List UInt8) :
    encodedLines (10 :: rest) = [] :: encodedLines rest := rfl

theorem encodedLines_cons {byte : UInt8} (hbyte : byte ≠ 10) (rest : List UInt8) :
    ∃ first tail, encodedLines rest = first :: tail ∧
      encodedLines (byte :: rest) = (byte :: first) :: tail := by
  obtain ⟨first, tail, hrest⟩ := List.exists_cons_of_ne_nil (encodedLines_ne_nil rest)
  refine ⟨first, tail, hrest, ?_⟩
  rw [encodedLines, Lines.split, if_neg hbyte]
  exact Lines.split_line [byte] rest hrest

theorem joined_cons (line : List UInt8) (h : lines ≠ []) :
    [10].intercalate (line :: lines) = line ++ 10 :: [10].intercalate lines := by
  obtain ⟨first, rest, rfl⟩ := List.exists_cons_of_ne_nil h
  simp [List.intercalate_cons_cons]

theorem joined_encodedLines (source : List UInt8) :
    [10].intercalate (encodedLines source) = source := by
  induction source with
  | nil => rfl
  | cons byte rest ih =>
    by_cases hbyte : byte = 10
    · rw [hbyte, encodedLines_newline, joined_cons [] (encodedLines_ne_nil rest), ih]
      rfl
    · obtain ⟨first, tail, hrest, hcons⟩ := encodedLines_cons hbyte rest
      rw [hcons]
      rw [hrest] at ih
      cases tail with
      | nil => simpa using ih
      | cons second tail =>
        rw [joined_cons _ (List.cons_ne_nil second tail)] at ih ⊢
        rw [List.cons_append, ih]

theorem lineStart_encodedLines (n : ℕ) (source : List UInt8) :
    lineStart splitEnds n source =
      if n < (encodedLines source).length then some (startOf (encodedLines source) n) else none := by
  induction source generalizing n with
  | nil =>
    cases n with
    | zero => rfl
    | succ n => rfl
  | cons byte rest ih =>
    obtain ⟨first, tail, hrest⟩ := List.exists_cons_of_ne_nil (encodedLines_ne_nil rest)
    cases n with
    | zero =>
      obtain ⟨first, tail, hcons⟩ := List.exists_cons_of_ne_nil (encodedLines_ne_nil (byte :: rest))
      rw [hcons]
      rfl
    | succ n =>
      by_cases hbyte : byte = 10
      · have hends : splitEnds (byte :: rest) = true := by simp [splitEnds, hbyte]
        rw [lineStart, hends, if_pos rfl, ih, hbyte, encodedLines_newline]
        by_cases hn : n < (encodedLines rest).length
        · rw [if_pos hn, if_pos (by simpa using hn)]
          simp [startOf, Nat.add_comm]
        · rw [if_neg hn, if_neg (by simpa using hn)]
          rfl
      · have hends : splitEnds (byte :: rest) = false := by simp [splitEnds, hbyte]
        obtain ⟨first, tail, hrest, hcons⟩ := encodedLines_cons hbyte rest
        rw [lineStart, hends, if_neg Bool.false_ne_true, ih, hcons, hrest]
        by_cases hn : n < tail.length
        · rw [if_pos (by simpa using hn), if_pos (by simpa using hn)]
          simp only [startOf, Option.map_some, List.length_cons, Option.some.injEq]
          omega
        · rw [if_neg (by simpa using hn), if_neg (by simpa using hn)]
          rfl

theorem Position.In.offset (h : place.In source) :
    place.offset splitEnds source =
      some (startOf (encodedLines source) (place.line - 1) + place.col) := by
  obtain ⟨-, line, hline, -⟩ := h
  obtain ⟨hlength, -⟩ := List.getElem?_eq_some_iff.mp hline
  rw [Position.offset, lineStart_encodedLines, if_pos hlength]
  rfl

/-! ## One insertion -/

theorem startOf_set (lines : List (List UInt8)) (line : List UInt8) {k : ℕ} (h : k ≤ index) :
    startOf (lines.set index line) k = startOf lines k := by
  induction lines generalizing index k with
  | nil => rfl
  | cons first rest ih =>
    cases index with
    | zero =>
      obtain rfl : k = 0 := by omega
      rfl
    | succ index =>
      cases k with
      | zero => rfl
      | succ k => rw [List.set_cons_succ, startOf, startOf, ih (Nat.le_of_succ_le_succ h)]

theorem joined_set {line : List UInt8} (h : lines[index]? = some line) {col : ℕ}
    (hcol : col ≤ line.length) (text : List UInt8) :
    [10].intercalate (lines.set index (line.take col ++ text ++ line.drop col)) =
      Splice.Insertion.apply ([10].intercalate lines) ⟨startOf lines index + col, text⟩ := by
  induction lines generalizing index with
  | nil => cases h
  | cons first rest ih =>
    cases index with
    | zero =>
      obtain rfl : first = line := by simpa using h
      cases rest with
      | nil => simp [Splice.Insertion.apply, startOf]
      | cons second rest =>
        have hne : second :: rest ≠ [] := List.cons_ne_nil second rest
        rw [List.set_cons_zero, joined_cons _ hne, joined_cons _ hne, Splice.Insertion.apply]
        simp [startOf, List.take_append_of_le_length hcol, List.drop_append_of_le_length hcol]
    | succ index =>
      have hrest : rest[index]? = some line := by simpa using h
      have hne : rest ≠ [] := by
        rintro rfl
        cases hrest
      have hset : rest.set index (line.take col ++ text ++ line.drop col) ≠ [] := by
        simpa using hne
      rw [List.set_cons_succ, joined_cons _ hset, joined_cons _ hne, ih hrest]
      have hoffset : startOf (first :: rest) (index + 1) + col =
          (first ++ [10]).length + (startOf rest index + col) := by
        simp only [startOf, List.length_append, List.length_singleton]
        omega
      have hsplit : first ++ 10 :: [10].intercalate rest =
          (first ++ [10]) ++ [10].intercalate rest := by simp
      simp only [Splice.Insertion.apply]
      rw [hsplit, hoffset, List.take_length_add_append, List.drop_length_add_append]
      simp

/-! ## All insertions -/

/-- An insertion into the text of all lines. -/
def Insertion.inText (lines : List (List UInt8)) (i : Insertion) : Splice.Insertion UInt8 :=
  ⟨startOf lines (i.place.line - 1) + i.place.col, bytes i.call.text⟩

theorem insertInto_within (h : insertion.place.Within lines) :
    ∃ line, lines[insertion.place.line - 1]? = some line ∧
      insertion.place.col ≤ line.length ∧
      insertInto lines insertion = some (lines.set (insertion.place.line - 1)
        (line.take insertion.place.col ++ bytes insertion.call.text ++
          line.drop insertion.place.col)) := by
  obtain ⟨-, line, hline, hcol⟩ := h
  refine ⟨line, hline, hcol, ?_⟩
  simp only [insertInto, hline]

theorem Position.Within.set (h : place.Within lines) {line longer : List UInt8}
    (hline : lines[index]? = some line) (hlonger : line.length ≤ longer.length) :
    place.Within (lines.set index longer) := by
  obtain ⟨hpos, own, hown, hcol⟩ := h
  refine ⟨hpos, ?_⟩
  by_cases hindex : index = place.line - 1
  · obtain ⟨hlength, -⟩ := List.getElem?_eq_some_iff.mp hline
    rw [hindex, hown] at hline
    obtain rfl := Option.some.inj hline
    refine ⟨longer, ?_, hcol.trans hlonger⟩
    rw [← hindex]
    exact List.getElem?_set_self hlength
  · exact ⟨own, by rw [List.getElem?_set_ne hindex, hown], hcol⟩

theorem foldlM_insertInto (h : insertions.Pairwise fun i j => notBefore i.place j.place)
    (hin : ∀ i ∈ insertions, i.place.Within lines) :
    ∃ lines', insertions.foldlM insertInto lines = some lines' ∧
      [10].intercalate lines' =
        Splice.applyAll ([10].intercalate lines) (insertions.map (Insertion.inText lines)) := by
  induction insertions generalizing lines with
  | nil => exact ⟨lines, rfl, rfl⟩
  | cons i insertions ih =>
    obtain ⟨hfirst, hrest⟩ := List.pairwise_cons.mp h
    obtain ⟨line, hline, hcol, hinsert⟩ := insertInto_within (hin i List.mem_cons_self)
    generalize hset : lines.set (i.place.line - 1)
      (line.take i.place.col ++ bytes i.call.text ++ line.drop i.place.col) = next at hinsert
    have hlonger : line.length ≤
        (line.take i.place.col ++ bytes i.call.text ++ line.drop i.place.col).length := by
      simp only [List.length_append, List.length_take, List.length_drop]
      omega
    have hnext : ∀ j ∈ insertions, j.place.Within next := fun j hj =>
      hset ▸ (hin j (List.mem_cons_of_mem i hj)).set hline hlonger
    obtain ⟨lines', hrun, hjoined⟩ := ih hrest hnext
    -- The lines in front of the insertion are as long as before.
    have hplaces : insertions.map (Insertion.inText next) =
        insertions.map (Insertion.inText lines) := by
      refine List.map_congr_left fun j hj => ?_
      have hle : j.place.line - 1 ≤ i.place.line - 1 := by
        have := hfirst j hj
        simp only [notBefore, Bool.or_eq_true, Bool.and_eq_true, decide_eq_true_eq] at this
        omega
      rw [Insertion.inText, Insertion.inText, ← hset, startOf_set _ _ hle]
    refine ⟨lines', by rw [List.foldlM_cons, hinsert]; exact hrun, ?_⟩
    rw [hjoined, hplaces, ← hset, joined_set hline hcol]
    rfl

theorem pairwise_sorted (insertions : List Insertion) :
    (sorted insertions).Pairwise fun i j => notBefore i.place j.place := by
  apply List.pairwise_mergeSort
  · intro i j k hij hjk
    simp only [notBefore, Bool.or_eq_true, Bool.and_eq_true, decide_eq_true_eq] at *
    omega
  · intro i j
    simp only [notBefore, Bool.or_eq_true, Bool.and_eq_true, decide_eq_true_eq]
    omega

theorem startOf_le (lines : List (List UInt8)) {j k : ℕ} (h : j < k) (hk : k < lines.length) {line : List UInt8}
    (hline : lines[j]? = some line) : startOf lines j + line.length ≤ startOf lines k := by
  induction lines generalizing j k with
  | nil => cases hline
  | cons first rest ih =>
    obtain ⟨k, rfl⟩ : ∃ m, k = m + 1 := ⟨k - 1, by omega⟩
    cases j with
    | zero =>
      obtain rfl : first = line := by simpa using hline
      simp only [startOf]
      omega
    | succ j =>
      have hrest := ih (Nat.lt_of_succ_lt_succ h) (Nat.lt_of_succ_lt_succ hk)
        (by simpa using hline)
      simp only [startOf]
      omega

theorem descending_inText (h : insertions.Pairwise fun i j => notBefore i.place j.place)
    (hin : ∀ i ∈ insertions, i.place.Within lines) :
    Splice.Descending (insertions.map (Insertion.inText lines)) := by
  refine List.pairwise_map.mpr (h.imp_of_mem fun {i j} hi hj hij => ?_)
  obtain ⟨hpos, line, hline, hcol⟩ := hin j hj
  obtain ⟨hpos', line', hline', hcol'⟩ := hin i hi
  obtain ⟨hlength, -⟩ := List.getElem?_eq_some_iff.mp hline'
  simp only [notBefore, Bool.or_eq_true, Bool.and_eq_true, decide_eq_true_eq] at hij
  simp only [Insertion.inText]
  rcases hij with hlt | ⟨heq, hle⟩
  · have hstart := startOf_le lines (show j.place.line - 1 < i.place.line - 1 by omega) hlength
      hline
    omega
  · rw [heq]
    omega

theorem Position.Within.length (h : insertion.place.Within lines) :
    (insertion.inText lines).offset ≤ ([10].intercalate lines).length := by
  obtain ⟨-, line, hline, hcol⟩ := h
  have hjoined : startOf lines (insertion.place.line - 1) + line.length ≤
      ([10].intercalate lines).length := by
    generalize insertion.place.line - 1 = index at hline
    clear hcol
    induction lines generalizing index with
    | nil => cases hline
    | cons first rest ih =>
      cases index with
      | zero =>
        obtain rfl : first = line := by simpa using hline
        cases rest with
        | nil => simp [startOf]
        | cons second rest =>
          rw [joined_cons _ (List.cons_ne_nil second rest)]
          simp [startOf]
      | succ index =>
        have hrest : rest[index]? = some line := by simpa using hline
        have hne : rest ≠ [] := by
          rintro rfl
          cases hrest
        have := ih index hrest
        rw [joined_cons _ hne]
        simp only [startOf, List.length_append, List.length_cons]
        omega
  simp only [Insertion.inText]
  omega

/-! ## What is collected -/

/-- No line was looked up in vain, and where an active probe says that its call stands, one
was recorded. -/
structure Collector.Found (source : List UInt8) (c : Collector) : Prop where
  failed : c.failed = false
  insertions : ∀ i ∈ c.insertions, i.place.In source
  announced : ∀ probe ∈ c.probes, ∀ n, probe.insertionByte = some n →
    ∃ i ∈ c.insertions, i.place.offset splitEnds source = some n ∧
      i.call = .probe probe.probeId probe.range.startLine probe.range.startColumn probe.name

section
variable {o : Options} {c : Collector} {file : Suite}

theorem Collector.Found.insert (h : c.Found source) {place : Position} (hplace : place.In source)
    (call : Call) :
    ({ c with insertions := c.insertions ++ [⟨place, call⟩] } : Collector).Found source where
  failed := h.failed
  insertions := by
    intro i hi
    rcases List.mem_append.mp hi with hi | hi
    · exact h.insertions i hi
    · rw [List.mem_singleton.mp hi]
      exact hplace
  announced := by
    intro probe hprobe n hn
    obtain ⟨i, hi, hplaced⟩ := h.announced probe hprobe n hn
    exact ⟨i, List.mem_append_left _ hi, hplaced⟩

theorem Collector.Found.record (h : c.Found source) {n : Name} {span : Span}
    (hstart : n.span.start.In source) (hstop : n.span.stop.In source)
    (hspan : span.stop.In source) (reason : Option String) :
    (record o source n span reason c).Found source := by
  refine ⟨?_, fun i hi => ?_, fun probe hprobe m hm => ?_⟩
  · simp [PyInstrument.record, hstart.offset, hstop.offset, hspan.offset, h.failed]
  · simp only [PyInstrument.record] at hi
    split_ifs at hi
    · exact (h.insert hspan _).insertions i hi
    · exact h.insertions i hi
  · simp only [PyInstrument.record] at hprobe ⊢
    rcases List.mem_append.mp hprobe with hprobe | hprobe
    · obtain ⟨i, hi, hannounced⟩ := h.announced probe hprobe m hm
      refine ⟨i, ?_, hannounced⟩
      split_ifs
      · exact List.mem_append_left _ hi
      · exact hi
    · rw [List.mem_singleton.mp hprobe] at hm ⊢
      dsimp only at hm
      split_ifs at hm with hactive
      rw [if_pos hactive]
      exact ⟨_, List.mem_append_right _ (List.mem_singleton_self _), hm, rfl⟩

theorem found_collect (h : file.Each (Simple.Placed source) Compound.Named) :
    (collect o source file).Found source := by
  refine file.visit_keeps (I := Collector.Found source) ?_ ?_ ?_ h
    ⟨rfl, by simp [Collector.new], by simp [Collector.new]⟩
  · intro span simple c hsimple hc
    rcases visitSimple_cases o source span simple c with
      hsame | ⟨n, hn, reason, hrecord⟩ | hlog
    · rwa [hsame]
    · obtain ⟨hstart, hstop, -⟩ := hsimple.names n hn
      rw [hrecord]
      exact hc.record hstart hstop hsimple.stop reason
    · rw [hlog]
      exact hc.insert hsimple.stop _
  · intro span compound loop c _ _ hc
    exact ⟨hc.failed, hc.insertions, hc.announced⟩
  · intro c hc
    exact ⟨hc.failed, hc.insertions, hc.announced⟩

mutual

theorem Stmt.Each.imp {P P' : Span → Simple → Prop} {Q : Compound → Prop}
    (hP : ∀ span simple, P span simple → P' span simple) (stmt : Stmt) (h : stmt.Each P Q) :
    stmt.Each P' Q := by
  match stmt with
  | .simple span simple => exact hP span simple h
  | .compound _ _ suites => exact ⟨h.1, Suites.Each.imp hP suites h.2⟩
  | .call _ => exact h

theorem Suite.Each.imp {P P' : Span → Simple → Prop} {Q : Compound → Prop}
    (hP : ∀ span simple, P span simple → P' span simple) (suite : Suite) (h : suite.Each P Q) :
    suite.Each P' Q := by
  match suite with
  | .nil => trivial
  | .cons stmt rest => exact ⟨Stmt.Each.imp hP stmt h.1, Suite.Each.imp hP rest h.2⟩

theorem Suites.Each.imp {P P' : Span → Simple → Prop} {Q : Compound → Prop}
    (hP : ∀ span simple, P span simple → P' span simple) (suites : Suites)
    (h : suites.Each P Q) : suites.Each P' Q := by
  match suites with
  | .nil => trivial
  | .cons suite rest => exact ⟨Suite.Each.imp hP suite h.1, Suites.Each.imp hP rest h.2⟩

end

/-! ## The generated text -/

/-- What is inserted into the text, the first insertion first. -/
def textInsertions (o : Options) (source : List UInt8) (file : Suite) :
    List (Splice.Insertion UInt8) :=
  (sorted (collect o source file).insertions).map (Insertion.inText (encodedLines source))

theorem mem_sorted {i : Insertion} : i ∈ sorted insertions ↔ i ∈ insertions :=
  List.mem_mergeSort

theorem Insertion.not_mem_text {i : Insertion} (h : i.call.Plain)
    (lines : List (List UInt8)) : 10 ∉ (i.inText lines).text ∧ 13 ∉ (i.inText lines).text :=
  h.oneLine.not_mem_encode

/-- No inserted text has a line end. -/
theorem oneLine_textInsertions (h : file.Each (fun _ simple => ∀ n ∈ simple.names, OneLine n.id)
    Compound.Named) :
    ∀ i ∈ textInsertions o source file, 10 ∉ i.text ∧ 13 ∉ i.text := by
  intro i hi
  obtain ⟨j, hj, rfl⟩ := List.mem_map.mp hi
  exact Insertion.not_mem_text ((plain_collect h).insertions j (mem_sorted.mp hj)) _

theorem descending_textInsertions (h : file.Each (Simple.Placed source) Compound.Named) :
    Splice.Descending (textInsertions o source file) :=
  descending_inText (pairwise_sorted _) fun i hi =>
    (found_collect h).insertions i (mem_sorted.mp hi)

theorem offset_textInsertions (h : file.Each (Simple.Placed source) Compound.Named) :
    ∀ i ∈ textInsertions o source file, i.offset ≤ source.length := by
  intro i hi
  obtain ⟨j, hj, rfl⟩ := List.mem_map.mp hi
  have hlength := ((found_collect h).insertions j (mem_sorted.mp hj)).length
  rwa [joined_encodedLines] at hlength

theorem Simple.Placed.oneLine {span : Span} {simple : Simple} (h : simple.Placed source span) :
    ∀ n ∈ simple.names, OneLine n.id := fun n hn => (h.names n hn).2.2

/-- Wherever the column is, the letters of the lines stay as they are. -/
theorem count_insertInto {letter : UInt8} (h : insertInto lines insertion = some lines')
    (hletter : letter ∉ bytes insertion.call.text) :
    ([10].intercalate lines').count letter = ([10].intercalate lines).count letter := by
  simp only [insertInto] at h
  split at h
  next line hline =>
    obtain rfl := Option.some.inj h
    rw [List.take_eq_take_min (l := line), List.drop_eq_drop_min (l := line),
      joined_set hline (Nat.min_le_right _ _)]
    exact Splice.count_apply hletter _
  next => cases h

theorem count_foldlM {letter : UInt8} (h : insertions.foldlM insertInto lines = some lines')
    (hletter : ∀ i ∈ insertions, letter ∉ bytes i.call.text) :
    ([10].intercalate lines').count letter = ([10].intercalate lines).count letter := by
  induction insertions generalizing lines with
  | nil =>
    obtain rfl := Option.some.inj h
    rfl
  | cons i insertions ih =>
    obtain ⟨hi, hrest⟩ := List.forall_mem_cons.mp hletter
    rw [List.foldlM_cons] at h
    obtain ⟨next, hnext, hrun⟩ := Option.bind_eq_some_iff.mp h
    exact (ih hrun hrest).trans (count_insertInto hnext hi)

/-- A file that parses keeps its carriage returns, and gets no new ones. -/
theorem instrument_returns {parse : Parser} {out : Output} (hmarked : marked source = false)
    (hparse : parse source = .ok file)
    (h : file.Each (fun _ simple => ∀ n ∈ simple.names, OneLine n.id) Compound.Named)
    (hout : instrument parse o source = some out) :
    ∃ generated, out.generated = some generated ∧ (13 ∈ generated ↔ 13 ∈ source) := by
  have hplain : ∀ i ∈ sorted (collect o source file).insertions,
      10 ∉ bytes i.call.text ∧ 13 ∉ bytes i.call.text := fun i hi =>
    ((plain_collect h).insertions i (mem_sorted.mp hi)).oneLine.not_mem_encode
  simp only [instrument, hmarked, hparse] at hout
  by_cases hfailed : (collect o source file).failed = true
  · simp [hfailed] at hout
  · cases hrun : (sorted (collect o source file).insertions).foldlM insertInto
      (encodedLines source) with
    | none => simp [hfailed, hrun] at hout
    | some lines' =>
      have hnewlines := count_foldlM hrun fun i hi => (hplain i hi).1
      have hreturns := count_foldlM hrun fun i hi => (hplain i hi).2
      rw [joined_encodedLines] at hnewlines hreturns
      simp only [hfailed, hrun, hnewlines, ne_eq, not_true_eq_false, if_false, Bool.false_eq_true,
        Option.some.injEq] at hout
      refine ⟨[10].intercalate lines', by rw [← hout], ?_⟩
      rw [← List.count_pos_iff, ← List.count_pos_iff, hreturns]

/-- A file whose places are in the text is instrumented, and the calls stand at the places. -/
theorem instrument_placed {parse : Parser} (hmarked : marked source = false)
    (hparse : parse source = .ok file)
    (h : file.Each (Simple.Placed source) Compound.Named) :
    instrument parse o source =
      some ⟨some (Splice.applyAll source (textInsertions o source file)),
        (collect o source file).probes, []⟩ := by
  have hfound := found_collect (o := o) h
  obtain ⟨lines', hrun, hjoined⟩ := foldlM_insertInto (pairwise_sorted _) fun i hi =>
    hfound.insertions i (mem_sorted.mp hi)
  rw [joined_encodedLines] at hjoined
  have hnames : file.Each (fun _ simple => ∀ n ∈ simple.names, OneLine n.id) Compound.Named :=
    Suite.Each.imp (fun _ _ => Simple.Placed.oneLine) file h
  have hline : ∀ i ∈ textInsertions o source file, 10 ∉ i.text := fun i hi =>
    (oneLine_textInsertions hnames i hi).1
  have hcount := Splice.count_applyAll hline source
  simp only [instrument, hmarked, hparse, hfound.failed, hrun, hjoined]
  exact if_neg (not_not_intro hcount)

end

end Atomis.PyInstrument
