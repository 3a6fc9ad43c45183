import Atomis.Markers

/-!
# The parser loses and invents nothing

Whatever is pushed and whenever the parser is asked to release what it holds: what
was emitted, with the markers that were taken out put back, is what was pushed.
What is taken out stands between the delimiters and parses.
-/

namespace Atomis.Markers

/-! ## Searching -/

section
variable {c : Char} {text left right : List Char}

theorem rfind_eq_none_iff : rfind c text = none ↔ c ∉ text := by
  induction text with
  | nil => simp [rfind]
  | cons d text ih =>
    cases hrest : rfind c text with
    | some later =>
      have hmem : c ∈ text := by
        by_contra hnot
        rw [ih.mpr hnot] at hrest
        cases hrest
      simp [rfind, hrest, hmem]
    | none =>
      have hnot := ih.mp hrest
      by_cases hd : d = c
      · simp [rfind, hrest, hd]
      · simp [rfind, hrest, hd, hnot, Ne.symm hd]

theorem rfind_eq_some (h : c ∉ right) : rfind c (left ++ c :: right) = some left.length := by
  induction left with
  | nil => simp [rfind, rfind_eq_none_iff.mpr h]
  | cons d left ih => simp [rfind, ih]

theorem rfind_split {index : ℕ} (h : rfind c text = some index) :
    ∃ left right, text = left ++ c :: right ∧ c ∉ right ∧ index = left.length := by
  induction text generalizing index with
  | nil => cases h
  | cons d text ih =>
    cases hrest : rfind c text with
    | some later =>
      obtain ⟨left, right, rfl, hright, rfl⟩ := ih hrest
      exact ⟨d :: left, right, rfl, hright, by simpa [rfind, hrest] using h.symm⟩
    | none =>
      simp only [rfind, hrest] at h
      split_ifs at h with hd
      cases h
      exact ⟨[], text, by rw [hd]; rfl, rfind_eq_none_iff.mp hrest, rfl⟩

end

/-! ## What is found -/

section
theorem parseBody_shift (body : List Char) (start stop : ℕ) : parseBody body start stop =
    (parseBody body 0 0).map fun marker => { marker with start := start, stop := stop } := by
  simp only [parseBody, Option.bind_eq_bind, Option.map_bind, Function.comp_def]
  refine Option.bind_congr fun file _ => Option.bind_congr fun rest _ =>
    Option.bind_congr fun line _ => Option.bind_congr fun rest _ =>
      Option.bind_congr fun column _ => ?_
  cases stripPrefix ':' column.2 with
  | none =>
    simp only
    split_ifs <;> rfl
  | some tail =>
    simp only [Option.map_bind, Function.comp_def]
    refine Option.bind_congr fun loopLine _ => Option.bind_congr fun rest _ =>
      Option.bind_congr fun loopColumn _ => Option.bind_congr fun tail _ => ?_
    split_ifs
    · cases stripPrefix ':' (tail.drop (tail.takeWhile nameChar).length) <;> rfl
    · rfl

variable {start : ℕ} {body text rest : List Char} {marker : ParsedMarker}

/-- A body between the delimiters. -/
def wrap (body : List Char) : List Char := markerPrefix ++ body ++ [markerEnd]

theorem markerPrefix_eq : markerPrefix = markerStart :: "ATOMIS_LOG:".toList := rfl

theorem length_wrap (body : List Char) :
    (wrap body).length = markerPrefix.length + body.length + 1 := by
  simp [wrap, add_assoc]

theorem not_prefix (h : markerStart ≠ text.head?.getD 'a') :
    markerPrefix.isPrefixOf text = false := by
  cases text with
  | nil => rfl
  | cons c text =>
    have hc : markerStart ≠ c := h
    simp [markerPrefix_eq, List.isPrefixOf, hc]

theorem findMarkerFrom_cons (start : ℕ) {c : Char} (hc : c ≠ markerStart) (text : List Char) :
    findMarkerFrom start (c :: text) = findMarkerFrom (start + 1) text := by
  rw [findMarkerFrom, not_prefix (by simpa using hc.symm)]
  rfl

theorem findMarkerFrom_skip (start : ℕ) (h : markerStart ∉ text) (rest : List Char) :
    findMarkerFrom start (text ++ rest) = findMarkerFrom (start + text.length) rest := by
  induction text generalizing start with
  | nil => rfl
  | cons c text ih =>
    obtain ⟨hc, htext⟩ := not_or.mp (List.mem_cons.not.mp h)
    rw [List.cons_append, findMarkerFrom_cons start (Ne.symm hc), ih _ htext, List.length_cons]
    congr 1
    omega

theorem findMarkerFrom_eq_none (start : ℕ) (h : markerStart ∉ text) :
    findMarkerFrom start text = none := by
  have hskip := findMarkerFrom_skip start h []
  rw [List.append_nil] at hskip
  rw [hskip]
  rfl

theorem findMarkerFrom_unended (start : ℕ) (h : markerEnd ∉ text) :
    findMarkerFrom start text = none := by
  induction text generalizing start with
  | nil => rfl
  | cons c text ih =>
    obtain ⟨-, htext⟩ := not_or.mp (List.mem_cons.not.mp h)
    have hend : ((c :: text).drop markerPrefix.length).contains markerEnd = false := by
      rw [Bool.eq_false_iff]
      exact fun hmem => h (List.mem_of_mem_drop (by simpa using hmem))
    simp only [findMarkerFrom, hend, Bool.false_eq_true, if_false, ih _ htext, ite_self]

theorem takeWhile_ended (hbody : markerEnd ∉ body) (rest : List Char) :
    (body ++ markerEnd :: rest).takeWhile (· ≠ markerEnd) = body := by
  rw [List.takeWhile_append_of_pos fun c hc => by
    simpa using fun heq : c = markerEnd => hbody (heq ▸ hc)]
  simp

theorem findMarkerFrom_wrap (hbody : markerEnd ∉ body)
    (hparse : parseBody body start (start + (wrap body).length) = some marker)
    (rest : List Char) : findMarkerFrom start (wrap body ++ rest) = some marker := by
  have hsplit : wrap body ++ rest = markerStart :: ("ATOMIS_LOG:".toList ++
      (body ++ markerEnd :: rest)) := by simp [wrap, markerPrefix_eq]
  have hdrop : (wrap body ++ rest).drop markerPrefix.length = body ++ markerEnd :: rest := by
    rw [wrap, List.append_assoc, List.append_assoc, List.drop_left]
    simp
  have hprefix : markerPrefix.isPrefixOf (wrap body ++ rest) = true := by
    rw [List.isPrefixOf_iff_prefix, wrap, List.append_assoc, List.append_assoc]
    exact List.prefix_append _ _
  rw [hsplit] at hdrop hprefix ⊢
  rw [findMarkerFrom, if_pos hprefix, hdrop]
  simp only [takeWhile_ended hbody]
  rw [if_pos (by simp)]
  rw [length_wrap, ← add_assoc, ← add_assoc] at hparse
  rw [hparse]

/-- Whatever is found stands between the delimiters and parses. -/
theorem findMarkerFrom_sound (h : findMarkerFrom start text = some marker) :
    ∃ before body rest, text = before ++ wrap body ++ rest ∧ markerEnd ∉ body ∧
      parseBody body (start + before.length) (start + before.length + (wrap body).length) =
        some marker := by
  induction text generalizing start with
  | nil => cases h
  | cons c text ih =>
    have hlater : findMarkerFrom (start + 1) text = some marker →
        ∃ before body rest, c :: text = before ++ wrap body ++ rest ∧ markerEnd ∉ body ∧
          parseBody body (start + before.length) (start + before.length + (wrap body).length) =
            some marker := by
      intro h
      obtain ⟨before, body, rest, rfl, hbody, hparse⟩ := ih h
      refine ⟨c :: before, body, rest, rfl, hbody, ?_⟩
      rw [List.length_cons, add_comm before.length, ← add_assoc]
      exact hparse
    rw [findMarkerFrom] at h
    by_cases hprefix : markerPrefix.isPrefixOf (c :: text) = true
    · obtain ⟨after, hafter⟩ := List.isPrefixOf_iff_prefix.mp hprefix
      rw [if_pos hprefix, ← hafter, List.drop_left] at h
      by_cases hend : after.contains markerEnd = true
      · obtain ⟨body, rest, rfl, hbody⟩ := List.eq_append_cons_of_mem (by simpa using hend)
        simp only [hend, if_true, takeWhile_ended hbody] at h
        cases hparse : parseBody body start (start + markerPrefix.length + body.length + 1) with
        | none =>
          rw [hparse] at h
          exact hlater h
        | some parsed =>
          rw [hparse] at h
          cases h
          refine ⟨[], body, rest, ?_, hbody, ?_⟩
          · rw [← hafter]
            simp [wrap]
          · rw [length_wrap, ← add_assoc, ← add_assoc]
            exact hparse
      · simp only [hend, Bool.false_eq_true, if_false] at h
        cases h
    · rw [if_neg hprefix] at h
      exact hlater h

end

/-! ## What is emitted -/

/-- The text that is shown. -/
def emitted (log : List Event) : List Char :=
  log.flatMap fun
    | .emit text .. => text
    | .strip .. => []

/-- What is taken out, each with the marker it was taken for. -/
def stripped (log : List Event) : List (List Char × ParsedMarker) :=
  log.flatMap fun
    | .emit .. => []
    | .strip text marker => [(text, marker)]

/-- What is shown, with what was taken out put back in its place. -/
def written (log : List Event) : List Char :=
  log.flatMap fun
    | .emit text .. | .strip text _ => text

theorem emitted_append (l l' : List Event) : emitted (l ++ l') = emitted l ++ emitted l' :=
  List.flatMap_append

theorem stripped_append (l l' : List Event) : stripped (l ++ l') = stripped l ++ stripped l' :=
  List.flatMap_append

theorem written_append (l l' : List Event) : written (l ++ l') = written l ++ written l' :=
  List.flatMap_append

theorem written_eq_emitted {log : List Event} (h : stripped log = []) :
    written log = emitted log := by
  induction log with
  | nil => rfl
  | cons event log ih =>
    cases event with
    | emit text category source =>
      have hrest : stripped log = [] := h
      change text ++ written log = text ++ emitted log
      rw [ih hrest]
    | strip text marker => cases h

/-- From `s` to `t` the parser shows `text` and takes out `markers`. -/
def Emits (s t : Parser) (text : List Char) (markers : List (List Char × ParsedMarker)) : Prop :=
  ∃ log, t.log = s.log ++ log ∧ emitted log = text ∧ stripped log = markers

def Parsed (markers : List (List Char × ParsedMarker)) : Prop :=
  ∀ e ∈ markers, ∃ body, e.1 = wrap body ∧ markerEnd ∉ body ∧
    parseBody body e.2.start e.2.stop = some e.2

/-- From `s` to `t` nothing is lost: what leaves the buffer is written, markers included. -/
def Conserves (s t : Parser) : Prop :=
  ∃ log, t.log = s.log ++ log ∧ written log ++ t.buffer = s.buffer ∧ Parsed (stripped log)

section
variable {s t u : Parser} {text text' : List Char}
  {markers markers' : List (List Char × ParsedMarker)}

theorem Emits.refl (h : t.log = s.log) : Emits s t [] [] := ⟨[], by simp [h], rfl, rfl⟩

theorem Emits.trans (h : Emits s t text markers) (h' : Emits t u text' markers') :
    Emits s u (text ++ text') (markers ++ markers') := by
  obtain ⟨log, hlog, rfl, rfl⟩ := h
  obtain ⟨log', hlog', rfl, rfl⟩ := h'
  exact ⟨log ++ log', by rw [hlog', hlog, List.append_assoc], emitted_append log log',
    stripped_append log log'⟩

theorem Emits.conserves (h : Emits s t text []) (hbuffer : text ++ t.buffer = s.buffer) :
    Conserves s t := by
  obtain ⟨log, hlog, rfl, hstripped⟩ := h
  exact ⟨log, hlog, by rw [written_eq_emitted hstripped, hbuffer], by simp [Parsed, hstripped]⟩

theorem Conserves.refl (s : Parser) : Conserves s s := ⟨[], by simp, rfl, by simp [Parsed, stripped]⟩

theorem Conserves.trans (h : Conserves s t) (h' : Conserves t u) : Conserves s u := by
  obtain ⟨log, hlog, hwritten, hparsed⟩ := h
  obtain ⟨log', hlog', hwritten', hparsed'⟩ := h'
  refine ⟨log ++ log', by rw [hlog', hlog, List.append_assoc], ?_, fun e he => ?_⟩
  · rw [written_append, List.append_assoc, hwritten', hwritten]
  · rw [stripped_append] at he
    exact (List.mem_append.mp he).elim (hparsed e) (hparsed' e)

namespace Parser

theorem lines_flatten (text : List Char) : (lines text).flatten = text := by
  induction text with
  | nil => rfl
  | cons c text ih =>
    simp only [lines]
    split_ifs with hc
    · simp [ih]
    · split
      next hnil =>
        rw [hnil] at ih
        simp [← ih]
      next line rest hlines =>
        rw [hlines] at ih
        simp [← ih]

theorem emitLine_emits (location : Option LogSourceLocation) (s : Parser) (line : List Char) :
    Emits s (emitLine location s line) line [] ∧ (emitLine location s line).buffer = s.buffer :=
  ⟨⟨_, rfl, List.append_nil line, rfl⟩, rfl⟩

theorem emitText_emits (s : Parser) (text : List Char) (location : Option LogSourceLocation) :
    Emits s (s.emitText text location) text [] ∧ (s.emitText text location).buffer = s.buffer := by
  have hlines : ∀ (l : List (List Char)) (s : Parser),
      Emits s (l.foldl (emitLine location) s) l.flatten [] ∧
        (l.foldl (emitLine location) s).buffer = s.buffer := by
    intro l
    induction l with
    | nil => exact fun s => ⟨.refl rfl, rfl⟩
    | cons line l ih =>
      intro s
      obtain ⟨hfirst, hbuffer⟩ := emitLine_emits location s line
      obtain ⟨hrest, hbuffer'⟩ := ih (emitLine location s line)
      exact ⟨hfirst.trans hrest, hbuffer'.trans hbuffer⟩
  have h := hlines (lines text) s
  rwa [lines_flatten] at h

theorem emitUpTo_emits (s : Parser) (hold : ℕ) :
    Emits s (s.emitUpTo hold) (s.buffer.take hold) [] ∧
      (s.emitUpTo hold).buffer = s.buffer.drop hold := by
  simp only [emitUpTo]
  split_ifs with hhold
  · exact emitText_emits { s with buffer := s.buffer.drop hold } _ _
  · obtain rfl : hold = 0 := by omega
    exact ⟨.refl rfl, rfl⟩

theorem emitUpTo_conserves (s : Parser) (hold : ℕ) : Conserves s (s.emitUpTo hold) := by
  obtain ⟨hemits, hbuffer⟩ := emitUpTo_emits s hold
  exact hemits.conserves (by rw [hbuffer, List.take_append_drop])

/-- What `annotate` shows before it takes the marker out. -/
theorem annotate_spec {before body rest : List Char} {marker : ParsedMarker}
    (hbuffer : s.buffer = before ++ wrap body ++ rest) (hstart : marker.start = before.length)
    (hstop : marker.stop = before.length + (wrap body).length) :
    ∃ log, (s.annotate marker).log = s.log ++ log ++ [.strip (wrap body) marker] ∧
      emitted log = before ∧ stripped log = [] ∧ (s.annotate marker).buffer = rest := by
  have hbefore : s.buffer.take marker.start = before := by
    rw [hstart, hbuffer, List.append_assoc, List.take_left]
  have hmarked : (s.buffer.drop marker.start).take (marker.stop - marker.start) = wrap body := by
    rw [hstart, hstop, hbuffer, List.append_assoc, List.drop_left, Nat.add_sub_cancel_left,
      List.take_left]
  have hrest : s.buffer.drop marker.stop = rest := by
    rw [hstop, hbuffer, ← List.length_append, List.drop_left]
  simp only [annotate, hbefore, hmarked, hrest]
  obtain ⟨log, hlog, hemitted, hstripped⟩ := (emitText_emits { s with
    logCounts := Function.update s.logCounts (countKey (s.fileIds marker.fileId) marker)
      (s.logCounts (countKey (s.fileIds marker.fileId) marker) + 1) } before (some
    ⟨s.fileIds marker.fileId, marker.line, marker.column,
      s.logCounts (countKey (s.fileIds marker.fileId) marker) + 1, marker.loopInfo⟩)).1
  exact ⟨log, by rw [hlog], hemitted, hstripped, trivial⟩

theorem annotate_emits {before body rest : List Char} {marker : ParsedMarker}
    (hbuffer : s.buffer = before ++ wrap body ++ rest) (hstart : marker.start = before.length)
    (hstop : marker.stop = before.length + (wrap body).length) :
    Emits s (s.annotate marker) before [(wrap body, marker)] ∧
      (s.annotate marker).buffer = rest := by
  obtain ⟨log, hlog, hemitted, hstripped, hrest⟩ := annotate_spec hbuffer hstart hstop
  refine ⟨⟨log ++ [.strip (wrap body) marker], by rw [hlog, List.append_assoc], ?_, ?_⟩, hrest⟩
  · rw [emitted_append, hemitted]
    exact List.append_nil before
  · rw [stripped_append, hstripped]
    rfl

theorem start_stop_of_parseBody {body : List Char} {start stop : ℕ} {marker : ParsedMarker}
    (h : parseBody body start stop = some marker) : marker.start = start ∧ marker.stop = stop := by
  rw [parseBody_shift, Option.map_eq_some_iff] at h
  obtain ⟨parsed, -, rfl⟩ := h
  exact ⟨rfl, rfl⟩

/-- What `find_marker` finds, at its place in the buffer. -/
theorem findMarker_sound {buffer : List Char} {marker : ParsedMarker}
    (h : findMarker buffer = some marker) : ∃ before body rest,
      buffer = before ++ wrap body ++ rest ∧ markerEnd ∉ body ∧
      marker.start = before.length ∧ marker.stop = before.length + (wrap body).length ∧
      parseBody body marker.start marker.stop = some marker := by
  obtain ⟨before, body, rest, hbuffer, hbody, hparse⟩ := findMarkerFrom_sound h
  rw [Nat.zero_add] at hparse
  obtain ⟨hstart, hstop⟩ := start_stop_of_parseBody hparse
  exact ⟨before, body, rest, hbuffer, hbody, hstart, hstop, by rw [hstart, hstop, hparse]⟩

theorem annotate_conserves {marker : ParsedMarker} (h : findMarker s.buffer = some marker) :
    Conserves s (s.annotate marker) := by
  obtain ⟨before, body, rest, hbuffer, hbody, hstart, hstop, hparse⟩ := findMarker_sound h
  obtain ⟨log, hlog, hemitted, hstripped, hrest⟩ := annotate_spec hbuffer hstart hstop
  refine ⟨log ++ [.strip (wrap body) marker], by rw [hlog, List.append_assoc], ?_, fun e he => ?_⟩
  · rw [written_append, written_eq_emitted hstripped, hemitted, hrest, hbuffer]
    simp [written]
  · rw [stripped_append, hstripped] at he
    rw [List.mem_singleton.mp he]
    exact ⟨body, rfl, hbody, hparse⟩

theorem takeMarkers_conserves (fuel : ℕ) (s : Parser) : Conserves s (takeMarkers fuel s) := by
  induction fuel generalizing s with
  | zero => exact .refl s
  | succ fuel ih =>
    rw [takeMarkers]
    cases hfind : findMarker s.buffer with
    | none => exact .refl s
    | some marker => exact (annotate_conserves hfind).trans (ih _)

theorem push_conserves (s : Parser) (chunk : List Char) :
    Conserves { s with buffer := s.buffer ++ chunk } (s.push chunk) :=
  (takeMarkers_conserves _ _).trans (emitUpTo_conserves _ _)

theorem release_conserves (s : Parser) : Conserves s s.release := emitUpTo_conserves s _

theorem flush_emits (s : Parser) : Emits s s.flush s.buffer [] ∧ s.flush.buffer = [] :=
  emitText_emits { s with buffer := [] } s.buffer none

end Parser

end

/-! ## Runs -/

inductive Op
  | push (chunk : List Char)
  | release

def Op.apply (s : Parser) : Op → Parser
  | .push chunk => s.push chunk
  | .release => s.release

def Op.chunk : Op → List Char
  | .push chunk => chunk
  | .release => []

def run (s : Parser) (ops : List Op) : Parser := ops.foldl Op.apply s

def pushed (ops : List Op) : List Char := ops.flatMap Op.chunk

variable {s : Parser}

theorem apply_conserves (s : Parser) (op : Op) :
    Conserves { s with buffer := s.buffer ++ op.chunk } (op.apply s) := by
  cases op with
  | push chunk => exact s.push_conserves chunk
  | release =>
    obtain ⟨log, hlog, hwritten, hparsed⟩ := s.release_conserves
    exact ⟨log, hlog, by rw [← List.append_nil s.buffer] at hwritten; exact hwritten, hparsed⟩

theorem run_conserves (s : Parser) (ops : List Op) :
    Conserves { s with buffer := s.buffer ++ pushed ops } (run s ops) := by
  induction ops generalizing s with
  | nil =>
    refine ⟨[], by simp [run], ?_, by simp [Parsed, stripped]⟩
    simp [written, pushed, run]
  | cons op ops ih =>
    obtain ⟨log, hlog, hwritten, hparsed⟩ := apply_conserves s op
    obtain ⟨log', hlog', hwritten', hparsed'⟩ := ih (op.apply s)
    have hlog'' : (run s (op :: ops)).log = s.log ++ (log ++ log') := by
      change (run (op.apply s) ops).log = _
      rw [hlog', hlog, List.append_assoc]
    refine ⟨log ++ log', hlog'', ?_, fun e he => ?_⟩
    · change _ ++ (run (op.apply s) ops).buffer = s.buffer ++ (op.chunk ++ pushed ops)
      have hbuffer : written log ++ (op.apply s).buffer = s.buffer ++ op.chunk := hwritten
      have hbuffer' : written log' ++ (run (op.apply s) ops).buffer =
          (op.apply s).buffer ++ pushed ops := hwritten'
      rw [written_append, List.append_assoc, hbuffer', ← List.append_assoc, hbuffer,
        List.append_assoc]
    · rw [stripped_append] at he
      exact (List.mem_append.mp he).elim (hparsed e) (hparsed' e)

/-- Everything pushed is shown or taken out as a marker, once and in order. -/
theorem parser_conserves (stream : Stream) (detectErrors : Bool) (fileIds : ℕ → Option String)
    (ops : List Op) :
    let final := (run (Parser.new stream detectErrors fileIds) ops).flush
    written final.log = pushed ops ∧ Parsed (stripped final.log) ∧ final.buffer = [] := by
  intro final
  obtain ⟨log, hlog, hwritten, hparsed⟩ := run_conserves (Parser.new stream detectErrors fileIds) ops
  obtain ⟨⟨rest, hrest, hemitted, hstripped⟩, hempty⟩ :=
    (run (Parser.new stream detectErrors fileIds) ops).flush_emits
  have hfinal : final.log = log ++ rest := by
    rw [← List.nil_append log]
    exact hrest.trans (congrArg (· ++ rest) hlog)
  refine ⟨?_, fun e he => ?_, hempty⟩
  · rw [hfinal, written_append, written_eq_emitted hstripped, hemitted]
    exact hwritten
  · rw [hfinal, stripped_append, hstripped, List.append_nil] at he
    exact hparsed e he

end Atomis.Markers
