import Atomis.Lib.Decimal
import Atomis.MarkerConservation

/-!
# Annotation does not depend on how the output is cut

A program that writes a line and then its marker, again and again, and a pipe that
cuts this anywhere. What the parser holds back is always the text and a part of the
marker of one write, so every text comes out whole, with the marker that follows it.
-/

namespace Atomis.Markers

/-- A text and the marker written behind it. -/
structure Write where
  text : List Char
  body : List Char
  marker : ParsedMarker

namespace Write

def chars (w : Write) : List Char := w.text ++ wrap w.body

structure WellFormed (w : Write) : Prop where
  plain : markerStart ∉ w.text
  oneLine : '\n' ∉ w.text.dropLast
  ended : markerEnd ∉ w.body
  flat : '\n' ∉ w.body
  parses : parseBody w.body 0 0 = some w.marker

def site (fileIds : ℕ → Option String) (w : Write) : Option String × ℕ × ℕ :=
  (fileIds w.marker.fileId, w.marker.line, w.marker.column)

def location (fileIds : ℕ → Option String) (earlier : List Write) (w : Write) :
    LogSourceLocation where
  path := fileIds w.marker.fileId
  line := w.marker.line
  column := w.marker.column
  executionIndex := earlier.countP (fun e => e.site fileIds = w.site fileIds) + 1
  loopInfo := w.marker.loopInfo

end Write

abbrev Shown := List Char × OutputCategory × Option LogSourceLocation

def shown (log : List Event) : List Shown :=
  log.flatMap fun
    | .emit text category source => [(text, category, source)]
    | .strip .. => []

def annotation (fileIds : ℕ → Option String) (earlier : List Write) (w : Write) : List Shown :=
  if w.text = [] then [] else [(w.text, .program, some (w.location fileIds earlier))]

/-- Every text that is not empty, with the marker behind it. -/
def annotated (fileIds : ℕ → Option String) : List Write → List Write → List Shown
  | _, [] => []
  | earlier, w :: rest => annotation fileIds earlier w ++ annotated fileIds (earlier ++ [w]) rest

section
variable {fileIds : ℕ → Option String} {w : Write} {text : List Char}

theorem shown_append (l l' : List Event) : shown (l ++ l') = shown l ++ shown l' :=
  List.flatMap_append

theorem annotated_append (earlier done rest : List Write) :
    annotated fileIds earlier (done ++ rest) =
      annotated fileIds earlier done ++ annotated fileIds (earlier ++ done) rest := by
  induction done generalizing earlier with
  | nil => simp [annotated]
  | cons w done ih => simp [annotated, ih]

/-! ## Keys -/

theorem countKey_eq_iff {path path' : Option String} {m m' : ParsedMarker}
    (hpath : path ≠ some "unknown") (hpath' : path' ≠ some "unknown") :
    Parser.countKey path m = Parser.countKey path' m' ↔
      path = path' ∧ m.line = m'.line ∧ m.column = m'.column := by
  constructor
  · intro h
    have hchars : ((path.getD "unknown").toList ++ ':' :: (toString m.line).toList) ++
        ':' :: (toString m.column).toList =
        ((path'.getD "unknown").toList ++ ':' :: (toString m'.line).toList) ++
        ':' :: (toString m'.column).toList := by
      simpa [Parser.countKey] using congrArg String.toList h
    obtain ⟨hrest, hcolumn⟩ := Decimal.colon_toString_inj hchars
    obtain ⟨hname, hline⟩ := Decimal.colon_toString_inj hrest
    refine ⟨?_, hline, hcolumn⟩
    have hname := String.toList_injective hname
    cases path with
    | none =>
      cases path' with
      | none => rfl
      | some name => exact absurd (congrArg some hname.symm) hpath'
    | some name =>
      cases path' with
      | none => exact absurd (congrArg some hname) hpath
      | some name' => exact congrArg some hname
  · rintro ⟨rfl, hline, hcolumn⟩
    simp only [Parser.countKey, hline, hcolumn]

/-! ## What a parser has done after some writes -/

/-- The parser has seen the writes of `done` whole. -/
structure Annotated (fileIds : ℕ → Option String) (s : Parser) (done : List Write) : Prop where
  ids : s.fileIds = fileIds
  quiet : s.detectErrors = false
  sticky : s.stickyError = false
  counts : ∀ path m, s.logCounts (Parser.countKey path m) =
    done.countP fun e => Parser.countKey (fileIds e.marker.fileId) e.marker = Parser.countKey path m
  log : shown s.log = annotated fileIds [] done

variable {s : Parser} {done rest : List Write}

theorem lines_oneLine (h : '\n' ∉ text.dropLast) :
    Parser.lines text = if text = [] then [] else [text] := by
  induction text with
  | nil => rfl
  | cons c text ih =>
    cases text with
    | nil => by_cases hc : c = '\n' <;> simp [Parser.lines, hc]
    | cons d text =>
      rw [List.dropLast_cons_cons, List.mem_cons, not_or] at h
      rw [Parser.lines, ih h.2]
      simp [Ne.symm h.1]

theorem findMarker_whole (hw : w.WellFormed) (rest : List Char) :
    findMarker (w.chars ++ rest) = some { w.marker with
      start := w.text.length
      stop := w.text.length + (wrap w.body).length } := by
  rw [findMarker, Write.chars, List.append_assoc, findMarkerFrom_skip 0 hw.plain, Nat.zero_add]
  refine findMarkerFrom_wrap hw.ended ?_ rest
  rw [parseBody_shift, hw.parses]
  rfl

theorem findMarker_partial (hw : w.WellFormed) {part missing : List Char} (hne : missing ≠ [])
    (hpart : part ++ missing = w.chars) : findMarker part = none := by
  rcases List.append_eq_append_iff.mp hpart with ⟨more, htext, -⟩ | ⟨begun, rfl, hbody⟩
  · refine findMarkerFrom_eq_none 0 fun hmem => hw.plain ?_
    rw [htext]
    exact List.mem_append_left _ hmem
  · rw [findMarker, findMarkerFrom_skip 0 hw.plain]
    refine findMarkerFrom_unended _ fun hmem => ?_
    obtain ⟨last, rfl⟩ : ∃ last, missing = last ++ [markerEnd] := by
      rcases List.eq_nil_or_concat missing with rfl | ⟨last, c, rfl⟩
      · exact absurd rfl hne
      · rw [List.concat_eq_append, ← List.append_assoc] at hbody
        obtain ⟨-, hlast⟩ := List.append_inj' hbody rfl
        exact ⟨last, by rw [List.concat_eq_append, hlast]⟩
    rw [wrap, ← List.append_assoc] at hbody
    have hfront := (List.append_inj' hbody rfl).1
    have : markerEnd ∈ markerPrefix ++ w.body := by
      rw [hfront]
      exact List.mem_append_left _ hmem
    rcases List.mem_append.mp this with hprefix | hbody
    · exact absurd hprefix (by decide)
    · exact hw.ended hbody

theorem emitText_oneLine (hquiet : s.detectErrors = false) (hsticky : s.stickyError = false)
    (h : '\n' ∉ text.dropLast) (location : Option LogSourceLocation) :
    s.emitText text location = { s with
      log := s.log ++ if text = [] then [] else [.emit text .program location] } := by
  rw [Parser.emitText, lines_oneLine h]
  split_ifs
  · simp
  · simp [Parser.emitLine, hquiet, hsticky]

/-- One marker more. -/
theorem Annotated.annotate (h : Annotated fileIds s done) (hfiles : ∀ id, fileIds id ≠ some "unknown")
    (hw : w.WellFormed) {rest : List Char} (hbuffer : s.buffer = w.chars ++ rest) :
    Annotated fileIds (s.annotate { w.marker with
      start := w.text.length
      stop := w.text.length + (wrap w.body).length }) (done ++ [w]) ∧
    (s.annotate { w.marker with
      start := w.text.length
      stop := w.text.length + (wrap w.body).length }).buffer = rest := by
  set marker : ParsedMarker := { w.marker with
    start := w.text.length
    stop := w.text.length + (wrap w.body).length } with hmarker
  set counted : Parser := { s with
    logCounts := Function.update s.logCounts (Parser.countKey (s.fileIds marker.fileId) marker)
      (s.logCounts (Parser.countKey (s.fileIds marker.fileId) marker) + 1) } with hcounted
  set location : LogSourceLocation := ⟨s.fileIds marker.fileId, marker.line, marker.column,
    s.logCounts (Parser.countKey (s.fileIds marker.fileId) marker) + 1, marker.loopInfo⟩
    with hlocation
  have hemit := emitText_oneLine (s := counted) h.quiet h.sticky hw.oneLine (some location)
  have hbefore : s.buffer.take marker.start = w.text := by
    rw [hbuffer, Write.chars, List.append_assoc]
    exact List.take_left
  have hrest : s.buffer.drop marker.stop = rest := by
    rw [hbuffer, Write.chars, hmarker, ← List.length_append]
    exact List.drop_left
  have hindex : s.logCounts (Parser.countKey (s.fileIds marker.fileId) marker) =
      done.countP fun e => e.site fileIds = w.site fileIds := by
    rw [h.counts, h.ids]
    refine List.countP_congr fun e _ => ?_
    simp only [decide_eq_true_eq, Write.site, Prod.mk.injEq]
    exact countKey_eq_iff (hfiles _) (hfiles _)
  have hlocated : location = w.location fileIds done := by
    rw [hlocation, hindex, h.ids]
    rfl
  have hstate : s.annotate marker = { counted with
      buffer := rest
      log := (s.log ++ if w.text = [] then [] else [.emit w.text .program (some location)]) ++
        [.strip ((s.buffer.drop marker.start).take (marker.stop - marker.start)) marker] } := by
    rw [Parser.annotate]
    simp only [hbefore, hrest]
    rw [← hcounted, ← hlocation, hemit]
  rw [hstate]
  refine ⟨⟨h.ids, h.quiet, h.sticky, fun path m => ?_, ?_⟩, rfl⟩
  · simp only [hcounted, Function.update_apply, List.countP_append, List.countP_singleton]
    have hkey : Parser.countKey (s.fileIds marker.fileId) marker =
        Parser.countKey (fileIds w.marker.fileId) w.marker := by rw [h.ids]; rfl
    by_cases hsame : Parser.countKey path m = Parser.countKey (fileIds w.marker.fileId) w.marker
    · rw [if_pos (hsame.trans hkey.symm), hkey, ← hsame, h.counts]
      simp
    · rw [if_neg (fun heq => hsame (heq.trans hkey)), h.counts]
      simp [Ne.symm hsame]
  · rw [shown_append, shown_append, h.log, annotated_append, List.nil_append]
    simp only [annotated, List.append_nil, annotation, hlocated]
    split_ifs <;> simp [shown]

/-- What is held back: nothing, or a part of the next write. -/
def Partial (buffer : List Char) : List Write → Prop
  | [] => buffer = []
  | w :: _ => ∃ missing, missing ≠ [] ∧ buffer ++ missing = w.chars

def stream (writes : List Write) : List Char := writes.flatMap Write.chars

theorem takeMarkers_annotated (hfiles : ∀ id, fileIds id ≠ some "unknown") {later : List Char}
    (fuel : ℕ) (h : Annotated fileIds s done) (hrest : ∀ w ∈ rest, w.WellFormed)
    (hbuffer : s.buffer ++ later = stream rest) (hfuel : s.buffer.length ≤ fuel) :
    ∃ seen left, rest = seen ++ left ∧
      Annotated fileIds (Parser.takeMarkers fuel s) (done ++ seen) ∧
      Partial (Parser.takeMarkers fuel s).buffer left ∧
      (Parser.takeMarkers fuel s).buffer ++ later = stream left := by
  induction fuel generalizing s done rest with
  | zero =>
    have hempty : s.buffer = [] := List.length_eq_zero_iff.mp (by omega)
    refine ⟨[], rest, rfl, by rw [List.append_nil]; exact h, ?_, hbuffer⟩
    cases rest with
    | nil => exact hempty
    | cons w rest =>
      refine ⟨w.chars, by simp [Write.chars, wrap], ?_⟩
      change s.buffer ++ w.chars = w.chars
      rw [hempty, List.nil_append]
  | succ fuel ih =>
    cases rest with
    | nil =>
      obtain ⟨hempty, -⟩ := List.append_eq_nil_iff.mp hbuffer
      rw [Parser.takeMarkers, hempty]
      exact ⟨[], [], rfl, by rw [List.append_nil]; exact h, hempty, hbuffer⟩
    | cons w rest =>
      have hw := hrest w List.mem_cons_self
      have hsplit : s.buffer ++ later = w.chars ++ stream rest := hbuffer
      rcases List.append_eq_append_iff.mp hsplit with ⟨missing, hchars, hlater⟩ | ⟨more, hmore, hlater⟩
      · by_cases hne : missing = []
        · rw [hne, List.append_nil] at hchars
          have hfind := findMarker_whole hw []
          rw [List.append_nil, hchars] at hfind
          have hwhole : s.buffer = w.chars ++ [] := by rw [hchars, List.append_nil]
          obtain ⟨hnext, hempty⟩ := h.annotate hfiles hw hwhole
          rw [Parser.takeMarkers, hfind]
          obtain ⟨seen, left, rfl, hann, hpart, hstream⟩ := ih hnext
            (fun w hw => hrest w (List.mem_cons_of_mem _ hw))
            (by rw [hempty, hlater, hne]; rfl) (by rw [hempty]; exact Nat.zero_le _)
          exact ⟨w :: seen, left, rfl, by rwa [← List.append_cons] at hann, hpart, hstream⟩
        · rw [Parser.takeMarkers, findMarker_partial hw hne hchars.symm]
          exact ⟨[], w :: rest, rfl, by rw [List.append_nil]; exact h,
            ⟨missing, hne, hchars.symm⟩, hbuffer⟩
      · have hfind := findMarker_whole hw more
        rw [← hmore] at hfind
        obtain ⟨hnext, hleft⟩ := h.annotate hfiles hw hmore
        rw [Parser.takeMarkers, hfind]
        have hlength : 0 < w.chars.length := by simp [Write.chars, wrap]
        rw [hmore, List.length_append] at hfuel
        obtain ⟨seen, left, rfl, hann, hpart, hstream⟩ := ih hnext
          (fun w hw => hrest w (List.mem_cons_of_mem _ hw))
          (by rw [hleft]; exact hlater.symm) (by rw [hleft]; omega)
        exact ⟨w :: seen, left, rfl, by rwa [← List.append_cons] at hann, hpart, hstream⟩

theorem lineHoldback_eq_zero {buffer : List Char} (h : buffer.count '\n' ≤ 1) :
    Parser.lineHoldback buffer = 0 := by
  simp only [Parser.lineHoldback]
  split
  · rfl
  next last hlast =>
    obtain ⟨left, right, rfl, -, rfl⟩ := rfind_split hlast
    rw [List.take_left]
    have hnot : '\n' ∉ left := by
      rw [List.count_append, List.count_cons_self] at h
      exact List.count_eq_zero.mp (by omega)
    rw [rfind_eq_none_iff.mpr hnot]

theorem count_chars_le (hw : w.WellFormed) : w.chars.count '\n' ≤ 1 := by
  have hbody : (wrap w.body).count '\n' = 0 := by
    refine List.count_eq_zero.mpr fun hmem => ?_
    simp only [wrap, List.mem_append, List.mem_singleton] at hmem
    rcases hmem with (hmem | hmem) | hmem
    · exact absurd hmem (by decide)
    · exact hw.flat hmem
    · exact absurd hmem (by decide)
  have htext : w.text.count '\n' ≤ 1 := by
    rcases List.eq_nil_or_concat w.text with heq | ⟨front, c, heq⟩
    · simp [heq]
    · have hfront := hw.oneLine
      rw [heq, List.concat_eq_append, List.dropLast_concat] at hfront
      have hlast : List.count '\n' [c] ≤ [c].length := List.count_le_length
      rw [heq, List.concat_eq_append, List.count_append, List.count_eq_zero.mpr hfront]
      simpa using hlast
  rw [Write.chars, List.count_append, hbody]
  exact htext

/-- Nothing is shown but before a marker: what is held back is less than two lines. -/
theorem push_annotated (hfiles : ∀ id, fileIds id ≠ some "unknown") {chunk later : List Char}
    (h : Annotated fileIds s done) (hrest : ∀ w ∈ rest, w.WellFormed)
    (hbuffer : s.buffer ++ chunk ++ later = stream rest) :
    ∃ seen left, rest = seen ++ left ∧ Annotated fileIds (s.push chunk) (done ++ seen) ∧
      Partial (s.push chunk).buffer left ∧ (s.push chunk).buffer ++ later = stream left := by
  have hpushed : Annotated fileIds { s with buffer := s.buffer ++ chunk } done :=
    ⟨h.ids, h.quiet, h.sticky, h.counts, h.log⟩
  obtain ⟨seen, left, rfl, hann, hpart, hstream⟩ := takeMarkers_annotated hfiles
    (s.buffer ++ chunk).length hpushed hrest hbuffer (le_refl _)
  have hcount : (Parser.takeMarkers (s.buffer ++ chunk).length
      { s with buffer := s.buffer ++ chunk }).buffer.count '\n' ≤ 1 := by
    cases left with
    | nil =>
      rw [show _ = [] from hpart]
      exact Nat.zero_le _
    | cons w left =>
      obtain ⟨missing, -, hchars⟩ := hpart
      refine le_trans ?_ (count_chars_le (hrest w (List.mem_append_right _ List.mem_cons_self)))
      rw [← hchars, List.count_append]
      exact Nat.le_add_right _ _
  have hpush : s.push chunk = Parser.takeMarkers (s.buffer ++ chunk).length
      { s with buffer := s.buffer ++ chunk } := by
    simp only [Parser.push]
    rw [lineHoldback_eq_zero hcount, Nat.zero_min]
    rfl
  rw [hpush]
  exact ⟨seen, left, rfl, hann, hpart, hstream⟩

theorem pushes_annotated (hfiles : ∀ id, fileIds id ≠ some "unknown") (chunks : List (List Char))
    (h : Annotated fileIds s done) (hrest : ∀ w ∈ rest, w.WellFormed)
    (hbuffer : s.buffer ++ chunks.flatten = stream rest) (hpart : Partial s.buffer rest) :
    Annotated fileIds (chunks.foldl Parser.push s) (done ++ rest) ∧
      (chunks.foldl Parser.push s).buffer = [] := by
  induction chunks generalizing s done rest with
  | nil =>
    rw [List.flatten_nil, List.append_nil] at hbuffer
    cases rest with
    | nil => exact ⟨by rw [List.append_nil]; exact h, hpart⟩
    | cons w rest =>
      obtain ⟨missing, hne, hchars⟩ := hpart
      have hlength := congrArg List.length hbuffer
      have hchars := congrArg List.length hchars
      have hmissing : 0 < missing.length := List.length_pos_of_ne_nil hne
      simp only [stream, List.flatMap_cons, List.length_append] at hlength hchars
      omega
  | cons chunk chunks ih =>
    rw [List.flatten_cons, ← List.append_assoc] at hbuffer
    obtain ⟨seen, left, rfl, hann, hpart, hstream⟩ := push_annotated hfiles h hrest hbuffer
    have hfinal := ih hann (fun w hw => hrest w (List.mem_append_right _ hw)) hstream hpart
    rwa [List.append_assoc] at hfinal

end

/-- However the stream is cut, every text comes out whole with the marker behind it. -/
theorem annotation_of_any_cut (kind : Stream) {fileIds : ℕ → Option String}
    (hfiles : ∀ id, fileIds id ≠ some "unknown") {writes : List Write}
    (hwrites : ∀ w ∈ writes, w.WellFormed) {chunks : List (List Char)}
    (hchunks : chunks.flatten = stream writes) :
    shown ((chunks.foldl Parser.push (Parser.new kind false fileIds)).flush).log =
      annotated fileIds [] writes := by
  have hstart : Annotated fileIds (Parser.new kind false fileIds) [] :=
    ⟨rfl, rfl, rfl, fun _ _ => rfl, rfl⟩
  have hpart : Partial [] writes := by
    cases writes with
    | nil => rfl
    | cons w writes => exact ⟨w.chars, by simp [Write.chars, wrap], rfl⟩
  obtain ⟨hann, hempty⟩ := pushes_annotated hfiles chunks hstart hwrites
    (by simpa [Parser.new] using hchunks) hpart
  have hflush : ((chunks.foldl Parser.push (Parser.new kind false fileIds)).flush).log =
      (chunks.foldl Parser.push (Parser.new kind false fileIds)).log := by
    rw [Parser.flush, hempty]
    rfl
  rw [hflush, hann.log, List.nil_append]

/-- Two lines printed at one place, cut within the first marker and at its end. -/
theorem annotation_of_cut_loop :
    shown ((["a\n\x1eATOMIS_LO".toList, "G:1:2:3:1:1:i:0\x1f".toList,
        "b\n\x1eATOMIS_LOG:1:2:3:1:1:i:1\x1f".toList].foldl Parser.push
          (Parser.new .stdout false fun _ => some "src/main.ts")).flush).log =
      annotated (fun _ => some "src/main.ts") []
        [⟨"a\n".toList, "1:2:3:1:1:i:0".toList,
            ⟨0, 0, 1, 2, 3, some ⟨1, 1, ['i'], ['0']⟩⟩⟩,
          ⟨"b\n".toList, "1:2:3:1:1:i:1".toList,
            ⟨0, 0, 1, 2, 3, some ⟨1, 1, ['i'], ['1']⟩⟩⟩] := by
  refine annotation_of_any_cut .stdout (fun _ => by simp) (fun w hw => ?_) (by decide)
  simp only [List.mem_cons, List.not_mem_nil, or_false] at hw
  rcases hw with rfl | rfl
  · exact ⟨by decide, by decide, by decide, by decide, by decide⟩
  · exact ⟨by decide, by decide, by decide, by decide, by decide⟩

end Atomis.Markers
