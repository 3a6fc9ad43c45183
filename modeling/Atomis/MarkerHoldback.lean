import Atomis.MarkerConservation
import Mathlib.Data.List.Induction

/-!
# What the parser holds back

After a push no whole marker is left in the buffer, and no more than one line that is complete,
unless a marker may be on its way from the buffer's first character on.
-/

namespace Atomis.Markers

section
variable {text before body rest buffer : List Char}

/-- A whole marker is somewhere in the text. -/
def HasMarker (text : List Char) : Prop :=
  ∃ before body rest, text = before ++ wrap body ++ rest ∧ markerEnd ∉ body ∧
    (parseBody body 0 0).isSome

/-- The text may be the first part of a marker. -/
def Pending (text : List Char) : Prop :=
  text.head? = some markerStart ∧ markerEnd ∉ text ∧ utf8Len text ≤ maxPendingMarker

/-! ## The search is complete -/

theorem HasMarker.append (h : HasMarker text) (before rest : List Char) :
    HasMarker (before ++ text ++ rest) := by
  obtain ⟨left, body, right, rfl, hbody, hparse⟩ := h
  exact ⟨before ++ left, body, right ++ rest, by simp, hbody, hparse⟩

theorem HasMarker.of_drop {index : ℕ} (h : HasMarker (text.drop index)) : HasMarker text := by
  have hwhole := h.append (text.take index) []
  rwa [List.append_nil, List.take_append_drop] at hwhole

/-- Behind the start of a marker within the text, its end is still to come. -/
theorem markerEnd_mem_drop (c : Char) (before body rest : List Char) :
    markerEnd ∈ (c :: (before ++ wrap body ++ rest)).drop markerPrefix.length := by
  have hsplit : c :: (before ++ wrap body ++ rest) =
      c :: (before ++ markerPrefix) ++ (body ++ markerEnd :: rest) := by simp [wrap]
  have hlength : markerPrefix.length ≤ (c :: (before ++ markerPrefix)).length := by
    simp only [List.length_cons, List.length_append]
    omega
  rw [hsplit, List.drop_append_of_le_length hlength]
  simp

theorem findMarkerFrom_complete (start : ℕ) (h : HasMarker text) :
    ∃ marker, findMarkerFrom start text = some marker := by
  obtain ⟨before, body, rest, rfl, hbody, hparse⟩ := h
  obtain ⟨parsed, hparsed⟩ := Option.isSome_iff_exists.mp hparse
  induction before generalizing start with
  | nil =>
    have hshift : parseBody body start (start + (wrap body).length) =
        some { parsed with start := start, stop := start + (wrap body).length } := by
      rw [parseBody_shift, hparsed]
      rfl
    exact ⟨_, findMarkerFrom_wrap hbody hshift rest⟩
  | cons c before ih =>
    have hend : ((c :: (before ++ wrap body ++ rest)).drop markerPrefix.length).contains
        markerEnd = true := List.contains_iff_mem.mpr (markerEnd_mem_drop c before body rest)
    rw [List.cons_append, List.cons_append, findMarkerFrom]
    simp only [hend, if_true]
    split_ifs
    · split
      next parsed _ => exact ⟨parsed, rfl⟩
      next => exact ih (start + 1)
    · exact ih (start + 1)

theorem findMarker_eq_none (h : findMarker buffer = none) : ¬HasMarker buffer := by
  intro hmarker
  obtain ⟨marker, hfind⟩ := findMarkerFrom_complete 0 hmarker
  rw [findMarker, hfind] at h
  cases h

namespace Parser

theorem takeMarkers_done (fuel : ℕ) (s : Parser) (h : s.buffer.length ≤ fuel) :
    ¬HasMarker (takeMarkers fuel s).buffer := by
  induction fuel generalizing s with
  | zero =>
    apply findMarker_eq_none
    rw [takeMarkers, List.eq_nil_of_length_eq_zero (Nat.le_zero.mp h)]
    rfl
  | succ fuel ih =>
    rw [takeMarkers]
    cases hfind : findMarker s.buffer with
    | none => exact findMarker_eq_none hfind
    | some marker =>
      obtain ⟨before, body, rest, hbuffer, -, hstart, hstop, -⟩ := findMarker_sound hfind
      obtain ⟨-, -, -, -, hrest⟩ := annotate_spec hbuffer hstart hstop
      apply ih
      rw [hrest]
      rw [hbuffer, List.length_append, List.length_append, length_wrap] at h
      omega

/-! ## The two places -/

/-- From the most recent complete line on there is one newline. -/
theorem count_drop_lineHoldback (buffer : List Char) :
    (buffer.drop (lineHoldback buffer)).count '\n' ≤ 1 := by
  rw [lineHoldback]
  cases hlast : rfind '\n' buffer with
  | none =>
    have hnot := rfind_eq_none_iff.mp hlast
    rw [List.drop_zero, List.count_eq_zero.mpr hnot]
    exact Nat.zero_le 1
  | some last =>
    obtain ⟨left, right, rfl, hright, rfl⟩ := rfind_split hlast
    have hone : ∀ line : List Char, '\n' ∉ line → (line ++ '\n' :: right).count '\n' = 1 := by
      intro line hline
      rw [List.count_append, List.count_cons_self, List.count_eq_zero.mpr hline,
        List.count_eq_zero.mpr hright]
    simp only [List.take_left]
    cases hprevious : rfind '\n' left with
    | none => exact (hone left (rfind_eq_none_iff.mp hprevious)).le
    | some previous =>
      obtain ⟨first, line, rfl, hline, rfl⟩ := rfind_split hprevious
      have hdrop : (first ++ '\n' :: line ++ '\n' :: right).drop (first.length + 1) =
          line ++ '\n' :: right := by
        have hsplit : first ++ '\n' :: line ++ '\n' :: right =
            first ++ ['\n'] ++ (line ++ '\n' :: right) := by simp
        rw [hsplit]
        exact List.drop_left' (by simp)
      simp only [hdrop]
      exact (hone line hline).le

theorem pending_drop_markerHold (h : markerHold buffer < buffer.length) :
    Pending (buffer.drop (markerHold buffer)) := by
  cases hfind : rfind markerStart buffer with
  | none =>
    simp only [markerHold, hfind] at h
    exact absurd h (Nat.lt_irrefl _)
  | some index =>
    simp only [markerHold, hfind] at h ⊢
    split_ifs at h ⊢ with hhold
    · obtain ⟨left, right, rfl, -, rfl⟩ := rfind_split hfind
      rw [List.drop_left] at hhold ⊢
      rw [Bool.and_eq_true, decide_eq_true_eq, Bool.not_eq_true'] at hhold
      exact ⟨rfl, fun hmem => by simp [hmem] at hhold, hhold.2⟩
    · exact absurd h (Nat.lt_irrefl _)

theorem lineHoldback_le (buffer : List Char) : lineHoldback buffer ≤ buffer.length := by
  rw [lineHoldback]
  cases hlast : rfind '\n' buffer with
  | none => exact Nat.zero_le _
  | some last =>
    obtain ⟨left, right, rfl, -, rfl⟩ := rfind_split hlast
    simp only [List.take_left]
    cases hprevious : rfind '\n' left with
    | none => exact Nat.zero_le _
    | some previous =>
      obtain ⟨first, line, rfl, -, rfl⟩ := rfind_split hprevious
      simp only [List.length_append, List.length_cons]
      omega

/-- What one push leaves in the buffer. -/
theorem push_buffer (s : Parser) (chunk : List Char) : ¬HasMarker (s.push chunk).buffer ∧
    ((s.push chunk).buffer.count '\n' ≤ 1 ∨ Pending (s.push chunk).buffer) := by
  have hnone := takeMarkers_done _ { s with buffer := s.buffer ++ chunk } (le_refl _)
  rw [push, (emitUpTo_emits _ _).2]
  refine ⟨fun h => hnone h.of_drop, ?_⟩
  rcases le_total (lineHoldback _) (markerHold _) with hline | hmarker
  · left
    rw [min_eq_left hline]
    exact count_drop_lineHoldback _
  · rcases lt_or_ge (markerHold (takeMarkers _ _).buffer) (takeMarkers _ _).buffer.length with
      hlt | hge
    · right
      rw [min_eq_right hmarker]
      exact pending_drop_markerHold hlt
    · left
      have heq := le_antisymm (lineHoldback_le _) (hge.trans hmarker)
      rw [min_eq_left (by omega)]
      exact count_drop_lineHoldback _

end Parser

end

/-! ## Runs -/

theorem run_pushes (s : Parser) (chunks : List (List Char)) :
    run s (chunks.map .push) = chunks.foldl Parser.push s := by
  rw [run, List.foldl_map]
  rfl

theorem pushed_pushes (chunks : List (List Char)) : pushed (chunks.map .push) = chunks.flatten := by
  rw [pushed, List.flatMap_map]
  exact List.flatMap_id

/-- What was taken out is a marker within what was written. -/
theorem hasMarker_written {log : List Event} (hparsed : Parsed (stripped log))
    (h : stripped log ≠ []) : HasMarker (written log) := by
  induction log with
  | nil => exact absurd rfl h
  | cons event log ih =>
    cases event with
    | emit text category source =>
      have hrest := (ih hparsed h).append text []
      rwa [List.append_nil] at hrest
    | strip text marker =>
      obtain ⟨body, rfl, hbody, hparse⟩ := hparsed _ List.mem_cons_self
      rw [parseBody_shift, Option.map_eq_some_iff] at hparse
      obtain ⟨parsed, hparse, -⟩ := hparse
      exact ⟨[], body, written log, rfl, hbody, by rw [hparse]; rfl⟩

/-- What waits after a run of pushes: no whole marker, and at most one newline unless a marker may
be on its way from the first character on. Output without markers is shown but for what waits. -/
theorem pushes_hold (kind : Stream) (detectErrors : Bool) (fileIds : ℕ → Option String)
    (chunks : List (List Char)) :
    let s := chunks.foldl Parser.push (Parser.new kind detectErrors fileIds)
    ¬HasMarker s.buffer ∧ (s.buffer.count '\n' ≤ 1 ∨ Pending s.buffer) ∧
      (¬HasMarker chunks.flatten → emitted s.log ++ s.buffer = chunks.flatten) ∧
      (markerStart ∉ chunks.flatten → s.buffer.count '\n' ≤ 1) := by
  intro s
  have hhold : ¬HasMarker s.buffer ∧ (s.buffer.count '\n' ≤ 1 ∨ Pending s.buffer) := by
    rcases List.eq_nil_or_concat' chunks with rfl | ⟨first, chunk, rfl⟩
    · refine ⟨?_, .inl (Nat.zero_le 1)⟩
      exact findMarker_eq_none rfl
    · have hlast : s = (first.foldl Parser.push (Parser.new kind detectErrors fileIds)).push chunk :=
        List.foldl_append
      rw [hlast]
      exact Parser.push_buffer _ chunk
  obtain ⟨log, hlog, hwritten, hparsed⟩ :=
    run_conserves (Parser.new kind detectErrors fileIds) (chunks.map .push)
  rw [run_pushes, pushed_pushes] at hwritten
  rw [run_pushes] at hlog
  have hall : written log ++ s.buffer = chunks.flatten := hwritten
  have hlog : s.log = log := hlog
  refine ⟨hhold.1, hhold.2, ?_, ?_⟩
  · intro hno
    have hstripped : stripped log = [] := by
      by_contra hne
      have hmarker := (hasMarker_written hparsed hne).append [] s.buffer
      rw [List.nil_append, hall] at hmarker
      exact hno hmarker
    rw [hlog, ← written_eq_emitted hstripped, hall]
  · intro hno
    rcases hhold.2 with hcount | hpending
    · exact hcount
    · have hmem : markerStart ∈ s.buffer := List.mem_of_mem_head? hpending.1
      rw [← hall] at hno
      exact absurd (List.mem_append_right _ hmem) hno

end Atomis.Markers
