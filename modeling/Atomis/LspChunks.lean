import Atomis.LspFraming
import Mathlib.Data.Bool.AllAny

/-!
# Framing and the cuts of the pipe

What a stream holds does not depend on the cuts: whole frames, then a malformed one or an
unfinished one. The framer sees the same as long as each header is short enough to be found
before the limit is looked at, and no malformed frame takes the messages of its own chunk
with it.
-/

namespace Atomis.Lsp
open Utf8 Ndjson

variable {V : Type} {decode : List UInt8 → Except String V}
  {bytes left right more rest : List UInt8} {position length : ℕ} {value : V} {framer : Framer}

/-! ## The front of a stream -/

structure Header (bytes : List UInt8) (position length : ℕ) : Prop where
  ends : findHeaderEnd bytes = some position
  reads : contentLength (lossy (bytes.take position)) = .ok length

/-- The bytes are one message. -/
def Frame (decode : List UInt8 → Except String V) (bytes : List UInt8) (value : V) : Prop :=
  ∃ position length, Header bytes position length ∧ bytes.length = position + 4 + length ∧
    decode (bytes.drop (position + 4)) = .ok value

/-- The bytes start with a header or a body that cannot be read. -/
def Malformed (decode : List UInt8 → Except String V) (bytes : List UInt8) : Prop :=
  (∃ position error, findHeaderEnd bytes = some position ∧
    contentLength (lossy (bytes.take position)) = .error error) ∨
  ∃ position length error, Header bytes position length ∧ position + 4 + length ≤ bytes.length ∧
    decode ((bytes.drop (position + 4)).take length) = .error error

/-- The bytes end before the first message does. -/
def Unfinished (bytes : List UInt8) : Prop :=
  findHeaderEnd bytes = none ∨
    ∃ position length, Header bytes position length ∧ bytes.length < position + 4 + length

/-- No end of a header in more bytes than a header may have. -/
def Long (bytes : List UInt8) : Prop := findHeaderEnd bytes = none ∧ 8192 < bytes.length

/-- The header is never in the buffer without its end and over the limit. -/
def Short (bytes : List UInt8) : Prop :=
  match findHeaderEnd bytes with
  | some position => position + 3 ≤ 8192
  | none => bytes.length ≤ 8192

theorem contentLength_pos {header : List Char} (h : contentLength header = .ok length) :
    0 < length := by
  simp only [contentLength] at h
  split at h
  · split at h
    · cases h
    · split_ifs at h with hlimit
      cases h
      omega
  · cases h

theorem Header.append (h : Header bytes position length) (more : List UInt8) :
    Header (bytes ++ more) position length where
  ends := findHeaderEnd_append h.ends more
  reads := by
    have hle := length_of_findHeaderEnd h.ends
    rw [List.take_append_of_le_length (by omega)]
    exact h.reads

theorem Header.of_append (h : Header (left ++ right) position length)
    (hle : position + 4 ≤ left.length) : Header left position length where
  ends := by rw [findHeaderEnd_of_append h.ends, if_pos hle]
  reads := by
    have hlength := h.reads
    rwa [List.take_append_of_le_length (by omega)] at hlength

theorem Header.unique {position' length' : ℕ} (h : Header bytes position length)
    (h' : Header bytes position' length') : position' = position ∧ length' = length := by
  obtain rfl := Option.some.inj (h'.ends.symm.trans h.ends)
  exact ⟨rfl, Except.ok.inj (h'.reads.symm.trans h.reads)⟩

theorem Frame.length_pos (h : Frame decode bytes value) : 0 < bytes.length := by
  obtain ⟨position, length, -, hlength, -⟩ := h
  omega

theorem front_cases (decode : List UInt8 → Except String V) (bytes : List UInt8) :
    (∃ front value, front <+: bytes ∧ Frame decode front value) ∨ Malformed decode bytes ∨
      Unfinished bytes := by
  rcases hend : findHeaderEnd bytes with _ | position
  · exact .inr (.inr (.inl hend))
  rcases hlength : contentLength (lossy (bytes.take position)) with error | length
  · exact .inr (.inl (.inl ⟨position, error, hend, hlength⟩))
  have hheader : Header bytes position length := ⟨hend, hlength⟩
  rcases Nat.lt_or_ge bytes.length (position + 4 + length) with hshort | hwhole
  · exact .inr (.inr (.inr ⟨position, length, hheader, hshort⟩))
  rcases hdecode : decode ((bytes.drop (position + 4)).take length) with error | value
  · exact .inr (.inl (.inr ⟨position, length, error, hheader, hwhole, hdecode⟩))
  · refine .inl ⟨bytes.take (position + 4 + length), value, List.take_prefix _ _, position, length,
      ?_, by rw [List.length_take]; omega, ?_⟩
    · have hsplit := List.take_append_drop (position + 4 + length) bytes
      rw [← hsplit] at hheader
      exact hheader.of_append (by rw [List.length_take]; omega)
    · rwa [List.drop_take, Nat.add_sub_cancel_left]

/-- A part of a message is unfinished. -/
theorem Frame.unfinished_prefix (h : Frame decode (left ++ right) value) (hright : right ≠ []) :
    Unfinished left := by
  obtain ⟨position, length, hheader, hlength, -⟩ := h
  have hpos := List.length_pos_iff.mpr hright
  rw [List.length_append] at hlength
  by_cases hle : position + 4 ≤ left.length
  · exact .inr ⟨position, length, hheader.of_append hle, by omega⟩
  · exact .inl (by rw [findHeaderEnd_of_append hheader.ends, if_neg hle])

theorem Unfinished.of_append (h : Unfinished (left ++ right)) : Unfinished left := by
  rcases h with h | ⟨position, length, hheader, hlength⟩
  · exact .inl (findHeaderEnd_of_none h)
  · rw [List.length_append] at hlength
    by_cases hle : position + 4 ≤ left.length
    · exact .inr ⟨position, length, hheader.of_append hle, by omega⟩
    · exact .inl (by rw [findHeaderEnd_of_append hheader.ends, if_neg hle])

/-- A stream that starts with a message is neither malformed nor unfinished. -/
theorem Frame.not_malformed (h : Frame decode bytes value) (more : List UInt8) :
    ¬Malformed decode (bytes ++ more) := by
  obtain ⟨position, length, hheader, hlength, hdecode⟩ := h
  have happend := hheader.append more
  rintro (⟨position', error, hposition, herror⟩ | ⟨position', length', error, hheader', -, herror⟩)
  · obtain rfl := Option.some.inj (hposition.symm.trans happend.ends)
    rw [happend.reads] at herror
    cases herror
  · obtain ⟨rfl, rfl⟩ := happend.unique hheader'
    rw [List.drop_append_of_le_length (by omega), List.take_append_of_le_length
      (by rw [List.length_drop]; omega), List.take_of_length_le (by rw [List.length_drop]; omega),
      hdecode] at herror
    cases herror

theorem Frame.not_unfinished (h : Frame decode bytes value) (more : List UInt8) :
    ¬Unfinished (bytes ++ more) := by
  obtain ⟨position, length, hheader, hlength, -⟩ := h
  have happend := hheader.append more
  rintro (hnone | ⟨position', length', hheader', hshort⟩)
  · rw [happend.ends] at hnone
    cases hnone
  · obtain ⟨rfl, rfl⟩ := happend.unique hheader'
    rw [List.length_append] at hshort
    omega

theorem Short.of_append (h : Short (left ++ right)) : Short left := by
  rw [Short] at h ⊢
  rcases hwhole : findHeaderEnd (left ++ right) with _ | position
  · rw [hwhole, List.length_append] at h
    rw [findHeaderEnd_of_none hwhole]
    exact Nat.le_trans (Nat.le_add_right _ _) h
  · rw [hwhole] at h
    rw [findHeaderEnd_of_append hwhole]
    split_ifs with hle
    · exact h
    · simp only at h ⊢
      omega

theorem Short.not_long (h : Short bytes) : ¬Long bytes := by
  rintro ⟨hnone, hlong⟩
  rw [Short, hnone] at h
  exact Nat.not_lt.mpr h hlong

/-! ## One turn -/

/-- The framer holds these bytes of the stream, a header already taken off included. -/
def Holds (framer : Framer) (bytes : List UInt8) : Prop :=
  match framer.expectedBody with
  | none => framer.buffer = bytes
  | some length => ∃ position, Header bytes position length ∧
    framer.buffer = bytes.drop (position + 4)

theorem holds_start (bytes : List UInt8) : Holds ⟨bytes, none⟩ bytes := rfl

theorem Holds.append (h : Holds framer bytes) (chunk : List UInt8) :
    Holds { framer with buffer := framer.buffer ++ chunk } (bytes ++ chunk) := by
  simp only [Holds] at h ⊢
  split at h
  · rw [h]
  · obtain ⟨position, hheader, hbuffer⟩ := h
    refine ⟨position, hheader.append chunk, ?_⟩
    rw [hbuffer, List.drop_append_of_le_length (length_of_findHeaderEnd hheader.ends)]

theorem Holds.step_header (h : Holds framer bytes) (hheader : Header bytes position length) :
    framer.step decode = Framer.body decode (bytes.drop (position + 4)) length := by
  simp only [Holds] at h
  simp only [Framer.step]
  split at h
  · rename_i hexpected
    rw [hexpected, h, hheader.ends]
    simp only [hheader.reads]
  · rename_i hexpected
    obtain ⟨position', hheader', hbuffer⟩ := h
    obtain ⟨rfl, rfl⟩ := hheader.unique hheader'
    rw [hexpected, hbuffer]

theorem Holds.step_no_header (h : Holds framer bytes)
    (hheader : ∀ position length, ¬Header bytes position length) :
    framer.expectedBody = none ∧ framer.buffer = bytes := by
  simp only [Holds] at h
  split at h
  · rename_i hexpected
    exact ⟨hexpected, h⟩
  · obtain ⟨position, hheader', -⟩ := h
    exact absurd hheader' (hheader _ _)

theorem not_header_of_none (h : findHeaderEnd bytes = none) (position length : ℕ) :
    ¬Header bytes position length := by
  rintro ⟨hposition, -⟩
  rw [h] at hposition
  cases hposition

theorem Holds.step_frame (h : Holds framer (bytes ++ more)) (hframe : Frame decode bytes value) :
    framer.step decode = .next ⟨more, none⟩ value := by
  obtain ⟨position, length, hheader, hlength, hdecode⟩ := hframe
  have hbody : (bytes.drop (position + 4)).length = length := by
    rw [List.length_drop]
    omega
  rw [h.step_header (hheader.append more), List.drop_append_of_le_length (by omega),
    Framer.body, if_neg (by rw [List.length_append]; omega), ← hbody, List.take_left,
    List.drop_left, hdecode]

theorem Holds.step_malformed (h : Holds framer bytes) (hbytes : Malformed decode bytes) :
    ∃ framer' error, framer.step decode = .fail framer' error := by
  rcases hbytes with ⟨position, error, hposition, herror⟩ |
    ⟨position, length, error, hheader, hlength, herror⟩
  · obtain ⟨hexpected, hbuffer⟩ := h.step_no_header fun position' length hheader => by
      obtain rfl := Option.some.inj (hheader.ends.symm.trans hposition)
      rw [hheader.reads] at herror
      cases herror
    refine ⟨⟨bytes.drop (position + 4), none⟩, error, ?_⟩
    simp only [Framer.step, hexpected, hbuffer, hposition, herror]
  · rw [h.step_header hheader, Framer.body, if_neg (by rw [List.length_drop]; omega), herror]
    exact ⟨_, _, rfl⟩

theorem Holds.step_long (h : Holds framer bytes) (hlong : Long bytes) :
    ∃ framer' error, framer.step decode = .fail framer' error := by
  obtain ⟨hexpected, hbuffer⟩ := h.step_no_header (not_header_of_none hlong.1)
  simp only [Framer.step, hexpected, hbuffer, hlong.1, if_pos hlong.2]
  exact ⟨_, _, rfl⟩

theorem Holds.step_unfinished (h : Holds framer bytes)
    (decode : List UInt8 → Except String V) (hbytes : Unfinished bytes)
    (hlong : ¬Long bytes) :
    ∃ framer', framer.step decode = .wait framer' ∧ Holds framer' bytes := by
  rcases hbytes with hnone | ⟨position, length, hheader, hlength⟩
  · obtain ⟨hexpected, hbuffer⟩ := h.step_no_header (not_header_of_none hnone)
    have hlimit : ¬8192 < bytes.length := fun hlimit => hlong ⟨hnone, hlimit⟩
    refine ⟨framer, ?_, h⟩
    simp only [Framer.step, hexpected, hbuffer, hnone, if_neg hlimit]
  · have hle := length_of_findHeaderEnd hheader.ends
    refine ⟨⟨bytes.drop (position + 4), some length⟩, ?_, position, hheader, rfl⟩
    rw [h.step_header hheader, Framer.body, if_pos (by rw [List.length_drop]; omega)]

/-! ## A whole stream -/

def flatten (frames : List (List UInt8 × V)) : List UInt8 := (frames.map Prod.fst).flatten

/-- The messages of a stream, and what is left when there is no further one. -/
structure Split (decode : List UInt8 → Except String V) (bytes : List UInt8)
    (frames : List (List UInt8 × V)) (rest : List UInt8) : Prop where
  stream : bytes = flatten frames ++ rest
  whole : ∀ frame ∈ frames, Frame decode frame.1 frame.2
  stops : Malformed decode rest ∨ Unfinished rest

variable {frames frames' : List (List UInt8 × V)} {rest' : List UInt8}

theorem flatten_cons (frame : List UInt8 × V) (frames : List (List UInt8 × V)) :
    flatten (frame :: frames) = frame.1 ++ flatten frames := rfl

theorem flatten_append (frames frames' : List (List UInt8 × V)) :
    flatten (frames ++ frames') = flatten frames ++ flatten frames' := by
  simp [flatten]

theorem exists_split (decode : List UInt8 → Except String V) (bytes : List UInt8) :
    ∃ frames rest, Split decode bytes frames rest := by
  induction hlength : bytes.length using Nat.strongRecOn generalizing bytes with
  | ind n ih =>
    rcases front_cases decode bytes with ⟨front, value, ⟨more, rfl⟩, hframe⟩ | hrest
    · have hpos := hframe.length_pos
      rw [List.length_append] at hlength
      obtain ⟨frames, rest, hsplit⟩ := ih more.length (by omega) more rfl
      refine ⟨(front, value) :: frames, rest, ?_, ?_, hsplit.stops⟩
      · rw [flatten_cons, List.append_assoc, ← hsplit.stream]
      · exact List.forall_mem_cons.mpr ⟨hframe, hsplit.whole⟩
    · exact ⟨[], bytes, rfl, List.forall_mem_nil _, hrest⟩

theorem Frame.prefix_unique {front front' : List UInt8} {value' : V} {more' : List UInt8}
    (h : Frame decode front value) (h' : Frame decode front' value')
    (heq : front ++ more = front' ++ more') : front = front' ∧ value = value' := by
  obtain ⟨position, length, hheader, hlength, hdecode⟩ := h
  obtain ⟨position', length', hheader', hlength', hdecode'⟩ := h'
  have happend := hheader.append more
  rw [heq] at happend
  obtain ⟨rfl, rfl⟩ := happend.unique (hheader'.append more')
  obtain ⟨rfl, -⟩ := List.append_inj heq (by rw [hlength, hlength'])
  exact ⟨rfl, Except.ok.inj (hdecode.symm.trans hdecode')⟩

theorem Frame.not_stops (h : Frame decode bytes value) (more : List UInt8) :
    ¬(Malformed decode (bytes ++ more) ∨ Unfinished (bytes ++ more)) :=
  not_or.mpr ⟨h.not_malformed more, h.not_unfinished more⟩

theorem Split.unique (h : Split decode bytes frames rest) (h' : Split decode bytes frames' rest') :
    frames = frames' := by
  induction frames generalizing bytes frames' with
  | nil =>
    cases frames' with
    | nil => rfl
    | cons frame frames' =>
      have hrest : rest = frame.1 ++ (flatten frames' ++ rest') := by
        rw [← List.append_assoc, ← flatten_cons, ← h'.stream, h.stream]
        rfl
      have hframe := h'.whole frame List.mem_cons_self
      exact absurd (hrest ▸ h.stops) (hframe.not_stops _)
  | cons frame frames ih =>
    have hframe := h.whole frame List.mem_cons_self
    cases frames' with
    | nil =>
      have hrest : rest' = frame.1 ++ (flatten frames ++ rest) := by
        rw [← List.append_assoc, ← flatten_cons, ← h.stream, h'.stream]
        rfl
      exact absurd (hrest ▸ h'.stops) (hframe.not_stops _)
    | cons frame' frames' =>
      have heq := h.stream.symm.trans h'.stream
      rw [flatten_cons, flatten_cons, List.append_assoc, List.append_assoc] at heq
      obtain ⟨hfront, hvalue⟩ := hframe.prefix_unique (h'.whole frame' List.mem_cons_self) heq
      rw [hfront] at heq
      have hrest := List.append_cancel_left heq
      rw [ih ⟨rfl, fun f hf => h.whole f (List.mem_cons_of_mem _ hf), h.stops⟩
        ⟨hrest, fun f hf => h'.whole f (List.mem_cons_of_mem _ hf), h'.stops⟩,
        Prod.ext hfront hvalue]

/-- A cut in a stream whose headers are short leaves whole frames before it and after it, and
a message begun. -/
theorem exists_cut (hstream : left ++ right = flatten frames ++ rest)
    (hwhole : ∀ frame ∈ frames, Frame decode frame.1 frame.2)
    (hshort : ∀ frame ∈ frames, Short frame.1) (hrest : Unfinished rest) (hshortRest : Short rest) :
    ∃ before after middle, frames = before ++ after ∧ left = flatten before ++ middle ∧
      middle ++ right = flatten after ++ rest ∧ Unfinished middle ∧ Short middle := by
  induction frames generalizing left with
  | nil =>
    rw [show flatten [] ++ rest = rest from rfl] at hstream
    subst hstream
    exact ⟨[], [], left, rfl, rfl, rfl, hrest.of_append, hshortRest.of_append⟩
  | cons frame frames ih =>
    obtain ⟨hframe, hwhole⟩ := List.forall_mem_cons.mp hwhole
    obtain ⟨hshortFrame, hshort⟩ := List.forall_mem_cons.mp hshort
    have heq := hstream
    rw [flatten_cons, List.append_assoc] at heq
    rcases List.append_eq_append_iff.mp heq with ⟨more, hfront, -⟩ | ⟨more, hleft, hmore⟩
    · by_cases hnil : more = []
      · rw [hnil, List.append_nil] at hfront
        rw [← hfront] at heq
        refine ⟨[frame], frames, [], rfl, ?_, ?_, .inl rfl, Nat.zero_le _⟩
        · rw [flatten_cons, hfront]
          simp [flatten]
        · exact List.append_cancel_left heq
      · rw [hfront] at hframe hshortFrame
        exact ⟨[], frame :: frames, left, rfl, rfl, hstream, hframe.unfinished_prefix hnil,
          hshortFrame.of_append⟩
    · obtain ⟨before, after, middle, hframes, hmiddle, hright, hopen⟩ := ih hmore.symm hwhole hshort
      refine ⟨frame :: before, after, middle, by rw [hframes]; rfl, ?_, hright, hopen⟩
      rw [hleft, hmiddle, flatten_cons, List.append_assoc]

theorem length_le_flatten (hwhole : ∀ frame ∈ frames, Frame decode frame.1 frame.2) :
    frames.length ≤ (flatten frames).length := by
  induction frames with
  | nil => exact Nat.le_refl 0
  | cons frame frames ih =>
    obtain ⟨hframe, hwhole⟩ := List.forall_mem_cons.mp hwhole
    have hpos := hframe.length_pos
    have hle := ih hwhole
    rw [flatten_cons, List.length_append, List.length_cons]
    omega

/-- The loop has turns enough. -/
theorem Holds.length_le (h : Holds framer (flatten frames ++ rest))
    (hwhole : ∀ frame ∈ frames, Frame decode frame.1 frame.2) :
    frames.length ≤ framer.buffer.length := by
  simp only [Holds] at h
  split at h
  · have hle := length_le_flatten hwhole
    rw [h, List.length_append]
    omega
  · obtain ⟨position, hheader, hbuffer⟩ := h
    cases frames with
    | nil => exact Nat.zero_le _
    | cons frame frames =>
      obtain ⟨⟨position', length', hheader', hlength, -⟩, hwhole⟩ :=
        List.forall_mem_cons.mp hwhole
      have hle := length_le_flatten hwhole
      have hpos := contentLength_pos hheader'.reads
      rw [flatten_cons, List.append_assoc] at hheader hbuffer
      obtain ⟨rfl, rfl⟩ := (hheader'.append _).unique hheader
      rw [hbuffer, List.length_drop, List.length_append, List.length_append, List.length_cons]
      omega

theorem Holds.drain (h : Holds framer (flatten frames ++ rest))
    (hwhole : ∀ frame ∈ frames, Frame decode frame.1 frame.2) {fuel : ℕ}
    (hfuel : frames.length < fuel) :
    (Malformed decode rest ∨ Long rest →
        ∃ framer' error, framer.drain decode fuel = (framer', .error error)) ∧
      (Unfinished rest → ¬Long rest → ∃ framer',
        framer.drain decode fuel = (framer', .ok (frames.map Prod.snd)) ∧ Holds framer' rest) := by
  induction fuel generalizing framer frames with
  | zero => exact absurd hfuel (Nat.not_lt_zero _)
  | succ fuel ih =>
    cases frames with
    | nil =>
      constructor
      · intro hrest
        obtain ⟨framer', error, hstep⟩ := hrest.elim h.step_malformed h.step_long
        exact ⟨framer', error, by rw [Framer.drain, hstep]⟩
      · intro hrest hlong
        obtain ⟨framer', hstep, hholds⟩ := h.step_unfinished decode hrest hlong
        exact ⟨framer', by rw [Framer.drain, hstep]; rfl, hholds⟩
    | cons frame frames =>
      obtain ⟨hframe, hwhole⟩ := List.forall_mem_cons.mp hwhole
      rw [flatten_cons, List.append_assoc] at h
      obtain ⟨hfail, hwait⟩ := ih (holds_start (flatten frames ++ rest)) hwhole
        (Nat.lt_of_succ_lt_succ hfuel)
      constructor
      · intro hrest
        obtain ⟨framer', error, hdrain⟩ := hfail hrest
        exact ⟨framer', error, by rw [Framer.drain, h.step_frame hframe]; simp only [hdrain]; rfl⟩
      · intro hrest hlong
        obtain ⟨framer', hdrain, hholds⟩ := hwait hrest hlong
        refine ⟨framer', ?_, hholds⟩
        rw [Framer.drain, h.step_frame hframe]
        simp only [hdrain]
        rfl

/-! ## All chunks -/

theorem Holds.push (h : Holds framer bytes) (decode : List UInt8 → Except String V)
    {chunk : List UInt8}
    (hstream : bytes ++ chunk = flatten frames ++ rest)
    (hwhole : ∀ frame ∈ frames, Frame decode frame.1 frame.2) :
    (Malformed decode rest ∨ Long rest →
        ∃ framer' error, framer.push decode chunk = (framer', .error error)) ∧
      (Unfinished rest → ¬Long rest → ∃ framer',
        framer.push decode chunk = (framer', .ok (frames.map Prod.snd)) ∧ Holds framer' rest) := by
  have hholds := h.append chunk
  rw [hstream] at hholds
  exact hholds.drain hwhole (Nat.lt_succ_of_le (hholds.length_le hwhole))

theorem holds_empty : Holds {} [] := rfl

theorem unfinished_nil : Unfinished [] := .inl rfl

theorem receive_short {chunks : List (List UInt8)} (h : Holds framer bytes)
    (hopen : Unfinished bytes) (hstream : bytes ++ chunks.flatten = flatten frames ++ rest)
    (hwhole : ∀ frame ∈ frames, Frame decode frame.1 frame.2)
    (hshort : ∀ frame ∈ frames, Short frame.1) (hrest : Unfinished rest) (hshortRest : Short rest) :
    ∃ framer', receive decode framer chunks = ⟨frames.map Prod.snd, framer', none⟩ ∧
      Holds framer' rest := by
  induction chunks generalizing framer bytes frames with
  | nil =>
    rw [List.flatten_nil, List.append_nil] at hstream
    cases frames with
    | nil => exact ⟨framer, rfl, (show bytes = rest from hstream) ▸ h⟩
    | cons frame frames =>
      rw [hstream, flatten_cons, List.append_assoc] at hopen
      exact absurd hopen ((hwhole frame List.mem_cons_self).not_unfinished _)
  | cons chunk chunks ih =>
    rw [List.flatten_cons, ← List.append_assoc] at hstream
    obtain ⟨before, after, middle, rfl, hleft, hright, hmiddle, hshortMiddle⟩ :=
      exists_cut hstream hwhole hshort hrest hshortRest
    have hwholes := List.forall_mem_append.mp hwhole
    have hshorts := List.forall_mem_append.mp hshort
    obtain ⟨framer', hpush, hholds⟩ :=
      (h.push decode hleft hwholes.1).2 hmiddle hshortMiddle.not_long
    obtain ⟨framer'', hreceive, hholds'⟩ := ih hholds hmiddle hright hwholes.2 hshorts.2
    refine ⟨framer'', ?_, hholds'⟩
    simp [receive, hpush, hreceive]

theorem Malformed.not_unfinished (h : Malformed decode bytes) : ¬Unfinished bytes := by
  rintro (hnone | ⟨position, length, hheader, hlength⟩)
  all_goals rcases h with ⟨position', error, hposition, herror⟩ |
    ⟨position', length', error, hheader', hlength', -⟩
  · rw [hnone] at hposition
    cases hposition
  · exact not_header_of_none hnone _ _ hheader'
  · obtain rfl := Option.some.inj (hheader.ends.symm.trans hposition)
    rw [hheader.reads] at herror
    cases herror
  · obtain ⟨rfl, rfl⟩ := hheader.unique hheader'
    omega

/-- A stream that goes wrong before its first message is rejected wherever it is cut. -/
theorem receive_rejected {chunks : List (List UInt8)} {stream : List UInt8} (h : Holds framer bytes)
    (hopen : Unfinished bytes) (hlong : ¬Long bytes) (hstream : bytes ++ chunks.flatten = stream)
    (hbad : Malformed decode stream ∨ Long stream) :
    ∃ framer' error, receive decode framer chunks = ⟨[], framer', some error⟩ := by
  induction chunks generalizing framer bytes with
  | nil =>
    rw [List.flatten_nil, List.append_nil] at hstream
    subst hstream
    exact absurd hbad (not_or.mpr ⟨fun hmalformed => hmalformed.not_unfinished hopen, hlong⟩)
  | cons chunk chunks ih =>
    rw [List.flatten_cons, ← List.append_assoc] at hstream
    have hpush := h.push decode
      (show bytes ++ chunk = flatten ([] : List (List UInt8 × V)) ++ (bytes ++ chunk) from rfl)
      (List.forall_mem_nil _)
    by_cases hfails : Malformed decode (bytes ++ chunk) ∨ Long (bytes ++ chunk)
    · obtain ⟨framer', error, hpush⟩ := hpush.1 hfails
      exact ⟨framer', error, by rw [receive, hpush]⟩
    obtain ⟨hsound, hlimit⟩ := not_or.mp hfails
    rcases front_cases decode (bytes ++ chunk) with ⟨front, value, ⟨more, hfront⟩, hframe⟩ | hrest
    · rw [← hfront, List.append_assoc] at hstream
      rcases hbad with hbad | hbad
      · exact absurd (hstream ▸ hbad) (hframe.not_malformed _)
      · exact absurd (.inl (hstream ▸ hbad.1)) (hframe.not_unfinished (more ++ chunks.flatten))
    · have hrest := hrest.resolve_left hsound
      obtain ⟨framer', hpush, hholds⟩ := hpush.2 hrest hlimit
      obtain ⟨framer'', error, hreceive⟩ := ih hholds hrest hlimit hstream
      refine ⟨framer'', error, ?_⟩
      simp [receive, hpush, hreceive]

/-- What is delivered, and whether the stream is rejected, does not depend on the cuts; and the
messages before the first malformed frame are delivered. -/
structure Independent (decode : List UInt8 → Except String V) (stream : List UInt8) : Prop where
  agree : ∀ chunks chunks' : List (List UInt8),
    chunks.flatten = stream → chunks'.flatten = stream →
      (receive decode {} chunks).messages = (receive decode {} chunks').messages ∧
        (receive decode {} chunks).error.isSome = (receive decode {} chunks').error.isSome
  delivers : ∀ frames rest, Split decode stream frames rest →
    ∀ chunks : List (List UInt8), chunks.flatten = stream →
      frames.map Prod.snd <+: (receive decode {} chunks).messages

/-- Nothing malformed and every header within the limit before its end is in, or nothing at
all before what is wrong. -/
def Sound (decode : List UInt8 → Except String V) (stream : List UInt8) : Prop :=
  (∃ frames rest, Split decode stream frames rest ∧ Unfinished rest ∧
      (∀ frame ∈ frames, Short frame.1) ∧ Short rest) ∨
    Malformed decode stream ∨ Long stream

theorem long_take (h : findHeaderEnd bytes = some position) (hlong : 8192 < position + 3) :
    Long (bytes.take (position + 3)) := by
  have hle := length_of_findHeaderEnd h
  have hlength : (bytes.take (position + 3)).length = position + 3 := by
    rw [List.length_take]
    omega
  refine ⟨?_, by rw [hlength]; exact hlong⟩
  rw [← List.take_append_drop (position + 3) bytes] at h
  rw [findHeaderEnd_of_append h, if_neg (by rw [hlength]; omega)]

/-- Cut inside, a header over the limit is refused. -/
theorem exists_refused (after : List UInt8)
    (hwhole : ∀ frame ∈ frames, Frame decode frame.1 frame.2)
    (h : findHeaderEnd bytes = some position) (hlong : 8192 < position + 3) :
    ∃ chunks : List (List UInt8), chunks.flatten = flatten frames ++ (bytes ++ after) ∧
      (receive decode {} chunks).error.isSome := by
  refine ⟨[flatten frames ++ bytes.take (position + 3), bytes.drop (position + 3) ++ after], ?_, ?_⟩
  · rw [List.flatten_cons, List.flatten_cons, List.flatten_nil, List.append_nil, List.append_assoc,
      ← List.append_assoc (bytes.take _), List.take_append_drop]
  · obtain ⟨framer', error, hpush⟩ := (holds_empty.push decode
      (List.nil_append _) hwhole).1 (.inr (long_take h hlong))
    rw [receive, hpush]
    rfl

theorem receive_whole {stream : List UInt8} (hsplit : Split decode stream frames rest)
    (hlong : ¬Long rest) (hrest : Unfinished rest) :
    (receive decode {} [stream]).error = none := by
  obtain ⟨framer', hpush, -⟩ := (holds_empty.push decode
    (hsplit.stream ▸ List.nil_append _) hsplit.whole).2 hrest hlong
  rw [receive, hpush]
  rfl

theorem Independent.short {stream : List UInt8} (h : Independent decode stream)
    (hsplit : Split decode stream frames rest) (hlong : ¬Long rest) (hrest : Unfinished rest)
    (before : List (List UInt8 × V)) (after : List UInt8)
    (hwhole : ∀ frame ∈ before, Frame decode frame.1 frame.2)
    (hstream : stream = flatten before ++ (bytes ++ after)) (hbytes : ¬Long bytes) :
    Short bytes := by
  by_contra hshort
  rw [Short] at hshort
  rcases hend : findHeaderEnd bytes with _ | position
  · rw [hend] at hshort
    exact hbytes ⟨hend, Nat.lt_of_not_le hshort⟩
  · rw [hend] at hshort
    obtain ⟨chunks, hchunks, herror⟩ :=
      exists_refused after hwhole hend (Nat.lt_of_not_le hshort)
    have hagree := (h.agree chunks [stream] (hchunks.trans hstream.symm) (List.append_nil _)).2
    rw [herror, receive_whole hsplit hlong hrest] at hagree
    cases hagree

/-- The framing of a stream does not depend on its chunks exactly in these two cases. -/
theorem independent_iff (decode : List UInt8 → Except String V) (stream : List UInt8) :
    Independent decode stream ↔ Sound decode stream := by
  constructor
  · intro h
    obtain ⟨frames, rest, hsplit⟩ := exists_split decode stream
    by_cases hbad : Malformed decode rest ∨ Long rest
    · -- Read in one piece, the stream takes its messages with it.
      obtain ⟨framer', error, hpush⟩ := (holds_empty.push decode
        (hsplit.stream ▸ List.nil_append _) hsplit.whole).1 hbad
      have hnone := h.delivers frames rest hsplit [stream] (List.append_nil _)
      rw [receive, hpush] at hnone
      obtain rfl := List.map_eq_nil_iff.mp (List.prefix_nil.mp hnone)
      rw [hsplit.stream]
      exact .inr hbad
    · obtain ⟨hsound, hlong⟩ := not_or.mp hbad
      have hrest := hsplit.stops.resolve_left hsound
      refine .inl ⟨frames, rest, hsplit, hrest, fun frame hframe => ?_, ?_⟩
      · obtain ⟨before, after, rfl⟩ := List.append_of_mem hframe
        have hwhole := hsplit.whole frame hframe
        refine h.short hsplit hlong hrest before (flatten after ++ rest)
          (fun f hf => hsplit.whole f (List.mem_append_left _ hf)) ?_ fun hbytes => ?_
        · rw [hsplit.stream, flatten_append, flatten_cons, List.append_assoc, List.append_assoc]
        · have hunfinished : Unfinished (frame.1 ++ []) := .inl (by simpa using hbytes.1)
          exact hwhole.not_unfinished [] hunfinished
      · exact h.short hsplit hlong hrest frames [] hsplit.whole
          (hsplit.stream.trans (by rw [List.append_nil])) hlong
  · rintro (⟨frames, rest, hsplit, hrest, hshort, hshortRest⟩ | hbad)
    · have hreceive : ∀ chunks : List (List UInt8), chunks.flatten = stream →
          (receive decode {} chunks).messages = frames.map Prod.snd ∧
            (receive decode {} chunks).error = none := by
        intro chunks hchunks
        obtain ⟨framer', heq, -⟩ := receive_short holds_empty unfinished_nil
          (hchunks.trans hsplit.stream) hsplit.whole hshort hrest hshortRest
        rw [heq]
        exact ⟨rfl, rfl⟩
      constructor
      · intro chunks chunks' hchunks hchunks'
        rw [(hreceive chunks hchunks).1, (hreceive chunks' hchunks').1,
          (hreceive chunks hchunks).2, (hreceive chunks' hchunks').2]
        exact ⟨rfl, rfl⟩
      · intro frames' rest' hsplit' chunks hchunks
        have hall : frames'.map Prod.snd = (receive decode {} chunks).messages := by
          rw [(hreceive chunks hchunks).1, hsplit'.unique hsplit]
        exact hall ▸ List.prefix_rfl
    · have hreceive : ∀ chunks : List (List UInt8), chunks.flatten = stream →
          (receive decode {} chunks).messages = [] ∧
            (receive decode {} chunks).error.isSome = true := by
        intro chunks hchunks
        obtain ⟨framer', error, heq⟩ := receive_rejected holds_empty unfinished_nil
          (fun hlong => absurd hlong.2 (by decide)) hchunks hbad
        rw [heq]
        exact ⟨rfl, rfl⟩
      constructor
      · intro chunks chunks' hchunks hchunks'
        rw [(hreceive chunks hchunks).1, (hreceive chunks' hchunks').1,
          (hreceive chunks hchunks).2, (hreceive chunks' hchunks').2]
        exact ⟨rfl, rfl⟩
      · intro frames' rest' hsplit' chunks hchunks
        have hnil : Split decode stream [] stream :=
          ⟨rfl, List.forall_mem_nil _, hbad.imp_right fun hlong => .inl hlong.1⟩
        rw [(hreceive chunks hchunks).1, hsplit'.unique hnil]
        exact List.prefix_rfl

/-- The number that was sent, and a body of no bytes. -/
def decodeOne (bytes : List UInt8) : Except String ℕ :=
  if bytes = encode "1".toList then .ok 1 else .error "EOF while parsing a value"

def oneFrame : List UInt8 := encode "Content-Length: 1\r\n\r\n1".toList

def emptyFrame : List UInt8 := encode "Content-Length: 0\r\n\r\n".toList

/-- A message and a malformed frame: in one chunk, the message is lost. -/
theorem not_independent : ¬Independent decodeOne (oneFrame ++ emptyFrame) := by
  intro h
  have hagree := (h.agree [oneFrame ++ emptyFrame] [oneFrame, emptyFrame] (by decide)
    (by decide)).1
  revert hagree
  decide +kernel

/-! ## What is framed -/

section Frame

variable {encode : V → List UInt8} {message : V}

theorem findHeaderEnd_terminator {header : List UInt8} (hheader : (13 : UInt8) ∉ header)
    (bytes : List UInt8) : findHeaderEnd (header ++ (terminator ++ bytes)) = some header.length := by
  induction header with
  | nil => rfl
  | cons b header ih =>
    obtain ⟨hb, hheader⟩ := not_or.mp (mt List.mem_cons.mpr hheader)
    have hprefix : ¬terminator.isPrefixOf (b :: (header ++ (terminator ++ bytes))) := by
      simp [terminator, hb]
    rw [List.cons_append, findHeaderEnd, if_neg hprefix, ih hheader]
    rfl

theorem splitCrlf_of_not_mem {text : List Char} (line : List Char) (h : '\r' ∉ text) :
    splitCrlf line text = [line ++ text] := by
  induction text generalizing line with
  | nil => simp [splitCrlf]
  | cons c text ih =>
    obtain ⟨hc, htext⟩ := not_or.mp (mt List.mem_cons.mpr h)
    rw [splitCrlf, ih _ htext, List.append_assoc]
    · rfl
    · rintro - rfl
      exact absurd rfl hc

/-- What the digits of a length are not. -/
structure Digit (c : Char) : Prop where
  isDigit : c.isDigit
  ascii : c.toNat < 0x80
  not_cr : c ≠ '\r'
  not_colon : c ≠ ':'
  not_plus : c ≠ '+'
  not_space : isWhitespace c = false

theorem digit_of_mem {c : Char} {n : ℕ} (h : c ∈ Nat.toDigits 10 n) : Digit c := by
  have hdigit := Nat.isDigit_of_mem_toDigits (by decide) (by decide) h
  obtain ⟨hlow, hhigh⟩ := toNat_of_isDigit hdigit
  refine ⟨hdigit, by omega, ?_, ?_, ?_, ?_⟩
  · rintro rfl
    exact absurd hlow (by decide)
  · rintro rfl
    exact absurd hhigh (by decide)
  · rintro rfl
    exact absurd hlow (by decide)
  · simp [isWhitespace]
    omega

theorem trim_of_forall {text : List Char} (h : ∀ c ∈ text, isWhitespace c = false) :
    trim text = text := by
  have hkeep : ∀ text : List Char, (∀ c ∈ text, isWhitespace c = false) →
      text.dropWhile isWhitespace = text := by
    intro text h
    cases text with
    | nil => rfl
    | cons c text => rw [List.dropWhile_cons_of_neg (by simp [h c List.mem_cons_self])]
  rw [trim, hkeep text h, hkeep _ fun c hc => h c (List.mem_reverse.mp hc), List.reverse_reverse]

theorem parseUsize_of_not_plus {raw : List Char} (h : '+' ∉ raw) :
    parseUsize raw = if raw ≠ [] ∧ raw.all Char.isDigit ∧ Nat.ofDigitChars 10 raw 0 < 2 ^ 64 then
      some (Nat.ofDigitChars 10 raw 0) else none := by
  cases raw with
  | nil => rfl
  | cons c raw =>
    have hc : c ≠ '+' := fun hc => h (hc ▸ List.mem_cons_self)
    simp [parseUsize, hc]

theorem parseUsize_toDigits {n : ℕ} (h : n < 2 ^ 64) : parseUsize (Nat.toDigits 10 n) = some n := by
  have hdigits : (Nat.toDigits 10 n).all Char.isDigit :=
    List.all_eq_true.mpr fun c hc => (digit_of_mem hc).isDigit
  rw [parseUsize_of_not_plus fun hmem => (digit_of_mem hmem).not_plus rfl,
    Nat.ofDigitChars_ten_toDigits, if_pos ⟨Nat.toDigits_ne_nil, hdigits, h⟩]

def fieldName : List Char :=
  ['C', 'o', 'n', 't', 'e', 'n', 't', '-', 'L', 'e', 'n', 'g', 't', 'h']

def headerText (n : ℕ) : List Char := fieldName ++ ':' :: ' ' :: Nat.toDigits 10 n

theorem mem_headerText {c : Char} {n : ℕ} (h : c ∈ headerText n) : c.toNat < 0x80 ∧ c ≠ '\r' := by
  have hname : ∀ c ∈ fieldName ++ [':', ' '], c.toNat < 0x80 ∧ c ≠ '\r' :=
    List.all_iff_forall_prop.mp (by decide)
  have hsplit : headerText n = fieldName ++ [':', ' '] ++ Nat.toDigits 10 n := by
    rw [List.append_assoc]
    rfl
  rw [hsplit, List.mem_append] at h
  rcases h with h | h
  · exact hname c h
  · exact ⟨(digit_of_mem h).ascii, (digit_of_mem h).not_cr⟩

theorem splitOn_headerText (n : ℕ) :
    (headerText n).splitOn ':' = [fieldName, ' ' :: Nat.toDigits 10 n] := by
  have hdigits : ':' ∉ ' ' :: Nat.toDigits 10 n := by
    rw [List.mem_cons, not_or]
    exact ⟨by decide, fun h => (digit_of_mem h).not_colon rfl⟩
  rw [headerText, List.splitOn_append_cons_self_of_not_mem (by decide),
    List.splitOn_eq_singleton hdigits]

theorem trim_digits (n : ℕ) : trim (' ' :: Nat.toDigits 10 n) = Nat.toDigits 10 n :=
  (show trim (' ' :: Nat.toDigits 10 n) = trim (Nat.toDigits 10 n) from rfl).trans
    (trim_of_forall fun _ hc => (digit_of_mem hc).not_space)

theorem contentLength_headerText {n : ℕ} (hpos : n ≠ 0) (hmax : n ≤ maxLspMessage) :
    contentLength (headerText n) = .ok n := by
  have hsplit : splitCrlf [] (headerText n) = [headerText n] :=
    splitCrlf_of_not_mem [] fun h => (mem_headerText h).2 rfl
  have hkey : contentLengthKey.isPrefixOf ((headerText n).map Char.toLower) := by
    have hlower : contentLengthKey = (fieldName ++ [':']).map Char.toLower := by decide +kernel
    have hsplit : headerText n = fieldName ++ [':'] ++ (' ' :: Nat.toDigits 10 n) := by
      rw [List.append_assoc]
      rfl
    rw [List.isPrefixOf_iff_prefix, hlower, hsplit, List.map_append]
    exact List.prefix_append _ _
  have hlimit : ¬(n = 0 ∨ maxLspMessage < n) := by omega
  have husize : n < 2 ^ 64 := Nat.lt_of_le_of_lt hmax (by decide +kernel)
  simp only [contentLength, hsplit, List.filter_cons, hkey, if_true, List.filter_nil,
    splitOn_headerText, List.getElem?_cons_succ, List.getElem?_cons_zero, Option.getD_some,
    trim_digits, parseUsize_toDigits husize, if_neg hlimit]

theorem frame_eq (encode : V → List UInt8) (message : V) :
    frame encode message = Utf8.encode (headerText (encode message).length) ++
      (terminator ++ encode message) := by
  have hfield : "Content-Length: ".toList = fieldName ++ [':', ' '] := by decide +kernel
  have hterminator : Utf8.encode "\r\n\r\n".toList = terminator := by decide +kernel
  rw [frame, encode_append, hterminator, hfield, List.append_assoc, List.append_assoc]
  rfl

theorem length_headerText {n : ℕ} (hmax : n ≤ maxLspMessage) : (headerText n).length ≤ 23 := by
  have hdigits : (Nat.toDigits 10 n).length ≤ 7 :=
    (Nat.length_toDigits_le_iff (by decide) (by decide)).mpr
      (Nat.lt_of_le_of_lt hmax (by decide +kernel))
  have hname : fieldName.length = 14 := rfl
  simp only [headerText, List.length_append, List.length_cons]
  omega

theorem encode_headerText (n : ℕ) :
    (13 : UInt8) ∉ Utf8.encode (headerText n) ∧
      (Utf8.encode (headerText n)).length = (headerText n).length := by
  rw [encode_ascii fun c hc => (mem_headerText hc).1]
  refine ⟨fun hmem => ?_, List.length_map _⟩
  obtain ⟨c, hc, heq⟩ := List.mem_map.mp hmem
  obtain ⟨hlow, hne⟩ := mem_headerText hc
  have hval := congrArg UInt8.toNat heq
  rw [toNat_ofNat (by omega)] at hval
  exact hne (Char.toNat_inj.mp hval)

theorem frame_whole (hpos : (encode message).length ≠ 0)
    (hmax : (encode message).length ≤ maxLspMessage)
    (hserde : decode (encode message) = .ok message) :
    Frame decode (frame encode message) message ∧ Short (frame encode message) := by
  obtain ⟨hcr, hlength⟩ := encode_headerText (encode message).length
  have hends := findHeaderEnd_terminator hcr (encode message)
  have hbound := length_headerText hmax
  rw [frame_eq]
  constructor
  · refine ⟨_, (encode message).length, ⟨hends, ?_⟩, ?_, ?_⟩
    · rw [List.take_left, lossy_encode, contentLength_headerText hpos hmax]
    · rw [List.length_append, List.length_append]
      exact (Nat.add_assoc _ _ _).symm
    · rw [← List.append_assoc, List.drop_left' (by rw [List.length_append]; rfl), hserde]
  · rw [Short, hends]
    simp only
    omega

def framed (encode : V → List UInt8) (messages : List V) : List (List UInt8 × V) :=
  messages.map fun message => (frame encode message, message)

theorem flatten_framed (encode : V → List UInt8) (messages : List V) :
    flatten (framed encode messages) = messages.flatMap (frame encode) := by
  rw [flatten, framed, List.map_map]
  rfl

theorem map_snd_framed (encode : V → List UInt8) (messages : List V) :
    (framed encode messages).map Prod.snd = messages := by
  rw [framed, List.map_map]
  exact List.map_id messages

/-- Whatever the pipe does to them, the messages come out as they were sent, and nothing is
left. -/
theorem receive_frames (encode : V → List UInt8) (decode : List UInt8 → Except String V)
    (messages : List V)
    (hlength : ∀ message ∈ messages,
      1 ≤ (encode message).length ∧ (encode message).length ≤ maxLspMessage)
    (hserde : ∀ message ∈ messages, decode (encode message) = .ok message)
    (chunks : List (List UInt8)) (hchunks : chunks.flatten = messages.flatMap (frame encode)) :
    receive decode {} chunks = ⟨messages, {}, none⟩ := by
  have hwhole : ∀ message ∈ messages,
      Frame decode (frame encode message) message ∧ Short (frame encode message) := fun message h =>
    frame_whole (Nat.ne_of_gt (hlength message h).1) (hlength message h).2 (hserde message h)
  have hstream : [] ++ chunks.flatten = flatten (framed encode messages) ++ [] := by
    rw [flatten_framed, List.append_nil, hchunks]
    rfl
  obtain ⟨framer, hreceive, hholds⟩ := receive_short holds_empty unfinished_nil hstream
    (List.forall_mem_map.mpr fun message h => (hwhole message h).1)
    (List.forall_mem_map.mpr fun message h => (hwhole message h).2)
    unfinished_nil (Nat.zero_le _)
  have hempty : framer = {} := by
    simp only [Holds] at hholds
    split at hholds
    · rename_i hexpected
      cases framer
      simp_all
    · obtain ⟨position, hheader, -⟩ := hholds
      exact absurd hheader (not_header_of_none rfl _ _)
  rw [hreceive, hempty, map_snd_framed]

def encodeBool (value : Bool) : List UInt8 := Utf8.encode (toString value).toList

def decodeBool (bytes : List UInt8) : Except String Bool :=
  if bytes = encodeBool true then .ok true
  else if bytes = encodeBool false then .ok false else .error "expected value"

/-- Two messages, cut inside the first header and inside the second body. -/
theorem receive_frames_cut :
    receive decodeBool {} [(frame encodeBool true).take 5, [],
        (frame encodeBool true).drop 5 ++ (frame encodeBool false).take 22,
        (frame encodeBool false).drop 22] = ⟨[true, false], {}, none⟩ :=
  receive_frames encodeBool decodeBool [true, false] (by decide +kernel) (by decide +kernel) _
    (by decide +kernel)

end Frame

end Atomis.Lsp
