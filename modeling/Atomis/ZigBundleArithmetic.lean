import Atomis.Lib.Logged
import Atomis.ZigErrorBundle

/-!
# Sums and reads of the renderer

The renderer of an error bundle again, with every sum it forms and every range it reads logged. A
`usize` has 64 bits. The walk over the bundle lists what the renderer comes to before it is done
or finds the bundle malformed: the places whose offsets or numbers can leave a word.
-/

namespace Atomis.ZigErrorBundle
open Utf8

inductive Event
  | u32 (value : ℕ)
  | usize (value : ℕ)
  | read (first last : ℕ)
deriving DecidableEq

def Event.Good (body : List UInt8) : Event → Prop
  | .u32 value => value < 2 ^ 32
  | .usize value => value < 2 ^ 64
  | .read first last => first ≤ last ∧ last ≤ body.length

abbrev Run := Logged Event String

def u32Sum (value : ℕ) : Run ℕ := .log (.u32 value) (u32 value)

def usizeSum (value : ℕ) : Run ℕ := .log (.usize value) value

def runMalformed {α : Type} : Run α := .fail "malformed error bundle"

/-- `body.get(at..at + 4)` -/
def runWord (body : List UInt8) (position : ℕ) : Run (Option ℕ) := do
  let last ← usizeSum (position + 4)
  match word body position with
  | some value => .log (.read position last) (some value)
  | none => pure none

/-- The body behind its header: where its words end, how many there are, and the strings. -/
structure Tape where
  body : List UInt8
  extraLen : ℕ
  extraEnd : ℕ
  strings : List UInt8

namespace Tape

variable (tape : Tape)

/-- A word counts where its index is below `extra_len`. -/
def inside (index : ℕ) : Option ℕ → Run ℕ
  | some value => if index < tape.extraLen then pure value else runMalformed
  | none => runMalformed

def extra (index : ℕ) : Run ℕ := do
  let offset ← usizeSum (index * 4)
  let position ← usizeSum (8 + offset)
  tape.inside index (← runWord tape.body position)

def text (offset : ℕ) : Run (List Char) :=
  let tail := tape.strings.drop offset
  .log (.read (tape.extraEnd + min offset tape.strings.length)
    (tape.extraEnd + tape.strings.length)) (lossy (tail.takeWhile (· ≠ 0)))

def location (loc : ℕ) : Run (List Char) := do
  let path ← tape.text (← tape.extra loc)
  let line ← u32Sum ((← tape.extra (← u32Sum (loc + 1))) + 1)
  let column ← u32Sum ((← tape.extra (← u32Sum (loc + 2))) + 1)
  pure (path ++ ':' :: decimal line ++ ':' :: decimal column)

def place (loc : ℕ) : Run (List Char) :=
  if loc = 0 then pure []
  else do
    let text ← tape.location loc
    pure (text ++ ": ".toList)

def reference (loc r : ℕ) : Run (List Char) := do
  let first ← u32Sum (loc + 8)
  let offset ← u32Sum (r * 2)
  let entry ← u32Sum (first + offset)
  let name ← tape.extra entry
  let src ← tape.extra (← u32Sum (entry + 1))
  if src ≠ 0 then
    let name ← tape.text name
    let place ← tape.location src
    pure ("    ".toList ++ name ++ ": ".toList ++ place ++ ['\n'])
  else pure []

def trace (loc : ℕ) : Run (List Char) :=
  if loc = 0 then pure []
  else do
    let references ← tape.extra (← u32Sum (loc + 7))
    if references > 0 then
      let lines ← Logged.forEach (tape.reference loc) 0 references
      pure ("referenced by:\n".toList ++ lines)
    else pure []

/-- `levels` is 9 less `depth`. -/
def render : ℕ → ℕ → List Char → Run (List Char)
  | 0, _, _ => .fail "error bundle nests too deep"
  | levels + 1, index, kind => do
    let message ← tape.text (← tape.extra index)
    let loc ← tape.extra (← u32Sum (index + 2))
    let notes ← tape.extra (← u32Sum (index + 3))
    let place ← tape.place loc
    let noteLines ← Logged.forEach (fun n => do
      let first ← u32Sum (index + 4)
      let note ← tape.extra (← u32Sum (first + n))
      let _depth ← u32Sum (9 - levels)
      render levels note "note".toList) 0 notes
    let traceLines ← tape.trace loc
    pure (place ++ kind ++ ": ".toList ++ message ++ ['\n'] ++ noteLines ++ traceLines)

end Tape

def runErrorBundle (body : List UInt8) : Run (List Char) := do
  match ← runWord body 0 with
  | none => runMalformed
  | some extraLen =>
    match ← runWord body 4 with
    | none => runMalformed
    | some stringsLen =>
      if extraLen = 0 then pure []
      else do
        let size ← usizeSum (extraLen * 4)
        let extraEnd ← usizeSum (8 + size)
        let last ← usizeSum (extraEnd + stringsLen)
        if last ≤ body.length then do
          let strings ← (.log (.read extraEnd last) ((body.drop extraEnd).take stringsLen) :
            Run (List UInt8))
          let tape : Tape := ⟨body, extraLen, extraEnd, strings⟩
          let count ← tape.extra 0
          let start ← tape.extra 1
          Logged.forEach (fun i => do
            let index ← tape.extra (← u32Sum (start + i))
            tape.render 9 index "error".toList) 0 count
        else runMalformed

/-! ## What the renderer comes to -/

inductive Spot
  | message (index : ℕ)
  | number (value : ℕ)
  | trace (loc : ℕ)
deriving DecidableEq

/-- A message is not at the end of what a word can point at, nor is a location whose references
are asked for, and a line or a column is not the largest word. -/
def Spot.Fits : Spot → Prop
  | .message index => index + 2 < 2 ^ 32
  | .number value => value + 1 < 2 ^ 32
  | .trace loc => loc + 7 < 2 ^ 32

section Walks

variable (extra : ℕ → Option ℕ)

def walkLocation (loc : ℕ) : Walk Spot :=
  .onSome (extra loc) fun _ =>
    .onSome (extra (loc + 1)) fun line => (Walk.mark (.number line)).andThen <|
      .onSome (extra (loc + 2)) fun column => .mark (.number column)

def walkPlace (loc : ℕ) : Walk Spot := if loc = 0 then .done else walkLocation extra loc

def walkReference (loc r : ℕ) : Walk Spot :=
  .onSome (extra (loc + 8 + r * 2)) fun _ =>
    .onSome (extra (loc + 8 + r * 2 + 1)) fun src =>
      if src ≠ 0 then walkLocation extra src else .done

def walkTrace (loc : ℕ) : Walk Spot :=
  if loc = 0 then .done
  else (Walk.mark (.trace loc)).andThen <|
    .onSome (extra (loc + 7)) fun references => .forEach (walkReference extra loc) 0 references

def walkMessage : ℕ → ℕ → Walk Spot
  | 0, _ => .stuck
  | levels + 1, index =>
    .onSome (extra index) fun _ => (Walk.mark (.message index)).andThen <|
      .onSome (extra (index + 2)) fun loc => .onSome (extra (index + 3)) fun notes =>
        (walkPlace extra loc).andThen <|
          (Walk.forEach (fun n => .onSome (extra (index + 4 + n)) fun note =>
            walkMessage levels note) 0 notes).andThen (walkTrace extra loc)

end Walks

/-- The words of a body, where there are `extraLen` of them. -/
def wordOf (body : List UInt8) (extraLen index : ℕ) : Option ℕ :=
  if index < extraLen then word body (8 + index * 4) else none

def walkBundle (body : List UInt8) : Walk Spot :=
  match word body 0, word body 4 with
  | some extraLen, some stringsLen =>
    if extraLen = 0 then .done
    else if 8 + extraLen * 4 + stringsLen ≤ body.length then
      let extra := wordOf body extraLen
      .onSome (extra 0) fun count => .onSome (extra 1) fun start =>
        .forEach (fun i => .onSome (extra (start + i)) fun index => walkMessage extra 9 index) 0 count
    else .stuck
  | _, _ => .stuck

/-! ## Reads -/

theorem word_bound {body : List UInt8} {position value : ℕ} (h : word body position = some value) :
    position + 4 ≤ body.length ∧ value < 2 ^ 32 := by
  unfold word at h
  split at h
  · next a b c d hfour =>
    have hlength := congrArg List.length hfour
    simp only [List.length_take, List.length_drop, List.length_cons, List.length_nil] at hlength
    have := a.toNat_lt
    have := b.toNat_lt
    have := c.toNat_lt
    have := d.toNat_lt
    have hvalue := Option.some.inj h
    omega
  · cases h

theorem runWord_safe {body : List UInt8} {position : ℕ} (h : position < 2 ^ 40) :
    (runWord body position).Safe (Event.Good body) := by
  have hsum : (usizeSum (position + 4)).Safe (Event.Good body) :=
    (Logged.safe_log _ _).mpr (show position + 4 < 2 ^ 64 by omega)
  refine (Logged.safe_bind_ok rfl).mpr ⟨hsum, ?_⟩
  cases hword : word body position with
  | none => exact Logged.safe_pure _
  | some value =>
    exact (Logged.safe_log _ _).mpr ⟨Nat.le_add_right _ _, (word_bound hword).1⟩

@[simp] theorem runWord_result (body : List UInt8) (position : ℕ) :
    (runWord body position).result = .ok (word body position) := by
  rw [runWord]
  cases word body position <;> rfl

/-- A tape as the header of its body makes it. -/
structure Tape.Cut (tape : Tape) : Prop where
  words : tape.extraLen < 2 ^ 32
  first : tape.extraEnd = 8 + tape.extraLen * 4
  last : tape.extraEnd + tape.strings.length ≤ tape.body.length

namespace Tape

variable {tape : Tape}

abbrev word (tape : Tape) (index : ℕ) : Option ℕ := wordOf tape.body tape.extraLen index

theorem word_lt {index value : ℕ} (h : tape.word index = some value) :
    index < tape.extraLen ∧ value < 2 ^ 32 := by
  rw [word, wordOf] at h
  split_ifs at h with hlt
  exact ⟨hlt, (word_bound h).2⟩

theorem inside_safe (index : ℕ) (found : Option ℕ) :
    (tape.inside index found).Safe (Event.Good tape.body) := by
  cases found with
  | none => exact Logged.safe_fail _
  | some value =>
    rw [inside]
    split_ifs
    · exact Logged.safe_pure _
    · exact Logged.safe_fail _

theorem extra_safe {index : ℕ} (h : index < 2 ^ 32) :
    (tape.extra index).Safe (Event.Good tape.body) := by
  refine (Logged.safe_bind_ok rfl).mpr ⟨(Logged.safe_log _ _).mpr ?_, ?_⟩
  · show index * 4 < 2 ^ 64
    omega
  refine (Logged.safe_bind_ok rfl).mpr ⟨(Logged.safe_log _ _).mpr ?_, ?_⟩
  · show 8 + index * 4 < 2 ^ 64
    omega
  exact (Logged.safe_bind_ok (runWord_result _ _)).mpr ⟨runWord_safe (by omega), inside_safe _ _⟩

theorem extra_result (tape : Tape) (index : ℕ) :
    (tape.extra index).result = (tape.word index).elim (.error "malformed error bundle") .ok := by
  have hinside : (tape.extra index).result =
      (tape.inside index (ZigErrorBundle.word tape.body (8 + index * 4))).result := by
    simp only [extra, usizeSum, Logged.result_bind, Logged.result_log, runWord_result]
    rfl
  rw [hinside, word, wordOf]
  cases ZigErrorBundle.word tape.body (8 + index * 4) with
  | none =>
    rw [ite_self]
    rfl
  | some value =>
    rw [inside]
    split_ifs <;> rfl

/-- The renderer and the walk over a tape. -/
abbrev Agrees {α : Type} (tape : Tape) (x : Run α) (w : Walk Spot) : Prop :=
  Logged.Agrees (Event.Good tape.body) Spot.Fits x w

/-! ## One step at a time -/

theorem Agrees.read {α : Type} {f : ℕ → Run α} {next : ℕ → Walk Spot} {index : ℕ}
    (h : index < 2 ^ 32)
    (hf : ∀ value, tape.word index = some value → tape.Agrees (f value) (next value)) :
    tape.Agrees (tape.extra index >>= f) (.onSome (tape.word index) next) :=
  Logged.agrees_read (extra_safe h) (extra_result tape index) hf

theorem Agrees.sum {α : Type} {f : ℕ → Run α} {w : Walk Spot} {value : ℕ} (h : value < 2 ^ 32)
    (hf : tape.Agrees (f value) w) : tape.Agrees (u32Sum value >>= f) w := by
  refine Logged.agrees_skip (a := value) ((Logged.safe_log _ _).mpr h) ?_ hf
  rw [u32Sum, Logged.result_log, u32, Nat.mod_eq_of_lt h]

/-- A sum that overflows exactly where the spot does not fit. -/
theorem Agrees.mark {α : Type} {f : ℕ → Run α} {w : Walk Spot} {value : ℕ} {spot : Spot}
    (hspot : spot.Fits ↔ value < 2 ^ 32) (hf : value < 2 ^ 32 → tape.Agrees (f value) w) :
    tape.Agrees (u32Sum value >>= f) ((Walk.mark spot).andThen w) := by
  refine Logged.agrees_mark hspot.symm fun h => ?_
  rw [u32, Nat.mod_eq_of_lt h]
  exact hf h

theorem Agrees.text {α : Type} {f : List Char → Run α} {w : Walk Spot} {offset : ℕ}
    (hcut : tape.Cut) (hf : ∀ text, tape.Agrees (f text) w) :
    tape.Agrees (tape.text offset >>= f) w := by
  refine Logged.agrees_skip ((Logged.safe_log _ _).mpr ⟨?_, hcut.last⟩) (Logged.result_log _ _)
    (hf _)
  exact Nat.add_le_add_left (Nat.min_le_right _ _) _

theorem location_agrees (hcut : tape.Cut) {loc : ℕ} (h : loc < 2 ^ 32) :
    tape.Agrees (tape.location loc) (walkLocation tape.word loc) := by
  have hwords := hcut.words
  refine Agrees.read h fun path hpath => Agrees.text hcut fun path => ?_
  have hloc := (word_lt hpath).1
  refine Agrees.sum (by omega) (Agrees.read (by omega) fun line hline => ?_)
  refine Agrees.mark Iff.rfl fun _ => ?_
  have hnext := (word_lt hline).1
  refine Agrees.sum (by omega) (Agrees.read (by omega) fun column hcolumn => ?_)
  rw [← Walk.andThen_done (Walk.mark _)]
  exact Agrees.mark Iff.rfl fun _ => Logged.agrees_pure _

theorem place_agrees (hcut : tape.Cut) {loc : ℕ} (h : loc < 2 ^ 32) :
    tape.Agrees (tape.place loc) (walkPlace tape.word loc) := by
  rw [place, walkPlace]
  split_ifs
  · exact Logged.agrees_pure []
  · exact (location_agrees hcut h).then_pure fun text => text ++ ": ".toList

theorem reference_agrees (hcut : tape.Cut) {loc r : ℕ} (h : loc + 8 + r * 2 < 2 ^ 32) :
    tape.Agrees (tape.reference loc r) (walkReference tape.word loc r) := by
  have hwords := hcut.words
  refine Agrees.sum (by omega) (Agrees.sum (by omega) (Agrees.sum h ?_))
  refine Agrees.read h fun name hname => ?_
  have hentry := (word_lt hname).1
  refine Agrees.sum (by omega) (Agrees.read (by omega) fun src hsrc => ?_)
  split_ifs
  · refine Agrees.text hcut fun name => ?_
    exact (location_agrees hcut (word_lt hsrc).2).then_pure fun place =>
      "    ".toList ++ name ++ ": ".toList ++ place ++ ['\n']
  · exact Logged.agrees_pure []

theorem trace_agrees (hcut : tape.Cut) (loc : ℕ) :
    tape.Agrees (tape.trace loc) (walkTrace tape.word loc) := by
  have hwords := hcut.words
  rw [trace, walkTrace]
  split_ifs
  · exact Logged.agrees_pure []
  refine Agrees.mark Iff.rfl fun h => Agrees.read h fun references hreferences => ?_
  have hloc := (word_lt hreferences).1
  by_cases hnone : references > 0
  · rw [if_pos hnone]
    refine Logged.Agrees.then_pure ?_ fun lines => "referenced by:\n".toList ++ lines
    refine Logged.forEach_agrees (H := fun r => loc + 8 + r * 2 < 2 ^ 32)
      (fun r hr => reference_agrees hcut hr) (fun r hr hfinished => ?_) references (by omega)
    -- an entry that was read is followed by room for the next
    obtain ⟨name, -, hrest⟩ := Walk.finished_onSome hfinished
    obtain ⟨src, hsrc, -⟩ := Walk.finished_onSome hrest
    have hentry := (word_lt hsrc).1
    show loc + 8 + (r + 1) * 2 < 2 ^ 32
    omega
  · rw [if_neg hnone]
    obtain rfl : references = 0 := by omega
    exact Logged.agrees_pure []

theorem render_agrees (hcut : tape.Cut) (levels : ℕ) (hlevels : levels ≤ 9) :
    ∀ {index : ℕ} (kind : List Char), index < 2 ^ 32 →
      tape.Agrees (tape.render levels index kind) (walkMessage tape.word levels index) := by
  have hwords := hcut.words
  induction levels with
  | zero =>
    intro index kind _
    exact Logged.agrees_fail _
  | succ levels ih =>
    intro index kind h
    rw [render, walkMessage]
    refine Agrees.read h fun message hmessage => Agrees.text hcut fun message => ?_
    have hindex := (word_lt hmessage).1
    refine Agrees.mark Iff.rfl fun h2 => Agrees.read h2 fun loc hloc => ?_
    have hnext := (word_lt hloc).1
    refine Agrees.sum (by omega) (Agrees.read (by omega) fun notes hnotes => ?_)
    have hlast := (word_lt hnotes).1
    refine (place_agrees hcut (word_lt hloc).2).bind fun _ place _ _ => ?_
    refine Logged.Agrees.bind ?_ fun _ lines _ _ =>
      (trace_agrees hcut loc).then_pure fun trace =>
        place ++ kind ++ ": ".toList ++ message ++ ['\n'] ++ lines ++ trace
    refine Logged.forEach_agrees (H := fun n => index + 4 + n < 2 ^ 32) (fun n hn => ?_)
      (fun n hn hfinished => ?_) notes (by omega)
    · refine Agrees.sum (by omega) (Agrees.sum hn (Agrees.read hn fun note hnote => ?_))
      exact Agrees.sum (by omega) (ih (by omega) _ (word_lt hnote).2)
    · obtain ⟨note, hnote, -⟩ := Walk.finished_onSome hfinished
      have := (word_lt hnote).1
      show index + 4 + (n + 1) < 2 ^ 32
      omega

end Tape

/-! ## A whole body -/

theorem sum_agrees {body : List UInt8} {α : Type} {f : ℕ → Run α} {w : Walk Spot} {value : ℕ}
    (h : value < 2 ^ 64) (hf : Logged.Agrees (Event.Good body) Spot.Fits (f value) w) :
    Logged.Agrees (Event.Good body) Spot.Fits (usizeSum value >>= f) w :=
  Logged.agrees_skip ((Logged.safe_log _ _).mpr h) (Logged.result_log _ _) hf

/-- The messages of the list, once the header is read. -/
theorem table_agrees {tape : Tape} (hcut : tape.Cut) :
    tape.Agrees (do
      let count ← tape.extra 0
      let start ← tape.extra 1
      Logged.forEach (fun i => do
        let index ← tape.extra (← u32Sum (start + i))
        tape.render 9 index "error".toList) 0 count)
      (.onSome (tape.word 0) fun count => .onSome (tape.word 1) fun start =>
        .forEach (fun i => .onSome (tape.word (start + i)) fun index =>
          walkMessage tape.word 9 index) 0 count) := by
  have hwords := hcut.words
  refine Tape.Agrees.read (by omega) fun count hcount => ?_
  refine Tape.Agrees.read (by omega) fun start hstart => ?_
  have hlt := (Tape.word_lt hstart).2
  refine Logged.forEach_agrees (H := fun i => start + i < 2 ^ 32) (fun i hi => ?_)
    (fun i hi hfinished => ?_) count hlt
  · refine Tape.Agrees.sum hi (Tape.Agrees.read hi fun index hindex => ?_)
    exact Tape.render_agrees hcut 9 (by omega) _ (Tape.word_lt hindex).2
  · obtain ⟨index, hindex, -⟩ := Walk.finished_onSome hfinished
    have := (Tape.word_lt hindex).1
    show start + (i + 1) < 2 ^ 32
    omega

theorem runErrorBundle_agrees (body : List UInt8) :
    Logged.Agrees (Event.Good body) Spot.Fits (runErrorBundle body) (walkBundle body) := by
  rw [runErrorBundle, walkBundle]
  refine Logged.agrees_skip (runWord_safe (by omega)) (runWord_result body 0) ?_
  cases hextra : word body 0 with
  | none => exact Logged.agrees_fail _
  | some extraLen =>
    refine Logged.agrees_skip (runWord_safe (by omega)) (runWord_result body 4) ?_
    cases hstrings : word body 4 with
    | none => exact Logged.agrees_fail _
    | some stringsLen =>
      dsimp only
      have hlen := (word_bound hextra).2
      have hstr := (word_bound hstrings).2
      split_ifs with hempty hfits
      · exact Logged.agrees_pure []
      · refine sum_agrees (by omega) (sum_agrees (by omega) (sum_agrees (by omega) ?_))
        rw [if_pos hfits]
        refine Logged.agrees_skip ((Logged.safe_log _ _).mpr ⟨Nat.le_add_right _ _, hfits⟩)
          (Logged.result_log _ _) ?_
        have hcut : Tape.Cut ⟨body, extraLen, 8 + extraLen * 4,
            (body.drop (8 + extraLen * 4)).take stringsLen⟩ := by
          refine ⟨hlen, rfl, ?_⟩
          simp only [List.length_take, List.length_drop]
          omega
        exact table_agrees hcut
      · refine sum_agrees (by omega) (sum_agrees (by omega) (sum_agrees (by omega) ?_))
        rw [if_neg hfits]
        exact Logged.agrees_fail _

/-! ## The same text -/

theorem forEach_result (step : ℕ → Run (List Char)) (first count : ℕ) :
    (Logged.forEach step first count).result = forEach (fun n => (step n).result) first count := by
  induction count generalizing first with
  | zero => rfl
  | succ count ih =>
    rw [Logged.forEach, forEach, Logged.result_bind]
    simp only [Logged.result_bind, Logged.result_pure, ih]

/-- The bundle that a tape gives. -/
def Tape.bundle (tape : Tape) : Bundle where
  extra index := (tape.extra index).result
  strings := tape.strings

namespace Tape

variable (tape : Tape)

@[simp] theorem text_result (offset : ℕ) :
    (tape.text offset).result = .ok (tape.bundle.text offset) := rfl

@[simp] theorem u32Sum_result (value : ℕ) : (u32Sum value).result = .ok (u32 value) := rfl

theorem extra_bundle (index : ℕ) : (tape.extra index).result = tape.bundle.extra index := rfl

theorem ok_bind {α β : Type} (a : α) (f : α → Except String β) :
    (Except.ok a >>= f) = f a := rfl

theorem location_result (loc : ℕ) : (tape.location loc).result = tape.bundle.location loc := by
  simp only [location, Bundle.location, Logged.result_bind, text_result, u32Sum_result,
    extra_bundle, Logged.result_pure, ok_bind]

theorem place_result (loc : ℕ) : (tape.place loc).result = tape.bundle.place loc := by
  rw [place, Bundle.place]
  split_ifs
  · rfl
  · rw [Logged.result_bind, location_result]
    rfl

theorem u32_add (m n : ℕ) : u32 (u32 m + u32 n) = u32 (m + n) := (Nat.add_mod m n _).symm

theorem u32_add_left (m n : ℕ) : u32 (u32 m + n) = u32 (m + n) := Nat.mod_add_mod m _ n

theorem reference_result (loc r : ℕ) :
    (tape.reference loc r).result = tape.bundle.reference loc r := by
  simp only [reference, Bundle.reference, Logged.result_bind, text_result, u32Sum_result,
    extra_bundle, location_result, apply_ite Logged.result, Logged.result_pure, ok_bind, u32_add]

theorem trace_result (loc : ℕ) : (tape.trace loc).result = tape.bundle.trace loc := by
  simp only [trace, Bundle.trace, Logged.result_bind, u32Sum_result, extra_bundle, forEach_result,
    reference_result, apply_ite Logged.result, Logged.result_pure, ok_bind]

theorem render_result (levels index : ℕ) (kind : List Char) :
    (tape.render levels index kind).result = tape.bundle.render levels index kind := by
  induction levels generalizing index kind with
  | zero => rfl
  | succ levels ih =>
    simp only [render, Bundle.render, Logged.result_bind, text_result, u32Sum_result, extra_bundle,
      place_result, trace_result, forEach_result, ih, Logged.result_pure, ok_bind, u32_add_left]

theorem bundle_eq : tape.bundle =
    { extra := fun index =>
        match ZigErrorBundle.word tape.body (8 + index * 4) with
        | some value => if index < tape.extraLen then .ok value else malformed
        | none => malformed
      strings := tape.strings } := by
  rw [bundle, Bundle.mk.injEq]
  refine ⟨funext fun index => ?_, rfl⟩
  rw [extra_result, word, wordOf]
  cases ZigErrorBundle.word tape.body (8 + index * 4) with
  | none =>
    rw [ite_self]
    rfl
  | some value =>
    dsimp only
    split_ifs <;> rfl

theorem table_result : (do
      let count ← tape.extra 0
      let start ← tape.extra 1
      Logged.forEach (fun i => do
        let index ← tape.extra (← u32Sum (start + i))
        tape.render 9 index "error".toList) 0 count : Run (List Char)).result =
    (do
      let count ← tape.bundle.extra 0
      let start ← tape.bundle.extra 1
      forEach (fun i => do
        let index ← tape.bundle.extra (u32 (start + i))
        tape.bundle.render 9 index "error".toList) 0 count) := by
  simp only [Logged.result_bind, u32Sum_result, extra_bundle, forEach_result, render_result,
    ok_bind]

end Tape

/-- What is logged is the renderer that prints. -/
theorem runErrorBundle_result (body : List UInt8) :
    (runErrorBundle body).result = renderErrorBundle body := by
  rw [runErrorBundle, renderErrorBundle, Logged.result_bind, runWord_result, Tape.ok_bind]
  cases word body 0 with
  | none => rfl
  | some extraLen =>
    dsimp only
    rw [Logged.result_bind, runWord_result, Tape.ok_bind]
    cases word body 4 with
    | none => rfl
    | some stringsLen =>
      dsimp only
      by_cases hempty : extraLen = 0
      · rw [if_pos hempty, if_pos hempty]
        rfl
      rw [if_neg hempty, if_neg hempty]
      by_cases hfits : 8 + extraLen * 4 + stringsLen ≤ body.length
      · rw [if_pos hfits]
        simp only [usizeSum, Logged.result_bind, Logged.result_log, Tape.ok_bind, if_pos hfits]
        have htable := Tape.table_result ⟨body, extraLen, 8 + extraLen * 4,
          (body.drop (8 + extraLen * 4)).take stringsLen⟩
        rw [Tape.bundle_eq] at htable
        simp only [Logged.result_bind] at htable
        exact htable
      · rw [if_neg hfits]
        simp only [usizeSum, Logged.result_bind, Logged.result_log, Tape.ok_bind, if_neg hfits]
        rfl

/-- Every range that is read lies in the body and every sum fits its word, exactly where what the
renderer comes to fits. -/
theorem runErrorBundle_safe_iff (body : List UInt8) :
    (runErrorBundle body).result = renderErrorBundle body ∧
      ((∀ event ∈ (runErrorBundle body).events, event.Good body) ↔
        ∀ spot ∈ (walkBundle body).places, spot.Fits) :=
  ⟨runErrorBundle_result body, (runErrorBundle_agrees body).safe⟩

/-- One message, with a location on the line that is the largest word. -/
def lastLineBody : List UInt8 :=
  serialise [1, 2, 3, 0, 1, 7, 0, 0, 2 ^ 32 - 1, 0, 0, 0, 0, 0, 0] [0]

theorem runErrorBundle_overflows :
    Event.u32 (2 ^ 32) ∈ (runErrorBundle lastLineBody).events ∧
      ¬∀ event ∈ (runErrorBundle lastLineBody).events, event.Good lastLineBody := by
  have hsum : Event.u32 (2 ^ 32) ∈ (runErrorBundle lastLineBody).events := by decide
  exact ⟨hsum, fun h => absurd (h _ hsum) (Nat.lt_irrefl _)⟩

end Atomis.ZigErrorBundle
