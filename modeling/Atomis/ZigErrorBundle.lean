import Atomis.Lib.Utf8

/-!
# Printing the Zig compiler's errors

An error bundle is one array of words and a table of strings. Messages, locations and
references point into the array and into the table; what belongs to a record but varies in
number (the notes of a message, the references of a location) follows it. `Message` is what
is meant, `Serialised` says how it may lie in the bytes, and the renderer prints the one from
the other.
-/

namespace Atomis.ZigErrorBundle
open Utf8

/-- `u32` arithmetic, as a release build does it. -/
def u32 (n : ℕ) : ℕ := n % 2 ^ 32

/-- The little-endian word at a byte. -/
def word (body : List UInt8) (position : ℕ) : Option ℕ :=
  match (body.drop position).take 4 with
  | [a, b, c, d] => some (a.toNat + 256 * (b.toNat + 256 * (c.toNat + 256 * d.toNat)))
  | _ => none

def malformed {α : Type} : Except String α := .error "malformed error bundle"

def decimal (n : ℕ) : List Char := Nat.toDigits 10 n

structure Bundle where
  extra : ℕ → Except String ℕ
  strings : List UInt8

/-- `for i in 0..count`, the texts one after the other. -/
def forEach (line : ℕ → Except String (List Char)) (first : ℕ) : ℕ → Except String (List Char)
  | 0 => .ok []
  | count + 1 => do
    let text ← line first
    let rest ← forEach line (first + 1) count
    .ok (text ++ rest)

namespace Bundle

variable (bundle : Bundle)

def text (offset : ℕ) : List Char := lossy ((bundle.strings.drop offset).takeWhile (· ≠ 0))

def location (loc : ℕ) : Except String (List Char) := do
  let path ← bundle.extra loc
  let line ← bundle.extra (u32 (loc + 1))
  let column ← bundle.extra (u32 (loc + 2))
  .ok (bundle.text path ++ ':' :: decimal (u32 (line + 1)) ++ ':' :: decimal (u32 (column + 1)))

def reference (loc r : ℕ) : Except String (List Char) := do
  let entry := u32 (loc + 8 + r * 2)
  let name ← bundle.extra entry
  let src ← bundle.extra (u32 (entry + 1))
  if src ≠ 0 then
    let place ← bundle.location src
    .ok ("    ".toList ++ bundle.text name ++ ": ".toList ++ place ++ ['\n'])
  else .ok []

/-- What stands before a message's kind. -/
def place (loc : ℕ) : Except String (List Char) :=
  if loc = 0 then .ok []
  else do
    let text ← bundle.location loc
    .ok (text ++ ": ".toList)

/-- What follows a message and its notes. -/
def trace (loc : ℕ) : Except String (List Char) :=
  if loc = 0 then .ok []
  else do
    let references ← bundle.extra (u32 (loc + 7))
    if references > 0 then
      let lines ← forEach (bundle.reference loc) 0 references
      .ok ("referenced by:\n".toList ++ lines)
    else .ok []

/-- One message, its notes, then its reference trace; `levels` is 9 less `depth`. -/
def render : ℕ → ℕ → List Char → Except String (List Char)
  | 0, _, _ => .error "error bundle nests too deep"
  | levels + 1, index, kind => do
    let message ← bundle.extra index
    let loc ← bundle.extra (u32 (index + 2))
    let notes ← bundle.extra (u32 (index + 3))
    let place ← bundle.place loc
    let noteLines ← forEach (fun n => do
      let note ← bundle.extra (u32 (index + 4 + n))
      render levels note "note".toList) 0 notes
    let traceLines ← bundle.trace loc
    .ok (place ++ kind ++ ": ".toList ++ bundle.text message ++ ['\n'] ++ noteLines ++ traceLines)

end Bundle

def renderErrorBundle (body : List UInt8) : Except String (List Char) :=
  match word body 0, word body 4 with
  | some extraLen, some stringsLen =>
    if extraLen = 0 then .ok []
    else if 8 + extraLen * 4 + stringsLen ≤ body.length then do
      let bundle : Bundle := {
        extra := fun index =>
          match word body (8 + index * 4) with
          | some value => if index < extraLen then .ok value else malformed
          | none => malformed
        strings := (body.drop (8 + extraLen * 4)).take stringsLen }
      let count ← bundle.extra 0
      let start ← bundle.extra 1
      forEach (fun i => do
        let index ← bundle.extra (u32 (start + i))
        bundle.render 9 index "error".toList) 0 count
    else malformed
  | _, _ => malformed

/-! ## What is meant -/

/-- Zero-based, as it is stored. -/
structure Place where
  path : List UInt8
  line : ℕ
  column : ℕ

/-- An entry of a reference trace; one without a location stands for references left out. -/
inductive Reference
  | located (name : List UInt8) (place : Place)
  | hidden (count : ℕ)

structure Location where
  place : Place
  references : List Reference

inductive Message
  | mk (text : List UInt8) (location : Option Location) (notes : List Message)

def Place.text (place : Place) : List Char :=
  lossy place.path ++ ':' :: decimal (place.line + 1) ++ ':' :: decimal (place.column + 1)

def Reference.line : Reference → List Char
  | .located name place => "    ".toList ++ lossy name ++ ": ".toList ++ place.text ++ ['\n']
  | .hidden _ => []

def Location.trace (location : Location) : List Char :=
  if location.references = [] then []
  else "referenced by:\n".toList ++ location.references.flatMap Reference.line

def heading (kind text : List Char) : Option Location → List Char
  | none => kind ++ ": ".toList ++ text ++ ['\n']
  | some location =>
    location.place.text ++ ": ".toList ++ kind ++ ": ".toList ++ text ++ ['\n']

mutual

def Message.print (kind : List Char) : Message → List Char
  | .mk text location notes => heading kind (lossy text) location ++
    printAll "note".toList notes ++ (location.map Location.trace).getD []

def printAll (kind : List Char) : List Message → List Char
  | [] => []
  | message :: messages => message.print kind ++ printAll kind messages

end

mutual

/-- How deep the notes nest. -/
def Message.depth : Message → ℕ
  | .mk _ _ notes => depthAll notes

def depthAll : List Message → ℕ
  | [] => 0
  | note :: notes => max (note.depth + 1) (depthAll notes)

end

/-! ## How it lies in the bytes -/

section Layout

variable (extra : List ℕ) (strings : List UInt8)

def TextAt (offset : ℕ) (text : List UInt8) : Prop :=
  0 ∉ text ∧ ∃ rest, strings.drop offset = text ++ 0 :: rest

/-- `{src_path, line, column, span_start, span_main, span_end, source_line,
reference_trace_len}`; what is no part of the place may be anything. -/
structure PlaceAt (loc : ℕ) (place : Place) (references : ℕ) : Prop where
  nonzero : loc ≠ 0
  path : ∃ offset, extra[loc]? = some offset ∧ TextAt strings offset place.path
  line : extra[loc + 1]? = some place.line
  column : extra[loc + 2]? = some place.column
  references : extra[loc + 7]? = some references

/-- `{decl_name, src_loc}` -/
inductive ReferenceAt (entry : ℕ) : Reference → Prop
  | located {offset src trace : ℕ} {name : List UInt8} {place : Place}
      (hname : extra[entry]? = some offset) (htext : TextAt strings offset name)
      (hsrc : extra[entry + 1]? = some src) (hplace : PlaceAt extra strings src place trace) :
      ReferenceAt entry (.located name place)
  | hidden {count : ℕ} (hname : extra[entry]? = some count)
      (hsrc : extra[entry + 1]? = some 0) : ReferenceAt entry (.hidden count)

inductive ReferencesAt : ℕ → List Reference → Prop
  | nil (entry : ℕ) : ReferencesAt entry []
  | cons {entry : ℕ} {reference : Reference} {references : List Reference}
      (head : ReferenceAt extra strings entry reference)
      (tail : ReferencesAt (entry + 2) references) :
      ReferencesAt entry (reference :: references)

inductive LocationAt : ℕ → Option Location → Prop
  | none : LocationAt 0 none
  | some {loc : ℕ} {location : Location}
      (place : PlaceAt extra strings loc location.place location.references.length)
      (references : ReferencesAt extra strings (loc + 8) location.references) :
      LocationAt loc (some location)

mutual

/-- `{msg, count, src_loc, notes_len}`, then the indices of the notes. -/
inductive MessageAt : ℕ → Message → Prop
  | mk {index offset count src : ℕ} {text : List UInt8} {location : Option Location}
      {notes : List Message} (msg : extra[index]? = some offset)
      (htext : TextAt strings offset text) (hcount : extra[index + 1]? = some count)
      (hsrc : extra[index + 2]? = some src) (hlocation : LocationAt extra strings src location)
      (hlength : extra[index + 3]? = some notes.length) (hnotes : MessagesAt (index + 4) notes) :
      MessageAt index (.mk text location notes)

/-- The indices of these messages. -/
inductive MessagesAt : ℕ → List Message → Prop
  | nil (position : ℕ) : MessagesAt position []
  | cons {position index : ℕ} {message : Message} {messages : List Message}
      (hindex : extra[position]? = some index) (head : MessageAt index message)
      (tail : MessagesAt (position + 1) messages) : MessagesAt position (message :: messages)

end

def le32 (n : ℕ) : List UInt8 :=
  [UInt8.ofNat (n % 256), UInt8.ofNat (n / 256 % 256), UInt8.ofNat (n / 65536 % 256),
    UInt8.ofNat (n / 16777216 % 256)]

def serialise : List UInt8 :=
  le32 extra.length ++ le32 strings.length ++ extra.flatMap le32 ++ strings

/-- `{len, start, compile_log_text}`, unless the bundle is the empty one. -/
structure ListAt (messages : List Message) : Prop where
  length : extra[0]? = some messages.length
  start : ∃ start, extra[1]? = some start ∧ MessagesAt extra strings start messages
  log : ∃ log, extra[2]? = some log

end Layout

/-- The bytes are a serialisation of these messages. -/
def Serialised (body : List UInt8) (messages : List Message) : Prop :=
  ∃ extra strings, body = serialise extra strings ∧
    (∀ value ∈ extra, value < 2 ^ 32 - 1) ∧ extra.length < 2 ^ 32 - 1 ∧
    strings.length < 2 ^ 32 - 1 ∧
    (extra = [] ∧ messages = [] ∨ ListAt extra strings messages)

/-! ## Reading the words back -/

theorem length_le32 (n : ℕ) : (le32 n).length = 4 := rfl

theorem word_append (left right : List UInt8) {n : ℕ} (hn : n < 2 ^ 32) :
    word (left ++ (le32 n ++ right)) left.length = some n := by
  have h₁ := toNat_ofNat (n := n % 256) (by omega)
  have h₂ := toNat_ofNat (n := n / 256 % 256) (by omega)
  have h₃ := toNat_ofNat (n := n / 65536 % 256) (by omega)
  have h₄ := toNat_ofNat (n := n / 16777216 % 256) (by omega)
  simp only [word, List.drop_left, le32, List.cons_append, List.nil_append, List.take_succ_cons,
    List.take_zero, h₁, h₂, h₃, h₄, Option.some.injEq]
  omega

theorem length_flatMap_le32 (extra : List ℕ) : (extra.flatMap le32).length = extra.length * 4 := by
  induction extra with
  | nil => rfl
  | cons n extra ih =>
    rw [List.flatMap_cons, List.length_append, ih, length_le32, List.length_cons]
    omega

section Words

variable {extra : List ℕ} {strings : List UInt8} {index value : ℕ}

theorem word_serialise_extraLen (hlength : extra.length < 2 ^ 32) :
    word (serialise extra strings) 0 = some extra.length := by
  have h := word_append [] (le32 strings.length ++ extra.flatMap le32 ++ strings) hlength
  simpa [serialise] using h

theorem word_serialise_stringsLen (hlength : strings.length < 2 ^ 32) :
    word (serialise extra strings) 4 = some strings.length := by
  have h := word_append (le32 extra.length) (extra.flatMap le32 ++ strings) hlength
  rw [length_le32] at h
  simpa [serialise] using h

theorem word_serialise (hindex : extra[index]? = some value) (hvalue : value < 2 ^ 32) :
    word (serialise extra strings) (8 + index * 4) = some value := by
  obtain ⟨hlt, hget⟩ := List.getElem?_eq_some_iff.mp hindex
  have hsplit : extra = extra.take index ++ value :: extra.drop (index + 1) := by
    rw [← hget, List.getElem_cons_drop, List.take_append_drop]
  have hlength : (le32 extra.length ++ le32 strings.length ++
      (extra.take index).flatMap le32).length = 8 + index * 4 := by
    rw [List.length_append, List.length_append, length_flatMap_le32, List.length_take, length_le32,
      length_le32]
    omega
  have hbody : serialise extra strings =
      (le32 extra.length ++ le32 strings.length ++ (extra.take index).flatMap le32) ++
        (le32 value ++ ((extra.drop (index + 1)).flatMap le32 ++ strings)) := by
    rw [serialise]
    conv_lhs => rw [show extra.flatMap le32 = _ from congrArg (List.flatMap le32) hsplit]
    simp
  rw [hbody, ← hlength]
  exact word_append _ _ hvalue

theorem length_serialise :
    (serialise extra strings).length = 8 + extra.length * 4 + strings.length := by
  simp only [serialise, List.length_append, length_flatMap_le32, length_le32]

theorem strings_serialise :
    ((serialise extra strings).drop (8 + extra.length * 4)).take strings.length = strings := by
  have hlength : (le32 extra.length ++ le32 strings.length ++ extra.flatMap le32).length =
      8 + extra.length * 4 := by
    simp only [List.length_append, length_flatMap_le32, length_le32]
  rw [serialise, ← hlength, List.drop_left, List.take_length]

end Words

/-- The bundle gives the words of the array, and no sum of positions overflows. -/
structure Reads (bundle : Bundle) (extra : List ℕ) (strings : List UInt8) : Prop where
  table : bundle.strings = strings
  get : ∀ {index value : ℕ}, extra[index]? = some value → bundle.extra index = .ok value
  fits : ∀ {index value : ℕ}, extra[index]? = some value → u32 index = index
  small : ∀ {index value : ℕ}, extra[index]? = some value → value < 2 ^ 32 - 1

section Render

variable {bundle : Bundle} {extra : List ℕ} {strings : List UInt8}

theorem Reads.word (h : Reads bundle extra strings) {index value : ℕ}
    (hindex : extra[index]? = some value) : bundle.extra (u32 index) = .ok value := by
  rw [h.fits hindex, h.get hindex]

theorem Reads.text (h : Reads bundle extra strings) {offset : ℕ} {text : List UInt8}
    (htext : TextAt strings offset text) : bundle.text offset = lossy text := by
  obtain ⟨hzero, rest, hdrop⟩ := htext
  have htake : (text ++ 0 :: rest).takeWhile (· ≠ 0) = text := by
    have hinside : ∀ b ∈ text, decide (b ≠ 0) = true := fun b hb =>
      decide_eq_true fun hb0 : b = 0 => hzero (hb0 ▸ hb)
    rw [List.takeWhile_append_of_pos hinside]
    simp
  rw [Bundle.text, h.table, hdrop, htake]

theorem Reads.location (h : Reads bundle extra strings) {loc references : ℕ} {place : Place}
    (hplace : PlaceAt extra strings loc place references) :
    bundle.location loc = .ok place.text := by
  obtain ⟨offset, hoffset, htext⟩ := hplace.path
  have hline : u32 (place.line + 1) = place.line + 1 := Nat.mod_eq_of_lt (by
    have := h.small hplace.line
    omega)
  have hcolumn : u32 (place.column + 1) = place.column + 1 := Nat.mod_eq_of_lt (by
    have := h.small hplace.column
    omega)
  simp only [Bundle.location, h.get hoffset, h.word hplace.line, h.word hplace.column,
    h.text htext, hline, hcolumn, bind, Except.bind]
  rfl

theorem Reads.reference (h : Reads bundle extra strings) {loc r : ℕ} {reference : Reference}
    (hreference : ReferenceAt extra strings (loc + 8 + r * 2) reference) :
    bundle.reference loc r = .ok reference.line := by
  cases hreference with
  | located hname htext hsrc hplace =>
    simp only [Bundle.reference, h.fits hname, h.get hname, h.word hsrc, h.text htext,
      h.location hplace, bind, Except.bind]
    rw [if_pos hplace.nonzero]
    rfl
  | hidden hname hsrc =>
    simp only [Bundle.reference, h.fits hname, h.get hname, h.word hsrc, bind, Except.bind]
    rw [if_neg (by simp)]
    rfl

theorem Reads.references (h : Reads bundle extra strings) {loc entry : ℕ}
    {references : List Reference} (hreferences : ReferencesAt extra strings entry references)
    (r : ℕ) (hentry : entry = loc + 8 + r * 2) :
    forEach (bundle.reference loc) r references.length =
      .ok (references.flatMap Reference.line) := by
  induction hreferences generalizing r with
  | nil entry => rfl
  | cons head tail ih =>
    rw [List.length_cons, forEach, h.reference (hentry ▸ head), ih (r + 1) (by omega)]
    rfl

theorem Reads.trace (h : Reads bundle extra strings) {loc : ℕ} {location : Location}
    (hplace : PlaceAt extra strings loc location.place location.references.length)
    (hreferences : ReferencesAt extra strings (loc + 8) location.references) :
    bundle.trace loc = .ok location.trace := by
  have hlines := h.references hreferences 0 (show loc + 8 = loc + 8 + 0 * 2 by omega)
  simp only [Bundle.trace, if_neg hplace.nonzero, h.word hplace.references, hlines, bind,
    Except.bind]
  by_cases hnil : location.references = []
  · rw [if_neg (by simp [hnil]), Location.trace, if_pos hnil]
  · rw [if_pos (List.length_pos_iff.mpr hnil), Location.trace, if_neg hnil]

/-- The heading, and the trace, of a message with this source. -/
theorem Reads.source (h : Reads bundle extra strings) {src : ℕ} {location : Option Location}
    (hlocation : LocationAt extra strings src location) :
    (∃ place, bundle.place src = .ok place ∧
      ∀ kind text, place ++ kind ++ ": ".toList ++ text ++ ['\n'] = heading kind text location) ∧
    bundle.trace src = .ok ((location.map Location.trace).getD []) := by
  cases hlocation with
  | none => exact ⟨⟨[], rfl, fun _ _ => rfl⟩, rfl⟩
  | @some _ location hplace hreferences =>
    refine ⟨⟨location.place.text ++ ": ".toList, ?_, fun _ _ => rfl⟩, h.trace hplace hreferences⟩
    rw [Bundle.place, if_neg hplace.nonzero, h.location hplace]
    rfl

mutual

theorem Reads.render (h : Reads bundle extra strings) : ∀ {index : ℕ} {message : Message},
    MessageAt extra strings index message → ∀ {levels : ℕ}, message.depth < levels →
      ∀ kind, bundle.render levels index kind = .ok (message.print kind)
  | _, .mk text location notes, .mk msg htext hcount hsrc hlocation hlength hnotes, levels, hdepth,
      kind => by
    obtain ⟨levels, rfl⟩ := Nat.exists_eq_add_one_of_ne_zero (Nat.ne_of_gt (Nat.zero_lt_of_lt hdepth))
    obtain ⟨⟨place, hplace, hheading⟩, htrace⟩ := h.source hlocation
    have hdepth' : depthAll notes ≤ levels := Nat.le_of_lt_succ hdepth
    have hlines := h.renderAll hnotes hdepth' "note".toList 0 _ rfl
    simp only [bind, Except.bind] at hlines
    simp only [Bundle.render, h.get msg, h.word hsrc, h.word hlength, h.text htext, hplace, htrace,
      hlines, hheading, bind, Except.bind]
    rfl

theorem Reads.renderAll (h : Reads bundle extra strings) : ∀ {position : ℕ}
    {messages : List Message}, MessagesAt extra strings position messages →
    ∀ {levels : ℕ}, depthAll messages ≤ levels → ∀ kind n base, position = base + n →
      forEach (fun n => do
        let index ← bundle.extra (u32 (base + n))
        bundle.render levels index kind) n messages.length = .ok (printAll kind messages)
  | _, [], .nil _, _, _, _, _, _, _ => rfl
  | _, message :: messages, .cons hindex head tail, levels, hdepth, kind, n, base, hposition => by
    obtain ⟨hmessage, hmessages⟩ := Nat.max_le.mp hdepth
    have hrest := h.renderAll tail hmessages kind (n + 1) base (by omega)
    rw [List.length_cons, forEach, hrest, h.word (hposition ▸ hindex)]
    simp only [bind, Except.bind, h.render head (Nat.lt_of_succ_le hmessage) kind]
    rfl

end

end Render

/-! ## A whole bundle -/

section Whole

variable {extra : List ℕ} {strings : List UInt8} {messages : List Message}

def readBundle (extra : List ℕ) (strings : List UInt8) : Bundle where
  extra index :=
    match word (serialise extra strings) (8 + index * 4) with
    | some value => if index < extra.length then .ok value else malformed
    | none => malformed
  strings := ((serialise extra strings).drop (8 + extra.length * 4)).take strings.length

theorem reads_readBundle (hsmall : ∀ value ∈ extra, value < 2 ^ 32 - 1)
    (hlength : extra.length < 2 ^ 32 - 1) : Reads (readBundle extra strings) extra strings where
  table := strings_serialise
  get hindex := by
    obtain ⟨hlt, hget⟩ := List.getElem?_eq_some_iff.mp hindex
    have hvalue := hsmall _ (hget ▸ List.getElem_mem hlt)
    simp only [readBundle, word_serialise hindex (Nat.lt_of_lt_of_le hvalue (Nat.sub_le _ _)),
      if_pos hlt]
  fits hindex := by
    obtain ⟨hlt, -⟩ := List.getElem?_eq_some_iff.mp hindex
    exact Nat.mod_eq_of_lt (by omega)
  small hindex := hsmall _ (List.mem_of_getElem? hindex)

theorem depthAll_le (h : ∀ message ∈ messages, message.depth ≤ 8) : depthAll messages ≤ 9 := by
  induction messages with
  | nil => exact Nat.zero_le 9
  | cons message messages ih =>
    obtain ⟨hmessage, hmessages⟩ := List.forall_mem_cons.mp h
    exact Nat.max_le.mpr ⟨Nat.succ_le_succ hmessage, ih hmessages⟩

theorem printAll_eq_nil (kind : List Char) : printAll kind messages = [] ↔ messages = [] := by
  cases messages with
  | nil => simp [printAll]
  | cons message messages =>
    obtain ⟨text, location, notes⟩ := message
    have hne : heading kind (lossy text) location ≠ [] := by
      cases location <;> simp [heading]
    simp [printAll, Message.print, hne]

theorem renderErrorBundle_listAt (hsmall : ∀ value ∈ extra, value < 2 ^ 32 - 1)
    (hlength : extra.length < 2 ^ 32 - 1) (hstrings : strings.length < 2 ^ 32 - 1)
    (h : ListAt extra strings messages) (hdepth : depthAll messages ≤ 9) :
    renderErrorBundle (serialise extra strings) = .ok (printAll "error".toList messages) := by
  have hreads : Reads (readBundle extra strings) extra strings :=
    reads_readBundle hsmall hlength
  obtain ⟨start, hstart, hmessages⟩ := h.start
  have hpos : extra.length ≠ 0 := by
    obtain ⟨hlt, -⟩ := List.getElem?_eq_some_iff.mp h.length
    omega
  have hlines := hreads.renderAll hmessages hdepth "error".toList 0 start rfl
  rw [renderErrorBundle, word_serialise_extraLen (by omega), word_serialise_stringsLen (by omega)]
  simp only [if_neg hpos, length_serialise, Nat.le_refl, if_true]
  change (do
    let count ← (readBundle extra strings).extra 0
    let start ← (readBundle extra strings).extra 1
    forEach (fun i => do
      let index ← (readBundle extra strings).extra (u32 (start + i))
      (readBundle extra strings).render 9 index "error".toList) 0 count) = _
  rw [hreads.get h.length, ← hlines]
  simp only [hreads.get hstart, bind, Except.bind]

/-- What is printed is what was serialised, and nothing exactly when there are no messages. -/
theorem renderErrorBundle_serialised {body : List UInt8} (h : Serialised body messages)
    (hdepth : ∀ message ∈ messages, message.depth ≤ 8) :
    renderErrorBundle body = .ok (printAll "error".toList messages) ∧
      (renderErrorBundle body = .ok [] ↔ messages = []) := by
  have hprint : renderErrorBundle body = .ok (printAll "error".toList messages) := by
    obtain ⟨extra, strings, rfl, hsmall, hlength, hstrings, hlist⟩ := h
    rcases hlist with ⟨rfl, rfl⟩ | hlist
    · rw [renderErrorBundle, word_serialise_extraLen (by decide),
        word_serialise_stringsLen (by omega)]
      rfl
    · exact renderErrorBundle_listAt hsmall hlength hstrings hlist (depthAll_le hdepth)
  rw [hprint]
  exact ⟨rfl, by rw [Except.ok.injEq, printAll_eq_nil]⟩

end Whole

def place (line column : ℕ) : Place := ⟨encode "a.zig".toList, line, column⟩

/-- An error with a note and a trace of two entries, one of them without a location. -/
def traced : Message :=
  .mk (encode "bad".toList)
    (some ⟨place 26 37, [.located (encode "main".toList) (place 2 19), .hidden 3]⟩)
    [.mk (encode "here".toList) none []]

def tracedStrings : List UInt8 :=
  0 :: encode "bad".toList ++ 0 :: encode "a.zig".toList ++ 0 :: encode "main".toList ++
    0 :: encode "here".toList ++ [0]

def tracedExtra : List ℕ :=
  [1, 32, 0, 16, 1, 0, 0, 5, 26, 37, 0, 0, 0, 0, 2, 11, 19, 3, 0, 5, 2, 19, 0, 0, 0, 0, 0, 1, 1, 7, 1,
    3, 27]

theorem textAt_path : TextAt tracedStrings 5 (encode "a.zig".toList) :=
  ⟨by decide +kernel, tracedStrings.drop 11, by decide +kernel⟩

theorem serialised_traced : Serialised (serialise tracedExtra tracedStrings) [traced] := by
  refine ⟨_, _, rfl, by decide +kernel, by decide +kernel, by decide +kernel,
    .inr ⟨rfl, ⟨32, rfl, .cons rfl (.mk rfl ?_ rfl rfl ?_ rfl ?_) (.nil _)⟩, 0, rfl⟩⟩
  · exact ⟨by decide +kernel, tracedStrings.drop 5, by decide +kernel⟩
  · refine .some ⟨by decide, ⟨5, rfl, textAt_path⟩, rfl, rfl, rfl⟩
      (.cons (.located rfl ?_ rfl ⟨by decide, ⟨5, rfl, textAt_path⟩, rfl, rfl, rfl⟩)
        (.cons (.hidden rfl rfl) (.nil _)))
    exact ⟨by decide +kernel, tracedStrings.drop 16, by decide +kernel⟩
  · refine .cons rfl (.mk rfl ?_ rfl rfl .none rfl (.nil _)) (.nil _)
    exact ⟨by decide +kernel, tracedStrings.drop 21, by decide +kernel⟩

theorem renderErrorBundle_traced :
    renderErrorBundle (serialise tracedExtra tracedStrings) =
        .ok (printAll "error".toList [traced]) ∧
      (renderErrorBundle (serialise tracedExtra tracedStrings) = .ok [] ↔ [traced] = []) :=
  renderErrorBundle_serialised serialised_traced (by simp [traced, Message.depth, depthAll])

end Atomis.ZigErrorBundle
