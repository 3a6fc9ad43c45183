import Atomis.ProbeRecords

/-!
# The probes of a Zig program

`emit` writes into a buffer as large as the longest line the reader takes, so a record too long
for the reader is never sent. What a probe knows about the layout of a value is written too.
-/

namespace Atomis.ZigProbes
open Json Utf8 Ndjson RuntimeJson ProbeRecords

/-- A field of a struct; an offset or a size is a `usize`. -/
structure FieldLayout where
  name : List Char
  typeName : List Char
  offset : UInt64
  size : UInt64
  preview : List Char
deriving DecidableEq

/-- The layout that `appendLayout` finds for a type. -/
structure Layout where
  bits : Option UInt16
  sizes : Option (UInt64 × UInt64)
  fields : Option (List FieldLayout)
deriving DecidableEq

/-- What `emit` is given, with the preview and the layout of the value. -/
structure Call where
  probeId : List Char
  name : List Char
  line : UInt32
  column : UInt32
  typeName : List Char
  preview : List Char
  truncated : Bool
  layout : Layout
deriving DecidableEq

def maxEvent : ℕ := 64 * 1024

def writeField (f : FieldLayout) : List UInt8 :=
  print "\x7b\"name\":" ++ appendJsonString (encode f.name) ++ print ",\"typeName\":" ++
    appendJsonString (encode f.typeName) ++ print ",\"offset\":" ++ printNumber f.offset.toNat ++
    print ",\"size\":" ++ printNumber f.size.toNat ++ print ",\"preview\":" ++
    appendJsonString (encode f.preview) ++ print "\x7d"

/-- The loop with its `first`. -/
def writeFields : List FieldLayout → List UInt8
  | [] => []
  | f :: fields => writeField f ++ fields.flatMap fun g => print "," ++ writeField g

def appendLayout (layout : Layout) : List UInt8 :=
  (match layout.bits with
    | some bits => print ",\"bits\":" ++ printNumber bits.toNat
    | none => []) ++
  (match layout.sizes with
    | some (size, align) =>
      print ",\"sizeBytes\":" ++ printNumber size.toNat ++ print ",\"alignBytes\":" ++
        printNumber align.toNat
    | none => []) ++
  match layout.fields with
  | some fields => print ",\"fields\":[" ++ writeFields fields ++ print "]"
  | none => []

/-- What is in the buffer when the number is taken. -/
def beforeNumber (call : Call) : List UInt8 :=
  print "\x7b\"protocolVersion\":1,\"kind\":\"probe_value\",\"probeId\":" ++
    appendJsonString (encode call.probeId) ++ print ",\"name\":" ++
    appendJsonString (encode call.name) ++ print ",\"line\":" ++ printNumber call.line.toNat ++
    print ",\"column\":" ++ printNumber call.column.toNat ++ print ",\"typeName\":" ++
    appendJsonString (encode call.typeName) ++ print ",\"preview\":" ++
    appendJsonString (encode call.preview) ++ appendLayout call.layout

def fromNumber (call : Call) (sequence : UInt64) : List UInt8 :=
  print ",\"truncated\":" ++ encode (boolText call.truncated) ++ print ",\"sequence\":" ++
    printNumber sequence.toNat ++ print "\x7d\n"

/-- A writer that is full gives the record up. -/
def runtime : Runtime Call where
  record call :=
    if maxEvent < (beforeNumber call).length then none
    else some fun taken =>
      let whole := beforeNumber call ++ fromNumber call (taken + 1)
      if maxEvent < whole.length then none else some whole

/-! ## The record is a text -/

def layoutFields (f : FieldLayout) : List Field :=
  [textField "name" f.name, textField "typeName" f.typeName, numberField "offset" f.offset.toNat,
    numberField "size" f.size.toNat, textField "preview" f.preview]

def layoutText (f : FieldLayout) : List Char :=
  '\x7b' :: (Field.joined (layoutFields f) ++ ['\x7d'])

def listText : List FieldLayout → List Char
  | [] => ['[', ']']
  | f :: fields => '[' :: (layoutText f ++ fields.flatMap (fun g => ',' :: layoutText g) ++ [']'])

def listField (fields : List FieldLayout) : Field :=
  ⟨"fields", .array (fields.map fun f => Field.object (layoutFields f)), listText fields⟩

def optionalFields (layout : Layout) : List Field :=
  (match layout.bits with
    | some bits => [numberField "bits" bits.toNat]
    | none => []) ++
  (match layout.sizes with
    | some (size, align) =>
      [numberField "sizeBytes" size.toNat, numberField "alignBytes" align.toNat]
    | none => []) ++
  match layout.fields with
  | some fields => [listField fields]
  | none => []

def fields (call : Call) (taken : UInt64) : List Field :=
  numberField "protocolVersion" 1 :: ([textField "kind" "probe_value".toList,
    textField "probeId" call.probeId, textField "name" call.name,
    numberField "line" call.line.toNat, numberField "column" call.column.toNat,
    textField "typeName" call.typeName, textField "preview" call.preview] ++
    optionalFields call.layout ++
    [boolField "truncated" call.truncated, numberField "sequence" (taken + 1).toNat])

def line (call : Call) (taken : UInt64) : List Char :=
  '\x7b' :: (Field.joined (fields call taken) ++ ['\x7d'])

theorem right_layoutFields (f : FieldLayout) : ∀ g ∈ layoutFields f, g.Right := by
  simp only [layoutFields, List.forall_mem_cons]
  exact ⟨right_textField (by simp [plain]) _, right_textField (by simp [plain]) _,
    right_numberField (by simp [plain]) _, right_numberField (by simp [plain]) _,
    right_textField (by simp [plain]) _, List.forall_mem_nil _⟩

theorem text_layout (f : FieldLayout) : Text (Field.object (layoutFields f)) (layoutText f) :=
  Field.text_object (right_layoutFields f)

theorem right_listField (fields : List FieldLayout) : (listField fields).Right := by
  refine ⟨by simp [listField, plain], ?_⟩
  cases fields with
  | nil => exact .noValues
  | cons f fields =>
    have hmore : List.Forall₂ Text (fields.map fun g => Field.object (layoutFields g))
        (fields.map layoutText) := by
      rw [List.forall₂_map_left_iff, List.forall₂_map_right_iff]
      exact List.forall₂_same.mpr fun g _ => text_layout g
    have hitems := items_joined (text_layout f) hmore
    rw [List.flatMap_map] at hitems
    exact .array hitems

theorem right_fields (call : Call) (taken : UInt64) : ∀ f ∈ fields call taken, f.Right := by
  simp only [fields, List.forall_mem_cons, List.forall_mem_append]
  refine ⟨right_numberField (by simp [plain]) _, ⟨⟨right_textField (by simp [plain]) _,
    right_textField (by simp [plain]) _, right_textField (by simp [plain]) _,
    right_numberField (by simp [plain]) _, right_numberField (by simp [plain]) _,
    right_textField (by simp [plain]) _, right_textField (by simp [plain]) _,
    List.forall_mem_nil _⟩, ?_⟩, right_boolField (by simp [plain]) _,
    right_numberField (by simp [plain]) _, List.forall_mem_nil _⟩
  simp only [optionalFields, List.forall_mem_append]
  refine ⟨⟨?_, ?_⟩, ?_⟩
  · cases call.layout.bits with
    | none => exact List.forall_mem_nil _
    | some bits =>
      exact List.forall_mem_singleton.mpr (right_numberField (by simp [plain]) _)
  · cases call.layout.sizes with
    | none => exact List.forall_mem_nil _
    | some sizes =>
      simp only [List.forall_mem_cons]
      exact ⟨right_numberField (by simp [plain]) _, right_numberField (by simp [plain]) _,
        List.forall_mem_nil _⟩
  · cases call.layout.fields with
    | none => exact List.forall_mem_nil _
    | some fields => exact List.forall_mem_singleton.mpr (right_listField fields)

theorem text_line (call : Call) (taken : UInt64) :
    Text (Field.object (fields call taken)) (line call taken) :=
  Field.text_object (right_fields call taken)

/-! ## The bytes are those of the text -/

set_option maxRecDepth 4000 in
theorem writeField_eq (f : FieldLayout) : writeField f = encode (layoutText f) := by
  unfold writeField
  simp only [print, printNumber, appendJsonString_quoted, ← encode_append]
  apply congrArg encode
  simp [layoutText, layoutFields, Field.joined, Field.written, textField, numberField]

theorem flatMap_encode {α : Type} (items : List α) (text : α → List Char) :
    (items.flatMap fun a => encode (text a)) = encode (items.flatMap text) := by
  induction items with
  | nil => rfl
  | cons a items ih => rw [List.flatMap_cons, ih, List.flatMap_cons, encode_append]

theorem writeFields_eq (fields : List FieldLayout) :
    print "[" ++ writeFields fields ++ print "]" = encode (listText fields) := by
  cases fields with
  | nil => decide
  | cons f fields =>
    simp only [writeFields, writeField_eq, flatMap_encode, print, ← encode_append]
    apply congrArg encode
    simp [listText]

theorem appendLayout_eq (layout : Layout) : appendLayout layout =
    encode ((optionalFields layout).flatMap fun g => ',' :: g.written) := by
  obtain ⟨bits, sizes, fields⟩ := layout
  have hfields : ∀ fields, print ",\"fields\":[" ++ writeFields fields ++ print "]" =
      encode (',' :: (listField fields).written) := by
    intro fields
    have hopen : print ",\"fields\":[" = print ",\"fields\":" ++ print "[" := by decide
    rw [hopen, List.append_assoc, List.append_assoc, ← List.append_assoc (print "["),
      writeFields_eq, print, ← encode_append]
    apply congrArg encode
    simp [listField, Field.written]
  simp only [appendLayout, optionalFields, hfields]
  rcases bits with _ | bits <;> rcases sizes with _ | ⟨size, align⟩ <;>
    rcases fields with _ | fields <;>
    simp only [print, printNumber, List.nil_append, List.append_nil, ← encode_append]
  all_goals first | rfl | apply congrArg encode
  all_goals simp [numberField, Field.written]

theorem joined_append (f : Field) (fields more : List Field) :
    Field.joined (f :: (fields ++ more)) =
      Field.joined (f :: fields) ++ more.flatMap fun g => ',' :: g.written := by
  simp [Field.joined]

set_option maxRecDepth 4000 in
theorem whole_eq (call : Call) (taken : UInt64) :
    beforeNumber call ++ fromNumber call (taken + 1) = encode (line call taken ++ ['\n']) := by
  have hescaped : pushJsonEscaped ['p', 'r', 'o', 'b', 'e', '_', 'v', 'a', 'l', 'u', 'e'] =
      ['p', 'r', 'o', 'b', 'e', '_', 'v', 'a', 'l', 'u', 'e'] := by
    simp [pushJsonEscaped, escapeChar]
  have hone : decimal 1 = ['1'] := rfl
  unfold beforeNumber fromNumber
  simp only [print, printNumber, appendJsonString_quoted, appendLayout_eq, ← encode_append]
  apply congrArg encode
  rw [line, fields, joined_append, joined_append]
  generalize (optionalFields call.layout).flatMap (fun g => ',' :: g.written) = layout
  simp [Field.joined, Field.written, numberField, textField, boolField, quoted, hescaped, hone]

/-! ## Decoding -/

def fieldEvent (f : FieldLayout) : ProbeFieldLayout where
  name := String.ofList f.name
  typeName := String.ofList f.typeName
  offset := f.offset.toNat
  size := f.size.toNat
  preview := String.ofList f.preview

def event (call : Call) (taken : UInt64) : RawProbeEvent where
  protocolVersion := 1
  kind := "probe_value"
  probeId := String.ofList call.probeId
  name := String.ofList call.name
  line := call.line.toNat
  column := call.column.toNat
  typeName := String.ofList call.typeName
  preview := String.ofList call.preview
  truncated := call.truncated
  sequence := (taken + 1).toNat
  bits := call.layout.bits.map UInt16.toNat
  sizeBytes := call.layout.sizes.map fun sizes => sizes.1.toNat
  alignBytes := call.layout.sizes.map fun sizes => sizes.2.toNat
  fields := call.layout.fields.map fun fields => fields.map fieldEvent

/-- The server has 32 bits for an offset and a size within a struct. -/
def Fits (call : Call) : Prop :=
  ∀ fields ∈ call.layout.fields, ∀ f ∈ fields, f.offset.toNat < 2 ^ 32 ∧ f.size.toNat < 2 ^ 32

theorem probeFieldLayout_object {f : FieldLayout}
    (h : f.offset.toNat < 2 ^ 32 ∧ f.size.toNat < 2 ^ 32) :
    probeFieldLayout (Field.object (layoutFields f)) = some (fieldEvent f) := by
  have hoffset : f.offset.toNat < 4294967296 := h.1
  have hsize : f.size.toNat < 4294967296 := h.2
  simp [probeFieldLayout, Field.object, Field.member, layoutFields, numberField, textField,
    required, unique, unsigned, text, fieldEvent, hoffset, hsize]

theorem mapM_objects {fields : List FieldLayout}
    (h : ∀ f ∈ fields, f.offset.toNat < 2 ^ 32 ∧ f.size.toNat < 2 ^ 32) :
    (fields.map fun f => Field.object (layoutFields f)).mapM probeFieldLayout =
      some (fields.map fieldEvent) := by
  induction fields with
  | nil => rfl
  | cons f fields ih =>
    obtain ⟨hf, hfields⟩ := List.forall_mem_cons.mp h
    rw [List.map_cons, List.mapM_cons, probeFieldLayout_object hf, ih hfields]
    rfl

theorem rawProbeEvent_fields {call : Call} (h : Fits call) (taken : UInt64) :
    rawProbeEvent (Field.object (fields call taken)) = some (event call taken) := by
  have hline : call.line.toNat < 4294967296 := call.line.toNat_lt
  have hcolumn : call.column.toNat < 4294967296 := call.column.toNat_lt
  have hbits : ∀ bits : UInt16, bits.toNat < 4294967296 := fun bits =>
    Nat.lt_trans bits.toNat_lt (by decide)
  have hsize : ∀ size : UInt64, size.toNat < 18446744073709551616 := fun size => size.toNat_lt
  have hlist : ∀ fields ∈ call.layout.fields, list probeFieldLayout (.array (fields.map fun f =>
      .object ((layoutFields f).map Field.member))) = some (fields.map fieldEvent) :=
    fun fields hfields => mapM_objects (h fields hfields)
  obtain ⟨probeId, name, line, column, typeName, preview, truncated, bits, sizes, layout⟩ := call
  rcases bits with _ | bits <;> rcases sizes with _ | ⟨size, align⟩ <;>
    rcases layout with _ | layout
  all_goals
    simp [rawProbeEvent, Field.object, Field.member, fields, optionalFields, listField,
      numberField, textField, boolField, required, defaulted, unique, unsigned, text, boolean,
      event, hline, hcolumn, hbits, hsize, hlist, -UInt64.toNat_add]

/-! ## What arrives -/

theorem record_of_emitted {e : Emission Call} (he : Emitted runtime e) :
    e.record = encode (line e.call e.sequence ++ ['\n']) ∧ e.record.length ≤ maxEvent := by
  obtain ⟨render, hrender, hrecord⟩ := he
  simp only [runtime, Option.ite_none_left_eq_some, Option.some.injEq] at hrender
  obtain ⟨-, hrender⟩ := hrender
  simp only [← hrender, Option.ite_none_left_eq_some, Option.some.injEq] at hrecord
  obtain ⟨hwhole, hrecord⟩ := hrecord
  rw [← hrecord]
  exact ⟨whole_eq e.call e.sequence, Nat.le_of_not_lt hwhole⟩

theorem speaks : Speaks runtime Fits event line where
  record _ he := (record_of_emitted he).1
  short e he _ := by
    obtain ⟨hrecord, hlength⟩ := record_of_emitted he
    rw [hrecord, encode_append, List.length_append] at hlength
    exact Nat.le_trans (Nat.le_add_right _ _) hlength
  decodes e _ hfits := ⟨_, text_line e.call e.sequence, rawProbeEvent_fields hfits e.sequence⟩
  version _ _ := ⟨rfl, rfl⟩

def quickLayout : Layout where
  bits := none
  sizes := some (4, 4)
  fields := some [⟨"g".toList, "u8".toList, 1, 1, "12".toList⟩]

def quickCall (line : UInt32) : Call where
  probeId := "p".toList
  name := "px".toList
  line
  column := 1
  typeName := "Pixel".toList
  preview := ".\x7b .g = \"é\" \x7d".toList
  truncated := false
  layout := quickLayout

def crossing : List (ProbeRecords.Action Call) :=
  [.emit 0 (quickCall 1), .emit 1 (quickCall 2), .write 1, .write 0]

def crossed (n : ℕ) : State Call := (crossing.take n).foldl (machine runtime).next {}

theorem crossed_step {n : ℕ} {a : ProbeRecords.Action Call} (ha : crossing[n]? = some a)
    (h : (machine runtime).Reaches {} (crossed n)) (hen : (machine runtime).enabled (crossed n) a) :
    (machine runtime).Reaches {} (crossed (n + 1)) := by
  have hnext : crossed (n + 1) = (machine runtime).next (crossed n) a := by
    rw [crossed, List.take_add_one, ha]
    simp [crossed]
  rw [hnext]
  exact h.tail hen

theorem reaches_crossed : (machine runtime).Reaches {} (crossed 4) := by
  have hidle : (crossed 1).pending 1 = none := Option.isNone_iff_eq_none.mp (by decide +kernel)
  have hheld : (crossed 2).pending 1 ≠ none := Option.isSome_iff_ne_none.mp (by decide +kernel)
  have hother : (crossed 3).pending 0 ≠ none := Option.isSome_iff_ne_none.mp (by decide +kernel)
  have h₁ := crossed_step (n := 0) rfl (.refl _) rfl
  have h₂ := crossed_step (n := 1) rfl h₁ hidle
  have h₃ := crossed_step (n := 2) rfl h₂ hheld
  exact crossed_step (n := 3) rfl h₃ hother

theorem fits_crossed : ∀ e ∈ (crossed 4).written, Fits e.call := by
  intro e he
  have hcall : e.call ∈ (crossed 4).written.map Emission.call := List.mem_map_of_mem he
  have hcalls : (crossed 4).written.map Emission.call = [quickCall 2, quickCall 1] := by
    decide +kernel
  rw [hcalls] at hcall
  have hfits : ∀ line, Fits (quickCall line) := by
    intro line fields hfields f hf
    cases hfields
    rw [List.mem_singleton.mp hf]
    decide
  rcases List.mem_pair.mp hcall with h | h <;> rw [h] <;> exact hfits _

end Atomis.ZigProbes
