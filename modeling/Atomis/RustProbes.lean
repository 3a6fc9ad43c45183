import Atomis.ProbeRecords

/-!
# The probes of a Rust program

`emit_probe` cuts a preview to 512 bytes and escapes what it is given. Its records are as long
as the names in them, so the reader takes them while those are not too long.
-/

namespace Atomis.RustProbes
open Json Utf8 Ndjson RuntimeJson ProbeRecords

/-- The arguments of `emit_probe`. -/
structure Call where
  probeId : List Char
  name : List Char
  line : UInt32
  column : UInt32
  preview : List Char
  typeName : List Char
  size : UInt64
  align : UInt64

def maxPreview : ℕ := 512

/-- The slice up to the last character boundary within so many bytes. -/
def sliceTo (size : ℕ) : List Char → List Char
  | [] => []
  | c :: text => if byteLen [c] ≤ size then c :: sliceTo (size - byteLen [c]) text else []

def truncatePreview (preview : List Char) : List Char × Bool :=
  if byteLen preview ≤ maxPreview then (preview, false)
  else (sliceTo maxPreview preview ++ ['…'], true)

/-- The record without its line break. -/
def record (call : Call) (sequence : UInt64) : List Char :=
  let (preview, truncated) := truncatePreview call.preview
  "\x7b\"protocolVersion\":1,\"kind\":\"probe_value\",\"probeId\":\"".toList ++
    pushJsonEscaped call.probeId ++ "\",\"name\":\"".toList ++ pushJsonEscaped call.name ++
    "\",\"line\":".toList ++ decimal call.line.toNat ++ ",\"column\":".toList ++
    decimal call.column.toNat ++ ",\"typeName\":\"".toList ++ pushJsonEscaped call.typeName ++
    "\",\"preview\":\"".toList ++ pushJsonEscaped preview ++ "\",\"sizeBytes\":".toList ++
    decimal call.size.toNat ++ ",\"alignBytes\":".toList ++ decimal call.align.toNat ++
    ",\"truncated\":".toList ++ boolText truncated ++ ",\"sequence\":".toList ++
    decimal sequence.toNat ++ "\x7d".toList

/-- `emit_probe` takes the number before it builds the record. -/
def runtime : Runtime Call where
  record call := some fun sequence => some (encode (record call sequence ++ ['\n']))

def event (call : Call) (sequence : UInt64) : RawProbeEvent where
  protocolVersion := 1
  kind := "probe_value"
  probeId := String.ofList call.probeId
  name := String.ofList call.name
  line := call.line.toNat
  column := call.column.toNat
  typeName := String.ofList call.typeName
  preview := String.ofList (truncatePreview call.preview).1
  truncated := (truncatePreview call.preview).2
  sequence := sequence.toNat
  bits := none
  sizeBytes := some call.size.toNat
  alignBytes := some call.align.toNat
  fields := none

def fields (call : Call) (sequence : UInt64) : List Field :=
  [numberField "protocolVersion" 1, textField "kind" "probe_value".toList,
    textField "probeId" call.probeId, textField "name" call.name,
    numberField "line" call.line.toNat, numberField "column" call.column.toNat,
    textField "typeName" call.typeName,
    textField "preview" (truncatePreview call.preview).1,
    numberField "sizeBytes" call.size.toNat, numberField "alignBytes" call.align.toNat,
    boolField "truncated" (truncatePreview call.preview).2,
    numberField "sequence" sequence.toNat]

theorem rawProbeEvent_value (call : Call) (sequence : UInt64) :
    rawProbeEvent (Field.object (fields call sequence)) = some (event call sequence) := by
  have hline : call.line.toNat < 4294967296 := call.line.toNat_lt
  have hcolumn : call.column.toNat < 4294967296 := call.column.toNat_lt
  have hsize : call.size.toNat < 18446744073709551616 := call.size.toNat_lt
  have halign : call.align.toNat < 18446744073709551616 := call.align.toNat_lt
  have hsequence : sequence.toNat < 18446744073709551616 := sequence.toNat_lt
  simp [rawProbeEvent, Field.object, Field.member, fields, numberField, textField, boolField,
    required, defaulted, unique, unsigned, text, boolean, event, hline, hcolumn, hsize, halign,
    hsequence]

/-! ## The record is the text of its value -/

theorem right_fields (call : Call) (sequence : UInt64) :
    ∀ f ∈ fields call sequence, f.Right := by
  simp only [fields, List.forall_mem_cons]
  refine ⟨right_numberField (by simp [plain]) _, right_textField (by simp [plain]) _,
    right_textField (by simp [plain]) _, right_textField (by simp [plain]) _,
    right_numberField (by simp [plain]) _, right_numberField (by simp [plain]) _,
    right_textField (by simp [plain]) _, right_textField (by simp [plain]) _,
    right_numberField (by simp [plain]) _, right_numberField (by simp [plain]) _,
    right_boolField (by simp [plain]) _, right_numberField (by simp [plain]) _,
    List.forall_mem_nil _⟩

set_option maxRecDepth 4000 in
theorem record_eq (call : Call) (sequence : UInt64) :
    record call sequence = '\x7b' :: (Field.joined (fields call sequence) ++ ['\x7d']) := by
  have hescaped : pushJsonEscaped ['p', 'r', 'o', 'b', 'e', '_', 'v', 'a', 'l', 'u', 'e'] =
      ['p', 'r', 'o', 'b', 'e', '_', 'v', 'a', 'l', 'u', 'e'] := by
    simp [pushJsonEscaped, escapeChar]
  have hone : decimal 1 = ['1'] := rfl
  unfold record
  simp [fields, Field.joined, Field.written, numberField, textField, boolField, quoted,
    hescaped, hone]

theorem text_record (call : Call) (sequence : UInt64) :
    Text (Field.object (fields call sequence)) (record call sequence) := by
  rw [record_eq]
  exact Field.text_object (right_fields call sequence)

theorem byteLen_sliceTo (size : ℕ) (text : List Char) : byteLen (sliceTo size text) ≤ size := by
  induction text generalizing size with
  | nil => exact Nat.zero_le _
  | cons c text ih =>
    rw [sliceTo]
    split_ifs with hfits
    · have hrest := ih (size - byteLen [c])
      have hcons := byteLen_append [c] (sliceTo (size - byteLen [c]) text)
      rw [List.singleton_append] at hcons
      omega
    · exact Nat.zero_le _

/-- The ellipsis is behind the 512 bytes. -/
theorem byteLen_truncatePreview (preview : List Char) :
    byteLen (truncatePreview preview).1 ≤ maxPreview + 3 := by
  rw [truncatePreview]
  split_ifs with hshort
  · exact Nat.le_add_right_of_le hshort
  · have hslice := byteLen_sliceTo maxPreview preview
    have hdots : byteLen ['…'] = 3 := by decide
    simp only [byteLen_append, hdots]
    omega

/-- The names of a call are not too long together. -/
def Fits (call : Call) : Prop :=
  byteLen call.probeId + byteLen call.name + byteLen call.typeName ≤ 10000

theorem byteLen_record {call : Call} (h : Fits call) (sequence : UInt64) :
    byteLen (record call sequence) ≤ maxLine := by
  have hline := byteLen_decimal (n := call.line.toNat) (k := 10) (by decide)
    (Nat.lt_trans call.line.toNat_lt (by decide))
  have hcolumn := byteLen_decimal (n := call.column.toNat) (k := 10) (by decide)
    (Nat.lt_trans call.column.toNat_lt (by decide))
  have hsize := byteLen_decimal (n := call.size.toNat) (k := 20) (by decide)
    (Nat.lt_trans call.size.toNat_lt (by decide))
  have halign := byteLen_decimal (n := call.align.toNat) (k := 20) (by decide)
    (Nat.lt_trans call.align.toNat_lt (by decide))
  have hsequence := byteLen_decimal (n := sequence.toNat) (k := 20) (by decide)
    (Nat.lt_trans sequence.toNat_lt (by decide))
  have hid := byteLen_escaped call.probeId
  have hname := byteLen_escaped call.name
  have htype := byteLen_escaped call.typeName
  have hpreview := byteLen_escaped (truncatePreview call.preview).1
  have htruncated := byteLen_truncatePreview call.preview
  have hflag := byteLen_boolText (truncatePreview call.preview).2
  have hliterals : byteLen "\x7b\"protocolVersion\":1,\"kind\":\"probe_value\",\"probeId\":\"".toList +
      byteLen "\",\"name\":\"".toList + byteLen "\",\"line\":".toList +
      byteLen ",\"column\":".toList + byteLen ",\"typeName\":\"".toList +
      byteLen "\",\"preview\":\"".toList + byteLen "\",\"sizeBytes\":".toList +
      byteLen ",\"alignBytes\":".toList + byteLen ",\"truncated\":".toList +
      byteLen ",\"sequence\":".toList + byteLen "\x7d".toList ≤ 200 := by
    decide
  unfold record
  simp only [byteLen_append]
  rw [Fits] at h
  rw [maxPreview] at htruncated
  rw [maxLine]
  omega

theorem speaks : Speaks runtime Fits event record where
  record e he := by
    obtain ⟨render, hrender, hrecord⟩ := he
    cases hrender
    exact (Option.some.inj hrecord).symm
  short e _ hfits := byteLen_record hfits e.sequence
  decodes e _ _ :=
    ⟨_, text_record e.call e.sequence, rawProbeEvent_value e.call e.sequence⟩
  version _ _ := ⟨rfl, rfl⟩

theorem rust_probes_arrive {serde : List Char → Except String RawProbeEvent}
    (hserde : ReadsJson rawProbeEvent serde) {s : State Call}
    (hs : (machine runtime).Reaches {} s) (hfits : ∀ e ∈ s.written, Fits e.call) (limit : ℕ)
    {chunks : List (List UInt8)} (hchunks : chunks.flatten = s.channel) :
    Arrives event limit s (Reader.read (probeChannel serde) limit chunks) :=
  speaks.arrives hserde hs hfits limit hchunks

/-! ## Two threads that cross -/

def quickCall (line : UInt32) : Call where
  probeId := "p".toList
  name := "x\"".toList
  line
  column := 1
  preview := "é\n".toList
  typeName := "&str".toList
  size := 16
  align := 8

/-- The second thread writes first. -/
def crossed : State Call :=
  [Action.emit 0 (quickCall 1), .emit 1 (quickCall 2), .write 1, .write 0].foldl
    (machine runtime).next {}

theorem reaches_crossed : (machine runtime).Reaches {} crossed := by
  have hfirst := (Machine.Reaches.refl (M := machine runtime) {}).tail
    (show (machine runtime).enabled _ (.emit 0 (quickCall 1)) from rfl)
  have hsecond := hfirst.tail
    (show (machine runtime).enabled _ (.emit 1 (quickCall 2)) from rfl)
  have hthird := hsecond.tail
    (show (machine runtime).enabled _ (.write 1) from Option.some_ne_none _)
  exact hthird.tail (show (machine runtime).enabled _ (.write 0) from Option.some_ne_none _)

theorem fits_crossed : ∀ e ∈ crossed.written, Fits e.call := by
  intro e he
  have hcall : e.call ∈ crossed.written.map Emission.call := List.mem_map_of_mem he
  have hcalls : crossed.written.map Emission.call = [quickCall 2, quickCall 1] := rfl
  rw [hcalls] at hcall
  rcases List.mem_pair.mp hcall with h | h <;> rw [h] <;> simp only [Fits] <;> decide

theorem rust_probes_arrive_crossed :
    Arrives event 10000 crossed (Reader.read (probeChannel (fromStr rawProbeEvent)) 10000
      (crossed.channel.map fun b => [b])) :=
  rust_probes_arrive (readsJson_fromStr rawProbeEvent) reaches_crossed fits_crossed 10000
    (by rw [← List.flatMap_def, List.flatMap_singleton'])

end Atomis.RustProbes
