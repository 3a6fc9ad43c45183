import Atomis.Lib.Json
import Atomis.NdjsonLines

/-!
# What the session runtimes write

The Rust runtime escapes the characters of a text and the Zig runtime its bytes; the texts are
the same. A record is an object that the reader of the probe channel decodes. `serde_json` is a
parameter, known to read every text of an object that has the members asked for.
-/

namespace Atomis.RuntimeJson
open Json Utf8 Ndjson

/-! ## Escapes -/

def hexChar (n : ℕ) : Char := Nat.digitChar (n % 16)

/-- `{:04x}` -/
def hexFour (n : ℕ) : List Char :=
  [hexChar (n / 4096), hexChar (n / 256), hexChar (n / 16), hexChar n]

def escapeChar (c : Char) : List Char :=
  if c = '"' then ['\\', '"']
  else if c = '\\' then ['\\', '\\']
  else if c = '\n' then ['\\', 'n']
  else if c = '\r' then ['\\', 'r']
  else if c = '\t' then ['\\', 't']
  else if c.toNat < 0x20 then '\\' :: 'u' :: hexFour c.toNat
  else [c]

/-- What `push_json_escaped` pushes. -/
def pushJsonEscaped (value : List Char) : List Char := value.flatMap escapeChar

def ascii (text : List Char) : List UInt8 := text.map fun c => UInt8.ofNat c.toNat

def escapeByte (byte : UInt8) : List UInt8 :=
  if byte = 34 then ascii ['\\', '"']
  else if byte = 92 then ascii ['\\', '\\']
  else if byte = 10 then ascii ['\\', 'n']
  else if byte = 13 then ascii ['\\', 'r']
  else if byte = 9 then ascii ['\\', 't']
  else if byte.toNat ≤ 0x1f then
    ascii ['\\', 'u', '0', '0', hexChar (byte.toNat / 16), hexChar byte.toNat]
  else [byte]

/-- `appendJsonString`, with the quotes. -/
def appendJsonString (value : List UInt8) : List UInt8 :=
  34 :: (value.flatMap escapeByte ++ [34])

theorem body_escapeChar (c : Char) {text body : List Char} (h : Body text body) :
    Body (c :: text) (escapeChar c ++ body) := by
  rw [escapeChar]
  split_ifs with hquote hslash hline hreturn htab hcontrol
  · subst hquote
    exact Body.escaped (by decide) h
  · subst hslash
    exact Body.escaped (by decide) h
  · subst hline
    exact Body.escaped (by decide) h
  · subst hreturn
    exact Body.escaped (by decide) h
  · subst htab
    exact Body.escaped (by decide) h
  · have hcode : ∀ n < 32, code (hexChar (n / 4096)) (hexChar (n / 256)) (hexChar (n / 16))
        (hexChar n) = some n := by decide
    have hunicode := Body.unicode (hcode c.toNat hcontrol) (Or.inl (by omega)) h
    rwa [Char.ofNat_toNat] at hunicode
  · exact .plain hquote hslash (Nat.le_of_not_lt hcontrol) h

theorem body_escaped (value : List Char) : Body value (pushJsonEscaped value) := by
  induction value with
  | nil => exact .nil
  | cons c value ih => exact body_escapeChar c ih

/-- Six bytes for one at the most. -/
theorem byteLen_escaped (value : List Char) :
    byteLen (pushJsonEscaped value) ≤ 6 * byteLen value := by
  induction value with
  | nil => exact Nat.le_refl _
  | cons c value ih =>
    have hone : byteLen (escapeChar c) ≤ 6 * byteLen [c] := by
      have hpos : 0 < byteLen [c] := by
        simp only [byteLen, encode_cons, List.length_append]
        have hsize := String.length_utf8EncodeChar c
        have hpos := Char.utf8Size_pos c
        omega
      rw [escapeChar]
      split_ifs with hquote hslash hline hreturn htab hcontrol
      · have htwo : byteLen ['\\', '"'] = 2 := by decide
        omega
      · have htwo : byteLen ['\\', '\\'] = 2 := by decide
        omega
      · have htwo : byteLen ['\\', 'n'] = 2 := by decide
        omega
      · have htwo : byteLen ['\\', 'r'] = 2 := by decide
        omega
      · have htwo : byteLen ['\\', 't'] = 2 := by decide
        omega
      · have hsix : ∀ n < 32, byteLen ('\\' :: 'u' :: hexFour n) = 6 := by decide
        have hlength := hsix c.toNat hcontrol
        omega
      · omega
    have hcons : byteLen (c :: value) = byteLen [c] + byteLen value := byteLen_append [c] value
    rw [pushJsonEscaped, List.flatMap_cons, byteLen_append]
    rw [pushJsonEscaped] at ih
    omega

/-- No byte of a longer character is escaped. -/
theorem high_of_mem_encodeChar {c : Char} (hc : 0x80 ≤ c.toNat) {b : UInt8}
    (hb : b ∈ String.utf8EncodeChar c) : 0x80 ≤ b.toNat := by
  have hval : c.val.toNat = c.toNat := rfl
  have hvalid := c.valid
  simp only [UInt32.isValidChar, Nat.isValidChar] at hvalid
  simp only [String.utf8EncodeChar, hval] at hb
  rw [hval] at hvalid
  split_ifs at hb with h₁ h₂ h₃
  · omega
  all_goals simp only [List.mem_cons, List.not_mem_nil, or_false] at hb
  · rcases hb with rfl | rfl <;> rw [toNat_ofNat (by omega)] <;> omega
  · rcases hb with rfl | rfl | rfl <;> rw [toNat_ofNat (by omega)] <;> omega
  · rcases hb with rfl | rfl | rfl | rfl <;> rw [toNat_ofNat (by omega)] <;> omega

theorem escapeByte_of_high {byte : UInt8} (h : 0x80 ≤ byte.toNat) : escapeByte byte = [byte] := by
  have hne : ∀ {small : UInt8}, small.toNat < 0x80 → byte ≠ small := by
    rintro small hsmall rfl
    omega
  rw [escapeByte, if_neg (hne (by decide)), if_neg (hne (by decide)), if_neg (hne (by decide)),
    if_neg (hne (by decide)), if_neg (hne (by decide)), if_neg (by omega)]

theorem escapeChar_of_high {c : Char} (h : 0x80 ≤ c.toNat) : escapeChar c = [c] := by
  have hne : ∀ {small : Char}, small.toNat < 0x80 → c ≠ small := by
    rintro small hsmall rfl
    omega
  rw [escapeChar, if_neg (hne (by decide)), if_neg (hne (by decide)), if_neg (hne (by decide)),
    if_neg (hne (by decide)), if_neg (hne (by decide)), if_neg (by omega)]

theorem flatMap_escapeByte (value : List Char) :
    (encode value).flatMap escapeByte = encode (pushJsonEscaped value) := by
  induction value with
  | nil => rfl
  | cons c value ih =>
    have hone : (String.utf8EncodeChar c).flatMap escapeByte = encode (escapeChar c) := by
      by_cases hc : c.toNat < 0x80
      · have hall : ∀ n < 128, escapeByte (UInt8.ofNat n) = encode (escapeChar (Char.ofNat n)) := by
          decide
        have hthis := hall c.toNat hc
        rw [Char.ofNat_toNat] at hthis
        simp [encodeChar_ascii hc, hthis]
      · have hhigh : 0x80 ≤ c.toNat := Nat.le_of_not_lt hc
        rw [escapeChar_of_high hhigh, encode_cons]
        have hbytes : ∀ b ∈ String.utf8EncodeChar c, escapeByte b = [b] := fun b hb =>
          escapeByte_of_high (high_of_mem_encodeChar hhigh hb)
        rw [List.flatMap_congr hbytes]
        simp [encode]
    rw [encode_cons, List.flatMap_append, hone, ih, ← encode_append]
    rfl

theorem appendJsonString_encode (value : List Char) :
    appendJsonString (encode value) = encode ('"' :: (pushJsonEscaped value ++ ['"'])) := by
  rw [appendJsonString, flatMap_escapeByte, encode_cons, encode_append]
  rfl

/-! ## Fields of a record -/

def decimal (n : ℕ) : List Char := Nat.toDigits 10 n

def boolText (b : Bool) : List Char := if b then "true".toList else "false".toList

def quoted (value : List Char) : List Char := '"' :: (pushJsonEscaped value ++ ['"'])

/-- `print` and `writeAll` of a text. -/
def print (text : String) : List UInt8 := encode text.toList

def printNumber (n : ℕ) : List UInt8 := encode (decimal n)

theorem appendJsonString_quoted (value : List Char) :
    appendJsonString (encode value) = encode (quoted value) := appendJsonString_encode value

def numberField (key : String) (n : ℕ) : Field := ⟨key, .number n, decimal n⟩

def textField (key : String) (value : List Char) : Field :=
  ⟨key, .string value, quoted value⟩

def boolField (key : String) (b : Bool) : Field := ⟨key, .bool b, boolText b⟩

theorem right_numberField {key : String} (h : plain key.toList = true) (n : ℕ) :
    (numberField key n).Right := ⟨h, .number n⟩

theorem right_textField {key : String} (h : plain key.toList = true) (value : List Char) :
    (textField key value).Right := ⟨h, .string (body_escaped value)⟩

theorem right_boolField {key : String} (h : plain key.toList = true) (b : Bool) :
    (boolField key b).Right := by
  refine ⟨h, ?_⟩
  cases b
  · exact .false
  · exact .true

theorem byteLen_decimal {n k : ℕ} (hk : 0 < k) (h : n < 10 ^ k) : byteLen (decimal n) ≤ k := by
  have hascii : ∀ c ∈ decimal n, c.toNat < 0x80 := by
    intro c hc
    have hdigit := Nat.isDigit_of_mem_toDigits (by decide) (by decide) hc
    have hbounds := toNat_of_isDigit hdigit
    omega
  rw [byteLen, encode_ascii hascii, List.length_map]
  exact (Nat.length_toDigits_le_iff (by decide) hk).mpr h

theorem byteLen_boolText (b : Bool) : byteLen (boolText b) ≤ 5 := by
  cases b <;> decide

theorem byteLen_quoted (value : List Char) : byteLen (quoted value) ≤ 6 * byteLen value + 2 := by
  have hescaped := byteLen_escaped value
  have hcons := byteLen_append ['"'] (pushJsonEscaped value ++ ['"'])
  have hlast := byteLen_append (pushJsonEscaped value) ['"']
  have hone : byteLen ['"'] = 1 := by decide
  rw [List.singleton_append] at hcons
  rw [quoted]
  omega

/-! ## Decoding -/

/-- The value of a member that no other one of the object has the name of. -/
def unique (members : List (String × Value)) (key : String) : Option (Option Value) :=
  match members.filter fun m => m.1 = key with
  | [] => some none
  | [m] => some (some m.2)
  | _ => none

def required {α : Type} (read : Value → Option α) (members : List (String × Value))
    (key : String) : Option α :=
  match unique members key with
  | some (some v) => read v
  | _ => none

def defaulted {α : Type} (read : Value → Option α) (members : List (String × Value))
    (key : String) : Option (Option α) :=
  match unique members key with
  | some none | some (some .null) => some none
  | some (some v) => (read v).map some
  | none => none

/-- An unsigned integer of so many bits. -/
def unsigned (bits : ℕ) : Value → Option ℕ
  | .number n => if n < 2 ^ bits then some n else none
  | _ => none

def text : Value → Option String
  | .string text => some (String.ofList text)
  | _ => none

def boolean : Value → Option Bool
  | .bool b => some b
  | _ => none

def list {α : Type} (read : Value → Option α) : Value → Option (List α)
  | .array values => values.mapM read
  | _ => none

def probeFieldLayout : Value → Option ProbeFieldLayout
  | .object members => do
    let name ← required text members "name"
    let typeName ← required text members "typeName"
    let offset ← required (unsigned 32) members "offset"
    let size ← required (unsigned 32) members "size"
    let preview ← required text members "preview"
    some { name, typeName, offset, size, preview }
  | _ => none

def rawProbeEvent : Value → Option RawProbeEvent
  | .object members => do
    let protocolVersion ← required (unsigned 8) members "protocolVersion"
    let kind ← required text members "kind"
    let probeId ← required text members "probeId"
    let name ← required text members "name"
    let line ← required (unsigned 32) members "line"
    let column ← required (unsigned 32) members "column"
    let typeName ← required text members "typeName"
    let preview ← required text members "preview"
    let truncated ← required boolean members "truncated"
    let sequence ← required (unsigned 64) members "sequence"
    let bits ← defaulted (unsigned 32) members "bits"
    let sizeBytes ← defaulted (unsigned 64) members "sizeBytes"
    let alignBytes ← defaulted (unsigned 64) members "alignBytes"
    let fields ← defaulted (list probeFieldLayout) members "fields"
    some { protocolVersion, kind, probeId, name, line, column, typeName, preview, truncated,
           sequence, bits, sizeBytes, alignBytes, fields }
  | _ => none

/-- A number without a fraction, as an `f64`. -/
def float : Value → Option Float
  | .number n => if n < 2 ^ 64 then some (Float.ofNat n) else none
  | _ => none

def rawTestStatus : Value → Option RawTestStatus
  | .string name =>
    if String.ofList name = "passed" then some .passed
    else if String.ofList name = "failed" then some .failed
    else if String.ofList name = "skipped" then some .skipped
    else if String.ofList name = "leaked" then some .leaked
    else none
  | _ => none

def rawTestEvent (members : List (String × Value)) : Option RawTestEvent := do
  let kind ← required text members "kind"
  if kind = "test_start" then
    let index ← required (unsigned 32) members "index"
    let name ← required text members "name"
    some (.testStart index name)
  else if kind = "test_result" then
    let index ← required (unsigned 32) members "index"
    let name ← required text members "name"
    let status ← required rawTestStatus members "status"
    let durationNs ← required float members "durationNs"
    let error ← defaulted text members "error"
    some (.testResult index name status durationNs error)
  else if kind = "test_summary" then
    let passed ← required (unsigned 32) members "passed"
    let failed ← required (unsigned 32) members "failed"
    let skipped ← required (unsigned 32) members "skipped"
    let leaked ← required (unsigned 32) members "leaked"
    some (.testSummary passed failed skipped leaked)
  else none

def testEnvelope : Value → Option TestEnvelope
  | .object members => do
    let protocolVersion ← required (unsigned 8) members "protocolVersion"
    let event ← rawTestEvent members
    some { protocolVersion, event }
  | _ => none

/-- What is known of `serde_json::from_str`: the texts of what decodes are read. -/
def ReadsJson {Event : Type} (decode : Value → Option Event)
    (serde : List Char → Except String Event) : Prop :=
  ∀ v text event, Text v text → decode v = some event → serde text = .ok event

/-- Reading by the parser. -/
def fromStr {Event : Type} (decode : Value → Option Event) (line : List Char) :
    Except String Event :=
  match (parse line).bind decode with
  | some event => .ok event
  | none => .error "invalid"

theorem readsJson_fromStr {Event : Type} (decode : Value → Option Event) :
    ReadsJson decode (fromStr decode) := by
  intro v text event htext hdecode
  rw [fromStr, parse_text htext, Option.bind_some, hdecode]

end Atomis.RuntimeJson
