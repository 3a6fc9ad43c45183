import Atomis.Lib.TwosComplement
import Mathlib.Data.Int.ModEq
import Mathlib.Data.List.Range

/-!
# The arithmetic of the peek panel

Values arrive as signed or unsigned integers of a width. Everything is computed on the unsigned
pattern, so a shift to the right fills up with zeros.
-/

namespace Atomis.Lowlevel

open TwosComplement

inductive BitOperator
  | and
  | or
  | xor
  | shl
  | shr
deriving DecidableEq

structure BitopInfo where
  operator : BitOperator
  operand : ℕ

def unsignedValue (value : ℤ) (bits : ℕ) : ℤ := if value < 0 then value + ((1 : ℤ) <<< bits) else value

def bitArray (value : ℤ) (bits : ℕ) : List ℕ :=
  let unsigned := unsignedValue value bits
  (List.range bits).reverse.map fun index : ℕ =>
    if Int.land (unsigned >>> index) 1 ≠ 0 then 1 else 0

def flipBit (value : ℤ) (bits index : ℕ) : ℤ :=
  Int.xor (unsignedValue value bits) ((1 : ℤ) <<< (bits - 1 - index))

/-- `Math.max(1, Math.ceil(bits / 8))` -/
def byteCount (bits : ℕ) : ℕ := max 1 ((bits + 7) / 8)

def bytesLE (value : ℤ) (bits : ℕ) : List ℤ :=
  let unsigned := unsignedValue value bits
  (List.range (byteCount bits)).map fun index : ℕ => Int.land (unsigned >>> (index * 8)) 0xff

def applyBitop (a : ℤ) (info : BitopInfo) (bits : ℕ) : ℤ :=
  let mask := ((1 : ℤ) <<< bits) - 1
  let ua := unsignedValue a bits
  let shift := if info.operand < bits then info.operand else bits
  match info.operator with
  | .shl => Int.land (ua <<< shift) mask
  | .shr => ua >>> shift
  | .and => Int.land (Int.land ua info.operand) mask
  | .or => Int.land (Int.lor ua info.operand) mask
  | .xor => Int.land (Int.xor ua info.operand) mask

/-! ## Values of a width -/

variable {value : ℤ} {bits operand index : ℕ}

/-- In the signed or the unsigned range of the width. -/
structure InRange (value : ℤ) (bits : ℕ) : Prop where
  low : -2 ^ (bits - 1) ≤ value
  high : value < 2 ^ bits

theorem one_shl (k : ℕ) : (1 : ℤ) <<< k = 2 ^ k := by
  rw [Int.shiftLeft_eq, Int.one_mul]

theorem InRange.unsignedValue_eq (h : InRange value bits) (hbits : 1 ≤ bits) :
    unsignedValue value bits = value % 2 ^ bits := by
  rw [unsignedValue, one_shl]
  split_ifs with hneg
  · have hhalf : (2 : ℤ) ^ bits = 2 * 2 ^ (bits - 1) := by
      rw [← pow_succ', Nat.sub_add_cancel hbits]
    have hlow := h.low
    have hpos : (0 : ℤ) < 2 ^ (bits - 1) := by positivity
    rw [← Int.add_emod_right, Int.emod_eq_of_lt] <;> omega
  · exact (Int.emod_eq_of_lt (by omega) h.high).symm

theorem emod_nonneg (value : ℤ) (bits : ℕ) : 0 ≤ value % 2 ^ bits :=
  Int.emod_nonneg _ (by positivity)

theorem emod_lt (value : ℤ) (bits : ℕ) : value % 2 ^ bits < 2 ^ bits :=
  Int.emod_lt_of_pos _ (by positivity)

/-! ## Bits and bytes -/

def bit (value : ℤ) (bits index : ℕ) : ℕ := if (value % 2 ^ bits).testBit index then 1 else 0

/-- The bits of the value modulo the width's power, the greatest first. -/
def bigEndianBits (value : ℤ) (bits : ℕ) : List ℕ :=
  (List.range bits).map fun index => bit value bits (bits - 1 - index)

def littleEndianBytes (value : ℤ) (bits : ℕ) : List ℤ :=
  (List.range (byteCount bits)).map fun index => value % 2 ^ bits / 256 ^ index % 256

theorem land_one_ne_zero_iff {a : ℤ} {k : ℕ} (h : 0 ≤ a) :
    Int.land (a >>> k) 1 ≠ 0 ↔ a.testBit k = true := by
  obtain ⟨n, rfl⟩ := Int.eq_ofNat_of_zero_le h
  have hland : Int.land ((n : ℤ) >>> k) 1 = ((n / 2 ^ k % 2 : ℕ) : ℤ) := by
    have hmask := land_mask (Int.ediv_nonneg h (by positivity : (0 : ℤ) ≤ 2 ^ k)) 1
    rw [Int.shiftRight_eq_div_pow]
    push_cast
    exact hmask
  rw [hland, testBit_natCast, Nat.testBit_eq_decide_div_mod_eq, decide_eq_true_eq]
  omega

theorem reverse_range (n : ℕ) :
    (List.range n).reverse = (List.range n).map fun index => n - 1 - index := by
  rw [List.range_eq_range', List.reverse_range', Nat.zero_add, List.range_eq_range']

theorem InRange.bitArray_eq (h : InRange value bits) (hbits : 1 ≤ bits) :
    bitArray value bits = bigEndianBits value bits := by
  rw [bitArray, bigEndianBits, reverse_range, List.map_map]
  refine List.map_congr_left fun index _ => ?_
  simp only [Function.comp_apply, bit, h.unsignedValue_eq hbits,
    land_one_ne_zero_iff (emod_nonneg value bits)]

theorem InRange.bytesLE_eq (h : InRange value bits) (hbits : 1 ≤ bits) :
    bytesLE value bits = littleEndianBytes value bits := by
  rw [bytesLE, littleEndianBytes]
  refine List.map_congr_left fun index _ => ?_
  have hmask : (0xff : ℤ) = 2 ^ 8 - 1 := by norm_num
  have hshift : (2 : ℤ) ^ (index * 8) = 256 ^ index := by
    rw [Nat.mul_comm, pow_mul]
    norm_num
  rw [h.unsignedValue_eq hbits, hmask, Int.shiftRight_eq_div_pow, land_mask]
  · push_cast
    rw [hshift]
  · exact Int.ediv_nonneg (emod_nonneg value bits) (by positivity)

/-! ## Flipping a bit -/

theorem InRange.testBit_flipBit (h : InRange value bits) (hbits : 1 ≤ bits) (k : ℕ) :
    (flipBit value bits index).testBit k =
      ((value % 2 ^ bits).testBit k ^^ decide (bits - 1 - index = k)) := by
  rw [flipBit, one_shl, Int.testBit_lxor, testBit_two_pow, h.unsignedValue_eq hbits]

theorem InRange.flipBit_nonneg (h : InRange value bits) (hbits : 1 ≤ bits) :
    0 ≤ flipBit value bits index := by
  rw [flipBit, one_shl, h.unsignedValue_eq hbits]
  exact xor_nonneg (emod_nonneg value bits) (by positivity)

/-- What is flipped is a value of the unsigned range again. -/
theorem InRange.flipBit_emod (h : InRange value bits) (hbits : 1 ≤ bits) (hindex : index < bits) :
    flipBit value bits index % 2 ^ bits = flipBit value bits index := by
  refine eq_of_testBit (emod_nonneg _ bits) (h.flipBit_nonneg hbits) fun k => ?_
  rw [testBit_emod, h.testBit_flipBit hbits, testBit_emod]
  by_cases hk : k < bits
  · simp [hk]
  · have hne : bits - 1 - index ≠ k := by omega
    simp [hk, hne]

theorem InRange.flipBit_inRange (h : InRange value bits) (hbits : 1 ≤ bits) (hindex : index < bits) :
    InRange (flipBit value bits index) bits := by
  have hpos : (0 : ℤ) < 2 ^ (bits - 1) := by positivity
  have hnonneg : 0 ≤ flipBit value bits index := h.flipBit_nonneg hbits
  refine ⟨by linarith, ?_⟩
  rw [← h.flipBit_emod hbits hindex]
  exact emod_lt _ bits

theorem InRange.flipBit_flipBit (h : InRange value bits) (hbits : 1 ≤ bits) (hindex : index < bits) :
    flipBit (flipBit value bits index) bits index = value % 2 ^ bits := by
  have hflipped := h.flipBit_inRange hbits hindex
  refine eq_of_testBit (hflipped.flipBit_nonneg hbits) (emod_nonneg value bits) fun k => ?_
  rw [hflipped.testBit_flipBit hbits, h.flipBit_emod hbits hindex, h.testBit_flipBit hbits,
    Bool.xor_assoc, Bool.xor_self, Bool.xor_false]

/-- The chosen bit, counted from the greatest, is flipped, and no other. -/
theorem InRange.bitArray_flipBit (h : InRange value bits) (hbits : 1 ≤ bits) (hindex : index < bits) :
    bitArray (flipBit value bits index) bits = (bitArray value bits).modify index (1 - ·) := by
  rw [(h.flipBit_inRange hbits hindex).bitArray_eq hbits, h.bitArray_eq hbits]
  refine List.ext_getElem (by simp [bigEndianBits]) fun k hk hk' => ?_
  have hlt : k < bits := by simpa [bigEndianBits] using hk
  rw [List.getElem_modify]
  simp only [bigEndianBits, List.getElem_map, List.getElem_range, bit, h.flipBit_emod hbits hindex,
    h.testBit_flipBit hbits]
  by_cases hsame : index = k
  · subst hsame
    cases (value % 2 ^ bits).testBit (bits - 1 - index) <;> simp
  · have hne : bits - 1 - index ≠ bits - 1 - k := by omega
    simp [hsame, hne]

/-! ## Operators -/

/-- What the operator gives on integers of any size: a shift to the right rounds down. -/
def languageOp (value : ℤ) (info : BitopInfo) : ℤ :=
  match info.operator with
  | .shl => value * 2 ^ info.operand
  | .shr => value / 2 ^ info.operand
  | .and => Int.land value info.operand
  | .or => Int.lor value info.operand
  | .xor => Int.xor value info.operand

theorem shl_eq (value : ℤ) (operand bits : ℕ) :
    Int.land ((value % 2 ^ bits) <<< (if operand < bits then operand else bits)) (2 ^ bits - 1) =
      value * 2 ^ operand % 2 ^ bits := by
  rw [Int.shiftLeft_eq, land_mask (mul_nonneg (emod_nonneg value bits) (by positivity))]
  split_ifs with hsmall
  · exact (Int.mod_modEq value (2 ^ bits)).mul_right (2 ^ operand)
  · rw [Int.mul_emod_left]
    refine (Int.emod_eq_zero_of_dvd ?_).symm
    exact Dvd.dvd.mul_left (pow_dvd_pow 2 (Nat.le_of_not_lt hsmall)) value

theorem shr_of_nonneg (h : InRange value bits) (hnonneg : 0 ≤ value) :
    (value % 2 ^ bits) >>> (if operand < bits then operand else bits) =
      value / 2 ^ operand % 2 ^ bits := by
  rw [Int.emod_eq_of_lt hnonneg h.high, Int.shiftRight_eq_div_pow]
  split_ifs with hsmall
  · have hle : value / 2 ^ operand ≤ value := Int.ediv_le_self _ hnonneg
    push_cast
    exact (Int.emod_eq_of_lt (Int.ediv_nonneg hnonneg (by positivity)) (by linarith [h.high])).symm
  · have hpow : (2 : ℤ) ^ bits ≤ 2 ^ operand :=
      pow_le_pow_right₀ (by norm_num) (Nat.le_of_not_lt hsmall)
    push_cast
    rw [Int.ediv_eq_zero_of_lt hnonneg h.high,
      Int.ediv_eq_zero_of_lt hnonneg (lt_of_lt_of_le h.high hpow), Int.zero_emod]

/-- The pattern of a negative value is filled up with zeros, the value with ones. -/
theorem shr_of_neg (h : InRange value bits) (hbits : 1 ≤ bits) (hneg : value < 0)
    (hoperand : operand ≠ 0) :
    (value % 2 ^ bits) >>> (if operand < bits then operand else bits) ≠
      value / 2 ^ operand % 2 ^ bits := by
  have hhalf : (2 : ℤ) ^ bits = 2 * 2 ^ (bits - 1) := by
    rw [← pow_succ', Nat.sub_add_cancel hbits]
  have hlow := h.low
  have hpattern : (value % 2 ^ bits) >>> (if operand < bits then operand else bits) <
      2 ^ (bits - 1) := by
    obtain ⟨shift, hshift⟩ : ∃ shift, (if operand < bits then operand else bits) = shift + 1 :=
      Nat.exists_eq_succ_of_ne_zero (by split_ifs <;> omega)
    rw [hshift, Int.shiftRight_eq_div_pow]
    push_cast
    refine Int.ediv_lt_of_lt_mul (by positivity) (lt_of_lt_of_le (emod_lt value bits) ?_)
    rw [hhalf, pow_succ]
    have hone : (1 : ℤ) ≤ 2 ^ shift := one_le_pow₀ (by norm_num)
    have hpos : (0 : ℤ) < 2 ^ (bits - 1) := by positivity
    nlinarith
  have hquotient : value / 2 ^ operand < 0 := Int.ediv_neg_of_neg_of_pos hneg (by positivity)
  have hbound : -2 ^ (bits - 1) ≤ value / 2 ^ operand := by
    refine (Int.le_ediv_iff_mul_le (by positivity)).mpr ?_
    have hone : (1 : ℤ) ≤ 2 ^ operand := one_le_pow₀ (by norm_num)
    have hpos : (0 : ℤ) < 2 ^ (bits - 1) := by positivity
    nlinarith
  have hvalue : value / 2 ^ operand % 2 ^ bits = value / 2 ^ operand + 2 ^ bits := by
    rw [← Int.add_emod_right, Int.emod_eq_of_lt] <;> omega
  omega

theorem applyBitop_iff (h : InRange value bits) (hbits : 1 ≤ bits) (info : BitopInfo) :
    applyBitop value info bits = languageOp value info % 2 ^ bits ↔
      0 ≤ value ∨ info.operator ≠ .shr ∨ info.operand = 0 := by
  obtain ⟨operator, operand⟩ := info
  simp only [applyBitop, languageOp, one_shl, h.unsignedValue_eq hbits]
  cases operator with
  | shl => exact iff_of_true (shl_eq value operand bits) (Or.inr (Or.inl (by decide)))
  | and =>
    refine iff_of_true ?_ (Or.inr (Or.inl (by decide)))
    exact (land_mask (land_nonneg (emod_nonneg value bits)) bits).trans
      (land_emod value operand bits)
  | or =>
    refine iff_of_true ?_ (Or.inr (Or.inl (by decide)))
    exact (land_mask (lor_nonneg (emod_nonneg value bits) (Int.natCast_nonneg _)) bits).trans
      (lor_emod value operand bits)
  | xor =>
    refine iff_of_true ?_ (Or.inr (Or.inl (by decide)))
    exact (land_mask (xor_nonneg (emod_nonneg value bits) (Int.natCast_nonneg _)) bits).trans
      (xor_emod value operand bits)
  | shr =>
    rcases lt_or_ge value 0 with hneg | hnonneg
    · by_cases hoperand : operand = 0
      · subst hoperand
        refine iff_of_true ?_ (Or.inr (Or.inr rfl))
        simp only [if_pos (show 0 < bits from hbits), Int.shiftRight_zero, pow_zero, Int.ediv_one]
      · refine iff_of_false (shr_of_neg h hbits hneg hoperand) ?_
        rintro (hnonneg | hother | hzero)
        · omega
        · exact hother rfl
        · exact hoperand hzero
    · exact iff_of_true (shr_of_nonneg h hnonneg) (Or.inl hnonneg)

/-- The panel computes with integers of the width, but for a negative value shifted to the right. -/
theorem panel_exact (h : InRange value bits) (hbits : 1 ≤ bits) (info : BitopInfo) :
    (bitArray value bits = bigEndianBits value bits ∧
      bytesLE value bits = littleEndianBytes value bits ∧
      (∀ index, index < bits →
        bitArray (flipBit value bits index) bits = (bitArray value bits).modify index (1 - ·) ∧
        flipBit (flipBit value bits index) bits index = value % 2 ^ bits) ∧
      applyBitop value info bits = languageOp value info % 2 ^ bits) ↔
      0 ≤ value ∨ info.operator ≠ .shr ∨ info.operand = 0 := by
  rw [← applyBitop_iff h hbits info]
  constructor
  · exact fun hall => hall.2.2.2
  · exact fun hop => ⟨h.bitArray_eq hbits, h.bytesLE_eq hbits,
      fun index hindex => ⟨h.bitArray_flipBit hbits hindex, h.flipBit_flipBit hbits hindex⟩, hop⟩

/-- A signed byte shifted to the right: 124 instead of 252, the pattern of -4. -/
theorem shr_differs : InRange (-8) 8 ∧
    applyBitop (-8) ⟨.shr, 1⟩ 8 ≠ languageOp (-8) ⟨.shr, 1⟩ % 2 ^ 8 := by
  refine ⟨⟨by decide, by decide⟩, by decide⟩

theorem panel_exact_byte :
    (bitArray (-8) 8 = bigEndianBits (-8) 8 ∧
      bytesLE (-8) 8 = littleEndianBytes (-8) 8 ∧
      (∀ index, index < 8 →
        bitArray (flipBit (-8) 8 index) 8 = (bitArray (-8) 8).modify index (1 - ·) ∧
        flipBit (flipBit (-8) 8 index) 8 index = (-8) % 2 ^ 8) ∧
      applyBitop (-8) ⟨.shl, 1⟩ 8 = languageOp (-8) ⟨.shl, 1⟩ % 2 ^ 8) ↔
      (0 : ℤ) ≤ -8 ∨ BitOperator.shl ≠ .shr ∨ 1 = 0 :=
  panel_exact ⟨by decide, by decide⟩ (by decide) ⟨.shl, 1⟩

end Atomis.Lowlevel
