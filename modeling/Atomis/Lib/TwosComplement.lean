import Mathlib.Data.Int.Bitwise
import Mathlib.Tactic.Linarith
import Mathlib.Tactic.Positivity

/-!
# Integers of a fixed width

The bits of an integer below a width are those of its remainder by the power of two, for negative
integers too, so that the bitwise operators can be applied to either.
-/

namespace Atomis.TwosComplement

variable {a b : ℤ} {bits i : ℕ}

theorem testBit_natCast (n i : ℕ) : (n : ℤ).testBit i = n.testBit i := rfl

theorem eq_of_testBit (ha : 0 ≤ a) (hb : 0 ≤ b) (h : ∀ i, a.testBit i = b.testBit i) : a = b := by
  obtain ⟨m, rfl⟩ := Int.eq_ofNat_of_zero_le ha
  obtain ⟨n, rfl⟩ := Int.eq_ofNat_of_zero_le hb
  exact congrArg _ (Nat.eq_of_testBit_eq h)

theorem testBit_two_pow (k i : ℕ) : ((2 : ℤ) ^ k).testBit i = decide (k = i) := by
  have hcast : (2 : ℤ) ^ k = ((2 ^ k : ℕ) : ℤ) := by push_cast; rfl
  rw [hcast, testBit_natCast, Nat.testBit_two_pow]

theorem testBit_mask (bits i : ℕ) : ((2 : ℤ) ^ bits - 1).testBit i = decide (i < bits) := by
  have hcast : (2 : ℤ) ^ bits - 1 = ((2 ^ bits - 1 : ℕ) : ℤ) := by
    have := Nat.one_le_two_pow (n := bits)
    push_cast [this]
    rfl
  rw [hcast, testBit_natCast, Nat.testBit_two_pow_sub_one]

theorem negSucc_emod (m bits : ℕ) :
    Int.negSucc m % 2 ^ bits = ((2 ^ bits - (m % 2 ^ bits + 1) : ℕ) : ℤ) := by
  have hlt := Nat.mod_lt m (Nat.two_pow_pos bits)
  have hdiv := Nat.div_add_mod m (2 ^ bits)
  have hvalue : Int.negSucc m = ((2 ^ bits - (m % 2 ^ bits + 1) : ℕ) : ℤ) +
      2 ^ bits * (-(m / 2 ^ bits : ℕ) - 1) := by
    have hsplit : (m : ℤ) = 2 ^ bits * (m / 2 ^ bits : ℕ) + (m % 2 ^ bits : ℕ) := by
      exact_mod_cast hdiv.symm
    rw [Int.negSucc_eq, Nat.cast_sub (Nat.succ_le_of_lt hlt)]
    push_cast at hsplit ⊢
    linarith
  rw [hvalue, Int.add_mul_emod_self_left]
  refine Int.emod_eq_of_lt (Int.natCast_nonneg _) ?_
  have : 2 ^ bits - (m % 2 ^ bits + 1) < 2 ^ bits := by omega
  exact_mod_cast this

theorem testBit_emod (a : ℤ) (bits i : ℕ) :
    (a % 2 ^ bits).testBit i = (decide (i < bits) && a.testBit i) := by
  cases a with
  | ofNat m =>
    have hcast : Int.ofNat m % 2 ^ bits = ((m % 2 ^ bits : ℕ) : ℤ) := by push_cast; rfl
    rw [hcast, testBit_natCast, Nat.testBit_mod_two_pow]
    rfl
  | negSucc m =>
    rw [negSucc_emod, testBit_natCast,
      Nat.testBit_two_pow_sub_succ (Nat.mod_lt m (Nat.two_pow_pos bits)), Nat.testBit_mod_two_pow]
    by_cases h : i < bits
    · simp [h, Int.testBit]
    · simp [h]

theorem emod_eq_of_testBit (h : ∀ i, i < bits → a.testBit i = b.testBit i) :
    a % 2 ^ bits = b % 2 ^ bits := by
  have hpos : (2 : ℤ) ^ bits ≠ 0 := by positivity
  refine eq_of_testBit (Int.emod_nonneg _ hpos) (Int.emod_nonneg _ hpos) fun i => ?_
  rw [testBit_emod, testBit_emod]
  by_cases hi : i < bits
  · rw [h i hi]
  · simp [hi]

theorem land_nonneg (ha : 0 ≤ a) : 0 ≤ Int.land a b := by
  obtain ⟨m, rfl⟩ := Int.eq_ofNat_of_zero_le ha
  cases b with
  | ofNat n => exact Int.natCast_nonneg _
  | negSucc n => exact Int.natCast_nonneg _

theorem lor_nonneg (ha : 0 ≤ a) (hb : 0 ≤ b) : 0 ≤ Int.lor a b := by
  obtain ⟨m, rfl⟩ := Int.eq_ofNat_of_zero_le ha
  obtain ⟨n, rfl⟩ := Int.eq_ofNat_of_zero_le hb
  exact Int.natCast_nonneg _

theorem xor_nonneg (ha : 0 ≤ a) (hb : 0 ≤ b) : 0 ≤ Int.xor a b := by
  obtain ⟨m, rfl⟩ := Int.eq_ofNat_of_zero_le ha
  obtain ⟨n, rfl⟩ := Int.eq_ofNat_of_zero_le hb
  exact Int.natCast_nonneg _

/-- Masking is taking the remainder. -/
theorem land_mask (ha : 0 ≤ a) (bits : ℕ) : Int.land a (2 ^ bits - 1) = a % 2 ^ bits := by
  refine eq_of_testBit (land_nonneg ha) (Int.emod_nonneg _ (by positivity)) fun i => ?_
  rw [Int.testBit_land, testBit_mask, testBit_emod, Bool.and_comm]

theorem land_emod (a b : ℤ) (bits : ℕ) :
    Int.land (a % 2 ^ bits) b % 2 ^ bits = Int.land a b % 2 ^ bits :=
  emod_eq_of_testBit fun i hi => by
    rw [Int.testBit_land, Int.testBit_land, testBit_emod, decide_eq_true hi, Bool.true_and]

theorem lor_emod (a b : ℤ) (bits : ℕ) :
    Int.lor (a % 2 ^ bits) b % 2 ^ bits = Int.lor a b % 2 ^ bits :=
  emod_eq_of_testBit fun i hi => by
    rw [Int.testBit_lor, Int.testBit_lor, testBit_emod, decide_eq_true hi, Bool.true_and]

theorem xor_emod (a b : ℤ) (bits : ℕ) :
    Int.xor (a % 2 ^ bits) b % 2 ^ bits = Int.xor a b % 2 ^ bits :=
  emod_eq_of_testBit fun i hi => by
    rw [Int.testBit_lxor, Int.testBit_lxor, testBit_emod, decide_eq_true hi, Bool.true_and]

end Atomis.TwosComplement
