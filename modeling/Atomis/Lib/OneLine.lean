import Atomis.Lib.Utf8
import Mathlib.Tactic.IntervalCases

/-!
# Texts of one line

Texts in which no line ends, as characters and as the bytes they are encoded by.
-/

namespace Atomis

def OneLine (text : String) : Prop := '\n' ∉ text.toList ∧ '\r' ∉ text.toList

instance (text : String) : Decidable (OneLine text) :=
  inferInstanceAs (Decidable (_ ∧ _))

namespace OneLine

variable {left right text : String}

theorem append (hleft : OneLine left) (hright : OneLine right) : OneLine (left ++ right) := by
  simp only [OneLine, String.toList_append, List.mem_append, not_or]
  exact ⟨⟨hleft.1, hright.1⟩, hleft.2, hright.2⟩

theorem append_iff : OneLine (left ++ right) ↔ OneLine left ∧ OneLine right := by
  refine ⟨fun h => ?_, fun h => h.1.append h.2⟩
  simp only [OneLine, String.toList_append, List.mem_append, not_or] at h
  exact ⟨⟨h.1.1, h.2.1⟩, h.1.2, h.2.2⟩

theorem empty : OneLine "" := by decide

/-! ## Numbers -/

theorem toNat_digitChar {base n : ℕ} (hbase : base ≤ 16) (h : n < base) :
    48 ≤ (Nat.digitChar n).toNat := by
  have hn : n < 16 := by omega
  interval_cases n <;> decide

theorem of_digits {digits : List Char} (h : ∀ c ∈ digits, 48 ≤ c.toNat) :
    OneLine (String.ofList digits) := by
  rw [OneLine, String.toList_ofList]
  constructor
  · intro hmem
    exact absurd (h _ hmem) (by decide)
  · intro hmem
    exact absurd (h _ hmem) (by decide)

theorem toNat_of_mem_toDigits {base n : ℕ} {c : Char} (hone : 1 < base) (hbase : base ≤ 16)
    (h : c ∈ Nat.toDigits base n) : 48 ≤ c.toNat := by
  induction n using Nat.strongRecOn with
  | ind n ih =>
    by_cases hn : n < base
    · rw [Nat.toDigits_of_lt_base hn, List.mem_singleton] at h
      rw [h]
      exact toNat_digitChar hbase hn
    · rw [Nat.toDigits_of_base_le hone (Nat.le_of_not_lt hn), List.mem_append,
        List.mem_singleton] at h
      rcases h with h | h
      · exact ih (n / base) (Nat.div_lt_self (by omega) hone) h
      · rw [h]
        exact toNat_digitChar hbase (Nat.mod_lt _ (by omega))

theorem decimal (n : ℕ) : OneLine (toString n) := by
  rw [Nat.toString_eq_ofList_toDigits]
  exact of_digits fun c hc => toNat_of_mem_toDigits (by decide) (by decide) hc

/-! ## Bytes -/

theorem mem_of_mem_encode {b : UInt8} (hb : b.toNat < 0x80) {text : List Char}
    (h : b ∈ Utf8.encode text) : Char.ofNat b.toNat ∈ text := by
  obtain ⟨left, right, hsplit⟩ := List.append_of_mem h
  have hlossy := Utf8.lossy_append_ascii left right hb
  rw [← hsplit, Utf8.lossy_encode] at hlossy
  rw [hlossy]
  simp

theorem not_mem_encode (h : OneLine text) :
    10 ∉ Utf8.encode text.toList ∧ 13 ∉ Utf8.encode text.toList := by
  constructor
  · intro hmem
    exact h.1 (mem_of_mem_encode (by decide) hmem)
  · intro hmem
    exact h.2 (mem_of_mem_encode (by decide) hmem)

end OneLine

end Atomis
