import Mathlib

/-!
# Decoding UTF-8 as it arrives

A decoder that takes one byte at a time and puts the replacement character in the
place of each invalid sequence, taken as long as it could still have become a
character. What is encoded comes back, and an ASCII byte is always read as itself,
whatever the bytes before it have left open.
-/

namespace Atomis.Utf8

def replacement : Char := Char.ofNat 0xFFFD

theorem toNat_of_isDigit {c : Char} (h : c.isDigit) : 48 ≤ c.toNat ∧ c.toNat ≤ 57 := by
  simp only [Char.isDigit, Bool.and_eq_true, decide_eq_true_eq, ge_iff_le,
    UInt32.le_iff_toNat_le] at h
  exact h

/-- `inside value missing low high`: the bits of the character so far, how many bytes it lacks
after the next one, and the bounds of that one. -/
inductive Decoder
  | start
  | inside (value missing low high : ℕ)
deriving DecidableEq

/-- The first byte of a character. -/
def first (b : ℕ) : List Char × Decoder :=
  if b < 0x80 then ([Char.ofNat b], .start)
  else if 0xC2 ≤ b ∧ b ≤ 0xDF then ([], .inside (b - 0xC0) 0 0x80 0xBF)
  else if b = 0xE0 then ([], .inside 0 1 0xA0 0xBF)
  else if b = 0xED then ([], .inside 0xD 1 0x80 0x9F)
  else if 0xE1 ≤ b ∧ b ≤ 0xEF then ([], .inside (b - 0xE0) 1 0x80 0xBF)
  else if b = 0xF0 then ([], .inside 0 2 0x90 0xBF)
  else if b = 0xF4 then ([], .inside 4 2 0x80 0x8F)
  else if 0xF1 ≤ b ∧ b ≤ 0xF3 then ([], .inside (b - 0xF0) 2 0x80 0xBF)
  else ([replacement], .start)

/-- What is left open when a character breaks off. -/
def finish : Decoder → List Char
  | .start => []
  | .inside .. => [replacement]

def step (q : Decoder) (b : UInt8) : List Char × Decoder :=
  match q with
  | .start => first b.toNat
  | .inside value missing low high =>
    if low ≤ b.toNat ∧ b.toNat ≤ high then
      match missing with
      | 0 => ([Char.ofNat (value * 64 + (b.toNat - 0x80))], .start)
      | missing + 1 => ([], .inside (value * 64 + (b.toNat - 0x80)) missing 0x80 0xBF)
    else (replacement :: (first b.toNat).1, (first b.toNat).2)

def run (q : Decoder) : List UInt8 → List Char × Decoder
  | [] => ([], q)
  | b :: bytes => ((step q b).1 ++ (run (step q b).2 bytes).1, (run (step q b).2 bytes).2)

/-- The text of a whole byte string. -/
def lossy (bytes : List UInt8) : List Char :=
  (run .start bytes).1 ++ finish (run .start bytes).2

def encode (text : List Char) : List UInt8 := text.flatMap String.utf8EncodeChar

/-- A leading byte-order mark is dropped. -/
def stripMark : List UInt8 → List UInt8
  | 0xEF :: 0xBB :: 0xBF :: rest => rest
  | text => text

variable {q : Decoder} {b : UInt8} {bytes : List UInt8} {c : Char} {text : List Char}

theorem run_append (q : Decoder) (left right : List UInt8) :
    run q (left ++ right) =
      ((run q left).1 ++ (run (run q left).2 right).1, (run (run q left).2 right).2) := by
  induction left generalizing q with
  | nil => simp [run]
  | cons b left ih => simp [run, ih]

theorem first_ascii {b : ℕ} (hb : b < 0x80) : first b = ([Char.ofNat b], .start) := if_pos hb

theorem mem_stripMark (hb : b.toNat < 0x80) : b ∈ stripMark bytes ↔ b ∈ bytes := by
  simp only [stripMark]
  split
  · have hne : b ≠ 0xEF ∧ b ≠ 0xBB ∧ b ≠ 0xBF := by
      refine ⟨?_, ?_, ?_⟩ <;> rintro rfl <;> exact absurd hb (by decide)
    simp [hne]
  · rfl

theorem encode_cons (c : Char) (text : List Char) :
    encode (c :: text) = String.utf8EncodeChar c ++ encode text := rfl

theorem encode_append (left right : List Char) :
    encode (left ++ right) = encode left ++ encode right := List.flatMap_append

/-! ## What is encoded comes back -/

theorem step_last {value low high : ℕ} (hlow : low ≤ b.toNat) (hhigh : b.toNat ≤ high) :
    step (.inside value 0 low high) b =
      ([Char.ofNat (value * 64 + (b.toNat - 0x80))], .start) := if_pos ⟨hlow, hhigh⟩

theorem step_next {value missing low high : ℕ} (hlow : low ≤ b.toNat) (hhigh : b.toNat ≤ high) :
    step (.inside value (missing + 1) low high) b =
      ([], .inside (value * 64 + (b.toNat - 0x80)) missing 0x80 0xBF) := if_pos ⟨hlow, hhigh⟩

theorem first_two {b : ℕ} (hlow : 0xC2 ≤ b) (hhigh : b ≤ 0xDF) :
    first b = ([], .inside (b - 0xC0) 0 0x80 0xBF) := by
  rw [first, if_neg (by omega), if_pos ⟨hlow, hhigh⟩]

theorem first_three {b : ℕ} (hlow : 0xE0 ≤ b) (hhigh : b ≤ 0xEF) :
    first b = ([], .inside (b - 0xE0) 1 (if b = 0xE0 then 0xA0 else 0x80)
      (if b = 0xED then 0x9F else 0xBF)) := by
  rw [first, if_neg (by omega), if_neg (by omega)]
  split_ifs <;> first | omega | (subst b; rfl) | rfl

theorem first_four {b : ℕ} (hlow : 0xF0 ≤ b) (hhigh : b ≤ 0xF4) :
    first b = ([], .inside (b - 0xF0) 2 (if b = 0xF0 then 0x90 else 0x80)
      (if b = 0xF4 then 0x8F else 0xBF)) := by
  rw [first, if_neg (by omega), if_neg (by omega), if_neg (by omega), if_neg (by omega),
    if_neg (by omega)]
  split_ifs <;> first | omega | (subst b; rfl) | rfl

theorem first_bad {b : ℕ} (h : 0x80 ≤ b ∧ b < 0xC2 ∨ 0xF5 ≤ b) :
    first b = ([replacement], .start) := by
  rw [first, if_neg (by omega), if_neg (by omega), if_neg (by omega), if_neg (by omega),
    if_neg (by omega), if_neg (by omega), if_neg (by omega), if_neg (by omega)]

/-- A first byte is a character, is bad or opens a character of several bytes. -/
theorem first_cases (b : ℕ) :
    (b < 0x80 ∧ first b = ([Char.ofNat b], .start)) ∨
    ((0x80 ≤ b ∧ b < 0xC2 ∨ 0xF5 ≤ b) ∧ first b = ([replacement], .start)) ∨
    (0xC2 ≤ b ∧ ∃ value missing low high, first b = ([], .inside value missing low high) ∧
      0x80 ≤ low ∧ high ≤ 0xBF) := by
  rcases Nat.lt_or_ge b 0x80 with h | h
  · exact .inl ⟨h, first_ascii h⟩
  rcases Nat.lt_or_ge b 0xC2 with h₁ | h₁
  · exact .inr (.inl ⟨.inl ⟨h, h₁⟩, first_bad (.inl ⟨h, h₁⟩)⟩)
  rcases Nat.lt_or_ge b 0xE0 with h₂ | h₂
  · exact .inr (.inr ⟨h₁, _, _, _, _, first_two h₁ (by omega), Nat.le_refl _, Nat.le_refl _⟩)
  rcases Nat.lt_or_ge b 0xF0 with h₃ | h₃
  · refine .inr (.inr ⟨h₁, _, _, _, _, first_three h₂ (by omega), ?_, ?_⟩) <;> split_ifs <;> omega
  rcases Nat.lt_or_ge b 0xF5 with h₄ | h₄
  · refine .inr (.inr ⟨h₁, _, _, _, _, first_four h₃ (by omega), ?_, ?_⟩) <;> split_ifs <;> omega
  · exact .inr (.inl ⟨.inr h₄, first_bad (.inr h₄)⟩)

theorem toNat_ofNat {n : ℕ} (h : n < 0x100) : (UInt8.ofNat n).toNat = n := by
  rw [UInt8.toNat_ofNat']
  omega

theorem ofNat_val (c : Char) {n : ℕ} (h : n = c.val.toNat) : Char.ofNat n = c := by
  rw [h]
  exact Char.ofNat_toNat c

theorem run_two {b₁ b₂ : UInt8} (h₁ : 0xC2 ≤ b₁.toNat) (h₁' : b₁.toNat ≤ 0xDF)
    (h₂ : 0x80 ≤ b₂.toNat) (h₂' : b₂.toNat ≤ 0xBF) :
    run .start [b₁, b₂] =
      ([Char.ofNat ((b₁.toNat - 0xC0) * 64 + (b₂.toNat - 0x80))], .start) := by
  simp [run, show step .start b₁ = _ from first_two h₁ h₁', step_last h₂ h₂']

theorem run_three {b₁ b₂ b₃ : UInt8} (h₁ : 0xE0 ≤ b₁.toNat) (h₁' : b₁.toNat ≤ 0xEF)
    (h₂ : (if b₁.toNat = 0xE0 then 0xA0 else 0x80) ≤ b₂.toNat)
    (h₂' : b₂.toNat ≤ if b₁.toNat = 0xED then 0x9F else 0xBF)
    (h₃ : 0x80 ≤ b₃.toNat) (h₃' : b₃.toNat ≤ 0xBF) :
    run .start [b₁, b₂, b₃] = ([Char.ofNat
      (((b₁.toNat - 0xE0) * 64 + (b₂.toNat - 0x80)) * 64 + (b₃.toNat - 0x80))], .start) := by
  simp [run, show step .start b₁ = _ from first_three h₁ h₁', step_next h₂ h₂', step_last h₃ h₃']

theorem run_four {b₁ b₂ b₃ b₄ : UInt8} (h₁ : 0xF0 ≤ b₁.toNat) (h₁' : b₁.toNat ≤ 0xF4)
    (h₂ : (if b₁.toNat = 0xF0 then 0x90 else 0x80) ≤ b₂.toNat)
    (h₂' : b₂.toNat ≤ if b₁.toNat = 0xF4 then 0x8F else 0xBF)
    (h₃ : 0x80 ≤ b₃.toNat) (h₃' : b₃.toNat ≤ 0xBF)
    (h₄ : 0x80 ≤ b₄.toNat) (h₄' : b₄.toNat ≤ 0xBF) :
    run .start [b₁, b₂, b₃, b₄] = ([Char.ofNat
      ((((b₁.toNat - 0xF0) * 64 + (b₂.toNat - 0x80)) * 64 + (b₃.toNat - 0x80)) * 64 +
        (b₄.toNat - 0x80))], .start) := by
  simp [run, show step .start b₁ = _ from first_four h₁ h₁', step_next h₂ h₂', step_next h₃ h₃',
    step_last h₄ h₄']

theorem run_encodeChar (c : Char) : run .start (String.utf8EncodeChar c) = ([c], .start) := by
  have hvalid := c.valid
  simp only [UInt32.isValidChar, Nat.isValidChar] at hvalid
  simp only [String.utf8EncodeChar]
  set v := c.val.toNat with hv
  split_ifs with h₁ h₂ h₃
  · have hb : (UInt8.ofNat v).toNat = v := toNat_ofNat (by omega)
    have hstep : step .start (UInt8.ofNat v) = ([Char.ofNat v], .start) := by
      rw [step, hb]
      exact first_ascii (by omega)
    simp [run, hstep, ofNat_val c hv]
  · have hb₁ := toNat_ofNat (n := v / 64 % 0x20 + 0xc0) (by omega)
    have hb₂ := toNat_ofNat (n := v % 0x40 + 0x80) (by omega)
    rw [run_two (by omega) (by omega) (by omega) (by omega), ofNat_val c (by omega)]
  · have hb₁ := toNat_ofNat (n := v / 4096 % 0x10 + 0xe0) (by omega)
    have hb₂ := toNat_ofNat (n := v / 64 % 0x40 + 0x80) (by omega)
    have hb₃ := toNat_ofNat (n := v % 0x40 + 0x80) (by omega)
    rw [run_three (by omega) (by omega) (by split_ifs <;> omega) (by split_ifs <;> omega)
      (by omega) (by omega), ofNat_val c (by omega)]
  · have hb₁ := toNat_ofNat (n := v / 262144 % 0x08 + 0xf0) (by omega)
    have hb₂ := toNat_ofNat (n := v / 4096 % 0x40 + 0x80) (by omega)
    have hb₃ := toNat_ofNat (n := v / 64 % 0x40 + 0x80) (by omega)
    have hb₄ := toNat_ofNat (n := v % 0x40 + 0x80) (by omega)
    rw [run_four (by omega) (by omega) (by split_ifs <;> omega) (by split_ifs <;> omega)
      (by omega) (by omega) (by omega) (by omega), ofNat_val c (by omega)]

theorem run_encode (text : List Char) : run .start (encode text) = (text, .start) := by
  induction text with
  | nil => rfl
  | cons c text ih => rw [encode_cons, run_append, run_encodeChar, ih]; rfl

theorem lossy_encode_append (text : List Char) (bytes : List UInt8) :
    lossy (encode text ++ bytes) = text ++ lossy bytes := by
  rw [lossy, run_append, run_encode]
  exact List.append_assoc ..

theorem lossy_encode (text : List Char) : lossy (encode text) = text := by
  rw [lossy, run_encode]
  exact List.append_nil text

/-! ## ASCII stands for itself -/

/-- Every way to go on ends in a character that is not ASCII. -/
def Completes (value : ℕ) : ℕ → ℕ → ℕ → Prop
  | 0, low, high => ∀ b, low ≤ b → b ≤ high →
    0x80 ≤ value * 64 + (b - 0x80) ∧ (value * 64 + (b - 0x80)).isValidChar
  | missing + 1, low, high => ∀ b, low ≤ b → b ≤ high →
    Completes (value * 64 + (b - 0x80)) missing 0x80 0xBF

def Sound : Decoder → Prop
  | .start => True
  | .inside value missing low high => 0x80 ≤ low ∧ Completes value missing low high

theorem first_sound (b : ℕ) : Sound (first b).2 := by
  rcases Nat.lt_or_ge b 0x80 with h | h
  · rw [first_ascii h]
    trivial
  rcases Nat.lt_or_ge b 0xC2 with h₁ | h₁
  · rw [first_bad (.inl ⟨h, h₁⟩)]
    trivial
  rcases Nat.lt_or_ge b 0xE0 with h₂ | h₂
  · rw [first_two h₁ (by omega)]
    refine ⟨Nat.le_refl _, fun b₂ hlow hhigh => ?_⟩
    simp only [Nat.isValidChar]
    omega
  rcases Nat.lt_or_ge b 0xF0 with h₃ | h₃
  · rw [first_three h₂ (by omega)]
    refine ⟨by split_ifs <;> omega, fun b₂ hlow hhigh b₃ hlow' hhigh' => ?_⟩
    simp only [Nat.isValidChar]
    split_ifs at hlow hhigh <;> omega
  rcases Nat.lt_or_ge b 0xF5 with h₄ | h₄
  · rw [first_four h₃ (by omega)]
    refine ⟨by split_ifs <;> omega, fun b₂ hlow hhigh b₃ hlow' hhigh' b₄ hlow'' hhigh'' => ?_⟩
    simp only [Nat.isValidChar]
    split_ifs at hlow hhigh <;> omega
  · rw [first_bad (.inr h₄)]
    trivial

theorem step_sound (hq : Sound q) (b : UInt8) : Sound (step q b).2 := by
  cases q with
  | start => exact first_sound b.toNat
  | inside value missing low high =>
    obtain ⟨-, hq⟩ := hq
    by_cases hb : low ≤ b.toNat ∧ b.toNat ≤ high
    · cases missing with
      | zero =>
        rw [step_last hb.1 hb.2]
        trivial
      | succ missing =>
        rw [step_next hb.1 hb.2]
        exact ⟨Nat.le_refl _, hq _ hb.1 hb.2⟩
    · simp only [step, if_neg hb]
      exact first_sound b.toNat

theorem run_sound (hq : Sound q) (bytes : List UInt8) : Sound (run q bytes).2 := by
  induction bytes generalizing q with
  | nil => exact hq
  | cons b bytes ih => exact ih (step_sound hq b)

theorem step_ascii (hq : Sound q) (hb : b.toNat < 0x80) :
    step q b = (finish q ++ [Char.ofNat b.toNat], .start) := by
  cases q with
  | start => exact first_ascii hb
  | inside value missing low high =>
    have hlow := hq.1
    simp only [step, first_ascii hb]
    rw [if_neg (by omega)]
    rfl

/-- An ASCII byte ends what is before it. -/
theorem lossy_append_ascii (left right : List UInt8) (hb : b.toNat < 0x80) :
    lossy (left ++ b :: right) = lossy left ++ Char.ofNat b.toNat :: lossy right := by
  have hstep := step_ascii (run_sound (q := .start) trivial left) hb
  simp [lossy, run_append, run, hstep]

theorem toNat_ofNat_char {n : ℕ} (h : n.isValidChar) : (Char.ofNat n).toNat = n := by
  simp only [Char.ofNat, dif_pos h]
  rfl

theorem toNat_of_mem_first {b : ℕ} (hb : b < 0x100) (hc : c ∈ (first b).1)
    (hascii : c.toNat < 0x80) : c.toNat = b := by
  obtain ⟨-, heq⟩ | ⟨-, heq⟩ | ⟨-, value, missing, low, high, heq, -⟩ := first_cases b
  · rw [heq] at hc
    rw [List.mem_singleton.mp hc, toNat_ofNat_char (.inl (by omega))]
  · rw [heq] at hc
    rw [List.mem_singleton.mp hc] at hascii
    exact absurd hascii (by decide)
  · rw [heq] at hc
    cases hc

theorem toNat_of_mem_step (hq : Sound q) (hc : c ∈ (step q b).1) (hascii : c.toNat < 0x80) :
    c.toNat = b.toNat := by
  have hb : b.toNat < 0x100 := b.toNat_lt
  cases q with
  | start => exact toNat_of_mem_first hb hc hascii
  | inside value missing low high =>
    by_cases hbound : low ≤ b.toNat ∧ b.toNat ≤ high
    · cases missing with
      | zero =>
        obtain ⟨hlow, hvalid⟩ := hq.2 _ hbound.1 hbound.2
        rw [step_last hbound.1 hbound.2] at hc
        rw [List.mem_singleton.mp hc, toNat_ofNat_char hvalid] at hascii
        omega
      | succ missing =>
        rw [step_next hbound.1 hbound.2] at hc
        cases hc
    · simp only [step, if_neg hbound] at hc
      rcases List.mem_cons.mp hc with rfl | hc
      · exact absurd hascii (by decide)
      · exact toNat_of_mem_first hb hc hascii

theorem mem_run (hq : Sound q) (hc : c ∈ (run q bytes).1) (hascii : c.toNat < 0x80) :
    ∃ b ∈ bytes, b.toNat = c.toNat := by
  induction bytes generalizing q with
  | nil => cases hc
  | cons b bytes ih =>
    rcases List.mem_append.mp hc with hc | hc
    · exact ⟨b, List.mem_cons_self, (toNat_of_mem_step hq hc hascii).symm⟩
    · obtain ⟨b', hb', heq⟩ := ih (step_sound hq b) hc
      exact ⟨b', List.mem_cons_of_mem _ hb', heq⟩

theorem mem_lossy (hc : c ∈ lossy bytes) (hascii : c.toNat < 0x80) :
    ∃ b ∈ bytes, b.toNat = c.toNat := by
  rcases List.mem_append.mp hc with hc | hc
  · exact mem_run (q := .start) trivial hc hascii
  · cases h : (run .start bytes).2 with
    | start =>
      rw [h] at hc
      cases hc
    | inside =>
      rw [h] at hc
      rw [List.mem_singleton.mp hc] at hascii
      exact absurd hascii (by decide)

theorem encodeChar_ascii (hc : c.toNat < 0x80) :
    String.utf8EncodeChar c = [UInt8.ofNat c.toNat] := by
  simp only [String.utf8EncodeChar]
  exact if_pos (Nat.le_of_lt_succ hc)

theorem encode_ascii (h : ∀ c ∈ text, c.toNat < 0x80) :
    encode text = text.map fun c => UInt8.ofNat c.toNat := by
  induction text with
  | nil => rfl
  | cons c text ih =>
    obtain ⟨hc, htext⟩ := List.forall_mem_cons.mp h
    rw [encode_cons, encodeChar_ascii hc, ih htext]
    rfl

/-! ## Invalid sequences -/

/-- The byte cannot stand where it does. -/
def invalid (q : Decoder) (b : UInt8) : Bool :=
  match q with
  | .start => 0x80 ≤ b.toNat && (first b.toNat).2 = .start
  | .inside _ _ low high => !(low ≤ b.toNat && b.toNat ≤ high)

def broken (q : Decoder) : List UInt8 → Bool
  | [] => false
  | b :: bytes => invalid q b || broken (step q b).2 bytes

theorem broken_append (q : Decoder) (left right : List UInt8) :
    broken q (left ++ right) = (broken q left || broken (run q left).2 right) := by
  induction left generalizing q with
  | nil => rfl
  | cons b left ih => simp [broken, run, ih, Bool.or_assoc]

/-- Nothing is read before a character is whole. -/
theorem step_silent {b : UInt8} (hb : invalid q b = false) (hopen : (step q b).2 ≠ .start) :
    (step q b).1 = [] := by
  cases q with
  | start =>
    obtain ⟨-, heq⟩ | ⟨-, heq⟩ | ⟨-, value, missing, low, high, heq, -⟩ := first_cases b.toNat
    · exact absurd (congrArg Prod.snd heq) hopen
    · exact absurd (congrArg Prod.snd heq) hopen
    · exact congrArg Prod.fst heq
  | inside value missing low high =>
    have hbound : low ≤ b.toNat ∧ b.toNat ≤ high := by simpa [invalid] using hb
    cases missing with
    | zero => exact absurd (by rw [step_last hbound.1 hbound.2]) hopen
    | succ missing => rw [step_next hbound.1 hbound.2]

theorem replacement_mem_first {b : ℕ} (hb : 0x80 ≤ b) (h : (first b).2 = .start) :
    replacement ∈ (first b).1 := by
  obtain ⟨hlt, -⟩ | ⟨-, heq⟩ | ⟨-, value, missing, low, high, heq, -⟩ := first_cases b
  · omega
  · rw [heq]
    exact List.mem_singleton_self _
  · rw [heq] at h
    cases h

theorem replacement_mem_step (h : invalid q b) : replacement ∈ (step q b).1 := by
  cases q with
  | start =>
    simp only [invalid, Bool.and_eq_true, decide_eq_true_eq] at h
    exact replacement_mem_first h.1 h.2
  | inside value missing low high =>
    simp only [invalid, Bool.not_eq_true', Bool.and_eq_false_iff, decide_eq_false_iff_not] at h
    simp only [step]
    rw [if_neg (by omega)]
    exact List.mem_cons_self

theorem replacement_mem_run (h : broken q bytes) : replacement ∈ (run q bytes).1 := by
  induction bytes generalizing q with
  | nil => cases h
  | cons b bytes ih =>
    rcases Bool.or_eq_true_iff.mp h with h | h
    · exact List.mem_append_left _ (replacement_mem_step h)
    · exact List.mem_append_right _ (ih h)

theorem broken_encodeChar (c : Char) : broken .start (String.utf8EncodeChar c) = false := by
  by_contra h
  have hmem := replacement_mem_run (Bool.not_eq_false _ ▸ h)
  rw [run_encodeChar, List.mem_singleton] at hmem
  subst hmem
  exact h (by decide)

theorem broken_encode (text : List Char) : broken .start (encode text) = false := by
  induction text with
  | nil => rfl
  | cons c text ih =>
    rw [encode_cons, broken_append, broken_encodeChar, run_encodeChar, ih]
    rfl

/-! ## What a cut costs -/

/-- What a string reads as when it follows an open character. -/
def lossyFrom (q : Decoder) (bytes : List UInt8) : List Char :=
  (run q bytes).1 ++ finish (run q bytes).2

theorem lossyFrom_start (bytes : List UInt8) : lossyFrom .start bytes = lossy bytes := rfl

theorem lossyFrom_cons (q : Decoder) (b : UInt8) (bytes : List UInt8) :
    lossyFrom q (b :: bytes) = (step q b).1 ++ lossyFrom (step q b).2 bytes := by
  simp [lossyFrom, run]

theorem lossyFrom_append (q : Decoder) (left right : List UInt8) :
    lossyFrom q (left ++ right) = (run q left).1 ++ lossyFrom (run q left).2 right := by
  simp [lossyFrom, run_append]

/-- The next byte belongs to the open character. -/
def continues (q : Decoder) : List UInt8 → Bool
  | [] => false
  | b :: _ => q != .start && !invalid q b

theorem lossyFrom_of_not_continues (h : continues q bytes = false) :
    lossyFrom q bytes = finish q ++ lossy bytes := by
  cases q with
  | start => rfl
  | inside value missing low high =>
    cases bytes with
    | nil => rfl
    | cons b bytes =>
      have hb : ¬(low ≤ b.toNat ∧ b.toNat ≤ high) := by
        simpa [continues, invalid] using h
      rw [← lossyFrom_start, lossyFrom_cons, lossyFrom_cons]
      simp only [step, if_neg hb]
      rfl

/-- Only bytes that cannot start a character go on with one. -/
def Tail : Decoder → Prop
  | .start => True
  | .inside _ _ low high => 0x80 ≤ low ∧ high ≤ 0xBF

theorem first_tail (b : ℕ) : Tail (first b).2 := by
  obtain ⟨-, heq⟩ | ⟨-, heq⟩ | ⟨-, value, missing, low, high, heq, htail⟩ := first_cases b
  · rw [heq]
    trivial
  · rw [heq]
    trivial
  · rw [heq]
    exact htail

theorem step_tail (q : Decoder) (b : UInt8) : Tail (step q b).2 := by
  cases q with
  | start => exact first_tail b.toNat
  | inside value missing low high =>
    by_cases hb : low ≤ b.toNat ∧ b.toNat ≤ high
    · cases missing with
      | zero =>
        rw [step_last hb.1 hb.2]
        trivial
      | succ missing =>
        rw [step_next hb.1 hb.2]
        exact ⟨Nat.le_refl _, Nat.le_refl _⟩
    · simp only [step, if_neg hb]
      exact first_tail b.toNat

theorem run_tail (hq : Tail q) (bytes : List UInt8) : Tail (run q bytes).2 := by
  induction bytes generalizing q with
  | nil => exact hq
  | cons b bytes ih => exact ih (step_tail q b)

theorem first_of_tail {b : ℕ} (hlow : 0x80 ≤ b) (hhigh : b ≤ 0xBF) :
    first b = ([replacement], .start) :=
  first_bad (.inl ⟨hlow, by omega⟩)

/-- Read on its own, the rest of a torn character has more to replace. -/
theorem length_lossyFrom (hq : Tail q) (bytes : List UInt8) :
    (lossyFrom q bytes).length ≤ (finish q ++ lossy bytes).length ∧
      (continues q bytes → (lossyFrom q bytes).length < (finish q ++ lossy bytes).length) := by
  induction bytes generalizing q with
  | nil => exact ⟨by simp [lossyFrom, lossy, run, finish], fun h => by cases h⟩
  | cons b bytes ih =>
    cases hcont : continues q (b :: bytes) with
    | false =>
      rw [lossyFrom_of_not_continues hcont]
      exact ⟨Nat.le_refl _, fun h => by cases h⟩
    | true =>
      suffices hlt : (lossyFrom q (b :: bytes)).length < (finish q ++ lossy (b :: bytes)).length
        from ⟨Nat.le_of_lt hlt, fun _ => hlt⟩
      cases q with
      | start => simp [continues] at hcont
      | inside value missing low high =>
        have hb : low ≤ b.toNat ∧ b.toNat ≤ high := by
          simpa [continues, invalid] using hcont
        have hfirst : step .start b = ([replacement], .start) :=
          first_of_tail (Nat.le_trans hq.1 hb.1) (Nat.le_trans hb.2 hq.2)
        rw [← lossyFrom_start, lossyFrom_cons .start, hfirst, lossyFrom_cons]
        cases missing with
        | zero =>
          rw [step_last hb.1 hb.2]
          simp [finish]
        | succ missing =>
          rw [step_next hb.1 hb.2]
          have hle := (ih (q := .inside (value * 64 + (b.toNat - 0x80)) missing 0x80 0xBF)
            ⟨Nat.le_refl _, Nat.le_refl _⟩).1
          rw [lossyFrom_start]
          simp only [finish, List.length_append, List.length_cons, List.length_nil] at hle ⊢
          omega

/-- A character cut short by the end of a field, and the same bytes in a field of their own. -/
example : lossy [0xE2, 0x82, 0x22] = [replacement, Char.ofNat 0x22] := by decide

end Atomis.Utf8
