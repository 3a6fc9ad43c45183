import Atomis.Lib.Utf8

/-!
# Decoding program output chunk by chunk

A chunk is decoded together with the bytes of the character the chunk before it left
unfinished. A chunk that holds an invalid sequence is decoded to its end, though, and what
it leaves unfinished is not carried: if the next byte goes on with that character, its
pieces are replaced one by one.
-/

namespace Atomis.Util
open Utf8

/-- `std::str::Utf8Error`: there is no `errorLen` where the input only ends too early. -/
structure Utf8Error where
  validUpTo : ℕ
  errorLen : Option ℕ
deriving DecidableEq

/-- The first error at or after byte `pos`, of a text known to be valid up to byte `valid`. -/
def firstError (q : Decoder) (valid pos : ℕ) : List UInt8 → Option Utf8Error
  | [] => if q = .start then none else some ⟨valid, none⟩
  | b :: bytes =>
    if invalid q b then some ⟨valid, some (max 1 (pos - valid))⟩
    else if (step q b).2 = .start then firstError .start (pos + 1) (pos + 1) bytes
    else firstError (step q b).2 valid (pos + 1) bytes

/-- `std::str::from_utf8` -/
def fromUtf8 (bytes : List UInt8) : Except Utf8Error (List Char) :=
  match firstError .start 0 0 bytes with
  | some error => .error error
  | none => .ok (run .start bytes).1

structure Utf8Carry where
  pending : List UInt8 := []
deriving DecidableEq

namespace Utf8Carry

def decode (carry : Utf8Carry) (chunk : List UInt8) : List Char × Utf8Carry :=
  let bytes := carry.pending ++ chunk
  match fromUtf8 bytes with
  | .ok text => (text, {})
  | .error error =>
    match error.errorLen with
    -- A truly invalid sequence: nothing is kept, an unfinished tail included.
    | some _ => (lossy bytes, {})
    | none => (lossy (bytes.take error.validUpTo), { pending := bytes.drop error.validUpTo })

def finish (carry : Utf8Carry) : List Char × Utf8Carry :=
  if carry.pending = [] then ([], {}) else (lossy carry.pending, {})

/-- The chunks of a stream, one after the other, and its end. -/
def decodeAll (carry : Utf8Carry) : List (List UInt8) → List Char
  | [] => carry.finish.1
  | chunk :: chunks => (carry.decode chunk).1 ++ decodeAll (carry.decode chunk).2 chunks

end Utf8Carry

variable {q : Decoder} {bytes chunk : List UInt8} {carry : Utf8Carry}

/-! ## One chunk -/

/-- What an error, or its absence, says about the bytes seen and the bytes to come. -/
theorem firstError_cases (q : Decoder) (valid : ℕ) (seen bytes : List UInt8) (hvalid : valid ≤ seen.length)
    (hwhole : (run .start (seen.take valid)).2 = .start)
    (hopen : run .start (seen.drop valid) = ([], q)) :
    match firstError q valid seen.length bytes with
    | none => broken q bytes = false ∧ (run q bytes).2 = .start
    | some ⟨_, some _⟩ => broken q bytes
    | some ⟨valid', none⟩ => broken q bytes = false ∧
      (run .start ((seen ++ bytes).take valid')).2 = .start ∧
      run .start ((seen ++ bytes).drop valid') = ([], (run q bytes).2) := by
  induction bytes generalizing q valid seen with
  | nil =>
    by_cases hq : q = .start
    · simp [firstError, hq, broken, run]
    · simpa [firstError, hq, broken, run] using ⟨hwhole, hopen⟩
  | cons b bytes ih =>
    by_cases hinvalid : invalid q b
    · simp [firstError, hinvalid, broken]
    have hlength : (seen ++ [b]).length = seen.length + 1 := by simp
    have hdrop : (seen ++ [b]).drop valid = seen.drop valid ++ [b] :=
      List.drop_append_of_le_length hvalid
    by_cases hstart : (step q b).2 = .start
    · have hnext := ih .start (seen.length + 1) (seen ++ [b]) (by simp) ?_ (by simp [run])
      · simpa [firstError, hinvalid, hstart, broken, run] using hnext
      · rw [← hlength, List.take_length, ← List.take_append_drop valid (seen ++ [b]), run_append,
          hdrop, List.take_append_of_le_length hvalid, hwhole, run_append, hopen]
        exact hstart
    · have hnext := ih (step q b).2 valid (seen ++ [b]) (by rw [hlength]; omega)
        (by rwa [List.take_append_of_le_length hvalid]) ?_
      · simpa [firstError, hinvalid, hstart, broken, run] using hnext
      · have hsilent : (step q b).1 = [] := step_silent (by simpa using hinvalid) hstart
        rw [hdrop, run_append, hopen]
        simp [run, hsilent]

/-- The carried bytes are an unfinished character. -/
def Carries (carry : Utf8Carry) (q : Decoder) : Prop := run .start carry.pending = ([], q)

theorem carries_empty : Carries {} .start := rfl

theorem Carries.broken (h : Carries carry q) (chunk : List UInt8) :
    broken .start (carry.pending ++ chunk) = broken q chunk := by
  have hpending : Utf8.broken .start carry.pending = false := by
    by_contra hbroken
    have hmem := replacement_mem_run (Bool.not_eq_false _ ▸ hbroken)
    rw [h] at hmem
    cases hmem
  rw [broken_append, hpending, h, Bool.false_or]

theorem Carries.run (h : Carries carry q) (chunk : List UInt8) :
    run .start (carry.pending ++ chunk) = Utf8.run q chunk := by
  rw [run_append, h]
  rfl

theorem Carries.lossy (h : Carries carry q) (chunk : List UInt8) :
    lossy (carry.pending ++ chunk) = lossyFrom q chunk := by
  rw [← lossyFrom_start, lossyFrom_append, h]
  rfl

theorem Carries.finish (h : Carries carry q) : carry.finish.1 = Utf8.finish q := by
  by_cases hpending : carry.pending = []
  · rw [Carries, hpending] at h
    cases h
    simp [Utf8Carry.finish, hpending, Utf8.finish]
  · have hlossy := h.lossy []
    rw [List.append_nil] at hlossy
    simp [Utf8Carry.finish, hpending, hlossy, lossyFrom, Utf8.run]

theorem Carries.decode_broken (h : Carries carry q) (hbroken : Utf8.broken q chunk) :
    carry.decode chunk = (lossyFrom q chunk, {}) := by
  have hcases := firstError_cases .start 0 [] (carry.pending ++ chunk) (Nat.le_refl 0) rfl rfl
  simp only [List.length_nil] at hcases
  simp only [Utf8Carry.decode, fromUtf8]
  rcases herror : firstError .start 0 0 (carry.pending ++ chunk) with _ | ⟨valid, _ | length⟩
  all_goals
    rw [herror] at hcases
    simp only [h.broken, hbroken] at hcases
  · simp at hcases
  · simp at hcases
  · simp only [h.lossy]

theorem Carries.decode (h : Carries carry q) (hbroken : Utf8.broken q chunk = false) :
    (carry.decode chunk).1 = (Utf8.run q chunk).1 ∧
      Carries (carry.decode chunk).2 (Utf8.run q chunk).2 := by
  have hcases := firstError_cases .start 0 [] (carry.pending ++ chunk) (Nat.le_refl 0) rfl rfl
  simp only [List.length_nil] at hcases
  simp only [Utf8Carry.decode, fromUtf8]
  rcases herror : firstError .start 0 0 (carry.pending ++ chunk) with _ | ⟨valid, _ | length⟩
  all_goals rw [herror] at hcases
  · obtain ⟨-, hstart⟩ := hcases
    rw [h.run] at hstart
    exact ⟨by rw [h.run], by rw [hstart]; exact carries_empty⟩
  · obtain ⟨-, hwhole, hopen⟩ := hcases
    rw [List.nil_append] at hwhole hopen
    have hsplit : Utf8.run q chunk = ((Utf8.run .start ((carry.pending ++ chunk).take valid)).1,
        (Utf8.run q chunk).2) := by
      conv_lhs => rw [← h.run, ← List.take_append_drop valid (carry.pending ++ chunk)]
      rw [run_append, hwhole, hopen, List.append_nil, h.run]
    refine ⟨?_, by rw [Carries, hopen, h.run]⟩
    have hlossy : Utf8.lossy ((carry.pending ++ chunk).take valid) =
        (Utf8.run .start ((carry.pending ++ chunk).take valid)).1 := by
      rw [Utf8.lossy, hwhole]
      exact List.append_nil _
    rw [hsplit]
    exact hlossy
  · rw [h.broken] at hcases
    exact absurd hcases (by rw [hbroken]; exact Bool.false_ne_true)

/-! ## The whole stream -/

/-- A chunk holds an invalid sequence and ends inside a character that the bytes after it go on
with; each chunk is read from the character left open before it, unless an invalid sequence
came before that. -/
def Torn (q : Decoder) : List (List UInt8) → Prop
  | [] => False
  | chunk :: chunks =>
    if broken q chunk then continues (run q chunk).2 chunks.flatten ∨ Torn .start chunks
    else Torn (run q chunk).2 chunks

theorem torn_of_broken {chunks : List (List UInt8)} (h : broken q chunk) :
    Torn q (chunk :: chunks) ↔ continues (run q chunk).2 chunks.flatten ∨ Torn .start chunks := by
  simp [Torn, h]

theorem torn_of_not_broken {chunks : List (List UInt8)} (h : broken q chunk = false) :
    Torn q (chunk :: chunks) ↔ Torn (run q chunk).2 chunks := by
  simp [Torn, h]

theorem decodeAll_eq (h : Carries carry q) {chunks : List (List UInt8)} (htorn : ¬Torn q chunks) :
    carry.decodeAll chunks = lossyFrom q chunks.flatten := by
  induction chunks generalizing carry q with
  | nil => exact h.finish
  | cons chunk chunks ih =>
    rw [Utf8Carry.decodeAll, List.flatten_cons, lossyFrom_append]
    cases hbroken : broken q chunk with
    | true =>
      rw [torn_of_broken hbroken, not_or, Bool.not_eq_true] at htorn
      rw [h.decode_broken hbroken, ih carries_empty htorn.2,
        lossyFrom_of_not_continues htorn.1, lossyFrom, List.append_assoc]
      rfl
    | false =>
      rw [torn_of_not_broken hbroken] at htorn
      obtain ⟨htext, hcarries⟩ := h.decode hbroken
      rw [htext, ih hcarries htorn]

/-- Whatever is torn is longer than it should be. -/
theorem length_decodeAll (hq : Tail q) (h : Carries carry q) (chunks : List (List UInt8)) :
    (lossyFrom q chunks.flatten).length ≤ (carry.decodeAll chunks).length ∧
      (Torn q chunks → (lossyFrom q chunks.flatten).length < (carry.decodeAll chunks).length) := by
  induction chunks generalizing carry q with
  | nil =>
    refine ⟨Nat.le_of_eq ?_, fun htorn => htorn.elim⟩
    rw [decodeAll_eq h (show ¬Torn q [] from not_false)]
  | cons chunk chunks ih =>
    rw [Utf8Carry.decodeAll, List.flatten_cons, lossyFrom_append]
    have htail := run_tail hq chunk
    cases hbroken : broken q chunk with
    | true =>
      obtain ⟨hle, hlt⟩ := ih (q := .start) trivial carries_empty
      obtain ⟨hcut, hcut'⟩ := length_lossyFrom htail chunks.flatten
      rw [h.decode_broken hbroken]
      rw [lossyFrom_start] at hle hlt
      simp only [torn_of_broken hbroken, lossyFrom, List.length_append] at hle hlt hcut hcut' ⊢
      refine ⟨by omega, fun htorn => ?_⟩
      rcases htorn with htorn | htorn
      · have := hcut' htorn
        omega
      · have := hlt htorn
        omega
    | false =>
      obtain ⟨htext, hcarries⟩ := h.decode hbroken
      obtain ⟨hle, hlt⟩ := ih htail hcarries
      rw [htext, List.length_append, List.length_append]
      refine ⟨Nat.add_le_add_left hle _, fun htorn => ?_⟩
      rw [torn_of_not_broken hbroken] at htorn
      exact Nat.add_lt_add_left (hlt htorn) _

/-- Chunk by chunk a stream reads as it does whole exactly when no chunk is torn. -/
theorem decodeAll_eq_lossy_iff (chunks : List (List UInt8)) :
    ({} : Utf8Carry).decodeAll chunks = lossy chunks.flatten ↔ ¬Torn .start chunks := by
  constructor
  · intro heq htorn
    have hlt := (length_decodeAll (q := .start) trivial carries_empty chunks).2 htorn
    rw [heq, lossyFrom_start] at hlt
    exact Nat.lt_irrefl _ hlt
  · intro htorn
    rw [decodeAll_eq carries_empty htorn, lossyFrom_start]

/-- An invalid byte and the first half of a character in one chunk, its second half in the next:
the character is read as two replacements. -/
theorem decodeAll_ne_lossy :
    ({} : Utf8Carry).decodeAll [[0xFF, 0xC3], [0xB1]] ≠ lossy [[0xFF, 0xC3], [0xB1]].flatten := by
  decide

end Atomis.Util
