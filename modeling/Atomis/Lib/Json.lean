import Mathlib.Data.List.Basic
import Mathlib.Tactic.Common

/-!
# JSON texts

The values whose numbers are natural, the texts without white space that stand for them, and
a parser. A text is read back to the value it stands for, so it stands for no other.
-/

namespace Atomis.Json

inductive Value
  | null
  | bool (b : Bool)
  | number (n : ℕ)
  | string (text : List Char)
  | array (values : List Value)
  | object (members : List (String × Value))

/-- What stands behind a backslash, and the character meant. -/
def escapes : List (Char × Char) :=
  [('"', '"'), ('\\', '\\'), ('/', '/'), ('b', Char.ofNat 8), ('f', Char.ofNat 12), ('n', '\n'),
    ('r', '\r'), ('t', '\t')]

def hexDigit (c : Char) : Option ℕ :=
  if c.isDigit then some (c.toNat - 48)
  else if 97 ≤ c.toNat ∧ c.toNat ≤ 102 then some (c.toNat - 87)
  else if 65 ≤ c.toNat ∧ c.toNat ≤ 70 then some (c.toNat - 55)
  else none

/-- The code that four hexadecimal digits stand for. -/
def code (a b c d : Char) : Option ℕ :=
  match hexDigit a, hexDigit b, hexDigit c, hexDigit d with
  | some a, some b, some c, some d => some (((a * 16 + b) * 16 + c) * 16 + d)
  | _, _, _, _ => none

/-! ## Texts -/

/-- What stands between the quotes of a string. -/
inductive Body : List Char → List Char → Prop
  | nil : Body [] []
  | plain {c : Char} {text body : List Char} (hquote : c ≠ '"') (hslash : c ≠ '\\')
      (hcontrol : 32 ≤ c.toNat) (h : Body text body) : Body (c :: text) (c :: body)
  | escaped {e c : Char} {text body : List Char} (he : (e, c) ∈ escapes) (h : Body text body) :
      Body (c :: text) ('\\' :: e :: body)
  | unicode {p q r s : Char} {n : ℕ} {text body : List Char} (hcode : code p q r s = some n)
      (hvalid : n.isValidChar) (h : Body text body) :
      Body (Char.ofNat n :: text) ('\\' :: 'u' :: p :: q :: r :: s :: body)

mutual

inductive Text : Value → List Char → Prop
  | null : Text .null ['n', 'u', 'l', 'l']
  | true : Text (.bool .true) ['t', 'r', 'u', 'e']
  | false : Text (.bool .false) ['f', 'a', 'l', 's', 'e']
  | number (n : ℕ) : Text (.number n) (Nat.toDigits 10 n)
  | string {text body : List Char} (h : Body text body) :
      Text (.string text) ('"' :: (body ++ ['"']))
  | noValues : Text (.array []) ['[', ']']
  | array {values : List Value} {text : List Char} (h : Items values text) :
      Text (.array values) ('[' :: (text ++ [']']))
  | noMembers : Text (.object []) ['\x7b', '\x7d']
  | object {members : List (String × Value)} {text : List Char} (h : Members members text) :
      Text (.object members) ('\x7b' :: (text ++ ['\x7d']))

/-- One value or more, with commas between. -/
inductive Items : List Value → List Char → Prop
  | one {value : Value} {text : List Char} (h : Text value text) : Items [value] text
  | cons {value : Value} {values : List Value} {text more : List Char} (h : Text value text)
      (hmore : Items values more) : Items (value :: values) (text ++ ',' :: more)

inductive Members : List (String × Value) → List Char → Prop
  | one {key : String} {body : List Char} {value : Value} {text : List Char}
      (hkey : Body key.toList body) (h : Text value text) : Members [(key, value)] ('"' :: (body ++ '"' :: ':' :: text))
  | cons {key : String} {body : List Char} {value : Value} {members : List (String × Value)}
      {text more : List Char} (hkey : Body key.toList body) (h : Text value text)
      (hmore : Members members more) :
      Members ((key, value) :: members) ('"' :: (body ++ '"' :: ':' :: (text ++ ',' :: more)))

end

/-! ## Writing an object -/

/-- A text that stands for itself between quotes. -/
def plain (text : List Char) : Bool :=
  text.all fun c => c != '"' && c != '\\' && decide (32 ≤ c.toNat)

theorem body_plain {text : List Char} (h : plain text = true) : Body text text := by
  induction text with
  | nil => exact .nil
  | cons c text ih =>
    simp only [plain, List.all_cons, Bool.and_eq_true, bne_iff_ne, ne_eq, decide_eq_true_eq] at h
    obtain ⟨⟨⟨hquote, hslash⟩, hcontrol⟩, htext⟩ := h
    exact .plain hquote hslash hcontrol (ih htext)

/-- A member of an object and the text its value is written as. -/
structure Field where
  key : String
  value : Value
  text : List Char

namespace Field

structure Right (f : Field) : Prop where
  key : plain f.key.toList = true
  text : Text f.value f.text

def member (f : Field) : String × Value := (f.key, f.value)

def written (f : Field) : List Char := '"' :: (f.key.toList ++ '"' :: ':' :: f.text)

def joined : List Field → List Char
  | [] => []
  | f :: fields => f.written ++ fields.flatMap fun g => ',' :: g.written

def object (fields : List Field) : Value := .object (fields.map member)

theorem members_joined {f : Field} {fields : List Field} (h : f.Right)
    (hmore : ∀ g ∈ fields, g.Right) : Members ((f :: fields).map member) (joined (f :: fields)) := by
  induction fields generalizing f with
  | nil =>
    simp only [joined, List.flatMap_nil, List.append_nil]
    exact .one (body_plain h.key) h.text
  | cons g fields ih =>
    obtain ⟨hg, hfields⟩ := List.forall_mem_cons.mp hmore
    have hcons := Members.cons (body_plain h.key) h.text (ih hg hfields)
    simpa [joined, written, member] using hcons

/-- An object is written field by field. -/
theorem text_object {f : Field} {fields : List Field} (h : ∀ g ∈ f :: fields, g.Right) :
    Text (object (f :: fields)) ('\x7b' :: (joined (f :: fields) ++ ['\x7d'])) := by
  obtain ⟨hf, hfields⟩ := List.forall_mem_cons.mp h
  exact .object (members_joined hf hfields)

end Field

theorem items_joined {v : Value} {text : List Char} {values : List Value}
    {texts : List (List Char)} (h : Text v text) (hmore : List.Forall₂ Text values texts) :
    Items (v :: values) (text ++ texts.flatMap (',' :: ·)) := by
  induction hmore generalizing v text with
  | nil =>
    rw [List.flatMap_nil, List.append_nil]
    exact .one h
  | cons h' hmore ih => exact .cons h (ih h')

/-! ## No text has a control character -/

def Printable (text : List Char) : Prop := ∀ c ∈ text, 32 ≤ c.toNat

theorem printable_cons {c : Char} {text : List Char} :
    Printable (c :: text) ↔ 32 ≤ c.toNat ∧ Printable text := List.forall_mem_cons

theorem printable_append {left right : List Char} :
    Printable (left ++ right) ↔ Printable left ∧ Printable right := List.forall_mem_append

theorem printable_nil : Printable [] := List.forall_mem_nil _

theorem printable_hexDigit {c : Char} {n : ℕ} (h : hexDigit c = some n) : 32 ≤ c.toNat := by
  rw [hexDigit] at h
  split_ifs at h with hdigit hlow hhigh
  · simp only [Char.isDigit, Bool.and_eq_true, decide_eq_true_eq] at hdigit
    have hfirst : (48 : UInt32).toNat ≤ c.val.toNat := hdigit.1
    have hval : c.toNat = c.val.toNat := rfl
    have hbound : (48 : UInt32).toNat = 48 := rfl
    omega
  all_goals omega

theorem printable_body {text body : List Char} (h : Body text body) : Printable body := by
  induction h with
  | nil => exact printable_nil
  | plain hquote hslash hcontrol h ih => exact printable_cons.mpr ⟨hcontrol, ih⟩
  | @escaped e c text body he h ih =>
    have hprint : ∀ p ∈ escapes, 32 ≤ p.1.toNat := by decide
    exact printable_cons.mpr ⟨by decide, printable_cons.mpr ⟨hprint _ he, ih⟩⟩
  | @unicode p q r s n text body hcode hvalid h ih =>
    rw [code] at hcode
    split at hcode
    · rename_i hp hq hr hs
      simp only [printable_cons]
      exact ⟨by decide, by decide, printable_hexDigit hp, printable_hexDigit hq,
        printable_hexDigit hr, printable_hexDigit hs, ih⟩
    · cases hcode

theorem printable_digits (n : ℕ) : Printable (Nat.toDigits 10 n) := by
  intro c hc
  have hdigit := Nat.isDigit_of_mem_toDigits (by decide) (by decide) hc
  have hsome : hexDigit c = some (c.toNat - 48) := by rw [hexDigit, if_pos hdigit]
  exact printable_hexDigit hsome

mutual

theorem printable_text {v : Value} {text : List Char} (h : Text v text) : Printable text := by
  cases h with
  | null | true | false | noValues | noMembers => simp [Printable]
  | number n => exact printable_digits n
  | string h =>
    simp only [printable_cons, printable_append]
    exact ⟨by decide, printable_body h, by decide, printable_nil⟩
  | array h =>
    simp only [printable_cons, printable_append]
    exact ⟨by decide, printable_items h, by decide, printable_nil⟩
  | object h =>
    simp only [printable_cons, printable_append]
    exact ⟨by decide, printable_members h, by decide, printable_nil⟩

theorem printable_items {values : List Value} {text : List Char} (h : Items values text) :
    Printable text := by
  cases h with
  | one h => exact printable_text h
  | cons h hmore =>
    simp only [printable_cons, printable_append]
    exact ⟨printable_text h, by decide, printable_items hmore⟩

theorem printable_members {members : List (String × Value)} {text : List Char}
    (h : Members members text) : Printable text := by
  cases h with
  | one hkey h =>
    simp only [printable_cons, printable_append]
    exact ⟨by decide, printable_body hkey, by decide, by decide, printable_text h⟩
  | cons hkey h hmore =>
    simp only [printable_cons, printable_append]
    exact ⟨by decide, printable_body hkey, by decide, by decide, printable_text h, by decide,
      printable_members hmore⟩

end

/-! ## Parser -/

/-- The rest of a string and what follows it. -/
def string : List Char → Option (List Char × List Char)
  | [] => none
  | '"' :: rest => some ([], rest)
  | '\\' :: 'u' :: p :: q :: r :: s :: rest =>
    match code p q r s with
    | none => none
    | some n =>
      if n.isValidChar then (string rest).map fun (text, rest) => (Char.ofNat n :: text, rest)
      else none
  | '\\' :: e :: rest =>
    match escapes.lookup e with
    | none => none
    | some c => (string rest).map fun (text, rest) => (c :: text, rest)
  | c :: rest =>
    if c.toNat < 32 then none else (string rest).map fun (text, rest) => (c :: text, rest)

def number (text : List Char) : Option (Value × List Char) :=
  let digits := text.takeWhile Char.isDigit
  let n := Nat.ofDigitChars 10 digits 0
  if Nat.toDigits 10 n = digits then some (.number n, text.dropWhile Char.isDigit) else none

mutual

def value : ℕ → List Char → Option (Value × List Char)
  | 0, _ => none
  | fuel + 1, text =>
    match text with
    | 'n' :: 'u' :: 'l' :: 'l' :: rest => some (.null, rest)
    | 't' :: 'r' :: 'u' :: 'e' :: rest => some (.bool true, rest)
    | 'f' :: 'a' :: 'l' :: 's' :: 'e' :: rest => some (.bool false, rest)
    | '"' :: rest => (string rest).map fun (text, rest) => (.string text, rest)
    | '[' :: ']' :: rest => some (.array [], rest)
    | '[' :: rest => (items fuel rest).map fun (values, rest) => (.array values, rest)
    | '\x7b' :: '\x7d' :: rest => some (.object [], rest)
    | '\x7b' :: rest => (members fuel rest).map fun (members, rest) => (.object members, rest)
    | text => number text

def items : ℕ → List Char → Option (List Value × List Char)
  | 0, _ => none
  | fuel + 1, text =>
    match value fuel text with
    | some (value, ',' :: rest) =>
      (items fuel rest).map fun (values, rest) => (value :: values, rest)
    | some (value, ']' :: rest) => some ([value], rest)
    | _ => none

def members : ℕ → List Char → Option (List (String × Value) × List Char)
  | 0, _ => none
  | fuel + 1, text =>
    match text with
    | '"' :: rest =>
      match string rest with
      | some (key, ':' :: rest) =>
        match value fuel rest with
        | some (value, ',' :: rest) =>
          (members fuel rest).map fun (members, rest) =>
            ((String.ofList key, value) :: members, rest)
        | some (value, '\x7d' :: rest) => some ([(String.ofList key, value)], rest)
        | _ => none
      | _ => none
    | _ => none

end

def parse (text : List Char) : Option Value :=
  match value (text.length + 1) text with
  | some (value, []) => some value
  | _ => none

/-! ## A text is read back -/

/-- What may follow a value. -/
def Stops (rest : List Char) : Prop := ∀ c ∈ rest.head?, c.isDigit = false

theorem stops_nil : Stops [] := by simp [Stops]

theorem stops_cons {c : Char} (hc : c.isDigit = false) (rest : List Char) : Stops (c :: rest) := by
  simp [Stops, hc]

theorem string_body {text body : List Char} (h : Body text body) (rest : List Char) :
    string (body ++ '"' :: rest) = some (text, rest) := by
  induction h with
  | nil => rfl
  | plain hquote hslash hcontrol h ih =>
    rw [List.cons_append, string]
    · rw [if_neg (Nat.not_lt.mpr hcontrol), ih]
      rfl
    all_goals simp [hquote, hslash]
  | escaped he h ih =>
    simp only [escapes, List.mem_cons, Prod.mk.injEq, List.not_mem_nil, or_false] at he
    rcases he with ⟨rfl, rfl⟩ | ⟨rfl, rfl⟩ | ⟨rfl, rfl⟩ | ⟨rfl, rfl⟩ | ⟨rfl, rfl⟩ | ⟨rfl, rfl⟩ |
      ⟨rfl, rfl⟩ | ⟨rfl, rfl⟩ <;>
      simp [string, escapes, List.lookup_cons, ih]
  | unicode hcode hvalid h ih => simp [string, hcode, hvalid, ih]

theorem takeWhile_digits (n : ℕ) {rest : List Char} (h : Stops rest) :
    (Nat.toDigits 10 n ++ rest).takeWhile Char.isDigit = Nat.toDigits 10 n ∧
      (Nat.toDigits 10 n ++ rest).dropWhile Char.isDigit = rest := by
  have hdigits : ∀ c ∈ Nat.toDigits 10 n, c.isDigit = true := fun c hc =>
    Nat.isDigit_of_mem_toDigits (by decide) (by decide) hc
  rw [List.takeWhile_append_of_pos hdigits, List.dropWhile_append_of_pos hdigits]
  cases rest with
  | nil => simp
  | cons c rest =>
    have hc : c.isDigit = false := h c rfl
    simp [hc]

theorem number_digits (n : ℕ) {rest : List Char} (h : Stops rest) :
    number (Nat.toDigits 10 n ++ rest) = some (.number n, rest) := by
  obtain ⟨htake, hdrop⟩ := takeWhile_digits n h
  simp [number, htake, hdrop, Nat.ofDigitChars_ten_toDigits]

/-- The first character of a number. -/
theorem exists_digit (n : ℕ) : ∃ c digits, Nat.toDigits 10 n = c :: digits ∧ c.isDigit := by
  obtain ⟨c, digits, hdigits⟩ := List.exists_cons_of_ne_nil (Nat.toDigits_ne_nil (n := n) (b := 10))
  exact ⟨c, digits, hdigits,
    Nat.isDigit_of_mem_toDigits (n := n) (by decide) (by decide) (hdigits ▸ List.mem_cons_self)⟩

theorem value_number (fuel n : ℕ) {rest : List Char} (h : Stops rest) :
    value (fuel + 1) (Nat.toDigits 10 n ++ rest) = some (.number n, rest) := by
  obtain ⟨c, digits, hdigits, hc⟩ := exists_digit n
  have hnumber := number_digits n h
  rw [hdigits, List.cons_append] at hnumber ⊢
  rw [value]
  · exact hnumber
  all_goals
    intro rest' h'
    obtain ⟨rfl, -⟩ := List.cons.inj h'
    cases hc

theorem head_ne_of_text {v : Value} {text : List Char} (h : Text v text) :
    ∃ c rest, text = c :: rest ∧ c ≠ ']' := by
  cases h
  case number n =>
    obtain ⟨c, digits, hdigits, hc⟩ := exists_digit n
    refine ⟨c, digits, hdigits, ?_⟩
    rintro rfl
    cases hc
  all_goals exact ⟨_, _, rfl, by decide⟩

theorem head_ne_of_items {values : List Value} {text : List Char} (h : Items values text) :
    ∃ c rest, text = c :: rest ∧ c ≠ ']' := by
  cases h with
  | one h => exact head_ne_of_text h
  | cons h hmore =>
    obtain ⟨c, rest, rfl, hc⟩ := head_ne_of_text h
    exact ⟨c, _, rfl, hc⟩

theorem head_of_members {members : List (String × Value)} {text : List Char}
    (h : Members members text) : ∃ rest, text = '"' :: rest := by
  cases h <;> exact ⟨_, rfl⟩

mutual

theorem value_text {v : Value} {text : List Char} (fuel : ℕ) (rest : List Char)
    (h : Text v text) (hfuel : text.length < fuel) (hrest : Stops rest) :
    value fuel (text ++ rest) = some (v, rest) := by
  obtain ⟨fuel, rfl⟩ := Nat.exists_eq_add_one_of_ne_zero (Nat.ne_of_gt (Nat.zero_lt_of_lt hfuel))
  cases h with
  | null | true | false | noValues | noMembers => simp [value]
  | number n => exact value_number fuel n hrest
  | string h => simp [value, string_body h]
  | array h =>
    have hitems := items_text fuel rest h (by simp at hfuel; omega)
    obtain ⟨c, more, rfl, hc⟩ := head_ne_of_items h
    simp only [List.cons_append, List.append_assoc, List.nil_append] at hitems ⊢
    rw [value]
    · rw [hitems]
      rfl
    · simp [hc]
  | object h =>
    have hmembers := members_text fuel rest h (by simp at hfuel; omega)
    obtain ⟨more, rfl⟩ := head_of_members h
    simp only [List.cons_append, List.append_assoc, List.nil_append] at hmembers ⊢
    rw [value]
    · rw [hmembers]
      rfl
    · simp

theorem items_text {values : List Value} {text : List Char} (fuel : ℕ) (rest : List Char)
    (h : Items values text) (hfuel : text.length + 1 < fuel) :
    items fuel (text ++ ']' :: rest) = some (values, rest) := by
  obtain ⟨fuel, rfl⟩ := Nat.exists_eq_add_one_of_ne_zero (Nat.ne_of_gt (Nat.zero_lt_of_lt hfuel))
  cases h with
  | one h =>
    have hvalue := value_text fuel (']' :: rest) h (by omega)
      (stops_cons (by decide) _)
    simp [items, hvalue]
  | @cons v values text more h hmore =>
    simp only [List.length_append, List.length_cons] at hfuel
    have hvalue := value_text fuel (',' :: (more ++ ']' :: rest)) h (by omega)
      (stops_cons (by decide) _)
    have hitems := items_text fuel rest hmore (by omega)
    rw [List.append_assoc, List.cons_append, items, hvalue]
    simp [hitems]

theorem members_text {members' : List (String × Value)} {text : List Char} (fuel : ℕ)
    (rest : List Char) (h : Members members' text) (hfuel : text.length + 1 < fuel) :
    members fuel (text ++ '\x7d' :: rest) = some (members', rest) := by
  obtain ⟨fuel, rfl⟩ := Nat.exists_eq_add_one_of_ne_zero (Nat.ne_of_gt (Nat.zero_lt_of_lt hfuel))
  cases h with
  | @one key body v text hkey h =>
    simp only [List.length_append, List.length_cons] at hfuel
    have hvalue := value_text fuel ('\x7d' :: rest) h (by omega)
      (stops_cons (by decide) _)
    have hstring := string_body hkey (':' :: (text ++ '\x7d' :: rest))
    simp only [List.cons_append, List.append_assoc, members, hstring, hvalue,
      String.ofList_toList]
  | @cons key body v members' text more hkey h hmore =>
    simp only [List.length_append, List.length_cons] at hfuel
    have hvalue := value_text fuel (',' :: (more ++ '\x7d' :: rest)) h (by omega)
      (stops_cons (by decide) _)
    have hstring := string_body hkey (':' :: (text ++ ',' :: (more ++ '\x7d' :: rest)))
    have hmembers := members_text fuel rest hmore (by omega)
    simp only [List.cons_append, List.append_assoc, members, hstring, hvalue, hmembers,
      Option.map_some, String.ofList_toList]

end

theorem parse_text {v : Value} {text : List Char} (h : Text v text) : parse text = some v := by
  have hvalue := value_text (text.length + 1) [] h (Nat.lt_succ_self _) stops_nil
  rw [List.append_nil] at hvalue
  rw [parse, hvalue]

end Atomis.Json
