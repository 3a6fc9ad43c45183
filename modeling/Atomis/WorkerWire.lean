import Atomis.Lib.JsonScan
import Atomis.Lib.Utf8
import Mathlib.Data.Bool.AllAny
import Mathlib.Tactic.IntervalCases

/-!
# What an instrumenter worker and the server say to each other

One request is one line of JSON on the worker's stdin and one answer is one line on its
stdout. serde_json, `JSON.parse` and Python's `json` are parameters, held to what they
document: they print flat objects on one line and accept nothing but JSON text. An answer
read from the middle, or cut short, is never taken for one.
-/

namespace Atomis.InstrumentWorker
open JsonScan

structure Answer (τ : Type) where
  json : τ
  generated : Option τ
deriving DecidableEq

structure Wire (τ : Type) where
  id : Option ℕ
  json : Option τ
  generated : Option τ
  error : Option τ

/-- What the worker's loop comes to: the answer or the error it caught. -/
abbrev Reply (τ : Type) := Except τ (Answer τ)

def Wire.of {τ : Type} (id : Option ℕ) : Reply τ → Wire τ
  | .ok answer => ⟨id, some answer.json, answer.generated, none⟩
  | .error error => ⟨id, none, none, some error⟩

-- "id", "json", "generated", "error" and null
def idKey : List UInt8 := [34, 105, 100, 34]
def jsonKey : List UInt8 := [34, 106, 115, 111, 110, 34]
def generatedKey : List UInt8 := [34, 103, 101, 110, 101, 114, 97, 116, 101, 100, 34]
def errorKey : List UInt8 := [34, 101, 114, 114, 111, 114, 34]
def null : List UInt8 := [110, 117, 108, 108]

def decimal (n : ℕ) : List UInt8 := (Nat.toDigits 10 n).map fun c => c.toNat.toUInt8

/-- `JSON.stringify` of the Node workers and `json.dumps` of the Python one: the spaces they
put behind a comma or a colon, and what they write between the quotes of a string. -/
structure Printer (τ : Type) where
  space : List UInt8
  body : τ → List UInt8
  space_blank : ∀ b ∈ space, kind b = .blank ∧ b ≠ 10
  body_body : ∀ t, Body (body t)
  body_line : ∀ t, 10 ∉ body t

section Printer
variable {τ : Type} (p : Printer τ)

def Printer.string (t : τ) : List UInt8 := 34 :: (p.body t ++ [34])

def Printer.member (key value : List UInt8) : List UInt8 := key ++ 58 :: (p.space ++ value)

def Printer.reply : Reply τ → List UInt8
  | .ok answer =>
    p.member jsonKey (p.string answer.json) ++
      44 :: (p.space ++ p.member generatedKey (answer.generated.elim null p.string))
  | .error error => p.member errorKey (p.string error)

def Printer.answer (id : Option ℕ) (reply : Reply τ) : List UInt8 :=
  123 :: (p.member idKey (id.elim null decimal) ++ 44 :: (p.space ++ (p.reply reply ++ [125])))

end Printer

/-- The three programs at the pipes. `request` is `line.to_string()` with the id set,
`decode` the worker's `JSON.parse`, `wire` the server's `from_str`. -/
structure Codec (ρ τ : Type) extends Printer τ where
  request : ρ → ℕ → List UInt8
  decode : List UInt8 → Option (ℕ × ρ)
  wire : List UInt8 → Option (Wire τ)
  request_keyed : ∀ r n, Keyed (request r n)
  request_line : ∀ r n, 10 ∉ request r n
  decode_request : ∀ r n, decode (request r n) = some (n, r)
  decode_accepts : ∀ text x, decode text = some x → Accepts text
  wire_accepts : ∀ text w, wire text = some w → Accepts text ∧ Headed text
  wire_string : ∀ text w, wire text = some w → w.json.isSome → ∃ b ∈ text, kind b = .quote
  wire_answer : ∀ id reply, wire (toPrinter.answer id reply) = some (Wire.of id reply)
  wire_line : ∀ id reply, wire (toPrinter.answer id reply ++ [10]) = some (Wire.of id reply)

/-- What `exchange` makes of the line it read. -/
def Codec.judge {ρ τ : Type} (c : Codec ρ τ) (id : ℕ) (text : List UInt8) : Option (Answer τ) :=
  match c.wire text with
  | none => none
  | some wire =>
    if wire.id ≠ some id then none
    else if wire.error.isSome then none
    else wire.json.map fun json => ⟨json, wire.generated⟩

/-! ## The shape of an answer -/

theorem kind_decimal {n : ℕ} {b : UInt8} (h : b ∈ decimal n) : kind b = .plain ∧ b ≠ 10 := by
  obtain ⟨ch, hmem, rfl⟩ := List.mem_map.mp h
  have hdigit := Nat.isDigit_of_mem_toDigits (by decide) (by decide) hmem
  obtain ⟨hlow, hhigh⟩ := Utf8.toNat_of_isDigit hdigit
  generalize ch.toNat = d at hlow hhigh ⊢
  interval_cases d <;> decide

variable {τ : Type} {p : Printer τ}

theorem mem_member {key value : List UInt8} {b : UInt8} :
    b ∈ p.member key value ↔ b ∈ key ∨ b = 58 ∨ b ∈ p.space ∨ b ∈ value := by
  simp [Printer.member]

/-- Bytes that are plain, blank or a mark leave a scan outside strings where it is. -/
theorem run_loose {d : ℕ} {text : List UInt8}
    (h : ∀ b ∈ text, kind b = .plain ∨ kind b = .blank ∨ kind b = .mark) :
    run (.out, d + 1) text = some (.out, d + 1) := by
  induction text with
  | nil => rfl
  | cons b text ih =>
    have hb := h b (by simp)
    rw [run_cons]
    rcases hb with hb | hb | hb <;> rw [hb] <;> exact ih fun c hc => h c (by simp [hc])

theorem run_string (t : τ) (d : ℕ) : run (.out, d) (p.string t) = some (.shut, d) := by
  rw [Printer.string, run_cons]
  cases d <;> simp [kind, step, run_append, (p.body_body t).run, run_cons]

/-- Behind a value a mark leads out again. -/
theorem run_mark {d : ℕ} {m : Mode} (hm : m = .out ∨ m = .shut) {b : UInt8} (hb : kind b = .mark)
    (text : List UInt8) : run (m, d + 1) (b :: text) = run (.out, d + 1) text := by
  rw [run_cons, hb]
  obtain rfl | rfl := hm <;> rfl

theorem run_space {d : ℕ} (text : List UInt8) :
    run (.out, d) (p.space ++ text) = run (.out, d) text := by
  rw [run_append, run_blank (fun b hb => (p.space_blank b hb).1) (.inl rfl), Option.bind_some]

/-- A member leaves the scan behind its value. -/
theorem run_member {key value : List UInt8} {d : ℕ}
    (hkey : run (.out, d + 1) key = some (.shut, d + 1)) :
    run (.out, d + 1) (p.member key value) = run (.out, d + 1) value := by
  rw [Printer.member, run_append, hkey, Option.bind_some, run_mark (.inr rfl) (by decide),
    run_space]

theorem run_key {key : List UInt8} (d : ℕ)
    (h : key = idKey ∨ key = jsonKey ∨ key = generatedKey ∨ key = errorKey) :
    run (.out, d + 1) key = some (.shut, d + 1) := by
  rcases h with rfl | rfl | rfl | rfl <;> rfl

theorem null_loose : ∀ b ∈ null, kind b = .plain ∨ kind b = .blank ∨ kind b = .mark :=
  List.all_iff_forall_prop.mp (by decide)

theorem run_number (id : Option ℕ) (d : ℕ) :
    run (.out, d + 1) (id.elim null decimal) = some (.out, d + 1) := by
  refine run_loose fun b hb => ?_
  cases id with
  | none => exact null_loose b hb
  | some n => exact .inl (kind_decimal hb).1

/-- A reply leaves the scan behind a value. -/
theorem run_reply (reply : Reply τ) :
    ∃ m, (m = .out ∨ m = .shut) ∧ run (.out, 1) (p.reply reply) = some (m, 1) := by
  cases reply with
  | error error =>
    refine ⟨.shut, .inr rfl, ?_⟩
    rw [Printer.reply, run_member (run_key 0 (by simp)), run_string]
  | ok answer =>
    have hgenerated : ∃ m, (m = .out ∨ m = .shut) ∧
        run (.out, 1) (answer.generated.elim null p.string) = some (m, 1) := by
      cases answer.generated with
      | none => exact ⟨.out, .inl rfl, rfl⟩
      | some t => exact ⟨.shut, .inr rfl, run_string t 1⟩
    obtain ⟨m, hm, hrun⟩ := hgenerated
    refine ⟨m, hm, ?_⟩
    rw [Printer.reply, run_append, run_member (run_key 0 (by simp)), run_string,
      Option.bind_some, run_mark (.inr rfl) (by decide), run_space,
      run_member (run_key 0 (by simp)), hrun]

theorem answer_bracketed (id : Option ℕ) (reply : Reply τ) : Bracketed (p.answer id reply) := by
  refine ⟨?_, ⟨123, _, rfl, by decide⟩,
    ⟨123 :: (p.member idKey (id.elim null decimal) ++ 44 :: (p.space ++ p.reply reply)), 125,
      by simp [Printer.answer], by decide⟩⟩
  obtain ⟨m, hm, hreply⟩ := run_reply (p := p) reply
  have hopen : step start (kind 123) = some (.out, 1) := rfl
  rw [Printer.answer, run_cons, hopen, Option.bind_some, run_append,
    run_member (run_key 0 (by simp)), run_number, Option.bind_some, run_mark (.inl rfl) (by decide),
    run_space, run_append, hreply, Option.bind_some]
  obtain rfl | rfl := hm <;> rfl

theorem newline_not_mem_string (t : τ) : 10 ∉ p.string t := by
  simp [Printer.string, p.body_line t]

theorem newline_not_mem_member (key : List UInt8) {value : List UInt8} (hkey : 10 ∉ key) (hvalue : 10 ∉ value) :
    10 ∉ p.member key value := by
  rw [mem_member]
  rintro (h | h | h | h)
  · exact hkey h
  · exact absurd h (by decide)
  · exact (p.space_blank 10 h).2 rfl
  · exact hvalue h

theorem newline_not_mem_answer (id : Option ℕ) (reply : Reply τ) : 10 ∉ p.answer id reply := by
  have hspace : 10 ∉ p.space := fun h => (p.space_blank 10 h).2 rfl
  have hid : 10 ∉ (id.elim null decimal : List UInt8) := by
    cases id with
    | none => decide
    | some n => exact fun h => (kind_decimal h).2 rfl
  have hreply : 10 ∉ p.reply reply := by
    cases reply with
    | error error => exact newline_not_mem_member errorKey (by decide) (newline_not_mem_string error)
    | ok answer =>
      have hgenerated : 10 ∉ answer.generated.elim null p.string := by
        cases answer.generated with
        | none => exact (by decide : 10 ∉ null)
        | some t => exact newline_not_mem_string t
      simp [Printer.reply, newline_not_mem_member jsonKey (by decide)
        (newline_not_mem_string answer.json), hspace,
        newline_not_mem_member generatedKey (by decide) hgenerated]
  simp [Printer.answer, newline_not_mem_member idKey (by decide) hid, hspace, hreply]

/-! ## An answer read from the middle -/

/-- A value's string and what comes behind it. -/
theorem flat_string {text after : List UInt8} (htext : ∀ b ∈ text, kind b ≠ .opening) (t : τ)
    (hafter : Follows after) (hrest : Flat (34 :: after)) :
    Flat (text ++ (p.string t ++ after)) := by
  have hquote : kind 34 = .quote := by decide
  have := Flat.string htext hquote hquote (p.body_body t) hafter hrest
  simpa [Printer.string] using this

theorem space_not_opening : ∀ b ∈ p.space, kind b ≠ .opening := fun b hb => by
  simp [(p.space_blank b hb).1]

theorem frame_not_opening {text key : List UInt8} (htext : ∀ b ∈ text, kind b ≠ .opening)
    (hkey : ∀ b ∈ key, kind b ≠ .opening) :
    ∀ b ∈ text ++ (key ++ 58 :: p.space), kind b ≠ .opening := by
  intro b hb
  simp only [List.mem_append, List.mem_cons] at hb
  rcases hb with hb | hb | rfl | hb
  · exact htext b hb
  · exact hkey b hb
  · decide
  · exact space_not_opening b hb

theorem tail_not_opening : ∀ b ∈ ([125, 10] : List UInt8), kind b ≠ .opening :=
  List.all_iff_forall_prop.mp (by decide)

theorem flat_tail : Flat [34, 125, 10] := .bare (List.all_iff_forall_prop.mp (by decide))

theorem null_not_opening : ∀ b ∈ null, kind b ≠ .opening :=
  List.all_iff_forall_prop.mp (by decide)

theorem key_not_opening (key : List UInt8)
    (h : key = idKey ∨ key = jsonKey ∨ key = generatedKey ∨ key = errorKey) :
    ∀ b ∈ key, kind b ≠ .opening := by
  rcases h with rfl | rfl | rfl | rfl <;> exact List.all_iff_forall_prop.mp (by decide)

theorem follows_tail : Follows [125, 10] := follows_bare (List.all_iff_forall_prop.mp (by decide))

/-- Behind `json` comes the key of `generated`, whose first letter is a `g`. -/
theorem follows_generated (rest : List UInt8) :
    Follows (44 :: (p.space ++ (generatedKey ++ rest))) := by
  have hbare : ∀ b ∈ 44 :: p.space, kind b ≠ .quote ∧ kind b ≠ .escape := by
    intro b hb
    rcases List.mem_cons.mp hb with rfl | hb
    · decide
    · simp [(p.space_blank b hb).1]
  have hquote : kind 34 = .quote := by decide
  have hletter : kind 103 = .plain := by decide
  exact follows_key hbare hquote hletter

theorem flat_generated (generated : Option τ) :
    Flat (34 :: 44 :: (p.space ++ (p.member generatedKey (generated.elim null p.string) ++
      [125, 10]))) := by
  have hfront : ∀ b ∈ 34 :: 44 :: p.space, kind b ≠ .opening := by
    intro b hb
    simp only [List.mem_cons] at hb
    rcases hb with rfl | rfl | hb
    · decide
    · decide
    · exact space_not_opening b hb
  have hframe := frame_not_opening (p := p) hfront (key_not_opening generatedKey (by simp))
  cases generated with
  | none =>
    refine .bare fun b hb => ?_
    have hb' : b ∈ 34 :: 44 :: p.space ++ (generatedKey ++ 58 :: p.space) ∨
        b ∈ null ++ [125, 10] := by
      simp [Printer.member] at hb ⊢
      tauto
    rcases hb' with hb' | hb'
    · exact hframe b hb'
    · exact (List.mem_append.mp hb').elim (null_not_opening b) (tail_not_opening b)
  | some t =>
    have := flat_string (p := p) hframe t follows_tail flat_tail
    simpa [Printer.member] using this

theorem flat_reply {text : List UInt8} (htext : ∀ b ∈ text, kind b ≠ .opening)
    (reply : Reply τ) : Flat (text ++ (p.reply reply ++ [125, 10])) := by
  cases reply with
  | error error =>
    have hframe := frame_not_opening (p := p) htext (key_not_opening errorKey (by simp))
    have := flat_string (p := p) hframe error follows_tail flat_tail
    simpa [Printer.reply, Printer.member] using this
  | ok answer =>
    have hafter : Follows (44 :: (p.space ++ (p.member generatedKey
        (answer.generated.elim null p.string) ++ [125, 10]))) := by
      simpa [Printer.member] using follows_generated (p := p) _
    have hframe := frame_not_opening (p := p) htext (key_not_opening jsonKey (by simp))
    have := flat_string (p := p) hframe answer.json hafter (flat_generated _)
    simpa [Printer.reply, Printer.member] using this

theorem answer_flat (id : Option ℕ) (reply : Reply τ) :
    ∃ rest, p.answer id reply ++ [10] = 123 :: rest ∧ Flat rest := by
  refine ⟨_, by rw [Printer.answer, List.cons_append], ?_⟩
  have hid : ∀ b ∈ (id.elim null decimal : List UInt8), kind b ≠ .opening := by
    cases id with
    | none => exact null_not_opening
    | some n => exact fun b hb => by simp [(kind_decimal hb).1]
  have hfront : ∀ b ∈ idKey ++ 58 :: p.space ++ (id.elim null decimal ++ 44 :: p.space),
      kind b ≠ .opening := by
    intro b hb
    simp only [List.mem_append, List.mem_cons] at hb
    rcases hb with (hb | rfl | hb) | hb | rfl | hb
    · exact key_not_opening idKey (by simp) b hb
    · decide
    · exact space_not_opening b hb
    · exact hid b hb
    · decide
    · exact space_not_opening b hb
  simpa [Printer.member] using flat_reply (p := p) hfront reply

/-! ## What the server makes of a part of a line -/

section Codec
variable {ρ : Type} {c : Codec ρ τ}

theorem judge_eq_some {n : ℕ} {text : List UInt8} {answer : Answer τ}
    (h : c.judge n text = some answer) :
    ∃ wire, c.wire text = some wire ∧ wire.id = some n ∧ wire.error = none ∧
      wire.json = some answer.json ∧ wire.generated = answer.generated := by
  simp only [Codec.judge] at h
  split at h
  · cases h
  · next wire hwire =>
    split_ifs at h with hid herror
    obtain ⟨json, hjson, rfl⟩ := Option.map_eq_some_iff.mp h
    exact ⟨wire, hwire, not_not.mp hid, by simpa using herror, hjson, rfl⟩

theorem judge_answer (n : ℕ) (id : Option ℕ) (reply : Reply τ) {answer : Answer τ}
    (h : c.judge n (c.answer id reply) = some answer ∨
      c.judge n (c.answer id reply ++ [10]) = some answer) :
    id = some n ∧ reply = .ok answer := by
  have hwire : (Wire.of id reply).id = some n ∧ (Wire.of id reply).json = some answer.json ∧
      (Wire.of id reply).generated = answer.generated := by
    rcases h with h | h
    · obtain ⟨wire, hwire, hid, -, hjson, hgenerated⟩ := judge_eq_some h
      obtain rfl := Option.some.inj ((c.wire_answer id reply).symm.trans hwire)
      exact ⟨hid, hjson, hgenerated⟩
    · obtain ⟨wire, hwire, hid, -, hjson, hgenerated⟩ := judge_eq_some h
      obtain rfl := Option.some.inj ((c.wire_line id reply).symm.trans hwire)
      exact ⟨hid, hjson, hgenerated⟩
  cases reply with
  | error error => simp [Wire.of] at hwire
  | ok a =>
    obtain ⟨hid, hjson, hgenerated⟩ := hwire
    obtain ⟨json, generated⟩ := answer
    obtain ⟨json', generated'⟩ := a
    simp only [Wire.of, Option.some.injEq] at hid hjson hgenerated
    subst hjson hgenerated
    exact ⟨hid, rfl⟩

/-- A part of an answer's line is taken for an answer only if it is the whole of it, with or
without the newline, and then it is the worker's own answer to that id. -/
theorem judge_part {n : ℕ} {id : Option ℕ} {reply : Reply τ} {before part after : List UInt8}
    {answer : Answer τ} (heq : c.answer id reply ++ [10] = before ++ (part ++ after))
    (h : c.judge n part = some answer) : id = some n ∧ reply = .ok answer := by
  obtain ⟨wire, hwire, -, -, hjson, -⟩ := judge_eq_some h
  obtain ⟨⟨m, hm, hrun⟩, hhead⟩ := c.wire_accepts part wire hwire
  cases before with
  | cons b before =>
    obtain ⟨rest, hrest, hflat⟩ := answer_flat (p := c.toPrinter) id reply
    obtain ⟨-, hpart⟩ := List.cons.inj (hrest.symm.trans heq)
    obtain ⟨q, hq, hquote⟩ := c.wire_string part wire hwire (by simp [hjson])
    exact absurd hquote (hflat.part hpart hhead hrun q hq)
  | nil =>
    rw [List.nil_append] at heq
    rcases List.append_eq_append_iff.mp heq with ⟨x, rfl, hx⟩ | ⟨x, hx, -⟩
    · cases x with
      | nil => exact judge_answer n id reply (.inl (by simpa using h))
      | cons b x =>
        obtain ⟨rfl, hnil⟩ := List.cons.inj hx
        obtain rfl : x = [] := (List.append_eq_nil_iff.mp hnil.symm).1
        exact judge_answer n id reply (.inr h)
    · by_cases hnil : x = []
      · subst hnil
        rw [List.append_nil] at hx
        exact judge_answer n id reply (.inl (hx ▸ h))
      · have hpart : part ≠ [] := by
          rintro rfl
          obtain ⟨_, _, _, hempty, -⟩ := hhead
          simp at hempty
        exact absurd ⟨m, hm, hrun⟩ ((answer_bracketed id reply).not_accepts_left hx hpart hnil)

end Codec

end Atomis.InstrumentWorker
