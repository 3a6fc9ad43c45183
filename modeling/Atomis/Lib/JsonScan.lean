import Mathlib.Data.List.Basic
import Mathlib.Tactic.Common

/-!
# Scanning JSON text

What every JSON text passes, of whatever values: brackets close, no backslash stands
outside a string, a string or a closing bracket is followed by a comma, a colon, a
closing bracket or white space, and one value is all there is. The scan does not tell
the two kinds of bracket apart, nor how numbers and literals are spelt.
-/

namespace Atomis.JsonScan

inductive Kind
  | quote
  | escape
  | opening
  | closing
  | mark
  | blank
  | plain
deriving DecidableEq

def kind (b : UInt8) : Kind :=
  if b = 34 then .quote
  else if b = 92 then .escape
  else if b = 123 ∨ b = 91 then .opening
  else if b = 125 ∨ b = 93 then .closing
  else if b = 44 ∨ b = 58 then .mark
  else if b = 32 ∨ b = 9 ∨ b = 10 ∨ b = 13 then .blank
  else .plain

/-- `str` is inside a string, `esc` behind a backslash there and `shut` behind a value. -/
inductive Mode
  | out
  | shut
  | str
  | esc
deriving DecidableEq

def step : Mode × ℕ → Kind → Option (Mode × ℕ)
  | (.str, d), .quote => some (.shut, d)
  | (.str, d), .escape => some (.esc, d)
  | (.str, d), _ => some (.str, d)
  | (.esc, d), _ => some (.str, d)
  | (.out, d), .quote => some (.str, d)
  | (.out, d), .opening => some (.out, d + 1)
  | (.out, d), .plain => some (.out, d)
  | (.out, d + 1), .closing => some (.shut, d)
  | (.out, d + 1), .mark => some (.out, d + 1)
  | (.out, d), .blank => some (.out, d)
  | (.shut, d + 1), .closing => some (.shut, d)
  | (.shut, d + 1), .mark => some (.out, d + 1)
  | (.shut, d), .blank => some (.shut, d)
  | _, _ => none

def run : Mode × ℕ → List UInt8 → Option (Mode × ℕ)
  | s, [] => some s
  | s, b :: text => (step s (kind b)).bind fun s => run s text

def start : Mode × ℕ := (.out, 0)

def Accepts (text : List UInt8) : Prop :=
  ∃ m, (m = .out ∨ m = .shut) ∧ run start text = some (m, 0)

variable {s s' : Mode × ℕ} {m m' : Mode} {d e : ℕ} {b : UInt8} {text left right : List UInt8}

@[simp] theorem run_nil (s : Mode × ℕ) : run s [] = some s := rfl

theorem run_cons (s : Mode × ℕ) (b : UInt8) (text : List UInt8) :
    run s (b :: text) = (step s (kind b)).bind fun s => run s text := rfl

theorem run_append (s : Mode × ℕ) (left right : List UInt8) :
    run s (left ++ right) = (run s left).bind fun s => run s right := by
  induction left generalizing s with
  | nil => rfl
  | cons b left ih =>
    rw [List.cons_append, run_cons, run_cons]
    cases step s (kind b) with
    | none => rfl
    | some s => exact ih s

theorem run_of_append (h : run s (left ++ right) = some s') :
    ∃ t, run s left = some t ∧ run t right = some s' := by
  rw [run_append] at h
  exact Option.bind_eq_some_iff.mp h

/-! ## Depths -/

theorem step_lift {k : Kind} (h : step (m, d) k = some (m', e)) (n : ℕ) :
    step (m, d + n) k = some (m', e + n) := by
  cases d with
  | zero => cases m <;> cases k <;> simp_all [step] <;> grind
  | succ d =>
    rw [Nat.add_right_comm]
    cases m <;> cases k <;> simp_all [step] <;> grind

/-- Inside more brackets the scan does the same. -/
theorem run_lift (h : run (m, d) text = some (m', e)) (n : ℕ) :
    run (m, d + n) text = some (m', e + n) := by
  induction text generalizing m d with
  | nil =>
    cases h
    rfl
  | cons b text ih =>
    rw [run_cons] at h ⊢
    obtain ⟨⟨m₁, d₁⟩, hstep, hrun⟩ := Option.bind_eq_some_iff.mp h
    rw [step_lift hstep n]
    exact ih hrun

/-- Behind a whole value only white space is left. -/
theorem run_shut_zero (h : run (.shut, 0) text = some s) :
    s = (.shut, 0) ∧ ∀ b ∈ text, kind b = .blank := by
  induction text with
  | nil =>
    cases h
    exact ⟨rfl, by simp⟩
  | cons b text ih =>
    rw [run_cons] at h
    obtain ⟨t, hstep, hrun⟩ := Option.bind_eq_some_iff.mp h
    cases hk : kind b with
    | blank =>
      obtain rfl : (.shut, 0) = t := by simpa [hk, step] using hstep
      obtain ⟨hs, hblank⟩ := ih hrun
      exact ⟨hs, by simpa [hk] using hblank⟩
    | _ => simp [hk, step] at hstep

/-- Out of the brackets the scan gets only by closing them. -/
theorem mode_of_depth_zero (h : run (m, d + 1) text = some (m', 0)) : m' = .shut := by
  induction text generalizing m d with
  | nil => simp at h
  | cons b text ih =>
    rw [run_cons] at h
    obtain ⟨⟨m₁, d₁⟩, hstep, hrun⟩ := Option.bind_eq_some_iff.mp h
    cases d₁ with
    | succ d₁ => exact ih hrun
    | zero =>
      have hm₁ : m₁ = .shut := by cases m <;> cases hk : kind b <;> simp_all [step]
      subst hm₁
      exact (Prod.mk.inj (run_shut_zero hrun).1).1

/-! ## Objects and their parts -/

/-- A text of brackets that is one value up to its last byte. -/
structure Bracketed (text : List UInt8) : Prop where
  run : run start text = some (.shut, 0)
  head : ∃ b rest, text = b :: rest ∧ kind b = .opening
  last : ∃ init b, text = init ++ [b] ∧ kind b = .closing

/-- A part that begins the text and does not end it leaves brackets open. -/
theorem Bracketed.open_left (h : Bracketed text) (heq : text = left ++ right) (hleft : left ≠ [])
    (hright : right ≠ []) : ∃ m d, JsonScan.run start left = some (m, d + 1) := by
  obtain ⟨⟨m, d⟩, hrun, hrest⟩ := run_of_append (heq ▸ h.run)
  cases d with
  | succ d => exact ⟨m, d, hrun⟩
  | zero =>
    exfalso
    obtain ⟨b, tail, hb, hkind⟩ := h.head
    obtain ⟨left, rfl⟩ : ∃ rest, left = b :: rest := by
      cases left with
      | nil => exact absurd rfl hleft
      | cons c rest => exact ⟨rest, by simp_all⟩
    simp only [run_cons, start, hkind, step, Option.bind_some] at hrun
    have hm := mode_of_depth_zero hrun
    subst hm
    obtain ⟨init, c, hc, hclosing⟩ := h.last
    have hmem : c ∈ right := by
      have hlast := congrArg List.getLast? (hc.symm.trans heq)
      rw [List.getLast?_append_of_ne_nil _ hright, List.getLast?_concat] at hlast
      exact List.mem_of_getLast? hlast.symm
    have := (run_shut_zero hrest).2 c hmem
    simp [hclosing] at this

theorem Bracketed.not_accepts_left (h : Bracketed text) (heq : text = left ++ right)
    (hleft : left ≠ []) (hright : right ≠ []) : ¬ Accepts left := by
  rintro ⟨m, -, hrun⟩
  obtain ⟨m', d, hrun'⟩ := h.open_left heq hleft hright
  simp [hrun] at hrun'

/-! ## Strings -/

/-- What stands between the quotes of a string. -/
inductive Body : List UInt8 → Prop
  | nil : Body []
  | byte {b : UInt8} {text : List UInt8} : kind b ≠ .quote → kind b ≠ .escape → Body text → Body (b :: text)
  | escaped {e b : UInt8} {text : List UInt8} : kind e = .escape → Body text → Body (e :: b :: text)

theorem Body.run (h : Body text) (d : ℕ) : run (.str, d) text = some (.str, d) := by
  induction h with
  | nil => rfl
  | @byte b text hq he _ ih =>
    cases hk : kind b <;> simp_all [run_cons, step]
  | @escaped e b text he _ ih => simp [run_cons, step, he, ih]

/-- What is left of a body from any place in it: behind a backslash it may begin with a
quote, else a quote only stands behind a backslash. -/
theorem Body.suffix (h : Body text) (heq : text = left ++ right) :
    Body right ∨ ∃ b rest, right = b :: rest ∧ Body rest := by
  induction h generalizing left with
  | nil =>
    obtain ⟨rfl, rfl⟩ := List.append_eq_nil_iff.mp heq.symm
    exact .inl .nil
  | @byte b text hq he hbody ih =>
    cases left with
    | nil =>
      rw [List.nil_append] at heq
      subst heq
      exact .inl (.byte hq he hbody)
    | cons c left => exact ih (List.cons.inj heq).2
  | @escaped e b text he hbody ih =>
    match left, heq with
    | [], heq =>
      rw [List.nil_append] at heq
      subst heq
      exact .inl (.escaped he hbody)
    | [c], heq =>
      obtain ⟨rfl, rfl⟩ : e = c ∧ b :: text = right := by simpa using heq
      exact .inr ⟨b, text, rfl, hbody⟩
    | c :: c' :: left, heq =>
      obtain ⟨-, -, htext⟩ : e = c ∧ b = c' ∧ text = left ++ right := by simpa using heq
      exact ih htext

/-- Read as if it stood outside, a body stops the scan at its first backslash; up to there
it has no quote. -/
theorem Body.run_outside (more : List UInt8) (h : Body (text ++ more))
    (hm : m = .out ∨ m = .shut) (hrun : JsonScan.run (m, d) text = some (m', e)) :
    (m' = .out ∨ m' = .shut) ∧ ∀ b ∈ text, kind b ≠ .quote := by
  induction text generalizing m d with
  | nil =>
    cases hrun
    exact ⟨hm, by simp⟩
  | cons b text ih =>
    rw [run_cons] at hrun
    obtain ⟨⟨m₁, d₁⟩, hstep, hrest⟩ := Option.bind_eq_some_iff.mp hrun
    rw [List.cons_append] at h
    generalize hrem : text ++ more = rem at h
    cases h with
    | byte hq he hbody =>
      subst hrem
      have hm₁ : m₁ = .out ∨ m₁ = .shut := by
        obtain rfl | rfl := hm <;> cases d <;> cases hk : kind b <;> simp_all [step]
      obtain ⟨hm', hmem⟩ := ih hbody hm₁ hrest
      exact ⟨hm', by simpa [hq] using hmem⟩
    | escaped he _ => obtain rfl | rfl := hm <;> cases d <;> simp [step, he] at hstep

/-- The first byte that is no white space opens a bracket. -/
def Headed (text : List UInt8) : Prop :=
  ∃ blanks b rest, text = blanks ++ b :: rest ∧ (∀ c ∈ blanks, kind c = .blank) ∧
    kind b = .opening

theorem run_blank (h : ∀ b ∈ text, kind b = .blank) (hm : m = .out ∨ m = .shut) :
    run (m, d) text = some (m, d) := by
  induction text with
  | nil => rfl
  | cons b text ih =>
    rw [run_cons, h b (by simp)]
    obtain rfl | rfl := hm <;> cases d <;> simpa [step] using ih fun c hc => h c (by simp [hc])

/-- Past its opening bracket a text is at depth one. -/
theorem Headed.run (h : Headed text) :
    ∃ rest, JsonScan.run start text = JsonScan.run (.out, 1) rest := by
  obtain ⟨blanks, b, rest, rfl, hblank, hkind⟩ := h
  refine ⟨rest, ?_⟩
  rw [run_append, start, run_blank hblank (.inl rfl), Option.bind_some, run_cons, hkind]
  rfl

/-- A headed text that comes back to depth zero is behind its value. -/
theorem Headed.mode (h : Headed text) (hrun : JsonScan.run start text = some (m, 0)) :
    m = .shut := by
  obtain ⟨rest, hrest⟩ := h.run
  exact mode_of_depth_zero (hrest ▸ hrun)

/-- What comes before a quote decides whether a text is headed. -/
theorem Headed.of_quote {q : UInt8} (h : Headed (left ++ q :: right)) (hq : kind q = .quote) :
    Headed left := by
  obtain ⟨blanks, b, rest, heq, hblank, hkind⟩ := h
  rcases List.append_eq_append_iff.mp heq with ⟨x, hx, hrest⟩ | ⟨x, hx, hrest⟩
  · cases x with
    | nil =>
      obtain ⟨rfl, -⟩ := List.cons.inj (by simpa using hrest)
      simp [hq] at hkind
    | cons c x =>
      obtain ⟨rfl, -⟩ := List.cons.inj (by simpa using hrest)
      have := hblank q (by simp [hx])
      simp [hq] at this
  · cases x with
    | nil =>
      obtain ⟨rfl, -⟩ := List.cons.inj (by simpa using hrest)
      simp [hq] at hkind
    | cons c x =>
      obtain ⟨rfl, -⟩ := List.cons.inj (by simpa using hrest)
      exact ⟨blanks, b, x, hx, hblank, hkind⟩

/-! ## An answer read from the middle -/

/-- What may follow a string so that its reading as the inside of a string stays as deep as
the string itself. -/
def Follows (text : List UInt8) : Prop :=
  ∀ left right d m e, text = left ++ right → run (.str, d) left = some (m, e) → e = d

theorem Body.of_bare (h : ∀ b ∈ text, kind b ≠ .quote ∧ kind b ≠ .escape) : Body text := by
  induction text with
  | nil => exact .nil
  | cons b text ih => exact .byte (h b (by simp)).1 (h b (by simp)).2 (ih fun c hc => h c (by simp [hc]))

theorem follows_bare (h : ∀ b ∈ text, kind b ≠ .quote ∧ kind b ≠ .escape) : Follows text := by
  rintro left right d m e rfl hrun
  rw [(Body.of_bare fun b hb => h b (by simp [hb])).run] at hrun
  exact (Prod.mk.inj (Option.some.inj hrun)).2.symm

/-- A key behind a string: read as the inside of a string it closes it, and its first letter
stops the scan. -/
theorem follows_key {rest : List UInt8} {q c : UInt8}
    (h : ∀ b ∈ text, kind b ≠ .quote ∧ kind b ≠ .escape) (hq : kind q = .quote)
    (hc : kind c = .plain) : Follows (text ++ q :: c :: rest) := by
  intro left right d m e heq hrun
  rcases List.append_eq_append_iff.mp heq with ⟨x, rfl, hx⟩ | ⟨x, rfl, hx⟩
  · rw [run_append, (Body.of_bare h).run, Option.bind_some] at hrun
    match x, hx with
    | [], _ => exact (Prod.mk.inj (Option.some.inj hrun)).2.symm
    | [a], hx =>
      obtain rfl : q = a := (List.cons.inj hx).1
      rw [run_cons, hq] at hrun
      exact (Prod.mk.inj (Option.some.inj hrun)).2.symm
    | a :: a' :: x, hx =>
      obtain rfl : q = a := (List.cons.inj hx).1
      obtain rfl : c = a' := (List.cons.inj (List.cons.inj hx).2).1
      rw [run_cons, hq] at hrun
      cases d <;> simp [step, run_cons, hc] at hrun
  · exact follows_bare h left x d m e rfl hrun

/-- What is left of a flat object: strings among bytes that open no bracket. -/
inductive Flat : List UInt8 → Prop
  | bare {text : List UInt8} : (∀ b ∈ text, kind b ≠ .opening) → Flat text
  | string {text body after : List UInt8} {q q' : UInt8} : (∀ b ∈ text, kind b ≠ .opening) →
      kind q = .quote → kind q' = .quote → Body body → Follows after → Flat (q' :: after) →
      Flat (text ++ q :: (body ++ q' :: after))

theorem not_headed_bare {part : List UInt8} (h : ∀ b ∈ part, kind b ≠ .opening) :
    ¬ Headed part := by
  rintro ⟨blanks, b, rest, rfl, -, hkind⟩
  exact h b (by simp) hkind

/-- A part that begins outside the strings meets a quote before any bracket. -/
theorem not_headed_of_bare {part rest : List UInt8} {q : UInt8}
    (h : ∀ b ∈ text, kind b ≠ .opening) (hq : kind q = .quote)
    (heq : part ++ right = text ++ q :: rest) : ¬ Headed part := by
  rcases List.append_eq_append_iff.mp heq with ⟨x, rfl, -⟩ | ⟨x, rfl, hrest⟩
  · exact not_headed_bare fun b hb => h b (by simp [hb])
  · cases x with
    | nil => simpa using not_headed_bare h
    | cons c x =>
      obtain ⟨rfl, -⟩ := List.cons.inj (by simpa using hrest)
      exact fun hhead => not_headed_bare h (hhead.of_quote hq)

/-- From inside a string: a part that would pass for a text has no quote in it. `front` is
the byte behind a backslash, if the part begins there. -/
theorem not_quote_of_body (front : List UInt8) {body after part : List UInt8} {q : UInt8} (hq : kind q = .quote)
    (hbody : Body body) (hafter : Follows after) (heq : body ++ q :: after = part ++ right)
    (hfront : run start front = some (m', d)) (hm' : m' = .out ∨ m' = .shut)
    (hhead : Headed (front ++ part)) (hrun : run start (front ++ part) = some (m, 0)) :
    ∀ b ∈ part, kind b ≠ .quote := by
  have hpart : run (m', d) part = some (m, 0) := by
    rwa [run_append, hfront, Option.bind_some] at hrun
  rcases List.append_eq_append_iff.mp heq with ⟨x, hx, hrest⟩ | ⟨x, hx, hrest⟩
  · cases x with
    | nil =>
      obtain rfl : part = body := by simpa using hx
      exact (Body.run_outside [] (by simpa using hbody) hm' hpart).2
    | cons c x =>
      obtain ⟨rfl, hx'⟩ := List.cons.inj (by simpa using hrest)
      subst hx
      exfalso
      obtain ⟨⟨m₁, d₁⟩, hrun₁, hrun₂⟩ := run_of_append hpart
      obtain ⟨hm₁, -⟩ := Body.run_outside [] (by simpa using hbody) hm' hrun₁
      have hheadBody : Headed (front ++ body) := Headed.of_quote (by simpa using hhead) hq
      rw [run_cons, hq] at hrun₂
      obtain rfl | rfl := hm₁
      · -- the quote opens a string that what follows never leaves at another depth
        have hd : 0 = d₁ := hafter x right d₁ m 0 hx' (by cases d₁ <;> simpa [step] using hrun₂)
        subst hd
        have := hheadBody.mode (by rw [run_append, hfront, Option.bind_some]; exact hrun₁)
        simp at this
      · cases d₁ <;> simp [step] at hrun₂
  · subst hx
    exact (Body.run_outside _ hbody hm' hpart).2

theorem Headed.cons_ne_quote {b : UInt8} (h : Headed (b :: text)) : kind b ≠ .quote := fun hq =>
  not_headed_bare (by simp) (Headed.of_quote (q := b) (by simpa using h : Headed ([] ++ b :: text)) hq)

/-- A part of what is left of a flat object that would pass for a text has no quote. -/
theorem Flat.part {text before part : List UInt8} (h : Flat text)
    (heq : text = before ++ (part ++ right)) (hhead : Headed part)
    (hrun : run start part = some (m, 0)) : ∀ b ∈ part, kind b ≠ .quote := by
  induction h generalizing before with
  | bare hbare =>
    subst heq
    exact absurd hhead (not_headed_bare fun b hb => hbare b (by simp [hb]))
  | @string text body after q q' hbare hq hq' hbody hafter hrest ih =>
    rcases List.append_eq_append_iff.mp heq with ⟨x, rfl, hx⟩ | ⟨x, rfl, hx⟩
    · cases x with
      | nil =>
        have hbefore : part ++ right = [] ++ q :: (body ++ q' :: after) := hx.symm
        exact absurd hhead (not_headed_of_bare (by simp) hq hbefore)
      | cons c x =>
        obtain ⟨rfl, hx'⟩ := List.cons.inj (by simpa using hx)
        rcases List.append_eq_append_iff.mp hx' with ⟨y, rfl, hy⟩ | ⟨y, rfl, hy⟩
        · exact ih hy
        · rcases hbody.suffix rfl with hsuffix | ⟨b, rest, rfl, hsuffix⟩
          · exact not_quote_of_body [] hq' hsuffix hafter hy.symm rfl (.inl rfl)
              hhead hrun
          · cases part with
            | nil => simp
            | cons c part =>
              obtain ⟨rfl, hy'⟩ := List.cons.inj (by simpa using hy)
              have hc := hhead.cons_ne_quote
              obtain ⟨⟨m₁, d₁⟩, hfront, -⟩ :=
                run_of_append (show run start ([c] ++ part) = some (m, 0) from hrun)
              have hm₁ : m₁ = .out ∨ m₁ = .shut := by
                cases hk : kind c <;> simp_all [run_cons, step, start]
              have := not_quote_of_body [c] hq' hsuffix hafter hy'.symm hfront hm₁
                hhead hrun
              simpa [hc] using this
    · exact absurd hhead (not_headed_of_bare (fun b hb => hbare b (by simp [hb])) hq hx)

/-! ## Texts that begin with a key, one after the other on one line -/

/-- A bracketed text whose first bracket is followed by a string that is not empty. -/
structure Keyed (text : List UInt8) : Prop extends Bracketed text where
  key : ∃ o q c rest, text = o :: q :: c :: rest ∧ kind o = .opening ∧ kind q = .quote ∧
    kind c = .plain

/-- No text can begin behind such a beginning of a line. -/
def Broken (text : List UInt8) : Prop := run start text ≠ some start

/-- Behind more open brackets a text leaves them open. -/
theorem Bracketed.run_deeper (h : Bracketed text) (heq : text = left ++ right)
    (hrun : JsonScan.run (.out, d + 1) left = some (m, e)) : e ≠ 0 := by
  obtain ⟨⟨m', e'⟩, hleft, -⟩ := run_of_append (heq ▸ h.run)
  have hlift := run_lift hleft (d + 1)
  rw [Nat.zero_add, hrun] at hlift
  have := (Prod.mk.inj (Option.some.inj hlift)).2
  omega

/-- Inside a string the scan of a keyed text fails behind the first quote of its key. -/
theorem Keyed.run_inside (h : Keyed text) (heq : text = left ++ right)
    (hm : m = .str ∨ m = .esc) (hrun : JsonScan.run (m, d) left = some (m', e)) :
    m' ≠ .out ∧ right ≠ [] := by
  obtain ⟨o, q, c, rest, rfl, ho, hq, hc⟩ := h.key
  have ho' : step (m, d) (kind o) = some (.str, d) := by
    obtain rfl | rfl := hm <;> cases d <;> simp [step, ho]
  match left, heq with
  | [], heq =>
    obtain ⟨rfl, rfl⟩ := Prod.mk.inj (Option.some.inj hrun)
    obtain rfl : o :: q :: c :: rest = right := by simpa using heq
    exact ⟨by obtain rfl | rfl := hm <;> simp, by simp⟩
  | [a], heq =>
    obtain ⟨rfl, rfl⟩ : o = a ∧ q :: c :: rest = right := by simpa using heq
    rw [run_cons, ho'] at hrun
    obtain ⟨rfl, rfl⟩ := Prod.mk.inj (Option.some.inj hrun)
    simp
  | [a, b], heq =>
    obtain ⟨rfl, rfl, rfl⟩ : o = a ∧ q = b ∧ c :: rest = right := by simpa using heq
    rw [run_cons, ho', Option.bind_some, run_cons, hq] at hrun
    obtain ⟨rfl, rfl⟩ := Prod.mk.inj (Option.some.inj hrun)
    simp
  | a :: b :: c' :: left, heq =>
    obtain ⟨rfl, rfl, rfl, -⟩ : o = a ∧ q = b ∧ c = c' ∧ rest = left ++ right := by
      simpa using heq
    rw [run_cons, ho', Option.bind_some, run_cons, hq] at hrun
    cases d <;> simp [step, run_cons, hc] at hrun

/-- A keyed text does not get far where no text can begin. -/
theorem Keyed.run_behind (h : Keyed text) (heq : text = left ++ right) (hleft : left ≠ [])
    (hs : s ≠ start) (hrun : JsonScan.run s left = some s') :
    s' ≠ start ∧ (right = [] → ∀ m, (m = .out ∨ m = .shut) → s' ≠ (m, 0)) := by
  obtain ⟨m, d⟩ := s
  obtain ⟨m', e⟩ := s'
  have hinside (hm : m = .str ∨ m = .esc) := h.run_inside heq hm hrun
  cases m with
  | out =>
    cases d with
    | zero => exact absurd rfl hs
    | succ d =>
      have he := h.toBracketed.run_deeper heq hrun
      exact ⟨by simp [start, he], by simp [he]⟩
  | shut =>
    obtain ⟨o, q, c, rest, rfl, ho, -, -⟩ := h.key
    cases left with
    | nil => exact absurd rfl hleft
    | cons b left =>
      obtain ⟨rfl, -⟩ := List.cons.inj (by simpa using heq)
      cases d <;> simp [run_cons, step, ho] at hrun
  | str =>
    obtain ⟨hout, hright⟩ := hinside (.inl rfl)
    exact ⟨by simp [start, hout], fun h => absurd h hright⟩
  | esc =>
    obtain ⟨hout, hright⟩ := hinside (.inr rfl)
    exact ⟨by simp [start, hout], fun h => absurd h hright⟩

theorem Broken.append {front : List UInt8} (hbroken : Broken front) (h : Keyed text)
    (heq : text = left ++ right) : Broken (front ++ left) := by
  intro hrun
  obtain ⟨s, hfront, hleft⟩ := run_of_append hrun
  by_cases hnil : left = []
  · subst hnil
    exact hbroken (by simpa using hrun)
  · refine (h.run_behind heq hnil ?_ hleft).1 rfl
    rintro rfl
    exact hbroken hfront

/-- A part of a keyed text is such a beginning itself. -/
theorem Keyed.broken (h : Keyed text) (heq : text = left ++ right) (hleft : left ≠ []) :
    Broken left := by
  intro hrun
  by_cases hright : right = []
  · subst hright
    rw [List.append_nil] at heq
    rw [← heq, h.run] at hrun
    cases hrun
  · obtain ⟨m, d, hopen⟩ := h.open_left heq hleft hright
    rw [hopen] at hrun
    cases hrun

theorem Broken.not_accepts {front : List UInt8} (hbroken : Broken front) (h : Keyed text) :
    ¬ Accepts (front ++ text) := by
  rintro ⟨m, hm, hrun⟩
  obtain ⟨s, hfront, htext⟩ := run_of_append hrun
  refine (h.run_behind (List.append_nil text).symm ?_ ?_ htext).2 rfl m hm rfl
  · obtain ⟨o, q, c, rest, rfl, -⟩ := h.key
    simp
  · rintro rfl
    exact hbroken hfront

end Atomis.JsonScan
