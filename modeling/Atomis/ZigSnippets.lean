import Atomis.ZigInstrument
import Mathlib.Data.List.Induction

/-!
# Zig snippets

Which sources the instrumenter gets through, and whether its snippets are statements that
read a name they may read.
-/

namespace Atomis.ZigInstrument

open Atomis.SyntaxTree

/-! ## Names -/

def quote : UInt8 := 0x22

/-- The bytes are the inside of one string literal. -/
def validLiteral : Bytes → Bool
  | [] => true
  | [byte] => byte ≠ quote && byte ≠ 0x5C && 0x20 ≤ byte && byte ≠ 0x7F
  | byte :: next :: rest =>
    if byte = 0x5C then 0x20 ≤ next && validLiteral rest
    else byte ≠ quote && 0x20 ≤ byte && byte ≠ 0x7F && validLiteral (next :: rest)

def isWord (name : Bytes) : Bool :=
  name ≠ [] && name.all fun byte => isAlphanumeric byte || byte = underscore

/-- What the tokenizer takes for an identifier: a word, or `@` and a string. -/
def Lexed (name : Bytes) : Prop :=
  isWord name = true ∨ ∃ content, name = bytes "@\"" ++ content ++ bytes "\""

theorem word_byte {byte : UInt8} (h : (isAlphanumeric byte || byte = underscore) = true) :
    byte ≠ quote ∧ byte ≠ 0x5C ∧ 0x20 ≤ byte ∧ byte ≠ 0x7F := by
  simp only [isAlphanumeric, isAlphabetic, underscore, quote, Bool.or_eq_true, Bool.and_eq_true,
    decide_eq_true_eq, UInt8.le_iff_toNat_le, ← UInt8.toNat_inj, ne_eq, UInt8.reduceToNat] at h ⊢
  omega

theorem validLiteral_of_isWord {name : Bytes} (h : isWord name = true) :
    validLiteral name = true := by
  simp only [isWord, Bool.and_eq_true, List.all_eq_true] at h
  replace h := h.2
  induction name with
  | nil => rfl
  | cons byte rest ih =>
    obtain ⟨h1, h2, h3, h4⟩ := word_byte (h byte List.mem_cons_self)
    cases rest with
    | nil => simp [validLiteral, h1, h2, h3, h4]
    | cons next rest =>
      rw [validLiteral, if_neg h2, ih fun b hb => h b (List.mem_cons_of_mem _ hb)]
      simp [h1, h3, h4]

theorem not_validLiteral_quoted (content : Bytes) :
    validLiteral (bytes "@\"" ++ content ++ bytes "\"") = false := by
  cases content with
  | nil => rfl
  | cons byte content =>
    have hat : bytes "@\"" ++ byte :: content ++ bytes "\"" =
        0x40 :: quote :: byte :: (content ++ bytes "\"") := rfl
    rw [hat]
    rfl

theorem validLiteral_iff {name : Bytes} (h : Lexed name) :
    validLiteral name = true ↔ isWord name = true := by
  constructor
  · intro hvalid
    rcases h with h | ⟨content, rfl⟩
    · exact h
    · rw [not_validLiteral_quoted] at hvalid
      exact absurd hvalid Bool.false_ne_true
  · exact validLiteral_of_isWord

theorem isWord_of_plainIdentifier {name : Bytes} (h : plainIdentifier name = true) :
    isWord name = true := by
  cases name with
  | nil => exact h
  | cons byte rest =>
    simp only [plainIdentifier, Bool.and_eq_true] at h
    obtain ⟨⟨hfirst, hrest⟩, -⟩ := h
    simp only [isWord, List.all_cons, Bool.and_eq_true]
    refine ⟨rfl, ?_, hrest⟩
    rcases Bool.or_eq_true_iff.mp hfirst with hfirst | hfirst
    · rw [isAlphanumeric, hfirst, Bool.true_or, Bool.true_or]
    · rw [hfirst, Bool.or_true]

/-! ## The shortest span -/

theorem shortest_append {α : Type} (spans : List (ℕ × α)) (span : ℕ × α) :
    shortest (spans ++ [span]) = match shortest spans with
      | some best => if best.1 ≤ span.1 then some best else some span
      | none => some span := by
  rw [shortest, List.foldl_append]
  rfl

theorem shortest_spec {α : Type} (spans : List (ℕ × α)) :
    (shortest spans = none ↔ spans = []) ∧
      ∀ best, shortest spans = some best → best ∈ spans ∧ ∀ span ∈ spans, best.1 ≤ span.1 := by
  induction spans using List.reverseRecOn with
  | nil => exact ⟨by simp [shortest], fun best h => by simp [shortest] at h⟩
  | append_singleton spans span ih =>
    obtain ⟨hnone, hsome⟩ := ih
    rw [shortest_append]
    cases hbest : shortest spans with
    | none =>
      have hnil := hnone.mp hbest
      refine ⟨by simp, fun best h => ?_⟩
      obtain rfl := Option.some.inj h
      rw [hnil]
      simp
    | some best =>
      obtain ⟨hmem, hmin⟩ := hsome best hbest
      dsimp only
      split_ifs with hle
      · refine ⟨by simp, fun best' h => ?_⟩
        obtain rfl := Option.some.inj h
        refine ⟨List.mem_append_left _ hmem, fun s hs => ?_⟩
        rcases List.mem_append.mp hs with hs | hs
        · exact hmin s hs
        · rwa [List.mem_singleton.mp hs]
      · refine ⟨by simp, fun best' h => ?_⟩
        obtain rfl := Option.some.inj h
        refine ⟨List.mem_append_right _ (List.mem_singleton_self _), fun s hs => ?_⟩
        rcases List.mem_append.mp hs with hs | hs
        · exact Nat.le_trans (Nat.le_of_not_le hle) (hmin s hs)
        · exact Nat.le_of_eq (congrArg Prod.fst (List.mem_singleton.mp hs).symm)

/-! ## Parsed files -/

/-- What holds of a parsed file: the bytes of a node are those of the nodes below it and more, two
nodes neither of which is below the other are apart, a loop starts before its body, no two
loops have one keyword, and identifiers are what the tokenizer lets be one. -/
structure Parsed (ast : Ast) : Prop where
  nested : ∀ p ∈ ast.nodes, ∀ q ∈ ast.nodes, p.1 <+: q.1 → within q.2.kind p.2.kind = true
  apart : ∀ p ∈ ast.nodes, ∀ q ∈ ast.nodes, ¬ p.1 <+: q.1 → ¬ q.1 <+: p.1 →
    p.2.kind.last ≤ q.2.kind.first ∨ q.2.kind.last ≤ p.2.kind.first
  nonempty : ∀ p ∈ ast.nodes, p.1 ≠ [] → p.2.kind.first < p.2.kind.last
  header : ∀ p ∈ ast.nodes, p.2.kind.tag.isLoop = true → ∀ body,
    p.2.children.get? .body = some body → p.2.kind.first < body.kind.first
  keywords : ∀ p ∈ ast.nodes, ∀ q ∈ ast.nodes, ∀ token shown token' shown',
    p.2.kind.tag.loop = some (token, shown) → q.2.kind.tag.loop = some (token', shown') →
      position ast.source token = position ast.source token' → p.1 = q.1
  declared : ∀ p ∈ ast.nodes, ∀ declaration, p.2.kind.tag = .varDecl declaration →
    Lexed declaration.name
  identifiers : ∀ p ∈ ast.nodes, ∀ name, p.2.kind.tag = .identifier name → Lexed name

/-- A loop that is shown with `shown`, and the way from it to a node in its body, less the
first step. -/
structure LoopAbove where
  place : Place
  tree : Syntax
  token : ℕ
  shown : Token
  below : Place

structure Around (ast : Ast) (p : Place) (loop : LoopAbove) : Prop where
  mem : (loop.place, loop.tree) ∈ ast.nodes
  shown : loop.tree.kind.tag.loop = some (loop.token, some loop.shown)
  split : ∃ index, loop.tree.children.fields.idxOf? .body = some index ∧
    p = loop.place ++ ⟨loop.tree.kind, .body, index⟩ :: loop.below

def Innermost (ast : Ast) (p : Place) (loop : LoopAbove) : Prop :=
  Around ast p loop ∧ ∀ loop', Around ast p loop' → loop'.place.length ≤ loop.place.length

def LoopAbove.context (ast : Ast) (loop : LoopAbove) : LoopContext :=
  ⟨(position ast.source loop.token).1, (position ast.source loop.token).2, loop.shown.slice⟩

theorem Tag.isLoop_of_loop {tag : Tag} {loop : ℕ × Option Token} (h : tag.loop = some loop) :
    tag.isLoop = true := by
  cases tag <;> first | rfl | exact absurd h (Option.some_ne_none loop).symm

section
variable {ast : Ast} {p : Place} {t u : Syntax} {loop loop' : LoopAbove} {context : LoopContext}
  {node : Node}

theorem Around.isLoop (h : Around ast p loop) : loop.tree.kind.tag.isLoop = true :=
  Tag.isLoop_of_loop h.shown

/-- There is one loop at a place. -/
theorem Around.eq (h : Around ast p loop) (h' : Around ast p loop')
    (hplace : loop.place = loop'.place) : loop = loop' := by
  obtain ⟨place, tree, token, shown, below⟩ := loop
  obtain ⟨place', tree', token', shown', below'⟩ := loop'
  obtain ⟨hmem, hshown, index, -, hsplit⟩ := h
  obtain ⟨hmem', hshown', index', -, hsplit'⟩ := h'
  dsimp only at hplace hmem hmem' hshown hshown' hsplit hsplit'
  subst hplace
  obtain rfl := ast.tree.occurrences_unique [] hmem hmem'
  obtain ⟨rfl, hsome⟩ := Prod.mk.inj (Option.some.inj (hshown.symm.trans hshown'))
  obtain rfl := Option.some.inj hsome
  obtain ⟨-, rfl⟩ := List.cons.inj (List.append_cancel_left (hsplit.symm.trans hsplit'))
  rfl

theorem loopAround_eq_some {length : ℕ} :
    loopAround ast.source node t = some (length, context) ↔ ∃ token shown body,
      t.kind.tag.loop = some (token, some shown) ∧ t.children.get? .body = some body ∧
        within node body.kind = true ∧ length = body.kind.last - body.kind.first ∧
          context = ⟨(position ast.source token).1, (position ast.source token).2, shown.slice⟩ := by
  constructor
  · intro h
    rw [loopAround] at h
    obtain ⟨⟨token, loopVariable⟩, hloop, h⟩ := Option.bind_eq_some_iff.mp h
    obtain ⟨body, hbody, h⟩ := Option.bind_eq_some_iff.mp h
    obtain ⟨shown, hshown, h⟩ := Option.bind_eq_some_iff.mp h
    split_ifs at h with hwithin
    obtain ⟨rfl, rfl⟩ := Prod.mk.inj (Option.some.inj h)
    exact ⟨token, shown, body, by rw [hloop, hshown], hbody, hwithin, rfl, rfl⟩
  · rintro ⟨token, shown, body, hloop, hbody, hwithin, rfl, rfl⟩
    rw [loopAround, hloop]
    simp [hbody, hwithin]

theorem body_mem {q : Place} (hq : (q, t) ∈ ast.nodes) {index : ℕ}
    (hmem : (q ++ [⟨t.kind, .body, index⟩], u) ∈ t.children.occurrences q t.kind 0) :
    (q ++ [⟨t.kind, .body, index⟩], u) ∈ ast.nodes := by
  refine ast.tree.occurrences_trans [] hq ?_
  cases t with
  | node kind children => exact List.mem_cons_of_mem _ hmem

/-- A node is among the bytes of a loop's body just when it is below it. -/
theorem Parsed.within_body (h : Parsed ast) (hp : (p, u) ∈ ast.nodes) (hne : p ≠ []) {q : Place}
    (hq : (q, t) ∈ ast.nodes) (hloop : t.kind.tag.isLoop = true) {body : Syntax}
    (hbody : t.children.get? .body = some body) :
    within u.kind body.kind = true ↔ ∃ index below,
      t.children.fields.idxOf? .body = some index ∧ p = q ++ ⟨t.kind, .body, index⟩ :: below := by
  obtain ⟨index, hindex, hmem⟩ := t.children.get?_mem hbody q t.kind 0
  rw [Nat.zero_add] at hmem
  have hnode := body_mem hq hmem
  constructor
  · intro hwithin
    simp only [within, Bool.and_eq_true, decide_eq_true_eq] at hwithin
    by_cases hbelow : q ++ [⟨t.kind, .body, index⟩] <+: p
    · obtain ⟨below, hbelow⟩ := hbelow
      exact ⟨index, below, hindex, by rw [← hbelow, List.append_assoc]; rfl⟩
    · exfalso
      by_cases habove : p <+: q ++ [⟨t.kind, .body, index⟩]
      -- Above the body is the loop or more, and the loop starts before its body.
      · have hstrict : p <+: q := by
          rcases List.prefix_concat_iff.mp habove with heq | hprefix
          · exact absurd (heq ▸ List.prefix_rfl) hbelow
          · exact hprefix
        have hnested := h.nested _ hp _ hq hstrict
        simp only [within, Bool.and_eq_true, decide_eq_true_eq] at hnested
        have hheader := h.header _ hq hloop body hbody
        exact absurd (Nat.lt_of_le_of_lt hnested.1 hheader) (Nat.not_lt.mpr hwithin.1)
      · have hapart := h.apart _ hp _ hnode habove hbelow
        have hlength := h.nonempty _ hp hne
        have hlength' := h.nonempty _ hnode (by simp)
        dsimp only at hapart hlength hlength'
        omega
  · rintro ⟨index', below, hindex', rfl⟩
    obtain rfl := Option.some.inj (hindex.symm.trans hindex')
    refine h.nested _ hnode _ hp ⟨below, ?_⟩
    rw [List.append_assoc]
    rfl

theorem Parsed.around_of_loopAround (h : Parsed ast) (hp : (p, u) ∈ ast.nodes) (hne : p ≠ [])
    {q : Place} (hq : (q, t) ∈ ast.nodes) {length : ℕ}
    (hloop : loopAround ast.source u.kind t = some (length, context)) :
    ∃ loop body, Around ast p loop ∧ loop.place = q ∧ t.children.get? .body = some body ∧
      loop.tree = t ∧ length = body.kind.last - body.kind.first ∧ context = loop.context ast := by
  obtain ⟨token, shown, body, htag, hbody, hwithin, hlength, hcontext⟩ :=
    loopAround_eq_some.mp hloop
  obtain ⟨index, below, hindex, hsplit⟩ :=
    (h.within_body hp hne hq (Tag.isLoop_of_loop htag) hbody).mp hwithin
  exact ⟨⟨q, t, token, shown, below⟩, body, ⟨hq, htag, index, hindex, hsplit⟩, rfl, hbody, rfl,
    hlength, hcontext⟩

theorem Parsed.loopAround_of_around (h : Parsed ast) (hp : (p, u) ∈ ast.nodes) (hne : p ≠ [])
    (haround : Around ast p loop) : ∃ body, loop.tree.children.get? .body = some body ∧
      loopAround ast.source u.kind loop.tree =
        some (body.kind.last - body.kind.first, loop.context ast) := by
  obtain ⟨index, hindex, hsplit⟩ := haround.split
  obtain ⟨body, hbody⟩ := loop.tree.children.exists_get? hindex
  have hwithin := (h.within_body hp hne haround.mem haround.isLoop hbody).mpr
    ⟨index, loop.below, hindex, hsplit⟩
  exact ⟨body, hbody, loopAround_eq_some.mpr
    ⟨loop.token, loop.shown, body, haround.shown, hbody, hwithin, rfl, rfl⟩⟩

/-- A loop further in has the shorter body. -/
theorem Parsed.body_lt (h : Parsed ast) (haround : Around ast p loop)
    (haround' : Around ast p loop') (hlt : loop.place.length < loop'.place.length)
    {body body' : Syntax} (hbody : loop.tree.children.get? .body = some body)
    (hbody' : loop'.tree.children.get? .body = some body') :
    body'.kind.last - body'.kind.first < body.kind.last - body.kind.first := by
  obtain ⟨index, hindex, hsplit⟩ := haround.split
  obtain ⟨index', hindex', hsplit'⟩ := haround'.split
  have hne' : loop'.place ≠ [] := List.ne_nil_of_length_pos (Nat.zero_lt_of_lt hlt)
  have hbelow : loop.place ++ [⟨loop.tree.kind, .body, index⟩] <+: p :=
    ⟨loop.below, by rw [hsplit, List.append_assoc]; rfl⟩
  obtain ⟨rest, hrest⟩ : loop.place ++ [⟨loop.tree.kind, .body, index⟩] <+: loop'.place := by
    refine List.prefix_of_prefix_length_le hbelow ⟨_, hsplit'.symm⟩ ?_
    rw [List.length_append, List.length_singleton]
    exact hlt
  have hwithin := (h.within_body haround'.mem hne' haround.mem haround.isLoop hbody).mpr
    ⟨index, rest, hindex, by rw [← hrest, List.append_assoc]; rfl⟩
  have hheader := h.header _ haround'.mem haround'.isLoop body' hbody'
  obtain ⟨i, -, hmem⟩ := loop'.tree.children.get?_mem hbody' loop'.place loop'.tree.kind 0
  have hnode := body_mem haround'.mem hmem
  have hnested := h.nested _ haround'.mem _ hnode (List.prefix_append _ _)
  have hlength := h.nonempty _ hnode (by simp)
  simp only [within, Bool.and_eq_true, decide_eq_true_eq] at hwithin hnested
  dsimp only at hheader hlength
  omega

/-- A marker is given the innermost loop around the call that has an identifier to show. -/
theorem Parsed.enclosingLoop_eq_some (h : Parsed ast) (hp : (p, u) ∈ ast.nodes) (hne : p ≠ [])
    (hsome : ast.enclosingLoop u.kind = some context) :
    ∃ loop, Innermost ast p loop ∧ context = loop.context ast := by
  rw [Ast.enclosingLoop] at hsome
  obtain ⟨⟨length, context'⟩, hshortest, rfl⟩ := Option.map_eq_some_iff.mp hsome
  obtain ⟨hmem, hmin⟩ := (shortest_spec _).2 _ hshortest
  obtain ⟨⟨q, t⟩, hq, hloop⟩ := List.mem_filterMap.mp hmem
  obtain ⟨loop, body, haround, rfl, hbody, rfl, rfl, rfl⟩ :=
    h.around_of_loopAround hp hne hq hloop
  refine ⟨loop, ⟨haround, fun loop' haround' => ?_⟩, rfl⟩
  by_contra hlt
  obtain ⟨body', hbody', hloop'⟩ := h.loopAround_of_around hp hne haround'
  have hle := hmin _ (List.mem_filterMap.mpr ⟨_, haround'.mem, hloop'⟩)
  have hbody_lt := h.body_lt haround haround' (Nat.not_le.mp hlt) hbody hbody'
  exact absurd hle (Nat.not_le.mpr hbody_lt)

theorem Parsed.enclosingLoop_isSome (h : Parsed ast) (hp : (p, u) ∈ ast.nodes) (hne : p ≠ [])
    (haround : Around ast p loop) : ∃ context, ast.enclosingLoop u.kind = some context := by
  obtain ⟨body, -, hloop⟩ := h.loopAround_of_around hp hne haround
  have hmem : (body.kind.last - body.kind.first, loop.context ast) ∈
      ast.nodes.filterMap fun p => loopAround ast.source u.kind p.2 :=
    List.mem_filterMap.mpr ⟨_, haround.mem, hloop⟩
  rw [Ast.enclosingLoop]
  cases hshortest : shortest (ast.nodes.filterMap fun p => loopAround ast.source u.kind p.2) with
  | none => exact absurd ((shortest_spec _).1.mp hshortest) (List.ne_nil_of_mem hmem)
  | some best => exact ⟨best.2, rfl⟩

theorem Innermost.eq (h : Innermost ast p loop) (h' : Innermost ast p loop') : loop = loop' := by
  refine h.1.eq h'.1 ?_
  obtain ⟨index, -, hsplit⟩ := h.1.split
  obtain ⟨index', -, hsplit'⟩ := h'.1.split
  have hlength := Nat.le_antisymm (h'.2 loop h.1) (h.2 loop' h'.1)
  have hprefix : loop.place <+: loop'.place :=
    List.prefix_of_prefix_length_le ⟨_, hsplit.symm⟩ ⟨_, hsplit'.symm⟩ (Nat.le_of_eq hlength)
  exact hprefix.eq_of_length hlength

theorem Parsed.enclosingLoop_iff (h : Parsed ast) (hp : (p, u) ∈ ast.nodes) (hne : p ≠ [])
    (hinner : Innermost ast p loop) : ast.enclosingLoop u.kind = some (loop.context ast) := by
  obtain ⟨context, hcontext⟩ := h.enclosingLoop_isSome hp hne hinner.1
  obtain ⟨loop', hinner', rfl⟩ := h.enclosingLoop_eq_some hp hne hcontext
  rw [hcontext, hinner.eq hinner']

theorem Parsed.context_inj (h : Parsed ast) (haround : Around ast p loop)
    (haround' : Around ast p loop') (hcontext : loop.context ast = loop'.context ast) :
    loop = loop' := by
  refine haround.eq haround' ?_
  obtain ⟨hline, hcolumn, -⟩ := LoopContext.mk.inj hcontext
  exact h.keywords _ haround.mem _ haround'.mem _ _ _ _ haround.shown haround'.shown
    (Prod.ext hline hcolumn)

/-- What a loop is shown with is a word. -/
theorem Around.isWord (h : Around ast p loop) : isWord loop.shown.slice = true := by
  have hplain {tokens : List Token} {token : Token}
      (hmem : token ∈ tokens.filter Token.isPlain) : ZigInstrument.isWord token.slice = true := by
    cases token with
    | identifier text outer => exact isWord_of_plainIdentifier (List.mem_filter.mp hmem).2
    | other text => exact absurd (List.mem_filter.mp hmem).2 Bool.false_ne_true
  have hshown := h.shown
  cases htag : loop.tree.kind.tag with
  | forLoop token payload =>
    rw [htag] at hshown
    obtain ⟨-, hlast⟩ := Prod.mk.inj (Option.some.inj hshown)
    exact hplain (List.mem_of_getLast? hlast)
  | whileLoop token payload cont cond elsePayload =>
    rw [htag] at hshown
    obtain ⟨-, hsome⟩ := Prod.mk.inj (Option.some.inj hshown)
    cases payload with
    | some payload => exact hplain (List.mem_of_getLast? hsome)
    | none =>
      cases cont with
      | some cont => exact hplain (List.mem_of_head? hsome)
      | none => exact hplain (List.mem_of_head? hsome)
  | _ =>
    rw [htag] at hshown
    exact absurd hshown (Option.some_ne_none _).symm

end

/-! ## Success -/

def isFunction : Tag → Bool
  | .fnDecl .. => true
  | _ => false

theorem foldlM_ok_iff {α β ε : Type} {f : β → α → Except ε β} {fits : α → Prop}
    (hf : ∀ b a, (∃ b', f b a = .ok b') ↔ fits a) (l : List α) (b : β) :
    (∃ b', l.foldlM f b = .ok b') ↔ ∀ a ∈ l, fits a := by
  induction l generalizing b with
  | nil => simp [pure, Except.pure]
  | cons a l ih =>
    rw [List.foldlM_cons, List.forall_mem_cons, ← hf b a]
    cases h : f b a with
    | error e => simp [bind, Except.bind]
    | ok b' =>
      change (∃ b'', l.foldlM f b' = .ok b'') ↔ _
      rw [ih b']
      simp

def Fits (o : Options) : Snippet → Prop
  | .probe probe => (probeText probe).length ≤ 512
  | .logMarker line column loop closes => (logText o.fileId line column loop closes).length ≤ 384
  | _ => True

theorem generate_ok_iff (o : Options) (ast : Ast) :
    (∃ generated, generate o ast = .ok generated) ↔
      ∀ i ∈ insertions o ast, Fits o i.snippet := by
  have hstep (generated : Bytes) (i : Insertion) :
      (∃ generated', splice o.fileId generated i = .ok generated') ↔ Fits o i.snippet := by
    rw [splice]
    cases hsnippet : i.snippet with
    | commentOpen => simp [snippetText, Fits, bind, Except.bind, pure, Except.pure]
    | logBlockOpen => simp [snippetText, Fits, bind, Except.bind, pure, Except.pure]
    | probe probe =>
      by_cases hfits : (probeText probe).length ≤ 512
      · simp [snippetText, Fits, bufPrint, hfits, bind, Except.bind, pure, Except.pure]
      · simp [snippetText, Fits, bufPrint, hfits, bind, Except.bind]
    | logMarker line column loop closes =>
      by_cases hfits : (logText o.fileId line column loop closes).length ≤ 384
      · simp [snippetText, Fits, bufPrint, hfits, bind, Except.bind, pure, Except.pure]
      · simp [snippetText, Fits, bufPrint, hfits, bind, Except.bind]
  rw [generate, foldlM_ok_iff hstep]
  simp only [List.mem_mergeSort]

theorem probeText_length {probe : Probe} (h : probe.probeId.length = 32) :
    (probeText probe).length = 114 + (2 * probe.name.length +
      (decimal probe.range.startLine).length + (decimal probe.range.startColumn).length) := by
  have h1 : (bytes (runtime ++ "probe(\"")).length = 38 := by decide
  have h2 : (bytes "\", ").length = 3 := by decide
  have h3 : (bytes ", .\x7b .line = ").length = 13 := by decide
  have h4 : (bytes ", .column = ").length = 12 := by decide
  have h5 : (bytes ", .name = \"").length = 11 := by decide
  have h6 : (bytes "\" \x7d);").length = 5 := by decide
  simp only [probeText, List.length_append, h, h1, h2, h3, h4, h5, h6]
  omega

theorem logText_length_none {fileId line column : ℕ} {closes : Bool} :
    (logText fileId line column none closes).length = 81 + ((decimal fileId).length +
      (decimal line).length + (decimal column).length + if closes then 2 else 0) := by
  have h1 : (bytes (runtime ++ "logSource(.\x7b .file_id = ")).length = 55 := by decide
  have h2 : (bytes ", .line = ").length = 10 := by decide
  have h3 : (bytes ", .column = ").length = 12 := by decide
  have h4 : (bytes " \x7d);").length = 4 := by decide
  have h5 : (bytes (if closes then " \x7d" else "")).length = if closes then 2 else 0 := by
    cases closes <;> decide
  simp only [logText, List.length_append, h1, h2, h3, h4, h5]
  omega

theorem logText_length_some {fileId line column : ℕ} {loop : LoopContext} {closes : Bool} :
    (logText fileId line column (some loop) closes).length = 136 + ((decimal fileId).length +
      (decimal line).length + (decimal column).length + (decimal loop.line).length +
        (decimal loop.column).length + 2 * loop.loopVariable.length + if closes then 2 else 0) := by
  have h1 : (bytes (runtime ++ "logSourceLoop(.\x7b .file_id = ")).length = 59 := by decide
  have h2 : (bytes ", .line = ").length = 10 := by decide
  have h3 : (bytes ", .column = ").length = 12 := by decide
  have h4 : (bytes ", .loop_line = ").length = 15 := by decide
  have h5 : (bytes ", .loop_column = ").length = 17 := by decide
  have h6 : (bytes ", .loop_name = \"").length = 16 := by decide
  have h7 : (bytes "\" \x7d, ").length = 5 := by decide
  have h8 : (bytes ");").length = 2 := by decide
  have h9 : (bytes (if closes then " \x7d" else "")).length = if closes then 2 else 0 := by
    cases closes <;> decide
  simp only [logText, List.length_append, h1, h2, h3, h4, h5, h6, h7, h8, h9]
  omega

/-! ## Insertions -/

/-- What a snippet names in a string literal. -/
def Snippet.named : Snippet → Option Bytes
  | .probe p => some p.name
  | .logMarker _ _ (some loop) _ => some loop.loopVariable
  | _ => none

section
variable {o : Options} {ast : Ast} {p : Occurrence} {i : Insertion} {callee : Node} {stop : ℕ}

theorem identifierIn_eq_some {field : Field} {children : Forest Node Field} {name : Bytes}
    (h : identifierIn field children = some name) :
    ∃ child, children.get? field = some child ∧ child.kind.tag = .identifier name := by
  unfold identifierIn at h
  split at h
  next child hchild =>
    split at h
    next name' htag =>
      obtain rfl := Option.some.inj h
      exact ⟨child, hchild, htag⟩
    next => exact absurd h (Option.some_ne_none name).symm
  next => exact absurd h (Option.some_ne_none name).symm

theorem Parsed.lexed (h : Parsed ast) (hp : p ∈ ast.nodes) {name : Bytes} {start : ℕ}
    (hprobed : Probed o ast p name start stop) : Lexed name := by
  cases hprobed with
  | declaration htag => exact h.declared _ hp _ htag
  | @assignment place node children _ _ _ hname =>
    obtain ⟨child, hchild, htag⟩ := identifierIn_eq_some hname
    obtain ⟨index, -, hmem⟩ := children.get?_mem hchild place node 0
    exact h.identifiers _ (ast.tree.occurrences_trans [] hp (List.mem_cons_of_mem _ hmem)) name htag

/-- The marker of a logged call. -/
def markerOf (ast : Ast) (p : Occurrence) (callee : Node) (stop : ℕ) : Insertion :=
  ⟨stop, .logMarker (position ast.source callee.first).1 (position ast.source callee.first).2
    (ast.enclosingLoop p.2.kind) (isDirectLoopBody p.1), p.1⟩

theorem mem_logInsertions : i ∈ logInsertions ast p ↔ ∃ callee stop,
    loggedCall ast p = some (callee, stop) ∧ (i = markerOf ast p callee stop ∨
      isDirectLoopBody p.1 = true ∧ i = ⟨p.2.kind.first, .logBlockOpen, p.1⟩) := by
  unfold logInsertions
  cases loggedCall ast p with
  | none => simp
  | some call =>
    obtain ⟨callee, stop⟩ := call
    cases hwraps : isDirectLoopBody p.1 with
    | false => simp [markerOf, hwraps]
    | true =>
      simp only [hwraps, if_true, List.mem_append, List.mem_singleton, markerOf, true_and,
        Option.some.injEq, Prod.mk.injEq]
      constructor
      · rintro (h | h)
        · exact ⟨callee, stop, ⟨rfl, rfl⟩, Or.inr h⟩
        · exact ⟨callee, stop, ⟨rfl, rfl⟩, Or.inl h⟩
      · rintro ⟨callee', stop', ⟨rfl, rfl⟩, h | h⟩
        · exact Or.inr h
        · exact Or.inl h

/-- What is inserted: the probes, the markers, the blocks around some of these, the comments. -/
theorem mem_insertions : i ∈ insertions o ast ↔ ∃ p ∈ ast.nodes,
    (∃ name start stop, Probed o ast p name start stop ∧
      i = ⟨stop, .probe (makeProbe o ast p.1 name start stop none), p.1⟩) ∨
    (∃ callee stop, loggedCall ast p = some (callee, stop) ∧ (i = markerOf ast p callee stop ∨
      isDirectLoopBody p.1 = true ∧ i = ⟨p.2.kind.first, .logBlockOpen, p.1⟩)) ∨
    ∃ name, Commented o ast p name ∧ i = ⟨p.2.kind.first, .commentOpen, p.1⟩ := by
  simp only [insertions, List.mem_append, List.mem_flatMap, mem_probeInsertions,
    mem_logInsertions, mem_discardInsertions]
  constructor
  · rintro ((⟨p, hp, h⟩ | ⟨p, hp, h⟩) | ⟨p, hp, h⟩)
    · exact ⟨p, hp, Or.inl h⟩
    · exact ⟨p, hp, Or.inr (Or.inl h)⟩
    · exact ⟨p, hp, Or.inr (Or.inr h)⟩
  · rintro ⟨p, hp, h | h | h⟩
    · exact Or.inl (Or.inl ⟨p, hp, h⟩)
    · exact Or.inl (Or.inr ⟨p, hp, h⟩)
    · exact Or.inr ⟨p, hp, h⟩

theorem Probed.mem_insertions {name : Bytes} {start : ℕ} (h : Probed o ast p name start stop)
    (hp : p ∈ ast.nodes) : (⟨stop, .probe (makeProbe o ast p.1 name start stop none), p.1⟩ :
      Insertion) ∈ insertions o ast :=
  ZigInstrument.mem_insertions.mpr ⟨p, hp, Or.inl ⟨name, start, stop, h, rfl⟩⟩

theorem markerOf_mem_insertions (hp : p ∈ ast.nodes)
    (hcall : loggedCall ast p = some (callee, stop)) :
    markerOf ast p callee stop ∈ insertions o ast :=
  mem_insertions.mpr ⟨p, hp, Or.inr (Or.inl ⟨callee, stop, hcall, Or.inl rfl⟩)⟩

theorem Commented.mem_insertions {name : Bytes} (h : Commented o ast p name)
    (hp : p ∈ ast.nodes) :
    (⟨p.2.kind.first, .commentOpen, p.1⟩ : Insertion) ∈ insertions o ast :=
  ZigInstrument.mem_insertions.mpr ⟨p, hp, Or.inr (Or.inr ⟨name, h, rfl⟩)⟩

theorem loggedCall_ne_nil {call : Node × ℕ} (h : loggedCall ast p = some call) : p.1 ≠ [] := by
  obtain ⟨place, node, children⟩ := p
  rintro hnil
  dsimp only at hnil
  subst hnil
  unfold loggedCall at h
  dsimp only at h
  split at h
  · obtain ⟨callee, -, h⟩ := Option.bind_eq_some_iff.mp h
    split at h
    · exact absurd h (Option.some_ne_none call).symm
    · rw [if_pos (by simp [isDirectBlockStatement, isDirectLoopBody])] at h
      exact absurd h (Option.some_ne_none call).symm
  · exact absurd h (Option.some_ne_none call).symm

end

/-! ## Well-formed snippets -/

/-- A function or a container hides the locals around it. -/
def Tag.hidesLocals : Tag → Bool
  | .fnDecl .. | .container => true
  | _ => false

def Token.isOuter : Token → Bool
  | .identifier _ outer => outer
  | .other _ => false

/-- What the loop is shown with can be read at the node in its body. -/
def LoopAbove.Readable (loop : LoopAbove) : Prop :=
  loop.shown.isOuter = true ∧ ∀ frame ∈ loop.below, frame.kind.tag.hidesLocals = false

/-- `kept`: a snippet behind a statement that ends where a commented discard starts is behind
the comment. -/
structure WellFormed (o : Options) (ast : Ast) : Prop where
  succeeds : ∃ generated, generate o ast = .ok generated
  literals : ∀ i ∈ insertions o ast, ∀ name, i.snippet.named = some name →
    validLiteral name = true
  blocks : ∀ place, (∃ i ∈ insertions o ast, i.place = place ∧ i.snippet = .logBlockOpen) ↔
    ∃ j ∈ insertions o ast, j.place = place ∧ ∃ line column loop,
      j.snippet = .logMarker line column loop true
  kept : ∀ i ∈ insertions o ast, i.snippet = .commentOpen → ∀ j ∈ insertions o ast,
    j.offset = i.offset → j.snippet = .commentOpen ∨ j.snippet = .logBlockOpen
  loops : ∀ i ∈ insertions o ast, ∀ line column context closes,
    i.snippet = .logMarker line column (some context) closes →
      ∃ loop, Around ast i.place loop ∧ loop.context ast = context ∧ loop.Readable

/-- The bytes of the numbers in the marker of a logged call. -/
def markerDigits (o : Options) (ast : Ast) (p : Occurrence) (callee : Node) : ℕ :=
  (decimal o.fileId).length + (decimal (position ast.source callee.first).1).length +
    (decimal (position ast.source callee.first).2).length + if isDirectLoopBody p.1 then 2 else 0

/-- The names that are probed are words, names and numbers are short enough for the buffers, no
probed statement or logged call ends where a commented discard starts, and a logged call can
read what the innermost loop around it is shown with. -/
structure Suitable (o : Options) (ast : Ast) : Prop where
  probed : ∀ p ∈ ast.nodes, ∀ name start stop, Probed o ast p name start stop →
    isWord name = true ∧ 2 * name.length + (decimal (position ast.source start).1).length +
      (decimal (position ast.source start).2).length ≤ 398
  separate : ∀ p ∈ ast.nodes, ∀ name, Commented o ast p name → ∀ q ∈ ast.nodes,
    (∀ name start, ¬ Probed o ast q name start p.2.kind.first) ∧
      ∀ callee, loggedCall ast q ≠ some (callee, p.2.kind.first)
  plain : ∀ p ∈ ast.nodes, ∀ callee stop, loggedCall ast p = some (callee, stop) →
    (∀ loop, ¬ Around ast p.1 loop) → markerDigits o ast p callee ≤ 303
  loops : ∀ p ∈ ast.nodes, ∀ callee stop, loggedCall ast p = some (callee, stop) →
    ∀ loop, Innermost ast p.1 loop → loop.Readable ∧
      markerDigits o ast p callee + (decimal (position ast.source loop.token).1).length +
        (decimal (position ast.source loop.token).2).length + 2 * loop.shown.slice.length ≤ 248

section
variable {o : Options} {ast : Ast} {p : Occurrence} {callee : Node} {stop : ℕ}

theorem blocks_iff (o : Options) (ast : Ast) (place : Place) :
    (∃ i ∈ insertions o ast, i.place = place ∧ i.snippet = .logBlockOpen) ↔
    ∃ j ∈ insertions o ast, j.place = place ∧ ∃ line column loop,
      j.snippet = .logMarker line column loop true := by
  constructor
  · rintro ⟨i, hi, rfl, hsnippet⟩
    obtain ⟨p, hp, ⟨name, start, stop, -, rfl⟩ | ⟨callee, stop, hcall, rfl | ⟨hwraps, rfl⟩⟩ |
      ⟨name, -, rfl⟩⟩ := mem_insertions.mp hi
    · exact absurd hsnippet (by simp)
    · exact absurd hsnippet (by simp [markerOf])
    · refine ⟨markerOf ast p callee stop, markerOf_mem_insertions hp hcall, rfl,
        (position ast.source callee.first).1, (position ast.source callee.first).2,
        ast.enclosingLoop p.2.kind, ?_⟩
      rw [markerOf, hwraps]
    · exact absurd hsnippet (by simp)
  · rintro ⟨j, hj, rfl, line, column, loop, hsnippet⟩
    obtain ⟨p, hp, ⟨name, start, stop, -, rfl⟩ | ⟨callee, stop, hcall, rfl | ⟨-, rfl⟩⟩ |
      ⟨name, -, rfl⟩⟩ := mem_insertions.mp hj
    · exact absurd hsnippet (by simp)
    · have hwraps : isDirectLoopBody p.1 = true := by
        simp only [markerOf, Snippet.logMarker.injEq] at hsnippet
        exact hsnippet.2.2.2
      exact ⟨⟨p.2.kind.first, .logBlockOpen, p.1⟩, mem_insertions.mpr ⟨p, hp,
        Or.inr (Or.inl ⟨callee, stop, hcall, Or.inr ⟨hwraps, rfl⟩⟩)⟩, rfl, rfl⟩
    · exact absurd hsnippet (by simp)
    · exact absurd hsnippet (by simp)

/-- A marker fits just when its numbers and its variable are short. -/
theorem fits_markerOf : Fits o (markerOf ast p callee stop).snippet ↔
    match ast.enclosingLoop p.2.kind with
    | none => markerDigits o ast p callee ≤ 303
    | some context => markerDigits o ast p callee + (decimal context.line).length +
        (decimal context.column).length + 2 * context.loopVariable.length ≤ 248 := by
  rw [markerOf]
  dsimp only
  rw [Fits, markerDigits]
  cases ast.enclosingLoop p.2.kind with
  | none =>
    rw [logText_length_none]
    dsimp only
    omega
  | some context =>
    rw [logText_length_some]
    dsimp only
    omega

theorem fits_probe {place : Place} {name : Bytes} {start : ℕ} :
    Fits o (.probe (makeProbe o ast place name start stop none)) ↔
      2 * name.length + (decimal (position ast.source start).1).length +
        (decimal (position ast.source start).2).length ≤ 398 := by
  have hid : (makeProbe o ast place name start stop none).probeId.length = 32 :=
    o.probeId_length _ _ _
  rw [Fits, probeText_length hid]
  dsimp only [makeProbe, probeRange]
  omega

theorem WellFormed.suitable (h : Parsed ast) (hwell : WellFormed o ast) : Suitable o ast := by
  obtain ⟨hsucceeds, hliterals, -, hkept, hloops⟩ := hwell
  rw [generate_ok_iff] at hsucceeds
  constructor
  case probed =>
    intro p hp name start stop hprobed
    have hmem := hprobed.mem_insertions hp
    exact ⟨(validLiteral_iff (h.lexed hp hprobed)).mp (hliterals _ hmem name rfl),
      fits_probe.mp (hsucceeds _ hmem)⟩
  case separate =>
    intro p hp name hcommented q hq
    have hmem := hcommented.mem_insertions hp
    constructor
    · intro name' start hprobed
      have hsnippet := hkept _ hmem rfl _ (hprobed.mem_insertions hq) rfl
      simp at hsnippet
    · intro callee hcall
      have hsnippet := hkept _ hmem rfl _ (markerOf_mem_insertions hq hcall) rfl
      simp [markerOf] at hsnippet
  case plain =>
    intro p hp callee stop hcall hnone
    have hfits := fits_markerOf.mp (hsucceeds _ (markerOf_mem_insertions hp hcall))
    cases hloop : ast.enclosingLoop p.2.kind with
    | none =>
      rw [hloop] at hfits
      exact hfits
    | some context =>
      obtain ⟨loop, hinner, -⟩ := h.enclosingLoop_eq_some hp (loggedCall_ne_nil hcall) hloop
      exact absurd hinner.1 (hnone loop)
  case loops =>
    intro p hp callee stop hcall loop hinner
    have hcontext := h.enclosingLoop_iff hp (loggedCall_ne_nil hcall) hinner
    have hfits := fits_markerOf.mp (hsucceeds _ (markerOf_mem_insertions hp hcall))
    rw [hcontext] at hfits
    obtain ⟨loop', haround', hcontext', hreadable⟩ :=
      hloops _ (markerOf_mem_insertions hp hcall) _ _ _ _ (by rw [markerOf, hcontext])
    obtain rfl := h.context_inj haround' hinner.1 hcontext'
    exact ⟨hreadable, hfits⟩

theorem Suitable.wellFormed (h : Parsed ast) (hsuitable : Suitable o ast) : WellFormed o ast := by
  constructor
  case succeeds =>
    rw [generate_ok_iff]
    intro i hi
    obtain ⟨p, hp, ⟨name, start, stop, hprobed, rfl⟩ |
      ⟨callee, stop, hcall, rfl | ⟨-, rfl⟩⟩ | ⟨name, -, rfl⟩⟩ := mem_insertions.mp hi
    · exact fits_probe.mpr (hsuitable.probed p hp name start stop hprobed).2
    · rw [fits_markerOf]
      have hne := loggedCall_ne_nil hcall
      cases hloop : ast.enclosingLoop p.2.kind with
      | none =>
        refine hsuitable.plain p hp callee stop hcall fun loop haround => ?_
        obtain ⟨context, hcontext⟩ := h.enclosingLoop_isSome hp hne haround
        rw [hloop] at hcontext
        exact absurd hcontext (Option.some_ne_none context).symm
      | some context =>
        obtain ⟨loop, hinner, rfl⟩ := h.enclosingLoop_eq_some hp hne hloop
        exact (hsuitable.loops p hp callee stop hcall loop hinner).2
    · exact trivial
    · exact trivial
  case literals =>
    intro i hi name hnamed
    obtain ⟨p, hp, ⟨name', start, stop, hprobed, rfl⟩ |
      ⟨callee, stop, hcall, rfl | ⟨-, rfl⟩⟩ | ⟨name', -, rfl⟩⟩ := mem_insertions.mp hi
    · obtain rfl := Option.some.inj hnamed
      exact validLiteral_of_isWord (hsuitable.probed p hp name' start stop hprobed).1
    · rw [markerOf] at hnamed
      cases hloop : ast.enclosingLoop p.2.kind with
      | none =>
        rw [hloop] at hnamed
        exact absurd hnamed (Option.some_ne_none name).symm
      | some context =>
        obtain ⟨loop, hinner, rfl⟩ :=
          h.enclosingLoop_eq_some hp (loggedCall_ne_nil hcall) hloop
        rw [hloop] at hnamed
        obtain rfl := Option.some.inj hnamed
        exact validLiteral_of_isWord hinner.1.isWord
    · exact absurd hnamed (Option.some_ne_none name).symm
    · exact absurd hnamed (Option.some_ne_none name).symm
  case blocks => exact blocks_iff o ast
  case kept =>
    intro i hi hsnippet j hj hoffset
    obtain ⟨p, hp, ⟨name, start, stop, -, rfl⟩ | ⟨callee, stop, -, rfl | ⟨-, rfl⟩⟩ |
      ⟨name, hcommented, rfl⟩⟩ := mem_insertions.mp hi
    · exact absurd hsnippet (by simp)
    · exact absurd hsnippet (by simp [markerOf])
    · exact absurd hsnippet (by simp)
    obtain ⟨q, hq, ⟨name', start, stop, hprobed, rfl⟩ |
      ⟨callee, stop, hcall, rfl | ⟨-, rfl⟩⟩ | ⟨name', -, rfl⟩⟩ := mem_insertions.mp hj
    · obtain rfl : stop = p.2.kind.first := hoffset
      exact absurd hprobed ((hsuitable.separate p hp name hcommented q hq).1 name' start)
    · obtain rfl : stop = p.2.kind.first := hoffset
      exact absurd hcall ((hsuitable.separate p hp name hcommented q hq).2 callee)
    · exact Or.inr rfl
    · exact Or.inl rfl
  case loops =>
    intro i hi line column context closes hsnippet
    obtain ⟨p, hp, ⟨name, start, stop, -, rfl⟩ | ⟨callee, stop, hcall, rfl | ⟨-, rfl⟩⟩ |
      ⟨name, -, rfl⟩⟩ := mem_insertions.mp hi
    · exact absurd hsnippet (by simp)
    · simp only [markerOf, Snippet.logMarker.injEq] at hsnippet
      obtain ⟨loop, hinner, rfl⟩ :=
        h.enclosingLoop_eq_some hp (loggedCall_ne_nil hcall) hsnippet.2.2.1
      exact ⟨loop, hinner.1, rfl, (hsuitable.loops p hp callee stop hcall loop hinner).1⟩
    · exact absurd hsnippet (by simp)
    · exact absurd hsnippet (by simp)

end

/-- `const @"a b" = 1;` in a function. -/
def quotedName : Ast where
  source := bytes "fn f() void \x7b\n    const @\"a b\" = 1;\n\x7d\n"
  tree := .node ⟨.root, 0, 38, none⟩ <| .ofList
    [(.member, .node ⟨.fnDecl (bytes "f") [], 0, 37, none⟩ <| .ofList
      [(.body, .node ⟨.block, 12, 37, none⟩ <| .ofList
        [(.stmt, .node ⟨.varDecl ⟨false, false, bytes "@\"a b\"", 18⟩, 18, 34, some 35⟩ <| .ofList
          [(.init, .node ⟨.other, 33, 34, some 35⟩ .nil)])])])]

/-- `id` is the name of each probe. -/
def inspectAll (id : Bytes) (h : id.length = 32) : Options where
  probeId _ _ _ := id
  probeId_length _ _ _ := h
  autoInspect := true
  manualIds := []
  fileId := 0

theorem quotedName_tags : ∀ p ∈ quotedName.nodes, p.2.kind.tag ∈ [Tag.root,
    .fnDecl (bytes "f") [], .block, .varDecl ⟨false, false, bytes "@\"a b\"", 18⟩, .other] := by
  decide

theorem quotedName_parsed : Parsed quotedName where
  nested := by decide
  apart := by decide
  nonempty := by decide
  header := by
    have h : ∀ p ∈ quotedName.nodes, p.2.kind.tag.isLoop = false := by decide
    intro p hp hloop
    exact absurd ((h p hp).symm.trans hloop) Bool.false_ne_true
  keywords := by
    have h : ∀ p ∈ quotedName.nodes, p.2.kind.tag.loop = none := by decide
    intro p hp q hq token shown token' shown' hloop
    exact absurd ((h p hp).symm.trans hloop) (Option.some_ne_none _).symm
  declared := by
    intro p hp declaration htag
    have hmem := quotedName_tags p hp
    rw [htag] at hmem
    obtain rfl : declaration = ⟨false, false, bytes "@\"a b\"", 18⟩ := by simpa using hmem
    exact Or.inr ⟨bytes "a b", by decide⟩
  identifiers := by
    intro p hp name htag
    have hmem := quotedName_tags p hp
    rw [htag] at hmem
    simp at hmem

end Atomis.ZigInstrument
