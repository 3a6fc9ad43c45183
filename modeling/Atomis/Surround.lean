import Atomis.Lib.Brackets
import Mathlib.Data.Prod.Lex
import Mathlib.Order.Lattice

/-!
# Surround

The pair around a cursor is found by a scan back to an opening bracket and a scan forward from it.
Wrapping a range and deleting a pair are lists of edits, the later place first.
-/

namespace Atomis.Surround

/-! ## The code -/

/-- A string is a list of UTF-16 code units. -/
abbrev CodeUnit := UInt16

def unit (c : Char) : CodeUnit := UInt16.ofNat c.toNat

structure SurroundPair where
  opener : CodeUnit
  closer : CodeUnit
  padded : Bool
deriving DecidableEq

/-- Both are counted from 1. -/
@[ext]
structure Position where
  line : ℕ
  column : ℕ
deriving DecidableEq

@[ext]
structure EnclosingPair where
  openAt : Position
  closeAt : Position
deriving DecidableEq

structure SurroundEdit where
  startLine : ℕ
  startColumn : ℕ
  endLine : ℕ
  endColumn : ℕ
  text : List CodeUnit
deriving DecidableEq

def brackets : Char → Option (Char × Char)
  | '(' | ')' | 'b' => some ('(', ')')
  | '[' | ']' | 'r' => some ('[', ']')
  | '\x7b' | '\x7d' | 'B' => some ('\x7b', '\x7d')
  | '<' | '>' | 'a' => some ('<', '>')
  | _ => none

def quotes : List Char := ['"', Char.ofNat 0x27, Char.ofNat 0x60]

def surroundPairFor (char : Char) : Option SurroundPair :=
  match brackets char with
  | some (opener, closer) =>
    some ⟨unit opener, unit closer, ['(', '[', '\x7b', '<'].contains char⟩
  | none => if char ∈ quotes then some ⟨unit char, unit char, false⟩ else none

def lineAt (lines : List (List CodeUnit)) : ℕ → List CodeUnit
  | 0 => []
  | line + 1 => lines[line]?.getD []

/-- The columns of the quotes with no backslash before them. -/
def quoteColumns (quote : CodeUnit) (previous : Option CodeUnit) (column : ℕ) :
    List CodeUnit → List ℕ
  | [] => []
  | char :: text =>
    let columns := quoteColumns quote (some char) (column + 1) text
    if char = quote ∧ previous ≠ some (unit '\\') then column :: columns else columns

def quotePair (cursor : Position) : List ℕ → Option EnclosingPair
  | opener :: closer :: columns =>
    if closer ≥ cursor.column then some ⟨⟨cursor.line, opener⟩, ⟨cursor.line, closer⟩⟩
    else quotePair cursor columns
  | _ => none

def findQuotePair (lines : List (List CodeUnit)) (cursor : Position) (quote : CodeUnit) :
    Option EnclosingPair :=
  quotePair cursor (quoteColumns quote none 1 (lineAt lines cursor.line))

/-- The inner loop backward, with as many indices left as `count`. -/
def openInLine (cursor : Position) (opener closer : CodeUnit) (line : ℕ) (text : List CodeUnit) :
    (count depth : ℕ) → Position ⊕ ℕ
  | 0, depth => .inr depth
  | index + 1, depth =>
    if text[index]? = some closer ∧ ¬(line = cursor.line ∧ index + 1 = cursor.column) then
      openInLine cursor opener closer line text index (depth + 1)
    else if text[index]? = some opener then
      if depth = 0 then .inl ⟨line, index + 1⟩
      else openInLine cursor opener closer line text index (depth - 1)
    else openInLine cursor opener closer line text index depth

def openFrom (lines : List (List CodeUnit)) (cursor : Position) (opener closer : CodeUnit) :
    (line depth : ℕ) → Option Position
  | 0, _ => none
  | line + 1, depth =>
    let text := lineAt lines (line + 1)
    let count := if line + 1 = cursor.line then cursor.column else text.length
    match openInLine cursor opener closer (line + 1) text count depth with
    | .inl openAt => some openAt
    | .inr depth => openFrom lines cursor opener closer line depth

/-- The inner loop forward; `text` is what is left of the line from `index` on. -/
def closeInLine (opener closer : CodeUnit) (line index depth : ℕ) : List CodeUnit → Position ⊕ ℕ
  | [] => .inr depth
  | char :: text =>
    if char = opener then closeInLine opener closer line (index + 1) (depth + 1) text
    else if char = closer then
      if depth = 0 then .inl ⟨line, index + 1⟩
      else closeInLine opener closer line (index + 1) (depth - 1) text
    else closeInLine opener closer line (index + 1) depth text

/-- The outer loop forward; the lines given are those from `line` on. -/
def closeFrom (openAt : Position) (opener closer : CodeUnit) (line depth : ℕ) :
    List (List CodeUnit) → Option Position
  | [] => none
  | text :: lines =>
    let start := if line = openAt.line then openAt.column else 0
    match closeInLine opener closer line start depth (text.drop start) with
    | .inl closeAt => some closeAt
    | .inr depth => closeFrom openAt opener closer (line + 1) depth lines

def findBracketPair (lines : List (List CodeUnit)) (cursor : Position) (opener closer : CodeUnit) :
    Option EnclosingPair :=
  match openFrom lines cursor opener closer cursor.line 0 with
  | none => none
  | some openAt =>
    (closeFrom openAt opener closer openAt.line 0 (lines.drop (openAt.line - 1))).map
      fun closeAt => ⟨openAt, closeAt⟩

def findEnclosingPair (lines : List (List CodeUnit)) (cursor : Position) (char : Char) :
    Option EnclosingPair :=
  match surroundPairFor char with
  | none => none
  | some pair =>
    if pair.opener = pair.closer then findQuotePair lines cursor pair.opener
    else findBracketPair lines cursor pair.opener pair.closer

def insertAt (position : Position) (text : List CodeUnit) : SurroundEdit :=
  ⟨position.line, position.column, position.line, position.column, text⟩

def wrapEdits (start stop : Position) (pair : SurroundPair) : List SurroundEdit :=
  let opener := if pair.padded then [pair.opener, unit ' '] else [pair.opener]
  let closer := if pair.padded then [unit ' ', pair.closer] else [pair.closer]
  [insertAt stop closer, insertAt start opener]

def deletePairEdits (found : EnclosingPair) : List SurroundEdit :=
  [⟨found.closeAt.line, found.closeAt.column, found.closeAt.line, found.closeAt.column + 1, []⟩,
    ⟨found.openAt.line, found.openAt.column, found.openAt.line, found.openAt.column + 1, []⟩]

/-- The editor puts the text in the place of the range. The texts have no line breaks. -/
def applyEdit (lines : List (List CodeUnit)) (edit : SurroundEdit) : List (List CodeUnit) :=
  lines.take (edit.startLine - 1) ++
    [(lineAt lines edit.startLine).take (edit.startColumn - 1) ++ edit.text ++
      (lineAt lines edit.endLine).drop (edit.endColumn - 1)] ++ lines.drop edit.endLine

def applyEdits (lines : List (List CodeUnit)) (edits : List SurroundEdit) : List (List CodeUnit) :=
  edits.foldl applyEdit lines

/-! ## Places in a text -/

instance : LinearOrder Position :=
  LinearOrder.lift' (fun p => toLex (p.line, p.column)) fun p q h => by
    obtain ⟨hline, hcolumn⟩ := Prod.mk.inj (toLex.injective h)
    exact congrArg₂ Position.mk hline hcolumn

theorem le_iff {p q : Position} :
    p ≤ q ↔ p.line < q.line ∨ p.line = q.line ∧ p.column ≤ q.column := Prod.Lex.toLex_le_toLex

theorem lt_iff {p q : Position} :
    p < q ↔ p.line < q.line ∨ p.line = q.line ∧ p.column < q.column := Prod.Lex.toLex_lt_toLex

/-- A code unit and where it stands. -/
abbrev Token := Position × CodeUnit

def lineTokens (line column : ℕ) : List CodeUnit → List Token
  | [] => []
  | char :: text => (⟨line, column⟩, char) :: lineTokens line (column + 1) text

def tokens (line : ℕ) : List (List CodeUnit) → List Token
  | [] => []
  | text :: lines => lineTokens line 1 text ++ tokens (line + 1) lines

def Balanced (opener closer : CodeUnit) (text : List CodeUnit) : Prop :=
  Brackets.Balanced (· == opener) (· == closer) text

/-- Two brackets with balanced text between them. -/
def Matching (opener closer : CodeUnit) (lines : List (List CodeUnit)) (pair : EnclosingPair) :
    Prop :=
  ∃ before inside after, tokens 1 lines =
      before ++ (pair.openAt, opener) :: inside ++ (pair.closeAt, closer) :: after ∧
    Balanced opener closer (inside.map Prod.snd)

def Encloses (pair : EnclosingPair) (cursor : Position) : Prop :=
  pair.openAt ≤ cursor ∧ cursor ≤ pair.closeAt

structure Innermost (opener closer : CodeUnit) (lines : List (List CodeUnit)) (cursor : Position)
    (found : EnclosingPair) : Prop where
  pair : Matching opener closer lines found
  encloses : Encloses found cursor
  inner : ∀ pair, Matching opener closer lines pair → Encloses pair cursor →
    pair.openAt ≤ found.openAt ∧ found.closeAt ≤ pair.closeAt

/-- A place in front of a code unit or at the end of a line. -/
def InText (lines : List (List CodeUnit)) (p : Position) : Prop :=
  1 ≤ p.line ∧ p.line ≤ lines.length ∧ 1 ≤ p.column ∧ p.column ≤ (lineAt lines p.line).length + 1

/-- The text from `start` up to `stop`. -/
def rangeText (lines : List (List CodeUnit)) (start stop : Position) : List CodeUnit :=
  ((tokens 1 lines).filter fun t => start ≤ t.1 ∧ t.1 < stop).map Prod.snd

/-- Where the closing bracket stands after a range is wrapped. -/
def wrappedStop (start stop : Position) : Position :=
  ⟨stop.line, if start.line = stop.line then stop.column + 1 else stop.column⟩

section
variable {line column : ℕ} {left right text : List CodeUnit}
  {lines before after : List (List CodeUnit)}
  {t : Token}

theorem lineTokens_append : lineTokens line column (left ++ right) =
    lineTokens line column left ++ lineTokens line (column + left.length) right := by
  induction left generalizing column with
  | nil => rfl
  | cons char left ih =>
    rw [List.cons_append, lineTokens, lineTokens, ih, List.length_cons, List.cons_append]
    congr 3
    omega

theorem tokens_append : tokens line (before ++ after) =
    tokens line before ++ tokens (line + before.length) after := by
  induction before generalizing line with
  | nil => rfl
  | cons text before ih =>
    rw [List.cons_append, tokens, tokens, ih, List.length_cons, List.append_assoc]
    congr 3
    omega

theorem map_lineTokens : (lineTokens line column text).map Prod.snd = text := by
  induction text generalizing column with
  | nil => rfl
  | cons char text ih => rw [lineTokens, List.map_cons, ih]

theorem map_tokens : (tokens line lines).map Prod.snd = lines.flatten := by
  induction lines generalizing line with
  | nil => rfl
  | cons text lines ih =>
    rw [tokens, List.map_append, map_lineTokens, ih, List.flatten_cons]

theorem mem_lineTokens (h : t ∈ lineTokens line column text) :
    t.1.line = line ∧ column ≤ t.1.column ∧ t.1.column < column + text.length := by
  induction text generalizing column with
  | nil => cases h
  | cons char text ih =>
    rw [List.length_cons]
    rcases List.mem_cons.mp h with rfl | htext
    · exact ⟨rfl, le_rfl, by simp⟩
    · obtain ⟨hline, hlow, hhigh⟩ := ih htext
      exact ⟨hline, by omega, by omega⟩

theorem mem_tokens (h : t ∈ tokens line lines) :
    line ≤ t.1.line ∧ t.1.line < line + lines.length ∧ 1 ≤ t.1.column := by
  induction lines generalizing line with
  | nil => cases h
  | cons text lines ih =>
    rw [List.length_cons]
    rcases List.mem_append.mp h with htext | hlines
    · obtain ⟨hline, hcolumn, -⟩ := mem_lineTokens htext
      omega
    · obtain ⟨hlow, hhigh, hcolumn⟩ := ih hlines
      omega

theorem pairwise_lineTokens :
    (lineTokens line column text).Pairwise fun s t => s.1 < t.1 := by
  induction text generalizing column with
  | nil => exact .nil
  | cons char text ih =>
    refine .cons ?_ ih
    intro t ht
    obtain ⟨hline, hcolumn, -⟩ := mem_lineTokens ht
    exact lt_iff.mpr (.inr ⟨hline.symm, hcolumn⟩)

theorem pairwise_tokens : (tokens line lines).Pairwise fun s t => s.1 < t.1 := by
  induction lines generalizing line with
  | nil => exact .nil
  | cons text lines ih =>
    refine List.pairwise_append.mpr ⟨pairwise_lineTokens, ih, ?_⟩
    intro s hs t ht
    have hline := (mem_lineTokens hs).1
    have hlater := (mem_tokens ht).1
    exact lt_iff.mpr (.inl (by omega))

end

/-! ## The scans -/

def isUnit (char : CodeUnit) (t : Token) : Bool := t.2 == char

section
variable {cursor openAt : Position} {opener closer : CodeUnit} {line column index depth : ℕ}
  {text : List CodeUnit} {lines : List (List CodeUnit)}

theorem openInLine_eq (text : List CodeUnit) (count : ℕ) :
    openInLine cursor opener closer line text count depth =
      (Brackets.scan (fun t => isUnit closer t && decide (t.1 ≠ cursor)) (isUnit opener) depth
        (lineTokens line 1 (text.take count)).reverse).map Prod.fst id := by
  induction count generalizing depth with
  | zero => rfl
  | succ index ih =>
    rw [openInLine, ih, ih, ih, List.take_add_one, lineTokens_append, List.reverse_append]
    cases hchar : text[index]? with
    | none => simp [lineTokens]
    | some char =>
      obtain ⟨hindex, -⟩ := List.getElem?_eq_some_iff.mp hchar
      have hcolumn : 1 + (text.take index).length = index + 1 := by
        rw [List.length_take]
        omega
      have hcursor : decide ((⟨line, index + 1⟩ : Position) ≠ cursor) = true ↔
          ¬(line = cursor.line ∧ index + 1 = cursor.column) := by
        rw [decide_eq_true_eq, ne_eq, Position.ext_iff]
      simp only [Option.toList_some, lineTokens, hcolumn, List.reverse_cons, List.reverse_nil,
        List.nil_append, List.singleton_append, Brackets.scan, isUnit, Option.some.injEq,
        Bool.and_eq_true, beq_iff_eq, hcursor]
      split_ifs <;> rfl

theorem closeInLine_eq : closeInLine opener closer line index depth text =
    (Brackets.scan (isUnit opener) (isUnit closer) depth
      (lineTokens line (index + 1) text)).map Prod.fst id := by
  induction text generalizing index depth with
  | nil => rfl
  | cons char text ih =>
    rw [closeInLine, ih, ih, ih]
    simp only [lineTokens, Brackets.scan, isUnit, beq_iff_eq]
    split_ifs <;> rfl

/-- The lines before the cursor's are read as a whole. -/
theorem openFrom_before (h : line < cursor.line) : openFrom lines cursor opener closer line depth =
    (Brackets.scan (fun t => isUnit closer t && decide (t.1 ≠ cursor)) (isUnit opener) depth
      (tokens 1 (lines.take line)).reverse).getLeft?.map Prod.fst := by
  induction line generalizing depth with
  | zero => rfl
  | succ line ih =>
    rw [openFrom, if_neg (by omega), openInLine_eq, List.take_length, List.take_add_one,
      tokens_append, List.reverse_append, Brackets.scan_append]
    have htext : tokens (1 + (lines.take line).length) lines[line]?.toList =
        lineTokens (line + 1) 1 (lineAt lines (line + 1)) := by
      cases hline : lines[line]? with
      | none => simp [lineAt, hline, tokens, lineTokens]
      | some text =>
        obtain ⟨hlt, -⟩ := List.getElem?_eq_some_iff.mp hline
        have hlength : 1 + (lines.take line).length = line + 1 := by
          rw [List.length_take]
          omega
        rw [hlength, lineAt, hline]
        simp [tokens]
    rw [htext]
    cases Brackets.scan (fun t => isUnit closer t && decide (t.1 ≠ cursor)) (isUnit opener) depth
        (lineTokens (line + 1) 1 (lineAt lines (line + 1))).reverse with
    | inl found => rfl
    | inr depth => exact ih (by omega)

/-- The lines behind the opening bracket's are read as a whole. -/
theorem closeFrom_after (h : openAt.line < line) :
    closeFrom openAt opener closer line depth lines =
      (Brackets.scan (isUnit opener) (isUnit closer) depth
        (tokens line lines)).getLeft?.map Prod.fst := by
  induction lines generalizing line depth with
  | nil => rfl
  | cons text lines ih =>
    rw [closeFrom, if_neg (by omega), closeInLine_eq, tokens, Brackets.scan_append, List.drop_zero]
    cases Brackets.scan (isUnit opener) (isUnit closer) depth (lineTokens line 1 text) with
    | inl found => rfl
    | inr depth => exact ih (by omega)

theorem lineTokens_split (column : ℕ) : lineTokens line 1 text =
    lineTokens line 1 (text.take column) ++ lineTokens line (column + 1) (text.drop column) := by
  rcases le_total column text.length with hle | hge
  · have hcolumn : column + 1 = 1 + (text.take column).length := by
      rw [List.length_take]
      omega
    rw [hcolumn, ← lineTokens_append, List.take_append_drop]
  · rw [List.take_of_length_le hge, List.drop_eq_nil_of_le hge]
    simp [lineTokens]

theorem filter_lineTokens_le (h : line = cursor.line) :
    (lineTokens line 1 text).filter (fun t => t.1 ≤ cursor) =
      lineTokens line 1 (text.take cursor.column) := by
  have hfront : (lineTokens line 1 (text.take cursor.column)).filter (fun t => t.1 ≤ cursor) =
      lineTokens line 1 (text.take cursor.column) := by
    refine List.filter_eq_self.mpr fun t ht => ?_
    obtain ⟨hline, -, hhigh⟩ := mem_lineTokens ht
    rw [List.length_take] at hhigh
    exact decide_eq_true (le_iff.mpr (.inr (by omega)))
  have hback : (lineTokens line (cursor.column + 1) (text.drop cursor.column)).filter
      (fun t => t.1 ≤ cursor) = [] := by
    refine List.filter_eq_nil_iff.mpr fun t ht => ?_
    obtain ⟨hline, hlow, -⟩ := mem_lineTokens ht
    rw [decide_eq_true_eq, le_iff]
    omega
  rw [lineTokens_split cursor.column, List.filter_append, hfront, hback, List.append_nil]

theorem filter_lineTokens_gt (h : line = openAt.line) :
    (lineTokens line 1 text).filter (fun t => openAt < t.1) =
      lineTokens line (openAt.column + 1) (text.drop openAt.column) := by
  have hfront : (lineTokens line 1 (text.take openAt.column)).filter (fun t => openAt < t.1) =
      [] := by
    refine List.filter_eq_nil_iff.mpr fun t ht => ?_
    obtain ⟨hline, -, hhigh⟩ := mem_lineTokens ht
    rw [List.length_take] at hhigh
    rw [decide_eq_true_eq, lt_iff]
    omega
  have hback : (lineTokens line (openAt.column + 1) (text.drop openAt.column)).filter
      (fun t => openAt < t.1) = lineTokens line (openAt.column + 1) (text.drop openAt.column) := by
    refine List.filter_eq_self.mpr fun t ht => ?_
    obtain ⟨hline, hlow, -⟩ := mem_lineTokens ht
    exact decide_eq_true (lt_iff.mpr (.inr (by omega)))
  rw [lineTokens_split openAt.column, List.filter_append, hfront, hback, List.nil_append]

/-- What the scan back reads. -/
theorem filter_tokens_le (h : line ≤ cursor.line) :
    (tokens line lines).filter (fun t => t.1 ≤ cursor) =
      tokens line (lines.take (cursor.line - line)) ++
        lineTokens cursor.line 1 ((lines[cursor.line - line]?.getD []).take cursor.column) := by
  induction lines generalizing line with
  | nil => simp [tokens, lineTokens]
  | cons text lines ih =>
    rw [tokens, List.filter_append]
    rcases Nat.lt_or_eq_of_le h with hlt | heq
    · have hsucc : cursor.line - line = cursor.line - (line + 1) + 1 := by omega
      have htext : (lineTokens line 1 text).filter (fun t => t.1 ≤ cursor) =
          lineTokens line 1 text := by
        refine List.filter_eq_self.mpr fun t ht => ?_
        have hline := (mem_lineTokens ht).1
        exact decide_eq_true (le_iff.mpr (.inl (by omega)))
      rw [htext, ih hlt, hsucc, List.take_succ_cons, List.getElem?_cons_succ, tokens,
        List.append_assoc]
    · have hzero : cursor.line - line = 0 := by omega
      have hlines : (tokens (line + 1) lines).filter (fun t => t.1 ≤ cursor) = [] := by
        refine List.filter_eq_nil_iff.mpr fun t ht => ?_
        have hline := (mem_tokens ht).1
        rw [decide_eq_true_eq, le_iff]
        omega
      rw [hlines, filter_lineTokens_le heq, hzero, heq]
      simp [tokens]

/-- What the scan forward reads. -/
theorem closeFrom_eq (h : line ≤ openAt.line) :
    closeFrom openAt opener closer openAt.line depth (lines.drop (openAt.line - line)) =
      (Brackets.scan (isUnit opener) (isUnit closer) depth
        ((tokens line lines).filter fun t => openAt < t.1)).getLeft?.map Prod.fst := by
  induction lines generalizing line with
  | nil =>
    rw [List.drop_nil]
    rfl
  | cons text lines ih =>
    rw [tokens, List.filter_append]
    rcases Nat.lt_or_eq_of_le h with hlt | heq
    · have hsucc : openAt.line - line = openAt.line - (line + 1) + 1 := by omega
      have htext : (lineTokens line 1 text).filter (fun t => openAt < t.1) = [] := by
        refine List.filter_eq_nil_iff.mpr fun t ht => ?_
        have hline := (mem_lineTokens ht).1
        rw [decide_eq_true_eq, lt_iff]
        omega
      rw [htext, List.nil_append, hsucc, List.drop_succ_cons]
      exact ih hlt
    · have hlines : (tokens (line + 1) lines).filter (fun t => openAt < t.1) =
          tokens (line + 1) lines := by
        refine List.filter_eq_self.mpr fun t ht => ?_
        have hline := (mem_tokens ht).1
        exact decide_eq_true (lt_iff.mpr (.inl (by omega)))
      rw [hlines, filter_lineTokens_gt heq, ← heq, Nat.sub_self, List.drop_zero, closeFrom,
        if_pos heq, closeInLine_eq, Brackets.scan_append]
      cases Brackets.scan (isUnit opener) (isUnit closer) depth
          (lineTokens line (openAt.column + 1) (text.drop openAt.column)) with
      | inl found => rfl
      | inr depth => exact closeFrom_after (by omega)

theorem openFrom_eq : openFrom lines cursor opener closer cursor.line 0 =
    (Brackets.scan (fun t => isUnit closer t && decide (t.1 ≠ cursor)) (isUnit opener) 0
      ((tokens 1 lines).filter fun t => t.1 ≤ cursor).reverse).getLeft?.map Prod.fst := by
  cases hline : cursor.line with
  | zero =>
    have hnone : (tokens 1 lines).filter (fun t => t.1 ≤ cursor) = [] := by
      refine List.filter_eq_nil_iff.mpr fun t ht => ?_
      have hlow := (mem_tokens ht).1
      rw [decide_eq_true_eq, le_iff]
      omega
    rw [hnone]
    rfl
  | succ line =>
    have hread : (tokens 1 lines).filter (fun t => t.1 ≤ cursor) =
        tokens 1 (lines.take (cursor.line - 1)) ++ lineTokens cursor.line 1
          ((lines[cursor.line - 1]?.getD []).take cursor.column) := filter_tokens_le (by omega)
    rw [hline, Nat.add_sub_cancel] at hread
    rw [hread, openFrom, if_pos hline.symm, openInLine_eq, List.reverse_append,
      Brackets.scan_append]
    show (match Sum.map Prod.fst id (Brackets.scan _ _ 0 (lineTokens (line + 1) 1
      ((lines[line]?.getD []).take cursor.column)).reverse) with
      | .inl openAt => some openAt
      | .inr depth => openFrom lines cursor opener closer line depth) = _
    cases Brackets.scan (fun t => isUnit closer t && decide (t.1 ≠ cursor)) (isUnit opener) 0
        (lineTokens (line + 1) 1 ((lines[line]?.getD []).take cursor.column)).reverse with
    | inl found => rfl
    | inr depth => exact openFrom_before (by omega)

/-- What stands in front of the cursor; a closing bracket at it is left to what stands behind. -/
def inFront (closer : CodeUnit) (cursor : Position) (t : Token) : Bool :=
  decide (t.1 ≤ cursor) && !(isUnit closer t && decide (t.1 = cursor))

theorem disjoint (opener closer : CodeUnit) (h : opener ≠ closer) (t : Token)
    (ht : isUnit opener t = true) : isUnit closer t = false := by
  simp only [isUnit, beq_iff_eq, beq_eq_false_iff_ne] at ht ⊢
  rw [ht]
  exact h

theorem findBracketPair_eq (h : opener ≠ closer) : findBracketPair lines cursor opener closer =
    match Brackets.scan (isUnit closer) (isUnit opener) 0
      ((tokens 1 lines).filter (inFront closer cursor)).reverse with
    | .inr _ => none
    | .inl s => (Brackets.scan (isUnit opener) (isUnit closer) 0
        ((tokens 1 lines).filter fun t => s.1 < t.1)).getLeft?.map fun t => ⟨s.1, t.1⟩ := by
  have hfront : ((tokens 1 lines).filter (inFront closer cursor)).reverse =
      ((tokens 1 lines).filter (fun t => t.1 ≤ cursor)).reverse.filter
        fun t => !(isUnit closer t && !decide (t.1 ≠ cursor)) := by
    rw [List.filter_reverse, List.filter_filter]
    congr 2
    funext t
    simp [inFront, Bool.and_comm]
  have hno := disjoint closer opener h.symm
  rw [hfront, ← Brackets.scan_filter hno, findBracketPair, openFrom_eq, ← List.filter_reverse]
  cases hscan : Brackets.scan (fun t => isUnit closer t && decide (t.1 ≠ cursor)) (isUnit opener) 0
      ((tokens 1 lines).reverse.filter fun t => t.1 ≤ cursor) with
  | inr depth => rfl
  | inl s =>
    have hmem : s ∈ tokens 1 lines := by
      obtain ⟨front, back, hsplit, -⟩ := Brackets.scan_inl
        (fun t ht => hno t (Bool.and_elim_left ht)) hscan
      have hread : s ∈ (tokens 1 lines).reverse.filter fun t => t.1 ≤ cursor := by
        rw [hsplit]
        simp
      exact List.mem_reverse.mp (List.mem_filter.mp hread).1
    show Option.map _ (closeFrom s.1 opener closer s.1.line 0 (lines.drop (s.1.line - 1))) = _
    rw [closeFrom_eq (mem_tokens hmem).1, Option.map_map]
    rfl

theorem findBracketPair_inl (h : opener ≠ closer) {s : Token}
    (hscan : Brackets.scan (isUnit closer) (isUnit opener) 0
      ((tokens 1 lines).filter (inFront closer cursor)).reverse = .inl s) :
    findBracketPair lines cursor opener closer =
      (Brackets.scan (isUnit opener) (isUnit closer) 0
        ((tokens 1 lines).filter fun t => s.1 < t.1)).getLeft?.map fun t => ⟨s.1, t.1⟩ := by
  rw [findBracketPair_eq h, hscan]

theorem findBracketPair_inr (h : opener ≠ closer)
    (hscan : Brackets.scan (isUnit closer) (isUnit opener) 0
      ((tokens 1 lines).filter (inFront closer cursor)).reverse = .inr depth) :
    findBracketPair lines cursor opener closer = none := by
  rw [findBracketPair_eq h, hscan]

end

/-! ## The cut at the cursor -/

section
variable {cursor : Position} {opener closer : CodeUnit} {o c : Position}
  {lines : List (List CodeUnit)} {word before inside after : List Token}

/-- Where a sorted list satisfies a downward closed condition, it does so in front. -/
theorem filter_append_filter {α : Type*} {R : α → α → Prop} {p : α → Bool}
    (hdown : ∀ a b, R a b → p b = true → p a = true) {word : List α} (h : word.Pairwise R) :
    word.filter p ++ word.filter (fun a => !p a) = word := by
  induction h with
  | nil => rfl
  | @cons a word hfirst _ ih =>
    by_cases ha : p a = true
    · rw [List.filter_cons_of_pos ha, List.filter_cons_of_neg (by simp [ha]), List.cons_append, ih]
    · have hnone : word.filter p = [] := by
        refine List.filter_eq_nil_iff.mpr fun b hb hpb => ha (hdown a b (hfirst b hb) hpb)
      rw [hnone, List.nil_append] at ih
      rw [List.filter_cons_of_neg ha, List.filter_cons_of_pos (by simp [ha]), hnone, ih]
      rfl

theorem inFront_mono {s t : Token} (h : s.1 < t.1) (ht : inFront closer cursor t = true) :
    inFront closer cursor s = true := by
  simp only [inFront, Bool.and_eq_true, decide_eq_true_eq] at ht
  have hlt := h.trans_le ht.1
  simp [inFront, hlt.le, hlt.ne]

theorem filter_inFront (h : word.Pairwise fun s t => s.1 < t.1) :
    word.filter (inFront closer cursor) ++ word.filter (fun t => !inFront closer cursor t) =
      word :=
  filter_append_filter (fun _ _ hlt ht => inFront_mono hlt ht) h

theorem le_of_mem_front {t : Token} (h : t ∈ word.filter (inFront closer cursor)) :
    t.1 ≤ cursor := by
  have hin := (List.mem_filter.mp h).2
  simp only [inFront, Bool.and_eq_true, decide_eq_true_eq] at hin
  exact hin.1

theorem le_of_mem_back {t : Token} (h : t ∈ word.filter fun t => !inFront closer cursor t)
    (ht : isUnit closer t = true) : cursor ≤ t.1 := by
  have hin := (List.mem_filter.mp h).2
  simp only [inFront, ht, Bool.true_and, Bool.not_and, Bool.not_not, Bool.or_eq_true,
    Bool.not_eq_true', decide_eq_false_iff_not, decide_eq_true_eq, not_le] at hin
  exact hin.elim le_of_lt ge_of_eq

/-- A pair around the cursor has one bracket on each side of the cut. -/
theorem split_inFront (hne : opener ≠ closer) (ho : o ≤ cursor) (hc : cursor ≤ c)
    (hword : (before ++ (o, opener) :: inside ++ (c, closer) :: after).Pairwise
      fun s t => s.1 < t.1) :
    ∃ m n, inside = m ++ n ∧
      (before ++ (o, opener) :: inside ++ (c, closer) :: after).filter (inFront closer cursor) =
        before ++ (o, opener) :: m ∧
      (before ++ (o, opener) :: inside ++ (c, closer) :: after).filter
        (fun t => !inFront closer cursor t) = n ++ (c, closer) :: after := by
  have hopen : inFront closer cursor (o, opener) = true := by
    simp [inFront, ho, isUnit, hne]
  have hclose : inFront closer cursor (c, closer) = false := by
    rcases hc.lt_or_eq with hlt | heq
    · simp [inFront, not_le.mpr hlt]
    · simp [inFront, isUnit, heq]
  obtain ⟨hfirst, hafter, -⟩ := List.pairwise_append.mp hword
  obtain ⟨-, hinside, hbefore⟩ := List.pairwise_append.mp hfirst
  have hfront : before.filter (inFront closer cursor) = before :=
    List.filter_eq_self.mpr fun s hs => inFront_mono (hbefore s hs _ List.mem_cons_self) hopen
  have hfront' : before.filter (fun t => !inFront closer cursor t) = [] :=
    List.filter_eq_nil_iff.mpr fun s hs => by
      simp [inFront_mono (hbefore s hs _ List.mem_cons_self) hopen]
  have hback (s : Token) (hs : s ∈ after) : inFront closer cursor s = false := by
    have hlt := (List.pairwise_cons.mp hafter).1 s hs
    cases hin : inFront closer cursor s with
    | false => rfl
    | true => exact absurd (inFront_mono hlt hin) (by rw [hclose]; decide)
  have hnone : after.filter (inFront closer cursor) = [] :=
    List.filter_eq_nil_iff.mpr fun s hs => by simp [hback s hs]
  have hself : after.filter (fun t => !inFront closer cursor t) = after :=
    List.filter_eq_self.mpr fun s hs => by simp [hback s hs]
  refine ⟨inside.filter (inFront closer cursor), inside.filter fun t => !inFront closer cursor t,
    (filter_inFront (List.pairwise_cons.mp hinside).2).symm, ?_, ?_⟩
  · simp [List.filter_append, hfront, hopen, hclose, hnone]
  · simp [List.filter_append, hfront', hopen, hclose, hself]

theorem balanced_tokens : Balanced opener closer (word.map Prod.snd) ↔
    Brackets.Balanced (isUnit opener) (isUnit closer) word :=
  Brackets.balanced_map _ _

theorem filter_behind {s : Token} (h : (before ++ s :: after).Pairwise fun s t => s.1 < t.1) :
    (before ++ s :: after).filter (fun t => s.1 < t.1) = after := by
  obtain ⟨-, hafter, hbefore⟩ := List.pairwise_append.mp h
  have hnone : before.filter (fun t => s.1 < t.1) = [] :=
    List.filter_eq_nil_iff.mpr fun t ht => by
      simpa using (hbefore t ht s List.mem_cons_self).le
  have hself : after.filter (fun t => s.1 < t.1) = after :=
    List.filter_eq_self.mpr fun t ht => decide_eq_true ((List.pairwise_cons.mp hafter).1 t ht)
  rw [List.filter_append, hnone, List.filter_cons_of_neg (by simp), hself, List.nil_append]

/-- What the two scans find between them. -/
theorem findBracketPair_of_scan (hne : opener ≠ closer) {s : Token}
    (h : Balanced opener closer lines.flatten)
    (hscan : Brackets.scan (isUnit closer) (isUnit opener) 0
      ((tokens 1 lines).filter (inFront closer cursor)).reverse = .inl s) :
    ∃ before inside t inside' after,
      (tokens 1 lines).filter (inFront closer cursor) = before ++ s :: inside ∧
      (tokens 1 lines).filter (fun t => !inFront closer cursor t) = inside' ++ t :: after ∧
      isUnit opener s = true ∧ isUnit closer t = true ∧
      Brackets.Balanced (isUnit opener) (isUnit closer) inside ∧
      Brackets.Balanced (isUnit opener) (isUnit closer) (inside ++ inside') ∧
      findBracketPair lines cursor opener closer = some ⟨s.1, t.1⟩ := by
  have hno := disjoint opener closer hne
  have hsorted : (tokens 1 lines).Pairwise fun s t => s.1 < t.1 := pairwise_tokens
  have hcut : (tokens 1 lines).filter (inFront closer cursor) ++
      (tokens 1 lines).filter (fun t => !inFront closer cursor t) = tokens 1 lines :=
    filter_inFront hsorted
  obtain ⟨before, inside, hfront, hs, hinside⟩ := Brackets.scan_reverse_inl hno hscan
  rw [← @map_tokens 1 lines, balanced_tokens, ← hcut, hfront] at h
  obtain ⟨t, inside', after, hback, ht, hbetween, hclose⟩ := Brackets.scan_close hno h hs hinside
  refine ⟨before, inside, t, inside', after, hfront, hback, hs, ht, hinside, hbetween, ?_⟩
  have hbehind : (tokens 1 lines).filter (fun t => s.1 < t.1) =
      inside ++ (tokens 1 lines).filter fun t => !inFront closer cursor t := by
    rw [hfront, List.append_assoc, List.cons_append] at hcut
    rw [← hcut] at hsorted
    nth_rewrite 1 [← hcut]
    exact filter_behind hsorted
  rw [findBracketPair_inl hne hscan, hbehind, hclose]
  rfl

theorem innermost_of_eq (hne : opener ≠ closer) (h : Balanced opener closer lines.flatten)
    {found : EnclosingPair} (hfound : findBracketPair lines cursor opener closer = some found) :
    Innermost opener closer lines cursor found := by
  have hno := disjoint opener closer hne
  have hsorted : (tokens 1 lines).Pairwise fun s t => s.1 < t.1 := pairwise_tokens
  have hcut : (tokens 1 lines).filter (inFront closer cursor) ++
      (tokens 1 lines).filter (fun t => !inFront closer cursor t) = tokens 1 lines :=
    filter_inFront hsorted
  cases hscan : Brackets.scan (isUnit closer) (isUnit opener) 0
      ((tokens 1 lines).filter (inFront closer cursor)).reverse with
  | inr depth =>
    rw [findBracketPair_inr hne hscan] at hfound
    cases hfound
  | inl s =>
    obtain ⟨before, inside, t, inside', after, hfront, hback, hs, ht, hinside, hbetween, heq⟩ :=
      findBracketPair_of_scan hne h hscan
    rw [heq] at hfound
    obtain rfl := Option.some.inj hfound
    have hopener : s = (s.1, opener) := Prod.ext rfl (by simpa [isUnit] using hs)
    have hcloser : t = (t.1, closer) := Prod.ext rfl (by simpa [isUnit] using ht)
    have hword := hcut
    rw [hfront, hback] at hword
    rw [← hword] at hsorted
    obtain ⟨hfirst, hlast, -⟩ := List.pairwise_append.mp hsorted
    have hbefore (u : Token) (hu : u ∈ before) : u.1 ≤ s.1 :=
      ((List.pairwise_append.mp hfirst).2.2 u hu s List.mem_cons_self).le
    have hafter (u : Token) (hu : u ∈ after) : t.1 ≤ u.1 :=
      ((List.pairwise_cons.mp (List.pairwise_append.mp hlast).2.1).1 u hu).le
    refine ⟨⟨before, inside ++ inside', after, ?_, balanced_tokens.mpr hbetween⟩, ⟨?_, ?_⟩, ?_⟩
    · rw [← hword, ← hopener, ← hcloser]
      simp
    · exact le_of_mem_front (by rw [hfront]; simp)
    · exact le_of_mem_back (by rw [hback]; simp) ht
    · rintro pair ⟨before', between, after', htokens, hbalanced⟩ ⟨hopen, hclose⟩
      rw [balanced_tokens] at hbalanced
      have hpairs : (tokens 1 lines).Pairwise fun s t => s.1 < t.1 := pairwise_tokens
      rw [htokens] at hpairs hfront hback
      obtain ⟨m, n, rfl, hfront', hback'⟩ := split_inFront hne hopen hclose hpairs
      constructor
      · have ho : isUnit opener (pair.openAt, opener) = true := by simp [isUnit]
        rcases Brackets.inner_before hno hinside (hfront.symm.trans hfront') ho hbalanced with
          heq | hmem
        · rw [← heq]
        · exact hbefore _ hmem
      · have hc : isUnit closer (pair.closeAt, closer) = true := by simp [isUnit]
        rcases Brackets.inner_after hno hbetween hinside (hback.symm.trans hback') hc hbalanced with
          heq | hmem
        · rw [← heq]
        · exact hafter _ hmem

theorem exists_of_matching (hne : opener ≠ closer) (h : Balanced opener closer lines.flatten)
    {pair : EnclosingPair} (hpair : Matching opener closer lines pair)
    (hcursor : Encloses pair cursor) :
    ∃ found, findBracketPair lines cursor opener closer = some found := by
  obtain ⟨before, inside, after, htokens, hbalanced⟩ := hpair
  have hsorted : (tokens 1 lines).Pairwise fun s t => s.1 < t.1 := pairwise_tokens
  rw [htokens] at hsorted
  obtain ⟨m, n, rfl, hfront, -⟩ := split_inFront hne hcursor.1 hcursor.2 hsorted
  rw [← htokens] at hfront
  rw [balanced_tokens] at hbalanced
  obtain ⟨s, hscan⟩ := Brackets.scan_reverse_isLeft (disjoint opener closer hne) hfront
    (by simp [isUnit]) hbalanced
  obtain ⟨-, -, t, -, -, -, -, -, -, -, -, heq⟩ := findBracketPair_of_scan hne h hscan
  exact ⟨_, heq⟩

theorem innermost_iff (hne : opener ≠ closer) (h : Balanced opener closer lines.flatten)
    (found : EnclosingPair) : findBracketPair lines cursor opener closer = some found ↔
      Innermost opener closer lines cursor found := by
  refine ⟨innermost_of_eq hne h, fun hfound => ?_⟩
  obtain ⟨other, hother⟩ := exists_of_matching hne h hfound.pair hfound.encloses
  have hinner := innermost_of_eq hne h hother
  have hle := hinner.inner found hfound.pair hfound.encloses
  have hge := hfound.inner other hinner.pair hinner.encloses
  rw [hother]
  exact congrArg some (EnclosingPair.ext (le_antisymm hge.1 hle.1) (le_antisymm hle.2 hge.2))

theorem eq_none_iff (hne : opener ≠ closer) (h : Balanced opener closer lines.flatten) :
    findBracketPair lines cursor opener closer = none ↔
      ∀ pair, Matching opener closer lines pair → ¬Encloses pair cursor := by
  constructor
  · intro hnone pair hpair hcursor
    obtain ⟨found, hfound⟩ := exists_of_matching hne h hpair hcursor
    rw [hnone] at hfound
    cases hfound
  · intro hno
    cases hfound : findBracketPair lines cursor opener closer with
    | none => rfl
    | some found =>
      have hinner := innermost_of_eq hne h hfound
      exact absurd hinner.encloses (hno found hinner.pair)

end

end Atomis.Surround
