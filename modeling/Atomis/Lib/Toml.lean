import Mathlib.Data.List.Basic
import Mathlib.Tactic.Common

/-!
# TOML

Documents with their layout, and the paths they define: by the headers of tables, by dotted keys
and by the fields of inline tables. Between the tokens of a line stand blanks, inside brackets any
gap of blanks, line ends and comments.
-/

namespace Atomis.Toml

structure Blanks where
  text : List Char
  valid : ∀ c ∈ text, c = ' ' ∨ c = '\t'

inductive Newline
  | lf
  | crlf

def Newline.text : Newline → List Char
  | lf => ['\n']
  | crlf => ['\r', '\n']

structure Comment where
  text : List Char
  valid : '\n' ∉ text

inductive Piece
  | blank (c : Char) (valid : c = ' ' ∨ c = '\t')
  | newline (stop : Newline)
  | comment (line : Comment) (stop : Newline)

def Piece.text : Piece → List Char
  | blank c _ => [c]
  | newline stop => stop.text
  | comment line stop => '#' :: line.text ++ stop.text

abbrev Gap := List Piece

def Gap.text (gap : Gap) : List Char := gap.flatMap Piece.text

/-! ## Strings and keys -/

/-- The value of a hexadecimal digit, sixteen for anything else. -/
def digitValue (c : Char) : ℕ :=
  if c.isDigit then c.toNat - 48
  else if 'a' ≤ c ∧ c ≤ 'f' then c.toNat - 87
  else if 'A' ≤ c ∧ c ≤ 'F' then c.toNat - 55
  else 16

def runeEscape (length : ℕ) (digits : List Char) : Option Char :=
  let n := digits.foldl (fun n c => 16 * n + digitValue c) 0
  if digits.length = length ∧ digits.all (digitValue · < 16) ∧ n.isValidChar then
    some (Char.ofNat n)
  else none

/-- What a backslash and the characters behind it stand for. -/
def escapeValue : List Char → Option Char
  | ['b'] => some (Char.ofNat 8)
  | ['t'] => some '\t'
  | ['n'] => some '\n'
  | ['f'] => some (Char.ofNat 12)
  | ['r'] => some '\r'
  | ['"'] => some '"'
  | ['\\'] => some '\\'
  | 'u' :: digits => runeEscape 4 digits
  | 'U' :: digits => runeEscape 8 digits
  | _ => none

inductive Element
  | plain (c : Char) (valid : c ≠ '"' ∧ c ≠ '\\' ∧ c ≠ '\n')
  | escape (spelling : List Char) (value : Char) (valid : escapeValue spelling = some value)

def Element.text : Element → List Char
  | plain c _ => [c]
  | escape spelling _ _ => '\\' :: spelling

def Element.value : Element → Char
  | plain c _ => c
  | escape _ value _ => value

/-- What stands in a string over several lines. A backslash at the end of a line takes the blanks
and line ends behind it away. -/
inductive LineElement
  | element (e : Element)
  | quote
  | newline (stop : Newline)
  | joined (before : Blanks) (stop : Newline) (after : List (Blanks × Newline)) (last : Blanks)

def LineElement.text : LineElement → List Char
  | element e => e.text
  | quote => ['"']
  | newline stop => stop.text
  | joined before stop after last => '\\' :: before.text ++ stop.text ++
      after.flatMap (fun (blanks, stop) => blanks.text ++ stop.text) ++ last.text

def LineElement.value : LineElement → List Char
  | element e => [e.value]
  | quote => ['"']
  | newline _ => ['\n']
  | joined .. => []

def LineElement.isQuote : LineElement → Bool
  | quote => true
  | _ => false

def quotes : List Char := ['"', '"', '"']

def apostrophes : List Char := ['\'', '\'', '\'']

/-- The four forms of a string; a line end right behind three quotes does not count. -/
inductive Literal
  | basic (elements : List Element)
  | plain (text : List Char) (valid : '\'' ∉ text ∧ '\n' ∉ text)
  | basicLines (first : Option Newline) (elements : List LineElement)
      (valid : ¬ [true, true, true] <:+: elements.map LineElement.isQuote)
  | plainLines (first : Option Newline) (text : List Char) (valid : ¬ apostrophes <:+: text)

def Literal.text : Literal → List Char
  | basic elements => '"' :: elements.flatMap Element.text ++ ['"']
  | plain text _ => '\'' :: text ++ ['\'']
  | basicLines first elements _ => quotes ++ (first.map Newline.text).getD [] ++
      elements.flatMap LineElement.text ++ quotes
  | plainLines first text _ => apostrophes ++ (first.map Newline.text).getD [] ++ text ++
      apostrophes

def Literal.value : Literal → List Char
  | basic elements => elements.map Element.value
  | plain text _ => text
  | basicLines _ elements _ => elements.flatMap LineElement.value
  | plainLines _ text _ => text

def isBare (c : Char) : Bool := c.isAlphanum || c = '_' || c = '-'

inductive SimpleKey
  | bare (name : List Char) (valid : name ≠ [] ∧ name.all isBare)
  | basic (elements : List Element)
  | plain (text : List Char) (valid : '\'' ∉ text ∧ '\n' ∉ text)

def SimpleKey.text : SimpleKey → List Char
  | bare name _ => name
  | basic elements => '"' :: elements.flatMap Element.text ++ ['"']
  | plain text _ => '\'' :: text ++ ['\'']

def SimpleKey.name : SimpleKey → List Char
  | bare name _ => name
  | basic elements => elements.map Element.value
  | plain text _ => text

abbrev Path := List (List Char)

/-- A key and those behind its dots. -/
structure Key where
  first : SimpleKey
  more : List (Blanks × Blanks × SimpleKey)

def Key.text (key : Key) : List Char :=
  key.first.text ++ key.more.flatMap fun (left, right, next) =>
    left.text ++ '.' :: right.text ++ next.text

def Key.path (key : Key) : Path := key.first.name :: key.more.map fun (_, _, next) => next.name

/-! ## Values -/

/-- The characters of numbers, truth values, dates and times. -/
def isWordPart (c : Char) : Bool := c.isAlphanum || ['+', '-', '_', '.', ':', ' '].contains c

mutual

inductive Value
  | string (literal : Literal)
  | word (first : Char) (rest : List Char)
      (valid : (first.isAlphanum ∨ first = '+' ∨ first = '-') ∧ rest.all isWordPart)
  | array (items : Items)
  | table (fields : Fields)

/-- What follows the bracket of an array. -/
inductive Items
  | close (gap : Gap)
  | last (before : Gap) (value : Value) (after : Gap)
  | cons (before : Gap) (value : Value) (after : Gap) (items : Items)

/-- What follows the brace of an inline table. -/
inductive Fields
  | close (gap : Gap)
  | last (before : Gap) (key : Key) (left right : Gap) (value : Value) (after : Gap)
  | cons (before : Gap) (key : Key) (left right : Gap) (value : Value) (after : Gap)
      (fields : Fields)

end

mutual

def Value.text : Value → List Char
  | .string literal => literal.text
  | .word first rest _ => first :: rest
  | .array items => '[' :: items.text
  | .table fields => '{' :: fields.text

def Items.text : Items → List Char
  | .close gap => gap.text ++ [']']
  | .last before value after => before.text ++ value.text ++ after.text ++ [']']
  | .cons before value after items =>
    before.text ++ value.text ++ after.text ++ ',' :: items.text

def Fields.text : Fields → List Char
  | .close gap => gap.text ++ ['}']
  | .last before key left right value after =>
    before.text ++ key.text ++ left.text ++ '=' :: right.text ++ value.text ++ after.text ++ ['}']
  | .cons before key left right value after fields =>
    before.text ++ key.text ++ left.text ++ '=' :: right.text ++ value.text ++ after.text ++
      ',' :: fields.text

end

mutual

/-- What the fields of a value at this path define. -/
def Value.under (path : Path) : Value → List (Path × Value)
  | .table fields => fields.under path
  | _ => []

def Fields.under (path : Path) : Fields → List (Path × Value)
  | .close _ => []
  | .last _ key _ _ value _ => (path ++ key.path, value) :: value.under (path ++ key.path)
  | .cons _ key _ _ value _ fields =>
    (path ++ key.path, value) :: value.under (path ++ key.path) ++ fields.under path

end

/-! ## Documents -/

inductive Expr
  | header (array : Bool) (left : Blanks) (key : Key) (right : Blanks)
  | pair (key : Key) (left right : Blanks) (value : Value)

def Expr.text : Expr → List Char
  | header array left key right =>
    '[' :: (if array then ['['] else []) ++ left.text ++ key.text ++ right.text ++
      (if array then [']'] else []) ++ [']']
  | pair key left right value => key.text ++ left.text ++ '=' :: right.text ++ value.text

/-- A header, a key and its value, or nothing, and perhaps a comment. -/
structure Statement where
  before : Blanks
  expr : Option Expr
  after : Blanks
  comment : Option Comment

def Statement.text (s : Statement) : List Char :=
  s.before.text ++ ((s.expr.map Expr.text).getD []) ++ s.after.text ++
    ((s.comment.map fun line => '#' :: line.text).getD [])

/-- A document, with or without a byte order mark; the last line need not end. -/
structure Document where
  mark : Bool
  statements : List (Statement × Newline)
  last : Statement

/-- The values behind a header, and where they are. -/
def assigned (table : Path) : List Expr → List (Path × Value)
  | [] => []
  | .header _ _ key _ :: exprs => assigned key.path exprs
  | .pair key _ _ value :: exprs =>
    (table ++ key.path, value) :: value.under (table ++ key.path) ++ assigned table exprs

namespace Document

def text (m : Document) : List Char :=
  (if m.mark then [Char.ofNat 0xFEFF] else []) ++
    m.statements.flatMap (fun (s, stop) => s.text ++ stop.text) ++ m.last.text

def exprs (m : Document) : List Expr :=
  (m.statements.map Prod.fst ++ [m.last]).filterMap Statement.expr

def headers (m : Document) : List Path :=
  m.exprs.filterMap fun | .header _ _ key _ => some key.path | .pair .. => none

def assignments (m : Document) : List (Path × Value) := assigned [] m.exprs

/-- The paths of the tables and of the values. -/
def paths (m : Document) : List Path := m.headers ++ m.assignments.map Prod.fst

end Document

/-! ## Lines -/

theorem newline_not_mem_spelling {spelling : List Char} {value : Char}
    (h : escapeValue spelling = some value) : '\n' ∉ spelling := by
  have hdigits {length : ℕ} {digits : List Char} (hrune : runeEscape length digits = some value) :
      '\n' ∉ digits := by
    rw [runeEscape] at hrune
    split_ifs at hrune with hvalid
    exact fun hmem => absurd (List.all_eq_true.mp hvalid.2.1 _ hmem) (by decide)
  unfold escapeValue at h
  split at h
  case h_8 => simpa using hdigits h
  case h_9 => simpa using hdigits h
  case h_10 => contradiction
  all_goals decide

theorem newline_not_mem_element (e : Element) : '\n' ∉ e.text := by
  cases e with
  | plain c valid => simpa [Element.text] using valid.2.2.symm
  | escape spelling value valid => simpa [Element.text] using newline_not_mem_spelling valid

theorem newline_not_mem_simpleKey (key : SimpleKey) : '\n' ∉ key.text := by
  cases key with
  | bare name valid =>
    exact fun hmem => absurd (List.all_eq_true.mp valid.2 _ hmem) (by decide)
  | basic elements =>
    have helements : '\n' ∉ elements.flatMap Element.text := fun hmem => by
      obtain ⟨e, -, he⟩ := List.mem_flatMap.mp hmem
      exact newline_not_mem_element e he
    simpa [SimpleKey.text] using helements
  | plain text valid => simpa [SimpleKey.text] using valid.2

theorem newline_not_mem_blanks (blanks : Blanks) : '\n' ∉ blanks.text := fun h => by
  rcases blanks.valid _ h with heq | heq <;> contradiction

theorem newline_not_mem_key (key : Key) : '\n' ∉ key.text := by
  have hmore : '\n' ∉ key.more.flatMap fun (left, right, next) =>
      left.text ++ '.' :: right.text ++ next.text := fun hmem => by
    obtain ⟨⟨left, right, next⟩, -, hpart⟩ := List.mem_flatMap.mp hmem
    simp [newline_not_mem_blanks, newline_not_mem_simpleKey] at hpart
  rw [Key.text, List.mem_append]
  exact not_or.mpr ⟨newline_not_mem_simpleKey key.first, hmore⟩

/-- A statement that is not a pair stays in its line. -/
theorem newline_not_mem_statement (s : Statement)
    (h : ∀ key left right value, s.expr ≠ some (.pair key left right value)) : '\n' ∉ s.text := by
  have hexpr : '\n' ∉ (s.expr.map Expr.text).getD [] := by
    cases hs : s.expr with
    | none => simp
    | some expr =>
      cases expr with
      | header array left key right =>
        cases array <;>
          simp [Expr.text, newline_not_mem_blanks, newline_not_mem_key]
      | pair key left right value => exact absurd hs (h key left right value)
  have hcomment : '\n' ∉ (s.comment.map fun line => '#' :: line.text).getD [] := by
    cases s.comment with
    | none => simp
    | some line => simpa using line.valid
  simp [Statement.text, newline_not_mem_blanks, hexpr, hcomment]

/-- A key begins with a character of a bare key or with a quote. -/
theorem key_text_cons (key : Key) :
    ∃ c text, key.text = c :: text ∧ (isBare c ∨ c = '"' ∨ c = '\'') := by
  have hfirst : ∃ c text, key.first.text = c :: text ∧ (isBare c ∨ c = '"' ∨ c = '\'') := by
    cases key.first with
    | bare name valid =>
      obtain ⟨c, text, rfl⟩ := List.exists_cons_of_ne_nil valid.1
      exact ⟨c, text, rfl, Or.inl (List.all_eq_true.mp valid.2 c List.mem_cons_self)⟩
    | basic elements => exact ⟨'"', _, rfl, Or.inr (Or.inl rfl)⟩
    | plain text valid => exact ⟨'\'', _, rfl, Or.inr (Or.inr rfl)⟩
  obtain ⟨c, text, htext, hc⟩ := hfirst
  exact ⟨c, _, by rw [Key.text, htext]; rfl, hc⟩

end Atomis.Toml
