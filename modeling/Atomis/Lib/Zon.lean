import Mathlib.Data.List.Induction
import Mathlib.Tactic.Common

/-!
# Zig object notation

Texts of the notation with their layout: between any two tokens stands a gap, which is any run
of blanks and line comments. A block is a struct or a tuple. What a block holds is a parameter,
so that the outer levels of a text can be given as data and the values inside them as texts.
-/

namespace Atomis.Zon

inductive Piece
  | blank (c : Char) (valid : c ∈ [' ', '\t', '\n', '\r'])
  | comment (line : List Char) (valid : '\n' ∉ line)

def Piece.text : Piece → List Char
  | blank c _ => [c]
  | comment line _ => '/' :: '/' :: line ++ ['\n']

abbrev Gap := List Piece

def Gap.text (gap : Gap) : List Char := gap.flatMap Piece.text

def isWordStart (c : Char) : Bool := c.isAlpha || c = '_'

def isWordPart (c : Char) : Bool := c.isAlphanum || c = '_'

/-- What stands between the quotes of a string. -/
def isStringBody : List Char → Bool
  | [] => true
  | '\\' :: c :: body => c ≠ '\n' && isStringBody body
  | c :: body => c ≠ '"' && c ≠ '\\' && c ≠ '\n' && isStringBody body

/-- A name is taken as it is spelled: a word, or any string after `@`. -/
def isName : List Char → Bool
  | '@' :: '"' :: rest => rest.getLast? = some '"' && isStringBody rest.dropLast
  | c :: rest => isWordStart c && rest.all isWordPart
  | [] => false

structure Name where
  spelling : List Char
  valid : isName spelling
deriving DecidableEq

/-- A line of a string over several lines, which is indented by blanks. -/
structure StringLine where
  indent : List Char
  blank : ∀ c ∈ indent, c ∈ [' ', '\t', '\r', '\n']
  line : List Char
  whole : '\n' ∉ line

def StringLine.text (line : StringLine) : List Char :=
  line.indent ++ '\\' :: '\\' :: line.line ++ ['\n']

/-- The values without parts. -/
inductive Scalar : List Char → Prop
  | string {body : List Char} : isStringBody body → Scalar ('"' :: body ++ ['"'])
  | lines (first : List Char) (more : List StringLine) : '\n' ∉ first →
      Scalar ('\\' :: '\\' :: first ++ '\n' :: more.flatMap StringLine.text)
  | character {body : List Char} : body ≠ [] → '\n' ∉ body → Scalar ('\'' :: body ++ ['\''])
  | number {text : List Char} : text ≠ [] →
      (∀ c ∈ text, c.isAlphanum ∨ c ∈ ['.', '_', '-', '+']) → Scalar text
  | literal (gap : Gap) (name : Name) : Scalar ('.' :: gap.text ++ name.spelling)

/-- A field of a struct: `.name = value`, the commas aside. -/
structure FieldInit (V : Type) where
  before : Gap
  dot : Gap
  name : Name
  left : Gap
  right : Gap
  value : V
  after : Gap

structure Block (I : Type) where
  dot : Gap
  items : List I
  comma : Bool
  close : Gap

variable {V I : Type}

def FieldInit.text (value : V → List Char) (f : FieldInit V) : List Char :=
  f.before.text ++ '.' :: f.dot.text ++ f.name.spelling ++ f.left.text ++ '=' ::
    f.right.text ++ value f.value ++ f.after.text

/-- The items of a block and the commas between them, and after the last one. -/
def itemsText (item : I → List Char) (comma : Bool) : List I → List Char
  | [] => []
  | [last] => item last ++ if comma then [','] else []
  | first :: second :: items => item first ++ ',' :: itemsText item comma (second :: items)

def Block.text (item : I → List Char) (block : Block I) : List Char :=
  '.' :: block.dot.text ++ '{' :: itemsText item block.comma block.items ++
    block.close.text ++ ['}']

/-- What follows the first item of a block. -/
def followersText (item : I → List Char) (comma : Bool) : List I → List Char
  | [] => if comma then [','] else []
  | items => ',' :: itemsText item comma items

/-- A field from its dot to the end of its value. -/
def FieldInit.core (value : V → List Char) (f : FieldInit V) : List Char :=
  '.' :: f.dot.text ++ f.name.spelling ++ f.left.text ++ '=' :: f.right.text ++ value f.value

theorem Gap.text_append (left right : Gap) : (left ++ right).text = left.text ++ right.text :=
  List.flatMap_append

theorem FieldInit.text_core (value : V → List Char) (f : FieldInit V) :
    f.text value = f.before.text ++ f.core value ++ f.after.text := by
  simp [FieldInit.text, FieldInit.core]

theorem itemsText_cons (item : I → List Char) (comma : Bool) (first : I) (items : List I) :
    itemsText item comma (first :: items) = item first ++ followersText item comma items := by
  cases items <;> rfl

theorem itemsText_append (item : I → List Char) (comma : Bool) (items : List I) (first : I)
    (more : List I) :
    itemsText item comma (items ++ first :: more) =
      items.flatMap (item · ++ [',']) ++ itemsText item comma (first :: more) := by
  induction items with
  | nil => rfl
  | cons head items ih =>
    rw [List.cons_append, itemsText_cons, List.flatMap_cons]
    have hmore : followersText item comma (items ++ first :: more) =
        ',' :: itemsText item comma (items ++ first :: more) := by
      cases items <;> rfl
    rw [hmore, ih]
    simp

theorem itemsText_comma (item : I → List Char) (items : List I) :
    itemsText item true items = items.flatMap (item · ++ [',']) := by
  cases items using List.reverseRecOn with
  | nil => rfl
  | append_singleton items last => simp [itemsText_append, itemsText]

/-- An item of a block whose value is a text. -/
inductive Part
  | element (before : Gap) (value : List Char) (after : Gap)
  | field (f : FieldInit (List Char))

def Part.value : Part → List Char
  | element _ value _ => value
  | field f => f.value

def Part.text : Part → List Char
  | element before value after => before.text ++ value ++ after.text
  | field f => f.text id

inductive IsValue : List Char → Prop
  | scalar {text : List Char} : Scalar text → IsValue text
  | block (b : Block Part) : (∀ part ∈ b.items, IsValue part.value) → IsValue (b.text Part.text)

structure Value where
  text : List Char
  valid : IsValue text

end Atomis.Zon
