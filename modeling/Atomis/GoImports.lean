import Atomis.Lib.GoSource
import Atomis.Lib.OpenFlag
import Atomis.TestNames
import Atomis.ZonManifest

/-!
# The imports of a direct Go build

`imports` of `go/direct.rs` looks for import paths line by line. What it finds is stated by the
lines it reads: those that begin with `import`, and those behind a line that begins with
`import (`, up to a line that begins with a closing parenthesis.
-/

namespace Atomis.GoImports
open Ndjson GoSource OpenFlag
open ZonManifest (lines secondPiece)
open TestRun (stripPrefix stripPrefix_eq_some)

abbrev Line := List Char

/-! ## The scanner -/

/-- What a trimmed line does to the block flag, and the text it may name a path in. -/
def readLine (inBlock : Bool) (line : Line) : Bool × Option (List Char) :=
  if inBlock then
    if line.head? = some ')' then (false, none) else (true, some line)
  else
    match stripPrefix importWord line with
    | none => (false, none)
    | some rest =>
      let rest := trim rest
      if rest.head? = some '(' then (true, some (trim (rest.dropWhile (· = '('))))
      else (false, some rest)

/-- The loop over the lines of a source; the set is the list of what was put in. -/
def scanLines (found : List (List Char)) (inBlock : Bool) : List Line → Option (List (List Char))
  | [] => some found
  | line :: lines =>
    match readLine inBlock (trim line) with
    | (inBlock, none) => scanLines found inBlock lines
    | (inBlock, some spec) =>
      match secondPiece '"' spec with
      | none => scanLines found inBlock lines
      | some path =>
        if path = ['C'] then none
        else scanLines (if path = [] then found else path :: found) inBlock lines

def scanSources (found : List (List Char)) : List (List Char) → Option (List (List Char))
  | [] => some found
  | source :: sources =>
    match scanLines found false (lines source) with
    | none => none
    | some found => scanSources found sources

def imports (sources : List (List Char)) : Option (List (List Char)) := scanSources [] sources

/-! ## The lines that are read -/

def Begins (line : Line) : Prop := importWord <+: trim line

/-- `import`, perhaps blanks, and an opening parenthesis. -/
def Opens (line : Line) : Prop :=
  ∃ rest, trim line = importWord ++ rest ∧ (trim rest).head? = some '('

def Closes (line : Line) : Prop := (trim line).head? = some ')'

/-- Behind these lines a block is open. -/
def InBlock (before : List Line) : Prop :=
  Since (fun _ => Opens) Closes before

/-- Behind these lines, this one is read. -/
def Reads (before : List Line) (line : Line) : Prop :=
  Begins line ∨ InBlock before ∧ ¬Closes line

/-- The text behind the first quote of a line, up to the next one or the end of the line. -/
def Quotes (line : Line) (path : List Char) : Prop :=
  ∃ before rest, trim line = before ++ '"' :: (path ++ rest) ∧ '"' ∉ before ∧ '"' ∉ path ∧
    (rest = [] ∨ rest.head? = some '"')

/-- A line that is read has this path as its first quoted text. -/
def Shown (text path : List Char) : Prop :=
  Later (fun before line => Reads before line ∧ Quotes line path) [] (lines text)

/-! ## One line -/

theorem secondPiece_iff {text path : List Char} :
    secondPiece '"' text = some path ↔ ∃ before rest, text = before ++ '"' :: (path ++ rest) ∧
      '"' ∉ before ∧ '"' ∉ path ∧ (rest = [] ∨ rest.head? = some '"') := by
  constructor
  · intro h
    rw [secondPiece] at h
    split at h
    · contradiction
    · next c rest hdrop =>
      obtain rfl := Option.some.inj h
      obtain rfl : c = '"' := by
        have hhead := List.head?_dropWhile_not (fun c => decide (c ≠ '"')) text
        rw [hdrop] at hhead
        simpa using hhead
      refine ⟨text.takeWhile (· ≠ '"'), rest.dropWhile (· ≠ '"'), ?_, ?_, ?_, ?_⟩
      · rw [List.takeWhile_append_dropWhile, ← hdrop, List.takeWhile_append_dropWhile]
      · exact fun hmem => by simpa using List.mem_takeWhile_imp hmem
      · exact fun hmem => by simpa using List.mem_takeWhile_imp hmem
      · have hhead := List.head?_dropWhile_not (fun c => decide (c ≠ '"')) rest
        cases hrest : rest.dropWhile (· ≠ '"') with
        | nil => exact Or.inl rfl
        | cons d behind =>
          rw [hrest] at hhead
          exact Or.inr (by simpa using hhead)
  · rintro ⟨before, rest, rfl, hbefore, hpath, hrest⟩
    have hall {front : List Char} (h : '"' ∉ front) : ∀ c ∈ front, decide (c ≠ '"') = true :=
      fun c hc => decide_eq_true fun heq => h (heq ▸ hc)
    have hdrop : (before ++ '"' :: (path ++ rest)).dropWhile (· ≠ '"') = '"' :: (path ++ rest) := by
      rw [List.dropWhile_append_of_pos (hall hbefore), List.dropWhile_cons_of_neg (by simp)]
    have htake : (path ++ rest).takeWhile (· ≠ '"') = path := by
      rw [List.takeWhile_append_of_pos (hall hpath)]
      rcases hrest with rfl | hrest
      · simp
      · obtain ⟨behind, rfl⟩ := List.head?_eq_some_iff.mp hrest
        rw [List.takeWhile_cons_of_neg (by simp), List.append_nil]
    rw [secondPiece, hdrop]
    exact congrArg some htake

theorem quotes_iff {line : Line} {path : List Char} :
    Quotes line path ↔ secondPiece '"' (trim line) = some path := secondPiece_iff.symm

theorem secondPiece_append {front : List Char} (h : '"' ∉ front) (text : List Char) :
    secondPiece '"' (front ++ text) = secondPiece '"' text := by
  have hall : ∀ c ∈ front, decide (c ≠ '"') = true := fun c hc =>
    decide_eq_true fun heq => h (heq ▸ hc)
  rw [secondPiece, secondPiece, List.dropWhile_append_of_pos hall]

/-- A text without blanks at its end. -/
def Ended (text : List Char) : Prop := text.rdropWhile isWhitespace = text

theorem ended_trim (line : Line) : Ended (trim line) := List.rdropWhile_idempotent _ _

theorem Ended.suffix {front text : List Char} (h : Ended (front ++ text)) : Ended text := by
  refine List.rdropWhile_eq_self_iff.mpr fun hne => ?_
  have hlast := List.rdropWhile_eq_self_iff.mp h (List.append_ne_nil_of_right_ne_nil front hne)
  rwa [List.getLast_append_of_ne_nil _ hne] at hlast

theorem Ended.trim_eq {text : List Char} (h : Ended text) :
    trim text = text.dropWhile isWhitespace := by
  rw [← List.takeWhile_append_dropWhile (p := isWhitespace) (l := text)] at h
  exact h.suffix

theorem secondPiece_trim {text : List Char} (h : Ended text) :
    secondPiece '"' (trim text) = secondPiece '"' text ∧ Ended (trim text) := by
  rw [h.trim_eq]
  have hsplit := List.takeWhile_append_dropWhile (p := isWhitespace) (l := text)
  have hblank : '"' ∉ text.takeWhile isWhitespace := fun hmem =>
    absurd (List.mem_takeWhile_imp hmem) (by decide)
  constructor
  · conv_rhs => rw [← hsplit]
    rw [secondPiece_append hblank]
  · rw [← hsplit] at h
    exact h.suffix

theorem secondPiece_parentheses {text : List Char} (h : Ended text) :
    secondPiece '"' (trim (text.dropWhile (· = '('))) = secondPiece '"' text := by
  have hsplit := List.takeWhile_append_dropWhile (p := fun c => decide (c = '(')) (l := text)
  have hopen : '"' ∉ text.takeWhile (· = '(') := fun hmem =>
    absurd (List.mem_takeWhile_imp hmem) (by decide)
  have hended : Ended (text.dropWhile (· = '(')) := by
    rw [← hsplit] at h
    exact h.suffix
  rw [(secondPiece_trim hended).1]
  conv_rhs => rw [← hsplit]
  rw [secondPiece_append hopen]

theorem not_closes_of_begins {line : Line} (h : Begins line) : ¬Closes line := by
  obtain ⟨rest, hrest⟩ := h
  rw [Closes, ← hrest]
  simp [importWord]

/-- What a line does to the block flag, and where it is read. -/
theorem readLine_spec (inBlock : Bool) (line : Line) :
    ((readLine inBlock (trim line)).1 = true ↔ Opens line ∨ inBlock = true ∧ ¬Closes line) ∧
      match (readLine inBlock (trim line)).2 with
      | none => ¬(Begins line ∨ inBlock = true ∧ ¬Closes line)
      | some spec => (Begins line ∨ inBlock = true ∧ ¬Closes line) ∧
        ∀ path, secondPiece '"' spec = some path ↔ Quotes line path := by
  have hopens (h : Opens line) : Begins line := by
    obtain ⟨rest, hrest, -⟩ := h
    exact ⟨rest, hrest.symm⟩
  rw [readLine]
  cases inBlock with
  | true =>
    rw [if_pos rfl]
    by_cases hcloses : (trim line).head? = some ')'
    · rw [if_pos hcloses]
      have hbegins : ¬Begins line := fun h => not_closes_of_begins h hcloses
      refine ⟨iff_of_false Bool.false_ne_true ?_, ?_⟩
      · rintro (h | ⟨-, h⟩)
        · exact hbegins (hopens h)
        · exact h hcloses
      · rintro (h | ⟨-, h⟩)
        · exact hbegins h
        · exact h hcloses
    · rw [if_neg hcloses]
      exact ⟨iff_of_true rfl (Or.inr ⟨rfl, hcloses⟩), Or.inr ⟨rfl, hcloses⟩,
        fun path => quotes_iff.symm⟩
  | false =>
    rw [if_neg Bool.false_ne_true]
    cases hstrip : stripPrefix importWord (trim line) with
    | none =>
      have hbegins : ¬Begins line := by
        rintro ⟨rest, hrest⟩
        rw [stripPrefix_eq_some.mpr hrest.symm] at hstrip
        contradiction
      refine ⟨iff_of_false Bool.false_ne_true ?_, ?_⟩
      · rintro (h | ⟨h, -⟩)
        · exact hbegins (hopens h)
        · contradiction
      · rintro (h | ⟨h, -⟩)
        · exact hbegins h
        · contradiction
    | some rest =>
      have hline := stripPrefix_eq_some.mp hstrip
      have hbegins : Begins line := ⟨rest, hline.symm⟩
      have hended := ended_trim line
      rw [hline] at hended
      have hword : '"' ∉ importWord := by decide
      obtain ⟨hpiece, hendedRest⟩ := secondPiece_trim hended.suffix
      have hquotes : ∀ path, secondPiece '"' rest = some path ↔ Quotes line path := fun path => by
        rw [quotes_iff, hline, secondPiece_append hword]
      simp only
      split_ifs with hopen
      · refine ⟨iff_of_true rfl (Or.inl ⟨rest, hline, hopen⟩), Or.inl hbegins, fun path => ?_⟩
        rw [secondPiece_parentheses hendedRest, hpiece, hquotes]
      · refine ⟨iff_of_false (by simp) ?_, Or.inl hbegins, fun path => ?_⟩
        · rintro (⟨rest', hline', hopen'⟩ | ⟨h, -⟩)
          · rw [List.append_cancel_left (hline.symm.trans hline')] at hopen
            exact hopen hopen'
          · contradiction
        · rw [hpiece, hquotes]

/-! ## All lines -/

theorem inBlock_append (before : List Line) (line : Line) :
    InBlock (before ++ [line]) ↔ Opens line ∨ InBlock before ∧ ¬Closes line := since_append

/-- A line of `after` that is read behind `before` has this path as its first quoted text. -/
def ShownIn (before after : List Line) (path : List Char) : Prop :=
  Later (fun before line => Reads before line ∧ Quotes line path) before after

theorem shownIn_cons {before after : List Line} {line : Line} {path : List Char} :
    ShownIn before (line :: after) path ↔
      Reads before line ∧ Quotes line path ∨ ShownIn (before ++ [line]) after path := later_cons

theorem shownIn_nil {before : List Line} {path : List Char} : ¬ShownIn before [] path :=
  not_later_nil

/-- What became of lines that show these paths. -/
def Scanned (found : List (List Char)) (shown : List Char → Prop) :
    Option (List (List Char)) → Prop
  | none => shown ['C']
  | some set => ¬shown ['C'] ∧ ∀ path, path ∈ set ↔ path ∈ found ∨ path ≠ [] ∧ shown path

theorem scanned_cons {found : List (List Char)} {shown : List Char → Prop} {path : List Char}
    {result : Option (List (List Char))} (hcgo : path ≠ ['C'])
    (h : Scanned (if path = [] then found else path :: found) shown result) :
    Scanned found (fun other => other = path ∨ shown other) result := by
  cases result with
  | none => exact Or.inr h
  | some set =>
    refine ⟨not_or.mpr ⟨hcgo.symm, h.1⟩, fun other => ?_⟩
    rw [h.2]
    by_cases hempty : path = []
    · rw [if_pos hempty]
      constructor
      · rintro (hfound | ⟨hne, hshown⟩)
        · exact Or.inl hfound
        · exact Or.inr ⟨hne, Or.inr hshown⟩
      · rintro (hfound | ⟨hne, heq | hshown⟩)
        · exact Or.inl hfound
        · exact absurd (heq.trans hempty) hne
        · exact Or.inr ⟨hne, hshown⟩
    · rw [if_neg hempty, List.mem_cons]
      constructor
      · rintro ((heq | hfound) | ⟨hne, hshown⟩)
        · exact Or.inr ⟨heq ▸ hempty, Or.inl heq⟩
        · exact Or.inl hfound
        · exact Or.inr ⟨hne, Or.inr hshown⟩
      · rintro (hfound | ⟨hne, heq | hshown⟩)
        · exact Or.inl (Or.inr hfound)
        · exact Or.inl (Or.inl heq)
        · exact Or.inr ⟨hne, hshown⟩

theorem scanLines_spec {before after : List Line} {found : List (List Char)} {inBlock : Bool}
    (hblock : inBlock = true ↔ InBlock before) :
    Scanned found (ShownIn before after) (scanLines found inBlock after) := by
  induction after generalizing before found inBlock with
  | nil => simp [scanLines, Scanned, shownIn_nil]
  | cons line after ih =>
    obtain ⟨hflag, hspec⟩ := readLine_spec inBlock line
    rw [hblock, ← inBlock_append] at hflag
    rw [scanLines]
    cases hread : readLine inBlock (trim line) with
    | mk next spec =>
      rw [hread] at hflag hspec
      have hrest : Scanned found (ShownIn (before ++ [line]) after) (scanLines found next after) :=
        ih hflag
      cases spec with
      | none =>
        simp only [hblock] at hspec
        have hskip : ShownIn before (line :: after) = ShownIn (before ++ [line]) after := by
          funext path
          rw [shownIn_cons]
          exact propext (or_iff_right fun h => hspec h.1)
        rw [hskip]
        exact hrest
      | some spec =>
        simp only [hblock] at hspec
        obtain ⟨hreads, hquotes⟩ := hspec
        simp only
        cases hpiece : secondPiece '"' spec with
        | none =>
          have hskip : ShownIn before (line :: after) = ShownIn (before ++ [line]) after := by
            funext path
            rw [shownIn_cons]
            refine propext (or_iff_right fun h => ?_)
            rw [← hquotes, hpiece] at h
            exact absurd h.2 (by simp)
          rw [hskip]
          exact hrest
        | some path =>
          have hfirst : ShownIn before (line :: after) =
              fun other => other = path ∨ ShownIn (before ++ [line]) after other := by
            funext other
            rw [shownIn_cons, and_iff_right (show Reads before line from hreads), ← hquotes, hpiece,
              Option.some.injEq, eq_comm (a := path)]
          rw [hfirst]
          by_cases hcgo : path = ['C']
          · simp only [if_pos hcgo]
            exact Or.inl hcgo.symm
          · simp only [if_neg hcgo]
            exact scanned_cons hcgo (ih hflag)

theorem scanned_append {found : List (List Char)} {shown shown' : List Char → Prop}
    {set : List (List Char)} {result : Option (List (List Char))}
    (hset : Scanned found shown (some set)) (h : Scanned set shown' result) :
    Scanned found (fun path => shown path ∨ shown' path) result := by
  cases result with
  | none => exact Or.inr h
  | some set' =>
    refine ⟨not_or.mpr ⟨hset.1, h.1⟩, fun path => ?_⟩
    rw [h.2, hset.2, or_assoc, ← and_or_left]

theorem scanSources_spec (found : List (List Char)) (sources : List (List Char)) :
    Scanned found (fun path => ∃ source ∈ sources, Shown source path) (scanSources found sources) := by
  induction sources generalizing found with
  | nil => simp [scanSources, Scanned]
  | cons source sources ih =>
    have hsource : Scanned found (Shown source) (scanLines found false (lines source)) :=
      scanLines_spec (iff_of_false Bool.false_ne_true not_since_nil)
    have hshown : (fun path => ∃ other ∈ source :: sources, Shown other path) =
        fun path => Shown source path ∨ ∃ other ∈ sources, Shown other path := by
      funext path
      simp
    rw [scanSources, hshown]
    cases hscan : scanLines found false (lines source) with
    | none =>
      rw [hscan] at hsource
      exact Or.inl hsource
    | some set =>
      rw [hscan] at hsource
      exact scanned_append hsource (ih set)

/-! ## The imports of Go files -/

/-- The set has every import of the files, or there is none because of cgo. -/
def Complete (files : List File) : Prop :=
  (imports (files.map File.text) = none → ∃ file ∈ files, ['C'] ∈ file.paths) ∧
    ∀ found, imports (files.map File.text) = some found →
      ∀ file ∈ files, ∀ path ∈ file.paths, path ∈ found

/-- Some line of the files that is read shows this path. -/
def ShownBy (files : List File) (path : List Char) : Prop := ∃ file ∈ files, Shown file.text path

/-- `"C"` is shown only when it is imported, and otherwise every import path is shown. -/
structure Legible (files : List File) : Prop where
  cgo : ShownBy files ['C'] → ∃ file ∈ files, ['C'] ∈ file.paths
  paths : ¬ShownBy files ['C'] → ∀ file ∈ files, ∀ path ∈ file.paths, ShownBy files path

theorem imports_spec (files : List File) :
    Scanned [] (ShownBy files) (imports (files.map File.text)) := by
  have hshown : (fun path => ∃ source ∈ files.map File.text, Shown source path) = ShownBy files := by
    funext path
    simp [ShownBy]
  rw [← hshown]
  exact scanSources_spec [] (files.map File.text)

section Concrete

def blankLine : Gap := [.newline, .newline]

/-- The blank name and a blank. -/
def blankName : Alias := .name ['_'] (by decide) ⟨[.blank ' ' (by decide)], by decide⟩

/-- `package main`, one import for its effects, and a body. -/
def oneImport (literal : Literal) (path : List Char)
    (spells : literal.bytes = path.flatMap String.utf8EncodeChar) (ne_nil : path ≠ [])
    (body : List Char) (valid : body.head?.all isNameStart = true ∧ ¬ importWord <+: body) : File where
  mark := false
  head := []
  gap := [.blank ' ' (by decide)]
  apart := by simp
  package := "main".toList
  valid := by decide
  stop := .newline blankLine (by decide)
  imports := [(.single [.blank ' ' (by decide)] ⟨some blankName, literal, path, spells, ne_nil⟩
    (by simp), .newline blankLine (by decide))]
  rest := .other body valid

def mainBody : List Char := "func main() \x7b\x7d\n".toList

def rawImport : File :=
  oneImport (.raw "fmt".toList (by decide)) "fmt".toList (by decide) (by decide) mainBody (by decide)

example : rawImport.text = "package main\n\nimport _ `fmt`\n\nfunc main() \x7b\x7d\n".toList := by
  decide

end Concrete

end Atomis.GoImports
