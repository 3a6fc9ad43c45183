import Atomis.CargoManifest

/-!
# Dependencies in the Python manifest

`parse_pyproject` of `deps.rs` reads the array `dependencies` of the section `[project]` line by
line. What it lists is stated by the lines it reads and by the pieces of them that it takes for
requirements.
-/

namespace Atomis.Pyproject
open Ndjson OpenFlag Toml
open ZonManifest (lines Dependency)
open TestRun (stripPrefix stripPrefix_eq_some)
open CargoManifest (trimMatches isBracket IsHeader)

abbrev Line := List Char

abbrev Piece := List Char

/-! ## The reader -/

/-- The characters that end the name of a requirement. -/
def delimiters : List Char := "<>=!~[ ".toList

/-- A requirement without the comma and the quotes around it. -/
def bare (raw : Piece) : List Char :=
  trim (trimMatches (· = '"') ((trim raw).rdropWhile (· = ',')))

def parseRequirement (raw : Piece) : Option Dependency :=
  let requirement := bare raw
  if requirement = [] ∨ requirement.head? = some '#' then none
  else
    let name := requirement.takeWhile (· ∉ delimiters)
    if name = [] then none
    else some ⟨name, trim (requirement.dropWhile (· ∉ delimiters))⟩

def projectHeader : List Char := "[project]".toList

def dependenciesWord : List Char := "dependencies".toList

/-- What stands behind the key and the equals sign. -/
def listText (rest : List Char) : List Char :=
  trim (rest.dropWhile fun c => c = ' ' || c = '=')

structure Flags where
  inProject : Bool := false
  inList : Bool := false

/-- What a trimmed line does to the flags, and the pieces of it that are parsed. -/
def Flags.next (flags : Flags) (line : Line) : Flags × List Piece :=
  if line.head? = some '[' then (⟨line = projectHeader, false⟩, [])
  else if !flags.inProject then (flags, [])
  else
    match stripPrefix dependenciesWord line with
    | some rest =>
      let rest := listText rest
      ({ flags with inList := rest.getLast? ≠ some ']' }, (trimMatches isBracket rest).splitOn ',')
    | none =>
      if flags.inList then
        if line.head? = some ']' then ({ flags with inList := false }, []) else (flags, [line])
      else (flags, [])

/-- The loop of `parsePyproject`. -/
def scan (flags : Flags) : List Line → List Dependency
  | [] => []
  | line :: lines =>
    let (flags, pieces) := flags.next (trim line)
    pieces.filterMap parseRequirement ++ scan flags lines

def parsePyproject (text : List Char) : List Dependency := scan {} (lines text)

/-! ## The lines that are read -/

def Begins (line : Line) : Prop := dependenciesWord <+: trim line

def Closes (line : Line) : Prop := (trim line).head? = some ']'

/-- What stands behind the key in a line that begins with it. -/
def valueText (line : Line) : List Char := listText ((trim line).drop dependenciesWord.length)

/-- Behind these lines, `[project]` was the last header. -/
def InProject (before : List Line) : Prop :=
  Since (fun _ line => trim line = projectHeader) IsHeader before

/-- A line with the key that does not end in a bracket. -/
def Opens (before : List Line) (line : Line) : Prop :=
  InProject before ∧ Begins line ∧ (valueText line).getLast? ≠ some ']'

def Stops (line : Line) : Prop := IsHeader line ∨ Begins line ∨ Closes line

/-- Behind these lines, the array is open. -/
def InList (before : List Line) : Prop := Since Opens Stops before

/-- The pieces of a line that are parsed: between the commas behind the key, or the whole line in
an array that is open. -/
inductive Shows (before : List Line) (line : Line) : List Piece → Prop
  | key : InProject before → Begins line →
      Shows before line ((trimMatches isBracket (valueText line)).splitOn ',')
  | item : InList before → ¬Stops line → Shows before line [trim line]
  | nothing : ¬(InProject before ∧ Begins line) → ¬(InList before ∧ ¬Stops line) →
      Shows before line []

/-- A piece that begins like a requirement of this name. -/
def Names (piece : Piece) (name : List Char) : Prop :=
  name ≠ [] ∧ name.head? ≠ some '#' ∧ (∀ c ∈ name, c ∉ delimiters) ∧
    ∃ rest, bare piece = name ++ rest ∧ ∀ c ∈ rest.head?, c ∈ delimiters

/-- A comment, or nothing in front of the first delimiter. -/
def IsNothing (piece : Piece) : Prop := ∀ c ∈ (bare piece).head?, c = '#' ∨ c ∈ delimiters

/-- The pieces that are anything begin with these names, in order. -/
inductive Listed : List Piece → List (List Char) → Prop
  | nil : Listed [] []
  | skip {piece : Piece} {pieces : List Piece} {names : List (List Char)} :
      IsNothing piece → Listed pieces names → Listed (piece :: pieces) names
  | name {piece : Piece} {name : List Char} {pieces : List Piece} {names : List (List Char)} :
      Names piece name → Listed pieces names → Listed (piece :: pieces) (name :: names)

/-- The pieces of the lines of `after` begin with these names, in order. -/
inductive Spelled : List Line → List Line → List (List Char) → Prop
  | nil {before : List Line} : Spelled before [] []
  | line {before after : List Line} {line : Line} {pieces : List Piece}
      {names more : List (List Char)} : Shows before line pieces → Listed pieces names →
      Spelled (before ++ [line]) after more → Spelled before (line :: after) (names ++ more)

/-! ## One piece -/

theorem head?_dropWhile_delimiter (text : List Char) :
    ∀ c ∈ (text.dropWhile (· ∉ delimiters)).head?, c ∈ delimiters := by
  intro c hc
  have hhead := List.head?_dropWhile_not (fun c => decide (c ∉ delimiters)) text
  rw [Option.mem_def.mp hc] at hhead
  simpa using hhead

theorem parseRequirement_of_nothing {piece : Piece} (h : IsNothing piece) :
    parseRequirement piece = none := by
  rw [parseRequirement]
  cases hbare : bare piece with
  | nil => rfl
  | cons c rest =>
    have hc := h c (by rw [hbare]; rfl)
    rcases hc with rfl | hc
    · rfl
    · have htake : (c :: rest).takeWhile (· ∉ delimiters) = [] :=
        List.takeWhile_cons_of_neg (by simpa using hc)
      simp only [htake, if_true, ite_self]

theorem parseRequirement_of_names {piece : Piece} {name : List Char} (h : Names piece name) :
    ∃ version, parseRequirement piece = some ⟨name, version⟩ := by
  obtain ⟨hne, hhash, hname, rest, hbare, hrest⟩ := h
  have hhead : (bare piece).head? = name.head? := by
    rw [hbare]
    exact List.head?_append_of_ne_nil _ hne
  have htake : (bare piece).takeWhile (· ∉ delimiters) = name := by
    rw [hbare, List.takeWhile_append_of_pos (fun c hc => decide_eq_true (hname c hc))]
    cases rest with
    | nil => exact List.append_nil name
    | cons c rest =>
      rw [List.takeWhile_cons_of_neg (by simpa using hrest c rfl), List.append_nil]
  refine ⟨trim ((bare piece).dropWhile (· ∉ delimiters)), ?_⟩
  rw [parseRequirement]
  simp only [htake, if_neg hne]
  rw [if_neg]
  rintro (hnil | hcomment)
  · rw [hnil] at htake
    exact hne htake.symm
  · exact hhash (hhead.symm.trans hcomment)

theorem nothing_or_names (piece : Piece) : IsNothing piece ∨ ∃ name, Names piece name := by
  by_cases h : IsNothing piece
  · exact Or.inl h
  · obtain ⟨c, hc, hchar⟩ : ∃ c ∈ (bare piece).head?, ¬(c = '#' ∨ c ∈ delimiters) := by
      simpa [IsNothing] using h
    obtain ⟨hhash, hdelimiter⟩ := not_or.mp hchar
    obtain ⟨rest, hrest⟩ := List.head?_eq_some_iff.mp hc
    have htake : (bare piece).takeWhile (· ∉ delimiters) =
        c :: rest.takeWhile (· ∉ delimiters) := by
      rw [hrest]
      exact List.takeWhile_cons_of_pos (by simpa using hdelimiter)
    refine Or.inr ⟨(bare piece).takeWhile (· ∉ delimiters), ?_, ?_, ?_,
      (bare piece).dropWhile (· ∉ delimiters), ?_, head?_dropWhile_delimiter _⟩
    · rw [htake]
      exact List.cons_ne_nil _ _
    · rw [htake]
      simpa using hhash
    · exact fun d hd => by simpa using List.mem_takeWhile_imp hd
    · exact List.takeWhile_append_dropWhile.symm

/-- The names of what is listed. -/
def namesOf (found : List Dependency) : List (List Char) := found.map (·.name)

theorem listed_iff {pieces : List Piece} {names : List (List Char)} :
    Listed pieces names ↔ namesOf (pieces.filterMap parseRequirement) = names := by
  constructor
  · intro h
    induction h with
    | nil => rfl
    | skip hnothing _ ih => rwa [List.filterMap_cons, parseRequirement_of_nothing hnothing]
    | name hnames _ ih =>
      obtain ⟨version, hversion⟩ := parseRequirement_of_names hnames
      rw [List.filterMap_cons, hversion, ← ih]
      rfl
  · rintro rfl
    induction pieces with
    | nil => exact .nil
    | cons piece pieces ih =>
      rcases nothing_or_names piece with hnothing | ⟨name, hnames⟩
      · rw [List.filterMap_cons, parseRequirement_of_nothing hnothing]
        exact .skip hnothing ih
      · obtain ⟨version, hversion⟩ := parseRequirement_of_names hnames
        rw [List.filterMap_cons, hversion]
        exact .name hnames ih

/-! ## All lines -/

section Lines

variable {before after : List Line} {line : Line} {flags : Flags} {pieces : List Piece}
  {names : List (List Char)}

theorem not_isHeader_of_begins (h : Begins line) : ¬IsHeader line := by
  obtain ⟨rest, hrest⟩ := h
  have hhead : (trim line).head? = some 'd' := by
    rw [← hrest]
    rfl
  intro hheader
  rw [IsHeader, hhead] at hheader
  cases hheader

theorem InList.inProject (h : InList before) : InProject before := by
  obtain ⟨front, opener, behind, rfl, ⟨hproject, hbegins, -⟩, hbehind⟩ := h
  obtain ⟨above, header, between, rfl, hheader, hbetween⟩ := hproject
  refine ⟨above, header, between ++ opener :: behind, by simp, hheader, fun l hl => ?_⟩
  rcases List.mem_append.mp hl with hl | hl
  · exact hbetween l hl
  · rcases List.mem_cons.mp hl with rfl | hl
    · exact not_isHeader_of_begins hbegins
    · exact fun hl' => hbehind l hl (Or.inl hl')

theorem Shows.unique {other : List Piece} (h : Shows before line pieces)
    (h' : Shows before line other) : pieces = other := by
  cases h with
  | key hproject hbegins =>
    cases h' with
    | key => rfl
    | item _ hstops => exact absurd (Or.inr (Or.inl hbegins)) hstops
    | nothing hkey _ => exact absurd ⟨hproject, hbegins⟩ hkey
  | item hlist hstops =>
    cases h' with
    | key _ hbegins => exact absurd (Or.inr (Or.inl hbegins)) hstops
    | item => rfl
    | nothing _ hitem => exact absurd ⟨hlist, hstops⟩ hitem
  | nothing hkey hitem =>
    cases h' with
    | key hproject hbegins => exact absurd ⟨hproject, hbegins⟩ hkey
    | item hlist hstops => exact absurd ⟨hlist, hstops⟩ hitem
    | nothing => rfl

/-- The flags say what is open behind these lines. -/
structure Flags.Tell (flags : Flags) (before : List Line) : Prop where
  project : flags.inProject = true ↔ InProject before
  list : flags.inList = true ↔ InList before

theorem inProject_append : InProject (before ++ [line]) ↔
    trim line = projectHeader ∨ InProject before ∧ ¬IsHeader line := since_append

theorem inList_append : InList (before ++ [line]) ↔
    Opens before line ∨ InList before ∧ ¬Stops line := since_append

theorem inProject_append_of_not_header (hheader : ¬IsHeader line) :
    InProject (before ++ [line]) ↔ InProject before := by
  have hplain : trim line ≠ projectHeader := fun heq => hheader (by rw [IsHeader, heq]; rfl)
  rw [inProject_append]
  simp [hplain, hheader]

theorem next_header (flags : Flags) (hheader : IsHeader line) :
    (flags.next (trim line)).1.Tell (before ++ [line]) ∧
      Shows before line (flags.next (trim line)).2 := by
  have hbegins : ¬Begins line := fun hbegins => not_isHeader_of_begins hbegins hheader
  rw [Flags.next, if_pos (show (trim line).head? = some '[' from hheader)]
  refine ⟨⟨?_, ?_⟩, .nothing (fun hkey => hbegins hkey.2) fun hitem => hitem.2 (Or.inl hheader)⟩
  · rw [inProject_append]
    simp [hheader]
  · rw [inList_append]
    simp [Opens, hbegins, Stops, hheader]

theorem next_outside (h : flags.Tell before) (hheader : ¬IsHeader line)
    (hout : ¬InProject before) :
    (flags.next (trim line)).1.Tell (before ++ [line]) ∧
      Shows before line (flags.next (trim line)).2 := by
  have hnone : ¬InList before := fun hlist => hout hlist.inProject
  have hflag : flags.inProject = false := Bool.eq_false_iff.mpr fun hin => hout (h.project.mp hin)
  rw [Flags.next, if_neg (show ¬(trim line).head? = some '[' from hheader), if_pos (by simp [hflag])]
  refine ⟨⟨?_, ?_⟩, .nothing (fun hkey => hout hkey.1) fun hitem => hnone hitem.1⟩
  · rw [inProject_append_of_not_header hheader]
    exact h.project
  · rw [inList_append]
    simpa [Opens, hout, hnone] using h.list

theorem next_key (h : flags.Tell before) (hbegins : Begins line) (hin : InProject before) :
    (flags.next (trim line)).1.Tell (before ++ [line]) ∧
      Shows before line (flags.next (trim line)).2 := by
  have hheader := not_isHeader_of_begins hbegins
  obtain ⟨rest, hrest⟩ := hbegins
  have hvalue : valueText line = listText rest := by
    rw [valueText, ← hrest, List.drop_left]
  have hflag : flags.inProject = true := h.project.mpr hin
  rw [Flags.next, if_neg (show ¬(trim line).head? = some '[' from hheader), if_neg (by simp [hflag]),
    stripPrefix_eq_some.mpr hrest.symm]
  refine ⟨⟨?_, ?_⟩, ?_⟩
  · rw [inProject_append_of_not_header hheader]
    exact h.project
  · have hstops : Stops line := Or.inr (Or.inl ⟨rest, hrest⟩)
    rw [inList_append, Opens, hvalue]
    simp [hin, hstops, show Begins line from ⟨rest, hrest⟩]
  · have hshows := Shows.key hin (show Begins line from ⟨rest, hrest⟩)
    rwa [hvalue] at hshows

theorem next_item (h : flags.Tell before) (hheader : ¬IsHeader line) (hbegins : ¬Begins line)
    (hin : InProject before) :
    (flags.next (trim line)).1.Tell (before ++ [line]) ∧
      Shows before line (flags.next (trim line)).2 := by
  have hstrip : stripPrefix dependenciesWord (trim line) = none := by
    refine Option.eq_none_iff_forall_ne_some.mpr fun rest hrest => hbegins ⟨rest, ?_⟩
    exact (stripPrefix_eq_some.mp hrest).symm
  have hstays : InList (before ++ [line]) ↔ InList before ∧ ¬Closes line := by
    rw [inList_append]
    simp [Opens, Stops, hheader, hbegins]
  have hflag : flags.inProject = true := h.project.mpr hin
  rw [Flags.next, if_neg (show ¬(trim line).head? = some '[' from hheader), if_neg (by simp [hflag]),
    hstrip]
  simp only
  split_ifs with hlist hcloses
  · refine ⟨⟨?_, ?_⟩, .nothing (fun hkey => hbegins hkey.2) fun hitem => ?_⟩
    · rw [inProject_append_of_not_header hheader]
      exact h.project
    · rw [hstays]
      exact iff_of_false Bool.false_ne_true fun hopen => hopen.2 hcloses
    · exact hitem.2 (Or.inr (Or.inr hcloses))
  · have hopen := h.list.mp hlist
    refine ⟨⟨?_, ?_⟩, .item hopen ?_⟩
    · rw [inProject_append_of_not_header hheader]
      exact h.project
    · rw [hstays]
      exact iff_of_true hlist ⟨hopen, hcloses⟩
    · exact not_or.mpr ⟨hheader, not_or.mpr ⟨hbegins, hcloses⟩⟩
  · have hnone : ¬InList before := fun hopen => hlist (h.list.mpr hopen)
    refine ⟨⟨?_, ?_⟩, .nothing (fun hkey => hbegins hkey.2) fun hitem => hnone hitem.1⟩
    · rw [inProject_append_of_not_header hheader]
      exact h.project
    · rw [hstays]
      exact iff_of_false hlist fun hopen => hnone hopen.1

theorem next_spec (h : flags.Tell before) (line : Line) :
    (flags.next (trim line)).1.Tell (before ++ [line]) ∧
      Shows before line (flags.next (trim line)).2 := by
  by_cases hheader : IsHeader line
  · exact next_header flags hheader
  · by_cases hin : InProject before
    · by_cases hbegins : Begins line
      · exact next_key h hbegins hin
      · exact next_item h hheader hbegins hin
    · exact next_outside h hheader hin

theorem namesOf_append (found more : List Dependency) :
    namesOf (found ++ more) = namesOf found ++ namesOf more := List.map_append

theorem spelled_scan (h : flags.Tell before) : Spelled before after (namesOf (scan flags after)) := by
  induction after generalizing before flags with
  | nil => exact .nil
  | cons line after ih =>
    obtain ⟨hnext, hshows⟩ := next_spec h line
    rw [scan, namesOf_append]
    exact .line hshows (listed_iff.mpr rfl) (ih hnext)

theorem spelled_iff (h : flags.Tell before) :
    Spelled before after names ↔ namesOf (scan flags after) = names := by
  constructor
  · intro hspelled
    induction hspelled generalizing flags with
    | nil => rfl
    | line hshows hlisted _ ih =>
      obtain ⟨hnext, hread⟩ := next_spec h _
      rw [scan, namesOf_append, ih hnext, hread.unique hshows, listed_iff.mp hlisted]
  · rintro rfl
    exact spelled_scan h

theorem tell_nil : ({} : Flags).Tell [] :=
  ⟨iff_of_false Bool.false_ne_true not_since_nil, iff_of_false Bool.false_ne_true not_since_nil⟩

end Lines

/-! ## Requirements -/

def isIdentifierPart (c : Char) : Bool := c.isAlphanum || ['-', '_', '.'].contains c

structure Identifier where
  text : List Char
  valid : text.all isIdentifierPart
  first : ∃ c ∈ text.head?, c.isAlphanum
  last : ∃ c ∈ text.getLast?, c.isAlphanum

/-- Names in brackets and the commas between them. -/
structure Extras where
  before : Blanks
  names : Option (Identifier × Blanks × List (Blanks × Identifier × Blanks))

def Extras.text (extras : Extras) : List Char :=
  '[' :: extras.before.text ++
    ((extras.names.map fun (first, after, more) => first.text ++ after.text ++
      more.flatMap fun (before, next, after) =>
        ',' :: before.text ++ next.text ++ after.text).getD []) ++ [']']

def comparisons : List (List Char) :=
  ["<=", "<", "!=", "==", ">=", ">", "~=", "==="].map String.toList

def isVersionPart (c : Char) : Bool :=
  c.isAlphanum || ['-', '_', '.', '*', '+', '!'].contains c

structure Clause where
  before : Blanks
  comparison : List Char
  known : comparison ∈ comparisons
  gap : Blanks
  version : List Char
  valid : version ≠ [] ∧ version.all isVersionPart

def Clause.text (clause : Clause) : List Char :=
  clause.before.text ++ clause.comparison ++ clause.gap.text ++ clause.version

/-- Which versions a requirement allows. -/
structure Versions where
  first : Clause
  more : List (Blanks × Clause)

def Versions.text (allowed : Versions) : List Char :=
  allowed.first.text ++ allowed.more.flatMap fun (before, clause) =>
    before.text ++ ',' :: clause.text

inductive Source
  | any
  | versions (allowed : Versions)
  | parenthesised (allowed : Versions) (close : Blanks)
  | url (gap : Blanks) (reference : List Char) (valid : reference ≠ [] ∧ ' ' ∉ reference)

def Source.text : Source → List Char
  | any => []
  | versions allowed => allowed.text
  | parenthesised allowed close => '(' :: allowed.text ++ close.text ++ [')']
  | url gap reference _ => '@' :: gap.text ++ reference

/-- What stands behind the name of a requirement, which may end in a marker. -/
structure Details where
  beforeExtras : Blanks
  extras : Option Extras
  beforeSource : Blanks
  source : Source
  beforeMarker : Blanks
  marker : Option (List Char)
  after : Blanks

def Details.text (details : Details) : List Char :=
  details.beforeExtras.text ++ ((details.extras.map Extras.text).getD []) ++
    details.beforeSource.text ++ details.source.text ++ details.beforeMarker.text ++
    ((details.marker.map fun marker => ';' :: marker).getD []) ++ details.after.text

structure Requirement where
  before : Blanks
  name : Identifier
  details : Details

def Requirement.text (requirement : Requirement) : List Char :=
  requirement.before.text ++ requirement.name.text ++ requirement.details.text

/-! ## The array -/

def itemString : Value → Option (List Char)
  | .string literal => some literal.value
  | _ => none

/-- The strings of an array, if it has nothing else. -/
def itemStrings : Items → Option (List (List Char))
  | .close _ => some []
  | .last _ value _ => (itemString value).map ([·])
  | .cons _ value _ items =>
    (itemString value).bind fun first => (itemStrings items).map (first :: ·)

def arrayStrings : Value → Option (List (List Char))
  | .array items => itemStrings items
  | _ => none

def arrayPath : Path := ["project".toList, dependenciesWord]

/-- A manifest whose array holds these requirements. -/
structure Manifest where
  document : Document
  requirements : List Requirement
  spells : (document.assignments.filter (·.1 = arrayPath)).map (arrayStrings ·.2) =
    [some (requirements.map Requirement.text)]

def Manifest.names (p : Manifest) : List (List Char) := p.requirements.map (·.name.text)

/-- Each requirement is listed once, in order, by its name, and nothing else is. -/
def Exact (p : Manifest) : Prop := namesOf (parsePyproject p.document.text) = p.names

/-- The pieces that are read begin with the names of the requirements, in order. -/
def Legible (p : Manifest) : Prop := Spelled [] (lines p.document.text) p.names

/-- A line that begins with a quoted name, and a line end or a delimiter behind it. -/
def IsItem (line : Line) (name : List Char) : Prop :=
  ∃ rest, trim line = '"' :: (name ++ rest) ∧ name ≠ [] ∧ (∀ c ∈ name, isIdentifierPart c) ∧
    (rest = ['"'] ∨ rest = ['"', ','] ∨ ∃ c ∈ rest.head?, c ∈ delimiters)

/-- A blank line or a comment. -/
def IsAside (line : Line) : Prop := trim line = [] ∨ (trim line).head? = some '#'

inductive ItemLines : List Line → List (List Char) → Prop
  | nil : ItemLines [] []
  | aside {line : Line} {items : List Line} {names : List (List Char)} :
      IsAside line → ItemLines items names → ItemLines (line :: items) names
  | item {line : Line} {items : List Line} {name : List Char} {names : List (List Char)} :
      IsItem line name → ItemLines items names → ItemLines (line :: items) (name :: names)

/-- One requirement on each line of the array, and the key on no other line. -/
inductive Layout : List Line → List (List Char) → Prop
  | array {front between items behind : List Line} {header opener closer : Line}
      {names : List (List Char)} : trim header = projectHeader →
      trim opener = "dependencies = [".toList → Closes closer →
      (∀ line ∈ between, ¬IsHeader line) → (∀ line ∈ front ++ between ++ behind, ¬Begins line) →
      ItemLines items names →
      Layout (front ++ header :: between ++ opener :: items ++ closer :: behind) names

section Layout

variable {before left right items : List Line} {line : Line} {names more : List (List Char)}
  {name : List Char}

theorem Spelled.append (h : Spelled before left names) (h' : Spelled (before ++ left) right more) :
    Spelled before (left ++ right) (names ++ more) := by
  induction h with
  | nil => rwa [List.append_nil] at h'
  | line hshows hlisted _ ih =>
    rw [List.append_assoc]
    refine .line hshows hlisted (ih ?_)
    rwa [List.append_assoc]

/-- Outside the array, lines without the key show nothing. -/
theorem spelled_outside (hlist : ¬InList before) (h : ∀ line ∈ left, ¬Begins line) :
    Spelled before left [] ∧ ¬InList (before ++ left) := by
  induction left generalizing before with
  | nil => exact ⟨.nil, by rwa [List.append_nil]⟩
  | cons line left ih =>
    have hbegins := h line List.mem_cons_self
    have hnext : ¬InList (before ++ [line]) := fun hin => by
      rcases inList_append.mp hin with hopens | hstays
      · exact hbegins hopens.2.1
      · exact hlist hstays.1
    obtain ⟨hspelled, hbehind⟩ := ih hnext fun l hl => h l (List.mem_cons_of_mem _ hl)
    rw [List.append_cons]
    refine ⟨.line (.nothing ?_ ?_) .nil hspelled, hbehind⟩
    · exact fun hkey => hbegins hkey.2
    · exact fun hitem => hlist hitem.1

theorem identifierPart_char {c : Char} (h : isIdentifierPart c) :
    isWhitespace c = false ∧ c ≠ '"' ∧ c ≠ ',' ∧ c ≠ '#' ∧ c ∉ delimiters := by
  have hbare : isBare c ∨ c = '.' := by
    simp only [isIdentifierPart, Bool.or_eq_true, List.contains_cons, List.contains_nil, beq_iff_eq,
      Bool.or_false] at h
    simp only [isBare, Bool.or_eq_true, decide_eq_true_eq]
    tauto
  rcases hbare with hbare | rfl
  · rcases CargoManifest.isBare_range hbare with rfl | rfl | hrange
    · decide
    · decide
    · have hne {d : Char} (hd : c.toNat ≠ d.toNat) : c ≠ d := fun heq =>
        hd (congrArg Char.toNat heq)
      refine ⟨(CargoManifest.keyStart_char (Or.inl hbare)).1, hne ?_, hne ?_, hne ?_, fun hmem => ?_⟩
      · show c.toNat ≠ 34
        omega
      · show c.toNat ≠ 44
        omega
      · show c.toNat ≠ 35
        omega
      · have hcode : c.toNat ∈ delimiters.map Char.toNat := List.mem_map_of_mem hmem
        rw [show delimiters.map Char.toNat = [60, 62, 61, 33, 126, 91, 32] by decide] at hcode
        simp only [List.mem_cons, List.not_mem_nil, or_false] at hcode
        omega
  · decide

/-- What stands in front of a text that does not end in a character to trim is kept. -/
theorem rdropWhile_kept {p : Char → Bool} {front : List Char} {last : Char}
    (hfront : front.getLast? = some last) (hlast : p last = false) (text : List Char) :
    ∃ kept, (front ++ text).rdropWhile p = front ++ kept ∧ kept <+: text ∧
      ∀ c ∈ kept.getLast?, p c = false := by
  obtain ⟨kept, hkept⟩ := CargoManifest.prefix_rdropWhile hfront hlast text
  refine ⟨kept, hkept.symm, (List.prefix_append_right_inj front).mp ?_, fun c hc => ?_⟩
  · rw [hkept]
    exact List.rdropWhile_prefix p _
  · obtain ⟨start, rfl⟩ := List.getLast?_eq_some_iff.mp hc
    have hstable := List.rdropWhile_idempotent p (front ++ text)
    rw [← hkept, List.rdropWhile_eq_self_iff] at hstable
    simpa using hstable (by simp)

theorem dropWhile_name {p : Char → Bool} (hne : name ≠ []) (hname : ∀ c ∈ name, p c = false)
    (rest : List Char) : (name ++ rest).dropWhile p = name ++ rest := by
  obtain ⟨c, name, rfl⟩ := List.exists_cons_of_ne_nil hne
  exact List.dropWhile_cons_of_neg (by simp [hname c List.mem_cons_self])

/-- What is left of a core, perhaps behind a quote, and what stands behind it. -/
theorem bare_core (start : List Char) {core : List Char} (hstart : start = [] ∨ start = ['"'])
    (hne : core ≠ []) (hcore : ∀ c ∈ core, isWhitespace c = false ∧ c ≠ '"' ∧ c ≠ ',')
    (rest : List Char) :
    ∃ kept, bare (start ++ (core ++ rest)) = core ++ kept ∧ kept <+: rest ∧
      (rest = ['"'] ∨ rest = ['"', ','] → kept = []) := by
  obtain ⟨last, hcore'⟩ : ∃ last, core.getLast? = some last :=
    Option.ne_none_iff_exists'.mp (mt List.getLast?_eq_none_iff.mp hne)
  have hlast : (start ++ core).getLast? = some last := by
    rw [List.getLast?_append, hcore']
    rfl
  have hend := hcore last (List.mem_of_getLast? hcore')
  obtain ⟨first, htrim, hfirst, -⟩ := rdropWhile_kept hlast hend.1 rest
  obtain ⟨second, hcomma, hsecond, hcommaEnd⟩ := rdropWhile_kept (p := fun c => decide (c = ','))
    hlast (by simp [hend.2.2]) first
  obtain ⟨third, hquote, hthird, hquoteEnd⟩ := rdropWhile_kept (p := fun c => decide (c = '"'))
    hcore' (by simp [hend.2.1]) second
  obtain ⟨kept, hblank, hkept, -⟩ := rdropWhile_kept hcore' hend.1 third
  simp only [List.append_assoc] at htrim hcomma
  have houter : trim (start ++ (core ++ rest)) = start ++ (core ++ first) := by
    have hplain : (start ++ (core ++ rest)).dropWhile isWhitespace = start ++ (core ++ rest) := by
      rcases hstart with rfl | rfl
      · exact dropWhile_name hne (fun c hc => (hcore c hc).1) rest
      · exact List.dropWhile_cons_of_neg (by decide)
    rw [trim, hplain, htrim]
  have hquotes : trimMatches (fun c => decide (c = '"')) (start ++ (core ++ second)) =
      core ++ third := by
    have hplain : (core ++ second).dropWhile (fun c => decide (c = '"')) = core ++ second :=
      dropWhile_name hne (fun c hc => by simp [(hcore c hc).2.1]) second
    rw [trimMatches, List.dropWhile_append_of_pos, hplain, hquote]
    rcases hstart with rfl | rfl <;> simp
  refine ⟨kept, ?_, hkept.trans (hthird.trans (hsecond.trans hfirst)), fun hrest => ?_⟩
  · rw [bare, houter, hcomma, hquotes, trim, dropWhile_name hne (fun c hc => (hcore c hc).1), hblank]
  · have hempty (hmem : third <+: ['"']) : third = [] := by
      rcases List.prefix_cons_iff.mp hmem with hnil | ⟨tail, rfl, htail⟩
      · exact hnil
      · rw [List.prefix_nil.mp htail] at hquoteEnd
        exact absurd (hquoteEnd '"' rfl) (by simp)
    have hnil : third = [] := by
      rcases hrest with rfl | rfl
      · exact hempty (hthird.trans (hsecond.trans hfirst))
      · rcases List.prefix_cons_iff.mp (hsecond.trans hfirst) with rfl | ⟨tail, rfl, htail⟩
        · exact List.prefix_nil.mp hthird
        · rcases List.prefix_cons_iff.mp htail with rfl | ⟨stop, rfl, hstop⟩
          · exact hempty hthird
          · rw [List.prefix_nil.mp hstop] at hcommaEnd
            exact absurd (hcommaEnd ',' rfl) (by simp)
    rw [hnil] at hkept
    exact List.prefix_nil.mp hkept

theorem IsItem.named (h : IsItem line name) : Names (trim line) name := by
  obtain ⟨rest, htrim, hne, hname, hrest⟩ := h
  have hchar (c : Char) (hc : c ∈ name) := identifierPart_char (hname c hc)
  obtain ⟨kept, hkept, hprefix, hnil⟩ := bare_core ['"'] (Or.inr rfl) hne
    (fun c hc => ⟨(hchar c hc).1, (hchar c hc).2.1, (hchar c hc).2.2.1⟩) rest
  refine ⟨hne, fun hhash => ?_, fun c hc => (hchar c hc).2.2.2.2, kept, by rw [htrim]; exact hkept, ?_⟩
  · exact (hchar '#' (List.mem_of_head? hhash)).2.2.2.1 rfl
  · intro c hc
    rcases hrest with hrest | hrest | ⟨d, hd, hdelimiter⟩
    · rw [hnil (Or.inl hrest)] at hc
      cases hc
    · rw [hnil (Or.inr hrest)] at hc
      cases hc
    · obtain ⟨behind, rfl⟩ := List.head?_eq_some_iff.mp hc
      obtain ⟨more, rfl⟩ := hprefix
      cases hd
      exact hdelimiter

theorem IsItem.not_stops (h : IsItem line name) : ¬Stops line := by
  obtain ⟨rest, htrim, -⟩ := h
  rintro (hheader | ⟨text, htext⟩ | hcloses)
  · rw [IsHeader, htrim] at hheader
    cases hheader
  · rw [htrim] at htext
    cases htext
  · rw [Closes, htrim] at hcloses
    cases hcloses

theorem IsAside.not_stops (h : IsAside line) : ¬Stops line := by
  have hhead : (trim line).head? = none ∨ (trim line).head? = some '#' := by
    rcases h with hnil | hhash
    · exact Or.inl (by rw [hnil]; rfl)
    · exact Or.inr hhash
  rintro (hheader | ⟨text, htext⟩ | hcloses)
  · rw [IsHeader] at hheader
    simp [hheader] at hhead
  · have hword : (trim line).head? = some 'd' := by
      rw [← htext]
      rfl
    simp [hword] at hhead
  · rw [Closes] at hcloses
    simp [hcloses] at hhead

theorem IsAside.nothing (h : IsAside line) : IsNothing (trim line) := by
  rcases h with hnil | hhash
  · rw [hnil]
    exact fun c hc => by cases hc
  · obtain ⟨text, htext⟩ := List.head?_eq_some_iff.mp hhash
    obtain ⟨kept, hkept, -⟩ := bare_core [] (Or.inl rfl) (List.cons_ne_nil '#' [])
      (by simp; decide) text
    have hbare : bare (trim line) = '#' :: kept := by
      rw [htext]
      exact hkept
    intro c hc
    rw [hbare] at hc
    cases hc
    exact Or.inl rfl

theorem spelled_items (hlist : InList before) (h : ItemLines items names) :
    Spelled before items names ∧ InList (before ++ items) := by
  induction h generalizing before with
  | nil => exact ⟨.nil, by rwa [List.append_nil]⟩
  | aside haside _ ih =>
    have hnext := inList_append.mpr (Or.inr ⟨hlist, haside.not_stops⟩)
    obtain ⟨hspelled, hopen⟩ := ih hnext
    rw [List.append_cons]
    exact ⟨.line (.item hlist haside.not_stops) (.skip haside.nothing .nil) hspelled, hopen⟩
  | item hitem _ ih =>
    have hnext := inList_append.mpr (Or.inr ⟨hlist, hitem.not_stops⟩)
    obtain ⟨hspelled, hopen⟩ := ih hnext
    rw [List.append_cons]
    exact ⟨.line (.item hlist hitem.not_stops) (.name hitem.named .nil) hspelled, hopen⟩

/-- The layout that the tool writes is read as it is meant. -/
theorem Layout.spelled {lines : List Line} (h : Layout lines names) : Spelled [] lines names := by
  cases h with
  | @array front between items behind header opener closer _ hheader hopener hcloser hbetween
      hbegins hitems =>
    have hplain : ∀ line ∈ front ++ header :: between, ¬Begins line := by
      intro line hline
      have hother : line = header ∨ line ∈ front ++ between ++ behind := by
        rcases List.mem_append.mp hline with hline | hline
        · exact Or.inr (by simp [hline])
        · rcases List.mem_cons.mp hline with rfl | hline
          · exact Or.inl rfl
          · exact Or.inr (by simp [hline])
      rcases hother with rfl | hline
      · exact fun h => not_isHeader_of_begins h (by rw [IsHeader, hheader]; rfl)
      · exact hbegins line hline
    obtain ⟨habove, hout⟩ := spelled_outside not_since_nil hplain
    rw [List.nil_append] at hout
    have hproject : InProject (front ++ header :: between) :=
      ⟨front, header, between, rfl, hheader, hbetween⟩
    have hkey : Begins opener := by
      rw [Begins, hopener]
      decide
    have hvalue : valueText opener = ['['] := by
      rw [valueText, hopener]
      decide
    have hlist : InList (front ++ header :: between ++ [opener]) :=
      inList_append.mpr (Or.inl ⟨hproject, hkey, by rw [hvalue]; decide⟩)
    obtain ⟨hitems, hopen⟩ := spelled_items hlist hitems
    have hstops : Stops closer := Or.inr (Or.inr hcloser)
    have hcloser' : ¬Begins closer := by
      rintro ⟨text, htext⟩
      rw [Closes, ← htext] at hcloser
      cases hcloser
    have hclosed : ¬InList (front ++ header :: between ++ [opener] ++ items ++ [closer]) := by
      rw [inList_append]
      rintro (hopens | hstays)
      · exact hcloser' hopens.2.1
      · exact hstays.2 hstops
    obtain ⟨hbelow, -⟩ := spelled_outside hclosed fun line hline =>
      hbegins line (List.mem_append_right _ hline)
    have hshows := Shows.key hproject hkey
    have hnothing : Listed ((trimMatches isBracket (valueText opener)).splitOn ',') [] := by
      rw [hvalue]
      exact .skip (fun c hc => by cases hc) .nil
    have hrest : Spelled (front ++ header :: between ++ [opener] ++ items) (closer :: behind) [] :=
      .line (.nothing (fun hin => hcloser' hin.2) fun hitem => hitem.2 hstops) .nil hbelow
    have hbody := hitems.append hrest
    rw [List.append_nil] at hbody
    have hall := habove.append (Spelled.line hshows hnothing hbody)
    simpa using hall

end Layout

/-! ## A concrete manifest -/

section Concrete

open CargoManifest (noBlanks word line pair)

def twoExtras : Requirement where
  before := noBlanks
  name := ⟨"celery".toList, by decide, ⟨'c', rfl, rfl⟩, ⟨'y', rfl, rfl⟩⟩
  details := ⟨noBlanks, some ⟨noBlanks,
    some (⟨"redis".toList, by decide, ⟨'r', rfl, rfl⟩, ⟨'s', rfl, rfl⟩⟩, noBlanks,
      [(noBlanks, ⟨"msgpack".toList, by decide, ⟨'m', rfl, rfl⟩, ⟨'k', rfl, rfl⟩⟩, noBlanks)])⟩,
    noBlanks, .any, noBlanks, none, noBlanks⟩

def isPlain (c : Char) : Bool := c ≠ '"' && c ≠ '\\' && c ≠ '\n'

/-- A string in double quotes, without escapes. -/
def quoted (text : List Char) (valid : text.all isPlain = true) : Value :=
  .string (.basic (text.attach.map fun c => .plain c.val
    (by simpa [isPlain, and_assoc] using List.all_eq_true.mp valid c.val c.property)))

def extrasDocument : Document where
  mark := false
  statements :=
    [(line (some (.header false noBlanks (word "project".toList (by decide)) noBlanks)), .lf),
      (pair (word dependenciesWord (by decide))
        (.array (.last [] (quoted "celery[redis,msgpack]".toList (by decide)) [])), .lf)]
  last := line none

def extrasManifest : Manifest := ⟨extrasDocument, [twoExtras], by decide +kernel⟩

example : extrasDocument.text =
    "[project]\ndependencies = [\"celery[redis,msgpack]\"]\n".toList := by decide +kernel

end Concrete

end Atomis.Pyproject
