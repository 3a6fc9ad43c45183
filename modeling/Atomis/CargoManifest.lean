import Atomis.Lib.OpenFlag
import Atomis.Lib.Toml
import Atomis.TestNames
import Atomis.ZonRemoval

/-!
# Dependencies in the Rust manifest

Two scanners read `Cargo.toml` line by line: `parse_cargo_toml` of `deps.rs` lists dependencies,
and `declares_dependencies` of `rust/run.rs` sends a build with any through cargo. What the second
one looks for is stated by the lines it reads.
-/

namespace Atomis.CargoManifest
open Ndjson OpenFlag Toml
open ZonManifest (lines contains contains_iff Dependency)
open TestRun (stripPrefix stripSuffix stripPrefix_eq_some stripSuffix_eq_some)

abbrev Line := List Char

/-! ## The guard of the direct build -/

def dependenciesWord : List Char := "dependencies".toList

def dependenciesDot : List Char := "dependencies.".toList

/-- `trim_matches` -/
def trimMatches (p : Char → Bool) (text : List Char) : List Char :=
  (text.dropWhile p).rdropWhile p

def isBracket (c : Char) : Bool := c = '[' || c = ']'

/-- The loop of `declaresDependencies`. -/
def declares (inDependencies : Bool) : List Line → Bool
  | [] => false
  | line :: lines =>
    let line := trim line
    if line.head? = some '[' then
      let inDependencies := contains dependenciesWord line
      if inDependencies ∧ contains dependenciesDot (trimMatches isBracket line) then true
      else declares inDependencies lines
    else if inDependencies ∧ line ≠ [] ∧ line.head? ≠ some '#' then true
    else declares inDependencies lines

def declaresDependencies (manifest : List Char) : Bool := declares false (lines manifest)

inductive DirectBuild
  | program
  | tests
deriving DecidableEq

structure Layout where
  crateName : List Char
  source : List Char
  targetDir : List Char
  output : List Char

def DirectBuild.layout : DirectBuild → Layout
  | program => ⟨"atomis_session".toList, "generated/main.rs".toList, "target".toList,
      "debug/atomis-session".toList⟩
  | tests => ⟨"atomis_check".toList, "src/main.rs".toList, "target-tests".toList,
      "debug/atomis-check-test".toList⟩

/-- `Path::join` -/
def join (root part : List Char) : List Char := root ++ '/' :: part

def edition (manifest : List Char) : List Char :=
  (((lines manifest).findSome? fun line => stripPrefix "edition".toList (trim line)).bind
    (ZonManifest.secondPiece '"')).getD "2021".toList

/-- What `rustc` is called with, or nothing if the build is cargo's. -/
def directArgs (root : List Char) (buildScript : Bool) (manifest : List Char)
    (build : DirectBuild) : Option (List (List Char)) :=
  if buildScript || declaresDependencies manifest then none
  else
    let layout := build.layout
    let target := join root layout.targetDir
    some <|
      ["--crate-name".toList, layout.crateName, "--edition=".toList ++ edition manifest,
        layout.source] ++
      (if build = .tests then ["--test".toList] else ["--crate-type".toList, "bin".toList]) ++
      ["--error-format=json".toList, "--json=diagnostic-rendered-ansi".toList,
        "-C".toList, "embed-bitcode=no".toList, "-C".toList, "codegen-units=1".toList,
        "-C".toList, "strip=debuginfo".toList, "-C".toList,
        "incremental=".toList ++ join target "direct-incremental".toList,
        "-o".toList, join target layout.output]

/-! ## The list of dependencies -/

def stripQuotes (value : List Char) : List Char := trimMatches (· = '"') (trim value)

/-- The version in an inline table. -/
def tableVersion (value : List Char) : List Char :=
  let parts := ((value.dropWhile (· = '{')).rdropWhile (· = '}')).splitOn ','
  ((parts.findSome? fun part => stripPrefix "version".toList (trim part)).bind
    fun part => (Lines.first '=' part).map fun (_, version) =>
      stripQuotes (version.rdropWhile (· = '}'))).getD []

def versionOf (value : List Char) : List Char :=
  if value.head? = some '{' then tableVersion value else stripQuotes value

/-- The dependency whose own section a line begins. -/
def sectionEntry (line : Line) : Option Dependency :=
  ((stripPrefix "[dependencies.".toList line).bind (stripSuffix [']'])).map
    fun name => ⟨trim name, []⟩

/-- The dependency in a line of the section. -/
def lineEntry (line : Line) : Option Dependency :=
  if line = [] ∨ line.head? = some '#' then none
  else (Lines.first '=' line).bind fun (name, value) =>
    if trim name = [] then none else some ⟨trim name, versionOf (trim value)⟩

/-- The loop of `parseCargoToml`. -/
def entries (inDependencies : Bool) : List Line → List Dependency
  | [] => []
  | line :: lines =>
    let line := trim line
    if line.head? = some '[' then
      (sectionEntry line).toList ++ entries (line = "[dependencies]".toList) lines
    else (if inDependencies then lineEntry line else none).toList ++ entries inDependencies lines

/-- The first entry of each name. -/
def retainFirst (seen : List (List Char)) : List Dependency → List Dependency
  | [] => []
  | entry :: found =>
    if entry.name ∈ seen then retainFirst seen found
    else entry :: retainFirst (entry.name :: seen) found

def parseCargoToml (text : List Char) : List Dependency :=
  retainFirst [] (entries false (lines text))

/-! ## The lines that the guard looks for -/

def IsHeader (line : Line) : Prop := (trim line).head? = some '['

/-- A header with `dependencies.` between its brackets. -/
def NamesEntry (line : Line) : Prop :=
  IsHeader line ∧ dependenciesDot <:+: trimMatches isBracket (trim line)

/-- A header with `dependencies` in it. -/
def OpensTable (line : Line) : Prop := IsHeader line ∧ dependenciesWord <:+: trim line

/-- A line of a table that is neither blank nor a comment. -/
def IsFilled (line : Line) : Prop :=
  ¬IsHeader line ∧ trim line ≠ [] ∧ (trim line).head? ≠ some '#'

/-- Behind these lines, one that opens a table was the last header. -/
def InTable (before : List Line) : Prop := Since (fun _ => OpensTable) IsHeader before

/-- A line of `after` names an entry, or fills a table that was opened before. -/
def FlaggedIn (before after : List Line) : Prop :=
  Later (fun before line => NamesEntry line ∨ InTable before ∧ IsFilled line) before after

def Flagged (text : List Char) : Prop := FlaggedIn [] (lines text)

theorem inTable_append (before : List Line) (line : Line) :
    InTable (before ++ [line]) ↔ OpensTable line ∨ InTable before ∧ ¬IsHeader line := since_append

theorem flaggedIn_cons {before after : List Line} {line : Line} :
    FlaggedIn before (line :: after) ↔
      (NamesEntry line ∨ InTable before ∧ IsFilled line) ∨ FlaggedIn (before ++ [line]) after :=
  later_cons

theorem infix_trimMatches {word text : List Char} {p : Char → Bool}
    (h : word <:+: trimMatches p text) : word <:+: text :=
  h.trans ((List.rdropWhile_prefix p _).isInfix.trans (List.dropWhile_suffix p).isInfix)

theorem NamesEntry.opensTable {line : Line} (h : NamesEntry line) : OpensTable line := by
  refine ⟨h.1, List.IsInfix.trans ?_ (infix_trimMatches h.2)⟩
  exact ⟨[], ['.'], rfl⟩

theorem declares_iff {before after : List Line} {inDependencies : Bool}
    (htable : inDependencies = true ↔ InTable before) :
    declares inDependencies after = true ↔ FlaggedIn before after := by
  induction after generalizing before inDependencies with
  | nil => exact iff_of_false Bool.false_ne_true not_later_nil
  | cons line after ih =>
    rw [declares, flaggedIn_cons]
    have hnext := inTable_append before line
    by_cases hheader : IsHeader line
    · have hfilled : ¬IsFilled line := fun h => h.1 hheader
      have hopens : contains dependenciesWord (trim line) = true ↔ InTable (before ++ [line]) := by
        rw [hnext, contains_iff]
        simp [OpensTable, hheader]
      rw [if_pos (show (trim line).head? = some '[' from hheader)]
      simp only [hfilled, and_false, or_false]
      split_ifs with hnames
      · refine iff_of_true rfl (Or.inl ⟨hheader, ?_⟩)
        exact (contains_iff _ _).mp hnames.2
      · rw [ih hopens]
        refine (or_iff_right fun h => hnames ⟨?_, ?_⟩).symm
        · exact (contains_iff _ _).mpr h.opensTable.2
        · exact (contains_iff _ _).mpr h.2
    · have hnames : ¬NamesEntry line := fun h => hheader h.1
      have hopens : ¬OpensTable line := fun h => hheader h.1
      have hstays : inDependencies = true ↔ InTable (before ++ [line]) := by
        rw [hnext, htable]
        simp [hopens, hheader]
      rw [if_neg (show ¬(trim line).head? = some '[' from hheader)]
      simp only [hnames, false_or]
      split_ifs with hfilled
      · exact iff_of_true rfl (Or.inl ⟨htable.mp hfilled.1, hheader, hfilled.2⟩)
      · rw [ih hstays]
        exact (or_iff_right fun h => hfilled ⟨htable.mpr h.1, h.2.2⟩).symm

theorem declaresDependencies_iff (text : List Char) :
    declaresDependencies text = true ↔ Flagged text :=
  declares_iff (iff_of_false Bool.false_ne_true not_since_nil)

/-! ## What is listed -/

theorem prefix_rdropWhile {p : Char → Bool} {front : List Char} {last : Char}
    (hfront : front.getLast? = some last) (hlast : p last = false) (text : List Char) :
    front <+: (front ++ text).rdropWhile p := by
  induction text using List.reverseRecOn with
  | nil =>
    obtain ⟨start, rfl⟩ := List.getLast?_eq_some_iff.mp hfront
    have hkeep : (start ++ [last]).rdropWhile p = start ++ [last] :=
      List.rdropWhile_concat_neg _ _ _ (by simp [hlast])
    exact ⟨[], by rw [List.append_nil, hkeep]⟩
  | append_singleton text c ih =>
    rw [← List.append_assoc, List.rdropWhile_concat]
    split_ifs
    · exact ih
    · exact (List.prefix_append front text).trans (List.prefix_append _ _)

theorem sectionEntry_names {line : Line} {entry : Dependency}
    (h : sectionEntry (trim line) = some entry) : NamesEntry line := by
  obtain ⟨name, hname, -⟩ := Option.map_eq_some_iff.mp h
  obtain ⟨rest, hrest, hsuffix⟩ := Option.bind_eq_some_iff.mp hname
  have hline := stripPrefix_eq_some.mp hrest
  refine ⟨by rw [IsHeader, hline]; rfl, ?_⟩
  have hdrop : (trim line).dropWhile isBracket = dependenciesDot ++ rest := by
    rw [hline]
    rfl
  rw [trimMatches, hdrop]
  have hdot : dependenciesDot.getLast? = some '.' := rfl
  exact (prefix_rdropWhile hdot rfl rest).isInfix

theorem lineEntry_filled {line : Line} (h : lineEntry line ≠ none) :
    line ≠ [] ∧ line.head? ≠ some '#' := by
  rw [lineEntry] at h
  split_ifs at h with hskip
  · exact absurd rfl h
  · exact not_or.mp hskip

/-- What the list is read from, the guard sees as well. -/
theorem declares_of_entries {lines : List Line} {listed guarded : Bool}
    (hflag : listed = true → guarded = true) (h : entries listed lines ≠ []) :
    declares guarded lines = true := by
  induction lines generalizing listed guarded with
  | nil => exact absurd rfl h
  | cons line lines ih =>
    rw [entries] at h
    rw [declares]
    by_cases hheader : (trim line).head? = some '['
    · simp only [if_pos hheader] at h ⊢
      split_ifs with hnames
      · rfl
      · have hsection : sectionEntry (trim line) = none := by
          by_contra hsome
          obtain ⟨entry, hentry⟩ := Option.ne_none_iff_exists'.mp hsome
          have hnamed := sectionEntry_names hentry
          exact hnames ⟨(contains_iff _ _).mpr hnamed.opensTable.2, (contains_iff _ _).mpr hnamed.2⟩
        rw [hsection] at h
        refine ih (fun hopen => (contains_iff _ _).mpr ?_) h
        rw [of_decide_eq_true hopen]
        exact ⟨['['], [']'], rfl⟩
    · simp only [if_neg hheader] at h ⊢
      split_ifs with hfilled
      · rfl
      · have hentry : (if listed then lineEntry (trim line) else none) = none := by
          by_contra hsome
          obtain ⟨hlisted, hline⟩ := Classical.not_imp.mp (mt ite_eq_right_iff.mpr hsome)
          exact hfilled ⟨hflag hlisted, lineEntry_filled hline⟩
        rw [hentry] at h
        exact ih hflag h

theorem declares_of_listed {text : List Char} (h : parseCargoToml text ≠ []) :
    declaresDependencies text = true := by
  refine declares_of_entries id fun hnil => h ?_
  rw [parseCargoToml, hnil]
  rfl

/-! ## The entries of a manifest -/

def dependencyTables : List (List Char) :=
  ["dependencies".toList, "dev-dependencies".toList, "build-dependencies".toList]

/-- The path of an entry of a dependency table, or one below it. -/
inductive IsEntry : Path → Prop
  | plain {table name : List Char} {below : Path} :
      table ∈ dependencyTables → IsEntry (table :: name :: below)
  | target {platform table name : List Char} {below : Path} :
      table ∈ dependencyTables → IsEntry ("target".toList :: platform :: table :: name :: below)

def HasEntry (m : Document) : Prop := ∃ path ∈ m.paths, IsEntry path

/-- A manifest with a dependency is not built directly, nor is one with a dependency listed. -/
structure Guarded (m : Document) : Prop where
  declares : HasEntry m → declaresDependencies m.text = true
  direct : HasEntry m → ∀ root buildScript build,
    directArgs root buildScript m.text build = none
  listed : parseCargoToml m.text ≠ [] → declaresDependencies m.text = true

theorem directArgs_eq_none {root manifest : List Char} {buildScript : Bool} {build : DirectBuild} :
    directArgs root buildScript manifest build = none ↔
      buildScript = true ∨ declaresDependencies manifest = true := by
  rw [directArgs, ← Bool.or_eq_true]
  split_ifs with h <;> simp [h]

theorem trim_stripReturn (line : Line) : trim (ZonManifest.stripReturn line) = trim line := by
  rw [ZonManifest.stripReturn]
  split_ifs with hlast
  · obtain ⟨front, rfl⟩ := List.getLast?_eq_some_iff.mp hlast
    rw [List.dropLast_concat, trim, trim, List.dropWhile_append]
    split_ifs with hblank
    · rw [List.isEmpty_iff.mp hblank]
      rfl
    · rw [List.rdropWhile_concat_pos _ _ _ (by decide)]
  · rfl

theorem prefix_trim {blanks core : List Char} {first last : Char}
    (hblanks : ∀ c ∈ blanks, isWhitespace c) (hcore : core.head? = some first)
    (hfirst : isWhitespace first = false) (hcore' : core.getLast? = some last)
    (hlast : isWhitespace last = false) (rest : List Char) :
    core <+: trim (blanks ++ (core ++ rest)) := by
  have hdrop : (core ++ rest).dropWhile isWhitespace = core ++ rest := by
    obtain ⟨behind, rfl⟩ := List.head?_eq_some_iff.mp hcore
    exact List.dropWhile_cons_of_neg (by simp [hfirst])
  rw [trim, List.dropWhile_append_of_pos hblanks, hdrop]
  exact prefix_rdropWhile hcore' hlast rest

theorem blanks_whitespace (blanks : Blanks) : ∀ c ∈ blanks.text, isWhitespace c := by
  intro c hc
  rcases blanks.valid c hc with rfl | rfl <;> decide

theorem head_trim {blanks : Blanks} {c : Char} {text : List Char} (hc : isWhitespace c = false) :
    (trim (blanks.text ++ c :: text)).head? = some c := by
  have hprefix : [c] <+: trim (blanks.text ++ ([c] ++ text)) :=
    prefix_trim (blanks_whitespace blanks) rfl hc rfl hc text
  obtain ⟨rest, hrest⟩ := hprefix
  rw [show blanks.text ++ c :: text = blanks.text ++ ([c] ++ text) from rfl, ← hrest]
  rfl

theorem lines_newline {text : List Char} (h : '\n' ∉ text) :
    lines (text ++ ['\n']) = [ZonManifest.stripReturn text] := by
  rw [lines, Lines.split_append, Lines.split_of_not_mem [] h]
  rfl

/-- What the first line of a text is up to blanks at its end. -/
theorem lines_cons {text : List Char} (hne : text ≠ []) :
    ∃ line more, lines text = line :: more ∧ trim line = trim (text.takeWhile (· ≠ '\n')) := by
  by_cases hmem : '\n' ∈ text
  · obtain ⟨front, rest, rfl, hfront⟩ := List.eq_append_cons_of_mem hmem
    have htake : (front ++ '\n' :: rest).takeWhile (· ≠ '\n') = front := by
      rw [List.takeWhile_append_of_pos, List.takeWhile_cons_of_neg (by simp), List.append_nil]
      exact fun c hc => decide_eq_true fun heq => hfront (heq ▸ hc)
    refine ⟨_, lines rest, ?_, by rw [htake, trim_stripReturn]⟩
    rw [List.append_cons, ZonManifest.lines_append (ZonManifest.whole_newline front),
      lines_newline hfront]
    rfl
  · refine ⟨text, [], ?_, ?_⟩
    · rw [lines, Lines.split_of_not_mem [] hmem, List.nil_append, if_neg hne]
      rfl
    · rw [List.takeWhile_eq_self_iff.mpr]
      exact fun c hc => decide_eq_true fun heq => hmem (heq ▸ hc)

theorem lines_statement {s : Statement} (stop : Newline) (h : '\n' ∉ s.text) :
    ∃ line, lines (s.text ++ stop.text) = [line] ∧ trim line = trim s.text := by
  cases stop with
  | lf => exact ⟨_, lines_newline h, trim_stripReturn s.text⟩
  | crlf =>
    have hreturn : '\n' ∉ s.text ++ ['\r'] := by simpa using h
    refine ⟨_, by rw [← lines_newline hreturn, List.append_assoc]; rfl, ?_⟩
    rw [ZonManifest.stripReturn, if_pos List.getLast?_concat, List.dropLast_concat]

theorem whole_statement (front : List Char) (stop : Newline) :
    ZonManifest.Whole (front ++ stop.text) := by
  cases stop with
  | lf => exact ZonManifest.whole_newline front
  | crlf =>
    have hwhole := ZonManifest.whole_newline (front ++ ['\r'])
    rwa [List.append_assoc] at hwhole

/-! ## A section of the manifest -/

/-- A header with `dependencies` in its key. -/
structure IsSection (s : Statement) : Prop where
  header : ∃ array left key right, s.expr = some (.header array left key right) ∧
    dependenciesWord <:+: key.text

def IsPair (s : Statement) : Prop := ∃ key left right value, s.expr = some (.pair key left right value)

def statementsText (statements : List (Statement × Newline)) : List Char :=
  statements.flatMap fun (s, stop) => s.text ++ stop.text

theorem opensTable_of_section {s : Statement} (h : IsSection s) {line : Line}
    (hline : trim line = trim s.text) : OpensTable line := by
  obtain ⟨array, left, key, right, hexpr, hword⟩ := h.header
  have hcore : (Expr.header array left key right).text <+: trim s.text := by
    simp only [Statement.text, hexpr, Option.map_some, Option.getD_some, List.append_assoc]
    have hopen : (Expr.header array left key right).text.head? = some '[' := rfl
    have hclose : (Expr.header array left key right).text.getLast? = some ']' := by
      rw [Expr.text, List.getLast?_concat]
    exact prefix_trim (blanks_whitespace s.before) hopen rfl hclose rfl _
  have hkey : key.text <:+: (Expr.header array left key right).text :=
    ⟨'[' :: (if array then ['['] else []) ++ left.text,
      right.text ++ (if array then [']'] else []) ++ [']'], by simp [Expr.text]⟩
  rw [OpensTable, IsHeader, hline]
  refine ⟨?_, hword.trans (hkey.trans hcore.isInfix)⟩
  obtain ⟨rest, hrest⟩ := hcore
  rw [← hrest]
  rfl

theorem trim_blank {text : List Char} (h : ∀ c ∈ text, isWhitespace c) : trim text = [] := by
  rw [trim, List.dropWhile_eq_nil_iff.mpr h]
  rfl

theorem not_isHeader_of_blank {s : Statement} (h : s.expr = none) {line : Line}
    (hline : trim line = trim s.text) : ¬IsHeader line := by
  have hblank : ∀ c ∈ s.before.text ++ s.after.text, isWhitespace c := fun c hc =>
    (List.mem_append.mp hc).elim (blanks_whitespace s.before c) (blanks_whitespace s.after c)
  rw [IsHeader, hline, Statement.text, h]
  cases s.comment with
  | none =>
    simp only [Option.map_none, Option.getD_none, List.append_nil]
    rw [trim_blank hblank]
    simp
  | some comment =>
    have hcomment : ['#'] <+: trim (s.before.text ++ s.after.text ++ (['#'] ++ comment.text)) :=
      prefix_trim hblank rfl rfl rfl rfl comment.text
    obtain ⟨rest, hrest⟩ := hcomment
    simp only [Option.map_none, Option.getD_none, List.append_nil, Option.map_some,
      Option.getD_some]
    rw [show '#' :: comment.text = ['#'] ++ comment.text from rfl, ← hrest]
    simp

theorem isBare_range {c : Char} (h : isBare c) : c = '_' ∨ c = '-' ∨
    48 ≤ c.toNat ∧ c.toNat ≤ 57 ∨ 65 ≤ c.toNat ∧ c.toNat ≤ 90 ∨ 97 ≤ c.toNat ∧ c.toNat ≤ 122 := by
  simp only [isBare, Char.isAlphanum, Char.isAlpha, Char.isUpper, Char.isLower, Char.isDigit,
    Bool.or_eq_true, Bool.and_eq_true, decide_eq_true_eq, ge_iff_le, UInt32.le_iff_toNat_le] at h
  simp only [← Char.toNat_val]
  grind

theorem keyStart_char {c : Char} (h : isBare c ∨ c = '"' ∨ c = '\'') :
    isWhitespace c = false ∧ c ≠ '\n' ∧ c ≠ '[' ∧ c ≠ '#' := by
  rcases h with h | rfl | rfl
  · rcases isBare_range h with rfl | rfl | hrange
    · decide
    · decide
    · have hne {d : Char} (hd : c.toNat ≠ d.toNat) : c ≠ d := fun heq =>
        hd (congrArg Char.toNat heq)
      have hwhite : isWhitespace c = false := by
        simp [isWhitespace]
        omega
      refine ⟨hwhite, hne ?_, hne ?_, hne ?_⟩
      · show c.toNat ≠ 10
        omega
      · show c.toNat ≠ 91
        omega
      · show c.toNat ≠ 35
        omega
  · decide
  · decide

theorem isFilled_of_pair {s : Statement} (h : IsPair s) (rest : List Char) :
    ∃ line more, lines (s.text ++ rest) = line :: more ∧ IsFilled line := by
  obtain ⟨key, left, right, value, hexpr⟩ := h
  obtain ⟨c, text, htext, hc⟩ := key_text_cons key
  have hchar := keyStart_char hc
  obtain ⟨behind, hs⟩ : ∃ behind, s.text ++ rest = s.before.text ++ c :: behind := by
    simp only [Statement.text, hexpr, Option.map_some, Option.getD_some, Expr.text, htext,
      List.append_assoc, List.cons_append]
    exact ⟨_, rfl⟩
  have hne : s.text ++ rest ≠ [] := by simp [hs]
  obtain ⟨line, more, hlines, hline⟩ := lines_cons hne
  have htake : (s.text ++ rest).takeWhile (· ≠ '\n') =
      s.before.text ++ c :: behind.takeWhile (· ≠ '\n') := by
    rw [hs, List.takeWhile_append_of_pos, List.takeWhile_cons_of_pos (by simpa using hchar.2.1)]
    exact fun d hd => decide_eq_true fun heq => newline_not_mem_blanks s.before (heq ▸ hd)
  have hhead : (trim line).head? = some c := by
    rw [hline, htake]
    exact head_trim hchar.1
  refine ⟨line, more, hlines, ?_, ?_, ?_⟩
  · rw [IsHeader, hhead]
    simpa using hchar.2.2.1
  · intro hnil
    simp [hnil] at hhead
  · rw [hhead]
    simpa using hchar.2.2.2

theorem newline_not_mem_section {s : Statement} (h : IsSection s) : '\n' ∉ s.text := by
  obtain ⟨array, left, key, right, hexpr, -⟩ := h.header
  refine newline_not_mem_statement s fun key left right value hpair => ?_
  rw [hexpr] at hpair
  cases hpair

theorem whole_statements (statements : List (Statement × Newline)) :
    ZonManifest.Whole (statementsText statements) := by
  induction statements with
  | nil => rfl
  | cons first statements ih => exact ZonManifest.whole_append (whole_statement _ first.2) ih

theorem not_isHeader_of_mem {between : List (Statement × Newline)}
    (h : ∀ s ∈ between, s.1.expr = none) :
    ∀ line ∈ lines (statementsText between), ¬IsHeader line := by
  induction between with
  | nil => exact fun line hline => nomatch hline
  | cons first between ih =>
    have hblank := h first List.mem_cons_self
    obtain ⟨line, hline, htrim⟩ := lines_statement first.2
      (newline_not_mem_statement first.1 fun key left right value hpair => by simp [hblank] at hpair)
    have htext : statementsText (first :: between) =
        first.1.text ++ first.2.text ++ statementsText between := rfl
    rw [htext, ZonManifest.lines_append (whole_statement first.1.text first.2), hline]
    intro other hother
    rcases List.mem_cons.mp hother with rfl | hother
    · exact not_isHeader_of_blank hblank htrim
    · exact ih (fun s hs => h s (List.mem_cons_of_mem _ hs)) other hother

/-- The guard sees a section with a pair in it, whatever stands around the two. -/
theorem flagged_of_section {front rest : List Char} {header filled : Statement} {stop : Newline}
    {between : List (Statement × Newline)} (hfront : ZonManifest.Whole front)
    (hheader : IsSection header) (hbetween : ∀ s ∈ between, s.1.expr = none)
    (hfilled : IsPair filled) :
    Flagged (front ++ (header.text ++ stop.text) ++ statementsText between ++
      (filled.text ++ rest)) := by
  obtain ⟨opener, hopener, htrim⟩ := lines_statement stop (newline_not_mem_section hheader)
  obtain ⟨line, more, hline, hfills⟩ := isFilled_of_pair hfilled rest
  have hlines := not_isHeader_of_mem hbetween
  have hblank := whole_statements between
  have hstop := whole_statement header.text stop
  have hopen := ZonManifest.whole_append hfront hstop
  have htable : InTable (lines front ++ opener :: lines (statementsText between)) :=
    ⟨lines front, opener, _, rfl, opensTable_of_section hheader htrim, hlines⟩
  refine ⟨_, line, more, ?_, Or.inr ⟨htable, hfills⟩⟩
  rw [ZonManifest.lines_append (ZonManifest.whole_append hopen hblank),
    ZonManifest.lines_append hopen, ZonManifest.lines_append hfront, hopener, hline]
  simp

theorem flagged_of_statements {m : Document} {front between behind : List (Statement × Newline)}
    {header filled : Statement × Newline} (hmark : m.mark = false)
    (hm : m.statements = front ++ header :: between ++ filled :: behind)
    (hheader : IsSection header.1) (hbetween : ∀ s ∈ between, s.1.expr = none)
    (hfilled : IsPair filled.1) : Flagged m.text := by
  have htext : m.text = statementsText front ++ (header.1.text ++ header.2.text) ++
      statementsText between ++ (filled.1.text ++
        (filled.2.text ++ statementsText behind ++ m.last.text)) := by
    simp [Document.text, hmark, hm, statementsText]
  rw [htext]
  exact flagged_of_section (whole_statements front) hheader hbetween hfilled

/-! ## Concrete manifests -/

section Concrete

def noBlanks : Blanks := ⟨[], by simp⟩

def oneBlank : Blanks := ⟨[' '], by simp⟩

def word (name : List Char) (valid : name ≠ [] ∧ name.all isBare) : Key := ⟨.bare name valid, []⟩

/-- A string without escapes. -/
def stringOf (text : List Char) (valid : '\'' ∉ text ∧ '\n' ∉ text) : Value :=
  .string (.plain text valid)

def line (expr : Option Expr) : Statement := ⟨noBlanks, expr, noBlanks, none⟩

def pair (key : Key) (value : Value) : Statement := line (some (.pair key oneBlank oneBlank value))

def packageSection : List Statement :=
  [line none, line (some (.header false noBlanks (word "package".toList (by decide)) noBlanks)),
    pair (word "name".toList (by decide)) (stringOf "atomis_session".toList (by decide)),
    pair (word "version".toList (by decide)) (stringOf "0.0.0".toList (by decide))]

/-- A dotted key above the first section. -/
def dottedManifest : Document where
  mark := false
  statements := (pair ⟨.bare "dependencies".toList (by decide),
    [(noBlanks, noBlanks, .bare "serde".toList (by decide))]⟩
    (stringOf ['1'] (by decide)) :: packageSection).map (·, .lf)
  last := line none

example : dottedManifest.text = ("dependencies.serde = '1'\n\n[package]\n" ++
    "name = 'atomis_session'\nversion = '0.0.0'\n").toList := by decide +kernel

end Concrete

end Atomis.CargoManifest
