import Mathlib.Data.List.Sort
import Atomis.Protocol
import Atomis.TestNames

/-!
# The tests of a crate

Tests are discovered line by line, and a name of libtest is brought back to one of them by how
many of its modules stand in the path of the file. The Unicode word characters of a regular
expression are a parameter.
-/

namespace Atomis.TestRun
open Ndjson

/-! ## Discovery -/

section Discovery

variable (word : Char → Bool)

def identStart (c : Char) : Bool := c.isAlpha || c = '_'

/-- `(?:[A-Za-z_]\w*::)*test\b` -/
def testPath : ℕ → List Char → Bool
  | 0, _ => false
  | fuel + 1, text =>
    ("test".toList.isPrefixOf text && !(text.drop 4).head?.any word) ||
      match text with
      | [] => false
      | c :: rest =>
        identStart c &&
          match rest.dropWhile word with
          | ':' :: ':' :: inner => testPath fuel inner
          | _ => false

/-- `^\s*#\[\s*(?:[A-Za-z_]\w*::)*test\b` -/
def testAttr (line : List Char) : Bool :=
  match stripPrefix "#[".toList (line.dropWhile isWhitespace) with
  | some rest => testPath word rest.length (rest.dropWhile isWhitespace)
  | none => false

/-- What is behind a word and the white space after it. -/
def afterWord (keyword : String) (text : List Char) : Option (List Char) :=
  match stripPrefix keyword.toList text with
  | some (c :: rest) => if isWhitespace c then some (rest.dropWhile isWhitespace) else none
  | _ => none

/-- `^\s*(?:pub\s+)?(?:async\s+)?fn\s+([A-Za-z_]\w*)` -/
def fnLine (line : List Char) : Option (List Char) :=
  let text := line.dropWhile isWhitespace
  let text := (afterWord "pub" text).getD text
  let text := (afterWord "async" text).getD text
  match afterWord "fn" text with
  | some (c :: rest) => if identStart c then some (c :: rest.takeWhile word) else none
  | _ => none

/-- `^\s*#\[` -/
def otherAttr (line : List Char) : Bool := "#[".toList.isPrefixOf (line.dropWhile isWhitespace)

structure FnBelow where
  name : List Char
  index : ℕ
  indent : ℕ
  behind : List (List Char)

/-- The first function below an attribute, past other attributes and blank lines. -/
def fnBelow (index : ℕ) : List (List Char) → Option FnBelow
  | [] => none
  | line :: lines =>
    match fnLine word line with
    | some name => some ⟨name, index, byteLen (line.takeWhile isWhitespace), lines⟩
    | none =>
      if !otherAttr line ∧ trim line ≠ [] then none else fnBelow (index + 1) lines

def discoverLines (path : String) : ℕ → ℕ → List (List Char) → List TestCase
  | 0, _, _ => []
  | _, _, [] => []
  | fuel + 1, index, line :: lines =>
    if testAttr word line then
      match fnBelow word (index + 1) lines with
      | some below =>
        ⟨path ++ ":" ++ toString (below.index + 1), "src/" ++ path, String.ofList below.name,
          below.index + 1, below.indent + 1⟩ ::
            discoverLines path fuel (below.index + 1) below.behind
      | none => discoverLines path fuel (index + 1) lines
    else discoverLines path fuel (index + 1) lines

def discoverRustTests (files : List ProjectFile) : List TestCase :=
  files.flatMap fun file =>
    if ".rs".toList.isSuffixOf file.path.toList then
      let lines := file.source.toList.splitOn '\n'
      discoverLines word file.path lines.length 0 lines
    else []

theorem discoverLines_path {path : String} {test : TestCase} (fuel index : ℕ)
    (lines : List (List Char)) (h : test ∈ discoverLines word path fuel index lines) :
    test.path = "src/" ++ path := by
  induction fuel generalizing index lines with
  | zero => simp [discoverLines] at h
  | succ fuel ih =>
    cases lines with
    | nil => simp [discoverLines] at h
    | cons line lines =>
      rw [discoverLines] at h
      split_ifs at h
      · cases hbelow : fnBelow word (index + 1) lines with
        | none =>
          rw [hbelow] at h
          exact ih _ _ h
        | some below =>
          rw [hbelow, List.mem_cons] at h
          rcases h with rfl | h
          · rfl
          · exact ih _ _ h
      · exact ih _ _ h

theorem discoverRustTests_path {files : List ProjectFile} {test : TestCase}
    (h : test ∈ discoverRustTests word files) :
    ∃ stem, test.path.toList = "src/".toList ++ (stem ++ ".rs".toList) := by
  obtain ⟨file, -, htest⟩ := List.mem_flatMap.mp h
  split_ifs at htest with hrs
  · obtain ⟨stem, hstem⟩ := List.isSuffixOf_iff_suffix.mp hrs
    refine ⟨stem, ?_⟩
    rw [discoverLines_path word _ _ _ htest, String.toList_append, hstem]
  · simp at htest

end Discovery

/-! ## Matching -/

/-- `str::split` at `::` -/
def splitPath (segment : List Char) : List Char → List (List Char)
  | ':' :: ':' :: text => segment :: splitPath [] text
  | c :: text => splitPath (segment ++ [c]) text
  | [] => [segment]

/-- The parts of a candidate's path, as they are compared with the modules. -/
def stemParts (path : List Char) : List (List Char) :=
  ((stripSuffix ".rs".toList ((stripPrefix "src/".toList path).getD path)).getD path).splitOn '/'

def score (modules : List (List Char)) (candidate : TestCase) : ℕ :=
  (modules.filter (· ∈ stemParts candidate.path.toList)).length

/-- The sort is stable. -/
def matchRustTestName (catalog : List TestCase) (runnerName : String) : Option TestCase :=
  let segments := splitPath [] runnerName.toList
  let title := (segments.getLast?).getD runnerName.toList
  let modules := segments.take (segments.length - 1)
  let byTitle := catalog.filter fun c => c.name.toList = title
  if byTitle.length ≤ 1 then byTitle.head?
  else
    let scored := byTitle.map fun c => (c, score modules c)
    ((scored.insertionSort fun a b => b.2 ≤ a.2).head?).map (·.1)

/-! ## The head of a stable sort -/

section Foremost

variable {α : Type*} (rank : α → ℕ)

/-- None of a list ranks above `a`, and what stands before it ranks below. -/
def Foremost (l : List α) (a : α) : Prop :=
  ∃ before behind, l = before ++ a :: behind ∧ (∀ b ∈ before, rank b < rank a) ∧
    ∀ b ∈ behind, rank b ≤ rank a

variable {rank}

theorem foremost_cons_self {l : List α} {a : α} (h : ∀ b ∈ l, rank b ≤ rank a) :
    Foremost rank (a :: l) a := ⟨[], l, by simp, by simp, h⟩

theorem Foremost.cons {l : List α} {a c : α} (h : Foremost rank l a) (hlt : rank c < rank a) :
    Foremost rank (c :: l) a := by
  obtain ⟨before, behind, rfl, hbefore, hbehind⟩ := h
  refine ⟨c :: before, behind, by simp, ?_, hbehind⟩
  simpa using ⟨hlt, hbefore⟩

theorem Foremost.rank_le {l : List α} {a b : α} (h : Foremost rank l a) (hb : b ∈ l) :
    rank b ≤ rank a := by
  obtain ⟨before, behind, rfl, hbefore, hbehind⟩ := h
  rcases List.mem_append.mp hb with hb | hb
  · exact (hbefore b hb).le
  · rcases List.mem_cons.mp hb with rfl | hb
    · exact le_rfl
    · exact hbehind b hb

theorem Foremost.unique {l : List α} {a b : α} (ha : Foremost rank l a) (hb : Foremost rank l b) :
    a = b := by
  have hab : rank a ≤ rank b := hb.rank_le (by obtain ⟨before, behind, rfl, -⟩ := ha; simp)
  have hba : rank b ≤ rank a := ha.rank_le (by obtain ⟨before, behind, rfl, -⟩ := hb; simp)
  obtain ⟨before, behind, rfl, hbefore, -⟩ := ha
  obtain ⟨before', behind', hl, hbefore', -⟩ := hb
  -- of two that rank alike, the later one has the earlier one before it
  rcases List.append_eq_append_iff.mp hl with ⟨between, hfront, htail⟩ | ⟨between, hfront, htail⟩
  · cases between with
    | nil => exact (List.cons.inj htail).1
    | cons c between =>
      have := hbefore' a (by simp [hfront, (List.cons.inj htail).1])
      omega
  · cases between with
    | nil => exact (List.cons.inj htail).1.symm
    | cons c between =>
      have := hbefore b (by simp [hfront, (List.cons.inj htail).1])
      omega

theorem foremost_head {l : List α} {a : α}
    (h : (l.insertionSort fun x y => rank y ≤ rank x).head? = some a) : Foremost rank l a := by
  induction l generalizing a with
  | nil => simp at h
  | cons c l ih =>
    rw [List.insertionSort_cons] at h
    have hperm := List.perm_insertionSort (fun x y => rank y ≤ rank x) l
    cases hsorted : l.insertionSort fun x y => rank y ≤ rank x with
    | nil =>
      rw [hsorted] at h hperm
      obtain rfl : c = a := by simpa using h
      exact foremost_cons_self (by simp [List.nil_perm.mp hperm])
    | cons m rest =>
      have hm := ih (by rw [hsorted]; rfl)
      rw [hsorted, List.orderedInsert_cons] at h
      split_ifs at h with hle
      · obtain rfl : c = a := by simpa using h
        exact foremost_cons_self fun b hb => (hm.rank_le hb).trans hle
      · obtain rfl : m = a := by simpa using h
        exact hm.cons (not_le.mp hle)

theorem head_insertionSort (l : List α) {a : α} :
    (l.insertionSort fun x y => rank y ≤ rank x).head? = some a ↔ Foremost rank l a := by
  refine ⟨foremost_head, fun h => ?_⟩
  cases hhead : (l.insertionSort fun x y => rank y ≤ rank x).head? with
  | some m => rw [(foremost_head hhead).unique h]
  | none =>
    have hperm := List.perm_insertionSort (fun x y => rank y ≤ rank x) l
    rw [List.head?_eq_none_iff.mp hhead] at hperm
    obtain ⟨before, behind, hl, -⟩ := h
    simp [List.nil_perm.mp hperm] at hl

end Foremost

/-! ## Where a name belongs -/

/-- The segments of a path inside the sources, without the extension. -/
def fileSegments (path : List Char) : List (List Char) :=
  let inside := (stripPrefix "src/".toList path).getD path
  ((stripSuffix ".rs".toList inside).getD inside).splitOn '/'

/-- The module of a file: a crate root is no module, and `mod.rs` is its directory's. -/
def modulePath (path : List Char) : List (List Char) :=
  let segments := fileSegments path
  if segments = ["main".toList] ∨ segments = ["lib".toList] then []
  else if segments.getLast? = some "mod".toList then segments.dropLast
  else segments

/-- The name of a test as libtest reports it. -/
def runnerPath (modules : List (List Char)) (title : List Char) : List Char :=
  List.intercalate "::".toList (modules ++ [title])

/-- A test with the title, in the file whose module reaches furthest into the name. -/
structure Belongs (catalog : List TestCase) (modules : List (List Char)) (title : List Char)
    (test : TestCase) : Prop where
  mem : test ∈ catalog
  names : test.name.toList = title
  inside : modulePath test.path.toList <+: modules
  longest : ∀ other ∈ catalog, other.name.toList = title →
    modulePath other.path.toList <+: modules →
      (modulePath other.path.toList).length ≤ (modulePath test.path.toList).length

/-- How many of the modules are the names of directories or of the file in a path. -/
def mentions (modules : List (List Char)) (test : TestCase) : ℕ :=
  modules.countP (· ∈ fileSegments test.path.toList)

/-- The modules of the test's own file, and those inside it that have the name of a directory
above it or of the file again. -/
def ownMentions (modules : List (List Char)) (test : TestCase) : ℕ :=
  let depth := (modulePath test.path.toList).length
  depth + mentions (modules.drop depth) test

/-- No test of the title is in a path with more of the modules, and none that comes first is in
one with as many. -/
def Unrivalled (catalog : List TestCase) (modules : List (List Char)) (title : List Char)
    (test : TestCase) : Prop :=
  ∃ before behind, catalog = before ++ test :: behind ∧
    (∀ other ∈ before, other.name.toList = title →
      mentions modules other < ownMentions modules test) ∧
    ∀ other ∈ behind, other.name.toList = title →
      mentions modules other ≤ ownMentions modules test

theorem modulePath_subset (path : List Char) : modulePath path ⊆ fileSegments path := by
  rw [modulePath]
  split_ifs
  · exact List.nil_subset _
  · exact (List.dropLast_sublist _).subset
  · exact List.Subset.refl _

theorem Belongs.mentions_eq {catalog : List TestCase} {modules : List (List Char)}
    {title : List Char} {test : TestCase} (h : Belongs catalog modules title test) :
    mentions modules test = ownMentions modules test := by
  obtain ⟨inner, hinner⟩ := h.inside
  have hown : (modulePath test.path.toList).countP (· ∈ fileSegments test.path.toList) =
      (modulePath test.path.toList).length :=
    List.countP_eq_length.mpr fun m hm => by simpa using modulePath_subset _ hm
  rw [ownMentions, mentions, mentions, ← hinner, List.countP_append, hown, List.drop_left]

theorem foremost_filter {α : Type*} {rank : α → ℕ} {p : α → Bool} {l : List α} {a : α}
    (ha : p a = true) : Foremost rank (l.filter p) a ↔
      ∃ before behind, l = before ++ a :: behind ∧ (∀ b ∈ before, p b = true → rank b < rank a) ∧
        ∀ b ∈ behind, p b = true → rank b ≤ rank a := by
  constructor
  · rintro ⟨before, behind, hl, hbefore, hbehind⟩
    obtain ⟨front, back, rfl, rfl, hback⟩ := List.filter_eq_append_iff.mp hl
    obtain ⟨skipped, rest, rfl, hskipped, -, rfl⟩ := List.filter_eq_cons_iff.mp hback
    refine ⟨front ++ skipped, rest, by simp, fun b hb hp => ?_, fun b hb hp => ?_⟩
    · rcases List.mem_append.mp hb with hb | hb
      · exact hbefore b (List.mem_filter.mpr ⟨hb, hp⟩)
      · exact absurd hp (hskipped b hb)
    · exact hbehind b (List.mem_filter.mpr ⟨hb, hp⟩)
  · rintro ⟨before, behind, rfl, hbefore, hbehind⟩
    refine ⟨before.filter p, behind.filter p, by simp [ha], fun b hb => ?_, fun b hb => ?_⟩
    · exact hbefore b (List.mem_of_mem_filter hb) (List.mem_filter.mp hb).2
    · exact hbehind b (List.mem_of_mem_filter hb) (List.mem_filter.mp hb).2

theorem Belongs.unrivalled_iff {catalog : List TestCase} {modules : List (List Char)}
    {title : List Char} {test : TestCase} (h : Belongs catalog modules title test) :
    Foremost (mentions modules) (catalog.filter fun c => c.name.toList = title) test ↔
      Unrivalled catalog modules title test := by
  rw [foremost_filter (by simpa using h.names), Unrivalled, h.mentions_eq]
  simp only [decide_eq_true_eq]

/-! ## A name is split where its segments end -/

theorem splitPath_append {segment text : List Char} (before : List Char) (h : ':' ∉ segment) :
    splitPath before (segment ++ text) = splitPath (before ++ segment) text := by
  induction segment generalizing before with
  | nil => simp
  | cons c segment ih =>
    have hc : c ≠ ':' := fun hc => h (by simp [hc])
    have hstep : splitPath before (c :: (segment ++ text)) =
        splitPath (before ++ [c]) (segment ++ text) := by
      rw [splitPath]
      intro rest hcolon
      exact absurd hcolon hc
    rw [List.cons_append, hstep, ih _ fun hmem => h (List.mem_cons_of_mem _ hmem)]
    simp

theorem splitPath_intercalate {segments : List (List Char)} (hne : segments ≠ [])
    (h : ∀ segment ∈ segments, ':' ∉ segment) :
    splitPath [] (List.intercalate "::".toList segments) = segments := by
  induction segments with
  | nil => contradiction
  | cons segment segments ih =>
    have hhead : ':' ∉ segment := h segment (by simp)
    cases segments with
    | nil =>
      have hsplit : splitPath [] (segment ++ []) = splitPath segment [] :=
        splitPath_append [] hhead
      simpa [splitPath] using hsplit
    | cons next segments =>
      rw [List.intercalate_cons_cons, List.append_assoc, splitPath_append [] hhead]
      have hnext := ih (by simp) fun s hs => h s (List.mem_cons_of_mem _ hs)
      have hcut (rest : List Char) : splitPath segment ("::".toList ++ rest) =
          segment :: splitPath [] rest := by rw [← splitPath]; rfl
      rw [List.nil_append, hcut, hnext]

theorem stemParts_eq {path stem : List Char}
    (h : path = "src/".toList ++ (stem ++ ".rs".toList)) : stemParts path = fileSegments path := by
  rw [stemParts, fileSegments, stripPrefix_eq_some.mpr h, Option.getD_some,
    stripSuffix_eq_some.mpr rfl]
  rfl

theorem score_eq {modules : List (List Char)} {test : TestCase} {stem : List Char}
    (h : test.path.toList = "src/".toList ++ (stem ++ ".rs".toList)) :
    score modules test = mentions modules test := by
  rw [score, mentions, stemParts_eq h, List.countP_eq_length_filter]

theorem matchRustTestName_runnerPath (catalog : List TestCase) {modules : List (List Char)}
    {title : List Char} (h : ∀ segment ∈ modules ++ [title], ':' ∉ segment) :
    matchRustTestName catalog (String.ofList (runnerPath modules title)) =
      let byTitle := catalog.filter fun c => c.name.toList = title
      if byTitle.length ≤ 1 then byTitle.head?
      else (byTitle.insertionSort fun x y => score modules y ≤ score modules x).head? := by
  have hsplit : splitPath [] (String.ofList (runnerPath modules title)).toList =
      modules ++ [title] := by
    rw [String.toList_ofList, runnerPath, splitPath_intercalate (by simp) h]
  rw [matchRustTestName, hsplit]
  simp only [List.getLast?_append, List.getLast?_singleton, Option.some_or, Option.getD_some,
    List.length_append, List.length_singleton, Nat.add_sub_cancel, List.take_left]
  rw [← List.map_insertionSort (fun x y => score modules y ≤ score modules x)]
  · rw [List.head?_map, Option.map_map]
    simp [Function.comp_def]
  · simp

theorem foremost_short {α : Type*} {rank : α → ℕ} {l : List α} (hshort : l.length ≤ 1) {a : α} :
    l.head? = some a ↔ Foremost rank l a := by
  rw [← head_insertionSort]
  cases l with
  | nil => simp
  | cons b l =>
    obtain rfl : l = [] := by simpa using hshort
    simp

theorem insertionSort_congr {α : Type*} {r s : α → α → Prop} [DecidableRel r] [DecidableRel s]
    {l : List α} (h : ∀ x ∈ l, ∀ y ∈ l, r x y ↔ s x y) : l.insertionSort r = l.insertionSort s := by
  simpa using List.map_insertionSort r s id l h

theorem matchRustTestName_foremost (word : Char → Bool) (files : List ProjectFile)
    {modules : List (List Char)} {title : List Char} {test : TestCase}
    (hcolon : ∀ segment ∈ modules ++ [title], ':' ∉ segment) :
    matchRustTestName (discoverRustTests word files)
        (String.ofList (runnerPath modules title)) = some test ↔
      Foremost (mentions modules)
        ((discoverRustTests word files).filter fun c => c.name.toList = title) test := by
  rw [matchRustTestName_runnerPath _ hcolon]
  generalize hbyTitle : (discoverRustTests word files).filter
    (fun c => c.name.toList = title) = byTitle
  have hscore : ∀ c ∈ byTitle, score modules c = mentions modules c := by
    intro c hc
    obtain ⟨stem, hstem⟩ :=
      discoverRustTests_path word (List.mem_of_mem_filter (hbyTitle.symm ▸ hc))
    exact score_eq hstem
  by_cases hshort : byTitle.length ≤ 1
  · simpa only [if_pos hshort] using foremost_short hshort
  · simp only [if_neg hshort]
    rw [insertionSort_congr fun x hx y hy => by rw [hscore x hx, hscore y hy],
      head_insertionSort]

theorem rust_name_lands_iff (word : Char → Bool) (files : List ProjectFile)
    {modules : List (List Char)} {title : List Char} {test : TestCase}
    (hcolon : ∀ segment ∈ modules ++ [title], ':' ∉ segment)
    (h : Belongs (discoverRustTests word files) modules title test) :
    matchRustTestName (discoverRustTests word files)
        (String.ofList (runnerPath modules title)) = some test ↔
      Unrivalled (discoverRustTests word files) modules title test := by
  rw [matchRustTestName_foremost word files hcolon, h.unrivalled_iff]

def asciiWord (c : Char) : Bool := c.isAlphanum || c = '_'

theorem rust_name_lands_alone :
    matchRustTestName (discoverRustTests asciiWord
        [⟨"a.rs", "", "#[test]\nfn t() {}"⟩, ⟨"b/mod.rs", "", "\n #[tokio::test]\n pub fn t() {}"⟩])
      (String.ofList (runnerPath ["b".toList] "t".toList)) =
        some ⟨"b/mod.rs:3", "src/b/mod.rs", "t", 3, 2⟩ :=
  (rust_name_lands_iff asciiWord _ (by decide) ⟨by decide, by decide, by decide, by decide⟩).mpr
    ⟨[⟨"a.rs:2", "src/a.rs", "t", 2, 1⟩], [], by decide, by decide, by decide⟩

/-- Two files with each other's name for a directory: the modules are counted in any order. -/
theorem rust_name_lands_in_crossed_file :
    let catalog := discoverRustTests asciiWord
      [⟨"a/b.rs", "", "#[test]\nfn t() {}"⟩, ⟨"b/a.rs", "", "#[test]\nfn t() {}"⟩]
    Belongs catalog ["b".toList, "a".toList] "t".toList ⟨"b/a.rs:2", "src/b/a.rs", "t", 2, 1⟩ ∧
      matchRustTestName catalog "b::a::t" = some ⟨"a/b.rs:2", "src/a/b.rs", "t", 2, 1⟩ :=
  ⟨⟨by decide, by decide, by decide, by decide⟩, by decide⟩

end Atomis.TestRun
