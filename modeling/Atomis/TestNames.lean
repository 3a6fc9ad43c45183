import Atomis.TestRun

/-!
# From the runner's name back to the test

Zig's runner names a test by its file and title, Python's by its module and qualified name. Both
names are plain text, and the marker or the dot between their parts can stand in the parts too.
-/

namespace Atomis.TestRun
open Ndjson

theorem mem_occurrences {marker before text start behind : List Char} (hne : marker ≠ []) :
    (start, behind) ∈ occurrences marker before text ↔
      ∃ between, start = before ++ between ∧ text = between ++ marker ++ behind := by
  induction text generalizing before with
  | nil => simp [occurrences, hne]
  | cons c text ih =>
    have hlater : (start, behind) ∈ occurrences marker (before ++ [c]) text ↔
        ∃ between, start = before ++ c :: between ∧ text = between ++ marker ++ behind := by
      simp [ih]
    by_cases hstarts : marker.isPrefixOf (c :: text)
    · obtain ⟨rest, hrest⟩ := List.isPrefixOf_iff_prefix.mp hstarts
      rw [occurrences, if_pos hstarts, List.mem_cons, hlater, ← hrest, List.drop_left]
      constructor
      · rintro (hhere | ⟨between, hstart, htext⟩)
        · cases hhere
          exact ⟨[], by simp⟩
        · exact ⟨c :: between, hstart, by simpa [htext] using hrest⟩
      · rintro ⟨between, hstart, htext⟩
        cases between with
        | nil =>
          rw [List.nil_append, List.append_cancel_left_eq] at htext
          exact Or.inl (by simp [hstart, htext])
        | cons d between =>
          rw [hrest, List.cons_append, List.cons_append, List.cons.injEq] at htext
          exact Or.inr ⟨between, by rw [hstart, htext.1], htext.2⟩
    · rw [occurrences, if_neg hstarts, hlater]
      constructor
      · rintro ⟨between, hstart, htext⟩
        exact ⟨c :: between, hstart, by simp [htext]⟩
      · rintro ⟨between, hstart, htext⟩
        cases between with
        | nil =>
          refine absurd (List.isPrefixOf_iff_prefix.mpr ⟨behind, ?_⟩) hstarts
          simpa using htext.symm
        | cons d between =>
          rw [List.cons_append, List.cons_append, List.cons.injEq] at htext
          exact ⟨between, by rw [hstart, htext.1], htext.2⟩

theorem stripSuffix_eq_some {suffix text head : List Char} :
    stripSuffix suffix text = some head ↔ text = head ++ suffix := by
  unfold stripSuffix
  split_ifs with h
  · obtain ⟨start, rfl⟩ := List.isSuffixOf_iff_suffix.mp h
    rw [Option.some.injEq, List.length_append, Nat.add_sub_cancel, List.take_left,
      List.append_cancel_right_eq]
  · simp only [false_iff]
    rintro rfl
    exact h (List.isSuffixOf_iff_suffix.mpr ⟨head, rfl⟩)

theorem stripPrefix_eq_some {start text rest : List Char} :
    stripPrefix start text = some rest ↔ text = start ++ rest := by
  unfold stripPrefix
  split_ifs with h
  · obtain ⟨behind, rfl⟩ := List.isPrefixOf_iff_prefix.mp h
    rw [Option.some.injEq, List.drop_left, List.append_cancel_left_eq]
  · simp only [false_iff]
    rintro rfl
    exact h (List.isPrefixOf_iff_prefix.mpr ⟨rest, rfl⟩)

/-- The names that a runner gives the tests: what stands for the file, and what is between it
and the name. -/
structure Naming where
  file : List Char → List Char
  between : List Char

def Naming.encode (naming : Naming) (test : TestCase) : List Char :=
  naming.file test.path.toList ++ naming.between ++ test.name.toList

/-- The test that a text names, and no other of the catalog. -/
structure Naming.Only (naming : Naming) (catalog : List TestCase) (text : List Char)
    (test : TestCase) : Prop where
  mem : test ∈ catalog
  names : naming.encode test = text
  unique : ∀ other ∈ catalog, naming.encode other = text → other = test

theorem Naming.Only.find {naming : Naming} {catalog : List TestCase} {text : List Char}
    {test : TestCase} (h : naming.Only catalog text test) {p : TestCase → Bool}
    (hp : p test = true) (hnames : ∀ other ∈ catalog, p other = true → naming.encode other = text) :
    catalog.find? p = some test := by
  cases hfound : catalog.find? p with
  | none => exact absurd hp (List.find?_eq_none.mp hfound test h.mem)
  | some other =>
    have hmem := List.mem_of_find?_eq_some hfound
    rw [h.unique other hmem (hnames other hmem (List.find?_some hfound))]

/-! ## Zig -/

/-- The path of a file in dots, without the extension. -/
def dottedPath (path : List Char) : List Char :=
  List.intercalate ['.'] (((stripSuffix ".zig".toList path).getD path).splitOn '/')

theorem intercalate_splitOn_replace (text : List Char) (c d : Char) :
    List.intercalate [d] (text.splitOn c) = text.map fun b => if b = c then d else b := by
  induction text with
  | nil => rfl
  | cons b text ih =>
    rw [List.splitOn_cons_eq_if_modifyHead]
    obtain ⟨piece, pieces, hsplit⟩ := List.exists_cons_of_ne_nil (List.splitOn_ne_nil c text)
    rw [hsplit] at ih ⊢
    by_cases hb : b = c
    · simp [hb, List.intercalate_cons_cons, ih]
    · cases pieces <;> simp_all [List.intercalate_cons_cons]

theorem expectedPrefix_eq (path : List Char) : expectedPrefix path = dottedPath path := by
  rw [expectedPrefix, dottedPath, intercalate_splitOn_replace]

def zigNaming : Naming := ⟨dottedPath, ".test.".toList⟩

theorem zig_encode (test : TestCase) : zigNaming.encode test =
    expectedPrefix test.path.toList ++ ".test.".toList ++ test.name.toList := by
  rw [expectedPrefix_eq]
  rfl

theorem findSome?_only {α β : Type} {places : List α} {f : α → Option β} {b : β}
    (hfound : ∃ place ∈ places, f place ≠ none)
    (h : ∀ place ∈ places, ∀ other, f place = some other → other = b) :
    places.findSome? f = some b := by
  cases hfirst : places.findSome? f with
  | none =>
    obtain ⟨place, hmem, hsome⟩ := hfound
    exact absurd (List.findSome?_eq_none_iff.mp hfirst place hmem) hsome
  | some other =>
    obtain ⟨place, hmem, hother⟩ := List.exists_of_findSome?_eq_some hfirst
    rw [h place hmem other hother]

theorem matchRunnerName_only {catalog : List TestCase} {runnerName : String} {test : TestCase}
    (h : zigNaming.Only catalog runnerName.toList test) :
    matchRunnerName catalog runnerName = some test := by
  unfold matchRunnerName
  dsimp only
  rw [findSome?_only (b := test), Option.some_or]
  · refine ⟨(expectedPrefix test.path.toList, test.name.toList), ?_, fun hnone => ?_⟩
    · refine (mem_occurrences (by decide)).mpr ⟨expectedPrefix test.path.toList, rfl, ?_⟩
      rw [← h.names, zig_encode]
    · have := List.find?_eq_none.mp hnone test h.mem
      simp at this
  -- whatever split is found first, the test there has the runner's name for its own
  · intro place hmem other hother
    have hnamed := List.find?_some hother
    simp only [decide_eq_true_eq] at hnamed
    obtain ⟨between, hstart, htext⟩ := (mem_occurrences (by decide)).mp hmem
    refine h.unique other (List.mem_of_find?_eq_some hother) ?_
    rw [zig_encode, hnamed.1, hnamed.2, hstart, htext, List.nil_append]

/-! ## Python -/

/-- The name of a module: the last segment of its path, without the extension. -/
def moduleStem (path : List Char) : List Char :=
  lastPiece '/' ((stripSuffix ".py".toList path).getD path)

def pyNaming : Naming := ⟨moduleStem, ['.']⟩

/-- The stem as the matcher takes it, from the path inside the sources. -/
def stemInside (path : List Char) : List Char :=
  lastPiece '/' ((stripSuffix ".py".toList
    ((stripPrefix "src/".toList path).getD path)).getD path)

theorem lastPiece_append (before text : List Char) (c : Char) :
    lastPiece c (before ++ c :: text) = lastPiece c text := by
  have hcut : (text.reverse ++ (c :: before.reverse)).takeWhile (· ≠ c) =
      text.reverse.takeWhile (· ≠ c) := by
    rw [List.takeWhile_append]
    split_ifs with h
    · rw [List.takeWhile_cons_of_neg (by simp), List.append_nil,
        (List.takeWhile_prefix _).eq_of_length h]
    · rfl
  rw [lastPiece, lastPiece, List.rtakeWhile, List.rtakeWhile, List.reverse_append,
    List.reverse_cons, List.append_assoc, List.singleton_append, hcut]

theorem stripSuffix_inside {inside : List Char}
    (h : stripSuffix ".py".toList inside = none) :
    stripSuffix ".py".toList ("src/".toList ++ inside) = none := by
  refine Option.eq_none_iff_forall_ne_some.mpr fun head hhead => ?_
  rcases List.append_eq_append_iff.mp (stripSuffix_eq_some.mp hhead) with
    ⟨rest, -, hinside⟩ | ⟨rest, hsrc, hpy⟩
  · rw [stripSuffix_eq_some.mpr hinside] at h
    contradiction
  · rcases List.eq_nil_or_concat' rest with rfl | ⟨start, c, rfl⟩
    · have hwhole : stripSuffix ".py".toList inside = some [] := stripSuffix_eq_some.mpr hpy.symm
      rw [h] at hwhole
      contradiction
    · -- the slash of the directory would stand in the extension
      have hslash : c = '/' := by simpa using (congrArg List.getLast? hsrc).symm
      have hmem : c ∈ ".py".toList := by simp [hpy]
      rw [hslash] at hmem
      exact absurd hmem (by decide)

theorem stemInside_eq (path : List Char) : stemInside path = moduleStem path := by
  unfold stemInside moduleStem
  cases hinside : stripPrefix "src/".toList path with
  | none => rfl
  | some inside =>
    obtain rfl := stripPrefix_eq_some.mp hinside
    rw [Option.getD_some]
    cases hstem : stripSuffix ".py".toList inside with
    | none => rw [stripSuffix_inside hstem, Option.getD_none]
    | some stem =>
      have hwhole : stripSuffix ".py".toList ("src/".toList ++ inside) =
          some ("src/".toList ++ stem) := by
        rw [stripSuffix_eq_some, stripSuffix_eq_some.mp hstem, List.append_assoc]
      rw [hwhole, Option.getD_some, Option.getD_some]
      exact (lastPiece_append "src".toList stem '/').symm

theorem py_encode (test : TestCase) :
    pyNaming.encode test = stemInside test.path.toList ++ ['.'] ++ test.name.toList := by
  rw [stemInside_eq]
  rfl

/-- Whether the name ends a dotted name. -/
def endsName (runnerName : String) (c : TestCase) : Bool :=
  runnerName = c.name ∨
    (stripSuffix c.name.toList runnerName.toList).any fun head => head.getLast? = some '.'

def stemMatches (runnerName : String) (c : TestCase) : Bool :=
  (stripSuffix c.name.toList runnerName.toList).bind (stripSuffix ['.']) =
    some (stemInside c.path.toList)

theorem stemMatches_iff (runnerName : String) (c : TestCase) :
    stemMatches runnerName c = true ↔ pyNaming.encode c = runnerName.toList := by
  rw [stemMatches, decide_eq_true_eq, Option.bind_eq_some_iff, py_encode]
  constructor
  · rintro ⟨head, hname, hhead⟩
    rw [stripSuffix_eq_some.mp hname, stripSuffix_eq_some.mp hhead]
  · intro h
    exact ⟨stemInside c.path.toList ++ ['.'], stripSuffix_eq_some.mpr h.symm,
      stripSuffix_eq_some.mpr rfl⟩

theorem stemMatches_endsName {runnerName : String} {c : TestCase}
    (h : stemMatches runnerName c = true) : endsName runnerName c = true := by
  have hname := (stemMatches_iff runnerName c).mp h
  rw [py_encode] at hname
  simp [endsName, stripSuffix_eq_some.mpr hname.symm]

theorem matchPyTestName_eq (catalog : List TestCase) (runnerName : String) :
    matchPyTestName catalog runnerName =
      let bySuffix := catalog.filter (endsName runnerName)
      if bySuffix.length ≤ 1 then bySuffix.head?
      else (bySuffix.find? (stemMatches runnerName)).or bySuffix.head? := rfl

theorem matchPyTestName_only {catalog : List TestCase} {runnerName : String} {test : TestCase}
    (h : pyNaming.Only catalog runnerName.toList test) :
    matchPyTestName catalog runnerName = some test := by
  have hstem := (stemMatches_iff runnerName test).mpr h.names
  have hmem : test ∈ catalog.filter (endsName runnerName) :=
    List.mem_filter.mpr ⟨h.mem, stemMatches_endsName hstem⟩
  rw [matchPyTestName_eq]
  generalize hsuffix : catalog.filter (endsName runnerName) = bySuffix at hmem
  have hsub : ∀ other ∈ bySuffix, other ∈ catalog := fun other hother =>
    List.mem_of_mem_filter (hsuffix ▸ hother)
  by_cases hone : bySuffix.length ≤ 1
  · obtain ⟨first, rfl⟩ := List.length_eq_one_iff.mp
      (Nat.le_antisymm hone (List.length_pos_of_mem hmem))
    rw [List.mem_singleton.mp hmem]
    rfl
  · have hsome : pyNaming.Only bySuffix runnerName.toList test :=
      ⟨hmem, h.names, fun other hother => h.unique other (hsub other hother)⟩
    simp only [if_neg hone]
    rw [hsome.find hstem fun other _ => (stemMatches_iff runnerName other).mp, Option.some_or]

/-! ## Both -/

theorem runner_names_land {catalog : List TestCase} {runnerName : String} {test : TestCase} :
    (zigNaming.Only catalog runnerName.toList test →
      matchRunnerName catalog runnerName = some test) ∧
    (pyNaming.Only catalog runnerName.toList test →
      matchPyTestName catalog runnerName = some test) :=
  ⟨matchRunnerName_only, matchPyTestName_only⟩

theorem runner_names_land_shared_titles :
    matchRunnerName [⟨"b.zig:1", "src/b.zig", "x.test.y", 1, 1⟩,
      ⟨"a/b.zig:4", "src/a/b.zig", "x.test.y", 4, 1⟩, ⟨"a/b.zig:9", "src/a/b.zig", "y", 9, 1⟩]
      "src.a.b.test.x.test.y" = some ⟨"a/b.zig:4", "src/a/b.zig", "x.test.y", 4, 1⟩ ∧
    matchPyTestName [⟨"Box.py:1", "src/Box.py", "test_x", 1, 1⟩,
      ⟨"m/test_a.py:2", "src/m/test_a.py", "Box.test_x", 2, 1⟩]
      "test_a.Box.test_x" = some ⟨"m/test_a.py:2", "src/m/test_a.py", "Box.test_x", 2, 1⟩ :=
  ⟨runner_names_land.1 ⟨by decide, by decide, by decide⟩,
    runner_names_land.2 ⟨by decide, by decide, by decide⟩⟩

end Atomis.TestRun
