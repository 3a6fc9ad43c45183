import Atomis.ZonManifest

/-!
# The readers of the Zig manifest

`parseBuildZon` sees a manifest as lines: one that opens an entry, those of its block and one
that closes it. It lists the dependencies exactly if their lines are laid out so. The compile
server sees words, wherever they stand.
-/

namespace Atomis.ZonManifest
open Ndjson Zon

abbrev Line := List Char

/-! ## The lines of a listing -/

/-- The lines behind the one that holds the first `.dependencies`. -/
def listedLines (text : List Char) : List Line :=
  ((findFrom dependenciesWord text).map fun rest => (lines rest).drop 1).getD []

/-- The version in the last line of a block that has one. -/
def lastVersion (body : List Line) : List Char :=
  body.foldl (fun version line => (lineVersion (trim line)).getD version) []

def IsSkipped (skipped : List Line) : Prop :=
  ∀ line ∈ skipped, openerName (trim line) = none ∧ closes (trim line) = false

def IsBody (body : List Line) : Prop := ∀ line ∈ body, closes (trim line) = false

/-- Each dependency has a block of lines, in order: a line that opens it, lines that do not begin
with a brace and the last version among which is its own, and a line that begins with one. Between
the blocks are other lines, and after the last one a line that begins with a brace, or none. -/
inductive LineByLine : List Line → List Dependency → Prop
  | ends {skipped : List Line} : IsSkipped skipped → LineByLine skipped []
  | closes {skipped rest : List Line} {closer : Line} : IsSkipped skipped →
      closes (trim closer) → LineByLine (skipped ++ closer :: rest) []
  | block {skipped body rest : List Line} {opener closer : Line} {name : List Char}
      {found : List Dependency} : IsSkipped skipped → openerName (trim opener) = some name →
      IsBody body → closes (trim closer) → LineByLine rest found →
      LineByLine (skipped ++ opener :: body ++ closer :: rest) (⟨name, lastVersion body⟩ :: found)
  | unclosed {skipped body : List Line} {opener : Line} {name : List Char} :
      IsSkipped skipped → openerName (trim opener) = some name → IsBody body →
      LineByLine (skipped ++ opener :: body) [⟨name, lastVersion body⟩]

/-! ## Blocks one at a time -/

mutual

/-- What is listed outside a block, each version taken from its own block. -/
def outside : List Line → List Dependency
  | [] => []
  | line :: lines =>
    match openerName (trim line) with
    | some name => inside name [] lines
    | none => if ZonManifest.closes (trim line) then [] else outside lines

def inside (name version : List Char) : List Line → List Dependency
  | [] => [⟨name, version⟩]
  | line :: lines =>
    if ZonManifest.closes (trim line) then ⟨name, version⟩ :: outside lines
    else inside name ((lineVersion (trim line)).getD version) lines

end

variable {name version : List Char} {line opener closer : Line}
  {skipped body rest lines : List Line} {found : List Dependency}

theorem openerName_of_closes {trimmed : List Char} (h : closes trimmed) :
    openerName trimmed = none := by
  cases trimmed with
  | nil => rfl
  | cons c trimmed =>
    simp only [closes, List.isPrefixOf, Bool.and_true, beq_iff_eq] at h
    rw [← h]
    rfl

theorem outside_skipped (h : IsSkipped skipped) (rest : List Line) :
    outside (skipped ++ rest) = outside rest := by
  induction skipped with
  | nil => rfl
  | cons line skipped ih =>
    obtain ⟨hopener, hcloses⟩ := h line List.mem_cons_self
    rw [List.cons_append, outside, hopener]
    simp only [hcloses, Bool.false_eq_true, if_false]
    exact ih fun line hline => h line (List.mem_cons_of_mem _ hline)

theorem inside_body (h : IsBody body) (name version : List Char) (rest : List Line) :
    inside name version (body ++ rest) =
      inside name (body.foldl (fun version line => (lineVersion (trim line)).getD version) version)
        rest := by
  induction body generalizing version with
  | nil => rfl
  | cons line body ih =>
    rw [List.cons_append, inside, h line List.mem_cons_self]
    exact ih (fun line hline => h line (List.mem_cons_of_mem _ hline)) _

theorem LineByLine.outside_eq (h : LineByLine lines found) : outside lines = found := by
  induction h with
  | @ends skipped hskipped =>
    rw [← List.append_nil skipped, outside_skipped hskipped]
    rfl
  | closes hskipped hcloser =>
    rw [outside_skipped hskipped, outside, openerName_of_closes hcloser]
    simp only [hcloser, if_true]
  | block hskipped hopener hbody hcloser _ ih =>
    rw [List.append_assoc, outside_skipped hskipped, List.cons_append, outside, hopener]
    simp only [inside_body hbody, inside, hcloser, if_true, ih]
    rfl
  | @unclosed skipped body opener name hskipped hopener hbody =>
    rw [outside_skipped hskipped, outside, hopener]
    have hinside := inside_body hbody name [] []
    rw [List.append_nil] at hinside
    exact hinside

theorem IsSkipped.append (h : IsSkipped skipped) (hopener : openerName (trim line) = none)
    (hcloses : ¬closes (trim line)) : IsSkipped (skipped ++ [line]) := by
  intro other hother
  rcases List.mem_append.mp hother with hother | hother
  · exact h other hother
  · rw [List.mem_singleton.mp hother]
    exact ⟨hopener, by simpa using hcloses⟩

theorem IsBody.append (h : IsBody body) (hcloses : ¬closes (trim line)) :
    IsBody (body ++ [line]) := by
  intro other hother
  rcases List.mem_append.mp hother with hother | hother
  · exact h other hother
  · rw [List.mem_singleton.mp hother]
    simpa using hcloses

/-- What is skipped and what is inside a block are the lines read so far. -/
theorem lineByLine_read (lines : List Line) :
    (∀ skipped, IsSkipped skipped → LineByLine (skipped ++ lines) (outside lines)) ∧
      ∀ skipped opener name body, IsSkipped skipped → openerName (trim opener) = some name →
        IsBody body → LineByLine (skipped ++ opener :: body ++ lines)
          (inside name (lastVersion body) lines) := by
  induction lines with
  | nil =>
    refine ⟨fun skipped hskipped => ?_, fun skipped opener name body hskipped hopener hbody => ?_⟩
    · rw [List.append_nil]
      exact .ends hskipped
    · rw [List.append_nil]
      exact .unclosed hskipped hopener hbody
  | cons line lines ih =>
    obtain ⟨ihOutside, ihInside⟩ := ih
    refine ⟨fun skipped hskipped => ?_, fun skipped opener name body hskipped hopener hbody => ?_⟩
    · rw [outside]
      cases hname : openerName (trim line) with
      | some name =>
        have hblock := ihInside skipped line name [] hskipped hname fun _ hline => nomatch hline
        rwa [List.append_assoc] at hblock
      | none =>
        by_cases hcloses : closes (trim line)
        · simp only [hcloses, if_true]
          exact .closes hskipped hcloses
        · simp only [hcloses, Bool.false_eq_true, if_false]
          have hrest := ihOutside (skipped ++ [line]) (hskipped.append hname hcloses)
          rwa [List.append_assoc] at hrest
    · rw [inside]
      by_cases hcloses : closes (trim line)
      · simp only [hcloses, if_true]
        exact .block hskipped hopener hbody hcloses (ihOutside [] fun _ hline => nomatch hline)
      · simp only [hcloses, Bool.false_eq_true, if_false]
        have hrest := ihInside skipped opener name (body ++ [line]) hskipped hopener
          (hbody.append hcloses)
        rw [lastVersion, List.foldl_append] at hrest
        simpa [lastVersion] using hrest

theorem lineByLine_iff : LineByLine lines found ↔ outside lines = found := by
  refine ⟨LineByLine.outside_eq, fun h => ?_⟩
  rw [← h]
  exact (lineByLine_read lines).1 [] fun _ hline => nomatch hline

/-! ## The scan -/

theorem setVersion_names (name version : List Char) (found : List Dependency) :
    (setVersion name version found).map (·.name) = found.map (·.name) := by
  induction found with
  | nil => rfl
  | cons entry found ih =>
    rw [setVersion]
    split_ifs
    · rfl
    · rw [List.map_cons, ih, List.map_cons]

theorem setVersion_last (h : name ∉ found.map (·.name)) (before : List Char) :
    setVersion name version (found ++ [⟨name, before⟩]) = found ++ [⟨name, version⟩] := by
  induction found with
  | nil => simp [setVersion]
  | cons entry found ih =>
    rw [List.map_cons, List.mem_cons, not_or] at h
    rw [List.cons_append, setVersion, if_neg (Ne.symm h.1), ih h.2, List.cons_append]

theorem inside_names (name version : List Char) (lines : List Line) :
    name ∈ (inside name version lines).map (·.name) := by
  induction lines generalizing version with
  | nil => simp [inside]
  | cons line lines ih =>
    rw [inside]
    split_ifs
    · simp
    · exact ih _

/-- The names come out in any case. -/
theorem scan_names (lines : List Line) :
    (∀ found, (scan { depth := 0, current := none, found } lines).map (·.name) =
        (found ++ outside lines).map (·.name)) ∧
      ∀ found before name version,
        found.map (·.name) = before.map (·.name) ++ [name] →
        (scan { depth := 1, current := some name, found } lines).map (·.name) =
          (before ++ inside name version lines).map (·.name) := by
  induction lines with
  | nil =>
    refine ⟨fun found => ?_, fun found before name version h => ?_⟩
    · simp [scan, outside]
    · simp [scan, inside, h]
  | cons line lines ih =>
    obtain ⟨ihOutside, ihInside⟩ := ih
    refine ⟨fun found => ?_, fun found before name version h => ?_⟩
    · rw [scan, outside]
      cases openerName (trim line) with
      | some name => exact ihInside _ found name [] (by simp)
      | none =>
        simp only [if_true]
        split_ifs
        · rw [List.append_nil]
        · exact ihOutside found
    · rw [scan, inside]
      simp only [Nat.one_ne_zero, if_false]
      split_ifs
      · rw [ihOutside, List.map_append, h]
        simp
      · cases lineVersion (trim line) with
        | none => exact ihInside found before name version h
        | some found' =>
          exact ihInside _ before name _ (by rw [setVersion_names, h])

/-- Where no name is listed twice each version comes from its own block. -/
theorem scan_eq (lines : List Line) :
    (∀ found : List Dependency, ((found ++ outside lines).map (·.name)).Nodup →
        scan { depth := 0, current := none, found } lines = found ++ outside lines) ∧
      ∀ (found : List Dependency) name version,
        ((found ++ inside name version lines).map (·.name)).Nodup →
        scan { depth := 1, current := some name, found := found ++ [⟨name, version⟩] } lines =
          found ++ inside name version lines := by
  induction lines with
  | nil =>
    refine ⟨fun found _ => ?_, fun found name version _ => ?_⟩
    · rw [scan, outside, List.append_nil]
    · rw [scan, inside]
  | cons line lines ih =>
    obtain ⟨ihOutside, ihInside⟩ := ih
    refine ⟨fun found h => ?_, fun found name version h => ?_⟩
    · rw [outside] at h ⊢
      rw [scan]
      cases hname : openerName (trim line) with
      | some name =>
        rw [hname] at h
        exact ihInside found name [] h
      | none =>
        rw [hname] at h
        simp only [if_true] at h ⊢
        by_cases hcloses : closes (trim line)
        · simp only [hcloses, if_true]
          rw [List.append_nil]
        · simp only [hcloses, Bool.false_eq_true, if_false] at h ⊢
          exact ihOutside found h
    · have hnot : name ∉ found.map (·.name) := fun hmem => by
        rw [List.map_append] at h
        exact (List.nodup_append.mp h).2.2 name hmem name (inside_names name version _) rfl
      rw [inside] at h ⊢
      rw [scan]
      simp only [Nat.one_ne_zero, if_false]
      by_cases hcloses : closes (trim line)
      · simp only [hcloses, if_true] at h ⊢
        rw [ihOutside, List.append_assoc]
        · rfl
        · rwa [List.append_assoc]
      · simp only [hcloses, Bool.false_eq_true, if_false] at h ⊢
        cases hversion : lineVersion (trim line) with
        | none =>
          rw [hversion] at h
          exact ihInside found name version h
        | some found' =>
          rw [hversion] at h
          simp only [setVersion_last hnot]
          exact ihInside found name found' h

theorem parseBuildZon_eq (text : List Char) :
    parseBuildZon text = scan {} (listedLines text) := by
  rw [parseBuildZon, listedLines]
  cases findFrom dependenciesWord text <;> rfl

/-- The field `dependencies` stands in a manifest once at most. -/
theorem entries_nodup {items : List Top}
    (hdistinct : (items.map fun item : Top => item.name.spelling).Nodup)
    (hproper : ∀ item ∈ items, item.Proper) :
    ((items.flatMap fun | .dependencies f => f.value.items | .other _ => []).map
      fun entry : Entry => entry.name.spelling).Nodup := by
  induction items with
  | nil => exact List.nodup_nil
  | cons item items ih =>
    rw [List.map_cons, List.nodup_cons] at hdistinct
    have hitem := hproper item List.mem_cons_self
    have hitems := fun item hmem => hproper item (List.mem_cons_of_mem _ hmem)
    cases item with
    | other f => exact ih hdistinct.2 hitems
    | dependencies f =>
      have hrest : (items.flatMap fun
          | .dependencies f => f.value.items
          | .other _ => ([] : List Entry)) = [] := by
        rw [List.flatMap_eq_nil_iff]
        intro other hother
        cases other with
        | other _ => rfl
        | dependencies g =>
          refine absurd (List.mem_map.mpr ⟨_, hother, ?_⟩) hdistinct.1
          exact (hitems _ hother).1.trans hitem.1.symm
      rw [List.flatMap_cons, hrest, List.append_nil]
      exact hitem.2.1

theorem Manifest.names_nodup (m : Manifest) : m.names.Nodup :=
  entries_nodup m.distinct m.proper

theorem Manifest.dependencies_names (m : Manifest) :
    m.dependencies.map (·.name) = m.names := by
  rw [Manifest.dependencies, List.map_map]
  rfl

theorem findFrom_isSome_iff (word text : List Char) :
    (findFrom word text).isSome ↔ word <:+: text := by
  induction text with
  | nil =>
    rw [findFrom, List.infix_nil]
    split_ifs with h <;> simp [h]
  | cons c text ih =>
    rw [findFrom, List.infix_cons_iff, ← List.isPrefixOf_iff_prefix]
    by_cases hstarts : word.isPrefixOf (c :: text)
    · simp [hstarts]
    · simp [hstarts, ih]

theorem contains_iff (word text : List Char) : contains word text ↔ word <:+: text :=
  findFrom_isSome_iff word text

/-- The first place is not behind any other. -/
theorem findFrom_le {word text before behind : List Char} (h : text = before ++ word ++ behind) :
    ∃ rest, findFrom word text = some rest ∧ word <+: rest ∧ word ++ behind <:+ rest := by
  induction text generalizing before with
  | nil =>
    obtain ⟨hfront, rfl⟩ := List.append_eq_nil_iff.mp h.symm
    obtain ⟨-, rfl⟩ := List.append_eq_nil_iff.mp hfront
    exact ⟨[], rfl, List.prefix_rfl, List.suffix_rfl⟩
  | cons c text ih =>
    rw [findFrom]
    by_cases hstarts : word.isPrefixOf (c :: text)
    · refine ⟨c :: text, by rw [if_pos hstarts], List.isPrefixOf_iff_prefix.mp hstarts, ?_⟩
      rw [h, List.append_assoc]
      exact List.suffix_append _ _
    · rw [if_neg hstarts]
      cases before with
      | nil =>
        rw [h, List.nil_append, List.isPrefixOf_iff_prefix] at hstarts
        exact absurd (List.prefix_append _ _) hstarts
      | cons d before => exact ih (List.cons.inj h).2

theorem splitOnce_le (word before behind : List Char) {text : List Char}
    (h : text = before ++ word ++ behind) :
    ∃ rest, splitOnce word text = some rest ∧ behind <:+ rest := by
  obtain ⟨rest, hfind, ⟨after, rfl⟩, hsuffix⟩ := findFrom_le h
  refine ⟨after, by simp [splitOnce, hfind], ?_⟩
  have hlength := hsuffix.length_le
  rw [List.length_append, List.length_append] at hlength
  exact List.suffix_of_suffix_length_le ((List.suffix_append _ _).trans hsuffix)
    (List.suffix_append _ _) (by omega)

/-- A word of the server stands behind the first `.dependencies`. -/
def PackageWord (text : List Char) : Prop :=
  ∃ rest, splitOnce dependenciesWord text = some rest ∧ ∃ word ∈ packageWords, word <:+: rest

theorem declaresDependencies_iff (text : List Char) :
    declaresDependencies text ↔ PackageWord text := by
  simp only [declaresDependencies, PackageWord, Option.any_eq_true, List.any_eq_true, contains_iff]

/-! ## Words in a manifest -/

section Words

variable {V I : Type}

theorem item_infix (text : I → List Char) (comma : Bool) {items : List I} {item : I}
    (h : item ∈ items) : text item <:+: itemsText text comma items := by
  induction items using itemsText.induct with
  | case1 => cases h
  | case2 last =>
    rw [itemsText, List.mem_singleton.mp h]
    exact (List.prefix_append _ _).isInfix
  | case3 first second items ih =>
    rw [itemsText]
    rcases List.mem_cons.mp h with rfl | h
    · exact (List.prefix_append _ _).isInfix
    · exact (ih h).trans ((List.suffix_cons _ _).trans (List.suffix_append _ _)).isInfix

theorem Block.item_infix (text : I → List Char) {block : Block I} {item : I}
    (h : item ∈ block.items) : text item <:+: block.text text := by
  refine (ZonManifest.item_infix text block.comma h).trans ?_
  rw [Block.text]
  exact ⟨'.' :: block.dot.text ++ ['{'], block.close.text ++ ['}'], by simp⟩

theorem FieldInit.text_eq (text : V → List Char) (f : FieldInit V) (hdot : f.dot = []) :
    f.text text = f.before.text ++ ('.' :: f.name.spelling) ++
      (f.left.text ++ '=' :: f.right.text ++ text f.value ++ f.after.text) := by
  rw [FieldInit.text, hdot]
  simp [Gap.text]

theorem FieldInit.value_infix (text : V → List Char) (f : FieldInit V) : text f.value <:+: f.text text :=
  ⟨f.before.text ++ '.' :: f.dot.text ++ f.name.spelling ++ f.left.text ++ '=' :: f.right.text,
    f.after.text, by simp [FieldInit.text]⟩

/-- A dependency that says plainly where it comes from is not missed. -/
theorem packageWord_of_plain {m : Manifest} {f : FieldInit (Block Entry)} {entry : Entry}
    {g : FieldInit Value} (hf : .dependencies f ∈ m.root.items) (hfdot : f.dot = [])
    (hentry : entry ∈ f.value.items) (hg : g ∈ entry.value.items) (hgdot : g.dot = [])
    (hname : '.' :: g.name.spelling ∈ packageWords) : PackageWord m.text := by
  have hfield : '.' :: f.name.spelling = dependenciesWord := by
    rw [(m.proper _ hf).1]
    rfl
  have hword : '.' :: g.name.spelling <:+: g.text Value.text := by
    rw [FieldInit.text_eq _ _ hgdot]
    exact List.infix_append _ _ _
  have hinside : '.' :: g.name.spelling <:+: f.value.text Entry.text :=
    hword.trans <| (Block.item_infix _ hg).trans <| (FieldInit.value_infix _ entry).trans <|
      Block.item_infix Entry.text hentry
  obtain ⟨before, after, hm⟩ : f.text (Block.text Entry.text) <:+: m.text :=
    (Block.item_infix Top.text hf).trans (List.infix_append _ _ _)
  rw [FieldInit.text_eq _ _ hfdot, hfield] at hm
  obtain ⟨rest, hsplit, hrest⟩ := splitOnce_le dependenciesWord (before ++ f.before.text)
    (f.left.text ++ '=' :: f.right.text ++ f.value.text Entry.text ++ f.after.text ++ after)
    (show m.text = _ by rw [← hm]; simp only [List.append_assoc])
  refine ⟨rest, hsplit, _, hname, hinside.trans (List.IsInfix.trans ?_ hrest.isInfix)⟩
  exact ⟨f.left.text ++ '=' :: f.right.text, f.after.text ++ after, by simp⟩

end Words

/-! ## Both readers -/

/-- A line opens an entry before any line begins with a brace. -/
def Opens (text : List Char) : Prop :=
  ∃ before opener after name, listedLines text = before ++ opener :: after ∧
    IsSkipped before ∧ openerName (trim opener) = some name

theorem outside_ne_nil_iff (lines : List Line) :
    outside lines ≠ [] ↔ ∃ before opener after name, lines = before ++ opener :: after ∧
      IsSkipped before ∧ openerName (trim opener) = some name := by
  constructor
  · intro hne
    have hread : LineByLine lines (outside lines) := lineByLine_iff.mpr rfl
    generalize hfound : outside lines = found at hread hne
    cases hread with
    | ends => exact absurd rfl hne
    | closes => exact absurd rfl hne
    | block hskipped hopener =>
      exact ⟨_, _, _, _, List.append_assoc _ _ _, hskipped, hopener⟩
    | unclosed hskipped hopener => exact ⟨_, _, _, _, rfl, hskipped, hopener⟩
  · rintro ⟨before, opener, after, name, rfl, hskipped, hopener⟩
    rw [outside_skipped hskipped, outside, hopener]
    intro hnil
    have hmem := inside_names name [] after
    simp only at hnil
    rw [hnil] at hmem
    cases hmem

theorem parseBuildZon_ne_nil_iff (text : List Char) : parseBuildZon text ≠ [] ↔ Opens text := by
  have hnames := (scan_names (listedLines text)).1 []
  rw [List.nil_append, ← parseBuildZon_eq] at hnames
  rw [Opens, ← outside_ne_nil_iff]
  refine not_congr ⟨fun h => ?_, fun h => ?_⟩
  · rw [h] at hnames
    exact List.map_eq_nil_iff.mp hnames.symm
  · rw [h] at hnames
    exact List.map_eq_nil_iff.mp hnames

/-- What makes both readers right: a manifest without dependencies has none of the words behind
its first `.dependencies` and no line there that opens an entry, and one with dependencies has
both. -/
structure Readable (m : Manifest) : Prop where
  none_word : m.entries = [] → ¬PackageWord m.text
  none_opens : m.entries = [] → ¬Opens m.text
  some_word : m.entries ≠ [] → PackageWord m.text
  some_opens : m.entries ≠ [] → Opens m.text

theorem newLine_blank : '\n' ∈ [' ', '\t', '\n', '\r'] := by decide

theorem space_blank : ' ' ∈ [' ', '\t', '\n', '\r'] := by decide

theorem dependenciesName_plain : isName dependenciesName := by decide

/-- A line break and an indentation. -/
def newLine (indent : ℕ) : Gap :=
  .blank '\n' newLine_blank :: List.replicate indent (.blank ' ' space_blank)

def space : Gap := [.blank ' ' space_blank]

def plainField {V : Type} (indent : ℕ) (name : Name) (value : V) : FieldInit V :=
  ⟨newLine indent, [], name, space, space, value, []⟩

def pathsBlock : Block Part where
  dot := []
  items := [.element (newLine 8) "\"src\"".toList []]
  comma := true
  close := newLine 4

/-- `.{ .name = .s, .dependencies = .{}, .paths = .{ "src", }, }`, with a line for each brace. -/
def noDependencies : Manifest where
  head := []
  root :=
    { dot := []
      items := [
        .other (plainField 4 ⟨"name".toList, by decide⟩
          ⟨".s".toList, .scalar (.literal [] ⟨['s'], by decide⟩)⟩),
        .dependencies (plainField 4 ⟨dependenciesName, dependenciesName_plain⟩ ⟨[], [], false, []⟩),
        .other (plainField 4 ⟨"paths".toList, by decide⟩
          ⟨pathsBlock.text Part.text, .block pathsBlock (by
            intro part hpart
            rw [List.mem_singleton.mp hpart]
            exact .scalar
              (show Scalar ('"' :: ['s', 'r', 'c'] ++ ['"']) from .string (by decide)))⟩)]
      comma := true
      close := newLine 0 }
  tail := ⟨newLine 0, none⟩
  distinct := by decide
  proper := by
    intro item hitem
    simp only [List.mem_cons, List.not_mem_nil, or_false] at hitem
    rcases hitem with rfl | rfl | rfl
    · exact (by decide : "name".toList ≠ dependenciesName)
    · exact ⟨rfl, List.nodup_nil, fun entry hentry => nomatch hentry⟩
    · exact (by decide : "paths".toList ≠ dependenciesName)

end Atomis.ZonManifest
