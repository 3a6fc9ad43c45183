import Atomis.Lib.Regex
import Mathlib.Data.List.DropRight
import Mathlib.Data.List.Forall2

/-!
# Sanitised terminal text

A text is read from left to right and every escape sequence found is left out. Of each line that
remains only what follows the last carriage return is kept.
-/

namespace Atomis.Ansi

open Regex

/-! ## Escape sequences -/

def esc : Char := Char.ofNat 0x1b

def bel : Char := Char.ofNat 0x07

/-- `[0-9;?]` -/
def isParameter (c : Char) : Bool := ('0' ≤ c && c ≤ '9') || c = ';' || c = '?'

/-- From a blank to a slash. -/
def isIntermediate (c : Char) : Bool := ' ' ≤ c && c ≤ '/'

/-- From an at sign to a tilde. -/
def isFinal (c : Char) : Bool := '@' ≤ c && c ≤ '~'

/-- Neither a bell nor an escape. -/
def isOscText (c : Char) : Bool := c ≠ bel && c ≠ esc

/-- An at sign, a capital, a backslash, a caret, an underscore or a grave accent. -/
def isSingle (c : Char) : Bool :=
  ('@' ≤ c && c ≤ 'Z') || c = '\\' || c = '^' || c = '_' || c = Char.ofNat 0x60

def csiPattern : Regex Char :=
  .seq (letters [esc, '[']) (.seq (.many (.one isParameter))
    (.seq (.many (.one isIntermediate)) (.one isFinal)))

def oscPattern : Regex Char :=
  .seq (letters [esc, ']']) (.seq (.many (.one isOscText))
    (.alt (.alt (letters [bel]) (letters [esc, '\\'])) .empty))

def singlePattern : Regex Char := .seq (letters [esc]) (.one isSingle)

def ansiPattern : Regex Char := .alt csiPattern (.alt oscPattern singlePattern)

/-! ## The code -/

def csiLength : List Char → Option ℕ
  | first :: second :: text =>
    if first = esc ∧ second = '[' then
      let parameters := text.takeWhile isParameter
      let behind := text.dropWhile isParameter
      let intermediates := behind.takeWhile isIntermediate
      if (behind.dropWhile isIntermediate).head?.any isFinal then
        some (2 + parameters.length + intermediates.length + 1)
      else none
    else none
  | _ => none

def terminatorLength : List Char → ℕ
  | [] => 0
  | first :: text => if first = bel then 1 else if first = esc ∧ text.head? = some '\\' then 2 else 0

def oscLength : List Char → Option ℕ
  | first :: second :: text =>
    if first = esc ∧ second = ']' then
      some (2 + (text.takeWhile isOscText).length + terminatorLength (text.dropWhile isOscText))
    else none
  | _ => none

def singleLength : List Char → Option ℕ
  | first :: second :: _ => if first = esc ∧ isSingle second then some 2 else none
  | _ => none

/-- How much of the text the pattern matches at its start. -/
def matchLength (text : List Char) : Option ℕ :=
  (csiLength text).or ((oscLength text).or (singleLength text))

inductive Piece
  | kept (c : Char)
  | found (word : List Char)
deriving DecidableEq

/-- The matches, from left to right, and the characters between them. -/
def pieces : List Char → List Piece
  | [] => []
  | c :: text =>
    match matchLength (c :: text) with
    | some n => .found (c :: text.take (n - 1)) :: pieces (text.drop (n - 1))
    | none => .kept c :: pieces text
termination_by text => text.length
decreasing_by
  · simp only [List.length_drop, List.length_cons]
    omega
  · simp only [List.length_cons]
    omega

def Piece.keptOnly : Piece → Option Char
  | kept c => some c
  | found _ => none

def keptOf (l : List Piece) : List Char := l.filterMap Piece.keptOnly

/-- `text.replaceAll(ANSI_PATTERN, "")` -/
def replaceAll (text : List Char) : List Char := keptOf (pieces text)

def collapseCarriageReturns (line : List Char) : List Char :=
  (line.rdropWhile (· = '\r')).rtakeWhile (· ≠ '\r')

def stripped (text : List Char) : List Char := if text.contains esc then replaceAll text else text

def sanitizeTerminalText (text : List Char) : List Char :=
  if (stripped text).contains '\r' then
    List.intercalate ['\n'] (((stripped text).splitOn '\n').map collapseCarriageReturns)
  else stripped text

/-! ## How a sequence begins -/

variable {text word front rest before : List Char}

/-- A whole sequence but for an OSC, of which the introducer is enough. -/
inductive Opening : List Char → Prop
  | csi {parameters intermediates : List Char} {final : Char} :
      (∀ c ∈ parameters, isParameter c = true) → (∀ c ∈ intermediates, isIntermediate c = true) →
      isFinal final = true →
      Opening (esc :: '[' :: (parameters ++ (intermediates ++ [final])))
  | osc : Opening [esc, ']']
  | single {c : Char} : isSingle c = true → Opening [esc, c]

theorem Opening.ansi_match (h : Opening word) : ansiPattern.Match before word := by
  cases h with
  | @csi parameters intermediates final hparameters hintermediates hfinal =>
    refine Or.inl ⟨[esc, '['], _, rfl, match_letters.mpr rfl, parameters, _, rfl,
      match_many_one.mpr hparameters, intermediates, _, rfl, match_many_one.mpr hintermediates,
      final, rfl, hfinal⟩
  | osc =>
    exact Or.inr (Or.inl ⟨[esc, ']'], [], rfl, match_letters.mpr rfl, [], [], rfl,
      match_many_one.mpr fun _ hmem => (nomatch hmem), Or.inr rfl⟩)
  | @single c hc => exact Or.inr (Or.inr ⟨[esc], [c], rfl, match_letters.mpr rfl, c, rfl, hc⟩)

theorem opening_of_match (h : ansiPattern.Match before word) :
    ∃ opening rest, Opening opening ∧ word = opening ++ rest := by
  rcases h with ⟨introducer, _, rfl, hintroducer, parameters, _, rfl, hparameters, intermediates, _,
      rfl, hintermediates, final, rfl, hfinal⟩ | ⟨introducer, body, rfl, hintroducer, -⟩ |
    ⟨introducer, _, rfl, hintroducer, c, rfl, hc⟩
  · rw [match_letters.mp hintroducer]
    exact ⟨_, [], .csi (match_many_one.mp hparameters) (match_many_one.mp hintermediates) hfinal,
      by simp⟩
  · rw [match_letters.mp hintroducer]
    exact ⟨_, body, .osc, rfl⟩
  · rw [match_letters.mp hintroducer]
    exact ⟨_, [], .single hc, rfl⟩

theorem occurs_iff : ansiPattern.Occurs text ↔ ∃ opening, Opening opening ∧ opening <:+: text := by
  constructor
  · rintro ⟨front, word, after, rfl, hmatch⟩
    obtain ⟨opening, rest, hopening, rfl⟩ := opening_of_match hmatch
    exact ⟨opening, hopening, front, rest ++ after, by simp only [List.append_assoc]⟩
  · rintro ⟨opening, hopening, front, after, rfl⟩
    exact ⟨front, opening, after, rfl, hopening.ansi_match⟩

theorem Opening.ne_nil (h : Opening word) : word ≠ [] := by
  cases h with
  | csi => exact List.cons_ne_nil _ _
  | osc => exact List.cons_ne_nil _ _
  | single => exact List.cons_ne_nil _ _

/-- Of a sequence's own characters none ends a line. -/
def isPlain (c : Char) : Bool := c ≠ '\n' && c ≠ '\r'

theorem isPlain_of_class {p : Char → Bool} {c : Char} (hn : p '\n' = false) (hr : p '\r' = false)
    (hc : p c = true) : isPlain c = true := by
  rw [isPlain, Bool.and_eq_true, decide_eq_true_eq, decide_eq_true_eq]
  constructor
  · rintro rfl
    exact Bool.false_ne_true (hn.symm.trans hc)
  · rintro rfl
    exact Bool.false_ne_true (hr.symm.trans hc)

theorem Opening.isPlain (h : Opening word) : ∀ c ∈ word, isPlain c = true := by
  cases h with
  | @csi parameters intermediates final hparameters hintermediates hfinal =>
    intro c hc
    rcases List.mem_cons.mp hc with rfl | hc
    · decide
    rcases List.mem_cons.mp hc with rfl | hc
    · decide
    rcases List.mem_append.mp hc with hc | hc
    · exact isPlain_of_class (by decide) (by decide) (hparameters c hc)
    rcases List.mem_append.mp hc with hc | hc
    · exact isPlain_of_class (by decide) (by decide) (hintermediates c hc)
    · rw [List.mem_singleton.mp hc]
      exact isPlain_of_class (by decide) (by decide) hfinal
  | osc => exact List.all_eq_true.mp (show [esc, ']'].all Ansi.isPlain = true by decide)
  | @single c hc =>
    intro d hd
    rcases List.mem_cons.mp hd with rfl | hd
    · decide
    · rw [List.mem_singleton.mp hd]
      exact isPlain_of_class (by decide) (by decide) hc

/-! ## The scan -/

theorem takeWhile_append_cons {p : Char → Bool} {c : Char} (h : ∀ d ∈ front, p d = true)
    (hc : p c = false) : (front ++ c :: rest).takeWhile p = front := by
  rw [List.takeWhile_append_of_pos h, List.takeWhile_cons_of_neg (by simp [hc]), List.append_nil]

theorem dropWhile_append_cons {p : Char → Bool} {c : Char} (h : ∀ d ∈ front, p d = true)
    (hc : p c = false) : (front ++ c :: rest).dropWhile p = c :: rest := by
  rw [List.dropWhile_append_of_pos h, List.dropWhile_cons_of_neg (by simp [hc])]

theorem toNat_of_isParameter {c : Char} (h : isParameter c = true) :
    0x30 ≤ c.toNat ∧ c.toNat < 0x40 := by
  simp only [isParameter, Bool.or_eq_true, Bool.and_eq_true, decide_eq_true_eq] at h
  rcases h with (⟨hlow, hhigh⟩ | rfl) | rfl
  · have hlow : '0'.toNat ≤ c.toNat := hlow
    have hhigh : c.toNat ≤ '9'.toNat := hhigh
    simp at hlow hhigh
    omega
  · decide
  · decide

theorem toNat_of_isIntermediate {c : Char} (h : isIntermediate c = true) : c.toNat < 0x30 := by
  simp only [isIntermediate, Bool.and_eq_true, decide_eq_true_eq] at h
  have hhigh : c.toNat ≤ '/'.toNat := h.2
  simp at hhigh
  omega

theorem toNat_of_isFinal {c : Char} (h : isFinal c = true) : 0x40 ≤ c.toNat := by
  simp only [isFinal, Bool.and_eq_true, decide_eq_true_eq] at h
  have hlow : '@'.toNat ≤ c.toNat := h.1
  simpa using hlow

theorem isParameter_eq_false {c : Char} (h : 0x40 ≤ c.toNat ∨ c.toNat < 0x30) :
    isParameter c = false := by
  by_contra hnot
  have := toNat_of_isParameter (Bool.of_not_eq_false hnot)
  omega

theorem isIntermediate_eq_false {c : Char} (h : 0x30 ≤ c.toNat) : isIntermediate c = false := by
  by_contra hnot
  have := toNat_of_isIntermediate (Bool.of_not_eq_false hnot)
  omega

theorem csiLength_opening {parameters intermediates : List Char} {final : Char}
    (hparameters : ∀ c ∈ parameters, isParameter c = true)
    (hintermediates : ∀ c ∈ intermediates, isIntermediate c = true) (hfinal : isFinal final = true)
    (rest : List Char) :
    csiLength (esc :: '[' :: (parameters ++ (intermediates ++ final :: rest))) =
      some (2 + parameters.length + intermediates.length + 1) := by
  have hhigh := toNat_of_isFinal hfinal
  have hbehind : (parameters ++ (intermediates ++ final :: rest)).takeWhile isParameter =
        parameters ∧
      (parameters ++ (intermediates ++ final :: rest)).dropWhile isParameter =
        intermediates ++ final :: rest := by
    cases intermediates with
    | nil =>
      have hnot := isParameter_eq_false (Or.inl hhigh)
      exact ⟨takeWhile_append_cons hparameters hnot, dropWhile_append_cons hparameters hnot⟩
    | cons first intermediates =>
      have hnot := isParameter_eq_false
        (Or.inr (toNat_of_isIntermediate (hintermediates first List.mem_cons_self)))
      exact ⟨takeWhile_append_cons hparameters hnot, dropWhile_append_cons hparameters hnot⟩
  have hnot : isIntermediate final = false := isIntermediate_eq_false (by omega)
  simp only [csiLength, and_self, if_true, hbehind, takeWhile_append_cons hintermediates hnot,
    dropWhile_append_cons hintermediates hnot, List.head?_cons, Option.any_some, hfinal]

/-- Where a sequence begins, the pattern matches. -/
theorem Opening.matchLength_isSome (h : Opening word) (rest : List Char) :
    (matchLength (word ++ rest)).isSome = true := by
  rw [matchLength]
  cases h with
  | @csi parameters intermediates final hparameters hintermediates hfinal =>
    have hcsi := csiLength_opening hparameters hintermediates hfinal rest
    rw [List.cons_append, List.cons_append, List.append_assoc, List.append_assoc,
      List.singleton_append, hcsi]
    rfl
  | osc => simp [csiLength, oscLength]
  | @single c hc =>
    simp [singleLength, hc]

theorem csiLength_match {n : ℕ} (h : csiLength text = some n) :
    ∃ word rest, text = word ++ rest ∧ word.length = n ∧ csiPattern.Match before word := by
  rcases text with _ | ⟨first, _ | ⟨second, text⟩⟩
  · cases h
  · cases h
  · simp only [csiLength] at h
    split_ifs at h with hintro hfinal
    obtain ⟨rfl, rfl⟩ := hintro
    have hparameters := List.takeWhile_append_dropWhile (p := isParameter) (l := text)
    have hallParameters : ∀ c ∈ text.takeWhile isParameter, isParameter c = true :=
      fun c hc => List.mem_takeWhile_imp hc
    generalize text.takeWhile isParameter = parameters at *
    generalize text.dropWhile isParameter = behind at *
    have hintermediates := List.takeWhile_append_dropWhile (p := isIntermediate) (l := behind)
    have hallIntermediates : ∀ c ∈ behind.takeWhile isIntermediate, isIntermediate c = true :=
      fun c hc => List.mem_takeWhile_imp hc
    generalize behind.takeWhile isIntermediate = intermediates at *
    obtain ⟨final, hhead, hfinal⟩ := (Option.any_eq_true _ _).mp hfinal
    obtain ⟨rest, hrest⟩ := List.head?_eq_some_iff.mp hhead
    refine ⟨_, rest, ?_, ?_, [esc, '['], parameters ++ (intermediates ++ [final]), rfl,
      match_letters.mpr rfl, parameters, _, rfl, match_many_one.mpr hallParameters, intermediates, _,
      rfl, match_many_one.mpr hallIntermediates, final, rfl, hfinal⟩
    · rw [← hparameters, ← hintermediates, hrest]
      simp
    · rw [← Option.some.inj h]
      simp
      omega

theorem terminator_split (behind : List Char) : ∃ terminator rest,
    behind = terminator ++ rest ∧ terminator.length = terminatorLength behind ∧
      (terminator = [bel] ∨ terminator = [esc, '\\'] ∨ terminator = []) := by
  cases behind with
  | nil => exact ⟨[], [], rfl, rfl, Or.inr (Or.inr rfl)⟩
  | cons first behind =>
    rw [terminatorLength]
    split_ifs with hbel hst
    · exact ⟨[bel], behind, by rw [hbel]; rfl, rfl, Or.inl rfl⟩
    · obtain ⟨rfl, hhead⟩ := hst
      obtain ⟨rest, rfl⟩ := List.head?_eq_some_iff.mp hhead
      exact ⟨[esc, '\\'], rest, rfl, rfl, Or.inr (Or.inl rfl)⟩
    · exact ⟨[], first :: behind, rfl, rfl, Or.inr (Or.inr rfl)⟩

theorem oscLength_match {n : ℕ} (h : oscLength text = some n) :
    ∃ word rest, text = word ++ rest ∧ word.length = n ∧ oscPattern.Match before word := by
  rcases text with _ | ⟨first, _ | ⟨second, text⟩⟩
  · cases h
  · cases h
  · simp only [oscLength] at h
    split_ifs at h with hintro
    obtain ⟨rfl, rfl⟩ := hintro
    have hbody := List.takeWhile_append_dropWhile (p := isOscText) (l := text)
    have hall : ∀ c ∈ text.takeWhile isOscText, isOscText c = true :=
      fun c hc => List.mem_takeWhile_imp hc
    generalize text.takeWhile isOscText = body at *
    generalize text.dropWhile isOscText = behind at *
    obtain ⟨terminator, rest, rfl, hlength, hterminator⟩ := terminator_split behind
    refine ⟨_, rest, ?_, ?_, [esc, ']'], body ++ terminator, rfl, match_letters.mpr rfl, body,
      terminator, rfl, match_many_one.mpr hall, ?_⟩
    · rw [← hbody]
      simp
    · rw [← Option.some.inj h, ← hlength]
      simp
      omega
    · rcases hterminator with rfl | rfl | rfl
      · exact Or.inl (Or.inl (match_letters.mpr rfl))
      · exact Or.inl (Or.inr (match_letters.mpr rfl))
      · exact Or.inr rfl

theorem singleLength_match {n : ℕ} (h : singleLength text = some n) :
    ∃ word rest, text = word ++ rest ∧ word.length = n ∧ singlePattern.Match before word := by
  rcases text with _ | ⟨first, _ | ⟨second, text⟩⟩
  · cases h
  · cases h
  · simp only [singleLength] at h
    split_ifs at h with hsingle
    obtain ⟨rfl, hsingle⟩ := hsingle
    exact ⟨[esc, second], text, rfl, Option.some.inj h, [esc], [second], rfl, match_letters.mpr rfl,
      second, rfl, hsingle⟩

/-- What the code finds is what the pattern describes. -/
theorem match_of_matchLength {n : ℕ} (h : matchLength text = some n) :
    ∃ word rest, text = word ++ rest ∧ word.length = n ∧ ansiPattern.Match before word := by
  rw [matchLength, Option.or_eq_some_iff, Option.or_eq_some_iff] at h
  rcases h with hcsi | ⟨-, hosc | ⟨-, hsingle⟩⟩
  · obtain ⟨word, rest, htext, hlength, hmatch⟩ := csiLength_match hcsi
    exact ⟨word, rest, htext, hlength, Or.inl hmatch⟩
  · obtain ⟨word, rest, htext, hlength, hmatch⟩ := oscLength_match hosc
    exact ⟨word, rest, htext, hlength, Or.inr (Or.inl hmatch)⟩
  · obtain ⟨word, rest, htext, hlength, hmatch⟩ := singleLength_match hsingle
    exact ⟨word, rest, htext, hlength, Or.inr (Or.inr hmatch)⟩

/-! ## Pieces -/

def Piece.chars : Piece → List Char
  | kept c => [c]
  | found word => word

theorem pieces_cons_some {c : Char} {n : ℕ} (h : matchLength (c :: text) = some n) :
    pieces (c :: text) = .found (c :: text.take (n - 1)) :: pieces (text.drop (n - 1)) := by
  rw [pieces, h]

theorem pieces_cons_none {c : Char} (h : matchLength (c :: text) = none) :
    pieces (c :: text) = .kept c :: pieces text := by
  rw [pieces, h]

theorem pieces_flatMap (text : List Char) : (pieces text).flatMap Piece.chars = text := by
  induction text using pieces.induct with
  | case1 => rw [pieces]; rfl
  | case2 c text n hmatch ih =>
    rw [pieces_cons_some hmatch, List.flatMap_cons, ih, Piece.chars, List.cons_append,
      List.take_append_drop]
  | case3 c text hmatch ih =>
    rw [pieces_cons_none hmatch, List.flatMap_cons, ih]
    rfl

/-- What is found is a sequence. -/
theorem match_of_found (h : .found word ∈ pieces text) : ansiPattern.Match before word := by
  induction text using pieces.induct with
  | case1 =>
    rw [pieces] at h
    cases h
  | case2 c text n hmatch ih =>
    rw [pieces_cons_some hmatch] at h
    rcases List.mem_cons.mp h with hfound | hlater
    · obtain ⟨first, rest, htext, rfl, hfirst⟩ := @match_of_matchLength _ before n hmatch
      obtain ⟨opening, tail, hopening, rfl⟩ := opening_of_match hfirst
      obtain ⟨d, first, hcons⟩ := List.exists_cons_of_ne_nil
        (List.append_ne_nil_of_left_ne_nil hopening.ne_nil tail)
      rw [hcons] at htext hfound hfirst
      obtain ⟨rfl, rfl⟩ := List.cons.inj htext
      rw [List.append_eq, List.length_cons, Nat.add_sub_cancel, List.take_left] at hfound
      rwa [Piece.found.inj hfound]
    · exact ih hlater
  | case3 c text hmatch ih =>
    rw [pieces_cons_none hmatch] at h
    rcases List.mem_cons.mp h with hkept | hlater
    · cases hkept
    · exact ih hlater

/-- The scan goes on from any piece as from the start. -/
theorem pieces_of_append {left right : List Piece} (h : pieces text = left ++ right) :
    pieces (right.flatMap Piece.chars) = right := by
  induction left generalizing text with
  | nil =>
    rw [List.nil_append] at h
    rw [← h, pieces_flatMap]
  | cons piece left ih =>
    cases text with
    | nil =>
      rw [pieces] at h
      cases h
    | cons c text =>
      cases hmatch : matchLength (c :: text) with
      | some n =>
        rw [pieces_cons_some hmatch] at h
        exact ih (List.cons.inj h).2
      | none =>
        rw [pieces_cons_none hmatch] at h
        exact ih (List.cons.inj h).2

/-- Characters kept one behind the other do not begin a sequence. -/
theorem not_opening_kept {left right : List Piece} (h : pieces text = left ++ word.map .kept ++ right) :
    ¬Opening word := by
  intro hopening
  rw [List.append_assoc] at h
  have hpieces := pieces_of_append h
  have hmatch := hopening.matchLength_isSome (right.flatMap Piece.chars)
  have hchars : (word.map Piece.kept ++ right).flatMap Piece.chars =
      word ++ right.flatMap Piece.chars := by
    rw [List.flatMap_append, List.flatMap_map]
    simp [Piece.chars]
  rw [hchars] at hpieces
  obtain ⟨c, rest, rfl⟩ := List.exists_cons_of_ne_nil hopening.ne_nil
  obtain ⟨n, hn⟩ := Option.isSome_iff_exists.mp hmatch
  rw [List.cons_append] at hn hpieces
  rw [pieces_cons_some hn] at hpieces
  cases hpieces

theorem keptOf_append (l l' : List Piece) : keptOf (l ++ l') = keptOf l ++ keptOf l' :=
  List.filterMap_append

theorem keptOf_map_kept (word : List Char) : keptOf (word.map .kept) = word := by
  rw [keptOf, List.filterMap_map]
  exact List.filterMap_some

theorem eq_map_kept {l : List Piece} (h : ∀ word, .found word ∉ l) : l = (keptOf l).map .kept := by
  induction l with
  | nil => rfl
  | cons piece l ih =>
    have hrest := ih fun word hmem => h word (List.mem_cons_of_mem _ hmem)
    cases piece with
    | kept c => exact congrArg (Piece.kept c :: ·) hrest
    | found word => exact absurd List.mem_cons_self (h word)

/-- Where nothing is found nothing changes. -/
theorem replaceAll_of_not_found (h : ∀ word, .found word ∉ pieces text) : replaceAll text = text := by
  have hflat := pieces_flatMap text
  rw [eq_map_kept h, List.flatMap_map] at hflat
  rw [replaceAll]
  conv_rhs => rw [← hflat]
  simp [Piece.chars]

theorem keptOf_sublist (l : List Piece) : (keptOf l).Sublist (l.flatMap Piece.chars) := by
  induction l with
  | nil => exact List.Sublist.refl _
  | cons piece l ih =>
    cases piece with
    | kept c => exact ih.cons_cons c
    | found word => exact ih.trans (List.sublist_append_right _ _)

theorem length_replaceAll_lt (h : .found word ∈ pieces text) :
    (replaceAll text).length < text.length := by
  have hmatch : ansiPattern.Match [] word := match_of_found h
  obtain ⟨opening, rest, hopening, rfl⟩ := opening_of_match hmatch
  have hpos := List.length_pos_iff.mpr hopening.ne_nil
  obtain ⟨left, right, hsplit⟩ := List.append_of_mem h
  have hflat := congrArg List.length (pieces_flatMap text)
  rw [replaceAll]
  rw [hsplit, List.flatMap_append, List.flatMap_cons, List.length_append, List.length_append,
    Piece.chars, List.length_append] at hflat
  have hleft := (keptOf_sublist left).length_le
  have hright := (keptOf_sublist right).length_le
  have hkept : (keptOf (pieces text)).length = (keptOf left).length + (keptOf right).length := by
    rw [hsplit, keptOf_append, List.length_append]
    rfl
  omega

theorem not_found_iff : (∀ word, .found word ∉ pieces text) ↔
    ∀ opening, Opening opening → ¬opening <:+: text := by
  constructor
  · rintro hnone opening hopening ⟨before, after, htext⟩
    have hpieces : pieces text =
        before.map .kept ++ opening.map .kept ++ after.map .kept := by
      have hflat := replaceAll_of_not_found hnone
      rw [eq_map_kept hnone, ← replaceAll, hflat, ← htext, List.map_append, List.map_append]
    exact not_opening_kept hpieces hopening
  · intro hnone word hfound
    obtain ⟨left, right, hsplit⟩ := List.append_of_mem hfound
    have hflat := pieces_flatMap text
    rw [hsplit, List.flatMap_append, List.flatMap_cons] at hflat
    have hmatch : ansiPattern.Match [] word := match_of_found hfound
    obtain ⟨opening, rest, hopening, rfl⟩ := opening_of_match hmatch
    refine hnone opening hopening ⟨left.flatMap Piece.chars, rest ++ right.flatMap Piece.chars, ?_⟩
    rw [← hflat]
    simp only [Piece.chars, List.append_assoc]

/-- Replacing changes a text if a sequence stands in it. -/
theorem replaceAll_eq_iff : replaceAll text = text ↔ ¬ansiPattern.Occurs text := by
  have hoccurs : ¬ansiPattern.Occurs text ↔ ∀ opening, Opening opening → ¬opening <:+: text := by
    rw [occurs_iff, not_exists]
    exact forall_congr' fun opening => not_and
  rw [hoccurs, ← not_found_iff]
  constructor
  · intro hsame word hfound
    have := length_replaceAll_lt hfound
    rw [hsame] at this
    exact Nat.lt_irrefl _ this
  · exact replaceAll_of_not_found

/-! ## Lines -/

/-- A text is a line, or a line, its end and a text. -/
theorem lines_induction {motive : List Char → Prop} (hlast : ∀ line, '\n' ∉ line → motive line)
    (hline : ∀ line rest, '\n' ∉ line → motive rest → motive (line ++ '\n' :: rest))
    (text : List Char) : motive text := by
  generalize hcount : text.count '\n' = count
  induction count generalizing text with
  | zero => exact hlast text (List.count_eq_zero.mp hcount)
  | succ count ih =>
    have hmem : '\n' ∈ text := List.count_pos_iff.mp (by omega)
    obtain ⟨line, rest, rfl, hfirst⟩ := List.eq_append_cons_of_mem hmem
    refine hline line rest hfirst (ih rest ?_)
    rw [List.count_append, List.count_cons_self, List.count_eq_zero_of_not_mem hfirst] at hcount
    omega

def collapseLines (text : List Char) : List Char :=
  List.intercalate ['\n'] ((text.splitOn '\n').map collapseCarriageReturns)

theorem collapseLines_last {line : List Char} (h : '\n' ∉ line) :
    collapseLines line = collapseCarriageReturns line := by
  rw [collapseLines, List.splitOn_eq_singleton h, List.map_singleton, List.intercalate_singleton]

theorem collapseLines_line {line : List Char} (h : '\n' ∉ line) (rest : List Char) :
    collapseLines (line ++ '\n' :: rest) =
      collapseCarriageReturns line ++ '\n' :: collapseLines rest := by
  rw [collapseLines, List.splitOn_append_cons_self_of_not_mem h, List.map_cons,
    List.intercalate_cons_of_ne_nil (by simp), List.append_assoc]
  rfl

/-- What remains of a line: what follows the last return that text follows. -/
def IsLastFrame (line frame : List Char) : Prop :=
  ∃ before trailing, line = before ++ frame ++ trailing ∧ '\r' ∉ frame ∧
    (∀ c ∈ trailing, c = '\r') ∧ (before = [] ∨ before.getLast? = some '\r' ∧ frame ≠ [])

theorem collapse_spec (line : List Char) : IsLastFrame line (collapseCarriageReturns line) := by
  have htrimmed := @List.rdropWhile_last_not _ (fun c => decide (c = '\r')) line
  have htrailing := List.rdropWhile_append_rtakeWhile (p := (· = '\r')) (l := line)
  have hall : ∀ c ∈ line.rtakeWhile (· = '\r'), c = '\r' :=
    fun c hc => by simpa using List.mem_rtakeWhile_imp hc
  rw [collapseCarriageReturns]
  generalize line.rdropWhile (· = '\r') = trimmed at *
  have hlast := @List.rdropWhile_last_not _ (fun c => decide (c ≠ '\r')) trimmed
  have hframe := List.rdropWhile_append_rtakeWhile (p := (· ≠ '\r')) (l := trimmed)
  refine ⟨trimmed.rdropWhile (· ≠ '\r'), line.rtakeWhile (· = '\r'), by rw [hframe, htrailing], ?_,
    hall, ?_⟩
  · intro hmem
    exact absurd (List.mem_rtakeWhile_imp hmem) (by decide)
  · by_cases hnil : trimmed.rdropWhile (· ≠ '\r') = []
    · exact Or.inl hnil
    · have hreturn : (trimmed.rdropWhile (· ≠ '\r')).getLast hnil = '\r' := by
        simpa using hlast hnil
      refine Or.inr ⟨by rw [List.getLast?_eq_some_getLast hnil, hreturn], fun hempty => ?_⟩
      rw [hempty, List.append_nil] at hframe
      have hne : trimmed ≠ [] := hframe ▸ hnil
      refine htrimmed hne (decide_eq_true ?_)
      rw [← hreturn]
      congr 1
      exact hframe.symm

theorem collapse_subset {line : List Char} {c : Char} (h : c ∈ collapseCarriageReturns line) :
    c ∈ line := by
  obtain ⟨before, trailing, hline, -⟩ := collapse_spec line
  rw [hline]
  exact List.mem_append_left _ (List.mem_append_right _ h)

theorem return_notMem_collapse (line : List Char) : '\r' ∉ collapseCarriageReturns line := by
  obtain ⟨before, trailing, -, hnot, -⟩ := collapse_spec line
  exact hnot

theorem collapse_of_notMem {line : List Char} (h : '\r' ∉ line) :
    collapseCarriageReturns line = line := by
  obtain ⟨before, trailing, hline, -, htrailing, hbefore⟩ := collapse_spec line
  have hleft : before = [] := by
    refine hbefore.resolve_right fun hlast => h ?_
    rw [hline]
    exact List.mem_append_left _ (List.mem_append_left _ (List.mem_of_getLast? hlast.1))
  have hright : trailing = [] := by
    refine List.eq_nil_iff_forall_not_mem.mpr fun c hc => h ?_
    rw [hline, ← htrailing c hc]
    exact List.mem_append_right _ hc
  rw [hleft, hright, List.nil_append, List.append_nil] at hline
  exact hline.symm

/-- Behind it on its line stands no return that text follows. -/
def QuietLine (behind : List Char) : Prop :=
  ∃ plain trailing, behind = plain ++ trailing ∧ '\r' ∉ plain ∧ ∀ c ∈ trailing, c = '\r'

theorem rdropWhile_append_all {p : Char → Bool} (h : ∀ c ∈ rest, p c = true) :
    (front ++ rest).rdropWhile p = front.rdropWhile p := by
  rw [List.rdropWhile, List.reverse_append,
    List.dropWhile_append_of_pos fun c hc => h c (List.mem_reverse.mp hc), ← List.rdropWhile]

theorem rtakeWhile_append_all {p : Char → Bool} (h : ∀ c ∈ rest, p c = true) :
    (front ++ rest).rtakeWhile p = front.rtakeWhile p ++ rest := by
  rw [List.rtakeWhile, List.reverse_append,
    List.takeWhile_append_of_pos fun c hc => h c (List.mem_reverse.mp hc), List.reverse_append,
    List.reverse_reverse, ← List.rtakeWhile]

theorem collapse_append {plain trailing : List Char} (hne : word ≠ []) (hword : '\r' ∉ word)
    (hplain : '\r' ∉ plain) (htrailing : ∀ c ∈ trailing, c = '\r') :
    ∃ tail, collapseCarriageReturns (front ++ word ++ (plain ++ trailing)) =
      tail ++ word ++ plain := by
  have hshown : '\r' ∉ word ++ plain := by simp [hword, hplain]
  have htrimmed : (front ++ (word ++ plain)).rdropWhile (· = '\r') = front ++ (word ++ plain) := by
    refine List.rdropWhile_eq_self_iff.mpr fun hnil hlast => hshown ?_
    have hne' : word ++ plain ≠ [] := by simp [hne]
    have hreturn := of_decide_eq_true hlast
    rw [List.getLast_append_of_ne_nil hnil hne'] at hreturn
    rw [← hreturn]
    exact List.getLast_mem hne'
  have hkept : ∀ c ∈ word ++ plain, decide (c ≠ '\r') = true := by
    intro c hc
    refine decide_eq_true ?_
    rintro rfl
    exact hshown hc
  refine ⟨front.rtakeWhile (· ≠ '\r'), ?_⟩
  rw [collapseCarriageReturns, ← List.append_assoc, List.append_assoc front,
    rdropWhile_append_all fun c hc => decide_eq_true (htrailing c hc), htrimmed,
    rtakeWhile_append_all hkept, List.append_assoc]

/-- A word of a line is shown if it stands behind its last return. -/
theorem infix_collapse_iff {line : List Char} (hne : word ≠ []) (hword : '\r' ∉ word) :
    word <:+: collapseCarriageReturns line ↔
      ∃ front behind, line = front ++ word ++ behind ∧ QuietLine behind := by
  constructor
  · rintro ⟨left, right, hframe⟩
    obtain ⟨before, trailing, hline, hnot, htrailing, -⟩ := collapse_spec line
    refine ⟨before ++ left, right ++ trailing, ?_, right, trailing, rfl, fun hmem => hnot ?_,
      htrailing⟩
    · rw [hline, ← hframe]
      simp only [List.append_assoc]
    · rw [← hframe]
      exact List.mem_append_right _ hmem
  · rintro ⟨front, _, rfl, plain, trailing, rfl, hplain, htrailing⟩
    obtain ⟨tail, htail⟩ := @collapse_append word front plain trailing hne hword hplain htrailing
    exact ⟨tail, plain, htail.symm⟩

/-- On the rest of its line stands no return that text follows. -/
def Quiet (behind : List Char) : Prop := QuietLine (behind.takeWhile (· ≠ '\n'))

theorem takeWhile_line {line : List Char} (h : '\n' ∉ line) :
    line.takeWhile (· ≠ '\n') = line :=
  List.takeWhile_eq_self_iff.mpr fun _ hc => decide_eq_true fun heq => h (heq ▸ hc)

theorem takeWhile_line_append {line : List Char} (h : '\n' ∉ line) (rest : List Char) :
    (line ++ '\n' :: rest).takeWhile (· ≠ '\n') = line :=
  takeWhile_append_cons (fun _ hc => decide_eq_true fun heq => h (heq ▸ hc)) (by decide)

/-- A word within one line stands in a line or in what follows it. -/
theorem word_of_lines {line behind : List Char} (hword : '\n' ∉ word)
    (h : line ++ '\n' :: rest = front ++ word ++ behind) :
    (∃ tail, line = front ++ word ++ tail ∧ behind = tail ++ '\n' :: rest) ∨
      ∃ head, front = line ++ '\n' :: head ∧ rest = head ++ word ++ behind := by
  rcases List.append_eq_append_iff.mp h with ⟨more, hfront, hrest⟩ | ⟨tail, hline, hbehind⟩
  · cases more with
    | nil =>
      rw [List.append_nil] at hfront
      exact Or.inl ⟨[], by rw [hfront, List.append_nil], hrest.symm⟩
    | cons c more =>
      obtain ⟨rfl, rfl⟩ := List.cons.inj hrest
      rcases List.append_eq_append_iff.mp hfront with ⟨inner, -, hword'⟩ | ⟨head, hfront', hover⟩
      · rw [hword'] at hword
        exact absurd (List.mem_append_right _ List.mem_cons_self) hword
      · cases head with
        | nil =>
          rw [← show '\n' :: more = word from hover] at hword
          exact absurd List.mem_cons_self hword
        | cons d head =>
          obtain ⟨rfl, rfl⟩ := List.cons.inj hover
          exact Or.inr ⟨head, hfront', rfl⟩
  · exact Or.inl ⟨tail, hline, hbehind⟩

/-- A word is shown if behind it on its line stands no return that text follows. -/
theorem infix_collapseLines_iff (hne : word ≠ []) (hplain : ∀ c ∈ word, isPlain c = true)
    (text : List Char) :
    word <:+: collapseLines text ↔ ∃ front behind, text = front ++ word ++ behind ∧ Quiet behind := by
  have hword : '\n' ∉ word := fun hmem => absurd (hplain _ hmem) (by decide)
  have hreturn : '\r' ∉ word := fun hmem => absurd (hplain _ hmem) (by decide)
  induction text using lines_induction with
  | hlast line hline =>
    rw [collapseLines_last hline, infix_collapse_iff hne hreturn]
    refine exists_congr fun front => exists_congr fun behind => and_congr_right fun hsplit => ?_
    rw [Quiet, takeWhile_line]
    rw [hsplit] at hline
    exact fun hmem => hline (List.mem_append_right _ hmem)
  | hline line rest hline ih =>
    rw [collapseLines_line hline]
    constructor
    · rintro ⟨left, right, hsplit⟩
      rcases word_of_lines hword hsplit.symm with ⟨tail, hframe, -⟩ | ⟨head, -, hrest⟩
      · obtain ⟨front, behind, hfront, hquiet⟩ :=
          (infix_collapse_iff hne hreturn).mp ⟨left, tail, hframe.symm⟩
        refine ⟨front, behind ++ '\n' :: rest, by rw [hfront, List.append_assoc], ?_⟩
        rw [Quiet, takeWhile_line_append]
        · exact hquiet
        · rw [hfront] at hline
          exact fun hmem => hline (List.mem_append_right _ hmem)
      · obtain ⟨front, behind, hfront, hquiet⟩ := ih.mp ⟨head, right, hrest.symm⟩
        exact ⟨line ++ '\n' :: front, behind, by rw [hfront]; simp, hquiet⟩
    · rintro ⟨front, behind, hsplit, hquiet⟩
      rcases word_of_lines hword hsplit with ⟨tail, hfront, rfl⟩ | ⟨head, -, hrest⟩
      · have htail : '\n' ∉ tail := fun hmem => hline (hfront ▸ List.mem_append_right _ hmem)
        rw [Quiet, takeWhile_line_append htail] at hquiet
        have hshown := (infix_collapse_iff hne hreturn).mpr ⟨front, tail, hfront, hquiet⟩
        exact hshown.trans (List.prefix_append _ _).isInfix
      · have hshown := ih.mpr ⟨head, behind, hrest, hquiet⟩
        exact hshown.trans ((List.suffix_cons _ _).trans (List.suffix_append _ _)).isInfix

theorem count_collapseLines (text : List Char) :
    (collapseLines text).count '\n' = text.count '\n' := by
  induction text using lines_induction with
  | hlast line hline =>
    rw [collapseLines_last hline, List.count_eq_zero_of_not_mem hline,
      List.count_eq_zero_of_not_mem fun hmem => hline (collapse_subset hmem)]
  | hline line rest hline ih =>
    rw [collapseLines_line hline, List.count_append, List.count_append, List.count_cons_self,
      List.count_cons_self, ih, List.count_eq_zero_of_not_mem hline,
      List.count_eq_zero_of_not_mem fun hmem => hline (collapse_subset hmem)]

theorem return_notMem_collapseLines (text : List Char) : '\r' ∉ collapseLines text := by
  induction text using lines_induction with
  | hlast line hline =>
    rw [collapseLines_last hline]
    exact return_notMem_collapse line
  | hline line rest hline ih =>
    rw [collapseLines_line hline]
    simp [return_notMem_collapse line, ih]

theorem collapseLines_of_notMem (h : '\r' ∉ text) : collapseLines text = text := by
  induction text using lines_induction with
  | hlast line hline => rw [collapseLines_last hline, collapse_of_notMem h]
  | hline line rest hline ih =>
    rw [collapseLines_line hline, collapse_of_notMem fun hmem => h (List.mem_append_left _ hmem),
      ih fun hmem => h (List.mem_append_right _ (List.mem_cons_of_mem _ hmem))]

/-! ## The whole text -/

theorem esc_mem_of_opening (h : Opening word) : esc ∈ word := by
  cases h with
  | csi => exact List.mem_cons_self
  | osc => exact List.mem_cons_self
  | single => exact List.mem_cons_self

theorem stripped_eq (text : List Char) : stripped text = replaceAll text := by
  rw [stripped]
  split_ifs with hesc
  · rfl
  · refine (replaceAll_eq_iff.mpr ?_).symm
    rw [occurs_iff]
    rintro ⟨opening, hopening, hinside⟩
    exact hesc (List.contains_iff_mem.mpr (hinside.subset (esc_mem_of_opening hopening)))

theorem sanitize_eq (text : List Char) :
    sanitizeTerminalText text = collapseLines (replaceAll text) := by
  rw [sanitizeTerminalText, stripped_eq]
  split_ifs with hreturn
  · rfl
  · exact (collapseLines_of_notMem fun hmem => hreturn (List.contains_iff_mem.mpr hmem)).symm

/-- A sanitised text stays as it is if no sequence stands in it. -/
theorem sanitize_sanitize_iff (text : List Char) :
    sanitizeTerminalText (sanitizeTerminalText text) = sanitizeTerminalText text ↔
      ¬ansiPattern.Occurs (sanitizeTerminalText text) := by
  rw [← replaceAll_eq_iff, sanitize_eq (sanitizeTerminalText text), collapseLines_of_notMem]
  intro hmem
  have hsub := (keptOf_sublist _).subset hmem
  rw [pieces_flatMap, sanitize_eq] at hsub
  exact return_notMem_collapseLines _ hsub

/-- A sequence that stands around whole others, in what is shown of its line. -/
def Torn (text : List Char) : Prop :=
  ∃ front torn behind, pieces text = front ++ torn ++ behind ∧ Opening (keptOf torn) ∧
    (∃ word, .found word ∈ torn) ∧ Quiet (keptOf behind)

theorem occurs_sanitize_iff (text : List Char) :
    ansiPattern.Occurs (sanitizeTerminalText text) ↔ Torn text := by
  rw [occurs_iff, sanitize_eq]
  constructor
  · rintro ⟨opening, hopening, hinside⟩
    obtain ⟨front, behind, hsplit, hquiet⟩ :=
      (infix_collapseLines_iff hopening.ne_nil hopening.isPlain _).mp hinside
    obtain ⟨l, right, hpieces, hl, rfl⟩ := List.filterMap_eq_append_iff.mp hsplit
    obtain ⟨left, torn, rfl, rfl, rfl⟩ := List.filterMap_eq_append_iff.mp hl
    refine ⟨left, torn, right, hpieces, hopening, ?_, hquiet⟩
    by_contra hnone
    rw [eq_map_kept (not_exists.mp hnone)] at hpieces
    exact not_opening_kept hpieces hopening
  · rintro ⟨front, torn, behind, hpieces, hopening, -, hquiet⟩
    refine ⟨keptOf torn, hopening, ?_⟩
    refine (infix_collapseLines_iff hopening.ne_nil hopening.isPlain _).mpr
      ⟨keptOf front, keptOf behind, ?_, hquiet⟩
    rw [replaceAll, hpieces, keptOf_append, keptOf_append]

theorem count_chars (l : List Piece) : (l.flatMap Piece.chars).count '\n' = (keptOf l).count '\n' ↔
    ∀ word, .found word ∈ l → '\n' ∉ word := by
  induction l with
  | nil => exact iff_of_true rfl fun _ hmem => nomatch hmem
  | cons piece l ih =>
    have hle := (keptOf_sublist l).count_le '\n'
    rw [List.flatMap_cons, List.count_append]
    cases piece with
    | kept c =>
      have hkept : keptOf (.kept c :: l) = [c] ++ keptOf l := rfl
      rw [hkept, List.count_append, Piece.chars, Nat.add_left_cancel_iff, ih]
      simp
    | found word =>
      have hkept : keptOf (.found word :: l) = keptOf l := rfl
      have hzero : word.count '\n' + (l.flatMap Piece.chars).count '\n' = (keptOf l).count '\n' ↔
          word.count '\n' = 0 ∧ (l.flatMap Piece.chars).count '\n' = (keptOf l).count '\n' := by
        omega
      rw [hkept, Piece.chars, hzero, ih, List.count_eq_zero]
      simp

theorem isLastFrame_lines (text : List Char) :
    List.Forall₂ IsLastFrame ((stripped text).splitOn '\n')
      ((sanitizeTerminalText text).splitOn '\n') := by
  rw [stripped_eq, sanitize_eq]
  induction replaceAll text using lines_induction with
  | hlast line hline =>
    have hframe := mt collapse_subset hline
    rw [collapseLines_last hline, List.splitOn_eq_singleton hline, List.splitOn_eq_singleton hframe]
    exact .cons (collapse_spec line) .nil
  | hline line rest hline ih =>
    have hframe := mt collapse_subset hline
    rw [collapseLines_line hline, List.splitOn_append_cons_self_of_not_mem hline,
      List.splitOn_append_cons_self_of_not_mem hframe]
    exact .cons (collapse_spec line) ih

/-- Sanitising leaves a text of last frames with its lines and no sequence in it, unless one is torn
apart by others or holds the end of a line. -/
theorem sanitize_exact (text : List Char) :
    (¬ansiPattern.Occurs (sanitizeTerminalText text) ∧
      List.Forall₂ IsLastFrame ((stripped text).splitOn '\n')
        ((sanitizeTerminalText text).splitOn '\n') ∧
      (sanitizeTerminalText text).count '\n' = text.count '\n' ∧
      sanitizeTerminalText (sanitizeTerminalText text) = sanitizeTerminalText text) ↔
      ¬Torn text ∧ ∀ word, .found word ∈ pieces text → '\n' ∉ word := by
  have hcount : (sanitizeTerminalText text).count '\n' = text.count '\n' ↔
      ∀ word, .found word ∈ pieces text → '\n' ∉ word := by
    rw [← count_chars, pieces_flatMap, sanitize_eq, count_collapseLines, eq_comm]
    rfl
  rw [sanitize_sanitize_iff, occurs_sanitize_iff, hcount]
  constructor
  · exact fun h => ⟨h.1, h.2.2.1⟩
  · exact fun h => ⟨h.1, isLastFrame_lines text, h.2, h.1⟩

/-- What is left around a removed sequence is one itself. -/
theorem sanitize_leaves :
    sanitizeTerminalText (esc :: esc :: "[m[31m".toList) = esc :: "[31m".toList ∧
      ansiPattern.Occurs (sanitizeTerminalText (esc :: esc :: "[m[31m".toList)) ∧
      sanitizeTerminalText (sanitizeTerminalText (esc :: esc :: "[m[31m".toList)) ≠
        sanitizeTerminalText (esc :: esc :: "[m[31m".toList) := by
  have hleft : sanitizeTerminalText (esc :: esc :: "[m[31m".toList) = esc :: "[31m".toList := by
    decide +kernel
  rw [hleft]
  refine ⟨rfl, occurs_iff.mpr ⟨esc :: "[31m".toList, ?_, List.infix_rfl⟩, by decide +kernel⟩
  have hparameters : ∀ c ∈ ['3', '1'], isParameter c = true :=
    List.all_eq_true.mp (show ['3', '1'].all isParameter = true by decide)
  exact @Opening.csi ['3', '1'] [] 'm' hparameters (fun c hc => absurd hc List.not_mem_nil)
    (by decide)

end Atomis.Ansi
