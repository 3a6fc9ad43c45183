import Atomis.Lib.Regex
import Atomis.Lib.Utf8
import Atomis.Markers

/-!
# Panic and error lines

Two rules say which lines of a program's error output are a crash and which are an error. The
second is searched for at every position, of the first only the first `panic:` is looked at.
-/

namespace Atomis.Markers

open Regex

/-! ## The rules -/

/-- `(?:^|\s)` -/
def wordStart : Regex Char := .alt .start (.one isWhitespace)

def threadWord : List Char := "thread ".toList

/-- `thread \d+ ` -/
def threadNumber : Regex Char :=
  .seq (letters threadWord)
    (.seq (.seq (.one Char.isDigit) (.many (.one Char.isDigit))) (letters " ".toList))

def panicWord : List Char := "panic:".toList

def errorWord : List Char := "error:".toList

/-- `(?:^|\s)(?:thread \d+ )?panic:` -/
def panicPattern : Regex Char :=
  .seq wordStart (.seq (.alt threadNumber .empty) (letters panicWord))

/-- `(?:^|\s)error:` -/
def errorPattern : Regex Char := .seq wordStart (letters errorWord)

/-- A failed assertion or one of the two phrases. -/
def SaysPanic (lower : List Char) : Prop :=
  "panicked at".toList <:+: lower ∨ "traceback (most recent call last)".toList <:+: lower ∨
    ∃ before middle after,
      lower = before ++ "assertion ".toList ++ middle ++ "failed".toList ++ after

def PanicRule (lower : List Char) : Prop := SaysPanic lower ∨ panicPattern.Occurs lower

/-! ## Where a word starts -/

/-- Behind this text a word starts. -/
def StartsWord (before : List Char) : Prop := before = [] ∨ endsWithWhitespace before = true

/-- A text that ends in `thread` and a number, which a blank does not follow. -/
def EndsInThread (before : List Char) : Prop :=
  ∃ front digits, before = front ++ threadWord ++ digits ∧ digits ≠ [] ∧
    (∀ c ∈ digits, c.isDigit) ∧ StartsWord front

/-- The first `panic:` of a text stands between these. -/
def FirstPanic (lower before after : List Char) : Prop :=
  lower = before ++ panicWord ++ after ∧
    ∀ front rest, lower = front ++ panicWord ++ rest → before.length ≤ front.length

/-! ## Searching -/

variable {needle text lower before after word : List Char}

theorem find_eq_none (h : find needle text = none) : ¬needle <:+: text := by
  induction text with
  | nil =>
    rw [find] at h
    split_ifs at h with hnil
    rwa [List.infix_nil]
  | cons c text ih =>
    rw [find] at h
    split_ifs at h with hstarts
    rw [List.infix_cons_iff, ← List.isPrefixOf_iff_prefix]
    exact not_or.mpr ⟨hstarts, ih (Option.map_eq_none_iff.mp h)⟩

theorem find_eq_some {index : ℕ} (h : find needle text = some index) :
    ∃ before after, text = before ++ needle ++ after ∧ before.length = index ∧
      ∀ front rest, text = front ++ needle ++ rest → index ≤ front.length := by
  induction text generalizing index with
  | nil =>
    rw [find] at h
    split_ifs at h with hnil
    cases h
    exact ⟨[], [], by simp [hnil], rfl, fun _ _ _ => Nat.zero_le _⟩
  | cons c text ih =>
    rw [find] at h
    split_ifs at h with hstarts
    · cases h
      obtain ⟨after, hafter⟩ := List.isPrefixOf_iff_prefix.mp hstarts
      exact ⟨[], after, hafter.symm, rfl, fun _ _ _ => Nat.zero_le _⟩
    · obtain ⟨inner, hinner, rfl⟩ := Option.map_eq_some_iff.mp h
      obtain ⟨before, after, rfl, hlength, hfirst⟩ := ih hinner
      refine ⟨c :: before, after, rfl, by rw [List.length_cons, hlength], fun front rest hsplit => ?_⟩
      cases front with
      | nil =>
        refine absurd (List.isPrefixOf_iff_prefix.mpr ⟨rest, ?_⟩) hstarts
        exact hsplit.symm
      | cons d front =>
        obtain ⟨-, hrest⟩ := List.cons.inj hsplit
        exact Nat.succ_le_succ (hfirst front rest hrest)

theorem contains_iff : contains needle text = true ↔ needle <:+: text := by
  rw [contains]
  cases h : find needle text with
  | none => exact iff_of_false Bool.false_ne_true (find_eq_none h)
  | some index =>
    obtain ⟨before, after, htext, -⟩ := find_eq_some h
    exact iff_of_true rfl ⟨before, after, htext.symm⟩

theorem startsWord_of_match {front : List Char} (h : wordStart.Match front word) :
    StartsWord (front ++ word) := by
  rcases h with ⟨rfl, rfl⟩ | ⟨c, rfl, hc⟩
  · exact Or.inl rfl
  · exact Or.inr (by simpa [endsWithWhitespace] using hc)

theorem match_of_startsWord (h : StartsWord before) :
    ∃ front word, before = front ++ word ∧ wordStart.Match front word := by
  rcases h with rfl | hblank
  · exact ⟨[], [], rfl, Or.inl ⟨rfl, rfl⟩⟩
  · obtain ⟨c, hlast, hc⟩ := (Option.any_eq_true _ _).mp hblank
    obtain ⟨front, rfl⟩ := List.getLast?_eq_some_iff.mp hlast
    exact ⟨front, [c], rfl, Or.inr ⟨c, rfl, hc⟩⟩

theorem occurs_error_iff : errorPattern.Occurs lower ↔
    ∃ before after, lower = before ++ errorWord ++ after ∧ StartsWord before := by
  constructor
  · rintro ⟨front, word, after, rfl, start, rest, rfl, hstart, hrest⟩
    rw [match_letters.mp hrest, ← List.append_assoc]
    exact ⟨front ++ start, after, rfl, startsWord_of_match hstart⟩
  · rintro ⟨before, after, rfl, hbefore⟩
    obtain ⟨front, start, rfl, hstart⟩ := match_of_startsWord hbefore
    exact ⟨front, start ++ errorWord, after, by simp, start, errorWord, rfl, hstart,
      match_letters.mpr rfl⟩

/-- A number in front of `panic:` ends in a blank, so it does not matter. -/
theorem occurs_panic_iff : panicPattern.Occurs lower ↔
    ∃ before after, lower = before ++ panicWord ++ after ∧ StartsWord before := by
  constructor
  · rintro ⟨front, word, after, rfl, start, rest, rfl, hstart, thread, last, rfl, hthread, hlast⟩
    rw [match_letters.mp hlast]
    refine ⟨front ++ start ++ thread, after, by simp, ?_⟩
    rcases hthread with ⟨name, number, rfl, -, digits, blank, rfl, -, hblank⟩ | rfl
    · rw [match_letters.mp hblank]
      exact Or.inr (by simp [endsWithWhitespace]; decide)
    · rw [List.append_nil]
      exact startsWord_of_match hstart
  · rintro ⟨before, after, rfl, hbefore⟩
    obtain ⟨front, start, rfl, hstart⟩ := match_of_startsWord hbefore
    exact ⟨front, start ++ panicWord, after, by simp, start, panicWord, rfl, hstart,
      [], panicWord, rfl, Or.inr rfl, match_letters.mpr rfl⟩

/-! ## Errors -/

/-- The character in front of what is behind a text. -/
def previousOf (before : List Char) (previous : Option Char) : Option Char :=
  before.getLast?.or previous

theorem previousOf_cons (c : Char) (before : List Char) (previous : Option Char) :
    previousOf (c :: before) previous = previousOf before (some c) := by
  cases before using List.reverseRecOn with
  | nil => rfl
  | append_singleton before d =>
    rw [previousOf, previousOf, ← List.cons_append, List.getLast?_concat, List.getLast?_concat]
    rfl

theorem startsWord_iff : StartsWord before ↔ (previousOf before none).all isWhitespace = true := by
  rw [StartsWord, endsWithWhitespace, previousOf, Option.or_none]
  cases before using List.reverseRecOn with
  | nil => simp
  | append_singleton before c => simp

theorem errorAfter_iff {previous : Option Char} : errorAfter previous text = true ↔
    ∃ before after, text = before ++ errorWord ++ after ∧
      (previousOf before previous).all isWhitespace = true := by
  induction text generalizing previous with
  | nil =>
    refine iff_of_false Bool.false_ne_true ?_
    rintro ⟨before, after, htext, -⟩
    have hempty := (List.append_eq_nil_iff.mp (List.append_eq_nil_iff.mp htext.symm).1).2
    exact absurd hempty (by decide)
  | cons c text ih =>
    rw [errorAfter, Bool.or_eq_true, Bool.and_eq_true, ih, List.isPrefixOf_iff_prefix]
    constructor
    · rintro (⟨⟨after, hafter⟩, hprevious⟩ | ⟨before, after, rfl, hlast⟩)
      · exact ⟨[], after, hafter.symm, hprevious⟩
      · exact ⟨c :: before, after, rfl, by rwa [previousOf_cons]⟩
    · rintro ⟨before, after, htext, hlast⟩
      cases before with
      | nil => exact Or.inl ⟨⟨after, htext.symm⟩, hlast⟩
      | cons d before =>
        obtain ⟨rfl, rfl⟩ := List.cons.inj htext
        exact Or.inr ⟨before, after, rfl, by rwa [← previousOf_cons]⟩

theorem lineHasError_iff (line : List Char) :
    lineHasError line = true ↔ errorPattern.Occurs (toLowercase line) := by
  rw [lineHasError, errorAfter_iff, occurs_error_iff]
  simp only [startsWord_iff]

/-! ## Panics -/

theorem rdropWhile_digits {front digits : List Char} {c : Char} (hc : c.isDigit = false)
    (h : ∀ d ∈ digits, d.isDigit) :
    (front ++ [c] ++ digits).rdropWhile Char.isDigit = front ++ [c] := by
  induction digits using List.reverseRecOn with
  | nil => rw [List.append_nil, List.rdropWhile_concat_neg _ _ _ (by simp [hc])]
  | append_singleton digits d ih =>
    rw [← List.append_assoc, List.rdropWhile_concat_pos _ _ _ (h d (by simp))]
    exact ih fun e he => h e (List.mem_append_left _ he)

theorem not_isWhitespace_of_isDigit {c : Char} (h : c.isDigit = true) : isWhitespace c = false := by
  obtain ⟨hlow, hhigh⟩ := Utf8.toNat_of_isDigit h
  simp [isWhitespace]
  omega

theorem threadWord_eq : threadWord = "thread".toList ++ [' '] := by
  decide

theorem threadPrefix_digit {digit : Char} (hdigit : digit.isDigit = true) :
    threadPrefix (before ++ [digit]) = true ↔
      ∃ front, before.rdropWhile Char.isDigit = front ++ threadWord ∧ StartsWord front := by
  have hblank := not_isWhitespace_of_isDigit hdigit
  have htrimmed : (before ++ [digit]).rdropWhile isWhitespace = before ++ [digit] :=
    List.rdropWhile_concat_neg _ _ _ (by simp [hblank])
  rw [threadPrefix, htrimmed]
  simp only [List.getLast?_concat, Option.any_some, hdigit, if_true, List.dropLast_concat,
    Bool.and_eq_true, Bool.or_eq_true, decide_eq_true_eq]
  rw [List.isSuffixOf_iff_suffix]
  constructor
  · rintro ⟨⟨front, hfront⟩, hstarts⟩
    refine ⟨front, hfront.symm, ?_⟩
    rw [← hfront, List.length_append, Nat.add_sub_cancel, List.take_left] at hstarts
    rcases hstarts with hlength | hends
    · exact Or.inl (List.length_eq_zero_iff.mp (by omega))
    · exact Or.inr hends
  · rintro ⟨front, hfront, hstarts⟩
    rw [hfront]
    refine ⟨⟨front, rfl⟩, ?_⟩
    rw [List.length_append]
    rcases hstarts with rfl | hends
    · exact Or.inl (Nat.le_of_eq (Nat.zero_add _))
    · refine Or.inr ?_
      have hthread : "thread ".toList.length = threadWord.length := rfl
      rw [hthread, Nat.add_sub_cancel, List.take_left]
      exact hends

theorem threadPrefix_iff (h : ¬StartsWord before) :
    threadPrefix before = true ↔ EndsInThread before := by
  cases before using List.reverseRecOn with
  | nil => exact absurd (Or.inl rfl) h
  | append_singleton before c =>
    have hblank : ¬isWhitespace c = true := fun hc => h (Or.inr (by simp [endsWithWhitespace, hc]))
    have htrimmed : (before ++ [c]).rdropWhile isWhitespace = before ++ [c] :=
      List.rdropWhile_concat_neg _ _ _ hblank
    by_cases hdigit : c.isDigit = true
    · rw [threadPrefix_digit hdigit]
      constructor
      · rintro ⟨front, hfront, hstarts⟩
        refine ⟨front, before.rtakeWhile Char.isDigit ++ [c], ?_, by simp, fun d hd => ?_, hstarts⟩
        · rw [← List.append_assoc, ← hfront, List.rdropWhile_append_rtakeWhile]
        · rcases List.mem_append.mp hd with hd | hd
          · exact List.mem_rtakeWhile_imp hd
          · rw [List.mem_singleton.mp hd]
            exact hdigit
      · rintro ⟨front, digits, hsplit, hne, hdigits, hstarts⟩
        obtain ⟨digits, last, rfl⟩ := (List.eq_nil_or_concat' digits).resolve_left hne
        rw [← List.append_assoc] at hsplit
        obtain ⟨rfl, -⟩ := List.append_inj' hsplit rfl
        refine ⟨front, ?_, hstarts⟩
        have hthread : front ++ threadWord = front ++ "thread".toList ++ [' '] := by
          rw [List.append_assoc]
          exact congrArg (front ++ ·) threadWord_eq
        rw [hthread, rdropWhile_digits (by decide) fun d hd => hdigits d (List.mem_append_left _ hd)]
    · refine iff_of_false ?_ ?_
      · rw [threadPrefix, htrimmed]
        simp [hdigit]
      · rintro ⟨front, digits, hsplit, hne, hdigits, -⟩
        obtain ⟨digits, last, rfl⟩ := (List.eq_nil_or_concat' digits).resolve_left hne
        rw [← List.append_assoc] at hsplit
        obtain ⟨-, hlast⟩ := List.append_inj' hsplit rfl
        rw [(List.cons.inj hlast).1] at hdigit
        exact hdigit (hdigits last (by simp))

theorem mem_of_overlap {front rest middle : List Char} {c : Char}
    (h : front ++ c :: rest = middle ++ after) (hlength : front.length < middle.length) :
    c ∈ middle := by
  have hget := congrArg (fun l => l[front.length]?) h
  simp only [List.getElem?_append_right le_rfl, Nat.sub_self, List.getElem?_cons_zero,
    List.getElem?_append_left hlength] at hget
  exact List.mem_of_getElem? hget.symm

def assertionWord : List Char := "assertion ".toList

def failedWord : List Char := "failed".toList

theorem assertionFailed_iff :
    ((find assertionWord lower).any fun index => contains failedWord (lower.drop index)) = true ↔
      ∃ before middle after,
        lower = before ++ assertionWord ++ middle ++ failedWord ++ after := by
  cases h : find assertionWord lower with
  | none =>
    refine iff_of_false Bool.false_ne_true ?_
    rintro ⟨before, middle, after, hsplit⟩
    refine find_eq_none h ⟨before, middle ++ failedWord ++ after, ?_⟩
    rw [hsplit]
    simp only [List.append_assoc]
  | some index =>
    obtain ⟨first, rest, rfl, rfl, hfirst⟩ := find_eq_some h
    rw [Option.any_some, contains_iff]
    constructor
    · rintro ⟨front, after, hfailed⟩
      rw [List.append_assoc first, List.drop_left] at hfailed
      have hlength : assertionWord.length ≤ front.length := by
        by_contra hshort
        have hoverlap : front ++ 'f' :: ("ailed".toList ++ after) = assertionWord ++ rest := by
          rw [← hfailed, List.append_assoc]
          rfl
        exact absurd (mem_of_overlap hoverlap (Nat.lt_of_not_le hshort)) (by decide)
      obtain ⟨middle, rfl⟩ : assertionWord <+: front := by
        rw [List.append_assoc] at hfailed
        exact List.prefix_of_prefix_length_le ⟨rest, rfl⟩ ⟨failedWord ++ after, hfailed⟩ hlength
      refine ⟨first, middle, after, ?_⟩
      rw [List.append_assoc, ← hfailed]
      simp only [List.append_assoc]
    · rintro ⟨before, middle, after, hsplit⟩
      have hle := hfirst before (middle ++ failedWord ++ after)
        (by rw [hsplit]; simp only [List.append_assoc])
      refine ⟨before.drop first.length ++ assertionWord ++ middle, after, ?_⟩
      rw [hsplit]
      simp only [List.append_assoc, List.drop_append_of_le_length hle]

theorem saysPanic_iff : SaysPanic lower ↔ contains "panicked at".toList lower = true ∨
    contains "traceback (most recent call last)".toList lower = true ∨
      ((find "assertion ".toList lower).any fun index =>
        contains "failed".toList (lower.drop index)) = true := by
  rw [contains_iff, contains_iff]
  exact or_congr_right (or_congr_right assertionFailed_iff.symm)

theorem firstPanic_unique {front rest : List Char} (h : FirstPanic lower before after)
    (h' : FirstPanic lower front rest) : before = front := by
  have hlength := Nat.le_antisymm (h.2 _ _ h'.1) (h'.2 _ _ h.1)
  have hsplit : before ++ (panicWord ++ after) = front ++ (panicWord ++ rest) := by
    rw [← List.append_assoc, ← List.append_assoc, ← h.1, h'.1]
  exact List.append_inj_left hsplit hlength

theorem exists_firstPanic {front rest : List Char} (h : lower = front ++ panicWord ++ rest) :
    ∃ before after, FirstPanic lower before after := by
  cases hfind : find panicWord lower with
  | none => exact absurd ⟨front, rest, h.symm⟩ (find_eq_none hfind)
  | some index =>
    obtain ⟨before, after, hsplit, rfl, hfirst⟩ := find_eq_some hfind
    exact ⟨before, after, hsplit, hfirst⟩

theorem head_iff : (before.isEmpty || endsWithWhitespace before || threadPrefix before) = true ↔
    StartsWord before ∨ EndsInThread before := by
  by_cases hstarts : StartsWord before
  · refine iff_of_true ?_ (Or.inl hstarts)
    rcases hstarts with rfl | hblank
    · rfl
    · rw [hblank, Bool.or_true, Bool.true_or]
  · have hhead : (before.isEmpty || endsWithWhitespace before) = false := by
      rw [Bool.or_eq_false_iff, List.isEmpty_eq_false_iff, ← Bool.not_eq_true]
      exact not_or.mp hstarts
    rw [hhead, Bool.false_or, threadPrefix_iff hstarts, or_iff_right hstarts]

theorem isPanicLine_iff (line : List Char) : isPanicLine line = true ↔
    SaysPanic (toLowercase line) ∨ ∃ before after, FirstPanic (toLowercase line) before after ∧
      (StartsWord before ∨ EndsInThread before) := by
  rw [isPanicLine, saysPanic_iff]
  split_ifs with hphrase hassertion
  · exact iff_of_true rfl (Or.inl (or_assoc.mp (Or.inl (by simpa using hphrase))))
  · exact iff_of_true rfl (Or.inl (Or.inr (Or.inr hassertion)))
  · rw [Bool.or_eq_true] at hphrase
    have hsilent := not_or.mpr ⟨not_or.mp hphrase |>.1,
      not_or.mpr ⟨not_or.mp hphrase |>.2, hassertion⟩⟩
    rw [or_iff_right hsilent]
    cases hfind : find "panic:".toList (toLowercase line) with
    | none =>
      refine iff_of_false Bool.false_ne_true ?_
      rintro ⟨before, after, ⟨hsplit, -⟩, -⟩
      exact find_eq_none hfind ⟨before, after, hsplit.symm⟩
    | some index =>
      obtain ⟨before, after, hsplit, rfl, hfirst⟩ := find_eq_some hfind
      have hpanic : FirstPanic (toLowercase line) before after := ⟨hsplit, hfirst⟩
      have htake : (toLowercase line).take before.length = before := by
        rw [hsplit, List.append_assoc, List.take_left]
      simp only [htake, head_iff]
      constructor
      · exact fun hhead => ⟨before, after, hpanic, hhead⟩
      · rintro ⟨front, rest, hother, hhead⟩
        rwa [firstPanic_unique hpanic hother]

/-- The first `panic:` tells whether a word starts in front of any. -/
structure Telling (lower : List Char) : Prop where
  first : SaysPanic lower ∨ ∀ before after, FirstPanic lower before after →
    StartsWord before ∨ (EndsInThread before ↔
      ∃ front rest, lower = front ++ panicWord ++ rest ∧ StartsWord front)

theorem panic_iff_telling (lower : List Char) :
    ((SaysPanic lower ∨ ∃ before after, FirstPanic lower before after ∧
        (StartsWord before ∨ EndsInThread before)) ↔ PanicRule lower) ↔ Telling lower := by
  rw [PanicRule, occurs_panic_iff]
  by_cases hsays : SaysPanic lower
  · exact iff_of_true (iff_of_true (Or.inl hsays) (Or.inl hsays)) ⟨Or.inl hsays⟩
  rw [or_iff_right hsays, or_iff_right hsays]
  constructor
  · refine fun hsame => ⟨Or.inr fun before after hfirst => or_iff_not_imp_left.mpr fun hinside => ?_⟩
    rw [← hsame]
    constructor
    · exact fun hthread => ⟨before, after, hfirst, Or.inr hthread⟩
    · rintro ⟨front, rest, hother, hhead⟩
      rw [← firstPanic_unique hfirst hother] at hhead
      exact hhead.resolve_left hinside
  · rintro ⟨htelling⟩
    have htelling := htelling.resolve_left hsays
    constructor
    · rintro ⟨before, after, hfirst, hstarts | hthread⟩
      · exact ⟨before, after, hfirst.1, hstarts⟩
      · rcases htelling before after hfirst with hstarts | hiff
        · exact ⟨before, after, hfirst.1, hstarts⟩
        · exact hiff.mp hthread
    · rintro ⟨front, rest, hsplit, hstarts⟩
      obtain ⟨before, after, hfirst⟩ := exists_firstPanic hsplit
      refine ⟨before, after, hfirst, (htelling before after hfirst).imp_right fun hiff => ?_⟩
      exact hiff.mpr ⟨front, rest, hsplit, hstarts⟩

/-- Errors are told by their rule, panics by theirs wherever the first `panic:` is telling. -/
theorem detection_exact (line : List Char) :
    (isPanicLine line = true ↔ PanicRule (toLowercase line)) ∧
      (lineHasError line = true ↔ errorPattern.Occurs (toLowercase line)) ↔
      Telling (toLowercase line) := by
  rw [and_iff_left (lineHasError_iff line), isPanicLine_iff, panic_iff_telling]

/-- A crash behind a word that ends in `panic:` is missed. -/
theorem detection_misses : isPanicLine "xpanic: panic: boom".toList = false ∧
    PanicRule (toLowercase "xpanic: panic: boom".toList) := by
  refine ⟨by decide, Or.inr (occurs_panic_iff.mpr ?_)⟩
  exact ⟨"xpanic: ".toList, " boom".toList, by decide, Or.inr (by decide)⟩

end Atomis.Markers
