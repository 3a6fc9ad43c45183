import Atomis.PyLines

/-!
# The Python worker and the command line tool

`python/instrumenter/pylive_worker.py` and `main` of `pylive_instrument.py`. Both hand a text
to `instrument`; the tool reads it from a file and so has its line ends translated.
-/

namespace Atomis.PyInstrument

open Atomis.Instrument
open Atomis.Utf8 (stripMark mem_stripMark)

/-! ## The two programs -/

structure Payload where
  documentVersion : ℕ
  generatedPath : Option String
  sourceMapPath : Option String
  probes : List Probe
  parseDiagnostics : List Diagnostic

/-- What both are asked for. -/
structure Request where
  options : Options
  version : ℕ
  output : String
  sourceMap : String

structure Answer where
  json : String
  generated : Option (List UInt8)
deriving DecidableEq

def render (dumps : Payload → String) (request : Request) (out : Output) : String :=
  dumps
    { documentVersion := request.version
      generatedPath := if out.generated.isSome then some request.output else none
      sourceMapPath := if out.generated.isSome then some request.sourceMap else none
      probes := out.probes
      parseDiagnostics := out.parseDiagnostics }

def reply (dumps : Payload → String) (request : Request) (out : Output) : Answer :=
  ⟨render dumps request out, out.generated⟩

def maxSourceBytes : ℕ := 1024 * 1024

section
variable (dumps : Payload → String) (parse : Parser) (request : Request)

/-- `answer` of the worker. -/
def answer (source : List UInt8) : Option Answer :=
  (instrument parse request.options (stripMark source)).map (reply dumps request)

/-- `open` with `utf-8-sig` and without `newline`. -/
def readText (file : List UInt8) : List UInt8 := translate (stripMark file)

/-- `main`: what is printed and written. -/
def main (file : List UInt8) : Option Answer :=
  if maxSourceBytes < file.length then none
  else (instrument parse request.options (readText file)).map (reply dumps request)

/-- `instrument_with_worker`: the text that the worker is sent. -/
def sent (file : List UInt8) : Option (List UInt8) :=
  if maxSourceBytes < file.length then none else some file

/-- The worker answers what it is sent as the tool does. -/
def Alike (file : List UInt8) : Prop :=
  ∀ source ∈ sent file, ∃ reply, answer dumps parse request source = some reply ∧
    main dumps parse request file = some reply

end

/-! ## Line ends -/

variable {source file : List UInt8}

theorem translate_of_not_mem (h : 13 ∉ source) : translate source = source := by
  induction source with
  | nil => rfl
  | cons byte rest ih =>
    obtain ⟨hbyte, hrest⟩ := not_or.mp (mt List.mem_cons.mpr h)
    rw [translate, ih hrest]
    · rintro _ rfl _
      exact hbyte rfl
    · rintro rfl
      exact hbyte rfl

theorem not_mem_translate (source : List UInt8) : 13 ∉ translate source := by
  induction source using translate.induct with
  | case1 rest ih => simpa [translate] using ih
  | case2 rest _ ih => simpa [translate] using ih
  | case3 byte rest _ hbyte ih =>
    rw [translate.eq_3 _ _ ‹_› hbyte]
    exact mt List.mem_cons.mp (not_or.mpr ⟨fun h => hbyte h.symm, ih⟩)
  | case4 => exact List.not_mem_nil

/-- A pattern of one line. -/
structure Inline (pattern : List UInt8) : Prop where
  newline : 10 ∉ pattern
  carriage : 13 ∉ pattern
  nonempty : pattern ≠ []

theorem Inline.not_begins {pattern : List UInt8} (h : Inline pattern) {byte : UInt8}
    (hbyte : byte = 10 ∨ byte = 13) (rest : List UInt8) : ¬pattern <+: byte :: rest := by
  cases pattern with
  | nil => exact absurd rfl h.nonempty
  | cons first pattern =>
    rw [List.cons_prefix_cons]
    rintro ⟨rfl, -⟩
    rcases hbyte with rfl | rfl
    · exact h.newline List.mem_cons_self
    · exact h.carriage List.mem_cons_self

theorem prefix_translate {pattern : List UInt8} (h : 10 ∉ pattern ∧ 13 ∉ pattern)
    (source : List UInt8) : pattern <+: translate source ↔ pattern <+: source := by
  induction source using translate.induct generalizing pattern with
  | case1 rest _ | case2 rest _ _ =>
    by_cases hempty : pattern = []
    · simp [hempty]
    · have hinline : Inline pattern := ⟨h.1, h.2, hempty⟩
      simp [translate, hinline.not_begins]
  | case3 byte rest hpair hbyte ih =>
    cases pattern with
    | nil => simp
    | cons first pattern =>
      rw [translate.eq_3 _ _ hpair hbyte, List.cons_prefix_cons, List.cons_prefix_cons]
      have hrest : 10 ∉ pattern ∧ 13 ∉ pattern :=
        ⟨fun hmem => h.1 (List.mem_cons_of_mem _ hmem),
          fun hmem => h.2 (List.mem_cons_of_mem _ hmem)⟩
      rw [ih hrest]
  | case4 => rfl

theorem Inline.infix_translate {pattern : List UInt8} (h : Inline pattern)
    (source : List UInt8) : pattern <:+: translate source ↔ pattern <:+: source := by
  induction source using translate.induct with
  | case1 rest ih => simp [translate, List.infix_cons_iff, h.not_begins, ih]
  | case2 rest hrest ih =>
    rw [translate.eq_2 _ hrest]
    simp [List.infix_cons_iff, h.not_begins, ih]
  | case3 byte rest hpair hbyte ih =>
    have hbegins := prefix_translate ⟨h.newline, h.carriage⟩ (byte :: rest)
    rw [translate.eq_3 _ _ hpair hbyte] at hbegins ⊢
    rw [List.infix_cons_iff, List.infix_cons_iff, hbegins, ih]
  | case4 => rfl

theorem inline_callMarks : ∀ mark ∈ callMarks, Inline (bytes mark) := by
  intro mark hmark
  have hline : ∀ mark ∈ callMarks, OneLine mark := by decide
  have hnonempty : ∀ mark ∈ callMarks, bytes mark ≠ [] := by decide
  obtain ⟨hnewline, hreturn⟩ := (hline mark hmark).not_mem_encode
  exact ⟨hnewline, hreturn, hnonempty mark hmark⟩

theorem marked_iff : marked source = true ↔ ∃ mark ∈ callMarks, bytes mark <:+: source := by
  simp [marked]

theorem marked_translate (source : List UInt8) : marked (translate source) = marked source := by
  rw [Bool.eq_iff_iff, marked_iff, marked_iff]
  exact exists_congr fun mark => and_congr_right fun hmark =>
    (inline_callMarks mark hmark).infix_translate source

/-! ## What the two give -/

variable {dumps : Payload → String} {parse : Parser} {request : Request} {out out' : Output}

theorem instrument_marked {o : Options} (h : marked source = true) :
    instrument parse o source = some ⟨some source, [], []⟩ := if_pos h

theorem instrument_refused {o : Options} {error : SyntaxError} (h : marked source = false)
    (hparse : parse source = .error error) :
    instrument parse o source = some ⟨none, [], [error.diagnostic]⟩ := by
  simp [instrument, h, hparse]

theorem Parser.Documented.named (h : parse.Documented) {tree : Suite}
    (hparse : parse source = .ok tree) :
    tree.Each (fun _ simple => ∀ n ∈ simple.names, OneLine n.id) Compound.Named := by
  rw [← h.translated] at hparse
  exact Suite.Each.imp (fun _ _ => Simple.Placed.oneLine) tree
    (h.placed _ tree (not_mem_translate source) hparse)

/-- Without carriage returns every text is instrumented. -/
theorem Parser.Documented.instrument (h : parse.Documented) {o : Options} (hreturn : 13 ∉ source) :
    ∃ out, instrument parse o source = some out := by
  by_cases hmarked : marked source = true
  · exact ⟨_, instrument_marked hmarked⟩
  · rw [Bool.not_eq_true] at hmarked
    cases hparse : parse source with
    | error error => exact ⟨_, instrument_refused hmarked hparse⟩
    | ok tree => exact ⟨_, instrument_placed hmarked hparse (h.placed source tree hreturn hparse)⟩

/-- What comes out of a text that is marked or parses has its carriage returns. -/
theorem Parser.Documented.returns (h : parse.Documented) {o : Options}
    (hsource : marked source = true ∨ ∃ tree, parse source = .ok tree)
    (hout : PyInstrument.instrument parse o source = some out) :
    ∃ generated, out.generated = some generated ∧ (13 ∈ generated ↔ 13 ∈ source) := by
  by_cases hmarked : marked source = true
  · rw [instrument_marked hmarked] at hout
    obtain rfl := Option.some.inj hout
    exact ⟨source, rfl, Iff.rfl⟩
  · obtain ⟨tree, hparse⟩ := hsource.resolve_left hmarked
    exact instrument_returns (Bool.not_eq_true _ ▸ hmarked) hparse (h.named hparse) hout

theorem alike_of_unsent (h : maxSourceBytes < file.length) : Alike dumps parse request file := by
  intro source hsource
  rw [sent, if_pos h] at hsource
  cases hsource

theorem alike_of_same (hanswer : instrument parse request.options (stripMark file) = some out)
    (hmain : instrument parse request.options (readText file) = some out) :
    Alike dumps parse request file := by
  by_cases hlarge : maxSourceBytes < file.length
  · exact alike_of_unsent hlarge
  · intro source hsource
    rw [sent, if_neg hlarge] at hsource
    obtain rfl := Option.some.inj hsource
    refine ⟨reply dumps request out, ?_, ?_⟩
    · rw [answer, hanswer]
      rfl
    · rw [main, if_neg hlarge, hmain]
      rfl

theorem alike_of_newlines (h : parse.Documented) (hfile : 13 ∉ file) :
    Alike dumps parse request file := by
  have hsource : 13 ∉ stripMark file := mt (mem_stripMark (by decide)).mp hfile
  obtain ⟨out, hout⟩ := h.instrument (o := request.options) hsource
  refine alike_of_same hout ?_
  rw [readText, translate_of_not_mem hsource]
  exact hout

theorem alike_of_refused (h : parse.Documented) (hmarked : marked (stripMark file) = false)
    {error : SyntaxError} (hparse : parse (stripMark file) = .error error) :
    Alike dumps parse request file := by
  refine alike_of_same (instrument_refused hmarked hparse) (instrument_refused ?_ ?_)
  · rw [readText, marked_translate, hmarked]
  · rw [readText, h.translated, hparse]

/-- Only the tool's text has lost its carriage returns. -/
theorem not_alike_of_return (h : parse.Documented) (hsmall : ¬maxSourceBytes < file.length)
    (hreturn : 13 ∈ file) (hsource : marked (stripMark file) = true ∨
      ∃ tree, parse (stripMark file) = .ok tree) : ¬Alike dumps parse request file := by
  intro halike
  obtain ⟨given, hanswer, hmain⟩ := halike file (by rw [sent, if_neg hsmall]; rfl)
  rw [main, if_neg hsmall] at hmain
  obtain ⟨out, hout, hgiven⟩ := Option.map_eq_some_iff.mp hanswer
  obtain ⟨out', hout', hgiven'⟩ := Option.map_eq_some_iff.mp hmain
  have hread : marked (readText file) = true ∨ ∃ tree, parse (readText file) = .ok tree := by
    rw [readText, marked_translate, h.translated]
    exact hsource
  obtain ⟨generated, hgenerated, hmem⟩ := h.returns hsource hout
  obtain ⟨generated', hgenerated', hmem'⟩ := h.returns hread hout'
  have hsame : generated = generated' := by
    have heq := congrArg Answer.generated (hgiven.trans hgiven'.symm)
    rw [reply, reply, hgenerated, hgenerated'] at heq
    exact Option.some.inj heq
  rw [hsame] at hmem
  exact not_mem_translate _ (hmem'.mp (hmem.mpr ((mem_stripMark (by decide)).mpr hreturn)))

/-- The worker and the tool are alike on the texts without carriage returns, and on those that
come to nothing. -/
theorem alike_iff (h : parse.Documented) :
    Alike dumps parse request file ↔ maxSourceBytes < file.length ∨ 13 ∉ file ∨
      (marked (stripMark file) = false ∧ ∃ error, parse (stripMark file) = .error error) := by
  constructor
  · intro halike
    by_contra hnot
    obtain ⟨hsmall, hreturn, hrefused⟩ := by simpa only [not_or] using hnot
    refine not_alike_of_return h hsmall (not_not.mp hreturn) ?_ halike
    by_cases hmarked : marked (stripMark file) = true
    · exact .inl hmarked
    · cases hparse : parse (stripMark file) with
      | error error => exact absurd ⟨Bool.not_eq_true _ ▸ hmarked, error, hparse⟩ hrefused
      | ok tree => exact .inr ⟨tree, rfl⟩
  · rintro (hlarge | hreturn | ⟨hmarked, error, hparse⟩)
    · exact alike_of_unsent hlarge
    · exact alike_of_newlines h hreturn
    · exact alike_of_refused h hmarked hparse

/-! ## A file with each kind of line end -/

/-- `a = 1` and `b = 2`. -/
def twoLines : List UInt8 := [97, 32, 61, 32, 49, 10, 98, 32, 61, 32, 50, 10]

def twoReturns : List UInt8 := [97, 32, 61, 32, 49, 13, 10, 98, 32, 61, 32, 50, 13, 10]

def number : Expr := .node .other .nil

def twoAssignments : Suite := .ofList
  [.simple ⟨⟨1, 0⟩, ⟨1, 5⟩⟩ (.assign [.name ⟨"a", ⟨1, 0⟩, ⟨1, 1⟩⟩] number),
    .simple ⟨⟨2, 0⟩, ⟨2, 5⟩⟩ (.assign [.name ⟨"b", ⟨2, 0⟩, ⟨2, 1⟩⟩] number)]

/-- A parser that knows one program. -/
def parseTwo : Parser := fun source =>
  if translate source = twoLines then .ok twoAssignments else .error ⟨none, some 1, some 1⟩

theorem in_twoLines {line col : ℕ} (hline : line = 1 ∨ line = 2) (hcol : col ≤ 5) :
    (⟨line, col⟩ : Position).In twoLines := by
  rcases hline with rfl | rfl
  · exact ⟨Nat.one_pos, [97, 32, 61, 32, 49], rfl, hcol⟩
  · exact ⟨Nat.two_pos, [98, 32, 61, 32, 50], rfl, hcol⟩

theorem placed_twoLines {line : ℕ} (hline : line = 1 ∨ line = 2) {id : String} (hid : OneLine id) :
    Simple.Placed twoLines ⟨⟨line, 0⟩, ⟨line, 5⟩⟩
      (.assign [.name ⟨id, ⟨line, 0⟩, ⟨line, 1⟩⟩] number) where
  stop := in_twoLines hline (by decide)
  names := by
    intro n hn
    obtain rfl := List.mem_singleton.mp hn
    exact ⟨in_twoLines hline (by decide), in_twoLines hline (by decide), hid⟩

theorem documented_parseTwo : parseTwo.Documented where
  translated source := by
    rw [parseTwo, parseTwo, translate_of_not_mem (not_mem_translate source)]
  placed source file hreturn hparse := by
    rw [parseTwo, translate_of_not_mem hreturn] at hparse
    split_ifs at hparse with hsource
    obtain rfl := Except.ok.inj hparse
    rw [hsource]
    exact ⟨placed_twoLines (.inl rfl) (by decide), placed_twoLines (.inr rfl) (by decide), trivial⟩

def twoRequest : Request :=
  ⟨⟨"file:///main.py", 0, true, []⟩, 1, "generated/main.py", "map.json"⟩

theorem alike_twoLines : Alike (fun _ => "\x7b\x7d") parseTwo twoRequest twoLines :=
  (alike_iff documented_parseTwo).mpr (.inr (.inl (by decide)))

theorem not_alike_twoReturns :
    ¬Alike (fun _ => "\x7b\x7d") parseTwo twoRequest twoReturns :=
  not_alike_of_return documented_parseTwo (by decide) (by decide)
    (.inr ⟨twoAssignments, if_pos (by decide)⟩)

end Atomis.PyInstrument
