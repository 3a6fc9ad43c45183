import Atomis.Ansi
import Atomis.ProbeValues
import Atomis.RustLogs

/-!
# Log statements beside their lines

The output that carries a place is grouped by line: the last text, the highest count and the last
twenty texts of each. Of a Rust program the count beside a line is how often its statement was
reached, also when the output has dropped its earlier lines.
-/

namespace Atomis.InlineLogs
open Ansi RuntimeView TerminalFolds

structure InlineLog where
  line : ℕ
  text : List Char
  count : ℕ
  history : List (List Char)
  isError : Bool
deriving DecidableEq

def maxPreview : ℕ := 120

def maxHistory : ℕ := 20

/-! ## Grouping -/

/-- `trim` -/
def trim (text : List Char) : List Char :=
  (text.dropWhile ClangInstrument.isSpace).rdropWhile ClangInstrument.isSpace

/-- The UTF-16 code units of a character. -/
def units (c : Char) : ℕ := if c.toNat < 0x10000 then 1 else 2

/-- `slice(0, size)`; of a pair that is cut in two nothing is kept. -/
def sliceUnits (size : ℕ) : List Char → List Char
  | [] => []
  | c :: text => if units c ≤ size then c :: sliceUnits (size - units c) text else []

def previewOf (chunk : List Char) : List Char :=
  let first := trim ((sanitizeTerminalText chunk).takeWhile (· ≠ '\n'))
  if maxPreview < (first.map units).sum then sliceUnits maxPreview first ++ ['…'] else first

/-- The documents of the active file and of the one that output without a path is from. -/
structure Shown where
  activePath : String
  entryFile : String

namespace Shown

variable (shown : Shown)

def covers (location : TerminalSourceLocation) : Bool :=
  location.path.getD ("src/" ++ shown.entryFile) = "src/" ++ shown.activePath

def addLog (logs : ℕ → Option InlineLog) (entry : TerminalEntry) : ℕ → Option InlineLog :=
  match entry.sourceLocation with
  | none => logs
  | some location =>
    if !shown.covers location then logs
    else
      let text := previewOf entry.chunk.toList
      if text = [] then logs
      else
        let log := match logs location.line with
          | some existing =>
            { existing with
              text
              count := max existing.count location.executionIndex
              history := lastOf maxHistory (existing.history ++ [text])
              isError := existing.isError || entry.category = .error }
          | none =>
            { line := location.line, text, count := location.executionIndex, history := [text],
              isError := entry.category = .error }
        Function.update logs location.line (some log)

def groupLogsByLine (output : List TerminalEntry) : ℕ → Option InlineLog :=
  output.foldl shown.addLog fun _ => none

end Shown

/-- What is shown of one execution. -/
structure Print where
  text : List Char
  executionIndex : ℕ
  isError : Bool

/-- An entry without its number. -/
abbrev Line := Category × String × Option TerminalSourceLocation

def printed (entry : TerminalEntry) : Line := (entry.category, entry.chunk, entry.sourceLocation)

def Shown.print (shown : Shown) (line : ℕ) : Line → Option Print
  | (category, chunk, sourceLocation) => sourceLocation.bind fun location =>
    if shown.covers location ∧ location.line = line ∧ previewOf chunk.toList ≠ [] then
      some ⟨previewOf chunk.toList, location.executionIndex, category = .error⟩
    else none

/-- The log of a line with these executions, the last one last. -/
def logOf (line : ℕ) (prints : List Print) : Option InlineLog :=
  prints.getLast?.map fun last =>
    { line, text := last.text, count := (prints.map Print.executionIndex).foldl max 0
      history := lastOf maxHistory (prints.map Print.text), isError := prints.any Print.isError }

theorem lastOf_append_singleton {α : Type} (n : ℕ) (l : List α) (a : α) :
    lastOf (n + 1) (lastOf (n + 1) l ++ [a]) = lastOf (n + 1) (l ++ [a]) := by
  simp [lastOf, List.rtake_eq_reverse_take_reverse, List.take_take]

theorem logOf_concat (line : ℕ) (prints : List Print) (last : Print) :
    logOf line (prints ++ [last]) = some (match logOf line prints with
      | some existing =>
        { existing with
          text := last.text
          count := max existing.count last.executionIndex
          history := lastOf maxHistory (existing.history ++ [last.text])
          isError := existing.isError || last.isError }
      | none =>
        { line, text := last.text, count := last.executionIndex, history := [last.text],
          isError := last.isError }) := by
  rcases List.eq_nil_or_concat prints with rfl | ⟨init, before, rfl⟩
  · simp [logOf, lastOf, maxHistory, List.rtake]
  · simp only [logOf, List.concat_eq_append, List.getLast?_concat, Option.map_some, List.map_append,
      List.foldl_append, List.any_append, List.map_cons, List.map_nil, maxHistory,
      lastOf_append_singleton]
    simp

theorem groupLogsByLine_eq (shown : Shown) (output : List TerminalEntry) (line : ℕ) :
    shown.groupLogsByLine output line =
      logOf line ((output.map printed).filterMap (shown.print line)) := by
  induction output using List.reverseRecOn with
  | nil => rfl
  | append_singleton output entry ih =>
    rw [Shown.groupLogsByLine] at ih ⊢
    rw [List.foldl_append, List.map_append, List.filterMap_append, List.foldl_cons, List.foldl_nil,
      Shown.addLog, List.map_singleton, List.filterMap_cons, List.filterMap_nil, printed,
      Shown.print]
    rcases entry.sourceLocation with _ | location
    · simpa using ih
    · simp only [Option.bind_some]
      by_cases hcovers : shown.covers location
      · by_cases hblank : previewOf entry.chunk.toList = []
        · simpa [hcovers, hblank] using ih
        · by_cases hline : location.line = line
          · subst hline
            simp only [hcovers, hblank, Bool.not_true, Bool.false_eq_true, if_false, true_and,
              not_false_eq_true, ne_eq, if_true, Function.update_self, logOf_concat, ih]
          · simp only [hcovers, hblank, hline, Bool.not_true, Bool.false_eq_true, if_false, false_and,
              and_false, List.append_nil]
            rw [Function.update_of_ne (Ne.symm hline), ih]
      · simpa [hcovers] using ih

/-! ## What the client is sent -/

section Client

variable {P : Payloads}

/-- Nothing begins, clears or adds to the output but what the server sends. -/
def Keeps : Action P → Prop
  | .edit _ | .setVersion _ | .reset | .clearOutput | .echoInput _
  | .receive (.runState _ _ .instrumenting) => False
  | _ => True

def received : Action P → Option (ℕ × Line)
  | .receive (.output version category chunk sourceLocation) =>
    some (version, category, chunk, sourceLocation)
  | _ => none

theorem version_next {s : RuntimeView.State P} {action : Action P} (h : Keeps action) :
    (next s action).version = s.version := by
  cases action
  case edit => cases h
  case setVersion => cases h
  case reset => cases h
  all_goals rfl

theorem lines_next_none {s : RuntimeView.State P} {action : Action P} (h : Keeps action)
    (hreceived : received action = none) :
    shownLines (next s action).log = shownLines s.log := by
  cases action with
  | receive event =>
    have hentry : Entry.output (.server event) = none ∧ Entry.clears (.server event) = false := by
      cases event with
      | output version category chunk sourceLocation => cases hreceived
      | runState version runId state =>
        cases state with
        | instrumenting => cases h
        | _ => exact ⟨rfl, rfl⟩
      | _ => exact ⟨rfl, rfl⟩
    rw [next]
    dsimp only
    split_ifs
    · exact shownLines_none hentry.1 hentry.2
    · rfl
  | edit version => cases h
  | setVersion version => cases h
  | echoInput text => cases h
  | clearOutput => cases h
  | reset => cases h
  | _ => rfl

theorem lines_next_some {s : RuntimeView.State P} {category : Category} {chunk : String}
    {sourceLocation : Option TerminalSourceLocation} :
    (shownLines (next s (.receive (.output s.version category chunk sourceLocation))).log).map
        printed =
      (category, chunk, sourceLocation) :: (shownLines s.log).map printed := by
  have htaken : taken s (.output s.version category chunk sourceLocation) = true := by
    simp [taken, ServerEvent.gate, acceptsVersion, View.outdates]
  rw [next]
  dsimp only
  rw [if_pos htaken, @shownLines_some P _ _ (category, chunk, sourceLocation) rfl rfl]
  rfl

theorem eq_of_received {action : Action P} {version : ℕ} {category : Category} {chunk : String}
    {sourceLocation : Option TerminalSourceLocation}
    (h : received action = some (version, category, chunk, sourceLocation)) :
    action = .receive (.output version category chunk sourceLocation) := by
  cases action with
  | receive event =>
    cases event with
    | output version category chunk sourceLocation =>
      cases h
      rfl
    | _ => cases h
  | _ => cases h

theorem lines_foldl {actions : List (Action P)} {s : RuntimeView.State P} {sent : List Line}
    (hkeeps : ∀ action ∈ actions, Keeps action)
    (hsent : actions.filterMap received = sent.map fun line => (s.version, line)) :
    (shownLines (actions.foldl next s).log).map printed =
      sent.reverse ++ (shownLines s.log).map printed := by
  have hstep : ∀ (t : RuntimeView.State P) (action : Action P), t.version = s.version →
      (Keeps action ∧ ∀ line ∈ received action, line.1 = s.version) →
      (next t action).version = s.version ∧ (shownLines (next t action).log).map printed =
        ((received action).map Prod.snd).toList ++ (shownLines t.log).map printed := by
    rintro t action hsame ⟨hkeep, hlines⟩
    refine ⟨(version_next hkeep).trans hsame, ?_⟩
    rcases hreceived : received action with _ | ⟨version, category, chunk, sourceLocation⟩
    · rw [lines_next_none hkeep hreceived]
      rfl
    · obtain rfl : version = t.version := (hlines _ hreceived).trans hsame.symm
      obtain rfl := eq_of_received hreceived
      exact lines_next_some
  have hnews : actions.filterMap (fun action => (received action).map Prod.snd) = sent := by
    rw [← List.map_filterMap, hsent, List.map_map]
    exact List.map_id sent
  have hlines := (@seen_foldl P _ _ _ (fun log => (shownLines log).map printed) _ hstep s rfl
    actions fun action haction => ⟨hkeeps action haction, fun line hline => by
      have hmem : line ∈ actions.filterMap received :=
        List.mem_filterMap.mpr ⟨action, haction, hline⟩
      rw [hsent] at hmem
      obtain ⟨_, -, rfl⟩ := List.mem_map.mp hmem
      rfl⟩).2
  rw [hnews] at hlines
  exact hlines

/-- What is shown after a run of which only this output was sent. -/
theorem output_sent {s : RuntimeView.State P} (hs : (RuntimeView.machine P).Reaches {} s)
    (hbegun : s.view.output = []) {actions : List (Action P)} {sent : List Line}
    (hkeeps : ∀ action ∈ actions, Keeps action)
    (hsent : actions.filterMap received = sent.map fun line => (s.version, line)) :
    (actions.foldl next s).view.output.map printed = lastOf 500 sent := by
  have hnone : shownLines s.log = [] := by
    have houtput := (shows_of_reaches hs).output
    rw [hbegun, eq_comm, List.reverse_eq_nil_iff, List.take_eq_nil_iff] at houtput
    exact houtput.resolve_left (by decide)
  have hlines := lines_foldl hkeeps hsent
  rw [hnone, List.map_nil, List.append_nil] at hlines
  rw [(shows_of_reaches (hs.trans (reaches_foldl s actions))).output, List.map_reverse,
    List.map_take, hlines, lastOf, List.rtake_eq_reverse_take_reverse]

end Client

/-! ## A Rust program -/

def toCategory : Markers.OutputCategory → Category
  | .program => .program
  | .error => .error

def toLocation (location : Markers.LogSourceLocation) : TerminalSourceLocation where
  path := location.path
  line := location.line
  column := location.column
  executionIndex := location.executionIndex
  loopPosition := location.loopInfo.map fun loop =>
    ⟨loop.line, loop.column, String.ofList loop.loopVariable, String.ofList loop.value⟩

/-- An output event as the client reads it. -/
def toLine : Markers.Shown → Line
  | (text, category, source) => (toCategory category, String.ofList text, source.map toLocation)

/-- The statement is on this line of the active file. -/
def isAt (shown : Shown) (fileIds : ℕ → Option String) (line : ℕ) (w : Markers.Write) : Bool :=
  (fileIds w.marker.fileId).getD ("src/" ++ shown.entryFile) = "src/" ++ shown.activePath &&
    w.marker.line = line

section Rust

variable {fileIds : ℕ → Option String} {shown : Shown} {line : ℕ}

theorem print_location (w : Markers.Write) (earlier : List Markers.Write) :
    shown.print line (toLine (w.text, .program, some (w.location fileIds earlier))) =
      if isAt shown fileIds line w ∧ previewOf w.text ≠ [] then
        some ⟨previewOf w.text, (w.location fileIds earlier).executionIndex, false⟩
      else none := by
  simp only [Shown.print, toLine, Option.map_some, Option.bind_some, String.toList_ofList, isAt,
    Shown.covers, toLocation, Markers.Write.location, toCategory, Bool.and_eq_true, and_assoc,
    decide_eq_true_eq]
  rfl

theorem mem_annotated {earlier writes : List Markers.Write} {x : Markers.Shown}
    (h : x ∈ Markers.annotated fileIds earlier writes) :
    ∃ before w after, writes = before ++ w :: after ∧
      x = (w.text, .program, some (w.location fileIds (earlier ++ before))) := by
  induction writes generalizing earlier with
  | nil => cases h
  | cons w writes ih =>
    rw [Markers.annotated, List.mem_append] at h
    rcases h with h | h
    · rw [Markers.annotation] at h
      split_ifs at h
      · cases h
      · exact ⟨[], w, writes, rfl, by rw [List.append_nil]; exact List.mem_singleton.mp h⟩
    · obtain ⟨before, w', after, rfl, rfl⟩ := ih h
      exact ⟨w :: before, w', after, rfl, by rw [List.append_assoc]; rfl⟩

theorem length_annotated_le (earlier writes : List Markers.Write) :
    (Markers.annotated fileIds earlier writes).length ≤ writes.length := by
  induction writes generalizing earlier with
  | nil => exact Nat.le_refl 0
  | cons w writes ih =>
    have hrest := ih (earlier ++ [w])
    rw [Markers.annotated, Markers.annotation, List.length_append, List.length_cons]
    split_ifs
    · rw [List.length_nil]
      omega
    · rw [List.length_singleton]
      omega

theorem foldl_max_le {l : List ℕ} {bound start : ℕ} (hstart : start ≤ bound)
    (h : ∀ n ∈ l, n ≤ bound) : l.foldl max start ≤ bound := by
  induction l generalizing start with
  | nil => exact hstart
  | cons n l ih =>
    obtain ⟨hn, hl⟩ := List.forall_mem_cons.mp h
    exact ih (Nat.max_le.mpr ⟨hstart, hn⟩) hl

theorem lastOf_append_cons {α : Type} {n : ℕ} {before after : List α} {a : α}
    (h : after.length < n) :
    ∃ kept, kept <:+ before ∧ lastOf n (before ++ a :: after) = kept ++ a :: after := by
  refine ⟨before.drop ((before ++ a :: after).length - n), List.drop_suffix _ _, ?_⟩
  rw [lastOf, List.rtake, List.drop_append_of_le_length]
  rw [List.length_append, List.length_cons]
  omega

/-- Where all that was printed at a line came from one statement. -/
theorem executionIndex_le {writes : List Markers.Write} {site : Option String × ℕ × ℕ}
    (hsite : ∀ w ∈ writes, isAt shown fileIds line w → w.site fileIds = site) {p : Print}
    (hp : p ∈ ((Markers.annotated fileIds [] writes).map toLine).filterMap (shown.print line)) :
    p.executionIndex ≤ writes.countP fun w => w.site fileIds = site := by
  obtain ⟨x, hx, hprint⟩ := List.mem_filterMap.mp hp
  obtain ⟨y, hy, rfl⟩ := List.mem_map.mp hx
  obtain ⟨before, w, after, rfl, rfl⟩ := mem_annotated hy
  rw [print_location] at hprint
  split_ifs at hprint with hat
  cases hprint
  have hw := hsite w (by simp) hat.1
  simp only [Markers.Write.location, hw, List.nil_append, List.countP_append, List.countP_cons,
    decide_true, if_true]
  omega

theorem count_logOf {prints : List Print} {last : Print}
    (h : ∀ p ∈ prints, p.executionIndex ≤ last.executionIndex) :
    ∃ log, logOf line (prints ++ [last]) = some log ∧ log.text = last.text ∧
      log.count = last.executionIndex := by
  refine ⟨_, by rw [logOf, List.getLast?_concat, Option.map_some], rfl, ?_⟩
  have hbound : ∀ n ∈ prints.map Print.executionIndex, n ≤ last.executionIndex := fun n hn => by
    obtain ⟨p, hp, rfl⟩ := List.mem_map.mp hn
    exact h p hp
  dsimp only
  rw [List.map_append, List.foldl_append]
  exact Nat.max_eq_right (foldl_max_le (Nat.zero_le _) hbound)

theorem isAt_of_site {w w' : Markers.Write} (h : w.site fileIds = w'.site fileIds) :
    isAt shown fileIds line w = isAt shown fileIds line w' := by
  obtain ⟨hpath, hline, -⟩ : fileIds w.marker.fileId = fileIds w'.marker.fileId ∧
      w.marker.line = w'.marker.line ∧ w.marker.column = w'.marker.column := by
    simpa only [Markers.Write.site, Prod.mk.injEq] using h
  rw [isAt, isAt, hpath, hline]

/-- Nothing of statements elsewhere is at the line. -/
theorem prints_eq_nil {earlier writes : List Markers.Write}
    (h : ∀ w ∈ writes, isAt shown fileIds line w = false) :
    ((Markers.annotated fileIds earlier writes).map toLine).filterMap (shown.print line) = [] := by
  rw [List.filterMap_eq_nil_iff]
  intro x hx
  obtain ⟨y, hy, rfl⟩ := List.mem_map.mp hx
  obtain ⟨before, w, after, rfl, rfl⟩ := mem_annotated hy
  rw [print_location, if_neg]
  rw [h w (by simp)]
  exact fun hat => Bool.false_ne_true hat.1

/-- The last that a statement printed, while the output still has it. -/
theorem logOf_last {before after : List Markers.Write} {w : Markers.Write}
    (hat : isAt shown fileIds line w) (hblank : previewOf w.text ≠ [])
    (hafter : ∀ w' ∈ after, isAt shown fileIds line w' = false) (hlength : after.length < 500)
    (hsite : ∀ w' ∈ before, isAt shown fileIds line w' → w'.site fileIds = w.site fileIds) :
    ∃ log, logOf line ((lastOf 500 ((Markers.annotated fileIds [] (before ++ w :: after)).map
        toLine)).filterMap (shown.print line)) = some log ∧ log.text = previewOf w.text ∧
      log.count = before.countP (isAt shown fileIds line) + 1 := by
  have htext : w.text ≠ [] := by
    intro hnil
    rw [hnil] at hblank
    exact hblank rfl
  have hfew : ((Markers.annotated fileIds (before ++ [w]) after).map toLine).length < 500 := by
    rw [List.length_map]
    exact Nat.lt_of_le_of_lt (length_annotated_le _ _) hlength
  obtain ⟨kept, hkept, hlast⟩ := @lastOf_append_cons _ 500
    ((Markers.annotated fileIds [] before).map toLine) _
    (toLine (w.text, .program, some (w.location fileIds before))) hfew
  have hprint : shown.print line (toLine (w.text, .program, some (w.location fileIds before))) =
      some ⟨previewOf w.text, (w.location fileIds before).executionIndex, false⟩ := by
    rw [print_location, if_pos ⟨hat, hblank⟩]
  have hcount : before.countP (isAt shown fileIds line) =
      before.countP fun w' => w'.site fileIds = w.site fileIds := by
    refine List.countP_congr fun w' hw' => ?_
    rw [decide_eq_true_eq]
    exact ⟨hsite w' hw', fun heq => (isAt_of_site heq).trans hat⟩
  rw [Markers.annotated_append, Markers.annotated, Markers.annotation, if_neg htext,
    List.nil_append, List.singleton_append, List.map_append, List.map_cons, hlast,
    List.filterMap_append, List.filterMap_cons_some hprint,
    prints_eq_nil hafter, hcount]
  refine count_logOf fun p hp => ?_
  have hmem : p ∈ ((Markers.annotated fileIds [] before).map toLine).filterMap
      (shown.print line) := (hkept.filterMap _).subset hp
  exact Nat.le_succ_of_le (executionIndex_le hsite hmem)

end Rust

/-- What is beside a line after these statements. -/
structure Beside (shown : Shown) (fileIds : ℕ → Option String) (line : ℕ)
    (writes : List Markers.Write) (log : Option InlineLog) : Prop where
  window : log = logOf line ((lastOf 500 ((Markers.annotated fileIds [] writes).map
    toLine)).filterMap (shown.print line))
  counted : ∀ before w after, writes = before ++ w :: after → isAt shown fileIds line w →
    previewOf w.text ≠ [] → (∀ w' ∈ after, isAt shown fileIds line w' = false) →
    after.length < 500 →
    (∀ w' ∈ before, isAt shown fileIds line w' → w'.site fileIds = w.site fileIds) →
      ∃ shownLog, log = some shownLog ∧ shownLog.text = previewOf w.text ∧
        shownLog.count = before.countP (isAt shown fileIds line) + 1

/-- What the server makes of the bytes of a program's output. -/
def served (fileIds : ℕ → Option String) (chunks : List (List UInt8)) : List Markers.Shown :=
  Markers.shown (((RustLogs.texts {} chunks).foldl Markers.Parser.push
    (Markers.Parser.new .stdout false fileIds)).flush).log

def quickFiles : ℕ → Option String := fun _ => some "src/main.rs"

def quickCall (text preview : String) : RustLogs.LogCall where
  text := text.toList
  fileId := 1
  line := 2
  column := 3
  capture := some ⟨1, 1, ['i'], preview.toList⟩

def quickCalls : List RustLogs.LogCall := [quickCall "a\n" "0", quickCall "b\n" "1\n"]

def quickChunks : List (List UInt8) :=
  (Utf8.encode (quickCalls.flatMap RustLogs.LogCall.chars)).map fun b => [b]

def send (line : Line) : Action quickPayloads := .receive (.output 1 line.1 line.2.1 line.2.2)

def quickLogs : List (Action quickPayloads) :=
  ((served quickFiles quickChunks).map toLine).map send

theorem plain_quickCalls : ∀ call ∈ quickCalls, call.Plain := by
  intro call hcall
  have hname : ∀ c ∈ ['i'], Markers.nameChar c = true := List.forall_mem_singleton.mpr rfl
  rcases List.mem_pair.mp hcall with rfl | rfl
  · exact ⟨by decide, by decide, by rintro _ ⟨⟩; rfl, by rintro _ ⟨⟩; exact hname⟩
  · exact ⟨by decide, by decide, by rintro _ ⟨⟩; rfl, by rintro _ ⟨⟩; exact hname⟩

theorem received_send (sent : List Line) :
    (sent.map send).filterMap received = sent.map fun line => (1, line) := by
  rw [List.filterMap_map]
  exact congrFun (List.filterMap_eq_map (f := fun line : Line => (1, line))) sent

theorem keeps_send {sent : List Line} : ∀ action ∈ sent.map send, Keeps action := by
  intro action haction
  obtain ⟨line, -, rfl⟩ := List.mem_map.mp haction
  trivial

theorem flatten_quickChunks :
    quickChunks.flatten = Utf8.encode (quickCalls.flatMap RustLogs.LogCall.chars) := by
  rw [quickChunks, ← List.flatMap_def, List.flatMap_singleton']

end Atomis.InlineLogs
