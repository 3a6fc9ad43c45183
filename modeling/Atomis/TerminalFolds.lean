import Atomis.ClangInstrument
import Atomis.Lib.Decimal
import Mathlib.Data.List.Induction
import Mathlib.Data.List.Nodup
import Mathlib.Data.List.Pairwise
import Mathlib.Data.List.TakeWhile

/-!
# Folds of the terminal's output

Runs of lines from one source statement and the trace behind a panic line are folded, every other
entry stays a line. One turn of the loop pushes a line, a fold, or a line and the fold behind it.
-/

namespace Atomis.TerminalFolds

/-! ## Entries and rows -/

structure LoopPosition where
  line : ℕ
  column : ℕ
  loopVariable : String
  value : String
deriving DecidableEq

structure TerminalSourceLocation where
  path : Option String
  line : ℕ
  column : ℕ
  executionIndex : ℕ
  loopPosition : Option LoopPosition
deriving DecidableEq

inductive Category
  | program
  | error
  | input
deriving DecidableEq

structure TerminalEntry where
  category : Category
  chunk : String
  seq : Option ℕ
  sourceLocation : Option TerminalSourceLocation
deriving DecidableEq

inductive TerminalRow
  | line (entry : TerminalEntry) (index : ℕ)
  | fold (key label : String) (entries : List (TerminalEntry × ℕ))
deriving DecidableEq

def TerminalRow.entries : TerminalRow → List (TerminalEntry × ℕ)
  | .line entry index => [(entry, index)]
  | .fold _ _ entries => entries

/-! ## Grouping -/

def loopFoldMin : ℕ := 4

def stackFoldMin : ℕ := 3

def sourceKey (entry : TerminalEntry) : Option String :=
  entry.sourceLocation.map fun location =>
    location.path.getD "src/main.zig" ++ ":" ++ toString location.line ++ ":" ++
      toString location.column

/-- `/(?:^|\s)panic:/i`, behind `previous`. -/
def panicAfter (previous : Option Char) : List Char → Bool
  | [] => false
  | c :: text =>
    (previous.all ClangInstrument.isSpace &&
      "panic:".toList.isPrefixOf ((c :: text).map Char.toLower)) || panicAfter (some c) text

def isPanicLine (entry : TerminalEntry) : Bool :=
  entry.category = .error && panicAfter none entry.chunk.toList

def isTraceLine (entry : TerminalEntry) : Bool :=
  entry.category = .error && !panicAfter none entry.chunk.toList

def loopKey (key : String) (seq : ℕ) : String := "loop:" ++ key ++ ":" ++ toString seq

def stackKey (seq : ℕ) : String := "stack:" ++ toString seq

def loopLabel (key : String) (entry : TerminalEntry) : String :=
  "trace · " ++ key ++
    ((entry.sourceLocation.bind (·.loopPosition)).elim "" fun loop => " · loop " ++ loop.loopVariable)

def isFrom (source : String) (candidate : TerminalEntry) : Bool := sourceKey candidate = some source

/-- The entries from here on that come from the same statement as the first. -/
def loopRun (loops : Bool) : List TerminalEntry → List TerminalEntry
  | [] => []
  | entry :: rest =>
    match if loops then sourceKey entry else none with
    | none => []
    | some key => (entry :: rest).takeWhile (isFrom key)

def stackFold (index : ℕ) (trace : List TerminalEntry) : TerminalRow :=
  .fold (stackKey ((trace.head?.bind (·.seq)).getD index)) "panic trace" (trace.zipIdx index)

/-- What one turn pushes, and by how much it moves the index. -/
def turn (loops : Bool) (index : ℕ) (entry : TerminalEntry) (rest : List TerminalEntry) :
    List TerminalRow × ℕ :=
  let run := loopRun loops (entry :: rest)
  if loopFoldMin ≤ run.length then
    let key := (sourceKey entry).getD ""
    ([.fold (loopKey key (entry.seq.getD index)) (loopLabel key entry) (run.zipIdx index)],
      run.length)
  else if isPanicLine entry then
    let trace := rest.takeWhile isTraceLine
    if stackFoldMin ≤ trace.length then
      ([.line entry index, stackFold (index + 1) trace], trace.length + 1)
    else ([.line entry index], 1)
  else ([.line entry index], 1)

theorem turn_pos (loops : Bool) (index : ℕ) (entry : TerminalEntry) (rest : List TerminalEntry) :
    0 < (turn loops index entry rest).2 := by
  simp only [turn, loopFoldMin]
  split_ifs <;> simp
  omega

def groupFrom (loops : Bool) (index : ℕ) : List TerminalEntry → List TerminalRow
  | [] => []
  | entry :: rest =>
    (turn loops index entry rest).1 ++ groupFrom loops (index + (turn loops index entry rest).2)
      ((entry :: rest).drop (turn loops index entry rest).2)
termination_by entries => entries.length
decreasing_by
  have := turn_pos loops index entry rest
  simp only [List.length_drop, List.length_cons]
  omega

def groupOutput (entries : List TerminalEntry) (loops : Bool) : List TerminalRow :=
  groupFrom loops 0 entries

/-! ## One turn -/

variable {loops : Bool} {entry : TerminalEntry} {entries rest run front : List TerminalEntry}
variable {rows : List TerminalRow} {row : TerminalRow} {index start : ℕ} {key label : String}

/-- What is folded for its statement's sake. -/
structure IsLoopRun (source : String) (run rest : List TerminalEntry) : Prop where
  long : loopFoldMin ≤ run.length
  oneSource : ∀ e ∈ run, sourceKey e = some source
  ended : ∀ e ∈ rest.head?, sourceKey e ≠ some source

/-- What is folded behind a panic line. -/
structure IsTrace (trace rest : List TerminalEntry) : Prop where
  long : stackFoldMin ≤ trace.length
  errors : ∀ e ∈ trace, isTraceLine e = true
  ended : ∀ e ∈ rest.head?, isTraceLine e = false

inductive Turn (loops : Bool) (index : ℕ) : List TerminalEntry → List TerminalRow → ℕ → Prop
  | loopFold {source : String} {run rest : List TerminalEntry} {seq : ℕ} {label : String} :
      loops = true → IsLoopRun source run rest →
      seq = (run.head?.bind (·.seq)).getD index →
      Turn loops index (run ++ rest) [.fold (loopKey source seq) label (run.zipIdx index)] run.length
  | trace {entry : TerminalEntry} {trace rest : List TerminalEntry} :
      (loopRun loops (entry :: (trace ++ rest))).length < loopFoldMin →
      isPanicLine entry = true → IsTrace trace rest →
      Turn loops index (entry :: (trace ++ rest)) [.line entry index, stackFold (index + 1) trace]
        (trace.length + 1)
  | line {entry : TerminalEntry} {rest : List TerminalEntry} :
      (loopRun loops (entry :: rest)).length < loopFoldMin →
      (isPanicLine entry = true → (rest.takeWhile isTraceLine).length < stackFoldMin) →
      Turn loops index (entry :: rest) [.line entry index] 1

theorem isFrom_iff {source : String} : isFrom source entry = true ↔ sourceKey entry = some source :=
  decide_eq_true_iff

theorem loopRun_of_sourceKey {source : String} (h : sourceKey entry = some source) :
    loopRun true (entry :: rest) = (entry :: rest).takeWhile (isFrom source) := by
  simp only [loopRun, if_true, h]

theorem not_of_head?_dropWhile {p : TerminalEntry → Bool} {e : TerminalEntry}
    (h : e ∈ (rest.dropWhile p).head?) : p e = false := by
  have hhead := List.head?_dropWhile_not p rest
  rw [Option.mem_def.mp h] at hhead
  exact hhead

theorem isLoopRun_loopRun (h : loopFoldMin ≤ (loopRun loops (entry :: rest)).length) :
    ∃ source, sourceKey entry = some source ∧ loops = true ∧ ∃ back,
      entry :: rest = loopRun loops (entry :: rest) ++ back ∧
        IsLoopRun source (loopRun loops (entry :: rest)) back := by
  cases loops with
  | false => exact absurd h (Nat.not_succ_le_zero _)
  | true =>
    cases hkey : sourceKey entry with
    | none =>
      simp only [loopRun, if_true, hkey] at h
      exact absurd h (by decide)
    | some source =>
      rw [loopRun_of_sourceKey hkey] at h ⊢
      refine ⟨source, rfl, rfl, _, List.takeWhile_append_dropWhile.symm, h, fun e he => ?_,
        fun e he => ?_⟩
      · exact isFrom_iff.mp (List.mem_takeWhile_imp he)
      · exact of_decide_eq_false (not_of_head?_dropWhile he)

theorem turn_spec (loops : Bool) (index : ℕ) (entry : TerminalEntry) (rest : List TerminalEntry) :
    Turn loops index (entry :: rest) (turn loops index entry rest).1
      (turn loops index entry rest).2 := by
  simp only [turn]
  split_ifs with hrun hpanic htrace
  · obtain ⟨source, hsource, hloops, back, hsplit, hfold⟩ := isLoopRun_loopRun hrun
    generalize loopRun loops (entry :: rest) = run at *
    have hseq : entry.seq.getD index = (run.head?.bind (·.seq)).getD index := by
      cases run with
      | nil => exact absurd hfold.long (by decide)
      | cons first run =>
        obtain ⟨rfl, -⟩ := List.cons.inj hsplit
        rfl
    rw [hsource, hsplit]
    exact .loopFold hloops hfold hseq
  · have hsplit := List.takeWhile_append_dropWhile (p := isTraceLine) (l := rest)
    have htake := @Turn.trace loops index entry (rest.takeWhile isTraceLine)
      (rest.dropWhile isTraceLine)
    rw [hsplit] at htake
    exact htake (Nat.lt_of_not_le hrun) hpanic
      ⟨htrace, fun e he => List.mem_takeWhile_imp he, fun e he => not_of_head?_dropWhile he⟩
  · exact .line (Nat.lt_of_not_le hrun) fun _ => Nat.lt_of_not_le htrace
  · exact .line (Nat.lt_of_not_le hrun) fun h => absurd h hpanic

theorem Turn.length_le {n : ℕ} (h : Turn loops index entries rows n) : n ≤ entries.length := by
  cases h with
  | loopFold => simp
  | trace => simp
  | line => simp

theorem Turn.flatMap_entries {n : ℕ} (h : Turn loops index entries rows n) :
    rows.flatMap TerminalRow.entries = (entries.take n).zipIdx index := by
  cases h with
  | loopFold => simp [TerminalRow.entries]
  | trace => simp [TerminalRow.entries, stackFold, List.zipIdx_cons]
  | line => simp [TerminalRow.entries]

/-! ## The whole list -/

theorem zipIdx_split {n : ℕ} (h : n ≤ entries.length) :
    (entries.take n).zipIdx index ++ (entries.drop n).zipIdx (index + n) = entries.zipIdx index := by
  conv_rhs => rw [← List.take_append_drop n entries, List.zipIdx_append, List.length_take_of_le h]

theorem groupFrom_entries (loops : Bool) (index : ℕ) (entries : List TerminalEntry) :
    (groupFrom loops index entries).flatMap TerminalRow.entries = entries.zipIdx index := by
  induction index, entries using groupFrom.induct loops with
  | case1 index => rw [groupFrom]; rfl
  | case2 index entry rest ih =>
    have hturn := turn_spec loops index entry rest
    rw [groupFrom, List.flatMap_append, ih, hturn.flatMap_entries, zipIdx_split hturn.length_le]

/-- The positions at which a turn begins. -/
inductive Stands (loops : Bool) (entries : List TerminalEntry) : ℕ → Prop
  | start : Stands loops entries 0
  | next {front rest : List TerminalEntry} {entry : TerminalEntry} :
      entries = front ++ entry :: rest → Stands loops entries front.length →
      Stands loops entries (front.length + (turn loops front.length entry rest).2)

theorem exists_split (loops : Bool) (hsplit : entries = front ++ entry :: rest) :
    ∃ done, entries = done ++ (entry :: rest).drop (turn loops front.length entry rest).2 ∧
      done.length = front.length + (turn loops front.length entry rest).2 := by
  have hturn := turn_spec loops front.length entry rest
  refine ⟨front ++ (entry :: rest).take (turn loops front.length entry rest).2, ?_, ?_⟩
  · rw [List.append_assoc, List.take_append_drop, hsplit]
  · rw [List.length_append, List.length_take_of_le hturn.length_le]

/-- Every row is pushed in a turn that begins at such a position. -/
theorem mem_groupFrom (hsplit : entries = front ++ rest) (h : Stands loops entries front.length)
    (hrow : row ∈ groupFrom loops front.length rest) :
    ∃ done entry later, entries = done ++ entry :: later ∧ Stands loops entries done.length ∧
      row ∈ (turn loops done.length entry later).1 := by
  generalize hindex : front.length = index at hrow
  induction index, rest using groupFrom.induct loops generalizing front with
  | case1 index =>
    rw [groupFrom] at hrow
    cases hrow
  | case2 index entry later ih =>
    subst hindex
    rw [groupFrom] at hrow
    rcases List.mem_append.mp hrow with hrow | hrow
    · exact ⟨front, entry, later, hsplit, h, hrow⟩
    · obtain ⟨done, hdone, hlength⟩ := exists_split loops hsplit
      exact ih hdone (hlength ▸ h.next hsplit) hlength hrow

theorem mem_groupOutput (hrow : row ∈ groupOutput entries loops) :
    ∃ front entry rest, entries = front ++ entry :: rest ∧ Stands loops entries front.length ∧
      row ∈ (turn loops front.length entry rest).1 :=
  mem_groupFrom (List.nil_append entries).symm .start hrow

/-- What a turn that begins at such a position pushes is shown. -/
theorem Stands.subset (h : Stands loops entries index) :
    groupFrom loops index (entries.drop index) ⊆ groupOutput entries loops := by
  induction h with
  | start => exact List.Subset.refl _
  | @next front rest entry hsplit hstands ih =>
    subst hsplit
    rw [List.drop_left, groupFrom] at ih
    rw [← List.drop_drop, List.drop_left]
    exact fun row hrow => ih (List.mem_append_right _ hrow)

theorem Stands.turn_subset (hsplit : entries = front ++ entry :: rest)
    (h : Stands loops entries front.length) :
    (turn loops front.length entry rest).1 ⊆ groupOutput entries loops := by
  have hsubset := h.subset
  rw [hsplit, List.drop_left, groupFrom, ← hsplit] at hsubset
  exact fun row hrow => hsubset (List.mem_append_left _ hrow)

/-! ## What a fold holds -/

/-- A maximal run from one statement, but for entries in front that a panic's trace holds. -/
def LoopTrace (entries : List TerminalEntry) (rows : List TerminalRow) (key : String)
    (members : List (TerminalEntry × ℕ)) : Prop :=
  ∃ source front run back, entries = front ++ run ++ back ∧ IsLoopRun source run back ∧
    members = run.zipIdx front.length ∧
    key = loopKey source ((run.head?.bind (·.seq)).getD front.length) ∧
    ∀ e ∈ front.getLast?, sourceKey e = some source →
      ∃ index trace, stackFold index trace ∈ rows ∧ e ∈ trace ∧
        front.length = index + trace.length

/-- The whole trace behind a panic line. -/
def PanicTrace (entries : List TerminalEntry) (rows : List TerminalRow) (key : String)
    (members : List (TerminalEntry × ℕ)) : Prop :=
  ∃ front entry trace back, entries = front ++ entry :: (trace ++ back) ∧
    isPanicLine entry = true ∧ .line entry front.length ∈ rows ∧ IsTrace trace back ∧
    members = trace.zipIdx (front.length + 1) ∧
    key = stackKey ((trace.head?.bind (·.seq)).getD (front.length + 1))

/-- In front of a run that a turn comes to is another statement's entry or the end of a trace. -/
theorem Turn.before_run {list : List TerminalEntry} {n : ℕ} {source : String} (hloops : loops = true)
    (hturn : Turn loops index list rows n) (hrun : IsLoopRun source run rest)
    (hafter : list.drop n = run ++ rest) :
    ∀ e ∈ (list.take n).getLast?, sourceKey e = some source →
      ∃ start trace, stackFold start trace ∈ rows ∧ e ∈ trace ∧
        index + n = start + trace.length := by
  intro e he hsource
  obtain ⟨first, others, rfl⟩ : ∃ first others, run = first :: others :=
    List.exists_cons_of_ne_nil fun hnil => absurd hrun.long (by rw [hnil]; decide)
  have hfirst := hrun.oneSource first List.mem_cons_self
  cases hturn with
  | @loopFold source' run' rest' seq label _ hrun' _ =>
    rw [List.drop_left] at hafter
    rw [List.take_left] at he
    have hother := hrun'.ended first (by rw [hafter]; rfl)
    have hsame := hrun'.oneSource e (List.mem_of_getLast? he)
    rw [hfirst, ← hsource, hsame] at hother
    exact absurd rfl hother
  | @trace entry trace rest' _ _ htrace =>
    refine ⟨index + 1, trace, List.mem_cons_of_mem _ List.mem_cons_self, ?_, by omega⟩
    rw [List.take_succ_cons, List.take_left] at he
    cases trace using List.reverseRecOn with
    | nil => exact absurd htrace.long (by decide)
    | append_singleton trace last =>
      rw [← List.cons_append, List.getLast?_concat] at he
      rw [← Option.some.inj he]
      exact List.mem_append_right _ List.mem_cons_self
  | @line entry rest' hshort _ =>
    rw [List.take_succ_cons, List.take_zero] at he
    rw [List.drop_succ_cons, List.drop_zero] at hafter
    obtain rfl : entry = e := Option.some.inj he
    have htake : rest'.takeWhile (isFrom source) =
        (first :: others) ++ rest.takeWhile (isFrom source) := by
      rw [hafter]
      exact List.takeWhile_append_of_pos fun a ha => isFrom_iff.mpr (hrun.oneSource a ha)
    rw [hloops, loopRun_of_sourceKey hsource, List.takeWhile_cons_of_pos (isFrom_iff.mpr hsource),
      htake, List.length_cons, List.length_append] at hshort
    have := hrun.long
    omega

theorem Stands.before_run {source : String} (hloops : loops = true)
    (hrun : IsLoopRun source run rest) (hsplit : entries = front ++ (run ++ rest))
    (h : Stands loops entries front.length) :
    ∀ e ∈ front.getLast?, sourceKey e = some source →
      ∃ index trace, stackFold index trace ∈ groupOutput entries loops ∧ e ∈ trace ∧
        front.length = index + trace.length := by
  generalize hindex : front.length = index at h
  cases h with
  | start =>
    intro e he
    rw [List.length_eq_zero_iff.mp hindex] at he
    cases he
  | @next front' rest' entry hsplit' hstands =>
    have hturn := turn_spec loops front'.length entry rest'
    have hsubset := hstands.turn_subset hsplit'
    have hpos := turn_pos loops front'.length entry rest'
    generalize turn loops front'.length entry rest' = pushed at *
    obtain ⟨rows, n⟩ := pushed
    have hwhole : front ++ (run ++ rest) =
        (front' ++ (entry :: rest').take n) ++ (entry :: rest').drop n := by
      rw [List.append_assoc, List.take_append_drop, ← hsplit, hsplit']
    obtain ⟨hfront, hafter⟩ := List.append_inj hwhole (by
      rw [hindex, List.length_append, List.length_take_of_le hturn.length_le])
    intro e he hsource
    have hlast : e ∈ ((entry :: rest').take n).getLast? := by
      rwa [hfront, List.getLast?_append_of_ne_nil] at he
      exact List.ne_nil_of_length_pos (by rw [List.length_take_of_le hturn.length_le]; exact hpos)
    obtain ⟨start, trace, hmem, htrace, hlength⟩ :=
      hturn.before_run hloops hrun hafter.symm e hlast hsource
    exact ⟨start, trace, hsubset hmem, htrace, hlength⟩

theorem fold_spec {members : List (TerminalEntry × ℕ)}
    (h : .fold key label members ∈ groupOutput entries loops) :
    LoopTrace entries (groupOutput entries loops) key members ∨
      PanicTrace entries (groupOutput entries loops) key members := by
  obtain ⟨front, entry, rest, hsplit, hstands, hrow⟩ := mem_groupOutput h
  have hsubset := hstands.turn_subset hsplit
  have hturn := turn_spec loops front.length entry rest
  generalize turn loops front.length entry rest = pushed at *
  obtain ⟨rows, n⟩ := pushed
  generalize entry :: rest = list at *
  cases hturn with
  | @loopFold source run rest seq label' hloops hrun hseq =>
    obtain ⟨rfl, rfl, rfl⟩ := TerminalRow.fold.inj (List.mem_singleton.mp hrow)
    refine Or.inl ⟨source, front, run, rest, by rw [hsplit, List.append_assoc], hrun, rfl, ?_, ?_⟩
    · rw [hseq]
    · exact hstands.before_run hloops hrun hsplit
  | @trace entry trace rest _ hpanic htrace =>
    rcases List.mem_cons.mp hrow with hline | hfold
    · cases hline
    · obtain ⟨rfl, rfl, rfl⟩ := TerminalRow.fold.inj (List.mem_singleton.mp hfold)
      exact Or.inr ⟨front, entry, trace, rest, hsplit, hpanic, hsubset List.mem_cons_self, htrace,
        rfl, rfl⟩
  | line => cases List.mem_singleton.mp hrow

/-- Every entry is shown once and in order, and every fold holds what it is for. -/
theorem groupOutput_partitions (entries : List TerminalEntry) (loops : Bool) :
    (groupOutput entries loops).flatMap TerminalRow.entries = entries.zipIdx ∧
      ∀ key label members, .fold key label members ∈ groupOutput entries loops →
        LoopTrace entries (groupOutput entries loops) key members ∨
          PanicTrace entries (groupOutput entries loops) key members :=
  ⟨groupFrom_entries loops 0 entries, fun _ _ _ => fold_spec⟩

def printed (category : Category) (chunk : String) (seq : ℕ) : TerminalEntry where
  category := category
  chunk := chunk
  seq := some seq
  sourceLocation := some ⟨some "src/main.zig", 4, 9, 1, none⟩

def traceThenLoop : List TerminalEntry :=
  { printed .error "panic: boom" 1 with sourceLocation := none } ::
    [2, 3, 4].map (printed .error "frame") ++ [5, 6, 7, 8].map (printed .program "step")

/-- A panic's trace ends in entries of the statement whose loop is folded behind it. -/
theorem loopFold_behind_trace :
    .fold "loop:src/main.zig:4:9:5" "trace · src/main.zig:4:9"
        (([5, 6, 7, 8].map (printed .program "step")).zipIdx 4) ∈ groupOutput traceThenLoop true ∧
      ∃ front, traceThenLoop = front ++ [5, 6, 7, 8].map (printed .program "step") ∧
        ∀ e ∈ front.getLast?, sourceKey e = some "src/main.zig:4:9" := by
  refine ⟨by decide +kernel, traceThenLoop.take 4, by decide +kernel, by decide +kernel⟩

/-! ## Keys -/

/-- Every entry has a number, greater than those before it. -/
def Numbered (entries : List TerminalEntry) : Prop :=
  ∃ seqs : List ℕ, entries.map (·.seq) = seqs.map some ∧ seqs.Pairwise (· < ·)

def TerminalRow.foldKey : TerminalRow → Option String
  | .line _ _ => none
  | .fold key _ _ => some key

def foldKeys (rows : List TerminalRow) : List String := rows.filterMap TerminalRow.foldKey

/-- `run` is shown as a fold at `start`. -/
def Shown (entries : List TerminalEntry) (loops : Bool) (start : ℕ) (run : List TerminalEntry)
    (key : String) : Prop :=
  ∃ label, .fold key label (run.zipIdx start) ∈ groupOutput entries loops

def ShownAsLoop (entries : List TerminalEntry) (loops : Bool) (start : ℕ)
    (run : List TerminalEntry) (key : String) : Prop :=
  Shown entries loops start run key ∧ ∃ source seq, key = loopKey source seq

/-- The entries from `start` are the trace of a panic line that stands alone in front of them. -/
def TakenForTrace (loops : Bool) (entries : List TerminalEntry) (start : ℕ) : Prop :=
  ∃ front entry rest, entries = front ++ entry :: rest ∧ start = front.length + 1 ∧
    Stands loops entries front.length ∧ isPanicLine entry = true ∧
    stackFoldMin ≤ (rest.takeWhile isTraceLine).length

theorem loopKey_injective {source source' : String} {seq seq' : ℕ}
    (h : loopKey source seq = loopKey source' seq') : seq = seq' := by
  have h := congrArg String.toList h
  simp only [loopKey, String.toList_append] at h
  have hcolon : (":" : String).toList = [':'] := rfl
  rw [hcolon, List.append_assoc _ [':'], List.append_assoc _ [':'], List.singleton_append,
    List.singleton_append] at h
  exact (Decimal.colon_toString_inj h).2

theorem stackKey_injective {seq seq' : ℕ} (h : stackKey seq = stackKey seq') : seq = seq' := by
  have h := congrArg String.toList h
  simp only [stackKey, String.toList_append] at h
  exact Decimal.toString_injective (List.append_cancel_left h)

theorem loopKey_ne_stackKey {source : String} {seq seq' : ℕ} :
    loopKey source seq ≠ stackKey seq' := by
  intro h
  have h := congrArg String.toList h
  simp only [loopKey, stackKey, String.toList_append, List.append_assoc] at h
  have hloop : ("loop:" : String).toList = 'l' :: "oop:".toList := rfl
  have hstack : ("stack:" : String).toList = 's' :: "tack:".toList := rfl
  rw [hloop, hstack] at h
  exact absurd (List.cons.inj h).1 (by decide)

theorem zipIdx_inj {run' : List TerminalEntry} {start' : ℕ} (hne : run ≠ [])
    (h : run.zipIdx start = run'.zipIdx start') : run = run' ∧ start = start' := by
  have hruns := congrArg (List.map Prod.fst) h
  rw [List.zipIdx_map_fst, List.zipIdx_map_fst] at hruns
  obtain ⟨first, others, rfl⟩ := List.exists_cons_of_ne_nil hne
  rw [← hruns, List.zipIdx_cons, List.zipIdx_cons] at h
  exact ⟨hruns, (Prod.mk.inj (List.cons.inj h).1).2⟩

theorem Numbered.seq_of_mem (h : Numbered entries) (hmem : entry ∈ entries) :
    ∃ n, entry.seq = some n := by
  obtain ⟨seqs, hseqs, -⟩ := h
  have hseq : entry.seq ∈ seqs.map some := hseqs ▸ List.mem_map_of_mem hmem
  obtain ⟨n, -, hn⟩ := List.mem_map.mp hseq
  exact ⟨n, hn.symm⟩

theorem Numbered.drop (h : Numbered entries) (k : ℕ) : Numbered (entries.drop k) := by
  obtain ⟨seqs, hseqs, hlt⟩ := h
  exact ⟨seqs.drop k, by rw [List.map_drop, hseqs, List.map_drop], hlt.drop⟩

theorem Numbered.nodup (h : Numbered entries) : (entries.map (·.seq)).Nodup := by
  obtain ⟨seqs, hseqs, hlt⟩ := h
  rw [hseqs]
  exact (hlt.imp fun hab => Nat.ne_of_lt hab).map some fun a b hab h => hab (Option.some.inj h)

/-- A fold is keyed by the number of its first entry. -/
theorem Numbered.fold_key (hnumbered : Numbered entries) {members : List (TerminalEntry × ℕ)}
    (h : .fold key label members ∈ groupOutput entries loops) :
    ∃ first others n, members.map Prod.fst = first :: others ∧
      (first :: others).Sublist entries ∧ first.seq = some n ∧
      ((∃ source, sourceKey first = some source ∧ key = loopKey source n) ∨ key = stackKey n) := by
  rcases fold_spec h with ⟨source, front, run, back, hsplit, hrun, rfl, rfl, -⟩ |
    ⟨front, entry, trace, back, hsplit, -, -, htrace, rfl, rfl⟩
  · obtain ⟨first, others, rfl⟩ := List.exists_cons_of_ne_nil
      fun hnil : run = [] => absurd hrun.long (by rw [hnil]; decide)
    have hsub : (first :: others).Sublist entries := by
      rw [hsplit]
      exact (List.sublist_append_right _ _).trans (List.sublist_append_left _ _)
    obtain ⟨n, hn⟩ := hnumbered.seq_of_mem (hsub.subset List.mem_cons_self)
    refine ⟨first, others, n, List.zipIdx_map_fst _ _, hsub, hn, Or.inl ⟨source, ?_, ?_⟩⟩
    · exact hrun.oneSource first List.mem_cons_self
    · rw [List.head?_cons, Option.bind_some, hn, Option.getD_some]
  · obtain ⟨first, others, rfl⟩ := List.exists_cons_of_ne_nil
      fun hnil : trace = [] => absurd htrace.long (by rw [hnil]; decide)
    have hsub : (first :: others).Sublist entries := by
      rw [hsplit, ← List.cons_append]
      exact ((List.sublist_cons_self _ _).trans (List.sublist_append_left _ _)).trans
        (List.sublist_append_right _ _)
    obtain ⟨n, hn⟩ := hnumbered.seq_of_mem (hsub.subset List.mem_cons_self)
    refine ⟨first, others, n, List.zipIdx_map_fst _ _, hsub, hn, Or.inr ?_⟩
    rw [List.head?_cons, Option.bind_some, hn, Option.getD_some]

theorem pairwise_disjoint {β : Type} {f : TerminalEntry × ℕ → β}
    (h : (entries.zipIdx.map f).Nodup) :
    (groupOutput entries loops).Pairwise fun row row' =>
      List.Disjoint (row.entries.map f) (row'.entries.map f) := by
  rw [← groupFrom_entries loops, List.map_flatMap, List.nodup_flatMap] at h
  exact h.2

theorem seq_mem {members : List (TerminalEntry × ℕ)} {first : TerminalEntry}
    {others : List TerminalEntry} (h : members.map Prod.fst = first :: others) :
    first.seq ∈ members.map fun member => member.1.seq := by
  have hmem : first ∈ members.map Prod.fst := h ▸ List.mem_cons_self
  obtain ⟨member, hmember, rfl⟩ := List.mem_map.mp hmem
  exact List.mem_map_of_mem hmember

theorem foldKeys_nodup (h : Numbered entries) : (foldKeys (groupOutput entries loops)).Nodup := by
  have hnodup : (entries.zipIdx.map fun member => member.1.seq).Nodup := by
    have hseqs : (fun member : TerminalEntry × ℕ => member.1.seq) = (·.seq) ∘ Prod.fst := rfl
    rw [hseqs, ← List.map_map, List.zipIdx_map_fst]
    exact h.nodup
  rw [foldKeys, List.Nodup, List.pairwise_filterMap]
  refine (pairwise_disjoint hnodup).imp_of_mem fun {row row'} hrow hrow' hdisjoint => ?_
  rintro key hkey key' hkey' rfl
  cases row with
  | line => cases hkey
  | fold key label members =>
    cases row' with
    | line => cases hkey'
    | fold key' label' members' =>
      obtain rfl := Option.some.inj hkey
      obtain rfl := Option.some.inj hkey'
      obtain ⟨first, others, n, hmembers, -, hn, hform⟩ := h.fold_key hrow
      obtain ⟨first', others', n', hmembers', -, hn', hform'⟩ := h.fold_key hrow'
      have hsame : n = n' := by
        rcases hform with ⟨source, -, rfl⟩ | rfl
        · rcases hform' with ⟨source', -, hkeys⟩ | hkeys
          · exact loopKey_injective hkeys
          · exact absurd hkeys loopKey_ne_stackKey
        · rcases hform' with ⟨source', -, hkeys⟩ | hkeys
          · exact absurd hkeys.symm loopKey_ne_stackKey
          · exact stackKey_injective hkeys
      refine hdisjoint (seq_mem hmembers) ?_
      rw [hn, hsame, ← hn']
      exact seq_mem hmembers'

theorem eq_of_index {row' : TerminalRow} {e e' : TerminalEntry}
    (hrow : row ∈ groupOutput entries loops) (hrow' : row' ∈ groupOutput entries loops)
    (he : (e, index) ∈ row.entries) (he' : (e', index) ∈ row'.entries) : row = row' := by
  have hnodup : (entries.zipIdx.map Prod.snd).Nodup := by
    rw [List.zipIdx_map_snd]
    exact List.nodup_range'
  by_contra hne
  have hsymm : Std.Symm fun row row' : TerminalRow =>
      List.Disjoint (row.entries.map Prod.snd) (row'.entries.map Prod.snd) :=
    ⟨fun _ _ h => List.disjoint_symm h⟩
  have hindex : index ∈ row.entries.map Prod.snd := List.mem_map.mpr ⟨_, he, rfl⟩
  exact (pairwise_disjoint hnodup).forall hrow hrow' hne hindex (List.mem_map.mpr ⟨_, he', rfl⟩)

theorem takenForTrace_of_stackKey {seq : ℕ} (hne : run ≠ [])
    (h : Shown entries loops start run (stackKey seq)) : TakenForTrace loops entries start := by
  obtain ⟨label, hmem⟩ := h
  obtain ⟨front, entry, rest, hsplit, hstands, hrow⟩ := mem_groupOutput hmem
  have hturn := turn_spec loops front.length entry rest
  generalize turn loops front.length entry rest = pushed at *
  obtain ⟨rows, n⟩ := pushed
  refine ⟨front, entry, rest, hsplit, ?_⟩
  generalize hlist : entry :: rest = list at *
  cases hturn with
  | loopFold =>
    exact absurd (TerminalRow.fold.inj (List.mem_singleton.mp hrow)).1.symm loopKey_ne_stackKey
  | @trace entry' trace rest' _ hpanic htrace =>
    obtain ⟨rfl, rfl⟩ := List.cons.inj hlist
    rcases List.mem_cons.mp hrow with hline | hfold
    · cases hline
    · obtain ⟨-, -, hmembers⟩ := TerminalRow.fold.inj (List.mem_singleton.mp hfold)
      refine ⟨(zipIdx_inj hne hmembers).2, hstands, hpanic, ?_⟩
      rw [List.takeWhile_append_of_pos htrace.errors, List.length_append]
      exact Nat.le_add_right_of_le htrace.long
  | line => cases List.mem_singleton.mp hrow

theorem not_takenForTrace_of_loopKey {source : String} {seq : ℕ} (hne : run ≠ [])
    (h : Shown entries loops start run (loopKey source seq)) :
    ¬TakenForTrace loops entries start := by
  rintro ⟨front, entry, rest, hsplit, rfl, hstands, hpanic, hlong⟩
  obtain ⟨label, hmem⟩ := h
  obtain ⟨first, others, rfl⟩ := List.exists_cons_of_ne_nil hne
  have hsubset := hstands.turn_subset hsplit
  have hturn := turn_spec loops front.length entry rest
  generalize turn loops front.length entry rest = pushed at *
  obtain ⟨rows, n⟩ := pushed
  generalize hlist : entry :: rest = list at *
  cases hturn with
  | @loopFold source' run' rest' seq' label' _ hrun _ =>
    have hlength : 1 < run'.length := lt_of_lt_of_le (by decide) hrun.long
    have hsecond : (run'[1], front.length + 1) ∈ run'.zipIdx front.length :=
      List.mk_mem_zipIdx_iff_le_and_getElem?_sub.mpr ⟨Nat.le_succ _, by
        rw [Nat.add_sub_cancel_left, List.getElem?_eq_getElem hlength]⟩
    have hsame := eq_of_index (hsubset List.mem_cons_self) hmem hsecond List.mem_cons_self
    have hstart := (zipIdx_inj hne (TerminalRow.fold.inj hsame).2.2.symm).2
    omega
  | @trace entry' trace rest' _ _ htrace =>
    obtain ⟨head, tail, rfl⟩ := List.exists_cons_of_ne_nil
      fun hnil : trace = [] => absurd htrace.long (by rw [hnil]; decide)
    have hsame := eq_of_index (hsubset (List.mem_cons_of_mem _ List.mem_cons_self)) hmem
      List.mem_cons_self List.mem_cons_self
    exact loopKey_ne_stackKey (TerminalRow.fold.inj hsame).1.symm
  | @line entry' rest' _ hshort =>
    obtain ⟨rfl, rfl⟩ := List.cons.inj hlist
    exact absurd hlong (Nat.not_le_of_lt (hshort hpanic))

theorem Numbered.seq_ne (h : Numbered entries) {first e : TerminalEntry}
    (hsub : (first :: run).Sublist entries) (he : e ∈ run) : first.seq ≠ e.seq := by
  have hnodup := h.nodup.sublist (hsub.map (·.seq))
  rw [List.map_cons, List.nodup_cons] at hnodup
  exact fun hsame => hnodup.1 (hsame ▸ List.mem_map_of_mem he)

/-- A fold keeps its key as long as its run is whole and no trace. -/
theorem key_kept_iff (hnumbered : Numbered entries) {k : ℕ} {key' : String}
    (hloop : ShownAsLoop entries loops start run key)
    (hrest : Shown (entries.drop k) loops (start - k) (run.drop (k - start)) key') :
    key = key' ∧ (foldKeys (groupOutput entries loops)).Nodup ↔
      k ≤ start ∧ ¬TakenForTrace loops (entries.drop k) (start - k) := by
  rw [and_iff_left (foldKeys_nodup hnumbered)]
  obtain ⟨⟨label, hfold⟩, source, seq, rfl⟩ := hloop
  have ⟨label', hfold'⟩ := hrest
  obtain ⟨first, others, n, hmembers, hsub, hn, hform⟩ := hnumbered.fold_key hfold
  obtain ⟨first', others', n', hmembers', -, hn', hform'⟩ := (hnumbered.drop k).fold_key hfold'
  rw [List.zipIdx_map_fst] at hmembers hmembers'
  obtain ⟨source', hsource, hkey⟩ := hform.resolve_right loopKey_ne_stackKey
  rw [hkey] at hfold ⊢
  have hne' : run.drop (k - start) ≠ [] := hmembers' ▸ List.cons_ne_nil _ _
  constructor
  · rintro rfl
    refine ⟨?_, not_takenForTrace_of_loopKey hne' hrest⟩
    by_contra hcut
    obtain ⟨m, hm⟩ : ∃ m, k - start = m + 1 := ⟨k - start - 1, by omega⟩
    rw [hmembers, hm, List.drop_succ_cons] at hmembers'
    have hlater : first' ∈ others := List.mem_of_mem_drop (hmembers' ▸ List.mem_cons_self)
    have hsame : n = n' := by
      obtain ⟨source'', -, hkeys⟩ := hform'.resolve_right loopKey_ne_stackKey
      exact loopKey_injective hkeys
    exact hnumbered.seq_ne hsub hlater (by rw [hn, hn', hsame])
  · rintro ⟨hle, hnot⟩
    rw [Nat.sub_eq_zero_of_le hle, List.drop_zero, hmembers] at hmembers'
    obtain ⟨rfl, rfl⟩ := List.cons.inj hmembers'
    obtain rfl := Option.some.inj (hn.symm.trans hn')
    rcases hform' with ⟨source'', hsource', rfl⟩ | rfl
    · rw [Option.some.inj (hsource.symm.trans hsource')]
    · exact absurd (takenForTrace_of_stackKey hne' hrest) hnot

def steps : List TerminalEntry := [1, 2, 3, 4, 5].map (printed .program "step")

theorem steps_shown : ShownAsLoop steps true 0 steps "loop:src/main.zig:4:9:1" :=
  ⟨⟨"trace · src/main.zig:4:9", by decide +kernel⟩, "src/main.zig:4:9", 1, by decide +kernel⟩

theorem steps_rest_shown :
    Shown (steps.drop 1) true 0 (steps.drop 1) "loop:src/main.zig:4:9:2" :=
  ⟨"trace · src/main.zig:4:9", by decide +kernel⟩

/-- Once the first entry of a run has left the window, the fold of the rest has another key. -/
theorem key_changes : ∃ entries loops start run key key', ∃ k : ℕ,
    Numbered entries ∧ ShownAsLoop entries loops start run key ∧
      Shown (entries.drop k) loops (start - k) (run.drop (k - start)) key' ∧ key ≠ key' :=
  ⟨steps, true, 0, steps, _, _, 1, ⟨[1, 2, 3, 4, 5], rfl, by decide⟩, steps_shown, steps_rest_shown,
    by decide⟩

theorem key_kept_iff_steps :
    ("loop:src/main.zig:4:9:1" = "loop:src/main.zig:4:9:2" ∧
      (foldKeys (groupOutput steps true)).Nodup) ↔
      1 ≤ 0 ∧ ¬TakenForTrace true (steps.drop 1) (0 - 1) :=
  key_kept_iff ⟨[1, 2, 3, 4, 5], rfl, by decide⟩ steps_shown steps_rest_shown

end Atomis.TerminalFolds
