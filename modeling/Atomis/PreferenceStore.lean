import Atomis.Lib.History
import Atomis.Lib.KeyPatch
import Atomis.Lib.Machine

/-!
# Preferences shared by every device

The store of `domain/preferences.rs`. A merge checks its patch, takes the write
lock, reads the file, applies the patch and replaces the file by a rename; a read
takes no lock. Any number of merges and reads run together, one await at a time.
A file is what serde makes of its text: a missing file or a corrupt one is `none`.
Writing and renaming may fail at any call.
-/

namespace Atomis.PreferenceStore
open KeyPatch

abbrev Preferences := KeyMap String String

abbrev PreferencesPatch := KeyPatch String String

def maxKeys : ℕ := 64
def maxKeyBytes : ℕ := 128
def maxValueBytes : ℕ := 16 * 1024

def checkEntry (entry : String × Option String) : Except String Unit :=
  if entry.1.isEmpty = true ∨ maxKeyBytes < entry.1.utf8ByteSize then
    .error "Invalid preference key"
  else if entry.2.any fun value => maxValueBytes < value.utf8ByteSize then
    .error "Preference value is too large"
  else .ok ()

def validate : PreferencesPatch → Except String Unit
  | [] => .ok ()
  | entry :: patch => (checkEntry entry).bind fun _ => validate patch

abbrev Contents := Option Preferences

def readAt (file : Contents) : Preferences := file.getD ∅

/-- The await a merge is at, with what it holds in its variables there. -/
inductive Stage where
  | called
  | waiting
  | locked
  | merged (stored : Preferences)
  | written (stored : Preferences)
  | renamed (stored : Preferences)
  | returned (stored : Preferences)
  | refused (error : String)
deriving DecidableEq

structure Call where
  patch : PreferencesPatch
  stage : Stage
deriving DecidableEq

/-- `commits` and `reads` are history: the renames with the patch of each, and
what the reads were given. -/
structure State where
  file : Contents
  temporary : Contents
  lock : Option ℕ
  calls : List Call
  commits : List (ℕ × PreferencesPatch)
  reads : List Preferences
deriving DecidableEq

namespace State

def init (file : Contents) : State := ⟨file, none, none, [], [], []⟩

def stage (s : State) (i : ℕ) : Option Stage := (s.calls[i]?).map Call.stage

def patch (s : State) (i : ℕ) : PreferencesPatch := (s.calls[i]?).elim [] Call.patch

def move (s : State) (i : ℕ) (stage : Stage) : State :=
  { s with calls := s.calls.modify i fun call => { call with stage := stage } }

/-- What the merge of call `i` computes from the file. -/
def merging (s : State) (i : ℕ) : Preferences := apply (readAt s.file) (s.patch i)

end State

inductive Action where
  | call (patch : PreferencesPatch)
  | validate (i : ℕ)
  | lock (i : ℕ)
  | read (i : ℕ)
  | write (i : ℕ) (stored : Preferences)
  | writeFails (i : ℕ) (stored : Preferences) (error : String) (left : Contents)
  | rename (i : ℕ) (stored : Preferences)
  | renameFails (i : ℕ) (stored : Preferences) (error : String)
  | finish (i : ℕ) (stored : Preferences)
  | readFile
deriving DecidableEq

def enabled (s : State) : Action → Prop
  | .call _ | .readFile => True
  | .validate i => s.stage i = some .called
  | .lock i => s.stage i = some .waiting ∧ s.lock = none
  | .read i => s.stage i = some .locked
  | .write i stored | .writeFails i stored _ _ => s.stage i = some (.merged stored)
  | .rename i stored | .renameFails i stored _ => s.stage i = some (.written stored)
  | .finish i stored => s.stage i = some (.renamed stored)

instance : DecidableRel enabled := fun s a => by
  cases a <;> simp only [enabled] <;> infer_instance

def next (s : State) : Action → State
  | .call patch => { s with calls := s.calls ++ [⟨patch, .called⟩] }
  | .validate i =>
    match validate (s.patch i) with
    | .ok _ => s.move i .waiting
    | .error error => s.move i (.refused error)
  | .lock i => { s.move i .locked with lock := some i }
  | .read i =>
    if maxKeys < (s.merging i).keys.card then
      { s.move i (.refused "Too many preferences") with lock := none }
    else s.move i (.merged (s.merging i))
  | .write i stored => { s.move i (.written stored) with temporary := some stored }
  | .writeFails i _ error left =>
    { s.move i (.refused error) with temporary := left, lock := none }
  | .rename i stored =>
    { s.move i (.renamed stored) with
      file := s.temporary
      temporary := none
      commits := s.commits ++ [(i, s.patch i)] }
  | .renameFails i _ error => { s.move i (.refused error) with lock := none }
  | .finish i stored => { s.move i (.returned stored) with lock := none }
  | .readFile => { s with reads := s.reads ++ [readAt s.file] }

def machine : Machine State Action where
  enabled := enabled
  next := next

instance : DecidableRel machine.enabled := inferInstanceAs (DecidableRel enabled)

/-! ## The calls, one by one -/

@[simp] theorem stage_init (file : Contents) (i : ℕ) : (State.init file).stage i = none := rfl

theorem stage_move {s : State} {i : ℕ} {old : Stage} (h : s.stage i = some old) (new : Stage)
    (j : ℕ) : (s.move i new).stage j = if j = i then some new else s.stage j := by
  obtain ⟨call, hcall, rfl⟩ := Option.map_eq_some_iff.mp h
  by_cases hj : j = i
  · subst hj
    simp [State.stage, State.move, hcall]
  · simp [State.stage, State.move, hj, Ne.symm hj]

@[simp] theorem patch_move (s : State) (i : ℕ) (new : Stage) (j : ℕ) :
    (s.move i new).patch j = s.patch j := by
  by_cases hj : i = j
  · cases h : s.calls[j]? <;> simp [State.patch, State.move, hj, h]
  · simp [State.patch, State.move, hj]

theorem stage_call (s : State) (patch : PreferencesPatch) (j : ℕ) :
    (next s (.call patch)).stage j =
      if j = s.calls.length then some .called else s.stage j := by
  simp only [State.stage, next, History.getElem?_append_singleton]
  split_ifs <;> rfl

theorem lt_of_stage {s : State} {i : ℕ} {stage : Stage} (h : s.stage i = some stage) :
    i < s.calls.length := by
  obtain ⟨call, hcall, -⟩ := Option.map_eq_some_iff.mp h
  exact (List.getElem?_eq_some_iff.mp hcall).1

theorem patch_call (s : State) (patch : PreferencesPatch) (j : ℕ) :
    (next s (.call patch)).patch j = if j = s.calls.length then patch else s.patch j := by
  simp only [State.patch, next, History.getElem?_append_singleton]
  split_ifs <;> rfl

/-- A call that is over. -/
def Stage.over : Stage → Bool
  | .returned _ | .refused _ => true
  | _ => false

/-- A step calls, or moves one call on that is not over, or leaves them all alone. -/
theorem calls_next {s : State} {a : Action} (ha : enabled s a) :
    (∃ patch, a = .call patch) ∨ (next s a).calls = s.calls ∨
      ∃ i old new, s.stage i = some old ∧ old.over = false ∧
        (next s a).calls = (s.move i new).calls := by
  cases a with
  | call patch => exact .inl ⟨patch, rfl⟩
  | readFile => exact .inr (.inl rfl)
  | validate i =>
    refine .inr (.inr ⟨i, .called, ?_⟩)
    simp only [next]
    split
    · exact ⟨.waiting, ha, rfl, rfl⟩
    · exact ⟨_, ha, rfl, rfl⟩
  | lock i => exact .inr (.inr ⟨i, .waiting, _, ha.1, rfl, rfl⟩)
  | read i =>
    refine .inr (.inr ⟨i, .locked, ?_⟩)
    simp only [next]
    split_ifs
    · exact ⟨_, ha, rfl, rfl⟩
    · exact ⟨_, ha, rfl, rfl⟩
  | write i m => exact .inr (.inr ⟨i, _, _, ha, rfl, rfl⟩)
  | writeFails i m error left => exact .inr (.inr ⟨i, _, _, ha, rfl, rfl⟩)
  | rename i m => exact .inr (.inr ⟨i, _, _, ha, rfl, rfl⟩)
  | renameFails i m error => exact .inr (.inr ⟨i, _, _, ha, rfl, rfl⟩)
  | finish i m => exact .inr (.inr ⟨i, _, _, ha, rfl, rfl⟩)

theorem stage_congr {s t : State} (h : t.calls = s.calls) (i : ℕ) : t.stage i = s.stage i := by
  simp only [State.stage, h]

theorem patch_congr {s t : State} (h : t.calls = s.calls) (i : ℕ) : t.patch i = s.patch i := by
  simp only [State.patch, h]

theorem length_next {s : State} {a : Action} (ha : enabled s a) (hcall : ∀ patch, a ≠ .call patch) :
    (next s a).calls.length = s.calls.length := by
  rcases calls_next ha with ⟨patch, rfl⟩ | hsame | ⟨i, old, new, -, -, hmove⟩
  · exact absurd rfl (hcall patch)
  · rw [hsame]
  · simp [hmove, State.move]

theorem patch_next {s : State} {a : Action} (ha : enabled s a) (hcall : ∀ patch, a ≠ .call patch)
    (i : ℕ) : (next s a).patch i = s.patch i := by
  rcases calls_next ha with ⟨patch, rfl⟩ | hsame | ⟨j, old, new, -, -, hmove⟩
  · exact absurd rfl (hcall patch)
  · exact patch_congr hsame i
  · exact (patch_congr hmove i).trans (patch_move s j new i)

theorem stage_next_of_over {s : State} {a : Action} (ha : enabled s a) {i : ℕ} {stage : Stage}
    (hi : s.stage i = some stage) (hover : stage.over = true) :
    (next s a).stage i = some stage := by
  rcases calls_next ha with ⟨patch, rfl⟩ | hsame | ⟨j, old, new, hj, hold, hmove⟩
  · rw [stage_call, if_neg (lt_of_stage hi).ne, hi]
  · rw [stage_congr hsame, hi]
  · have hij : i ≠ j := by
      rintro rfl
      obtain rfl := Option.some.inj (hi.symm.trans hj)
      rw [hover] at hold
      cases hold
    rw [stage_congr hmove, stage_move hj, if_neg hij, hi]

end Atomis.PreferenceStore
