import Atomis.Collab
import Atomis.Lib.TailRun

/-!
# The collaboration revision check is exact

`authors` is the history the map of writers summarises: who wrote revision 1,
2, ... of each workspace. In every reachable state the kept pair is the unbroken
run at the end of that history, so the check it decides is the check on the
whole history.
-/

namespace Atomis.Collab
open TailRun

/-- What a write announces once it is accepted. -/
inductive Write
  | edit (path source : String)
  | files

def record (s : State) (workspace origin : String) (base : Option ℕ) :
    Write → Except Conflict ℕ × State
  | .edit path source => recordEdit s workspace origin path source base
  | .files => recordFiles s workspace origin base

inductive Op
  | join (workspace session : String)
  | leave (workspace session : String)
  | record (workspace origin : String) (base : Option ℕ) (write : Write)

def Op.apply (s : State) : Op → State
  | .join w o => (Collab.join s w o).2
  | .leave w o => Collab.leave s w o
  | .record w o base write => (Collab.record s w o base write).2

def run (s : State) (ops : List Op) : State := ops.foldl Op.apply s

/-- Who an operation makes the writer of the next revision of `workspace`. -/
def Op.author (s : State) (workspace : String) : Op → List String
  | .record w o base write =>
    if w = workspace ∧ (Collab.record s w o base write).1.isOk then [o] else []
  | _ => []

/-- The writers of a workspace's revisions, in order, along a run. -/
def authors (workspace : String) : State → List Op → List String
  | _, [] => []
  | s, op :: ops => op.author s workspace ++ authors workspace (op.apply s) ops

theorem authors_append_singleton (w : String) (s : State) (ops : List Op) (op : Op) :
    authors w s (ops ++ [op]) = authors w s ops ++ op.author (run s ops) w := by
  induction ops generalizing s with
  | nil => simp [authors, run]
  | cons op' ops ih =>
    simp only [List.cons_append, authors, ih, List.append_assoc]
    rfl

theorem run_append_singleton (s : State) (ops : List Op) (op : Op) :
    run s (ops ++ [op]) = op.apply (run s ops) := by
  simp [run]

/-- The pair kept for a workspace summarises its history. -/
def Summarises : List String → Option (String × ℕ) → Prop
  | h, none => h = []
  | h, some (writer, start) => IsTailRun h writer start

structure Tracks (s : State) (h : String → List String) : Prop where
  length_eq : ∀ w, revision s w = (h w).length
  summarises : ∀ w, Summarises (h w) (s.writers w)

theorem Summarises.append {h : List String} {kept : Option (String × ℕ)}
    (hs : Summarises h kept) (o : String) :
    Summarises (h ++ [o]) (if kept.all fun (writer, _) => decide (writer ≠ o) then
      some (o, h.length) else kept) := by
  cases kept with
  | none =>
    obtain rfl : h = [] := hs
    exact isTailRun_append_other (fun hne => absurd rfl hne)
  | some pair =>
    obtain ⟨writer, start⟩ := pair
    have run : IsTailRun h writer start := hs
    by_cases hw : writer = o
    · subst hw
      simpa [Summarises] using run.append_same
    · have hlast : ∀ hne : h ≠ [], h.getLast hne ≠ o := fun hne heq =>
        hw ((run.owned.getLast_eq run.lt_length hne).symm.trans heq)
      simpa [Summarises, hw] using isTailRun_append_other hlast

/-- One accepted write extends the history of its workspace and of no other. -/
theorem tracks_advanced {s : State} {h : String → List String} (ht : Tracks s h)
    (w o : String) :
    Tracks (advanced s w o) fun v => h v ++ if w = v then [o] else [] where
  length_eq v := by
    rw [revision_advanced, ht.length_eq v]
    by_cases hv : v = w
    · subst hv; simp [ht.length_eq v]
    · simp [hv, Ne.symm hv]
  summarises v := by
    by_cases hv : v = w
    · subst hv
      rw [advanced_writers_self, ht.length_eq v, if_pos rfl]
      exact (ht.summarises v).append o
    · rw [advanced_writers_of_ne hv, if_neg (Ne.symm hv), List.append_nil]
      exact ht.summarises v

theorem tracks_send {s : State} {h : String → List String} (ht : Tracks s h)
    (c : WorkspaceChange) : Tracks (send s c) h := ⟨ht.length_eq, ht.summarises⟩

theorem record_eq (s : State) (w o : String) (base : Option ℕ) (write : Write) :
    ∃ change, record s w o base write =
      if writerBaseOk s w o base (revision s w) then
        (.ok (revision s w + 1), send (advanced s w o) change)
      else (.error ⟨revision s w⟩, s) := by
  cases write with
  | edit path source => exact ⟨_, recordEdit_eq s w o path source base⟩
  | files => exact ⟨_, recordFiles_eq s w o base⟩

theorem tracks_apply {s : State} {h : String → List String} (ht : Tracks s h) (op : Op) :
    Tracks (op.apply s) fun v => h v ++ op.author s v := by
  cases op with
  | join w o => exact ⟨by simpa [Op.apply, Op.author] using ht.length_eq,
      by simpa [Op.apply, Op.author] using ht.summarises⟩
  | leave w o => exact ⟨by simpa [Op.apply, Op.author] using ht.length_eq,
      by simpa [Op.apply, Op.author] using ht.summarises⟩
  | record w o base write =>
    obtain ⟨change, heq⟩ := record_eq s w o base write
    simp only [Op.apply, Op.author, heq]
    by_cases hok : writerBaseOk s w o base (revision s w) = true
    · simpa [hok, Except.isOk, Except.toBool] using tracks_send (tracks_advanced ht w o) change
    · simpa [hok, Except.isOk, Except.toBool] using ht

theorem tracks_run (ops : List Op) : Tracks (run new ops) fun w => authors w new ops := by
  induction ops using List.reverseRecOn with
  | nil => exact ⟨fun _ => rfl, fun _ => rfl⟩
  | append_singleton ops op ih =>
    simp only [run_append_singleton, authors_append_singleton]
    exact tracks_apply ih op

/-- The check on the kept pair is the check on the whole history. -/
theorem writerBaseOk_iff_of_tracks {s : State} {h : String → List String} (ht : Tracks s h)
    (w o : String) (base : ℕ) :
    writerBaseOk s w o (some base) (revision s w) = true ↔
      base ≤ revision s w ∧ OwnedFrom (h w) o base := by
  have hrev := ht.length_eq w
  rcases Nat.lt_trichotomy base (revision s w) with hlt | heq | hgt
  · have hsum := ht.summarises w
    cases hk : s.writers w with
    | none =>
      rw [hk] at hsum
      have hnil : h w = [] := hsum
      rw [hrev, hnil] at hlt
      exact absurd hlt (Nat.not_lt_zero _)
    | some pair =>
      obtain ⟨writer, start⟩ := pair
      rw [hk] at hsum
      have hown := IsTailRun.ownedFrom_iff (b := o) hsum (hrev ▸ hlt)
      have hcomm : writer = o ↔ o = writer := eq_comm
      simp [writerBaseOk, hk, hlt.ne, hlt, hlt.le, hown, hcomm]
  · simp [writerBaseOk, heq, hrev, ownedFrom_of_length_le]
  · have hns : ¬ base ≤ revision s w := by omega
    simp [writerBaseOk, hns, hgt.ne', not_lt.mpr hgt.le]

/-- Every revision in `(base, current]` of `workspace` was written by `origin`. -/
def WrittenSince (ops : List Op) (workspace origin : String) (base : ℕ) : Prop :=
  ∀ k, base < k → k ≤ revision (run new ops) workspace →
    (authors workspace new ops)[k - 1]? = some origin

theorem writerBaseOk_run_iff (ops : List Op) (w o : String) (base : ℕ) :
    writerBaseOk (run new ops) w o (some base) (revision (run new ops) w) = true ↔
      base ≤ revision (run new ops) w ∧ WrittenSince ops w o base := by
  have ht := tracks_run ops
  rw [writerBaseOk_iff_of_tracks ht, ownedFrom_iff_getElem?, ← ht.length_eq w]
  rfl

theorem advance_isOk (s : State) (w o : String) (base : Option ℕ) :
    (advance s w o base).1.isOk = writerBaseOk s w o base (revision s w) := by
  rw [advance_eq]
  cases writerBaseOk s w o base (revision s w) <;> rfl

/-- A recorded write raises its own workspace's revision by one, or changes
nothing in any workspace. -/
theorem record_spec (s : State) (w o : String) (base : Option ℕ) (write : Write) :
    ((record s w o base write).1 = .ok (revision s w + 1) ∧
      ∀ v, revision (record s w o base write).2 v =
        if v = w then revision s w + 1 else revision s v) ∨
    ((record s w o base write).1 = .error ⟨revision s w⟩ ∧ (record s w o base write).2 = s) := by
  obtain ⟨change, heq⟩ := record_eq s w o base write
  rw [heq]
  split_ifs
  · exact .inl ⟨rfl, fun v => by simp⟩
  · exact .inr ⟨rfl, rfl⟩

/-- In every reachable state the check and the write accept exactly the bases
no other session has written past, an accepted write counts once, and a refused
one leaves every revision, writer and member as it was. -/
theorem revision_check_exact (ops : List Op) (w o : String) :
    (∀ base, ((checkWriterBase (run new ops) w o (some base)).isOk = true ↔
      base ≤ revision (run new ops) w ∧ WrittenSince ops w o base)) ∧
    (∀ base, ((advance (run new ops) w o (some base)).1.isOk = true ↔
      base ≤ revision (run new ops) w ∧ WrittenSince ops w o base)) ∧
    ∀ base write,
      ((record (run new ops) w o base write).1.isOk = true →
        ∀ v, revision (record (run new ops) w o base write).2 v =
          if v = w then revision (run new ops) w + 1 else revision (run new ops) v) ∧
      ((record (run new ops) w o base write).1.isOk = false → ∀ v,
        revision (record (run new ops) w o base write).2 v = revision (run new ops) v ∧
        (record (run new ops) w o base write).2.writers v = (run new ops).writers v ∧
        (record (run new ops) w o base write).2.peers v = (run new ops).peers v) := by
  refine ⟨fun base => ?_, fun base => ?_, fun base write => ?_⟩
  · rw [checkWriterBase_isOk, writerBaseOk_run_iff]
  · rw [advance_isOk, writerBaseOk_run_iff]
  · rcases record_spec (run new ops) w o base write with ⟨hres, hrev⟩ | ⟨hres, hst⟩
    · refine ⟨fun _ => hrev, fun hno => ?_⟩
      simp [hres, Except.isOk, Except.toBool] at hno
    · refine ⟨fun hok => ?_, fun _ v => ?_⟩
      · simp [hres, Except.isOk, Except.toBool] at hok
      · rw [hst]
        exact ⟨rfl, rfl, rfl⟩

end Atomis.Collab
