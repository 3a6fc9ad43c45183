import Mathlib.Data.Finset.Card
import Mathlib.Tactic.Common

/-!
# Sessions that share a persistent workspace

`domain/collab.rs`: who is in a workspace, its revision, the writer of the last
unbroken run of writes, and the broadcast channel. Every method locks the state
once and does not wait while it holds it, so each is one step here. The channel
is the list of everything sent on it, oldest first.
-/

namespace Atomis.Collab

/-- How many changes the broadcast channel keeps for a receiver. -/
def backlog : ℕ := 256

inductive WorkspaceChange
  | files (workspace origin : String)
  | peers (workspace : String) (count : ℕ)
  | document (workspace origin path source : String) (revision : ℕ)
deriving DecidableEq

structure Conflict where
  current : ℕ
deriving DecidableEq

structure State where
  peers : String → Option (Finset String)
  revisions : String → Option ℕ
  writers : String → Option (String × ℕ)
  changes : List WorkspaceChange

def new : State := ⟨fun _ => none, fun _ => none, fun _ => none, []⟩

def send (s : State) (change : WorkspaceChange) : State :=
  { s with changes := s.changes ++ [change] }

def announcePeers (s : State) (workspace : String) (count : ℕ) : State :=
  send s (.peers workspace count)

def revision (s : State) (workspace : String) : ℕ := (s.revisions workspace).getD 0

def peerCount (s : State) (workspace : String) : ℕ := ((s.peers workspace).map Finset.card).getD 0

def join (s : State) (workspace session : String) : ℕ × State :=
  let peers := insert session ((s.peers workspace).getD ∅)
  let revision := (s.revisions workspace).getD 0
  (revision, announcePeers { s with
    peers := Function.update s.peers workspace (some peers)
    revisions := Function.update s.revisions workspace (some revision) } workspace peers.card)

def leave (s : State) (workspace session : String) : State :=
  match s.peers workspace with
  | none => s
  | some members =>
    let peers := members.erase session
    let count := peers.card
    announcePeers { s with
      peers := Function.update s.peers workspace (if count = 0 then none else some peers) }
      workspace count

def writerBaseOk (s : State) (workspace origin : String) (base : Option ℕ) (current : ℕ) : Bool :=
  match base with
  | none => true
  | some base =>
    if base = current then true
    else decide (base < current) && (s.writers workspace).any fun (writer, start) =>
      decide (writer = origin) && decide (start ≤ base)

def checkWriterBase (s : State) (workspace origin : String) (base : Option ℕ) :
    Except Conflict Unit :=
  let current := revision s workspace
  if writerBaseOk s workspace origin base current then .ok () else .error ⟨current⟩

def advance (s : State) (workspace origin : String) (base : Option ℕ) :
    Except Conflict ℕ × State :=
  let current := revision s workspace
  if !writerBaseOk s workspace origin base current then (.error ⟨current⟩, s)
  else
    let writers :=
      if (s.writers workspace).all fun (writer, _) => decide (writer ≠ origin) then
        Function.update s.writers workspace (some (origin, current))
      else s.writers
    (.ok (current + 1), { s with
      writers := writers
      revisions := Function.update s.revisions workspace (some (current + 1)) })

def recordFiles (s : State) (workspace origin : String) (base : Option ℕ) :
    Except Conflict ℕ × State :=
  match advance s workspace origin base with
  | (.error conflict, s) => (.error conflict, s)
  | (.ok revision, s) => (.ok revision, send s (.files workspace origin))

def recordEdit (s : State) (workspace origin path source : String) (base : Option ℕ) :
    Except Conflict ℕ × State :=
  match advance s workspace origin base with
  | (.error conflict, s) => (.error conflict, s)
  | (.ok revision, s) => (.ok revision, send s (.document workspace origin path source revision))

/-! ## What each operation does -/

@[simp] theorem send_revisions (s : State) (c : WorkspaceChange) :
    (send s c).revisions = s.revisions := rfl
@[simp] theorem send_writers (s : State) (c : WorkspaceChange) :
    (send s c).writers = s.writers := rfl
@[simp] theorem send_peers (s : State) (c : WorkspaceChange) : (send s c).peers = s.peers := rfl
@[simp] theorem revision_send (s : State) (c : WorkspaceChange) (w : String) :
    revision (send s c) w = revision s w := rfl
@[simp] theorem revision_new (w : String) : revision new w = 0 := rfl

@[simp] theorem join_writers (s : State) (w o : String) : (join s w o).2.writers = s.writers := rfl

@[simp] theorem revision_join (s : State) (w o v : String) :
    revision (join s w o).2 v = revision s v := by
  by_cases hv : v = w
  · subst hv; simp [join, revision, announcePeers]
  · simp [join, revision, announcePeers, hv]

@[simp] theorem leave_writers (s : State) (w o : String) : (leave s w o).writers = s.writers := by
  simp only [leave]
  split <;> rfl

@[simp] theorem leave_revisions (s : State) (w o : String) :
    (leave s w o).revisions = s.revisions := by
  simp only [leave]
  split <;> rfl

@[simp] theorem revision_leave (s : State) (w o v : String) :
    revision (leave s w o) v = revision s v := by
  simp [revision]

theorem checkWriterBase_isOk (s : State) (w o : String) (base : Option ℕ) :
    (checkWriterBase s w o base).isOk = writerBaseOk s w o base (revision s w) := by
  simp only [checkWriterBase]
  split_ifs with h
  · exact h.symm
  · exact (Bool.not_eq_true _ ▸ h).symm

/-- The state after an accepted write, whoever recorded it. -/
def advanced (s : State) (workspace origin : String) : State :=
  { s with
    writers :=
      if (s.writers workspace).all fun (writer, _) => decide (writer ≠ origin) then
        Function.update s.writers workspace (some (origin, revision s workspace))
      else s.writers
    revisions := Function.update s.revisions workspace (some (revision s workspace + 1)) }

theorem advance_eq (s : State) (w o : String) (base : Option ℕ) :
    advance s w o base =
      if writerBaseOk s w o base (revision s w) then (.ok (revision s w + 1), advanced s w o)
      else (.error ⟨revision s w⟩, s) := by
  cases h : writerBaseOk s w o base (revision s w) <;> simp only [advance, h] <;> rfl

theorem recordFiles_eq (s : State) (w o : String) (base : Option ℕ) :
    recordFiles s w o base =
      if writerBaseOk s w o base (revision s w) then
        (.ok (revision s w + 1), send (advanced s w o) (.files w o))
      else (.error ⟨revision s w⟩, s) := by
  rw [recordFiles, advance_eq]
  split_ifs <;> rfl

theorem recordEdit_eq (s : State) (w o path source : String) (base : Option ℕ) :
    recordEdit s w o path source base =
      if writerBaseOk s w o base (revision s w) then
        (.ok (revision s w + 1),
          send (advanced s w o) (.document w o path source (revision s w + 1)))
      else (.error ⟨revision s w⟩, s) := by
  rw [recordEdit, advance_eq]
  split_ifs <;> rfl

@[simp] theorem revision_advanced (s : State) (w o v : String) :
    revision (advanced s w o) v = if v = w then revision s w + 1 else revision s v := by
  by_cases hv : v = w
  · subst hv; simp [revision, advanced]
  · simp [revision, advanced, hv]

theorem advanced_writers_of_ne {v w : String} (hv : v ≠ w) (s : State) (o : String) :
    (advanced s w o).writers v = s.writers v := by
  simp only [advanced]
  split_ifs
  · exact Function.update_of_ne hv _ _
  · rfl

theorem advanced_writers_self (s : State) (w o : String) :
    (advanced s w o).writers w =
      if (s.writers w).all fun (writer, _) => decide (writer ≠ o) then some (o, revision s w)
      else s.writers w := by
  simp only [advanced]
  split_ifs
  · exact Function.update_self _ _ _
  · rfl

end Atomis.Collab
