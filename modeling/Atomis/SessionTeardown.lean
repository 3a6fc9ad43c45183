import Atomis.Lib.Machine
import Mathlib.Data.Fintype.Basic
import Mathlib.Logic.Function.Basic

/-!
# Attaching to a session and tearing it down

`handle_runtime` of `ws/runtime.rs` and `authenticate`, `destroy` of
`domain/session.rs`, for one session and any number of runtime sockets, each
followed by the detached task that waits out `RECONNECT_GRACE`. A step is what
one of them does between two await points; `swap` and `bump` are separate
because other threads run between the two atomics.
-/

namespace Atomis.SessionTeardown

inductive Socket
  | idle
  | holding
  | refused
  | swapped
  | attached (generation : ℕ)
  | closing (generation : ℕ)
  | gone
deriving DecidableEq

inductive Teardown
  | unborn
  | sleeping (generation : ℕ)
  | closingServers
  | forgetting
  | deleting
  | finished
deriving DecidableEq

/-- `runtime_connected` was set by this socket and its message loop has not ended. -/
def Socket.inUse : Socket → Bool
  | .swapped | .attached _ => true
  | _ => false

def Socket.ownsFlag : Socket → Bool
  | .swapped | .attached _ | .closing _ => true
  | _ => false

def Teardown.destroying : Teardown → Bool
  | .forgetting | .deleting => true
  | _ => false

def Teardown.committed : Teardown → Bool
  | .closingServers | .forgetting | .deleting => true
  | _ => false

structure State (ι : Type*) where
  live : Bool
  runtimeConnected : Bool
  attachGeneration : ℕ
  socket : ι → Socket
  teardown : ι → Teardown

def init (ι : Type*) : State ι := ⟨true, false, 0, fun _ => .idle, fun _ => .unborn⟩

inductive Action (ι : Type*)
  | authenticate (k : ι)
  | swap (k : ι)
  | bump (k : ι)
  | loopEnd (k : ι) (generation : ℕ)
  | release (k : ι) (generation : ℕ)
  | wake (k : ι) (generation : ℕ)
  | serversClosed (k : ι)
  | forgotten (k : ι)
  | deleted (k : ι)

variable {ι : Type*} [DecidableEq ι]

def enabled (s : State ι) : Action ι → Prop
  | .authenticate k => s.socket k = .idle ∧ s.live = true
  | .swap k => s.socket k = .holding
  | .bump k => s.socket k = .swapped
  | .loopEnd k g => s.socket k = .attached g
  | .release k g => s.socket k = .closing g
  | .wake k g => s.teardown k = .sleeping g
  | .serversClosed k => s.teardown k = .closingServers
  | .forgotten k => s.teardown k = .forgetting
  | .deleted k => s.teardown k = .deleting

def State.setSocket (s : State ι) (k : ι) (x : Socket) : State ι :=
  { s with socket := Function.update s.socket k x }

def State.setTeardown (s : State ι) (k : ι) (x : Teardown) : State ι :=
  { s with teardown := Function.update s.teardown k x }

def next (s : State ι) : Action ι → State ι
  | .authenticate k => s.setSocket k .holding
  | .swap k =>
    if s.runtimeConnected then s.setSocket k .refused
    else { s.setSocket k .swapped with runtimeConnected := true }
  | .bump k =>
    { s.setSocket k (.attached (s.attachGeneration + 1)) with
      attachGeneration := s.attachGeneration + 1 }
  | .loopEnd k g => s.setSocket k (.closing g)
  | .release k g =>
    { (s.setSocket k .gone).setTeardown k (.sleeping g) with runtimeConnected := false }
  | .wake k g =>
    if s.attachGeneration ≠ g then s.setTeardown k .finished else s.setTeardown k .closingServers
  | .serversClosed k => s.setTeardown k .forgetting
  | .forgotten k => { s.setTeardown k .deleting with live := false }
  | .deleted k => s.setTeardown k .finished

@[simp, grind =] theorem setSocket_socket (s : State ι) (k : ι) (x : Socket) (j : ι) :
    (s.setSocket k x).socket j = if j = k then x else s.socket j := by
  simp [State.setSocket, Function.update_apply]

@[simp, grind =] theorem setSocket_teardown (s : State ι) (k : ι) (x : Socket) (j : ι) :
    (s.setSocket k x).teardown j = s.teardown j := rfl

@[simp, grind =] theorem setSocket_runtimeConnected (s : State ι) (k : ι) (x : Socket) :
    (s.setSocket k x).runtimeConnected = s.runtimeConnected := rfl

@[simp, grind =] theorem setSocket_attachGeneration (s : State ι) (k : ι) (x : Socket) :
    (s.setSocket k x).attachGeneration = s.attachGeneration := rfl

@[simp, grind =] theorem setTeardown_teardown (s : State ι) (k : ι) (x : Teardown) (j : ι) :
    (s.setTeardown k x).teardown j = if j = k then x else s.teardown j := by
  simp [State.setTeardown, Function.update_apply]

@[simp, grind =] theorem setTeardown_socket (s : State ι) (k : ι) (x : Teardown) (j : ι) :
    (s.setTeardown k x).socket j = s.socket j := rfl

@[simp, grind =] theorem setTeardown_runtimeConnected (s : State ι) (k : ι) (x : Teardown) :
    (s.setTeardown k x).runtimeConnected = s.runtimeConnected := rfl

@[simp, grind =] theorem setTeardown_attachGeneration (s : State ι) (k : ι) (x : Teardown) :
    (s.setTeardown k x).attachGeneration = s.attachGeneration := rfl

def machine (ι : Type*) [DecidableEq ι] : Machine (State ι) (Action ι) := ⟨enabled, next⟩

instance : DecidableRel (machine ι).enabled := fun s a => by
  cases a <;> simp only [machine, enabled] <;> infer_instance

/-! ## When the teardown is safe -/

/-- Nobody takes the flag while a teardown past its generation check is still
under way, and no such check is made between a socket's swap and its bump. -/
def Careful (s : State ι) : Action ι → Prop
  | .swap _ => ∀ j, (s.teardown j).committed = false
  | .wake _ _ => ∀ j, s.socket j ≠ .swapped
  | _ => True

/-- The generation a socket was given, from its bump until it lets the flag go. -/
def Socket.generation : Socket → Option ℕ
  | .attached g | .closing g => some g
  | _ => none

structure Inv (s : State ι) : Prop where
  flag : ∀ k, (s.socket k).ownsFlag = true → s.runtimeConnected = true
  owner : ∀ k j, (s.socket k).ownsFlag = true → (s.socket j).ownsFlag = true → k = j
  current : ∀ k g, (s.socket k).generation = some g → g = s.attachGeneration
  sleeping : ∀ k g, s.teardown k = .sleeping g → g ≤ s.attachGeneration
  older : ∀ k g, s.teardown k = .sleeping g → ∀ j g', (s.socket j).generation = some g' → g < g'
  committed : ∀ k, (s.teardown k).committed = true → ∀ j, (s.socket j).ownsFlag = false

omit [DecidableEq ι] in
theorem inv_init : Inv (init ι) := by
  constructor <;> simp [init, Socket.ownsFlag, Socket.generation, Teardown.committed]

theorem generation_of_not_ownsFlag {x : Socket} (h : x.ownsFlag = false) :
    x.generation = none := by
  cases x <;> simp_all [Socket.generation, Socket.ownsFlag]

theorem inUse_ownsFlag {x : Socket} (h : x.inUse = true) : x.ownsFlag = true := by
  cases x <;> simp_all [Socket.inUse, Socket.ownsFlag]

theorem destroying_committed {x : Teardown} (h : x.destroying = true) : x.committed = true := by
  cases x <;> simp_all [Teardown.destroying, Teardown.committed]

/-- A socket that changes without taking the flag or a generation. -/
theorem Inv.setSocket {s : State ι} (h : Inv s) (k : ι) {x : Socket}
    (hflag : x.ownsFlag = true → (s.socket k).ownsFlag = true)
    (hgen : x.generation = none ∨ x.generation = (s.socket k).generation) :
    Inv (s.setSocket k x) := by
  obtain ⟨flag, owner, current, sleeping, older, committed⟩ := h
  constructor <;> grind

/-- A teardown that changes without starting to sleep or passing the check. -/
theorem Inv.setTeardown {s : State ι} (h : Inv s) (k : ι) {x : Teardown}
    (hsleep : ∀ g, x ≠ .sleeping g)
    (hcomm : x.committed = true → (s.teardown k).committed = true) :
    Inv (s.setTeardown k x) := by
  obtain ⟨flag, owner, current, sleeping, older, committed⟩ := h
  constructor <;> grind

theorem inv_swap {s : State ι} (h : Inv s) {k : ι} (hfree : s.runtimeConnected = false)
    (hcalm : ∀ j, (s.teardown j).committed = false) :
    Inv { s.setSocket k .swapped with runtimeConnected := true } := by
  have hnone : ∀ j, (s.socket j).ownsFlag = false := fun j => by
    have := h.flag j
    grind
  obtain ⟨flag, owner, current, sleeping, older, committed⟩ := h
  constructor <;> grind [Socket.generation]

theorem inv_bump {s : State ι} (h : Inv s) {k : ι} (hk : s.socket k = .swapped) :
    Inv { s.setSocket k (.attached (s.attachGeneration + 1)) with
      attachGeneration := s.attachGeneration + 1 } := by
  have hmine : (s.socket k).ownsFlag = true := by rw [hk]; rfl
  have hothers : ∀ j, j ≠ k → (s.socket j).generation = none := fun j hj =>
    generation_of_not_ownsFlag (by have := h.owner j k; grind)
  have hcalm : ∀ j, (s.teardown j).committed = false := fun j => by
    have := h.committed j
    grind
  obtain ⟨flag, owner, current, sleeping, older, committed⟩ := h
  constructor <;> grind [Socket.generation]

theorem inv_release {s : State ι} (h : Inv s) {k : ι} {g : ℕ} (hk : s.socket k = .closing g) :
    Inv { (s.setSocket k .gone).setTeardown k (.sleeping g) with runtimeConnected := false } := by
  have hmine : (s.socket k).ownsFlag = true := by rw [hk]; rfl
  have hg : g = s.attachGeneration := h.current k g (by rw [hk]; rfl)
  have hothers : ∀ j, j ≠ k → (s.socket j).ownsFlag = false := fun j hj => by
    have := h.owner j k
    grind
  have hgen : ∀ j, j ≠ k → (s.socket j).generation = none := fun j hj =>
    generation_of_not_ownsFlag (hothers j hj)
  obtain ⟨flag, owner, current, sleeping, older, committed⟩ := h
  constructor <;> grind [Socket.ownsFlag, Socket.generation, Teardown.committed]

omit [DecidableEq ι] in
/-- With the generation unchanged and nobody between swap and bump, no socket
holds the flag when the check passes. -/
theorem Inv.unowned {s : State ι} (h : Inv s) {k : ι} (hk : s.teardown k = .sleeping s.attachGeneration)
    (hcalm : ∀ j, s.socket j ≠ .swapped) (j : ι) : (s.socket j).ownsFlag = false := by
  have hcur := h.current j
  have hold := h.older k _ hk j
  have hne := hcalm j
  cases hj : s.socket j with
  | attached g => exact absurd (hold g (by rw [hj]; rfl)) (by rw [hcur g (by rw [hj]; rfl)]; omega)
  | closing g => exact absurd (hold g (by rw [hj]; rfl)) (by rw [hcur g (by rw [hj]; rfl)]; omega)
  | swapped => exact absurd hj hne
  | _ => rfl

theorem inv_wake {s : State ι} (h : Inv s) {k : ι} (hk : s.teardown k = .sleeping s.attachGeneration)
    (hcalm : ∀ j, s.socket j ≠ .swapped) : Inv (s.setTeardown k .closingServers) := by
  have hnone := h.unowned hk hcalm
  obtain ⟨flag, owner, current, sleeping, older, committed⟩ := h
  constructor <;> grind

theorem inv_step (s : State ι) (a : Action ι) (h : Inv s)
    (ha : ((machine ι).restrict Careful).enabled s a) : Inv (next s a) := by
  obtain ⟨hen, hok⟩ := ha
  cases a with
  | authenticate k =>
    exact h.setSocket k (by simp [Socket.ownsFlag]) (.inl rfl)
  | swap k =>
    simp only [next]
    split_ifs with hc
    · exact h.setSocket k (by simp [Socket.ownsFlag]) (.inl rfl)
    · exact inv_swap h (by simpa using hc) hok
  | bump k => exact inv_bump h hen
  | loopEnd k g =>
    have hk : s.socket k = .attached g := hen
    exact h.setSocket k (by simp [hk, Socket.ownsFlag]) (.inr (by rw [hk]; rfl))
  | release k g => exact inv_release h hen
  | wake k g =>
    have hk : s.teardown k = .sleeping g := hen
    simp only [next]
    split_ifs with hg
    · exact h.setTeardown k (by simp) (by simp [Teardown.committed])
    · exact inv_wake h (by rw [hk, not_not.mp hg]) hok
  | serversClosed k =>
    have hk : s.teardown k = .closingServers := hen
    exact h.setTeardown k (by simp) (by simp [hk, Teardown.committed])
  | forgotten k =>
    have hk : s.teardown k = .forgetting := hen
    obtain ⟨flag, owner, current, sleeping, older, committed⟩ :=
      h.setTeardown k (x := .deleting) (by simp) (by simp [hk, Teardown.committed])
    exact ⟨flag, owner, current, sleeping, older, committed⟩
  | deleted k => exact h.setTeardown k (by simp) (by simp [Teardown.committed])

/-- In every run whose steps are careful, `destroy` never runs under a socket. -/
theorem destroy_spares_attached {s : State ι}
    (h : ((machine ι).restrict Careful).Reaches (init ι) s) (k j : ι)
    (hd : (s.teardown k).destroying = true) : (s.socket j).inUse = false := by
  have hinv : Inv s := h.invariant inv_step inv_init
  have hown := hinv.committed k (destroying_committed hd) j
  cases hu : (s.socket j).inUse with
  | false => rfl
  | true => exact absurd (inUse_ownsFlag hu) (by simp [hown])

/-- A first socket comes and goes, and its teardown runs through. -/
def quietTeardown : List (Action (Fin 2)) :=
  [.authenticate 0, .swap 0, .bump 0, .loopEnd 0 1, .release 0 1, .wake 0 1, .serversClosed 0]

/-- A second socket attaches while the first one's teardown closes the language servers. -/
def lateReconnect : List (Action (Fin 2)) :=
  [.authenticate 0, .swap 0, .bump 0, .loopEnd 0 1, .release 0 1, .wake 0 1,
    .authenticate 1, .swap 1, .bump 1, .serversClosed 0]

instance [Fintype ι] : DecidableRel (Careful (ι := ι)) := fun s a => by
  cases a <;> simp only [Careful] <;> infer_instance

theorem destroy_spares_attached_quiet :
    ∃ s, ((machine (Fin 2)).restrict Careful).Reaches (init (Fin 2)) s ∧
      (s.teardown 0).destroying = true ∧ (s.socket 1).inUse = false := by
  obtain ⟨s, hs, hp⟩ := Machine.exists_reaches_of_exec
    (M := (machine (Fin 2)).restrict Careful) (s := init (Fin 2)) (l := quietTeardown)
    (p := fun s => (s.teardown 0).destroying) (by decide)
  exact ⟨s, hs, hp, destroy_spares_attached hs 0 1 hp⟩

/-- `destroy` runs under a socket that came back in between. -/
theorem destroy_under_late_reconnect :
    ∃ s, (machine (Fin 2)).Reaches (init (Fin 2)) s ∧
      (s.teardown 0).destroying = true ∧ (s.socket 1).inUse = true := by
  obtain ⟨s, hs, hp⟩ := Machine.exists_reaches_of_exec
    (M := machine (Fin 2)) (s := init (Fin 2)) (l := lateReconnect)
    (p := fun s => (s.teardown 0).destroying && (s.socket 1).inUse) (by decide)
  rw [Bool.and_eq_true] at hp
  exact ⟨s, hs, hp⟩

end Atomis.SessionTeardown
