import Atomis.Lib.Machine
import Mathlib.Data.Fintype.Basic
import Mathlib.Logic.Function.Basic

/-!
# One language server at a time

`LspRegistry` and `LspProxy` of `ws/lsp.rs`, for one session and language, with
every proxy the registry ever makes for them, the servers these start and the
exit watchers. A step is what a task does between two await points. A start that
finds the state lock free runs through from the spawn to its last store; else it
waits at one of the locks, and the step says at which.
-/

namespace Atomis.LspProxy

inductive Start
  | fails
  | afterSpawn
  | afterStdin
  | whole
deriving DecidableEq

/-- What became of the start that spawned a server: its two stores, then its exit
watcher, which waits for the child it found in the proxy. -/
inductive Task
  | spawned
  | stdinStored
  | watching
  | waiting (child : ℕ)
  | finished
deriving DecidableEq

inductive Socket
  | idle
  | found (proxy : ℕ)
  | attached
deriving DecidableEq

structure Process where
  owner : ℕ
  alive : Bool
  asked : Bool
  late : Bool
  task : Task

/-- `ProxyState`. `writing` is `close` waiting in a write with the lock held. -/
structure Proxy where
  childStdin : Option ℕ
  childPid : Option ℕ
  child : Option ℕ
  restarts : ℕ
  closing : Bool
  writing : Bool
  removed : Bool

def Proxy.new : Proxy := ⟨none, none, none, 0, false, false, false⟩

structure State where
  registry : Option ℕ
  made : ℕ
  proxy : ℕ → Proxy
  born : ℕ
  process : ℕ → Process
  socket : ℕ → Socket

def init : State :=
  ⟨none, 0, fun _ => .new, 0, fun _ => ⟨0, false, false, false, .finished⟩, fun _ => .idle⟩

def State.modifyProxy (s : State) (i : ℕ) (f : Proxy → Proxy) : State :=
  { s with proxy := Function.update s.proxy i (f (s.proxy i)) }

def State.modifyProcess (s : State) (p : ℕ) (f : Process → Process) : State :=
  { s with process := Function.update s.process p (f (s.process p)) }

def State.setSocket (s : State) (k : ℕ) (x : Socket) : State :=
  { s with socket := Function.update s.socket k x }

/-- `late` notes that the proxy was closing when it started the server. -/
def State.spawn (s : State) (i : ℕ) : State :=
  { s with
    born := s.born + 1
    process := Function.update s.process s.born ⟨i, true, false, (s.proxy i).closing, .spawned⟩ }

def State.ask (s : State) : Option ℕ → State
  | none => s
  | some p => s.modifyProcess p ({ · with asked := true })

def State.storeStdin (s : State) (p : ℕ) : State :=
  (s.modifyProxy (s.process p).owner ({ · with childStdin := some p })).modifyProcess p
    ({ · with task := .stdinStored })

/-- A child still in the proxy is dropped here, and killed with it. -/
def State.storeChild (s : State) (p : ℕ) : State :=
  ((s.ask (s.proxy (s.process p).owner).child).modifyProxy (s.process p).owner
    ({ · with childPid := some p, child := some p })).modifyProcess p ({ · with task := .watching })

/-- `start_impl`. -/
def State.start (s : State) (i : ℕ) : Start → State
  | .fails => s
  | .afterSpawn => s.spawn i
  | .afterStdin => (s.spawn i).storeStdin s.born
  | .whole => ((s.spawn i).storeStdin s.born).storeChild s.born

def State.needsStart (s : State) (i : ℕ) : Prop :=
  (s.proxy i).child = none ∧ (s.proxy i).childStdin = none

instance (s : State) (i : ℕ) : Decidable (s.needsStart i) :=
  inferInstanceAs (Decidable (_ ∧ _))

/-- The tail of `close`, once its writes are through. -/
def State.terminate (s : State) (i : ℕ) : State :=
  (((s.ask (s.proxy i).childStdin).ask (s.proxy i).child).ask (s.proxy i).childPid).modifyProxy i
    ({ · with childStdin := none, child := none, writing := false })

/-- What an exit watcher does once its child is reaped. -/
def State.cleanUp (s : State) (i : ℕ) (start : Start) : State :=
  let t := s.modifyProxy i ({ · with childStdin := none, childPid := none })
  if (s.proxy i).closing then t
  else
    let t := t.modifyProxy i fun x => { x with restarts := x.restarts + 1 }
    if (s.proxy i).restarts = 0 then t.start i start else t

inductive Action
  | lookup (k : ℕ)
  | attach (k i : ℕ) (start : Start)
  | storeStdin (p : ℕ)
  | storeChild (p : ℕ)
  | takeChild (p : ℕ)
  | exit (p : ℕ)
  | reap (p child : ℕ) (start : Start)
  | remove (i : ℕ)
  | close (i : ℕ) (waits : Bool)
  | finishClose (i : ℕ)

def State.unlocked (s : State) (p : ℕ) : Prop := (s.proxy (s.process p).owner).writing = false

instance (s : State) (p : ℕ) : Decidable (s.unlocked p) := inferInstanceAs (Decidable (_ = _))

def enabled (s : State) : Action → Prop
  | .lookup k => s.socket k = .idle
  | .attach k i _ => s.socket k = .found i ∧ (s.proxy i).writing = false
  | .storeStdin p => p < s.born ∧ (s.process p).task = .spawned ∧ s.unlocked p
  | .storeChild p => p < s.born ∧ (s.process p).task = .stdinStored ∧ s.unlocked p
  | .takeChild p => p < s.born ∧ (s.process p).task = .watching ∧ s.unlocked p
  | .exit p => p < s.born
  | .reap p q _ => p < s.born ∧ (s.process p).task = .waiting q ∧
      (s.process q).alive = false ∧ s.unlocked p
  | .remove i => s.registry = some i
  | .close i waits => (s.proxy i).removed = true ∧ (s.proxy i).closing = false ∧
      (waits = true → (s.proxy i).childStdin.isSome = true)
  | .finishClose i => (s.proxy i).writing = true

def next (s : State) : Action → State
  | .lookup k =>
    match s.registry with
    | some i => s.setSocket k (.found i)
    | none => { (s.modifyProxy s.made fun _ => .new).setSocket k (.found s.made) with
        registry := some s.made, made := s.made + 1 }
  | .attach k i start =>
    let t := s.setSocket k .attached
    if s.needsStart i then t.start i start else t
  | .storeStdin p => s.storeStdin p
  | .storeChild p => s.storeChild p
  | .takeChild p =>
    let i := (s.process p).owner
    (s.modifyProxy i ({ · with child := none })).modifyProcess p
      ({ · with task := match (s.proxy i).child with | some q => .waiting q | none => .finished })
  | .exit p => s.modifyProcess p ({ · with alive := false })
  | .reap p _ start =>
    (s.modifyProcess p ({ · with task := .finished })).cleanUp (s.process p).owner start
  | .remove i =>
    { s.modifyProxy i ({ · with removed := true }) with registry := none }
  | .close i waits =>
    let t := s.modifyProxy i ({ · with closing := true, writing := true })
    if waits then t else t.terminate i
  | .finishClose i => s.terminate i

def machine : Machine State Action := ⟨enabled, next⟩

instance : DecidableRel machine.enabled := fun s a => by
  cases a <;> simp only [machine, enabled] <;> infer_instance

def State.running (s : State) (p : ℕ) : Bool := (s.process p).alive && !(s.process p).asked

/-- One server that was not asked to stop, its handles in its proxy, and none started by a
proxy that is closing. -/
structure Sound (s : State) : Prop where
  one : ∀ p < s.born, ∀ q < s.born, s.running p = true → s.running q = true → p = q
  held : ∀ p < s.born, (s.process p).alive = true → (s.proxy (s.process p).owner).closing = false →
    (s.proxy (s.process p).owner).childStdin = some p ∧
      (s.proxy (s.process p).owner).childPid = some p
  timely : ∀ p < s.born, (s.process p).late = false

/-! ## When the servers are sound -/

/-- A start that spawns a server runs through, its proxy is not closing and no other proxy
has a server that was not asked to stop. -/
def MayStart (s : State) (i : ℕ) : Start → Prop
  | .fails => True
  | .whole => (s.proxy i).closing = false ∧
      ∀ p < s.born, s.running p = true → (s.process p).owner = i
  | _ => False

def Careful (s : State) : Action → Prop
  | .attach _ i start => s.needsStart i → MayStart s i start
  | .reap p _ start =>
    (s.proxy (s.process p).owner).closing = false → (s.proxy (s.process p).owner).restarts = 0 →
      MayStart s (s.process p).owner start
  | _ => True

instance (s : State) (i : ℕ) (start : Start) : Decidable (MayStart s i start) := by
  cases start <;> simp only [MayStart] <;> infer_instance

instance : DecidableRel Careful := fun s a => by
  cases a <;> simp only [Careful] <;> infer_instance

/-- `close` has not got to its end. -/
def Proxy.isOpen (x : Proxy) : Bool := !x.closing || x.writing

structure Inv (s : State) : Prop where
  registered : ∀ i, s.registry = some i → i < s.made
  found : ∀ k i, s.socket k = .found i → i < s.made
  owner : ∀ p < s.born, (s.process p).owner < s.made
  locked : ∀ i, (s.proxy i).writing = true → (s.proxy i).closing = true
  stdin : ∀ i p, (s.proxy i).childStdin = some p → p < s.born ∧ (s.process p).owner = i
  pid : ∀ i p, (s.proxy i).childPid = some p → p < s.born ∧ (s.process p).owner = i
  child : ∀ i p, (s.proxy i).child = some p →
    p < s.born ∧ (s.process p).owner = i ∧ (s.proxy i).isOpen = true ∧
      (s.process p).task = .watching
  stored : ∀ p < s.born, (s.process p).task ≠ .spawned ∧ (s.process p).task ≠ .stdinStored
  watching : ∀ p < s.born, (s.process p).task = .watching →
    (s.proxy (s.process p).owner).isOpen = true →
    (s.proxy (s.process p).owner).child = some p ∧
      (s.proxy (s.process p).owner).childStdin = some p
  waiting : ∀ p < s.born, ∀ q, (s.process p).task = .waiting q → q = p ∧
    ((s.proxy (s.process p).owner).isOpen = true →
      (s.proxy (s.process p).owner).childStdin = some p)
  running : ∀ p < s.born, s.running p = true →
    (s.proxy (s.process p).owner).isOpen = true ∧
      (s.proxy (s.process p).owner).childStdin = some p ∧
      (s.proxy (s.process p).owner).childPid = some p
  asked : ∀ p < s.born, (s.process p).asked = true →
    (s.proxy (s.process p).owner).closing = true
  one : ∀ p < s.born, ∀ q < s.born, s.running p = true → s.running q = true → p = q
  timely : ∀ p < s.born, (s.process p).late = false

theorem inv_init : Inv init := by
  constructor <;> simp [init, Proxy.new]

theorem Inv.sound {s : State} (h : Inv s) : Sound s := by
  refine ⟨h.one, fun p hp halive hopen => ?_, h.timely⟩
  have hasked : (s.process p).asked = false := by
    by_contra hne
    simp [h.asked p hp (by simpa using hne)] at hopen
  exact (h.running p hp (by simp [State.running, halive, hasked])).2

/-- What `storeStdin` and `storeChild` make of a proxy without a child. -/
theorem start_whole {s : State} {i : ℕ} (h : (s.proxy i).child = none) :
    s.start i .whole =
      { s with
        born := s.born + 1
        process := Function.update s.process s.born
          ⟨i, true, false, (s.proxy i).closing, .watching⟩
        proxy := Function.update s.proxy i
          { s.proxy i with
            childStdin := some s.born, childPid := some s.born, child := some s.born } } := by
  simp [State.start, State.spawn, State.storeStdin, State.storeChild, State.ask,
    State.modifyProxy, State.modifyProcess, h]

/-! ## A proxy and its processes -/

/-- What the handles of a proxy name. -/
structure Proxy.Holds (x : Proxy) (s : State) (i : ℕ) : Prop where
  locked : x.writing = true → x.closing = true
  stdin : ∀ p, x.childStdin = some p → p < s.born ∧ (s.process p).owner = i
  pid : ∀ p, x.childPid = some p → p < s.born ∧ (s.process p).owner = i
  child : ∀ p, x.child = some p → p < s.born ∧ (s.process p).owner = i ∧ x.isOpen = true ∧
    (s.process p).task = .watching

/-- What a process and its proxy say of each other. -/
structure Process.Tied (c : Process) (x : Proxy) (p : ℕ) : Prop where
  stored : c.task ≠ .spawned ∧ c.task ≠ .stdinStored
  watching : c.task = .watching → x.isOpen = true → x.child = some p ∧ x.childStdin = some p
  waiting : ∀ q, c.task = .waiting q → q = p ∧ (x.isOpen = true → x.childStdin = some p)
  running : (c.alive && !c.asked) = true →
    x.isOpen = true ∧ x.childStdin = some p ∧ x.childPid = some p
  asked : c.asked = true → x.closing = true
  timely : c.late = false

theorem Inv.holds {s : State} (h : Inv s) (i : ℕ) : (s.proxy i).Holds s i :=
  ⟨h.locked i, h.stdin i, h.pid i, h.child i⟩

theorem Inv.tied {s : State} (h : Inv s) {p : ℕ} (hp : p < s.born) :
    (s.process p).Tied (s.proxy (s.process p).owner) p :=
  ⟨h.stored p hp, h.watching p hp, h.waiting p hp, h.running p hp, h.asked p hp, h.timely p hp⟩

theorem Inv.of_tied {s : State} (registered : ∀ i, s.registry = some i → i < s.made)
    (found : ∀ k i, s.socket k = .found i → i < s.made)
    (owner : ∀ p < s.born, (s.process p).owner < s.made)
    (holds : ∀ i, (s.proxy i).Holds s i)
    (tied : ∀ p < s.born, (s.process p).Tied (s.proxy (s.process p).owner) p)
    (one : ∀ p < s.born, ∀ q < s.born, s.running p = true → s.running q = true → p = q) :
    Inv s where
  registered := registered
  found := found
  owner := owner
  locked i := (holds i).locked
  stdin i := (holds i).stdin
  pid i := (holds i).pid
  child i := (holds i).child
  stored p hp := (tied p hp).stored
  watching p hp := (tied p hp).watching
  waiting p hp := (tied p hp).waiting
  running p hp := (tied p hp).running
  asked p hp := (tied p hp).asked
  one := one
  timely p hp := (tied p hp).timely

/-! ## A server is started -/

/-- The proxy `i` with the server that was just started. -/
def State.served (s : State) (i : ℕ) : Proxy :=
  { s.proxy i with childStdin := some s.born, childPid := some s.born, child := some s.born }

def State.started (s : State) (i : ℕ) : State :=
  { s with
    born := s.born + 1
    process := Function.update s.process s.born ⟨i, true, false, (s.proxy i).closing, .watching⟩
    proxy := Function.update s.proxy i (s.served i) }

section
variable {s : State} {i j p : ℕ}

theorem started_proxy : (s.started i).proxy i = s.served i := Function.update_self ..

theorem started_proxy_of_ne (h : j ≠ i) : (s.started i).proxy j = s.proxy j :=
  Function.update_of_ne h ..

theorem started_born :
    (s.started i).process s.born = ⟨i, true, false, (s.proxy i).closing, .watching⟩ :=
  Function.update_self ..

theorem started_process (h : p < s.born) : (s.started i).process p = s.process p :=
  Function.update_of_ne (Nat.ne_of_lt h) ..

theorem started_cases (h : p < (s.started i).born) : p < s.born ∨ p = s.born :=
  Nat.lt_succ_iff_lt_or_eq.mp h

theorem served_isOpen (h : (s.proxy i).closing = false) : (s.served i).isOpen = true := by
  simp [State.served, Proxy.isOpen, h]

theorem Inv.holds_started (h : Inv s) (hclosing : (s.proxy i).closing = false) (j : ℕ) :
    ((s.started i).proxy j).Holds (s.started i) j := by
  by_cases hj : j = i
  · subst hj
    rw [started_proxy]
    have hself : ∀ p, some s.born = some p → p < s.born + 1 ∧
        ((s.started j).process p).owner = j := fun p hp => by
      obtain rfl := Option.some.inj hp
      rw [started_born]
      exact ⟨Nat.lt_succ_self _, rfl⟩
    refine ⟨h.locked j, hself, hself, fun p hp => ?_⟩
    refine ⟨(hself p hp).1, (hself p hp).2, served_isOpen hclosing, ?_⟩
    obtain rfl := Option.some.inj hp
    rw [started_born]
  · rw [started_proxy_of_ne hj]
    have hs := h.holds j
    refine ⟨hs.locked, fun p hp => ?_, fun p hp => ?_, fun p hp => ?_⟩
    · obtain ⟨hlt, howner⟩ := hs.stdin p hp
      exact ⟨Nat.lt_succ_of_lt hlt, by rwa [started_process hlt]⟩
    · obtain ⟨hlt, howner⟩ := hs.pid p hp
      exact ⟨Nat.lt_succ_of_lt hlt, by rwa [started_process hlt]⟩
    · obtain ⟨hlt, hrest⟩ := hs.child p hp
      exact ⟨Nat.lt_succ_of_lt hlt, by rwa [started_process hlt]⟩

/-- A proxy without a handle knows none of its earlier processes. -/
theorem Inv.tied_started (h : Inv s) (hstdin : (s.proxy i).childStdin = none)
    (hclosing : (s.proxy i).closing = false) (hnone : ∀ p < s.born, ¬ s.running p = true)
    (hp : p < (s.started i).born) :
    ((s.started i).process p).Tied ((s.started i).proxy ((s.started i).process p).owner) p := by
  rcases started_cases hp with hp | rfl
  · rw [started_process hp]
    have ht := h.tied hp
    by_cases howner : (s.process p).owner = i
    · rw [howner] at ht ⊢
      rw [started_proxy]
      have hforgot {P : Prop} (hheld : (s.proxy i).childStdin = some p) : P := by
        rw [hstdin] at hheld
        cases hheld
      exact ⟨ht.stored, fun hw ho => hforgot (ht.watching hw ho).2,
        fun q hq => ⟨(ht.waiting q hq).1, fun ho => hforgot ((ht.waiting q hq).2 ho)⟩,
        fun hr => absurd hr (hnone p hp), ht.asked, ht.timely⟩
    · rwa [started_proxy_of_ne howner]
  · rw [started_born, started_proxy]
    exact ⟨by simp, fun _ _ => ⟨rfl, rfl⟩, nofun, fun _ => ⟨served_isOpen hclosing, rfl, rfl⟩,
      nofun, hclosing⟩

theorem Inv.start (h : Inv s) (hi : i < s.made) (hneeds : s.needsStart i) {start : Start}
    (hmay : MayStart s i start) : Inv (s.start i start) := by
  cases start with
  | fails => exact h
  | afterSpawn => exact hmay.elim
  | afterStdin => exact hmay.elim
  | whole =>
    obtain ⟨hclosing, hothers⟩ := hmay
    obtain ⟨hchild, hstdin⟩ := hneeds
    have hnone : ∀ p < s.born, ¬ s.running p = true := fun p hp hr => by
      have hheld := (h.running p hp hr).2.1
      rw [hothers p hp hr, hstdin] at hheld
      cases hheld
    have hlast : ∀ p < (s.started i).born, (s.started i).running p = true → p = s.born :=
      fun p hp hr => by
        rcases started_cases hp with hp | rfl
        · rw [State.running, started_process hp] at hr
          exact absurd hr (hnone p hp)
        · rfl
    rw [start_whole hchild]
    refine Inv.of_tied h.registered h.found (fun p hp => ?_) (h.holds_started hclosing)
      (fun p hp => h.tied_started hstdin hclosing hnone hp)
      fun p hp q hq hrp hrq => (hlast p hp hrp).trans (hlast q hq hrq).symm
    rcases started_cases hp with hp | rfl
    · exact (started_process hp).symm ▸ h.owner p hp
    · exact started_born.symm ▸ hi

end

/-! ## Steps of one proxy -/

/-- `t` is `s` but for the proxy `i` and the tasks and lives of its processes, none of which
comes to life again. -/
structure OnlyAt (i : ℕ) (s t : State) : Prop where
  registry : t.registry = s.registry ∨ t.registry = none
  made : t.made = s.made
  born : t.born = s.born
  socket : t.socket = s.socket
  proxy : ∀ j ≠ i, t.proxy j = s.proxy j
  process : ∀ p, (s.process p).owner ≠ i → t.process p = s.process p
  owner : ∀ p, (t.process p).owner = (s.process p).owner
  running : ∀ p, t.running p = true → s.running p = true

/-- What a step of one proxy has to keep. -/
theorem Inv.onlyAt {s t : State} (h : Inv s) {i : ℕ} (ht : OnlyAt i s t)
    (hholds : (t.proxy i).Holds t i)
    (htied : ∀ p < s.born, (s.process p).owner = i → (t.process p).Tied (t.proxy i) p) :
    Inv t := by
  have hall : ∀ p < t.born, (t.process p).Tied (t.proxy (t.process p).owner) p := fun p hp => by
    rw [ht.owner]
    rw [ht.born] at hp
    by_cases hi : (s.process p).owner = i
    · rw [hi]
      exact htied p hp hi
    · rw [ht.proxy _ hi, ht.process p hi]
      exact h.tied hp
  have hhandles : ∀ j, (t.proxy j).Holds t j := fun j => by
    by_cases hj : j = i
    · rw [hj]
      exact hholds
    · rw [ht.proxy j hj]
      have hs := h.holds j
      refine ⟨hs.locked, fun p hp => ?_, fun p hp => ?_, fun p hp => ?_⟩
      · rw [ht.born, ht.owner]
        exact hs.stdin p hp
      · rw [ht.born, ht.owner]
        exact hs.pid p hp
      · obtain ⟨hlt, howner, hrest⟩ := hs.child p hp
        rw [ht.born, ht.process p (howner.trans_ne hj)]
        exact ⟨hlt, howner, hrest⟩
  refine .of_tied (fun j hj => ?_) (fun k j hj => ?_) (fun p hp => ?_) hhandles hall
    fun p hp q hq hrp hrq => ?_
  · rw [ht.made]
    rcases ht.registry with hsame | hnone
    · exact h.registered j (hsame ▸ hj)
    · rw [hnone] at hj
      cases hj
  · rw [ht.socket] at hj
    rw [ht.made]
    exact h.found k j hj
  · rw [ht.owner, ht.made]
    exact h.owner p (ht.born ▸ hp)
  · exact h.one p (ht.born ▸ hp) q (ht.born ▸ hq) (ht.running p hrp) (ht.running q hrq)

/-- A step that leaves the processes alone. -/
theorem OnlyAt.modifyProxy (s : State) (i : ℕ) (f : Proxy → Proxy) :
    OnlyAt i s (s.modifyProxy i f) where
  registry := .inl rfl
  made := rfl
  born := rfl
  socket := rfl
  proxy := fun _ hj => Function.update_of_ne hj _ _
  process := fun _ _ => rfl
  owner := fun _ => rfl
  running := fun _ => id

section
variable (s : State) (p : ℕ) (f : Proxy → Proxy) (g : Process → Process)

/-- A step of a process on itself and its proxy. -/
def State.modify : State := (s.modifyProxy (s.process p).owner f).modifyProcess p g

theorem modify_proxy :
    (s.modify p f g).proxy (s.process p).owner = f (s.proxy (s.process p).owner) :=
  Function.update_self ..

theorem modify_process : (s.modify p f g).process p = g (s.process p) := Function.update_self ..

variable {s p f g}

theorem modify_process_of_ne {q : ℕ} (h : q ≠ p) :
    (s.modify p f g).process q = s.process q := Function.update_of_ne h ..

theorem modify_owner (h : (g (s.process p)).owner = (s.process p).owner) (q : ℕ) :
    ((s.modify p f g).process q).owner = (s.process q).owner := by
  by_cases heq : q = p
  · rw [heq, modify_process, h]
  · rw [modify_process_of_ne heq]

theorem OnlyAt.modify (howner : (g (s.process p)).owner = (s.process p).owner)
    (hrunning : ((g (s.process p)).alive && !(g (s.process p)).asked) = true →
      s.running p = true) : OnlyAt (s.process p).owner s (s.modify p f g) where
  registry := .inl rfl
  made := rfl
  born := rfl
  socket := rfl
  proxy := fun _ hj => Function.update_of_ne hj _ _
  process := fun q hq => modify_process_of_ne fun heq => hq (by rw [heq])
  owner := modify_owner howner
  running := fun q hq => by
    by_cases heq : q = p
    · subst heq
      rw [State.running, modify_process] at hq
      exact hrunning hq
    · rwa [State.running, modify_process_of_ne heq] at hq

/-- What a step of a process has to keep: what the handles say of the processes, and what
the process and its kin say of the handles. -/
theorem Inv.modify (h : Inv s) (howner : (g (s.process p)).owner = (s.process p).owner)
    (hrunning : ((g (s.process p)).alive && !(g (s.process p)).asked) = true →
      s.running p = true)
    (hholds : (s.proxy (s.process p).owner).Holds s (s.process p).owner →
      (f (s.proxy (s.process p).owner)).Holds (s.modify p f g) (s.process p).owner)
    (htied : (s.process p).Tied (s.proxy (s.process p).owner) p →
      (g (s.process p)).Tied (f (s.proxy (s.process p).owner)) p)
    (hothers : ∀ q < s.born, q ≠ p → (s.process q).Tied (s.proxy (s.process p).owner) q →
      (s.process q).Tied (f (s.proxy (s.process p).owner)) q) : Inv (s.modify p f g) := by
  refine h.onlyAt (OnlyAt.modify howner hrunning) ?_ fun q hq hkin => ?_
  · rw [modify_proxy]
    exact hholds (h.holds _)
  · have htied' := h.tied hq
    rw [hkin] at htied'
    rw [modify_proxy]
    by_cases heq : q = p
    · subst heq
      rw [modify_process]
      exact htied htied'
    · rw [modify_process_of_ne heq]
      exact hothers q hq heq htied'

end

/-- What `close` asks: every process a handle of the proxy still names. -/
theorem ask_process (s : State) (o : Option ℕ) (p : ℕ) :
    (s.ask o).process p = { s.process p with asked := (s.process p).asked || o = some p } := by
  cases o with
  | none => simp [State.ask]
  | some q =>
    by_cases h : p = q
    · simp [State.ask, State.modifyProcess, h]
    · simp [State.ask, State.modifyProcess, h, Ne.symm h]

theorem ask_eq (s : State) (o : Option ℕ) :
    s.ask o = { s with
      process := fun p => { s.process p with asked := (s.process p).asked || o = some p } } := by
  have h := funext (ask_process s o)
  cases o <;> simp_all [State.ask, State.modifyProcess]

theorem Inv.terminate {s : State} (h : Inv s) {i : ℕ} (hi : (s.proxy i).closing = true) :
    Inv (s.terminate i) := by
  have hhandle : ∀ p, (s.proxy i).childStdin = some p ∨ (s.proxy i).child = some p ∨
      (s.proxy i).childPid = some p → (s.process p).owner = i := by
    rintro p (hp | hp | hp)
    · exact (h.stdin i p hp).2
    · exact (h.child i p hp).2.1
    · exact (h.pid i p hp).2
  have hproxy : (s.terminate i).proxy i =
      { s.proxy i with childStdin := none, child := none, writing := false } := by
    simp [State.terminate, ask_eq, State.modifyProxy]
  have hprocess : ∀ p, (s.terminate i).process p = { s.process p with
      asked := (s.process p).asked || decide ((s.proxy i).childStdin = some p ∨
        (s.proxy i).child = some p ∨ (s.proxy i).childPid = some p) } := fun p => by
    simp [State.terminate, ask_eq, State.modifyProxy, Bool.or_assoc]
  refine h.onlyAt (i := i) ⟨.inl (by simp [State.terminate, ask_eq, State.modifyProxy]),
    by simp [State.terminate, ask_eq, State.modifyProxy],
    by simp [State.terminate, ask_eq, State.modifyProxy],
    by simp [State.terminate, ask_eq, State.modifyProxy], fun j hj => ?_, fun p hp => ?_,
    fun p => by rw [hprocess], fun p hp => ?_⟩ ?_ fun p hp howner => ?_
  · simp [State.terminate, ask_eq, State.modifyProxy, hj]
  · have hnot := mt (hhandle p) hp
    rw [hprocess, decide_eq_false hnot, Bool.or_false]
  · simp only [State.running, hprocess, Bool.not_or, Bool.and_eq_true] at hp ⊢
    exact ⟨hp.1, hp.2.1⟩
  · rw [hproxy]
    have hborn : (s.terminate i).born = s.born := by
      simp [State.terminate, ask_eq, State.modifyProxy]
    refine ⟨nofun, nofun, fun p hp => ?_, nofun⟩
    rw [hborn, hprocess]
    exact h.pid i p hp
  · obtain ⟨stored, -, waiting, running, -, timely⟩ := howner ▸ h.tied hp
    rw [hproxy, hprocess]
    have hopen : ({ s.proxy i with childStdin := none, child := none, writing := false } :
        Proxy).isOpen = false := by simp [Proxy.isOpen, hi]
    refine ⟨stored, fun _ ho => ?_, fun q hq => ⟨(waiting q hq).1, fun ho => ?_⟩, fun hr => ?_,
      fun _ => hi, timely⟩
    · rw [hopen] at ho
      cases ho
    · rw [hopen] at ho
      cases ho
    · -- A process that runs is named by its proxy, so it has been asked.
      simp only [Bool.not_or, Bool.and_eq_true, Bool.not_eq_true', decide_eq_false_iff_not] at hr
      exact absurd (.inl (running (by simp [hr.1, hr.2.1])).2.1) hr.2.2

theorem Inv.setSocket {s : State} (h : Inv s) (k : ℕ) {x : Socket}
    (hx : ∀ i, x = .found i → i < s.made) : Inv (s.setSocket k x) :=
  { h with
    found := fun k' i hi => by
      by_cases heq : k' = k
      · subst heq
        exact hx i (by simpa [State.setSocket] using hi)
      · exact h.found k' i (by simpa [State.setSocket, heq] using hi) }

/-- A new proxy has no server, and no process names it yet. -/
theorem Inv.make {s : State} (h : Inv s) :
    Inv { s.modifyProxy s.made fun _ => .new with registry := some s.made, made := s.made + 1 } := by
  have hproxy {j : ℕ} (hj : j ≠ s.made) :
      (s.modifyProxy s.made fun _ => .new).proxy j = s.proxy j := Function.update_of_ne hj ..
  refine .of_tied (fun j hj => ?_) (fun k j hj => Nat.lt_succ_of_lt (h.found k j hj))
    (fun p hp => Nat.lt_succ_of_lt (h.owner p hp)) (fun j => ?_) (fun p hp => ?_) h.one
  · obtain rfl := Option.some.inj hj
    exact Nat.lt_succ_self _
  · by_cases hj : j = s.made
    · subst hj
      simp only [State.modifyProxy, Function.update_self]
      exact ⟨nofun, nofun, nofun, nofun⟩
    · simp only [hproxy hj]
      obtain ⟨locked, stdin, pid, child⟩ := h.holds j
      exact ⟨locked, stdin, pid, child⟩
  · exact (hproxy (Nat.ne_of_lt (h.owner p hp))).symm ▸ h.tied hp

theorem Inv.lookup {s : State} (h : Inv s) (k : ℕ) : Inv (next s (.lookup k)) := by
  simp only [next]
  split
  next i hi => exact h.setSocket k fun j hj => Socket.found.inj hj ▸ h.registered i hi
  next => exact h.make.setSocket k fun j hj => Socket.found.inj hj ▸ Nat.lt_succ_self _

theorem Inv.takeChild {s : State} (h : Inv s) {p : ℕ} (hp : p < s.born)
    (htask : (s.process p).task = .watching) : Inv (next s (.takeChild p)) := by
  have hwatching := h.watching p hp htask
  refine h.modify rfl id (fun hs => ?_) (fun ht => ?_) fun q _ hne ht => ?_
  · refine ⟨hs.locked, fun q hq => ?_, fun q hq => ?_, nofun⟩
    · rw [modify_owner rfl]
      exact hs.stdin q hq
    · rw [modify_owner rfl]
      exact hs.pid q hq
  · cases hchild : (s.proxy (s.process p).owner).child with
    | none => exact ⟨by simp, nofun, nofun, ht.running, ht.asked, ht.timely⟩
    | some r =>
      have hopen := (h.child _ r hchild).2.2.1
      obtain rfl : p = r := Option.some.inj ((hwatching hopen).1.symm.trans hchild)
      refine ⟨by simp, nofun, fun q hq => ?_, ht.running, ht.asked, ht.timely⟩
      exact ⟨(Task.waiting.inj hq).symm, fun _ => (hwatching hopen).2⟩
  · refine ⟨ht.stored, fun hw ho => ?_, ht.waiting, ht.running, ht.asked, ht.timely⟩
    exact absurd (Option.some.inj ((ht.watching hw ho).1.symm.trans (hwatching ho).1)) hne

theorem Inv.exit {s : State} (h : Inv s) (p : ℕ) : Inv (next s (.exit p)) := by
  have heq : next s (.exit p) = s.modify p id ({ · with alive := false }) := by
    simp [next, State.modify, State.modifyProxy]
  rw [heq]
  have hsame (q : ℕ) : ((s.modify p id ({ · with alive := false })).process q).task =
      (s.process q).task := by
    by_cases hq : q = p
    · rw [hq, modify_process]
    · rw [modify_process_of_ne hq]
  refine h.modify rfl nofun (fun hs => ?_) (fun ht => ?_) fun q _ _ ht => ht
  · refine ⟨hs.locked, fun q hq => ?_, fun q hq => ?_, fun q hq => ?_⟩
    · rw [modify_owner rfl]
      exact hs.stdin q hq
    · rw [modify_owner rfl]
      exact hs.pid q hq
    · rw [modify_owner rfl, hsame]
      exact hs.child q hq
  · exact ⟨ht.stored, ht.watching, ht.waiting, nofun, ht.asked, ht.timely⟩

/-- A proxy that is marked, and keeps its handles, keeps what holds of them. -/
theorem Inv.mark {s : State} (h : Inv s) (i : ℕ) {x : Proxy}
    (hstdin : x.childStdin = (s.proxy i).childStdin) (hpid : x.childPid = (s.proxy i).childPid)
    (hchild : x.child = (s.proxy i).child) (hopen : x.isOpen = (s.proxy i).isOpen)
    (hlocked : x.writing = true → x.closing = true)
    (hclosing : (s.proxy i).closing = true → x.closing = true) :
    Inv (s.modifyProxy i fun _ => x) := by
  have hproxy : (s.modifyProxy i fun _ => x).proxy i = x := Function.update_self ..
  refine h.onlyAt (OnlyAt.modifyProxy s i _) ?_ fun p hp howner => ?_
  · have hs := h.holds i
    rw [hproxy]
    refine ⟨hlocked, ?_, ?_, ?_⟩
    · rw [hstdin]
      exact hs.stdin
    · rw [hpid]
      exact hs.pid
    · rw [hchild, hopen]
      exact hs.child
  · obtain ⟨stored, watching, waiting, running, asked, timely⟩ := howner ▸ h.tied hp
    rw [hproxy]
    refine ⟨stored, ?_, ?_, ?_, fun ha => hclosing (asked ha), timely⟩
    · rw [hopen, hchild, hstdin]
      exact watching
    · rw [hopen, hstdin]
      exact waiting
    · rw [hopen, hstdin, hpid]
      exact running

theorem Inv.remove {s : State} (h : Inv s) (i : ℕ) : Inv (next s (.remove i)) := by
  have hmarked := h.mark i (x := { s.proxy i with removed := true }) rfl rfl rfl rfl (h.locked i) id
  exact { hmarked with registered := nofun }

theorem Inv.close {s : State} (h : Inv s) {i : ℕ} (hi : (s.proxy i).closing = false)
    (waits : Bool) : Inv (next s (.close i waits)) := by
  have hopen : (s.proxy i).isOpen = true := by simp [Proxy.isOpen, hi]
  have hwriting : Inv (s.modifyProxy i ({ · with closing := true, writing := true })) :=
    h.mark i (x := { s.proxy i with closing := true, writing := true }) rfl rfl rfl
      (by rw [hopen]; rfl) (fun _ => rfl) fun _ => rfl
  simp only [next]
  split_ifs
  · exact hwriting
  · exact hwriting.terminate (by simp [State.modifyProxy])

/-- The state after the watcher of `p` let go of the handles. -/
def State.letGo (s : State) (p n : ℕ) : State :=
  { s with
    process := Function.update s.process p { s.process p with task := .finished }
    proxy := Function.update s.proxy (s.process p).owner
      { s.proxy (s.process p).owner with childStdin := none, childPid := none, restarts := n } }

theorem next_reap (s : State) (p q : ℕ) (start : Start) :
    next s (.reap p q start) =
      if (s.proxy (s.process p).owner).closing then
        s.letGo p (s.proxy (s.process p).owner).restarts
      else if (s.proxy (s.process p).owner).restarts = 0 then
        (s.letGo p 1).start (s.process p).owner start
      else s.letGo p ((s.proxy (s.process p).owner).restarts + 1) := by
  simp only [next, State.cleanUp, State.modifyProcess, State.modifyProxy, State.letGo]
  split_ifs <;> simp_all

theorem Inv.letGo {s : State} (h : Inv s) {p : ℕ} (hp : p < s.born) {q : ℕ}
    (htask : (s.process p).task = .waiting q) (hdead : (s.process q).alive = false) (n : ℕ) :
    Inv (s.letGo p n) := by
  obtain ⟨rfl, hstdin⟩ := h.waiting p hp q htask
  refine h.modify (f := ({ · with childStdin := none, childPid := none, restarts := n }))
    (g := ({ · with task := .finished })) rfl id (fun hs => ?_) (fun ht => ?_) fun r _ hne ht => ?_
  · refine ⟨hs.locked, nofun, nofun, fun r hr => ?_⟩
    obtain ⟨hlt, howner, hopen, hwatch⟩ := hs.child r hr
    have hne : r ≠ q := fun heq => by
      rw [heq, htask] at hwatch
      cases hwatch
    rw [modify_process_of_ne hne]
    exact ⟨hlt, howner, hopen, hwatch⟩
  · refine ⟨by simp, nofun, nofun, fun hr => ?_, ht.asked, ht.timely⟩
    simp [hdead] at hr
  · -- While its proxy is open, `q` is the only one whose stdin the proxy holds.
    have hother {P : Prop} (ho : (s.proxy (s.process q).owner).isOpen = true)
        (hr : (s.proxy (s.process q).owner).childStdin = some r) : P :=
      absurd (Option.some.inj (hr.symm.trans (hstdin ho))) hne
    refine ⟨ht.stored, fun hw ho => hother ho (ht.watching hw ho).2, fun x hx => ?_, fun hr => ?_,
      ht.asked, ht.timely⟩
    · exact ⟨(ht.waiting x hx).1, fun ho => hother ho ((ht.waiting x hx).2 ho)⟩
    · exact hother (ht.running hr).1 (ht.running hr).2.1

/-- With its server gone a proxy has neither child nor stdin. -/
theorem Inv.needsStart_letGo {s : State} (h : Inv s) {p q : ℕ} (hp : p < s.born)
    (htask : (s.process p).task = .waiting q) (n : ℕ) :
    (s.letGo p n).needsStart (s.process p).owner := by
  refine ⟨?_, by simp [State.letGo]⟩
  cases hc : (s.proxy (s.process p).owner).child with
  | none => simp [State.letGo, hc]
  | some r =>
    obtain ⟨hr, howner, hopen, hwatch⟩ := h.child _ _ hc
    have hstdin := (h.watching r hr hwatch (by rw [howner]; exact hopen)).2
    rw [howner, ((h.waiting p hp q htask).2 hopen)] at hstdin
    simp_all

theorem mayStart_letGo (s : State) (p n i : ℕ) (start : Start) :
    MayStart (s.letGo p n) i start ↔ MayStart s i start := by
  have hclosing : ((s.letGo p n).proxy i).closing = (s.proxy i).closing := by
    by_cases h : i = (s.process p).owner <;> simp [State.letGo, h]
  have hprocess : ∀ r, ((s.letGo p n).process r).owner = (s.process r).owner ∧
      (s.letGo p n).running r = s.running r := fun r => by
    by_cases h : r = p <;> simp [State.letGo, State.running, h]
  have hborn : (s.letGo p n).born = s.born := rfl
  cases start <;> simp [MayStart, hclosing, hprocess, hborn]

theorem mayStart_setSocket (s : State) (k i : ℕ) (start : Start) :
    MayStart (s.setSocket k .attached) i start ↔ MayStart s i start := by
  cases start <;> exact Iff.rfl

theorem Inv.reap {s : State} (h : Inv s) {p q : ℕ} {start : Start}
    (ha : machine.enabled s (.reap p q start)) (hok : Careful s (.reap p q start)) :
    Inv (next s (.reap p q start)) := by
  obtain ⟨hp, htask, hdead, -⟩ := ha
  rw [next_reap]
  split_ifs with hclosing hrestarts
  · exact h.letGo hp htask hdead _
  · exact (h.letGo hp htask hdead 1).start (h.owner p hp) (h.needsStart_letGo hp htask 1)
      ((mayStart_letGo s p 1 _ start).mpr (hok (by simpa using hclosing) hrestarts))
  · exact h.letGo hp htask hdead _

theorem Inv.setAttached {s : State} (h : Inv s) (k : ℕ) : Inv (s.setSocket k .attached) :=
  h.setSocket k fun _ hx => by cases hx

theorem Inv.attach {s : State} (h : Inv s) {k i : ℕ} {start : Start}
    (ha : machine.enabled s (.attach k i start)) (hok : Careful s (.attach k i start)) :
    Inv (next s (.attach k i start)) := by
  simp only [next]
  split_ifs with hneeds
  · exact (h.setAttached k).start (h.found k i ha.1) hneeds
      ((mayStart_setSocket s k i start).mpr (hok hneeds))
  · exact h.setAttached k

theorem inv_step (s : State) (a : Action) (h : Inv s)
    (ha : (machine.restrict Careful).enabled s a) : Inv (next s a) := by
  obtain ⟨hen, hok⟩ := ha
  cases a with
  | lookup k => exact h.lookup k
  | attach k i start => exact h.attach hen hok
  | storeStdin p => exact absurd hen.2.1 (h.stored p hen.1).1
  | storeChild p => exact absurd hen.2.1 (h.stored p hen.1).2
  | takeChild p => exact h.takeChild hen.1 hen.2.1
  | exit p => exact h.exit p
  | reap p q start => exact h.reap hen hok
  | remove i => exact h.remove i
  | close i waits => exact h.close hen.2.1 waits
  | finishClose i => exact h.terminate (h.locked i hen)

/-! ## Where a careless start leads -/

theorem not_sound_of_late {s : State} {i : ℕ} {start : Start} (hstart : start ≠ .fails)
    (hchild : (s.proxy i).child = none) (hclosing : (s.proxy i).closing = true) :
    ¬ Sound (s.start i start) := by
  intro hsound
  have hlate := hsound.timely s.born
  cases start with
  | fails => exact hstart rfl
  | afterSpawn => simp [State.start, State.spawn, hclosing] at hlate
  | afterStdin =>
    simp [State.start, State.spawn, State.storeStdin, State.modifyProxy, State.modifyProcess,
      hclosing] at hlate
  | whole => simp [start_whole hchild, hclosing] at hlate

/-- A start that spawns, in a proxy with no server of its own, breaks soundness unless it
may start. -/
theorem Inv.not_sound_start {s : State} (h : Inv s) {i : ℕ} (hneeds : s.needsStart i)
    {start : Start} (hmay : ¬ MayStart s i start) : ¬ Sound (s.start i start) := by
  obtain ⟨hchild, hstdin⟩ := hneeds
  have hstart : start ≠ .fails := by
    rintro rfl
    exact hmay trivial
  cases hclosing : (s.proxy i).closing with
  | true => exact not_sound_of_late hstart hchild hclosing
  | false =>
    intro hsound
    have hheld := hsound.held s.born
    cases start with
    | fails => exact hstart rfl
    | afterSpawn => simp [State.start, State.spawn, hclosing, hstdin] at hheld
    | afterStdin =>
      simp only [State.start, State.spawn, State.storeStdin, State.modifyProxy,
        State.modifyProcess, Function.update_self] at hheld
      have hpid := (h.pid i s.born (hheld (by simp) trivial hclosing).2).1
      omega
    | whole =>
      simp only [MayStart, hclosing, true_and, not_forall] at hmay
      obtain ⟨p, hp, hrun, howner⟩ := hmay
      rw [start_whole hchild] at hsound
      have hne : p ≠ s.born := by omega
      have := hsound.one p (by simp; omega) s.born (by simp)
        (by simpa [State.running, hne] using hrun) (by simp [State.running])
      exact hne this

theorem Inv.not_sound_next {s : State} (h : Inv s) {a : Action} (ha : machine.enabled s a)
    (hok : ¬ Careful s a) : ¬ Sound (next s a) := by
  cases a with
  | attach k i start =>
    simp only [Careful, not_forall] at hok
    obtain ⟨hneeds, hmay⟩ := hok
    simp only [next, if_pos hneeds]
    exact (h.setAttached k).not_sound_start hneeds
      (by rwa [mayStart_setSocket])
  | reap p q start =>
    obtain ⟨hp, htask, hdead, hfree⟩ := ha
    simp only [Careful, not_forall] at hok
    obtain ⟨hclosing, hrestarts, hmay⟩ := hok
    rw [next_reap, if_neg (by simp [hclosing]), if_pos hrestarts]
    exact (h.letGo hp htask hdead 1).not_sound_start (h.needsStart_letGo hp htask 1)
      (by rwa [mayStart_letGo])
  | _ => exact absurd trivial hok

/-- Runs of careful steps stay sound, and the first careless step is unsound. -/
theorem sound_next_iff_careful {s : State} (h : (machine.restrict Careful).Reaches init s) :
    Sound s ∧ ∀ a, machine.enabled s a → (Sound (machine.next s a) ↔ Careful s a) := by
  have hinv : Inv s := h.invariant inv_step inv_init
  refine ⟨hinv.sound, fun a ha => ⟨fun hs => ?_, fun hok => ?_⟩⟩
  · by_contra hok
    exact hinv.not_sound_next ha hok hs
  · exact (inv_step s a hinv ⟨ha, hok⟩).sound

/-- A server starts, crashes and is restarted once. -/
def crashAndRestart : List Action :=
  [.lookup 0, .attach 0 0 .whole, .takeChild 0, .exit 0, .reap 0 0 .whole]

/-- A second editor finds the proxy just before it is removed and closed, and waits for its
lock until `close` is through. -/
def attachBehindClose : List Action :=
  [.lookup 0, .attach 0 0 .whole, .takeChild 0, .lookup 1, .remove 0, .close 0 true,
    .finishClose 0, .attach 1 0 .whole]

theorem sound_next_iff_careful_crashAndRestart :
    ∃ s, (machine.restrict Careful).Reaches init s ∧ s.running 1 = true ∧ Sound s := by
  obtain ⟨s, hs, hp⟩ := Machine.exists_reaches_of_exec
    (M := machine.restrict Careful) (s := init) (l := crashAndRestart)
    (p := fun s => s.running 1) (by decide +kernel)
  exact ⟨s, hs, hp, (sound_next_iff_careful hs).1⟩

theorem not_sound_attachBehindClose : ∃ s, machine.Reaches init s ∧ ¬ Sound s := by
  obtain ⟨s, hs, hp⟩ := Machine.exists_reaches_of_exec
    (M := machine) (s := init) (l := attachBehindClose)
    (p := fun s => decide (1 < s.born) && (s.process 1).late) (by decide +kernel)
  simp only [Bool.and_eq_true, decide_eq_true_eq] at hp
  refine ⟨s, hs, fun hsound => ?_⟩
  simp [hsound.timely 1 hp.1] at hp

end Atomis.LspProxy
