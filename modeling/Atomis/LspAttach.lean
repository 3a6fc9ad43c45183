import Atomis.Lib.Machine
import Atomis.Lib.Table

/-!
# The editor socket that owns the language server

`LspProxy::attach` for any number of connections to one proxy, with their pumps
and the server's start. A step is what a task does between two await points, and
whoever writes to the server's stdin holds the state lock. The newest connection
ends up with the socket and the only pump that is not aborted in every run in
which no attach call stores its pump after the newest one has returned.
-/

namespace Atomis.LspAttach

/-- Where an attach call is: before its first store, in `start_impl`, before it
spawns its pump, before its second store, and returned. -/
inductive Attach
  | idle
  | starting
  | stdinStored
  | started
  | pumping
  | returned
deriving DecidableEq, Inhabited

inductive Pump
  | unborn
  | reading
  | locking
  | writing
  | ended
deriving DecidableEq, Inhabited

structure State where
  socket : Option ℕ
  socketTask : Option ℕ
  childStdin : Bool
  child : Bool
  lock : Option ℕ
  attach : Table ℕ Attach
  pump : Table ℕ Pump
  aborted : Table ℕ Bool
  /-- The connections in the order of their first stores. -/
  begun : List ℕ

def new : State := ⟨none, none, false, false, none, .empty, .empty, .empty, []⟩

inductive Action
  | store (k : ℕ)
  | startFails (k : ℕ)
  | storeStdin (k : ℕ)
  | storeChild (k : ℕ)
  | takeChild
  | exits
  | spawnPump (k : ℕ)
  | swap (k : ℕ)
  | message (k : ℕ)
  | hangUp (k : ℕ)
  | acquire (k : ℕ)
  | written (k : ℕ)
deriving DecidableEq

def State.pumps (s : State) (k : ℕ) (pc : Pump) : Prop := s.pump k = pc ∧ s.aborted k = false

instance (s : State) (k : ℕ) (pc : Pump) : Decidable (s.pumps k pc) :=
  inferInstanceAs (Decidable (_ ∧ _))

def enabled (s : State) : Action → Prop
  | .store k => s.attach k = .idle ∧ s.lock = none
  | .startFails k => s.attach k = .starting
  | .storeStdin k => s.attach k = .starting ∧ s.lock = none
  | .storeChild k => s.attach k = .stdinStored ∧ s.lock = none
  | .takeChild | .exits => s.lock = none
  | .spawnPump k => s.attach k = .started
  | .swap k => s.attach k = .pumping ∧ s.lock = none
  | .message k | .hangUp k => s.pumps k .reading
  | .acquire k => s.pumps k .locking ∧ s.lock = none
  | .written k => s.pumps k .writing

def State.setAttach (s : State) (k : ℕ) (pc : Attach) : State :=
  { s with attach := s.attach.set k pc }

def State.setPump (s : State) (k : ℕ) (pc : Pump) : State := { s with pump := s.pump.set k pc }

def State.abort (s : State) : Option ℕ → State
  | some previous => { s with aborted := s.aborted.set previous true }
  | none => s

def next (s : State) : Action → State
  | .store k =>
    let t := s.setAttach k (if s.child = false ∧ s.childStdin = false then .starting else .started)
    { t with socket := some k, begun := s.begun ++ [k] }
  | .startFails k => s.setAttach k .started
  | .storeStdin k => { s.setAttach k .stdinStored with childStdin := true }
  | .storeChild k => { s.setAttach k .started with child := true }
  | .takeChild => { s with child := false }
  | .exits => { s with childStdin := false }
  | .spawnPump k => (s.setAttach k .pumping).setPump k .reading
  | .swap k => { (s.abort s.socketTask).setAttach k .returned with
      socket := some k
      socketTask := some k }
  | .message k => s.setPump k .locking
  | .hangUp k => s.setPump k .ended
  | .acquire k =>
    if s.childStdin then { s.setPump k .writing with lock := some k } else s.setPump k .reading
  | .written k => { s.setPump k .reading with lock := none }

def machine : Machine State Action := ⟨enabled, next⟩

instance : DecidableRel machine.enabled := fun s a => by
  cases a <;> simp only [machine, enabled] <;> infer_instance

/-- The connection that was the last to store its socket first. -/
def State.newest (s : State) : Option ℕ := s.begun.getLast?

/-- Every attach call that has begun has returned. -/
def State.settled (s : State) : Prop := ∀ k, s.attach k = .idle ∨ s.attach k = .returned

/-- The pump still reads its socket, or has a message on its way to the server. -/
def State.canWrite (s : State) (k : ℕ) : Prop :=
  s.pumps k .reading ∨ s.pumps k .locking ∨ s.pumps k .writing

structure NewestOwns (s : State) (n : ℕ) : Prop where
  socket : s.socket = some n
  current : s.socketTask = some n
  aborted : ∀ k ∈ s.begun, k ≠ n → s.aborted k = true
  alone : ∀ k, s.canWrite k → k = n

/-- An attach call stores its pump while the newest one is still under way, or is it. -/
def NotOvertaken (s : State) : Action → Prop
  | .swap k => ∀ n ∈ s.newest, n = k ∨ s.attach n ≠ .returned
  | _ => True

instance : DecidableRel NotOvertaken := fun s a => by
  simp only [NotOvertaken]
  split <;> infer_instance

/-- What every run keeps. -/
structure Inv (s : State) : Prop where
  known : ∀ k, s.attach k ≠ .idle ↔ k ∈ s.begun
  current : ∀ k, s.socketTask = some k → s.attach k = .returned
  replaced : ∀ k, s.attach k = .returned → s.socketTask = some k ∨ s.aborted k = true
  unspawned : ∀ k, s.attach k ≠ .pumping → s.attach k ≠ .returned → s.pump k = .unborn

theorem inv_new : Inv new := by
  constructor <;> simp [new, default, instInhabitedAttach.default, instInhabitedPump.default]

variable {s : State}

@[simp] theorem setAttach_attach (s : State) (k : ℕ) (pc : Attach) (j : ℕ) :
    (s.setAttach k pc).attach j = if j = k then pc else s.attach j := Table.set_get ..

@[simp] theorem setPump_pump (s : State) (k : ℕ) (pc : Pump) (j : ℕ) :
    (s.setPump k pc).pump j = if j = k then pc else s.pump j := Table.set_get ..

/-- A pump moves on. -/
theorem Inv.setPump (h : Inv s) {k : ℕ} {pc : Pump} (hk : s.pump k ≠ .unborn) :
    Inv (s.setPump k pc) := by
  refine ⟨h.known, h.current, h.replaced, fun j hpump hret => ?_⟩
  have hj : s.pump j = .unborn := h.unspawned j hpump hret
  rw [setPump_pump, if_neg]
  · exact hj
  · rintro rfl
    exact hk hj

/-- An attach call that has begun moves on, without a pump of its own yet. -/
theorem Inv.move (h : Inv s) {k : ℕ} {pc : Attach} (hk : s.attach k ≠ .idle)
    (hret : s.attach k ≠ .returned) (hpump : s.attach k ≠ .pumping) (hidle : pc ≠ .idle)
    (hnot : pc ≠ .returned) : Inv (s.setAttach k pc) := by
  refine ⟨fun j => ?_, fun j hj => ?_, fun j hj => ?_, fun j hj hj' => ?_⟩
  · change _ ↔ j ∈ s.begun
    rw [setAttach_attach, ← h.known j]
    split_ifs with hjk
    · simp [hidle, hjk, hk]
    · rfl
  · have := h.current j hj
    rw [setAttach_attach, if_neg]
    · exact this
    · rintro rfl
      exact hret this
  · rw [setAttach_attach] at hj
    split_ifs at hj
    · exact (hnot hj).elim
    · exact h.replaced j hj
  · by_cases hjk : j = k
    · subst hjk
      exact h.unspawned j hpump hret
    · rw [setAttach_attach, if_neg hjk] at hj hj'
      exact h.unspawned j hj hj'

/-- Nothing the invariant reads changes. -/
theorem Inv.same {t : State} (h : Inv s) (hattach : t.attach = s.attach) (hpump : t.pump = s.pump)
    (haborted : t.aborted = s.aborted) (htask : t.socketTask = s.socketTask)
    (hbegun : t.begun = s.begun) : Inv t := by
  obtain ⟨known, current, replaced, unspawned⟩ := h
  constructor
  · rwa [hattach, hbegun]
  · rwa [hattach, htask]
  · rwa [hattach, htask, haborted]
  · rwa [hattach, hpump]

theorem Inv.store (h : Inv s) {k : ℕ} {pc : Attach} (hk : s.attach k = .idle) (hidle : pc ≠ .idle)
    (hret : pc ≠ .returned) :
    Inv { s.setAttach k pc with socket := some k, begun := s.begun ++ [k] } := by
  refine ⟨fun j => ?_, fun j hj => ?_, fun j hj => ?_, fun j hj hj' => ?_⟩
  · change ((s.setAttach k pc).attach j ≠ .idle) ↔ j ∈ s.begun ++ [k]
    rw [setAttach_attach, List.mem_append, List.mem_singleton, ← h.known j]
    split_ifs with hjk
    · simp [hidle, hjk]
    · simp [hjk]
  · have hjr := h.current j hj
    change (s.setAttach k pc).attach j = _
    rw [setAttach_attach, if_neg]
    · exact hjr
    · rintro rfl
      rw [hk] at hjr
      cases hjr
  · change (s.setAttach k pc).attach j = _ at hj
    rw [setAttach_attach] at hj
    split_ifs at hj
    · exact (hret hj).elim
    · exact h.replaced j hj
  · change (s.setAttach k pc).attach j ≠ _ at hj hj'
    by_cases hjk : j = k
    · exact h.unspawned j (by simp [hjk, hk]) (by simp [hjk, hk])
    · rw [setAttach_attach, if_neg hjk] at hj hj'
      exact h.unspawned j hj hj'

theorem Inv.spawnPump (h : Inv s) {k : ℕ} (hk : s.attach k = .started) :
    Inv ((s.setAttach k .pumping).setPump k .reading) := by
  refine ⟨fun j => ?_, fun j hj => ?_, fun j hj => ?_, fun j hj hj' => ?_⟩
  · change (s.setAttach k .pumping).attach j ≠ .idle ↔ j ∈ s.begun
    rw [setAttach_attach, ← h.known j]
    split_ifs with hjk
    · simp [hjk, hk]
    · rfl
  · have hjr := h.current j hj
    change (s.setAttach k .pumping).attach j = _
    rw [setAttach_attach, if_neg]
    · exact hjr
    · rintro rfl
      rw [hk] at hjr
      cases hjr
  · change (s.setAttach k .pumping).attach j = _ at hj
    rw [setAttach_attach] at hj
    split_ifs at hj
    exact h.replaced j hj
  · change (s.setAttach k .pumping).attach j ≠ _ at hj hj'
    rw [setAttach_attach] at hj hj'
    rw [setPump_pump]
    split_ifs at hj hj' ⊢ with hjk
    · exact (hj rfl).elim
    · exact h.unspawned j hj hj'

theorem abort_aborted (s : State) (previous : Option ℕ) (j : ℕ) :
    (s.abort previous).aborted j = (decide (previous = some j) || s.aborted j) := by
  cases previous with
  | none => simp [State.abort]
  | some i =>
    simp only [State.abort, Table.set_get, Option.some.injEq]
    by_cases hij : j = i
    · simp [hij]
    · simp [hij, Ne.symm hij]

theorem abort_attach (s : State) (previous : Option ℕ) : (s.abort previous).attach = s.attach := by
  cases previous <;> rfl

theorem abort_pump (s : State) (previous : Option ℕ) : (s.abort previous).pump = s.pump := by
  cases previous <;> rfl

theorem abort_begun (s : State) (previous : Option ℕ) : (s.abort previous).begun = s.begun := by
  cases previous <;> rfl

/-- The pump that was current is aborted, and every older one was. -/
theorem Inv.swap (h : Inv s) {k : ℕ} (hk : s.attach k = .pumping) : Inv (next s (.swap k)) := by
  have hattach : ∀ j, (next s (.swap k)).attach j = if j = k then .returned else s.attach j :=
    fun j => (setAttach_attach _ k _ j).trans (by rw [abort_attach])
  have haborted : ∀ j, (next s (.swap k)).aborted j =
      (decide (s.socketTask = some j) || s.aborted j) := abort_aborted s s.socketTask
  have hpump : (next s (.swap k)).pump = s.pump := abort_pump s s.socketTask
  have hbegun : (next s (.swap k)).begun = s.begun := abort_begun s s.socketTask
  have htask : (next s (.swap k)).socketTask = some k := rfl
  refine ⟨fun j => ?_, fun j hj => ?_, fun j hj => ?_, fun j hj hj' => ?_⟩
  · rw [hattach, hbegun, ← h.known j]
    split_ifs with hjk
    · simp [hjk, hk]
    · rfl
  · rw [htask] at hj
    rw [hattach, if_pos (Option.some.inj hj).symm]
  · rw [htask, haborted]
    rw [hattach] at hj
    split_ifs at hj with hjk
    · exact .inl (congrArg some hjk.symm)
    · rcases h.replaced j hj with hcur | hab
      · exact .inr (by simp [hcur])
      · exact .inr (by simp [hab])
  · rw [hattach] at hj hj'
    rw [hpump]
    split_ifs at hj hj' with hjk
    · exact (hj' rfl).elim
    · exact h.unspawned j hj hj'

theorem inv_step (s : State) (a : Action) (h : Inv s) (ha : enabled s a) : Inv (next s a) := by
  cases a with
  | store k =>
    simp only [next]
    split_ifs <;> exact h.store ha.1 (by simp) (by simp)
  | startFails k =>
    have hk : s.attach k = .starting := ha
    exact h.move (by simp [hk]) (by simp [hk]) (by simp [hk]) (by simp) (by simp)
  | storeStdin k =>
    have hk : s.attach k = .starting := ha.1
    have hmoved : Inv (s.setAttach k .stdinStored) :=
      h.move (by simp [hk]) (by simp [hk]) (by simp [hk]) (by simp) (by simp)
    exact hmoved.same rfl rfl rfl rfl rfl
  | storeChild k =>
    have hk : s.attach k = .stdinStored := ha.1
    have hmoved : Inv (s.setAttach k .started) :=
      h.move (by simp [hk]) (by simp [hk]) (by simp [hk]) (by simp) (by simp)
    exact hmoved.same rfl rfl rfl rfl rfl
  | takeChild => exact h.same rfl rfl rfl rfl rfl
  | exits => exact h.same rfl rfl rfl rfl rfl
  | spawnPump k => exact h.spawnPump ha
  | swap k => exact h.swap ha.1
  | message k => exact h.setPump (by rw [ha.1]; simp)
  | hangUp k => exact h.setPump (by rw [ha.1]; simp)
  | acquire k =>
    have hk : s.pump k ≠ .unborn := by rw [ha.1.1]; simp
    simp only [next]
    split_ifs
    · exact (h.setPump hk).same rfl rfl rfl rfl rfl
    · exact h.setPump hk
  | written k =>
    have hread : Inv (s.setPump k .reading) := h.setPump (by rw [ha.1]; simp)
    exact hread.same rfl rfl rfl rfl rfl

/-- The newest connection, once its attach call has returned, has socket and pump. -/
def Owned (s : State) : Prop :=
  ∀ n ∈ s.newest, s.attach n = .returned → s.socket = some n ∧ s.socketTask = some n

/-- A step that lets no attach call begin or return. -/
theorem Owned.frame {t : State} (h : Owned s) (hbegun : t.begun = s.begun)
    (hattach : ∀ n, t.attach n = .returned → s.attach n = .returned)
    (hsocket : t.socket = s.socket) (htask : t.socketTask = s.socketTask) : Owned t := by
  intro n hn hret
  rw [hsocket, htask]
  rw [State.newest, hbegun] at hn
  exact h n hn (hattach n hret)

theorem returned_of_setAttach {k n : ℕ} {pc : Attach} (hpc : pc ≠ .returned)
    (h : (s.setAttach k pc).attach n = .returned) : s.attach n = .returned := by
  rw [setAttach_attach] at h
  split_ifs at h
  · exact (hpc h).elim
  · exact h

theorem owned_step (s : State) (a : Action) (h : Owned s)
    (ha : (machine.restrict NotOvertaken).enabled s a) : Owned (next s a) := by
  obtain ⟨-, hok⟩ := ha
  cases a with
  | store k =>
    intro n hn hret
    obtain rfl : k = n := by
      rw [State.newest, show (next s (.store k)).begun = s.begun ++ [k] from rfl,
        List.getLast?_concat] at hn
      exact Option.some.inj hn
    simp only [next] at hret
    change (s.setAttach k _).attach k = _ at hret
    rw [setAttach_attach, if_pos rfl] at hret
    split_ifs at hret
  | swap k =>
    intro n hn hret
    rw [State.newest, show (next s (.swap k)).begun = s.begun from abort_begun s s.socketTask] at hn
    by_cases hnk : n = k
    · exact ⟨congrArg some hnk.symm, congrArg some hnk.symm⟩
    · change ((s.abort s.socketTask).setAttach k .returned).attach n = .returned at hret
      rw [setAttach_attach, if_neg hnk, abort_attach] at hret
      exact (((hok n hn).resolve_left hnk) hret).elim
  | startFails | storeStdin | storeChild | spawnPump =>
    exact h.frame rfl (fun n hn => returned_of_setAttach (by simp) hn) rfl rfl
  | acquire k =>
    simp only [next]
    split_ifs <;> exact h.frame rfl (fun _ hn => hn) rfl rfl
  | _ => exact h.frame rfl (fun _ hn => hn) rfl rfl

/-- With every attach call returned, a pump that is not current is aborted. -/
theorem Inv.newestOwns (h : Inv s) (howned : Owned s) (hset : s.settled) {n : ℕ}
    (hn : s.newest = some n) : NewestOwns s n := by
  have hreturned : ∀ k ∈ s.begun, s.attach k = .returned := fun k hk =>
    (hset k).resolve_left ((h.known k).mpr hk)
  have hlast : n ∈ s.begun := List.mem_of_getLast? hn
  obtain ⟨hsocket, htask⟩ := howned n hn (hreturned n hlast)
  have haborted : ∀ k ∈ s.begun, k ≠ n → s.aborted k = true := fun k hk hkn => by
    refine (h.replaced k (hreturned k hk)).resolve_left fun hcur => hkn ?_
    exact Option.some.inj (hcur.symm.trans htask)
  refine ⟨hsocket, htask, haborted, fun k hk => ?_⟩
  have halive : s.aborted k = false ∧ s.pump k ≠ .unborn := by
    rcases hk with ⟨hp, ha⟩ | ⟨hp, ha⟩ | ⟨hp, ha⟩ <;> exact ⟨ha, by rw [hp]; simp⟩
  by_contra hkn
  by_cases hbegun : k ∈ s.begun
  · have hab := haborted k hbegun hkn
    rw [halive.1] at hab
    cases hab
  · have hidle : s.attach k = .idle := not_not.mp (mt (h.known k).mp hbegun)
    exact halive.2 (h.unspawned k (by simp [hidle]) (by simp [hidle]))

/-- In every run in which no attach call overtakes the newest one's return. -/
theorem newest_owns {s : State} (h : (machine.restrict NotOvertaken).Reaches new s)
    (hset : s.settled) {n : ℕ} (hn : s.newest = some n) : NewestOwns s n := by
  have hinv : Inv s := h.of_restrict.invariant inv_step inv_new
  have howned : Owned s := h.invariant owned_step (fun _ hn => by cases hn)
  exact hinv.newestOwns howned hset hn

instance (s : State) : Decidable s.settled :=
  decidable_of_iff (∀ e ∈ s.attach.writes, s.attach e.1 = .idle ∨ s.attach e.1 = .returned)
    (s.attach.forall_get_iff (p := fun _ pc => pc = .idle ∨ pc = .returned)
      fun _ => .inl rfl).symm

/-- A page starts the server, and its reload takes the server over. -/
theorem newest_owns_reload :
    ∃ s, (machine.restrict NotOvertaken).Reaches new s ∧ s.settled ∧ s.newest = some 1 ∧
      s.pumps 1 .writing ∧ NewestOwns s 1 := by
  obtain ⟨s, hs, hp⟩ := Machine.exists_reaches_of_exec (M := machine.restrict NotOvertaken)
    (s := new) (l := [.store 0, .storeStdin 0, .storeChild 0, .spawnPump 0, .takeChild, .swap 0,
      .message 0, .store 1, .spawnPump 1, .swap 1, .message 1, .acquire 1])
    (p := fun s => s.settled ∧ s.newest = some 1 ∧ s.pumps 1 .writing) (by decide)
  simp only [decide_eq_true_eq] at hp
  exact ⟨s, hs, hp.1, hp.2.1, hp.2.2, newest_owns hs hp.1 hp.2.1⟩

/-- The page reloads while the first one's attach call still starts the server: the
older call returns last, takes the socket and aborts the newer page's pump. -/
theorem older_takes_back :
    ∃ s, machine.Reaches new s ∧ s.settled ∧ s.newest = some 1 ∧ s.socket = some 0 ∧
      s.aborted 1 = true ∧ s.canWrite 0 ∧ ¬ NewestOwns s 1 := by
  obtain ⟨s, hs, hp⟩ := Machine.exists_reaches_of_exec (M := machine) (s := new)
    (l := [.store 0, .storeStdin 0, .store 1, .spawnPump 1, .swap 1, .storeChild 0, .spawnPump 0,
      .swap 0])
    (p := fun s => s.settled ∧ s.newest = some 1 ∧ s.socket = some 0 ∧ s.aborted 1 = true ∧
      s.pumps 0 .reading) (by decide)
  simp only [decide_eq_true_eq] at hp
  obtain ⟨hset, hn, hsocket, hab, hpump⟩ := hp
  refine ⟨s, hs, hset, hn, hsocket, hab, .inl hpump, fun hown => ?_⟩
  have hcur := hown.socket
  rw [hsocket] at hcur
  cases hcur

end Atomis.LspAttach
