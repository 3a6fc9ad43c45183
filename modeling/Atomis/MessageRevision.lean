import Atomis.HandleMessage

/-!
# Store mutations and revisions stay in step

The lock is held from the writer check to the record, so the base that passed
the check still passes when the record makes it again: two handlers past their
wait for one lock are the same handler, and nothing but a record advances a
revision.
-/

namespace Atomis.HandleMessage
open Protocol

def Outcome.isSaved : Outcome → Bool
  | .saved => true
  | _ => false

def Outcome.isLost : Outcome → Bool
  | .lost _ => true
  | _ => false

def savedVersion : ServerEvent → Option ℕ
  | .documentSaved version => some version
  | _ => none

def savedVersions (events : List ServerEvent) : List ℕ := events.filterMap savedVersion

/-- The versions of the mutations of one session the store carried out. -/
def savedBy (handled : List Handled) (id : String) : List ℕ :=
  (handled.filter fun h => h.outcome.isSaved && h.session = id).map fun h => h.mutation.version

variable (sessions : String → Session)

/-- How many mutations of a workspace's files the store carried out. -/
def savedOn (handled : List Handled) (workspace : String) : ℕ :=
  (handled.filter fun h =>
    h.outcome.isSaved && (sessions h.session).workspaceId = some workspace).length

@[simp] theorem savedVersions_append (l₁ l₂ : List ServerEvent) :
    savedVersions (l₁ ++ l₂) = savedVersions l₁ ++ savedVersions l₂ :=
  List.filterMap_append

theorem savedBy_append (l₁ l₂ : List Handled) (id : String) :
    savedBy (l₁ ++ l₂) id = savedBy l₁ id ++ savedBy l₂ id := by
  simp [savedBy]

theorem savedOn_append (l₁ l₂ : List Handled) (w : String) :
    savedOn sessions (l₁ ++ l₂) w = savedOn sessions l₁ w + savedOn sessions l₂ w := by
  simp [savedOn]

theorem savedVersion_of_not_saved {event : ServerEvent} (h : isDocumentSaved event = false) :
    savedVersions [event] = [] := by
  cases event <;> simp_all [isDocumentSaved, savedVersions, savedVersion]

theorem savedVersions_afterStoreChange (session : Session) (snapshot : Snapshot) (path : String)
    (catalogChanged : Bool) :
    savedVersions (afterStoreChange session snapshot path catalogChanged) = [] := by
  simp only [afterStoreChange]
  split_ifs <;> rfl

/-- Past the writer check: the base the message carries has been accepted. -/
def Pc.accepted : Pc → Bool
  | .refreshing | .performing | .recording => true
  | _ => false

structure Inv (s : State) : Prop where
  held : ∀ id pc m w, s.phase id = some (pc, m) → pc ≠ .locking →
    lockFor sessions id m = some w → s.editLock w = some (.handler id)
  base : ∀ id pc m w mu, s.phase id = some (pc, m) → pc.accepted = true →
    (sessions id).workspaceId = some w → mutation m = some mu →
    Collab.writerBaseOk s.collab w id mu.base (Collab.revision s.collab w) = true
  count : ∀ w, Collab.revision s.collab w = savedOn sessions s.handled w
  saved : ∀ id, savedVersions (s.outbox id) = savedBy s.handled id
  clean : ∀ h ∈ s.handled, h.outcome.isLost = false

theorem inv_init : Inv sessions init := by
  constructor <;> simp [init, savedOn, savedBy, savedVersions]

variable {sessions} {s : State}

theorem lockFor_of_mutation {id : String} {m : RuntimeClientMessage} {mu : Mutation}
    (hm : mutation m = some mu) : lockFor sessions id m = (sessions id).workspaceId := by
  simp [lockFor, wantsLock, hm]

theorem Inv.setPhase (h : Inv sessions s) {id : String} {pc : Pc} {m : RuntimeClientMessage}
    (hheld : pc ≠ .locking → ∀ w, lockFor sessions id m = some w →
      s.editLock w = some (.handler id))
    (hbase : pc.accepted = true → ∀ w mu, (sessions id).workspaceId = some w →
      mutation m = some mu →
      Collab.writerBaseOk s.collab w id mu.base (Collab.revision s.collab w) = true) :
    Inv sessions (s.setPhase id (some (pc, m))) where
  held id' q n w hq hne hw := by
    by_cases hid : id' = id
    · subst hid
      obtain ⟨rfl, rfl⟩ : pc = q ∧ m = n := by simpa [State.setPhase] using hq
      exact hheld hne w hw
    · exact h.held id' q n w (by simpa [State.setPhase, hid] using hq) hne hw
  base id' q n w mu hq hacc hw hmu := by
    by_cases hid : id' = id
    · subst hid
      obtain ⟨rfl, rfl⟩ : pc = q ∧ m = n := by simpa [State.setPhase] using hq
      exact hbase hacc w mu hw hmu
    · exact h.base id' q n w mu (by simpa [State.setPhase, hid] using hq) hacc hw hmu
  count := h.count
  saved := h.saved
  clean := h.clean

theorem setLock_editLock (s : State) (w : Option String) (x : Option Holder) (v : String) :
    (s.setLock w x).editLock v = if w = some v then x else s.editLock v := by
  cases w with
  | none => simp [State.setLock]
  | some w => simp [State.setLock, Function.update_apply, eq_comm]

/-- Changing locks that no handler past its wait depends on. -/
theorem Inv.setLock (h : Inv sessions s) (w : Option String) (x : Option Holder)
    (hw : ∀ id pc m, s.phase id = some (pc, m) → pc ≠ .locking → w ≠ none →
      lockFor sessions id m = w → x = some (.handler id)) :
    Inv sessions (s.setLock w x) := by
  have hphase : (s.setLock w x).phase = s.phase := by cases w <;> rfl
  have hcollab : (s.setLock w x).collab = s.collab := by cases w <;> rfl
  have houtbox : (s.setLock w x).outbox = s.outbox := by cases w <;> rfl
  have hhandled : (s.setLock w x).handled = s.handled := by cases w <;> rfl
  refine ⟨fun id pc m v hp hne hv => ?_, ?_, ?_, ?_, ?_⟩
  · rw [hphase] at hp
    rw [setLock_editLock]
    split_ifs with heq
    · exact hw id pc m hp hne (by simp [heq]) (hv.trans heq.symm)
    · exact h.held id pc m v hp hne hv
  · rw [hphase, hcollab]
    exact h.base
  · rw [hcollab, hhandled]
    exact h.count
  · rw [houtbox, hhandled]
    exact h.saved
  · rw [hhandled]
    exact h.clean

theorem Inv.leavePhase (h : Inv sessions s) (id : String) : Inv sessions (s.setPhase id none) where
  held id' q n w hq hne hw := by
    by_cases hid : id' = id
    · simp [State.setPhase, hid] at hq
    · exact h.held id' q n w (by simpa [State.setPhase, hid] using hq) hne hw
  base id' q n w mu hq hacc hw hmu := by
    by_cases hid : id' = id
    · simp [State.setPhase, hid] at hq
    · exact h.base id' q n w mu (by simpa [State.setPhase, hid] using hq) hacc hw hmu
  count := h.count
  saved := h.saved
  clean := h.clean

/-- Two handlers past their wait for one lock are the same one. -/
theorem Inv.exclusive (h : Inv sessions s) {id id' : String} {pc pc' : Pc}
    {m m' : RuntimeClientMessage} {w : String} (hp : s.phase id = some (pc, m))
    (hp' : s.phase id' = some (pc', m')) (hne : pc ≠ .locking) (hne' : pc' ≠ .locking)
    (hw : lockFor sessions id m = some w) (hw' : lockFor sessions id' m' = some w) : id = id' := by
  have h₁ := h.held id pc m w hp hne hw
  have h₂ := h.held id' pc' m' w hp' hne' hw'
  simpa [h₁] using h₂

theorem Inv.return (h : Inv sessions s) {id : String} {p : Pc} {m : RuntimeClientMessage}
    (hp : s.phase id = some (p, m)) (hne : p ≠ .locking) :
    Inv sessions (s.return sessions id m) := by
  refine (h.leavePhase id).setLock _ _ fun id' q n hq hne' hsome hlock => ?_
  by_cases hid : id' = id
  · simp [State.setPhase, hid] at hq
  · have hq' : s.phase id' = some (q, n) := by simpa [State.setPhase, hid] using hq
    obtain ⟨w, hw⟩ := Option.ne_none_iff_exists'.mp hsome
    exact absurd (h.exclusive hq' hp hne' hne (hlock.trans hw) hw) hid

theorem Inv.acquire (h : Inv sessions s) {id : String} {m : RuntimeClientMessage}
    (hfree : (lockFor sessions id m).all (fun w => (s.editLock w).isNone) = true) :
    Inv sessions ((s.setPhase id (some (.checking, m))).setLock (lockFor sessions id m)
      (some (.handler id))) := by
  have hlocked : Inv sessions (s.setLock (lockFor sessions id m) (some (.handler id))) := by
    refine h.setLock _ _ fun id' q n hq hne hsome hlock => ?_
    obtain ⟨w, hw⟩ := Option.ne_none_iff_exists'.mp hsome
    have hnone : s.editLock w = none := by simpa [hw] using hfree
    have hmine := h.held id' q n w hq hne (hlock.trans hw)
    rw [hnone] at hmine
    cases hmine
  have hcomm : (s.setPhase id (some (.checking, m))).setLock (lockFor sessions id m)
      (some (.handler id)) = (s.setLock (lockFor sessions id m) (some (.handler id))).setPhase id
        (some (.checking, m)) := by
    cases lockFor sessions id m <;> rfl
  rw [hcomm]
  refine hlocked.setPhase (fun _ w hw => ?_) (fun hacc => absurd hacc (by decide))
  rw [setLock_editLock, if_pos hw]

/-- Moving on inside a handler that has its lock. -/
theorem Inv.advance (h : Inv sessions s) {id : String} {pc pc' : Pc} {m : RuntimeClientMessage}
    (hp : s.phase id = some (pc, m)) (hne : pc ≠ .locking)
    (hacc : pc'.accepted = true → pc.accepted = true) :
    Inv sessions (s.setPhase id (some (pc', m))) :=
  h.setPhase (fun _ w hw => h.held id pc m w hp hne hw)
    (fun ha w mu hw hmu => h.base id pc m w mu hp (hacc ha) hw hmu)

theorem Inv.send (h : Inv sessions s) (id : String) {e : List ServerEvent}
    (hev : savedVersions e = []) : Inv sessions (s.send id e) where
  held := h.held
  base := h.base
  count := h.count
  saved id' := by
    by_cases hid : id' = id
    · subst hid; simpa [State.send, hev] using h.saved id'
    · simpa [State.send, hid] using h.saved id'
  clean := h.clean

theorem Inv.logUnsaved (h : Inv sessions s) (id : String) (m : RuntimeClientMessage)
    {outcome : Outcome} (hs : outcome.isSaved = false) (hl : outcome.isLost = false) :
    Inv sessions (s.log id m outcome) := by
  simp only [State.log]
  cases hm : mutation m with
  | none => exact h
  | some mu =>
    refine ⟨h.held, h.base, fun w => ?_, fun id' => ?_, fun x hx => ?_⟩
    · simpa [savedOn_append, savedOn, hs] using h.count w
    · simpa [savedBy_append, savedBy, hs] using h.saved id'
    · rcases List.mem_append.mp hx with hx | hx
      · exact h.clean x hx
      · obtain rfl := List.mem_singleton.mp hx
        exact hl

/-- Joining and leaving touch no revision and no writer. -/
theorem Inv.setCollab (h : Inv sessions s) {c : Collab.State}
    (hw : c.writers = s.collab.writers)
    (hr : ∀ w, Collab.revision c w = Collab.revision s.collab w) :
    Inv sessions { s with collab := c } where
  held := h.held
  base id pc m w mu hp hacc hws hmu := by
    simpa [Collab.writerBaseOk, hw, hr] using h.base id pc m w mu hp hacc hws hmu
  count w := (hr w).trans (h.count w)
  saved := h.saved
  clean := h.clean

/-- The handler answers with an error and the mutation counts as refused. -/
theorem Inv.refuse (h : Inv sessions s) {id : String} {pc : Pc} {m : RuntimeClientMessage}
    (hp : s.phase id = some (pc, m)) (hne : pc ≠ .locking) {events : List ServerEvent}
    (hev : savedVersions events = []) {outcome : Outcome} (hs : outcome.isSaved = false)
    (hl : outcome.isLost = false) :
    Inv sessions (((s.send id events).log id m outcome).return sessions id m) := by
  refine ((h.send id hev).logUnsaved id m hs hl).return (p := pc) ?_ hne
  simp only [State.log]
  cases mutation m <;> exact hp

theorem inv_check (h : Inv sessions s) {id : String} {m : RuntimeClientMessage}
    (hp : s.phase id = some (.checking, m)) : Inv sessions (stepCheck sessions s id m) := by
  have hne : Pc.checking ≠ .locking := by decide
  have hheld : ∀ w, lockFor sessions id m = some w → s.editLock w = some (.handler id) :=
    fun w hw => h.held id _ m w hp hne hw
  cases hw : (sessions id).workspaceId with
  | none =>
    simp only [stepCheck, hw]
    exact h.setPhase (fun _ => hheld) (fun _ w mu hw' => by rw [hw] at hw'; cases hw')
  | some w =>
    cases hm : mutation m with
    | none =>
      simp only [stepCheck, hw, hm]
      exact h.setPhase (fun _ => hheld) (fun _ w mu _ hmu => by rw [hm] at hmu; cases hmu)
    | some mu =>
      cases hc : Collab.checkWriterBase s.collab w id mu.base with
      | ok _ =>
        simp only [stepCheck, hw, hm, hc]
        refine h.setPhase (fun _ => hheld) (fun _ w' mu' hw' hmu' => ?_)
        obtain rfl : w = w' := by simpa [hw] using hw'
        obtain rfl : mu = mu' := by simpa [hm] using hmu'
        rw [← Collab.checkWriterBase_isOk, hc]
        rfl
      | error conflict =>
        simp only [stepCheck, hw, hm, hc]
        exact h.refuse hp hne rfl rfl rfl

theorem recordMutation_eq (c : Collab.State) (w id : String) (mu : Mutation) :
    ∃ change, recordMutation c w id mu =
      if Collab.writerBaseOk c w id mu.base (Collab.revision c w) then
        (.ok (Collab.revision c w + 1), Collab.send (Collab.advanced c w id) change)
      else (.error ⟨Collab.revision c w⟩, c) := by
  simp only [recordMutation]
  cases mu.source with
  | some source => exact ⟨_, Collab.recordEdit_eq c w id mu.path source mu.base⟩
  | none => exact ⟨_, Collab.recordFiles_eq c w id mu.base⟩

theorem return_comm (s : State) (c : Collab.State) (id : String) (events : List ServerEvent)
    (m : RuntimeClientMessage) (outcome : Outcome) :
    (({ s with collab := c }.send id events).log id m outcome).return sessions id m =
      ({ s.return sessions id m with collab := c }.send id events).log id m outcome := by
  simp only [State.log, State.return]
  cases mutation m <;> cases lockFor sessions id m <;> rfl

/-- A mutation the store carried out is counted once and announced once. -/
theorem Inv.save (h : Inv sessions s) (id : String) {m : RuntimeClientMessage} {mu : Mutation}
    (hm : mutation m = some mu) {c : Collab.State} {e : List ServerEvent}
    (hev : savedVersions e = [mu.version])
    (hcount : ∀ v, Collab.revision c v = Collab.revision s.collab v +
      if (sessions id).workspaceId = some v then 1 else 0)
    (hbase : ∀ id' pc n w mu', s.phase id' = some (pc, n) → pc.accepted = true →
      (sessions id').workspaceId = some w → mutation n = some mu' →
      Collab.writerBaseOk c w id' mu'.base (Collab.revision c w) = true) :
    Inv sessions (({ s with collab := c }.send id e).log id m .saved) := by
  simp only [State.log, hm]
  refine ⟨h.held, hbase, fun w => ?_, fun id' => ?_, fun x hx => ?_⟩
  · have := h.count w
    by_cases hw : (sessions id).workspaceId = some w
    · simp [State.send, savedOn, hcount, Outcome.isSaved, hw] at this ⊢
      exact this
    · simpa [State.send, savedOn_append, savedOn, hcount, Outcome.isSaved, hw] using this
  · have := h.saved id'
    by_cases hid : id' = id
    · subst hid
      simpa [State.send, savedBy_append, savedBy, Outcome.isSaved, hev] using this
    · simpa [State.send, savedBy_append, savedBy, Outcome.isSaved, hid, Ne.symm hid] using this
  · rcases List.mem_append.mp hx with hx | hx
    · exact h.clean x hx
    · obtain rfl := List.mem_singleton.mp hx
      rfl

theorem return_phase (s : State) (id : String) (m : RuntimeClientMessage) (id' : String) :
    (s.return sessions id m).phase id' = if id' = id then none else s.phase id' := by
  simp only [State.return, State.setPhase]
  cases lockFor sessions id m <;> simp [State.setLock, Function.update_apply]

theorem return_collab (s : State) (id : String) (m : RuntimeClientMessage) :
    (s.return sessions id m).collab = s.collab := by
  simp only [State.return, State.setPhase]
  cases lockFor sessions id m <;> rfl

/-- Nobody else who was let past the check of this workspace is still under way. -/
theorem Inv.alone (h : Inv sessions s) {id id' w : String} {m n : RuntimeClientMessage}
    {pc pc' : Pc} {mu mu' : Mutation} (hp : s.phase id = some (pc, m))
    (hp' : s.phase id' = some (pc', n)) (hne : pc ≠ .locking) (hacc : pc'.accepted = true)
    (hm : mutation m = some mu) (hm' : mutation n = some mu')
    (hw : (sessions id).workspaceId = some w) (hw' : (sessions id').workspaceId = some w) :
    id = id' :=
  h.exclusive hp hp' hne (by rintro rfl; exact absurd hacc (by decide))
    ((lockFor_of_mutation hm).trans hw) ((lockFor_of_mutation hm').trans hw')

theorem inv_record (h : Inv sessions s) {id : String} {m : RuntimeClientMessage}
    (hp : s.phase id = some (.recording, m)) : Inv sessions (stepRecord sessions s id m) := by
  have hne : Pc.recording ≠ .locking := by decide
  have hret : Inv sessions (s.return sessions id m) := h.return hp hne
  cases hm : mutation m with
  | none =>
    simp only [stepRecord, hm]
    exact hret
  | some mu =>
    cases hw : (sessions id).workspaceId with
    | none =>
      simp only [stepRecord, hm, hw]
      have hsave := hret.save id (c := s.collab) (e := [.documentSaved mu.version]) hm rfl
        (fun v => by simp [return_collab, hw])
        (by rw [← return_collab s id m]; exact hret.base)
      rw [← return_comm] at hsave
      exact hsave
    | some w =>
      have hok := h.base id _ m w mu hp rfl hw hm
      obtain ⟨change, heq⟩ := recordMutation_eq s.collab w id mu
      rw [if_pos hok] at heq
      simp only [stepRecord, hm, hw, heq, return_comm]
      refine hret.save id hm rfl (fun v => ?_) (fun id' pc n w' mu' hp' hacc hw' hmu' => ?_)
      · by_cases hv : v = w
        · simp [return_collab, hv, hw]
        · simp [return_collab, hv, hw, Ne.symm hv]
      · rw [return_phase] at hp'
        split_ifs at hp' with hid
        have hww : w' ≠ w := by
          rintro rfl
          exact hid (h.alone hp hp' hne hacc hm hmu' hw hw').symm
        have := h.base id' pc n w' mu' hp' hacc hw' hmu'
        simpa [Collab.writerBaseOk, Collab.advanced_writers_of_ne hww, hww] using this

theorem inv_step (s : State) (a : Action) (h : Inv sessions s)
    (ha : (machine sessions).enabled s a) : Inv sessions (next sessions s a) := by
  cases a with
  | receive id m =>
    exact h.setPhase (fun hne => absurd rfl hne) (fun hacc => absurd hacc (by decide))
  | acquire id m => exact h.acquire ha.2
  | check id m => exact inv_check h ha
  | refresh id m result =>
    have hp : s.phase id = some (.refreshing, m) := ha
    cases result with
    | ok _ => exact h.advance hp (by decide) (fun _ => rfl)
    | error e => exact h.refuse hp (by decide) rfl rfl rfl
  | store id m result =>
    have hp : s.phase id = some (.performing, m) := ha.1
    cases result with
    | ok snapshot =>
      exact (h.send id (savedVersions_afterStoreChange _ _ _ _)).advance hp (by decide)
        (fun _ => rfl)
    | error e => exact h.refuse hp (by decide) rfl rfl rfl
  | answer id m result =>
    have hp : s.phase id = some (.performing, m) := ha.1
    cases result with
    | ok _ => exact h.return hp (by decide)
    | error e => exact (h.send id (e := [.serverError true e none]) rfl).return hp (by decide)
  | record id m => exact inv_record h ha
  | readerLock id w =>
    have hfree : s.editLock w = none := ha
    refine h.setLock (some w) (some (.reader id)) fun id' q n hq hne _ hlock => ?_
    have := h.held id' q n w hq hne hlock
    rw [hfree] at this
    cases this
  | join id w =>
    exact (h.setCollab (Collab.join_writers _ _ _) (Collab.revision_join _ _ _)).send id rfl
  | readerUnlock id w =>
    have hmine : s.editLock w = some (.reader id) := ha
    refine h.setLock (some w) none fun id' q n hq hne _ hlock => ?_
    have := h.held id' q n w hq hne hlock
    rw [hmine] at this
    cases this
  | leave id w => exact h.setCollab (Collab.leave_writers _ _ _) (Collab.revision_leave _ _ _)
  | emit id event => exact h.send id (savedVersion_of_not_saved ha)

instance : DecidableRel (machine sessions).enabled := fun s a => by
  cases a <;> simp only [machine, enabled] <;> infer_instance

def twoPeers (id : String) : Session :=
  ⟨id, .zig, ["w"], some "w", fun _ => none⟩

/-- One session saves an edit, and the other one's edit on the old base is refused. -/
def saveThenConflict : List Action :=
  let edit := fun source => RuntimeClientMessage.documentUpdate 2 "main.zig" source (some 0)
  [.receive "a" (edit "x"), .receive "b" (edit "y"), .acquire "a" (edit "x"), .check "a" (edit "x"),
    .refresh "a" (edit "x") (.ok ()), .store "a" (edit "x") (.ok ⟨2, "", "x", []⟩),
    .record "a" (edit "x"), .acquire "b" (edit "y"), .check "b" (edit "y")]

end Atomis.HandleMessage
