import Atomis.PreferenceFanOut

/-!
# One device and the server

The device of `shared/stores/storage.ts` with the server that stores its saves and
sends them back. A save is a call of the store from the moment it leaves the device,
its answer comes at any time once the server has given it, and every patch sent
comes back to the device as an echo, in the order of the channel.
-/

namespace Atomis.PreferenceConvergence
open KeyPatch History PreferenceStore DevicePreferences

structure Request where
  sending : Entries
  immediate : Bool
  answered : Bool

/-- The device is the tab of the fan-out, and request `i` is call `i` of its store.
`written` is history: the last value written of each synced key. -/
structure State where
  fan : PreferenceFanOut.State
  requests : List Request
  written : Entries

namespace State

def init (file : Contents) (localStorage : Entries) : State where
  fan := .init file localStorage
  requests := []
  written := noEntries

def sending (s : State) (i : ℕ) : Entries := (s.requests[i]?).elim noEntries Request.sending

def immediate (s : State) (i : ℕ) : Bool := (s.requests[i]?).any Request.immediate

def answered (s : State) (i : ℕ) : Bool := (s.requests[i]?).any Request.answered

def remote (s : State) (key : String) : Option String :=
  s.fan.tab.remote.bind fun remote => remote key

def withTab (s : State) (tab : Device) : State := { s with fan := { s.fan with tab := tab } }

/-- The device leaves as `tab` and sends what there is to send. -/
def put (s : State) (immediate : Bool) : Device × Option Entries → State
  | (tab, none) => s.withTab tab
  | (tab, some sending) =>
    { s.withTab tab with
      fan := PreferenceFanOut.next { s.fan with tab := tab } (.store (.call (patchOf sending)))
      requests := s.requests ++ [⟨sending, immediate, false⟩] }

def refusedBy (s : State) (i : ℕ) : Bool :=
  match s.fan.store.stage i with
  | some (.refused _) => true
  | _ => false

/-- What the answer of request `i` makes of the device. -/
def settle (s : State) (i : ℕ) : Device :=
  if s.refusedBy i = true then
    if s.immediate i = true then s.fan.tab.retryLater else s.fan.tab.flushFailed (s.sending i)
  else if s.immediate i = true then s.fan.tab.delivered (s.sending i)
  else s.fan.tab

end State

inductive Action where
  | write (key value : String)
  | flush
  | flushPreferencesNow
  | serve (a : PreferenceFanOut.Action)
  | answer (i : ℕ)
deriving DecidableEq

/-- Every call of the store is a request of the device. -/
def Serves : PreferenceFanOut.Action → Prop
  | .store (.call _) => False
  | _ => True

instance : DecidablePred Serves := fun a =>
  match a with
  | .store (.call _) => .isFalse id
  | .store (.validate _) | .store (.lock _) | .store (.read _) | .store (.write ..)
  | .store (.writeFails ..) | .store (.rename ..) | .store (.renameFails ..)
  | .store (.finish ..) | .store .readFile | .send _ | .receive _ => .isTrue trivial

def enabled (s : State) : Action → Prop
  | .write _ _ | .flushPreferencesNow => True
  | .flush => s.fan.tab.flushTimer = true
  | .serve a => PreferenceFanOut.machine.enabled s.fan a ∧ Serves a
  | .answer i => i < s.requests.length ∧ s.answered i = false ∧ s.fan.answered i = true

instance : DecidableRel enabled := fun s a => by
  cases a <;> simp only [enabled] <;> infer_instance

def next (s : State) : Action → State
  | .write key value =>
    { s.withTab (s.fan.tab.writeStoredItem key value) with
      written := if key ∈ syncedKeys then Function.update s.written key (some value)
        else s.written }
  | .flush => s.put false s.fan.tab.flush
  | .flushPreferencesNow => s.put true s.fan.tab.flushPreferencesNow
  | .serve a => { s with fan := PreferenceFanOut.machine.next s.fan a }
  | .answer i =>
    { s.withTab (s.settle i) with
      requests := s.requests.modify i fun request => { request with answered := true } }

def machine : Machine State Action where
  enabled := enabled
  next := next

instance : DecidableRel machine.enabled := inferInstanceAs (DecidableRel enabled)

/-- Where the queue is compared with the mirror, no echo of an earlier write stands in the
mirror. Saves that disagree are stored and sent back in the order they were made. A save
that landed clears a value from the queue only if no later save carries another. -/
def Orderly (s : State) : Action → Prop
  | .flush => ∀ key ∈ syncedKeys, s.fan.tab.pending key ≠ none → s.remote key = s.written key
  | .serve (.store (.rename i _)) => ∀ c ∈ s.fan.store.commits, i < c.1 →
      Agree (s.fan.store.patch i) c.2
  | .serve (.send i) => PreferenceFanOut.Ordered s.fan (.send i)
  | .answer i =>
    if s.refusedBy i = true then
      s.immediate i = true ∨ ∀ key ∈ syncedKeys, s.sending i key ≠ none →
        s.fan.tab.pending key = none → s.remote key = s.written key
    else
      s.immediate i = false ∨ ∀ key ∈ syncedKeys, s.sending i key ≠ none →
        s.fan.tab.pending key = s.sending i key → ∀ j < s.requests.length, i < j →
          s.sending j key = none ∨ s.sending j key = s.sending i key
  | _ => True

instance : DecidableRel Orderly := fun s a =>
  match a with
  | .flush => inferInstanceAs (Decidable (∀ key ∈ syncedKeys, s.fan.tab.pending key ≠ none →
      s.remote key = s.written key))
  | .serve (.store (.rename i _)) => inferInstanceAs (Decidable (∀ c ∈ s.fan.store.commits,
      i < c.1 → Agree (s.fan.store.patch i) c.2))
  | .serve (.send i) => inferInstanceAs (Decidable (PreferenceFanOut.Ordered s.fan (.send i)))
  | .answer _ => inferInstanceAs (Decidable (ite _ _ _))
  | .write .. | .flushPreferencesNow | .serve (.store (.call _)) | .serve (.store (.validate _))
  | .serve (.store (.lock _)) | .serve (.store (.read _)) | .serve (.store (.write ..))
  | .serve (.store (.writeFails ..)) | .serve (.store (.renameFails ..))
  | .serve (.store (.finish ..)) | .serve (.store .readFile) | .serve (.receive _) =>
    .isTrue trivial

/-- No timer, no request and no echo is outstanding. -/
def Quiet (s : State) : Prop :=
  s.fan.tab.flushTimer = false ∧ (∀ i < s.requests.length, s.answered i = true) ∧
    s.fan.received = s.fan.sent.length

instance (s : State) : Decidable (Quiet s) := inferInstanceAs (Decidable (_ ∧ _ ∧ _))

/-! ## The requests, one by one -/

theorem lt_of_sending {s : State} {i : ℕ} {key value : String}
    (h : s.sending i key = some value) : i < s.requests.length := by
  by_contra hge
  rw [State.sending, List.getElem?_eq_none (Nat.not_lt.mp hge)] at h
  cases h

section Push
variable {s t : State} {request : Request} (h : t.requests = s.requests ++ [request])
include h

theorem sending_push (i : ℕ) :
    t.sending i = if i = s.requests.length then request.sending else s.sending i := by
  simp only [State.sending, h, getElem?_append_singleton]
  split_ifs <;> rfl

theorem immediate_push (i : ℕ) :
    t.immediate i = if i = s.requests.length then request.immediate else s.immediate i := by
  simp only [State.immediate, h, getElem?_append_singleton]
  split_ifs <;> rfl

theorem answered_push (i : ℕ) :
    t.answered i = if i = s.requests.length then request.answered else s.answered i := by
  simp only [State.answered, h, getElem?_append_singleton]
  split_ifs <;> rfl

end Push

section Answer
variable {s t : State} {i : ℕ}
  (h : t.requests = s.requests.modify i fun request => { request with answered := true })
include h

theorem sending_answer (j : ℕ) : t.sending j = s.sending j := by
  by_cases hj : i = j
  · cases hr : s.requests[j]? <;> simp [State.sending, h, hj, hr]
  · simp [State.sending, h, hj]

theorem immediate_answer (j : ℕ) : t.immediate j = s.immediate j := by
  by_cases hj : i = j
  · cases hr : s.requests[j]? <;> simp [State.immediate, h, hj, hr]
  · simp [State.immediate, h, hj]

theorem answered_answer {j : ℕ} (hj : j ≠ i) : t.answered j = s.answered j := by
  simp [State.answered, h, Ne.symm hj]

end Answer

/-! ## What the run keeps -/

/-- Request `i` carries the value, and no later one another. -/
def Latest (s : State) (i : ℕ) (key value : String) : Prop :=
  s.sending i key = some value ∧ ∀ j, i < j → ∀ v, s.sending j key = some v → v = value

/-- The echo of the request has come back. -/
def Echoed (s : State) (i : ℕ) : Prop :=
  ∃ c ∈ s.fan.sent.take s.fan.received, c.1 = i

/-- What the server has of the requests. -/
structure Served (stored : Preferences) (s : State) : Prop where
  fanned : PreferenceFanOut.Fanned stored s.fan
  calls : s.fan.store.calls.length = s.requests.length
  patches : ∀ i, s.fan.store.patch i = patchOf (s.sending i)
  ordered : Always (fun before d => ∀ c ∈ before, d.1 < c.1 → Agree d.2 c.2) s.fan.store.commits
  answers : ∀ i, s.answered i = true → s.fan.answered i = true

/-- What the device has of its writes. -/
structure Kept (s : State) : Prop where
  hydrated : ∃ remote, s.fan.tab.remote = some remote
  pendingSynced : ∀ key v, s.fan.tab.pending key = some v → key ∈ syncedKeys
  sendingSynced : ∀ i key v, s.sending i key = some v → key ∈ syncedKeys
  queued : ∀ key v, s.fan.tab.pending key = some v → s.written key = some v
  armed : ∀ key v, s.fan.tab.pending key = some v → s.fan.tab.flushTimer = true ∨
    ∃ i, s.immediate i = true ∧ s.answered i = false ∧ s.sending i key = some v
  saved : ∀ key v, s.written key = some v → s.fan.tab.pending key = some v ∨
    ∃ i, Latest s i key v ∧
      ((s.fan.store.accepted i).isSome = true ∨ s.immediate i = false ∧ s.answered i = false)
  shown : ∀ key v i, s.written key = some v → Latest s i key v → Echoed s i →
    s.remote key = some v

variable {stored : Preferences} {s : State}

/-! ### On the server -/

theorem Served.withTab (h : Served stored s) (tab : Device) : Served stored (s.withTab tab) where
  fanned := ⟨h.fanned.store, h.fanned.committed, h.fanned.ordered, h.fanned.received⟩
  calls := h.calls
  patches := h.patches
  ordered := h.ordered
  answers := h.answers

theorem Served.put (h : Served stored s) (immediate : Bool) (r : Device × Option Entries) :
    Served stored (s.put immediate r) := by
  obtain ⟨tab, sending⟩ := r
  cases sending with
  | none => exact h.withTab tab
  | some sending =>
    have hpush : (s.put immediate (tab, some sending)).requests =
        s.requests ++ [⟨sending, immediate, false⟩] := rfl
    have hstep := (h.withTab tab).fanned.store_step (a := .call (patchOf sending)) trivial
    refine ⟨hstep, ?_, fun i => ?_, h.ordered, fun i hi => ?_⟩
    · have hcalls : (s.put immediate (tab, some sending)).fan.store.calls =
          s.fan.store.calls ++ [⟨patchOf sending, .called⟩] := rfl
      rw [hpush, hcalls, List.length_append, List.length_append, h.calls]
      rfl
    · have hpatch := patch_call s.fan.store (patchOf sending) i
      rw [h.calls] at hpatch
      rw [sending_push hpush]
      refine hpatch.trans ?_
      split_ifs
      · rfl
      · exact h.patches i
    · rw [answered_push hpush] at hi
      split_ifs at hi with hne
      have hold := h.answers i hi
      have hstage := stage_call s.fan.store (patchOf sending) i
      rw [h.calls, if_neg hne] at hstage
      simp only [PreferenceFanOut.State.answered] at hold ⊢
      rw [show (s.put immediate (tab, some sending)).fan.store.stage i = _ from hstage]
      exact hold

theorem fan_answered_serve {fan : PreferenceFanOut.State} {a : PreferenceFanOut.Action}
    (ha : PreferenceFanOut.enabled fan a) {i : ℕ} (hi : fan.answered i = true) :
    (PreferenceFanOut.next fan a).answered i = true := by
  cases a with
  | store a =>
    cases hstage : fan.store.stage i with
    | none => simp [PreferenceFanOut.State.answered, hstage] at hi
    | some stage =>
      have hover : stage.over = true := by
        cases stage <;> simp_all [PreferenceFanOut.State.answered, Stage.over]
      have hnext := stage_next_of_over ha hstage hover
      simp only [PreferenceFanOut.State.answered, hstage] at hi
      simp only [PreferenceFanOut.State.answered, PreferenceFanOut.next, PreferenceStore.machine,
        hnext]
      exact hi
  | send j =>
    simp only [PreferenceFanOut.State.answered, PreferenceFanOut.next] at hi ⊢
    split at hi
    · rfl
    · have hmem := of_decide_eq_true hi
      exact decide_eq_true (by rw [List.map_append]; exact List.mem_append_left _ hmem)
    · cases hi
  | receive c => exact hi

theorem Served.serve (h : Served stored s) {a : PreferenceFanOut.Action}
    (ha : enabled s (.serve a)) (hcond : Orderly s (.serve a)) :
    Served stored (next s (.serve a)) := by
  obtain ⟨ha, hserves⟩ := ha
  have hanswers : ∀ i, s.answered i = true → (PreferenceFanOut.next s.fan a).answered i = true :=
    fun i hi => fan_answered_serve ha (h.answers i hi)
  cases a with
  | store a =>
    have hcall : ∀ patch, a ≠ .call patch := by
      rintro patch rfl
      exact hserves
    refine ⟨h.fanned.store_step ha, (length_next ha hcall).trans h.calls,
      fun i => (patch_next ha hcall i).trans (h.patches i), ?_, hanswers⟩
    rcases commits_step h.fanned.store ha with hsame | ⟨i, m, rfl, -, hgrow⟩
    · exact hsame ▸ h.ordered
    · exact hgrow ▸ always_append_singleton.mpr ⟨h.ordered, hcond⟩
  | send i => exact ⟨h.fanned.send ha.1 hcond, h.calls, h.patches, h.ordered, hanswers⟩
  | receive c => exact ⟨h.fanned.receive ha, h.calls, h.patches, h.ordered, hanswers⟩

theorem Served.answer (h : Served stored s) {i : ℕ} (ha : enabled s (.answer i)) :
    Served stored (next s (.answer i)) := by
  have hr : (next s (.answer i)).requests =
      s.requests.modify i fun request => { request with answered := true } := rfl
  have htab := h.withTab (s.settle i)
  refine ⟨htab.fanned, ?_, fun j => ?_, h.ordered, fun j hj => ?_⟩
  · rw [hr, List.length_modify]
    exact h.calls
  · rw [sending_answer hr]
    exact h.patches j
  · by_cases hji : j = i
    · exact hji ▸ ha.2.2
    · exact h.answers j ((answered_answer hr hji).symm.trans hj)

theorem served_step (s : State) (a : Action) (h : Served stored s)
    (ha : (machine.restrict Orderly).enabled s a) : Served stored (next s a) := by
  obtain ⟨ha, hcond⟩ := ha
  cases a with
  | write key value =>
    have htab := h.withTab (s.fan.tab.writeStoredItem key value)
    exact ⟨htab.fanned, htab.calls, htab.patches, htab.ordered, htab.answers⟩
  | flush => exact h.put false _
  | flushPreferencesNow => exact h.put true _
  | serve a => exact h.serve ha hcond
  | answer i => exact h.answer ha

theorem served_init (file : Contents) (localStorage : Entries) :
    Served (readAt file) (.init file localStorage) where
  fanned := PreferenceFanOut.fanned_init file localStorage
  calls := rfl
  patches i := by simp [State.init, State.sending, PreferenceFanOut.State.init,
    PreferenceStore.State.init, PreferenceStore.State.patch, patchOf, ofKeys, noEntries]
  ordered := always_nil _
  answers i hi := by cases hi

theorem written_patchOf (sending : Entries) (hsynced : ∀ key v, sending key = some v →
    key ∈ syncedKeys) (key : String) :
    written (patchOf sending) key = (sending key).map some := by
  rw [patchOf, written_ofKeys]
  split_ifs with hkey
  · rfl
  · cases hv : sending key with
    | none => rfl
    | some v => exact absurd (hsynced key v hv) hkey

/-! ### On the device -/

theorem kept_init (file : Contents) (localStorage : Entries) : Kept (.init file localStorage) where
  hydrated := ⟨_, rfl⟩
  pendingSynced key v h := by cases h
  sendingSynced i key v h := by cases h
  queued key v h := by cases h
  armed key v h := by cases h
  saved key v h := by cases h
  shown key v i h := by cases h

theorem Kept.write (h : Kept s) (key value : String) : Kept (next s (.write key value)) := by
  obtain ⟨remote, hremote⟩ := h.hydrated
  by_cases hkey : key ∈ syncedKeys
  · have hpending : (next s (.write key value)).fan.tab.pending =
        Function.update s.fan.tab.pending key (some value) :=
      Device.writeStoredItem_pending hremote hkey value
    have hmirror : (next s (.write key value)).fan.tab.remote =
        some (Function.update remote key (some value)) :=
      Device.writeStoredItem_remote hremote hkey value
    have hwritten : (next s (.write key value)).written =
        Function.update s.written key (some value) := by simp [next, hkey]
    have htimer : (next s (.write key value)).fan.tab.flushTimer = true :=
      Device.writeStoredItem_flushTimer hremote hkey value
    refine ⟨⟨_, hmirror⟩, ?_, h.sendingSynced, ?_, fun _ _ _ => .inl htimer, ?_, ?_⟩
    · intro k v hk
      rw [hpending, Function.update_apply] at hk
      split_ifs at hk with hkk
      · exact hkk ▸ hkey
      · exact h.pendingSynced k v hk
    · intro k v hk
      rw [hpending, Function.update_apply] at hk
      rw [hwritten, Function.update_apply]
      split_ifs at hk ⊢ with hkk
      · exact hk
      · exact h.queued k v hk
    · intro k v hk
      rw [hwritten, Function.update_apply] at hk
      rw [hpending, Function.update_apply]
      split_ifs at hk ⊢ with hkk
      · exact .inl hk
      · exact h.saved k v hk
    · intro k v i hk hlatest hechoed
      rw [hwritten, Function.update_apply] at hk
      rw [State.remote, hmirror, Option.bind_some, Function.update_apply]
      split_ifs at hk ⊢ with hkk
      · exact hk
      · have hold := h.shown k v i hk hlatest hechoed
        rwa [State.remote, hremote, Option.bind_some] at hold
  · have htab := Device.writeStoredItem_of_not_synced s.fan.tab hkey value
    have hwritten : (next s (.write key value)).written = s.written := by simp [next, hkey]
    have hmirror : (next s (.write key value)).fan.tab.remote = s.fan.tab.remote := by
      rw [next, State.withTab, htab]
    have hpending : (next s (.write key value)).fan.tab.pending = s.fan.tab.pending := by
      rw [next, State.withTab, htab]
    have htimer : (next s (.write key value)).fan.tab.flushTimer = s.fan.tab.flushTimer := by
      rw [next, State.withTab, htab]
    refine ⟨⟨remote, hmirror.trans hremote⟩, ?_, h.sendingSynced, ?_, ?_, ?_, ?_⟩
    · rw [hpending]
      exact h.pendingSynced
    · rw [hpending, hwritten]
      exact h.queued
    · rw [hpending, htimer]
      exact h.armed
    · rw [hpending, hwritten]
      exact h.saved
    · rw [hwritten]
      intro k v i hk hlatest hechoed
      rw [State.remote, hmirror]
      exact h.shown k v i hk hlatest hechoed

theorem Served.mem_commits (h : Served stored s) {i : ℕ} (hi : Echoed s i) :
    (i, patchOf (s.sending i)) ∈ s.fan.store.commits := by
  obtain ⟨c, hc, rfl⟩ := hi
  have hmem := h.fanned.committed c (List.mem_of_mem_take hc)
  obtain ⟨m, -, hpatch⟩ := h.fanned.store.of_mem_commits hmem
  rw [← h.patches, hpatch]
  exact hmem

theorem Served.lt_of_mem_commits (h : Served stored s) {c : ℕ × PreferencesPatch}
    (hc : c ∈ s.fan.store.commits) : c.1 < s.requests.length := by
  obtain ⟨m, hacc, -⟩ := h.fanned.store.of_mem_commits hc
  obtain ⟨stage, hstage, -⟩ := Option.bind_eq_some_iff.mp hacc
  exact h.calls ▸ lt_of_stage hstage

theorem Kept.noEntries_of_isEmpty (h : Kept s) (hempty : IsEmpty s.fan.tab.pending) :
    s.fan.tab.pending = noEntries := by
  funext key
  cases hv : s.fan.tab.pending key with
  | none => rfl
  | some v => rw [hempty key (h.pendingSynced key v hv)] at hv; cases hv

/-- The queue leaves in a request, whether or not it stays queued. -/
theorem Kept.push (h : Kept s) (hs : Served stored s) {immediate : Bool} {tab : Device}
    (hremote : tab.remote = s.fan.tab.remote)
    (hpending : tab.pending = if immediate = true then s.fan.tab.pending else noEntries) :
    Kept (s.put immediate (tab, some s.fan.tab.pending)) := by
  set t := s.put immediate (tab, some s.fan.tab.pending) with ht
  have hpush : t.requests = s.requests ++ [⟨s.fan.tab.pending, immediate, false⟩] := rfl
  have htab : t.fan.tab = tab := rfl
  have hwritten : t.written = s.written := rfl
  have hstay : ∀ key v, tab.pending key = some v →
      s.fan.tab.pending key = some v ∧ immediate = true := by
    intro key v hv
    rw [hpending] at hv
    split_ifs at hv with himm
    · exact ⟨hv, himm⟩
    · cases hv
  have hlatest : ∀ i key v, s.written key = some v → Latest s i key v → Latest t i key v := by
    rintro i key v hv ⟨hi, hlater⟩
    have hlt := lt_of_sending hi
    refine ⟨by rw [sending_push hpush, if_neg hlt.ne, hi], fun j hij w hw => ?_⟩
    rw [sending_push hpush] at hw
    split_ifs at hw with hj
    · exact Option.some.inj ((h.queued key w hw).symm.trans hv)
    · exact hlater j hij w hw
  have hechoed : ∀ i, Echoed t i → i ≠ s.requests.length := fun i hi =>
    (hs.lt_of_mem_commits (hs.mem_commits hi)).ne
  have hnew : ∀ key v, s.fan.tab.pending key = some v → Latest t s.requests.length key v := by
    intro key v hv
    refine ⟨by rw [sending_push hpush, if_pos rfl]; exact hv, fun j hj w hw => ?_⟩
    rw [sending_push hpush, if_neg hj.ne'] at hw
    exact absurd (lt_of_sending hw) hj.not_gt
  refine ⟨?_, ?_, ?_, ?_, ?_, ?_, ?_⟩
  · rw [htab, hremote]
    exact h.hydrated
  · intro key v hv
    exact h.pendingSynced key v (hstay key v hv).1
  · intro i key v hv
    rw [sending_push hpush] at hv
    split_ifs at hv
    · exact h.pendingSynced key v hv
    · exact h.sendingSynced i key v hv
  · intro key v hv
    exact h.queued key v (hstay key v hv).1
  · intro key v hv
    obtain ⟨hv, himm⟩ := hstay key v hv
    refine .inr ⟨s.requests.length, ?_, ?_, (hnew key v hv).1⟩
    · rw [immediate_push hpush, if_pos rfl, himm]
    · rw [answered_push hpush, if_pos rfl]
  · intro key v hv
    rcases h.saved key v hv with hqueued | ⟨i, hi, hgone⟩
    · cases himm : immediate with
      | true =>
        left
        rw [htab, hpending, if_pos himm, hqueued]
      | false =>
        refine .inr ⟨s.requests.length, hnew key v hqueued, .inr ⟨?_, ?_⟩⟩
        · rw [immediate_push hpush, if_pos rfl, himm]
        · rw [answered_push hpush, if_pos rfl]
    · have hne := (lt_of_sending hi.1).ne
      refine .inr ⟨i, hlatest i key v hv hi, ?_⟩
      rw [immediate_push hpush, answered_push hpush, if_neg hne, if_neg hne]
      refine hgone.imp_left fun hacc => ?_
      have hstage := stage_call s.fan.store (patchOf s.fan.tab.pending) i
      rw [hs.calls, if_neg hne] at hstage
      rw [PreferenceStore.State.accepted] at hacc ⊢
      rw [show t.fan.store.stage i = _ from hstage]
      exact hacc
  · intro key v i hv hi hecho
    have hne := hechoed i hecho
    have hold : Latest s i key v := by
      obtain ⟨hi, hlater⟩ := hi
      rw [sending_push hpush, if_neg hne] at hi
      refine ⟨hi, fun j hij w hw => hlater j hij w ?_⟩
      rw [sending_push hpush, if_neg (lt_of_sending hw).ne, hw]
    have hmirror : t.remote key = s.remote key := by
      rw [State.remote, State.remote, htab, hremote]
    rw [hmirror]
    exact h.shown key v i hv hold hecho

theorem Kept.flush (h : Kept s) (hs : Served stored s) (hcond : Orderly s .flush) :
    Kept (next s .flush) := by
  obtain ⟨remote, hremote⟩ := h.hydrated
  have hmirror : ∀ key, s.fan.tab.pending key ≠ none → remote key = s.fan.tab.pending key := by
    intro key hne
    obtain ⟨v, hv⟩ := Option.ne_none_iff_exists'.mp hne
    have hwritten := hcond key (h.pendingSynced key v hv) hne
    rw [h.queued key v hv, State.remote, hremote, Option.bind_some] at hwritten
    rw [hwritten, hv]
  have hflush := Device.flush_of_not_stale hremote hmirror
  simp only [next, hflush]
  split_ifs with hempty
  · have hnone := h.noEntries_of_isEmpty hempty
    refine ⟨⟨remote, hremote⟩, nofun, h.sendingSynced, nofun, nofun, ?_, h.shown⟩
    intro key v hv
    rcases h.saved key v hv with hqueued | hgone
    · rw [hnone] at hqueued
      cases hqueued
    · exact .inr hgone
  · exact h.push hs rfl rfl

theorem Kept.flushPreferencesNow (h : Kept s) (hs : Served stored s) :
    Kept (next s .flushPreferencesNow) := by
  simp only [next, Device.flushPreferencesNow]
  split_ifs with hnothing
  · exact h
  · exact h.push hs rfl rfl

/-- The echo of a save leaves what the device was last told of its latest one. -/
theorem Served.agree_of_echoed (h : Served stored s) {i : ℕ} (hi : Echoed s i)
    {c : ℕ × PreferencesPatch} (hc : s.fan.sent[s.fan.received]? = some c) (hlt : c.1 < i) :
    Agree c.2 (patchOf (s.sending i)) := by
  have hicommit := h.mem_commits hi
  obtain ⟨d, hd, rfl⟩ := hi
  obtain ⟨hr, rfl⟩ := List.getElem?_eq_some_iff.mp hc
  set c := s.fan.sent[s.fan.received]
  have hsplit : s.fan.sent = s.fan.sent.take s.fan.received ++
      c :: s.fan.sent.drop (s.fan.received + 1) := by
    rw [List.getElem_cons_drop, List.take_append_drop]
  have hd2 : d.2 = patchOf (s.sending d.1) := by
    obtain ⟨m, -, hpatch⟩ :=
      h.fanned.store.of_mem_commits (h.fanned.committed d (List.mem_of_mem_take hd))
    rw [← h.patches, hpatch]
  have hccommit : c ∈ s.fan.store.commits := h.fanned.committed c (List.getElem_mem hr)
  have hdcommit : d ∈ s.fan.store.commits := h.fanned.committed d (List.mem_of_mem_take hd)
  obtain ⟨before, rest, heq⟩ := List.append_of_mem hccommit
  rw [← hd2]
  have hdmem := hdcommit
  rw [heq] at hdmem
  rcases List.mem_append.mp hdmem with hbefore | hrest
  · exact h.ordered before c rest heq d hbefore hlt
  · rcases List.mem_cons.mp hrest with rfl | hrest
    · exact absurd hlt (lt_irrefl _)
    · refine h.fanned.ordered _ c _ hsplit d hd ?_
      rw [heq, List.map_append, List.map_cons]
      refine List.Sublist.trans ?_ (List.sublist_append_right _ _)
      exact (List.singleton_sublist.mpr (List.mem_map_of_mem hrest)).cons_cons _

theorem Kept.receive (h : Kept s) (hs : Served stored s) {c : ℕ × PreferencesPatch}
    (hc : s.fan.sent[s.fan.received]? = some c) : Kept (next s (.serve (.receive c))) := by
  obtain ⟨remote, hremote⟩ := h.hydrated
  obtain ⟨remote', hremote', hkeys⟩ := Device.applyRemotePreferences_remote hremote c.2
  obtain ⟨hpending, htimer⟩ := s.fan.tab.applyRemotePreferences_queue c.2
  set t := next s (.serve (.receive c)) with ht
  have htab : t.fan.tab = s.fan.tab.applyRemotePreferences c.2 := rfl
  have hc2 : c.2 = patchOf (s.sending c.1) := by
    obtain ⟨m, -, hpatch⟩ :=
      hs.fanned.store.of_mem_commits (hs.fanned.committed c (List.mem_of_getElem? hc))
    rw [← hs.patches, hpatch]
  refine ⟨⟨remote', hremote'⟩, ?_, h.sendingSynced, ?_, ?_, ?_, ?_⟩
  · rw [htab, hpending]
    exact h.pendingSynced
  · rw [htab, hpending]
    exact h.queued
  · rw [htab, hpending, htimer]
    exact h.armed
  · rw [htab, hpending]
    exact h.saved
  · intro key v i hv hlatest hecho
    replace hlatest : Latest s i key v := hlatest
    have hkey := h.sendingSynced i key v hlatest.1
    have hmirror : t.remote key = (written c.2 key).getD (remote key) := by
      rw [State.remote, htab, hremote', Option.bind_some, hkeys key hkey]
    have hecho' : Echoed s i ∨ c.1 = i := by
      obtain ⟨d, hd, rfl⟩ := hecho
      have hd' : d ∈ s.fan.sent.take (s.fan.received + 1) := hd
      rw [List.take_add_one, hc, List.mem_append] at hd'
      rcases hd' with hd' | hd'
      · exact .inl ⟨d, hd', rfl⟩
      · exact .inr (congrArg Prod.fst (Option.mem_toList.mp hd' |> Option.some.inj))
    rw [hmirror]
    cases hw : written c.2 key with
    | none =>
      rcases hecho' with hecho' | rfl
      · have hold := h.shown key v i hv hlatest hecho'
        rwa [State.remote, hremote, Option.bind_some] at hold
      · rw [hc2, written_patchOf _ (h.sendingSynced c.1), hlatest.1] at hw
        cases hw
    | some w =>
      have hw' := hw
      rw [hc2, written_patchOf _ (h.sendingSynced c.1)] at hw'
      obtain ⟨u, hu, rfl⟩ := Option.map_eq_some_iff.mp hw'
      have hiw : written (patchOf (s.sending i)) key = some (some v) := by
        rw [written_patchOf _ (h.sendingSynced i), hlatest.1]
        rfl
      rcases Nat.lt_trichotomy c.1 i with hlt | heq | hgt
      · rcases hecho' with hecho' | rfl
        · exact (hs.agree_of_echoed hecho' hc hlt).eq hw hiw
        · exact absurd hlt (lt_irrefl _)
      · rw [heq, hlatest.1] at hu
        exact hu.symm
      · exact congrArg some (hlatest.2 c.1 hgt u hu)

/-- A step of the server moves no key of the device, and takes back no acceptance. -/
theorem Kept.serve (h : Kept s) (hs : Served stored s) {a : PreferenceFanOut.Action}
    (ha : enabled s (.serve a)) : Kept (next s (.serve a)) := by
  obtain ⟨ha, hserves⟩ := ha
  cases a with
  | receive c => exact h.receive hs ha
  | store a =>
    refine ⟨h.hydrated, h.pendingSynced, h.sendingSynced, h.queued, h.armed, ?_, h.shown⟩
    intro key v hv
    refine (h.saved key v hv).imp_right ?_
    rintro ⟨i, hi, hgone⟩
    exact ⟨i, hi, hgone.imp_left (accepted_next hs.fanned.store ha)⟩
  | send i =>
    refine ⟨h.hydrated, h.pendingSynced, h.sendingSynced, h.queued, h.armed, h.saved, ?_⟩
    intro key v j hv hlatest hecho
    refine h.shown key v j hv hlatest ?_
    obtain ⟨c, hc, hcj⟩ := hecho
    have htake : (next s (.serve (.send i))).fan.sent.take s.fan.received =
        s.fan.sent.take s.fan.received := List.take_append_of_le_length hs.fanned.received
    exact ⟨c, htake ▸ hc, hcj⟩

/-- A request is over, and the device is left as `tab`. -/
theorem Kept.settled (h : Kept s) {i : ℕ}
    (hremote : (s.settle i).remote = s.fan.tab.remote)
    (hqueued : ∀ key v, (s.settle i).pending key = some v → s.written key = some v)
    (harmed : (s.settle i).flushTimer = true ∨
      (s.settle i).flushTimer = s.fan.tab.flushTimer ∧ ∀ key v,
        (s.settle i).pending key = some v → s.fan.tab.pending key = some v ∧
          ¬ (s.immediate i = true ∧ s.sending i key = some v))
    (hsaved : ∀ key v, s.written key = some v → (s.settle i).pending key = some v ∨
      ∃ j, Latest s j key v ∧ ((s.fan.store.accepted j).isSome = true ∨
        j ≠ i ∧ s.immediate j = false ∧ s.answered j = false)) :
    Kept (next s (.answer i)) := by
  have hr : (next s (.answer i)).requests =
      s.requests.modify i fun request => { request with answered := true } := rfl
  have hlatest : ∀ j key v, Latest (next s (.answer i)) j key v ↔ Latest s j key v := by
    intro j key v
    simp only [Latest, sending_answer hr]
  have hmirror : ∀ key, (next s (.answer i)).remote key = s.remote key := by
    intro key
    exact congrArg (fun r : Option Entries => r.bind fun remote => remote key) hremote
  refine ⟨?_, ?_, ?_, hqueued, ?_, ?_, ?_⟩
  · obtain ⟨remote, h'⟩ := h.hydrated
    exact ⟨remote, hremote.trans h'⟩
  · intro key v hv
    rcases h.saved key v (hqueued key v hv) with hp | ⟨j, hj, -⟩
    · exact h.pendingSynced key v hp
    · exact h.sendingSynced j key v hj.1
  · intro j key v hv
    rw [sending_answer hr] at hv
    exact h.sendingSynced j key v hv
  · intro key v hv
    rcases harmed with htimer | ⟨htimer, hold⟩
    · exact .inl htimer
    · obtain ⟨hp, hnot⟩ := hold key v hv
      rcases h.armed key v hp with ht | ⟨j, hj, hja, hjs⟩
      · exact .inl (htimer.trans ht)
      · have hji : j ≠ i := by
          rintro rfl
          exact hnot ⟨hj, hjs⟩
        refine .inr ⟨j, ?_, ?_, ?_⟩
        · rw [immediate_answer hr, hj]
        · rw [answered_answer hr hji, hja]
        · rw [sending_answer hr, hjs]
  · intro key v hv
    refine (hsaved key v hv).imp_right ?_
    rintro ⟨j, hj, hgone⟩
    refine ⟨j, (hlatest j key v).mpr hj, hgone.imp_right ?_⟩
    rintro ⟨hji, hj, hja⟩
    exact ⟨by rw [immediate_answer hr, hj], by rw [answered_answer hr hji, hja]⟩
  · intro key v j hv hj hecho
    rw [hmirror]
    exact h.shown key v j hv ((hlatest j key v).mp hj) hecho

theorem not_accepted_of_refused {i : ℕ} (hi : s.refusedBy i = true) :
    s.fan.store.accepted i = none := by
  simp only [State.refusedBy] at hi
  split at hi
  · rename_i error heq
    simp [PreferenceStore.State.accepted, heq, Stage.accepted]
  · cases hi

theorem accepted_of_answered {i : ℕ} (hi : s.fan.answered i = true)
    (hrefused : ¬ s.refusedBy i = true) : (s.fan.store.accepted i).isSome = true := by
  simp only [PreferenceFanOut.State.answered] at hi
  split at hi
  · rename_i error heq
    simp [State.refusedBy, heq] at hrefused
  · rename_i m heq
    simp [PreferenceStore.State.accepted, heq, Stage.accepted]
  · cases hi

theorem Kept.answer_refused (h : Kept s) {i : ℕ} (hi : s.refusedBy i = true)
    (hcond : Orderly s (.answer i)) : Kept (next s (.answer i)) := by
  simp only [Orderly, if_pos hi] at hcond
  have hacc := not_accepted_of_refused hi
  cases himm : s.immediate i with
  | true =>
    have hsettle : s.settle i = s.fan.tab.retryLater := by simp [State.settle, hi, himm]
    refine h.settled ?_ ?_ (.inl ?_) ?_
    · rw [hsettle]
      rfl
    · rw [hsettle]
      exact h.queued
    · rw [hsettle]
      rfl
    · rw [hsettle]
      intro key v hv
      refine (h.saved key v hv).imp_right ?_
      rintro ⟨j, hj, hgone⟩
      refine ⟨j, hj, hgone.imp_right ?_⟩
      rintro ⟨hjimm, hja⟩
      refine ⟨?_, hjimm, hja⟩
      rintro rfl
      rw [himm] at hjimm
      cases hjimm
  | false =>
    replace hcond := hcond.resolve_left (by simp [himm])
    have hsettle : s.settle i = s.fan.tab.flushFailed (s.sending i) := by
      simp [State.settle, hi, himm]
    have hpending : ∀ key, (s.settle i).pending key =
        if s.fan.tab.pending key = none ∧ s.remote key = s.sending i key then s.sending i key
        else s.fan.tab.pending key := by
      rw [hsettle]
      exact fun key => rfl
    refine h.settled ?_ ?_ (.inl ?_) ?_
    · rw [hsettle]
      rfl
    · intro key v hv
      rw [hpending] at hv
      split_ifs at hv with hback
      · have hsent : s.sending i key ≠ none := by simp [hv]
        have hmirror := hcond key (h.sendingSynced i key v hv) hsent hback.1
        rw [← hmirror, hback.2, hv]
      · exact h.queued key v hv
    · rw [hsettle]
      rfl
    · intro key v hv
      rw [hpending]
      rcases h.saved key v hv with hp | ⟨j, hj, hgone⟩
      · left
        rw [if_neg (by simp [hp]), hp]
      · by_cases hji : j = i
        · subst hji
          left
          cases hp : s.fan.tab.pending key with
          | none =>
            have hmirror := hcond key (h.sendingSynced j key v hj.1) (by simp [hj.1]) hp
            rw [if_pos ⟨rfl, by rw [hmirror, hv, hj.1]⟩, hj.1]
          | some w =>
            rw [if_neg (by simp), ← h.queued key w hp, hv]
        · exact .inr ⟨j, hj, hgone.imp_right fun hopen => ⟨hji, hopen⟩⟩

theorem Kept.answer_stored (h : Kept s) {i : ℕ} (ha : enabled s (.answer i))
    (hi : ¬ s.refusedBy i = true) (hcond : Orderly s (.answer i)) :
    Kept (next s (.answer i)) := by
  simp only [Orderly, if_neg hi] at hcond
  have hacc := accepted_of_answered ha.2.2 hi
  have hothers : ∀ key v, (∃ j, Latest s j key v ∧
      ((s.fan.store.accepted j).isSome = true ∨ s.immediate j = false ∧ s.answered j = false)) →
      ∃ j, Latest s j key v ∧ ((s.fan.store.accepted j).isSome = true ∨
        j ≠ i ∧ s.immediate j = false ∧ s.answered j = false) := by
    rintro key v ⟨j, hj, hgone⟩
    by_cases hji : j = i
    · exact ⟨j, hj, .inl (hji ▸ hacc)⟩
    · exact ⟨j, hj, hgone.imp_right fun hopen => ⟨hji, hopen⟩⟩
  cases himm : s.immediate i with
  | false =>
    have hsettle : s.settle i = s.fan.tab := by simp [State.settle, hi, himm]
    refine h.settled ?_ ?_ (.inr ⟨?_, ?_⟩) ?_
    · rw [hsettle]
    · rw [hsettle]
      exact h.queued
    · rw [hsettle]
    · rw [hsettle]
      refine fun key v hv => ⟨hv, fun hnot => ?_⟩
      rw [himm] at hnot
      cases hnot.1
    · rw [hsettle]
      exact fun key v hv => (h.saved key v hv).imp_right (hothers key v)
  | true =>
    replace hcond := hcond.resolve_left (by simp [himm])
    have hsettle : s.settle i = s.fan.tab.delivered (s.sending i) := by
      simp [State.settle, hi, himm]
    have hpending : ∀ key, (s.settle i).pending key =
        if s.fan.tab.pending key = s.sending i key then none else s.fan.tab.pending key := by
      rw [hsettle]
      exact fun key => rfl
    refine h.settled ?_ ?_ (.inr ⟨?_, ?_⟩) ?_
    · rw [hsettle]
      rfl
    · intro key v hv
      rw [hpending] at hv
      split_ifs at hv
      exact h.queued key v hv
    · rw [hsettle]
      rfl
    · intro key v hv
      rw [hpending] at hv
      split_ifs at hv with hsame
      refine ⟨hv, fun hnot => hsame ?_⟩
      rw [hv, hnot.2]
    · intro key v hv
      rw [hpending]
      rcases h.saved key v hv with hp | hgone
      · split_ifs with hsame
        · have hsent : s.sending i key = some v := by rw [← hsame, hp]
          have hlater := hcond key (h.pendingSynced key v hp) (by simp [hsent]) hsame
          refine .inr ⟨i, ⟨hsent, fun j hij w hw => ?_⟩, .inl hacc⟩
          rcases hlater j (lt_of_sending hw) hij with hnone | heq
          · rw [hnone] at hw
            cases hw
          · rw [heq, hsent] at hw
            exact (Option.some.inj hw).symm
        · exact .inl hp
      · exact .inr (hothers key v hgone)

theorem kept_step (s : State) (a : Action) (hs : Served stored s) (h : Kept s)
    (ha : (machine.restrict Orderly).enabled s a) : Kept (next s a) := by
  obtain ⟨ha, hcond⟩ := ha
  cases a with
  | write key value => exact h.write key value
  | flush => exact h.flush hs hcond
  | flushPreferencesNow => exact h.flushPreferencesNow hs
  | serve a => exact h.serve hs ha
  | answer i =>
    by_cases hi : s.refusedBy i = true
    · exact h.answer_refused hi hcond
    · exact h.answer_stored ha hi hcond

/-! ## Once nothing is outstanding -/

theorem Kept.delivered_of_quiet (h : Kept s) (hq : Quiet s) {key v : String} (hv : s.written key = some v) :
    ∃ i, Latest s i key v ∧ (s.fan.store.accepted i).isSome = true := by
  obtain ⟨htimer, hanswered, -⟩ := hq
  have hopen : ∀ i, s.answered i = false → s.sending i key ≠ some v := by
    intro i hi hsent
    rw [hanswered i (lt_of_sending hsent)] at hi
    cases hi
  rcases h.saved key v hv with hp | ⟨i, hi, hacc | ⟨-, hia⟩⟩
  · rcases h.armed key v hp with ht | ⟨i, -, hia, hsent⟩
    · rw [htimer] at ht
      cases ht
    · exact absurd hsent (hopen i hia)
  · exact ⟨i, hi, hacc⟩
  · exact absurd hi.1 (hopen i hia)

/-- The latest request for a key decides what is stored there. -/
theorem Kept.lookup_of_latest (h : Kept s) (hs : Served stored s) {i : ℕ} {key v : String}
    (hi : Latest s i key v) (hacc : (s.fan.store.accepted i).isSome = true) :
    (readAt s.fan.store.file).lookup key = some v := by
  obtain ⟨m, hm⟩ := Option.isSome_iff_exists.mp hacc
  have hpatch : ∀ c ∈ s.fan.store.commits, c.2 = patchOf (s.sending c.1) := by
    intro c hc
    obtain ⟨_, -, hc2⟩ := hs.fanned.store.of_mem_commits hc
    rw [← hs.patches, hc2]
  have hwritten : ∀ c ∈ s.fan.store.commits, written c.2 key = (s.sending c.1 key).map some := by
    intro c hc
    rw [hpatch c hc, written_patchOf _ (h.sendingSynced c.1)]
  have hmem := hs.fanned.store.committed i m hm
  have hiv : written (s.fan.store.patch i) key = some (some v) := by
    rw [hwritten _ hmem, hi.1]
    rfl
  obtain ⟨before, rest, heq⟩ := List.append_of_mem hmem
  rw [hs.fanned.store.file, after, heq, List.map_append, List.map_cons]
  refine lookup_applyAll_of_last hiv fun q hq w hw => ?_
  obtain ⟨d, hd, rfl⟩ := List.mem_map.mp hq
  have hdmem : d ∈ s.fan.store.commits := by
    rw [heq]
    simp [hd]
  rcases Nat.lt_or_ge d.1 i with hlt | hge
  · obtain ⟨mid, rest', rfl⟩ := List.append_of_mem hd
    have hagree := hs.ordered (before ++ (i, s.fan.store.patch i) :: mid) d rest'
      (by simp [heq]) (i, s.fan.store.patch i) (by simp) hlt
    exact hagree.eq hw hiv
  · rw [hwritten d hdmem] at hw
    obtain ⟨u, hu, rfl⟩ := Option.map_eq_some_iff.mp hw
    rcases Nat.eq_or_lt_of_le hge with heq' | hgt
    · rw [← heq', hi.1] at hu
      exact hu.symm
    · exact congrArg some (hi.2 d.1 hgt u hu)

theorem Served.echoed_of_quiet (hs : Served stored s) (hq : Quiet s) {i : ℕ}
    (hi : i < s.requests.length) (hacc : (s.fan.store.accepted i).isSome = true) :
    Echoed s i := by
  have hanswered := hs.answers i (hq.2.1 i hi)
  obtain ⟨m, hm⟩ := Option.isSome_iff_exists.mp hacc
  obtain ⟨stage, hstage, hst⟩ := Option.bind_eq_some_iff.mp hm
  simp only [PreferenceFanOut.State.answered, hstage] at hanswered
  cases stage with
  | refused error => cases hst
  | returned m =>
    obtain ⟨c, hc, hci⟩ := List.mem_map.mp (of_decide_eq_true hanswered)
    exact ⟨c, by rw [hq.2.2, List.take_length]; exact hc, hci⟩
  | called | waiting | locked | merged _ | written _ | renamed _ => cases hanswered

theorem preferences_converge (file : Contents) (localStorage : Entries) (s : State)
    (hrun : (machine.restrict Orderly).Reaches (.init file localStorage) s) (hq : Quiet s)
    (key v : String) (hv : s.written key = some v) :
    (readAt s.fan.store.file).lookup key = some v ∧
      s.fan.tab.readStoredItem key = some v := by
  obtain ⟨hs, h⟩ : Served (readAt file) s ∧ Kept s :=
    hrun.invariant (I := fun s => Served (readAt file) s ∧ Kept s)
      (fun s a h ha => ⟨served_step s a h.1 ha, kept_step s a h.1 h.2 ha⟩)
      ⟨served_init file localStorage, kept_init file localStorage⟩
  obtain ⟨i, hi, hacc⟩ := h.delivered_of_quiet hq hv
  refine ⟨h.lookup_of_latest hs hi hacc, ?_⟩
  have hmirror := h.shown key v i hv hi (hs.echoed_of_quiet hq (lt_of_sending hi.1) hacc)
  simp only [State.remote] at hmirror
  rw [Device.readStoredItem, hmirror]
  rfl

/-- Request `i` is stored and its patch is sent. -/
def storeAndSend (i : ℕ) (m : Preferences) : List Action :=
  [.validate i, .lock i, .read i, .write i m, .rename i m, .finish i m].map
    (fun a => .serve (.store a)) ++ [.serve (.send i)]

def theme (value : String) : PreferencesPatch := [("atomis.appearance.v1", some value)]

theorem preferences_converge_twice :
    ∃ s, (machine.restrict Orderly).Reaches (.init none noEntries) s ∧ Quiet s ∧
      s.written "atomis.appearance.v1" = some "crust" ∧
      (readAt s.fan.store.file).lookup "atomis.appearance.v1" = some "crust" ∧
      s.fan.tab.readStoredItem "atomis.appearance.v1" = some "crust" := by
  obtain ⟨s, hrun, hs⟩ := Machine.exists_reaches_of_exec (M := machine.restrict Orderly)
    (s := .init none noEntries)
    (l := [.write "atomis.appearance.v1" "mocha", .flush] ++
      storeAndSend 0 (apply ∅ (theme "mocha")) ++
      [.answer 0, .serve (.receive (0, theme "mocha")), .write "atomis.appearance.v1" "crust",
        .flushPreferencesNow] ++
      storeAndSend 1 (apply ∅ (theme "crust")) ++
      [.serve (.receive (1, theme "crust")), .answer 1])
    (p := fun s => decide (Quiet s ∧ s.written "atomis.appearance.v1" = some "crust"))
    (by decide +kernel)
  obtain ⟨hq, hwritten⟩ := of_decide_eq_true hs
  exact ⟨s, hrun, hq, hwritten, preferences_converge none noEntries s hrun hq _ _ hwritten⟩

/-- The echo of the first value comes while the second waits for its flush, which then takes
it for one that another device has moved past. -/
theorem preferences_diverge :
    ∃ s, machine.Reaches (.init none noEntries) s ∧ Quiet s ∧
      s.written "atomis.appearance.v1" = some "crust" ∧
      (readAt s.fan.store.file).lookup "atomis.appearance.v1" = some "mocha" ∧
      s.fan.tab.readStoredItem "atomis.appearance.v1" = some "mocha" := by
  obtain ⟨s, hrun, hs⟩ := Machine.exists_reaches_of_exec (M := machine)
    (s := .init none noEntries)
    (l := [.write "atomis.appearance.v1" "mocha", .flush] ++
      storeAndSend 0 (apply ∅ (theme "mocha")) ++
      [.answer 0, .write "atomis.appearance.v1" "crust", .serve (.receive (0, theme "mocha")),
        .flush])
    (p := fun s => decide (Quiet s ∧ s.written "atomis.appearance.v1" = some "crust" ∧
      (readAt s.fan.store.file).lookup "atomis.appearance.v1" = some "mocha" ∧
      s.fan.tab.readStoredItem "atomis.appearance.v1" = some "mocha"))
    (by decide +kernel)
  obtain ⟨hq, hrest⟩ := of_decide_eq_true hs
  exact ⟨s, hrun, hq, hrest⟩

end Atomis.PreferenceConvergence
