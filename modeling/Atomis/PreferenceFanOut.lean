import Atomis.DevicePreferences
import Atomis.PreferenceMerge

/-!
# The fan-out of preferences

`put_preferences` of `http/routes.rs` over the merges: a request sends its patch to
every open socket once its merge has returned, with the write lock dropped. A
listener that was there from the start takes the patches off the channel in the
order they were sent, as a map of its own (`held`) and as the tab of a browser.
-/

namespace Atomis.PreferenceFanOut
open KeyPatch History PreferenceStore DevicePreferences

structure State where
  store : PreferenceStore.State
  sent : List (ℕ × PreferencesPatch)
  received : ℕ
  held : Preferences
  tab : Device

def State.init (file : Contents) (localStorage : Entries) : State where
  store := .init file
  sent := []
  received := 0
  held := readAt file
  tab := .hydrated (readAt file) localStorage

inductive Action where
  | store (a : PreferenceStore.Action)
  | send (i : ℕ)
  | receive (c : ℕ × PreferencesPatch)
deriving DecidableEq

/-- The merge of the request has returned its map. -/
def State.merged (s : State) (i : ℕ) : Bool :=
  match s.store.stage i with
  | some (.returned _) => true
  | _ => false

def enabled (s : State) : Action → Prop
  | .store a => PreferenceStore.machine.enabled s.store a
  | .send i => s.merged i = true ∧ i ∉ s.sent.map Prod.fst
  | .receive c => s.sent[s.received]? = some c

instance : DecidableRel enabled := fun s a => by
  cases a <;> simp only [enabled] <;> infer_instance

def next (s : State) : Action → State
  | .store a => { s with store := PreferenceStore.machine.next s.store a }
  | .send i => { s with sent := s.sent ++ [(i, s.store.patch i)] }
  | .receive c => { s with
      received := s.received + 1
      held := apply s.held c.2
      tab := s.tab.applyRemotePreferences c.2 }

def machine : Machine State Action where
  enabled := enabled
  next := next

instance : DecidableRel machine.enabled := inferInstanceAs (DecidableRel enabled)

/-- Nothing that was stored after the patch and has been sent before it writes one of its
keys otherwise. -/
def Ordered (s : State) : Action → Prop
  | .send i => ∀ c ∈ s.sent, Precedes i c.1 (s.store.commits.map Prod.fst) →
      Agree (s.store.patch i) c.2
  | _ => True

instance : DecidableRel Ordered := fun s a => by
  cases a <;> simp only [Ordered] <;> infer_instance

/-- The request has its answer: a refusal, or the stored map once its patch is sent. -/
def State.answered (s : State) (i : ℕ) : Bool :=
  match s.store.stage i with
  | some (.refused _) => true
  | some (.returned _) => i ∈ s.sent.map Prod.fst
  | _ => false

/-- Every request is answered, and the listener has caught up. -/
def Quiet (s : State) : Prop :=
  (∀ i < s.store.calls.length, s.answered i = true) ∧ s.received = s.sent.length

instance (s : State) : Decidable (Quiet s) := inferInstanceAs (Decidable (_ ∧ _))

/-! ## What is on the channel -/

structure Fanned (stored : Preferences) (s : State) : Prop where
  store : Inv stored s.store
  committed : ∀ c ∈ s.sent, c ∈ s.store.commits
  ordered : Always (fun before d => ∀ c ∈ before,
    Precedes d.1 c.1 (s.store.commits.map Prod.fst) → Agree d.2 c.2) s.sent
  received : s.received ≤ s.sent.length

variable {stored : Preferences} {s : State}

theorem fanned_init (file : Contents) (localStorage : Entries) :
    Fanned (readAt file) (.init file localStorage) where
  store := inv_init file
  committed c hc := by cases hc
  ordered := always_nil _
  received := Nat.le_refl 0

theorem Fanned.store_step (h : Fanned stored s) {a : PreferenceStore.Action}
    (ha : PreferenceStore.enabled s.store a) : Fanned stored (next s (.store a)) := by
  have hstore : Inv stored (PreferenceStore.next s.store a) := inv_step _ _ h.store ha
  rcases commits_step h.store ha with hsame | ⟨i, m, rfl, hnew, hgrow⟩
  · have hcommits : (next s (.store a)).store.commits = s.store.commits := hsame
    refine ⟨hstore, ?_, ?_, h.received⟩
    · rw [hcommits]
      exact h.committed
    · rw [hcommits]
      exact h.ordered
  · have hcommits : (next s (.store (.rename i m))).store.commits =
        s.store.commits ++ [(i, s.store.patch i)] := hgrow
    refine ⟨hstore, fun c hc => ?_, ?_, h.received⟩
    · rw [hcommits]
      exact List.mem_append_left _ (h.committed c hc)
    · intro before d after heq c hc hprec
      have hc' : c ∈ s.sent := heq ▸ List.mem_append_left _ hc
      rw [hcommits, List.map_append] at hprec
      rcases precedes_append_singleton.mp hprec with hprec | ⟨-, hci⟩
      · exact h.ordered before d after heq c hc hprec
      · have hmem : c.1 ∈ s.store.commits.map Prod.fst :=
          List.mem_map_of_mem (h.committed c hc')
        rw [hci] at hmem
        exact absurd hmem hnew

theorem State.merged_iff {i : ℕ} :
    s.merged i = true ↔ ∃ m, s.store.stage i = some (.returned m) := by
  unfold State.merged
  split
  · rename_i m heq
    simp [heq]
  · rename_i hne
    simpa using fun m hm => hne m hm

theorem Fanned.send (h : Fanned stored s) {i : ℕ} (hi : s.merged i = true)
    (hcond : Ordered s (.send i)) : Fanned stored (next s (.send i)) := by
  obtain ⟨m, hm⟩ := State.merged_iff.mp hi
  refine ⟨h.store, fun c hc => ?_, ?_, ?_⟩
  · rcases List.mem_append.mp hc with hc | hc
    · exact h.committed c hc
    · obtain rfl := List.mem_singleton.mp hc
      exact h.store.committed i m (by simp [State.accepted, hm, Stage.accepted])
  · exact always_append_singleton.mpr ⟨h.ordered, hcond⟩
  · simp only [next, List.length_append, List.length_singleton]
    exact Nat.le_succ_of_le h.received

theorem Fanned.receive (h : Fanned stored s) {c : ℕ × PreferencesPatch}
    (hc : s.sent[s.received]? = some c) : Fanned stored (next s (.receive c)) :=
  ⟨h.store, h.committed, h.ordered, (List.getElem?_eq_some_iff.mp hc).1⟩

theorem fanned_step (s : State) (a : Action) (h : Fanned stored s)
    (ha : (machine.restrict Ordered).enabled s a) : Fanned stored (next s a) := by
  obtain ⟨ha, hcond⟩ := ha
  cases a with
  | store a => exact h.store_step ha
  | send i => exact h.send ha.1 hcond
  | receive c => exact h.receive ha

/-! ## What the listener has made of it -/

structure Listening (stored : Preferences) (s : State) : Prop where
  held : s.held = after stored (s.sent.take s.received)
  tab : ∃ remote, s.tab.remote = some remote ∧
    ∀ key ∈ syncedKeys, remote key = s.held.lookup key

theorem listening_init (file : Contents) (localStorage : Entries) :
    Listening (readAt file) (.init file localStorage) where
  held := rfl
  tab := ⟨_, rfl, fun _ _ => rfl⟩

theorem Listening.receive (h : Listening stored s) {c : ℕ × PreferencesPatch}
    (hc : s.sent[s.received]? = some c) : Listening stored (next s (.receive c)) := by
  obtain ⟨remote, hremote, hkeys⟩ := h.tab
  obtain ⟨remote', hremote', hkeys'⟩ := Device.applyRemotePreferences_remote hremote c.2
  obtain ⟨hlt, rfl⟩ := List.getElem?_eq_some_iff.mp hc
  refine ⟨?_, remote', hremote', fun key hkey => ?_⟩
  · simp only [next, List.take_succ_eq_append_getElem hlt, after_append_singleton, h.held]
  · rw [hkeys' key hkey, hkeys key hkey]
    exact (lookup_apply s.held _ key).symm

theorem listening_step (s : State) (a : Action) (hf : Fanned stored s) (h : Listening stored s)
    (ha : enabled s a) : Listening stored (next s a) := by
  cases a with
  | store a => exact ⟨h.held, h.tab⟩
  | send i =>
    refine ⟨?_, h.tab⟩
    have htake : (next s (.send i)).sent.take s.received = s.sent.take s.received :=
      List.take_append_of_le_length hf.received
    exact h.held.trans (congrArg (after stored) htake.symm)
  | receive c => exact h.receive ha

theorem Fanned.mem_sent (h : Fanned stored s) (hq : Quiet s) {c : ℕ × PreferencesPatch}
    (hc : c ∈ s.store.commits) : c ∈ s.sent := by
  obtain ⟨written, hacc, hpatch⟩ := h.store.of_mem_commits hc
  obtain ⟨stage, hstage, hm⟩ := Option.bind_eq_some_iff.mp hacc
  have hanswered := hq.1 c.1 (lt_of_stage hstage)
  simp only [State.answered, hstage] at hanswered
  cases stage with
  | refused error => cases hm
  | returned m =>
    obtain ⟨d, hd, hdc⟩ := List.mem_map.mp (of_decide_eq_true hanswered)
    obtain ⟨-, -, hpatch'⟩ := h.store.of_mem_commits (h.committed d hd)
    rw [hdc, hpatch] at hpatch'
    exact Prod.ext hdc.symm hpatch' ▸ hd
  | called | waiting | locked | merged _ | written _ | renamed _ => cases hanswered

theorem Fanned.after_sent (h : Fanned stored s) (hq : Quiet s) :
    after stored s.sent = readAt s.store.file := by
  rw [h.store.file]
  refine (applyAll_map_eq (fun c => ⟨h.mem_sent hq, h.committed c⟩) ?_ stored).symm
  refine always_mono h.ordered fun before d hd c hc hprec => hd c hc ?_
  exact List.Sublist.map Prod.fst hprec

def Together (s : State) : Action → Prop
  | .store _ => ∀ i, s.merged i = true → i ∈ s.sent.map Prod.fst
  | _ => True

/-- A commit that is not sent yet is the last one. -/
def UnsentLast (s : State) : Prop :=
  ∀ before c rest, s.store.commits = before ++ c :: rest → c.1 ∉ s.sent.map Prod.fst → rest = []

theorem Fanned.sent_of_written (h : Fanned stored s) {i : ℕ} {m : Preferences}
    (hi : s.store.stage i = some (.written m)) (hcond : Together s (.store (.rename i m)))
    {c : ℕ × PreferencesPatch} (hc : c ∈ s.store.commits) : c.1 ∈ s.sent.map Prod.fst := by
  obtain ⟨m', hacc, -⟩ := h.store.of_mem_commits hc
  obtain ⟨stage, hstage, hm⟩ := Option.bind_eq_some_iff.mp hacc
  cases stage with
  | renamed m'' =>
    by_cases hci : c.1 = i
    · rw [hci, hi] at hstage
      cases hstage
    · cases h.store.outside hi rfl hci hstage
  | returned m'' => exact hcond c.1 (State.merged_iff.mpr ⟨m'', hstage⟩)
  | called | waiting | locked | merged _ | written _ | refused _ => cases hm

theorem unsentLast_step (s : State) (a : Action) (hf : Fanned stored s) (h : UnsentLast s)
    (ha : (machine.restrict Together).enabled s a) : UnsentLast (next s a) := by
  obtain ⟨ha, hcond⟩ := ha
  cases a with
  | store a =>
    intro before c rest heq hc
    rcases commits_step hf.store ha with hsame | ⟨i, m, rfl, -, hgrow⟩
    · exact h before c rest (hsame.symm.trans heq) hc
    · rcases append_singleton_eq (hgrow.symm.trans heq) with ⟨-, -, hnil⟩ | ⟨rest', -, heq'⟩
      · exact hnil
      · exact absurd (hf.sent_of_written ha hcond (heq' ▸ by simp)) hc
  | send i =>
    intro before c rest heq hc
    refine h before c rest heq fun hmem => hc ?_
    simp only [next, List.map_append, List.mem_append]
    exact .inl hmem
  | receive c => exact h

theorem ordered_of_unsentLast (hf : Fanned stored s) (h : UnsentLast s) {a : Action}
    (ha : machine.enabled s a) : Ordered s a := by
  cases a with
  | send i =>
    intro c _ hprec
    obtain ⟨m, hm⟩ := State.merged_iff.mp ha.1
    have hmem : (i, s.store.patch i) ∈ s.store.commits :=
      hf.store.committed i m (by simp [State.accepted, hm, Stage.accepted])
    obtain ⟨before, rest, heq⟩ := List.append_of_mem hmem
    obtain rfl := h before _ rest heq ha.2
    have hnodup := hf.store.nodup
    rw [heq, List.map_append] at hprec hnodup
    have hbefore : i ∈ before.map Prod.fst := by
      rcases precedes_append_singleton.mp hprec with hprec | ⟨hi, -⟩
      · exact hprec.subset List.mem_cons_self
      · exact hi
    exact absurd rfl ((List.nodup_append.mp hnodup).2.2 i hbefore i (by simp))
  | store _ | receive _ => trivial

theorem fan_out_agrees_at_awaits (file : Contents) (localStorage : Entries) (s : State)
    (hrun : (machine.restrict Together).Reaches (.init file localStorage) s) (hq : Quiet s) :
    s.held = readAt s.store.file := by
  have hinit : UnsentLast (.init file localStorage) := by
    intro before c rest heq
    have hlength := congrArg List.length heq
    simp [State.init, PreferenceStore.State.init] at hlength
  have hstep : ∀ s a, Fanned (readAt file) s ∧ UnsentLast s →
      (machine.restrict Together).enabled s a → (machine.restrict Ordered).enabled s a ∧
        Fanned (readAt file) (next s a) ∧ UnsentLast (next s a) := by
    rintro s a ⟨hf, hlast⟩ ha
    have hordered := ordered_of_unsentLast hf hlast ha.1
    exact ⟨⟨ha.1, hordered⟩, fanned_step s a hf ⟨ha.1, hordered⟩,
      unsentLast_step s a hf hlast ha⟩
  obtain ⟨hordered, -⟩ :=
    hrun.restrict_of_invariant hstep ⟨fanned_init file localStorage, hinit⟩
  obtain ⟨hf, hl⟩ : Fanned (readAt file) s ∧ Listening (readAt file) s :=
    hordered.invariant (I := fun s => Fanned (readAt file) s ∧ Listening (readAt file) s)
      (fun s a h ha => ⟨fanned_step s a h.1 ha, listening_step s a h.1 h.2 ha.1⟩)
      ⟨fanned_init file localStorage, listening_init file localStorage⟩
  rw [hl.held, hq.2, List.take_length, hf.after_sent hq]

/-- The second request is stored and sent while the first stands between its merge and its
send. -/
def overtaken : List Action :=
  let mocha : Preferences := apply ∅ [("atomis.appearance.v1", some "mocha")]
  let crust : Preferences := apply ∅ [("atomis.appearance.v1", some "crust")]
  [.store (.call [("atomis.appearance.v1", some "mocha")]),
    .store (.call [("atomis.appearance.v1", some "crust")]), .store (.validate 0),
    .store (.validate 1), .store (.lock 0), .store (.read 0), .store (.write 0 mocha),
    .store (.rename 0 mocha), .store (.finish 0 mocha), .store (.lock 1), .store (.read 1),
    .store (.write 1 crust), .store (.rename 1 crust), .store (.finish 1 crust)]

end Atomis.PreferenceFanOut
