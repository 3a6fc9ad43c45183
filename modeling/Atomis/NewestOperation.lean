import Atomis.SessionLifecycle

/-!
# The newest session operation wins

An operation that has been overtaken leaves the session, the files and the
switching flag alone. It forgets the persisted workspace when its own request
for a workspace is refused late.
-/

namespace Atomis.SessionLifecycle
open Protocol State

def Idle (s : State) : Prop := ∀ n, s.pending n = none

/-- The operation an action is the response for. -/
def Action.response : Action → Option ℕ
  | .accept n | .refuse n _ | .fail n _ | .deliver n _ | .deliverWorkspace n _ => some n
  | _ => none

structure Unchanged (s t : State) : Prop where
  session : t.session = s.session
  files : t.files = s.files
  switching : t.switching = s.switching
  persisted : t.persisted = s.persisted

/-- A workspace is not refused to an overtaken operation while one is persisted. -/
def Timely (s : State) : Action → Prop
  | .refuse n _ => match s.pending n with
    | some (.opening workspace _ _) =>
      n = s.operation ∨ named workspace = none ∨ s.persisted = none
    | _ => True
  | _ => True

def requested (workspace : Option String) (seed : Option SessionSeed) : Option String :=
  named (if seed.isSome then none else workspace)

/-- A session is opened directly for the persisted workspace only. -/
def AsStored (s : State) : Action → Prop
  | .openSession workspace seed => requested workspace seed = s.persisted
  | _ => True

structure NewestWins (s : State) : Prop where
  adopted : Idle s → ∀ created, s.produced s.operation = some created → s.session = some created
  stale : ∀ a n, a.response = some n → n < s.operation →
    (machine.restrict Timely).enabled s a → Unchanged s (next s a)

def NewestStored (s : State) : Prop :=
  Idle s → ∀ created, s.produced s.operation = some created →
    s.session = some created ∧ s.persisted = created.workspaceId

/-! ## Overtaken operations -/

section
variable {s : State} {n : ℕ}

theorem Unchanged.refl (s : State) : Unchanged s s := ⟨rfl, rfl, rfl, rfl⟩

theorem openFailed_of_ne (hn : n ≠ s.operation) (isSwitch : Bool) (message : String) :
    s.openFailed n isSwitch message = s := if_pos hn

theorem openSucceeded_of_ne (hn : n ≠ s.operation) (created : Created) :
    s.openSucceeded n created = s := if_pos hn

theorem recoverSucceeded_of_ne (hn : n ≠ s.operation) (previous : Created) (unsaved : Bool)
    (created : Created) : s.recoverSucceeded n previous unsaved created = s := if_pos (.inr hn)

theorem unchanged_settle {t : State} (h : Unchanged s t) (hn : n ≠ t.operation) :
    Unchanged s (t.settle n) := ⟨h.session, h.files, by simp [settle, setPending, hn, h.switching],
      h.persisted⟩

/-- What stays of a state when the response of an overtaken operation `n` arrives. -/
structure Overtaken (n : ℕ) (s t : State) : Prop where
  unchanged : Unchanged s t
  operation : t.operation = s.operation
  pending : ∀ m, m ≠ n → t.pending m = s.pending m
  produced : ∀ m, m ≠ n → t.produced m = s.produced m

theorem Overtaken.refl (n : ℕ) (s : State) : Overtaken n s s :=
  ⟨.refl s, rfl, fun _ _ => rfl, fun _ _ => rfl⟩

theorem Overtaken.setPending {t : State} (h : Overtaken n s t) (stage : Option Stage) :
    Overtaken n s (t.setPending n stage) where
  unchanged := ⟨h.unchanged.session, h.unchanged.files, h.unchanged.switching,
    h.unchanged.persisted⟩
  operation := h.operation
  pending m hm := by simp [State.setPending, hm, h.pending m hm]
  produced := h.produced

theorem Overtaken.settle {t : State} (h : Overtaken n s t) (hn : n ≠ s.operation) :
    Overtaken n s (t.settle n) where
  unchanged := unchanged_settle h.unchanged (h.operation ▸ hn)
  operation := h.operation
  pending m hm := by simp [State.settle, State.setPending, hm, h.pending m hm]
  produced := h.produced

theorem Overtaken.produce (n : ℕ) (s : State) (created : Created) :
    Overtaken n s (s.produce n created) where
  unchanged := ⟨rfl, rfl, rfl, rfl⟩
  operation := rfl
  pending _ _ := rfl
  produced m hm := by simp [State.produce, hm]

theorem overtaken_refuse {status : ℕ} (hn : n ≠ s.operation) (htimely : Timely s (.refuse n status)) :
    Overtaken n s (stepRefuse s n status) := by
  simp only [stepRefuse]
  split
  next workspace seed isSwitch hstage =>
    simp only [Timely, hstage] at htimely
    split_ifs with hnamed
    · have hpersisted : s.persisted = none := by
        rcases htimely with h | h | h
        · exact absurd h hn
        · rw [h] at hnamed
          cases hnamed
        · exact h
      exact ⟨⟨rfl, rfl, rfl, hpersisted.symm⟩, rfl,
        fun m hm => by simp [saveActiveWorkspace, setPending, hm], fun _ _ => rfl⟩
    · rw [openFailed_of_ne hn]
      exact (Overtaken.refl n s).settle hn
  next isSwitch hstage =>
    rw [openFailed_of_ne hn]
    exact (Overtaken.refl n s).settle hn
  · exact (Overtaken.refl n s).settle hn
  · exact (Overtaken.refl n s).settle hn
  · exact .refl n s

theorem overtaken_fail (hn : n ≠ s.operation) (message : String) :
    Overtaken n s (stepFail s n message) := by
  simp only [stepFail]
  split
  · rw [openFailed_of_ne hn]
    exact (Overtaken.refl n s).settle hn
  · rw [openFailed_of_ne hn]
    exact (Overtaken.refl n s).settle hn
  · rw [openFailed_of_ne hn]
    exact (Overtaken.refl n s).settle hn
  · exact (Overtaken.refl n s).settle hn
  · exact .refl n s

theorem overtaken_accept (n : ℕ) (s : State) : Overtaken n s (stepAccept s n) := by
  simp only [stepAccept]
  split <;> first | exact (Overtaken.refl n s).setPending _ | exact .refl n s

theorem overtaken_deliver (hn : n ≠ s.operation) (created : Created) :
    Overtaken n s (stepDeliver s n created) := by
  have hn' : n ≠ (s.produce n created).operation := hn
  simp only [stepDeliver]
  split
  · rw [openSucceeded_of_ne hn']
    exact (Overtaken.produce n s created).settle hn
  · rw [recoverSucceeded_of_ne hn']
    exact (Overtaken.produce n s created).settle hn
  · exact .refl n s

theorem overtaken_deliverWorkspace (n : ℕ) (s : State) (id : String) :
    Overtaken n s (stepDeliverWorkspace s n id) := by
  simp only [stepDeliverWorkspace]
  split
  · exact (Overtaken.refl n s).setPending _
  · exact .refl n s

theorem overtaken {a : Action} (ha : a.response = some n) (hn : n ≠ s.operation)
    (htimely : Timely s a) : Overtaken n s (next s a) := by
  cases a with
  | accept m =>
    obtain rfl := Option.some.inj ha
    exact overtaken_accept m s
  | refuse m status =>
    obtain rfl := Option.some.inj ha
    exact overtaken_refuse hn htimely
  | fail m message =>
    obtain rfl := Option.some.inj ha
    exact overtaken_fail hn message
  | deliver m created =>
    obtain rfl := Option.some.inj ha
    exact overtaken_deliver hn created
  | deliverWorkspace m id =>
    obtain rfl := Option.some.inj ha
    exact overtaken_deliverWorkspace m s id
  | openSession | boot | retryBoot | switchToWorkspace | openDemo | recoverSession => cases ha

/-- An overtaken operation changes something exactly when it is refused late. -/
theorem unchanged_iff_timely {a : Action} (ha : a.response = some n) (hn : n ≠ s.operation) :
    Unchanged s (next s a) ↔ Timely s a := by
  refine ⟨fun h => ?_, fun h => (overtaken ha hn h).unchanged⟩
  cases a with
  | refuse m status =>
    obtain rfl := Option.some.inj ha
    have hpersisted := h.persisted
    simp only [Timely]
    split
    next workspace seed isSwitch hstage =>
      by_cases hnamed : named workspace = none
      · exact .inr (.inl hnamed)
      · have hsome := Option.isSome_iff_ne_none.mpr hnamed
        simp only [next, stepRefuse, hstage, hsome, ↓reduceIte] at hpersisted
        exact .inr (.inr hpersisted.symm)
    · trivial
  | accept | fail | deliver | deliverWorkspace => exact trivial
  | openSession | boot | retryBoot | switchToWorkspace | openDemo | recoverSession => cases ha

/-! ## The newest operation -/

/-- The session a recovery replaces. -/
def Stage.previous : Stage → Option Created
  | preserving p _ | preserved p _ | recovering p _ _ _ | recovered p _ _ => some p
  | _ => none

/-- What is persisted while the newest operation waits in a stage. -/
def Stage.Expects : Stage → Option String → Prop
  | opening workspace seed _, persisted => persisted = requested workspace seed
  | fallback _, persisted => persisted = none
  | reading workspace _, persisted => persisted = named workspace
  | _, _ => True

structure Inv (s : State) : Prop where
  bound : ∀ n, s.operation < n → s.pending n = none ∧ s.produced n = none
  adopted : ∀ created, s.produced s.operation = some created →
    s.session = some created ∧ s.pending s.operation = none
  previous : ∀ stage ∈ s.pending s.operation, ∀ p ∈ stage.previous, s.session = some p

structure Stored (s : State) : Prop where
  normal : named s.persisted = s.persisted
  awaited : ∀ stage ∈ s.pending s.operation, stage.Expects s.persisted
  kept : ∀ created, s.produced s.operation = some created → s.persisted = created.workspaceId

theorem named_named (id : Option String) : named (named id) = named id := by
  simp [named, Option.filter_filter]

theorem inv_init (persisted : Option String) (sandbox : Bool) : Inv (init persisted sandbox) :=
  ⟨fun _ _ => ⟨rfl, rfl⟩, nofun, fun _ h => absurd h (Option.not_mem_none _)⟩

theorem stored_init (persisted : Option String) (sandbox : Bool) :
    Stored (init persisted sandbox) :=
  ⟨named_named persisted, fun _ h => absurd h (Option.not_mem_none _), nofun⟩

theorem Inv.overtaken {t : State} (h : Inv s) (ht : Overtaken n s t) (hlt : n < s.operation) :
    Inv t := by
  have hne : s.operation ≠ n := Nat.ne_of_gt hlt
  refine ⟨fun m hm => ?_, fun created hc => ?_, fun stage hstage p hp => ?_⟩
  · rw [ht.operation] at hm
    have hmn : m ≠ n := Nat.ne_of_gt (Nat.lt_trans hlt hm)
    rw [ht.pending m hmn, ht.produced m hmn]
    exact h.bound m hm
  · rw [ht.operation, ht.produced _ hne] at hc
    rw [ht.operation, ht.unchanged.session, ht.pending _ hne]
    exact h.adopted created hc
  · rw [ht.operation, ht.pending _ hne] at hstage
    rw [ht.unchanged.session]
    exact h.previous stage hstage p hp

theorem Stored.overtaken {t : State} (h : Stored s) (ht : Overtaken n s t)
    (hlt : n < s.operation) : Stored t := by
  have hne : s.operation ≠ n := Nat.ne_of_gt hlt
  refine ⟨?_, fun stage hstage => ?_, fun created hc => ?_⟩
  · rw [ht.unchanged.persisted]
    exact h.normal
  · rw [ht.operation, ht.pending _ hne] at hstage
    rw [ht.unchanged.persisted]
    exact h.awaited stage hstage
  · rw [ht.operation, ht.produced _ hne] at hc
    rw [ht.unchanged.persisted]
    exact h.kept created hc

/-! ## An operation begins -/

structure Begins (stage : Stage) (s t : State) : Prop where
  operation : t.operation = s.operation + 1
  produced : t.produced = s.produced
  session : t.session = s.session
  pending : t.pending = Function.update s.pending (s.operation + 1) (some stage)
  previous : ∀ p ∈ stage.previous, s.session = some p

variable {t : State} {stage stage' : Stage}

theorem Begins.awaits (ht : Begins stage s t) (hstage : t.pending t.operation = some stage') :
    stage = stage' := by
  rw [ht.operation, ht.pending, Function.update_self] at hstage
  exact Option.some.inj hstage

theorem Inv.unproduced (h : Inv s) (ht : Begins stage s t) : t.produced t.operation = none := by
  rw [ht.operation, ht.produced]
  exact (h.bound _ (Nat.lt_succ_self _)).2

theorem Inv.begins (h : Inv s) (ht : Begins stage s t) : Inv t := by
  refine ⟨fun m hm => ?_, fun created hc => ?_, fun stage' hstage p hprev => ?_⟩
  · rw [ht.operation] at hm
    rw [ht.pending, ht.produced, Function.update_of_ne (Nat.ne_of_gt hm)]
    exact h.bound m (Nat.lt_of_succ_lt hm)
  · rw [h.unproduced ht] at hc
    cases hc
  · obtain rfl := ht.awaits hstage
    rw [ht.session]
    exact ht.previous p hprev

theorem Stored.begins (h : Inv s) (ht : Begins stage s t)
    (hnormal : named t.persisted = t.persisted) (hexpects : stage.Expects t.persisted) :
    Stored t := by
  refine ⟨hnormal, fun stage' hstage => ?_, fun created hc => ?_⟩
  · obtain rfl := ht.awaits hstage
    exact hexpects
  · rw [h.unproduced ht] at hc
    cases hc

theorem begins_openSession (s : State) (workspace : Option String) (seed : Option SessionSeed) :
    Begins (.opening workspace seed s.session.isSome) s (s.openSession workspace seed) :=
  ⟨rfl, rfl, rfl, rfl, nofun⟩

theorem begins_recoverSession {previous : Created} (hsession : s.session = some previous)
    (hidle : s.recovery = none) (unsaved : Bool) :
    ∃ stage, Begins stage s (s.recoverSession unsaved) ∧ ∀ persisted, stage.Expects persisted := by
  simp only [State.recoverSession, hidle, hsession, Option.isSome_none, Bool.false_eq_true,
    ↓reduceIte]
  split_ifs
  · exact ⟨_, ⟨rfl, rfl, hsession.symm, rfl, fun p hp => by rw [hsession]; exact hp⟩,
      fun _ => trivial⟩
  · exact ⟨_, ⟨rfl, rfl, hsession.symm, rfl, fun p hp => by rw [hsession]; exact hp⟩,
      fun _ => trivial⟩

/-- A call begins an operation or does nothing. -/
theorem begins_of_call {a : Action} (ha : a.response = none) :
    next s a = s ∨ ∃ stage, Begins stage s (next s a) ∧
      (named s.persisted = s.persisted → AsStored s a →
        named (next s a).persisted = (next s a).persisted ∧
          stage.Expects (next s a).persisted) := by
  cases a with
  | openSession workspace seed =>
    exact .inr ⟨_, begins_openSession s workspace seed, fun hnormal hstored =>
      ⟨hnormal, hstored.symm⟩⟩
  | boot =>
    simp only [next, State.boot]
    split_ifs
    · exact .inl rfl
    · exact .inr ⟨_, ⟨rfl, rfl, rfl, rfl, nofun⟩, fun hnormal _ => ⟨hnormal, hnormal.symm⟩⟩
  | retryBoot =>
    exact .inr ⟨_, ⟨rfl, rfl, rfl, rfl, nofun⟩, fun hnormal _ => ⟨hnormal, hnormal.symm⟩⟩
  | switchToWorkspace id =>
    simp only [next, State.switchToWorkspace]
    split_ifs
    · exact .inl rfl
    · exact .inr ⟨_, ⟨rfl, rfl, rfl, rfl, nofun⟩, fun _ _ => ⟨named_named id, rfl⟩⟩
  | openDemo seed =>
    exact .inr ⟨_, ⟨rfl, rfl, rfl, rfl, nofun⟩, fun _ _ => ⟨rfl, rfl⟩⟩
  | recoverSession unsaved =>
    cases hrecovery : s.recovery with
    | some n => exact .inl (by simp [next, State.recoverSession, hrecovery])
    | none =>
      cases hsession : s.session with
      | none => exact .inl (by simp [next, State.recoverSession, hrecovery, hsession])
      | some previous =>
        obtain ⟨stage, hbegins, hexpects⟩ := begins_recoverSession hsession hrecovery unsaved
        have hpersisted : (s.recoverSession unsaved).persisted = s.persisted := by
          simp [State.recoverSession, hrecovery, hsession, State.setPending]
        refine .inr ⟨stage, hbegins, fun hnormal _ => ⟨?_, hexpects _⟩⟩
        simp only [next, hpersisted, hnormal]
  | accept | refuse | fail | deliver | deliverWorkspace => cases ha

/-! ## The newest operation gets a response -/

/-- It waits for the next one. -/
structure GoesOn (stage stage' : Stage) (s t : State) : Prop where
  operation : t.operation = s.operation
  produced : t.produced = s.produced
  session : t.session = s.session
  pending : t.pending = Function.update s.pending s.operation (some stage')
  previous : stage'.previous = stage.previous
  normal : named s.persisted = s.persisted → named t.persisted = t.persisted
  expects : stage.Expects s.persisted → stage'.Expects t.persisted

theorem Inv.goesOn (h : Inv s) (hstage : s.pending s.operation = some stage)
    (ht : GoesOn stage stage' s t) : Inv t := by
  refine ⟨fun m hm => ?_, fun created hc => ?_, fun stage'' hstage' p hp => ?_⟩
  · rw [ht.operation] at hm
    rw [ht.pending, ht.produced, Function.update_of_ne (Nat.ne_of_gt hm)]
    exact h.bound m hm
  · rw [ht.operation, ht.produced] at hc
    rw [(h.adopted created hc).2] at hstage
    cases hstage
  · rw [ht.operation, ht.pending, Function.update_self] at hstage'
    obtain rfl : stage' = stage'' := by simpa using hstage'
    rw [ht.session]
    exact h.previous stage hstage p (ht.previous ▸ hp)

theorem Stored.goesOn (hs : Stored s) (h : Inv s) (hstage : s.pending s.operation = some stage)
    (ht : GoesOn stage stage' s t) : Stored t := by
  refine ⟨ht.normal hs.normal, fun stage'' hstage' => ?_, fun created hc => ?_⟩
  · rw [ht.operation, ht.pending, Function.update_self] at hstage'
    obtain rfl : stage' = stage'' := by simpa using hstage'
    exact ht.expects (hs.awaited stage hstage)
  · rw [ht.operation, ht.produced] at hc
    rw [(h.adopted created hc).2] at hstage
    cases hstage

/-- It ends, without a session or with the one it adopts. -/
structure Ends (stage : Stage) (s t : State) : Prop where
  operation : t.operation = s.operation
  pending : t.pending = Function.update s.pending s.operation none
  produced : (t.produced = s.produced ∧ t.persisted = s.persisted) ∨
    ∃ created, t.produced = Function.update s.produced s.operation (some created) ∧
      t.session = some created ∧ (stage.Expects s.persisted → t.persisted = created.workspaceId)

theorem Ends.idle (ht : Ends stage s t) : t.pending t.operation = none := by
  rw [ht.operation, ht.pending, Function.update_self]

theorem Inv.ends (h : Inv s) (hstage : s.pending s.operation = some stage)
    (ht : Ends stage s t) : Inv t := by
  refine ⟨fun m hm => ?_, fun created hc => ⟨?_, ht.idle⟩, fun stage' hstage' => ?_⟩
  · rw [ht.operation] at hm
    have hne := Nat.ne_of_gt hm
    refine ⟨by rw [ht.pending, Function.update_of_ne hne, (h.bound m hm).1], ?_⟩
    rcases ht.produced with ⟨hp, -⟩ | ⟨created, hp, -⟩
    · rw [hp, (h.bound m hm).2]
    · rw [hp, Function.update_of_ne hne, (h.bound m hm).2]
  · rw [ht.operation] at hc
    rcases ht.produced with ⟨hp, -⟩ | ⟨created', hp, hsession, -⟩
    · rw [hp] at hc
      rw [(h.adopted created hc).2] at hstage
      cases hstage
    · obtain rfl : created' = created := by simpa [hp] using hc
      exact hsession
  · rw [ht.idle] at hstage'
    cases hstage'

theorem Stored.ends (hs : Stored s) (h : Inv s) (hstage : s.pending s.operation = some stage)
    (ht : Ends stage s t) : Stored t := by
  have hexpects := hs.awaited stage hstage
  refine ⟨?_, fun stage' hstage' => ?_, fun created hc => ?_⟩
  · rcases ht.produced with ⟨-, hp⟩ | ⟨created, -, -, hp⟩
    · rw [hp]
      exact hs.normal
    · rw [hp hexpects]
      exact named_named _
  · rw [ht.idle] at hstage'
    cases hstage'
  · rw [ht.operation] at hc
    rcases ht.produced with ⟨hp, -⟩ | ⟨created', hp, -, hpersisted⟩
    · rw [hp] at hc
      rw [(h.adopted created hc).2] at hstage
      cases hstage
    · obtain rfl : created' = created := by simpa [hp] using hc
      exact hpersisted hexpects

theorem ends_openFailed (stage : Stage) (s : State) (isSwitch : Bool) (message : String) :
    Ends stage s ((s.openFailed s.operation isSwitch message).settle s.operation) := by
  cases isSwitch
  · exact ⟨by simp [openFailed, settle, State.setPending],
      by simp [openFailed, settle, State.setPending],
      .inl (by simp [openFailed, settle, State.setPending])⟩
  · exact ⟨by simp [openFailed, settle, State.setPending],
      by simp [openFailed, settle, State.setPending],
      .inl (by simp [openFailed, settle, State.setPending])⟩

theorem ends_settle (stage : Stage) (s : State) : Ends stage s (s.settle s.operation) :=
  ⟨rfl, rfl, .inl ⟨rfl, rfl⟩⟩

/-- The newest operation's response makes it go on or end. -/
def Responds (stage : Stage) (s t : State) : Prop :=
  (∃ stage', GoesOn stage stage' s t) ∨ Ends stage s t

theorem goesOn_setPending (s : State) (hprevious : stage'.previous = stage.previous)
    (hexpects : stage.Expects s.persisted → stage'.Expects s.persisted) :
    Responds stage s (s.setPending s.operation (some stage')) :=
  .inl ⟨stage', rfl, rfl, rfl, rfl, hprevious, id, hexpects⟩

theorem responds_accept (hstage : s.pending s.operation = some stage)
    (ha : enabled s (.accept s.operation)) : Responds stage s (stepAccept s s.operation) := by
  simp only [enabled, hstage] at ha
  simp only [stepAccept, hstage]
  cases stage with
  | opening workspace seed isSwitch => exact goesOn_setPending s rfl id
  | fallback isSwitch => exact goesOn_setPending s rfl id
  | preserving previous files => exact goesOn_setPending s rfl id
  | recovering previous unsaved workspace files => exact goesOn_setPending s rfl id
  | reading | preserved | recovered => cases ha

theorem responds_refuse (hstage : s.pending s.operation = some stage) {status : ℕ}
    (ha : enabled s (.refuse s.operation status)) :
    Responds stage s (stepRefuse s s.operation status) := by
  simp only [enabled, hstage] at ha
  simp only [stepRefuse, hstage]
  cases stage with
  | opening workspace seed isSwitch =>
    simp only
    split_ifs
    · exact .inl ⟨.fallback isSwitch, rfl, rfl, rfl, rfl, rfl, fun _ => rfl, fun _ => rfl⟩
    · exact .inr (ends_openFailed _ s isSwitch _)
  | fallback isSwitch => exact .inr (ends_openFailed _ s isSwitch _)
  | preserving => exact .inr (ends_settle _ s)
  | recovering => exact .inr (ends_settle _ s)
  | reading | preserved | recovered => cases ha

theorem responds_fail (hstage : s.pending s.operation = some stage) (message : String) :
    Responds stage s (stepFail s s.operation message) := by
  simp only [stepFail, hstage]
  cases stage with
  | opening workspace seed isSwitch => exact .inr (ends_openFailed _ s isSwitch _)
  | fallback isSwitch => exact .inr (ends_openFailed _ s isSwitch _)
  | reading workspace isSwitch => exact .inr (ends_openFailed _ s isSwitch _)
  | preserving | preserved | recovering | recovered => exact .inr (ends_settle _ s)

/-- A recovery that has not been overtaken finds the session it set out to replace. -/
theorem recoverSucceeded_eq {previous : Created} (hsession : s.session = some previous)
    (unsaved : Bool) (created : Created) :
    s.recoverSucceeded s.operation previous unsaved created =
      { ((s.saveActiveWorkspace created.workspaceId).adoptSession created) with
        status := if previous.workspace.isSome && unsaved
          then "Local edits preserved in a recovery workspace" else "Session restored" } :=
  if_neg (by simp [hsession])

theorem responds_deliver (h : Inv s) (hstage : s.pending s.operation = some stage)
    {created : Created} (ha : enabled s (.deliver s.operation created)) :
    Responds stage s (stepDeliver s s.operation created) := by
  simp only [enabled, hstage] at ha
  simp only [stepDeliver, hstage]
  cases stage with
  | reading workspace isSwitch =>
    have hadopt : (s.produce s.operation created).openSucceeded s.operation created =
        (s.produce s.operation created).adoptSession created := if_neg (fun hne => hne rfl)
    simp only [hadopt]
    exact .inr ⟨rfl, rfl, .inr ⟨created, rfl, rfl, fun hexpects => hexpects.trans ha.symm⟩⟩
  | recovered previous unsaved workspace =>
    have hsession : (s.produce s.operation created).session = some previous :=
      h.previous _ hstage previous rfl
    have heq := recoverSucceeded_eq hsession unsaved created
    rw [show (s.produce s.operation created).operation = s.operation from rfl] at heq
    simp only [heq]
    exact .inr ⟨rfl, rfl, .inr ⟨created, rfl, rfl, fun _ => named_named _⟩⟩
  | opening | fallback | preserving | preserved | recovering => cases ha

theorem responds_deliverWorkspace (hstage : s.pending s.operation = some stage) {id : String}
    (ha : enabled s (.deliverWorkspace s.operation id)) :
    Responds stage s (stepDeliverWorkspace s s.operation id) := by
  simp only [enabled, hstage] at ha
  simp only [stepDeliverWorkspace, hstage]
  cases stage with
  | preserved previous files => exact goesOn_setPending s rfl fun _ => trivial
  | opening | fallback | reading | preserving | recovering | recovered => cases ha

/-- Only an operation that waits gets a response. -/
theorem pending_of_response {a : Action} (ha : a.response = some n) (hen : enabled s a) :
    ∃ stage, s.pending n = some stage := by
  cases hstage : s.pending n with
  | some stage => exact ⟨stage, rfl⟩
  | none =>
    cases a with
    | accept | refuse | fail | deliver | deliverWorkspace =>
      obtain rfl := Option.some.inj ha
      simp [enabled, hstage] at hen
    | openSession | boot | retryBoot | switchToWorkspace | openDemo | recoverSession => cases ha

theorem responds (h : Inv s) {a : Action} (ha : a.response = some s.operation)
    (hen : enabled s a) (hstage : s.pending s.operation = some stage) :
    Responds stage s (next s a) := by
  cases a with
  | accept m =>
    obtain rfl : m = s.operation := Option.some.inj ha
    exact responds_accept hstage hen
  | refuse m status =>
    obtain rfl : m = s.operation := Option.some.inj ha
    exact responds_refuse hstage hen
  | fail m message =>
    obtain rfl : m = s.operation := Option.some.inj ha
    exact responds_fail hstage message
  | deliver m created =>
    obtain rfl : m = s.operation := Option.some.inj ha
    exact responds_deliver h hstage hen
  | deliverWorkspace m id =>
    obtain rfl : m = s.operation := Option.some.inj ha
    exact responds_deliverWorkspace hstage hen
  | openSession | boot | retryBoot | switchToWorkspace | openDemo | recoverSession => cases ha

/-! ## Every run -/

theorem Inv.response_le (h : Inv s) {a : Action} (ha : a.response = some n) (hen : enabled s a) :
    n ≤ s.operation := by
  obtain ⟨stage, hstage⟩ := pending_of_response ha hen
  by_contra hlt
  rw [(h.bound n (Nat.lt_of_not_le hlt)).1] at hstage
  cases hstage

theorem inv_step (h : Inv s) {a : Action} (ha : (machine.restrict Timely).enabled s a) :
    Inv (next s a) := by
  cases hresponse : a.response with
  | none =>
    rcases begins_of_call (s := s) hresponse with heq | ⟨stage, hbegins, -⟩
    · rw [heq]
      exact h
    · exact h.begins hbegins
  | some n =>
    rcases Nat.lt_or_eq_of_le (h.response_le hresponse ha.1) with hlt | rfl
    · exact h.overtaken (overtaken hresponse (Nat.ne_of_lt hlt) ha.2) hlt
    · obtain ⟨stage, hstage⟩ := pending_of_response hresponse ha.1
      rcases responds h hresponse ha.1 hstage with ⟨stage', hgoes⟩ | hends
      · exact h.goesOn hstage hgoes
      · exact h.ends hstage hends

theorem stored_step (h : Inv s) (hs : Stored s) {a : Action}
    (ha : (machine.restrict Timely).enabled s a) (hstored : AsStored s a) :
    Stored (next s a) := by
  cases hresponse : a.response with
  | none =>
    rcases begins_of_call (s := s) hresponse with heq | ⟨stage, hbegins, hpersisted⟩
    · rw [heq]
      exact hs
    · obtain ⟨hnormal, hexpects⟩ := hpersisted hs.normal hstored
      exact .begins h hbegins hnormal hexpects
  | some n =>
    rcases Nat.lt_or_eq_of_le (h.response_le hresponse ha.1) with hlt | rfl
    · exact hs.overtaken (overtaken hresponse (Nat.ne_of_lt hlt) ha.2) hlt
    · obtain ⟨stage, hstage⟩ := pending_of_response hresponse ha.1
      rcases responds h hresponse ha.1 hstage with ⟨stage', hgoes⟩ | hends
      · exact hs.goesOn h hstage hgoes
      · exact hs.ends h hstage hends

theorem Inv.newestWins (h : Inv s) : NewestWins s where
  adopted _ created hc := (h.adopted created hc).1
  stale _ _ ha hlt hen := ((unchanged_iff_timely ha (Nat.ne_of_lt hlt)).mpr hen.2)

end

theorem newest_operation_wins (persisted : Option String) (sandbox : Bool) :
    (∀ s, (machine.restrict Timely).Reaches (init persisted sandbox) s → NewestWins s) ∧
    ∀ s, ((machine.restrict Timely).restrict AsStored).Reaches (init persisted sandbox) s →
      NewestStored s := by
  refine ⟨fun s hrun => ?_, fun s hrun _ created hc => ?_⟩
  · exact (hrun.invariant (fun _ _ h ha => inv_step h ha) (inv_init persisted sandbox)).newestWins
  · have hinv : Inv s ∧ Stored s := by
      refine hrun.invariant (I := fun s => Inv s ∧ Stored s) (fun t a h ha => ?_)
        ⟨inv_init persisted sandbox, stored_init persisted sandbox⟩
      obtain ⟨hen, hstored⟩ := ha
      exact ⟨inv_step h.1 hen, stored_step h.1 h.2 hen hstored⟩
    exact ⟨(hinv.1.adopted created hc).1, hinv.2.kept created hc⟩

/-! ## Runs -/

instance : DecidableRel machine.enabled := fun s a => by
  show Decidable (enabled s a)
  cases a <;> simp only [enabled] <;> first | infer_instance | (split <;> infer_instance)

instance : DecidableRel Timely := fun s a => by
  cases a <;> simp only [Timely] <;> first | infer_instance | (split <;> infer_instance)

instance : DecidableRel AsStored := fun s a => by
  cases a <;> simp only [AsStored] <;> infer_instance

def sample (sessionId : String) (workspace : Option WorkspaceRef) : Created :=
  ⟨sessionId, workspace, .zig, none, "file:///main.zig", "", false⟩

/-- The workspace stored at boot is refused before the user switches. -/
theorem newest_operation_wins_switching : ∃ s,
    ((machine.restrict Timely).restrict AsStored).Reaches (init (some "a") true) s ∧
    s.produced s.operation = some (sample "second" (some ⟨"b", "B"⟩)) ∧
    NewestWins s ∧ NewestStored s := by
  obtain ⟨s, hrun, hs⟩ := Machine.exists_reaches_of_exec
    (M := (machine.restrict Timely).restrict AsStored) (s := init (some "a") true)
    (l := [.boot, .refuse 1 404, .switchToWorkspace (some "b"), .accept 1, .accept 2,
      .deliver 2 (sample "second" (some ⟨"b", "B"⟩)), .deliver 1 (sample "first" none)])
    (p := fun s => decide (s.produced s.operation = some (sample "second" (some ⟨"b", "B"⟩))))
    (by decide +kernel)
  have hwins := newest_operation_wins (some "a") true
  exact ⟨s, hrun, of_decide_eq_true hs, hwins.1 s hrun.of_restrict, hwins.2 s hrun⟩

/-- The workspace stored at boot is refused after the user has switched to another. -/
theorem newest_operation_loses : ∃ s a n, machine.Reaches (init (some "a") true) s ∧
    machine.enabled s a ∧ a.response = some n ∧ n < s.operation ∧
    (next s a).session = some (sample "second" (some ⟨"b", "B"⟩)) ∧
    (next s a).persisted = none ∧ ¬ Unchanged s (next s a) := by
  obtain ⟨s, hrun, hs⟩ := Machine.exists_reaches_of_exec (M := machine)
    (s := init (some "a") true)
    (l := [.boot, .switchToWorkspace (some "b"), .accept 2,
      .deliver 2 (sample "second" (some ⟨"b", "B"⟩))])
    (p := fun s => decide (machine.enabled s (.refuse 1 404) ∧ 1 < s.operation ∧
      (next s (.refuse 1 404)).session = some (sample "second" (some ⟨"b", "B"⟩)) ∧
      (next s (.refuse 1 404)).persisted = none ∧ s.persisted = some "b"))
    (by decide +kernel)
  obtain ⟨hen, hlt, hsession, hnone, hsome⟩ := of_decide_eq_true hs
  refine ⟨s, .refuse 1 404, 1, hrun, hen, rfl, hlt, hsession, hnone, fun hsame => ?_⟩
  rw [hsame.persisted, hsome] at hnone
  cases hnone

end Atomis.SessionLifecycle
