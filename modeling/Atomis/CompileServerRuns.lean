import Atomis.CompileServer

/-!
# Every update is answered by its own build

The server in a free slot has answered everything it was asked, so the messages a call reads
are those of the build it asked for, up to the error bundle that ends it. Every server that
runs stands in a slot, and a slot that is neither listed nor in use is dropped with it.
-/

namespace Atomis.CompileServer

variable {κ γ : Type}

/-! ## What holds of one server -/

structure Server.Inv (x : Server κ γ) : Prop where
  whole : ∀ b ∈ x.builds, Whole b.messages
  underWay : ∀ b, x.current = some b → UnderWay b.messages

/-- Every request has its build, and everything a build sent was read. -/
structure Server.Quiet (x : Server κ γ) : Prop where
  current : x.current = none
  unread : x.unread = []
  builds : x.builds.length = x.requests.length

/-- The server has the request of this call, or builds for it, or has built for it; of the
messages of that build the call has read some, and knows this digest from them. -/
inductive Server.Serving (x : Server κ γ) (k : κ) (asked : ℕ) (digest : Option (List Char)) : Prop
  | requested (front : List κ) : x.requests = front ++ [k] → x.builds.length = front.length →
      x.current = none → x.unread = [] → digest = none → x.Serving k asked digest
  | building (front : List κ) (b : Build) (read : List Message) : x.requests = front ++ [k] →
      x.builds.length = front.length → x.current = some b → asked ≤ b.sources →
      b.messages = read ++ x.unread → requestUpdate none read = .inl digest →
      x.Serving k asked digest
  | built (front : List κ) (builds : List Build) (b : Build) (read : List Message) :
      x.requests = front ++ [k] → x.builds = builds ++ [b] → builds.length = front.length →
      x.current = none → asked ≤ b.sources → b.messages = read ++ x.unread →
      requestUpdate none read = .inl digest → x.Serving k asked digest

/-- One of the server's builds is the call's own, from sources that are not older than the
call, and came to this answer. -/
def Server.Answered (x : Server κ γ) (k : κ) (asked : ℕ) (answer : BuildAnswer) : Prop :=
  ∃ (n : ℕ) (build : Build), x.requests[n]? = some k ∧ x.builds[n]? = some build ∧ asked ≤ build.sources ∧
    requestUpdate none build.messages = .inr (.ok answer)

/-- What a step of the compiler keeps. -/
structure Server.Step (written : ℕ) (x x' : Server κ γ) : Prop where
  key : x'.key = x.key
  confinement : x'.confinement = x.confinement
  stopped : x'.stopped = false → x.stopped = false
  inv : x.Inv → x'.Inv
  quiet : x.Quiet → x'.Quiet
  serving : ∀ k asked digest, asked ≤ written → x.Serving k asked digest →
    x'.Serving k asked digest
  answered : ∀ k asked answer, x.Answered k asked answer → x'.Answered k asked answer

theorem Server.Answered.mono {x x' : Server κ γ} {k : κ} {asked : ℕ} {answer : BuildAnswer}
    (h : x.Answered k asked answer) (hrequests : x.requests <+: x'.requests)
    (hbuilds : x.builds <+: x'.builds) : x'.Answered k asked answer := by
  obtain ⟨n, build, hk, hbuild, hsources, hanswer⟩ := h
  obtain ⟨laterRequests, hrequests⟩ := hrequests
  obtain ⟨laterBuilds, hbuilds⟩ := hbuilds
  refine ⟨n, build, ?_, ?_, hsources, hanswer⟩
  · rw [← hrequests, List.getElem?_append_left (List.getElem?_eq_some_iff.mp hk).1, hk]
  · rw [← hbuilds, List.getElem?_append_left (List.getElem?_eq_some_iff.mp hbuild).1, hbuild]

theorem step_start {x : Server κ γ} {written : ℕ} (hcurrent : x.current = none)
    (hnext : x.builds.length < x.requests.length) : x.Step written (x.start written) where
  key := rfl
  confinement := rfl
  stopped := id
  inv h := ⟨h.whole, fun b hb m hm => by
    obtain rfl := Option.some.inj hb
    cases hm⟩
  quiet h := absurd h.builds (Nat.ne_of_lt hnext)
  serving k asked digest hasked h := by
    cases h with
    | requested front hrequests hbuilds _ hunread hdigest =>
      exact .building front ⟨written, []⟩ [] hrequests hbuilds rfl hasked
        (by simp [Server.start, hunread]) (by rw [hdigest]; rfl)
    | building front b read hrequests hbuilds hb => simp [hcurrent] at hb
    | built front builds b read hrequests hbuilds hlength =>
      simp [hrequests, hbuilds, hlength] at hnext
  answered k asked answer h := h

theorem step_emit {x : Server κ γ} {written : ℕ} {m : Message} (hcurrent : x.current ≠ none)
    (hm : m.tag ≠ serverErrorBundle) : x.Step written (x.emit m) where
  key := rfl
  confinement := rfl
  stopped := id
  inv h := by
    refine ⟨h.whole, fun b hb m' hm' => ?_⟩
    obtain ⟨b, hb', rfl⟩ := Option.map_eq_some_iff.mp hb
    rcases List.mem_append.mp hm' with hm' | hm'
    · exact h.underWay b hb' m' hm'
    · rwa [List.mem_singleton.mp hm']
  quiet h := absurd h.current hcurrent
  serving k asked digest _ h := by
    cases h with
    | requested front hrequests hbuilds hnone => exact absurd hnone hcurrent
    | building front b read hrequests hbuilds hb hasked hread hdigest =>
      exact .building front { b with messages := b.messages ++ [m] } read hrequests hbuilds
        (by simp [Server.emit, hb]) hasked (by simp [Server.emit, hread]) hdigest
    | built front builds b read hrequests hbuilds hlength hnone => exact absurd hnone hcurrent
  answered k asked answer h := h

theorem step_finish {x : Server κ γ} {written : ℕ} {m : Message} (hcurrent : x.current ≠ none)
    (hm : m.tag = serverErrorBundle) : x.Step written (x.finish m) := by
  obtain ⟨b, hb⟩ := Option.ne_none_iff_exists'.mp hcurrent
  have hbuilds : (x.finish m).builds = x.builds ++ [{ b with messages := b.messages ++ [m] }] := by
    simp [Server.finish, hb]
  refine ⟨rfl, rfl, id, fun h => ⟨fun b' hb' => ?_, fun b' hb' => ?_⟩,
    fun h => absurd h.current hcurrent, fun k asked digest _ h => ?_, fun k asked answer h => ?_⟩
  · rw [hbuilds] at hb'
    rcases List.mem_append.mp hb' with hb' | hb'
    · exact h.whole b' hb'
    · rw [List.mem_singleton.mp hb']
      exact ⟨b.messages, m, rfl, hm, h.underWay b hb⟩
  · cases hb'
  · cases h with
    | requested front hrequests hlength hnone => exact absurd hnone hcurrent
    | building front b' read hrequests hlength hb' hasked hread hdigest =>
      obtain rfl := Option.some.inj (hb.symm.trans hb')
      exact .built front x.builds _ read hrequests hbuilds hlength rfl hasked
        (by simp [Server.finish, hread]) hdigest
    | built front builds b read hrequests hlist hlength hnone => exact absurd hnone hcurrent
  · exact h.mono List.prefix_rfl (hbuilds ▸ List.prefix_append _ _)

theorem step_stop {x : Server κ γ} {written : ℕ} : x.Step written { x with stopped := true } where
  key := rfl
  confinement := rfl
  stopped h := by cases h
  inv h := ⟨h.whole, h.underWay⟩
  quiet h := ⟨h.current, h.unread, h.builds⟩
  serving k asked digest _ h := by
    cases h with
    | requested front h₁ h₂ h₃ h₄ h₅ => exact .requested front h₁ h₂ h₃ h₄ h₅
    | building front b read h₁ h₂ h₃ h₄ h₅ h₆ => exact .building front b read h₁ h₂ h₃ h₄ h₅ h₆
    | built front builds b read h₁ h₂ h₃ h₄ h₅ h₆ h₇ =>
      exact .built front builds b read h₁ h₂ h₃ h₄ h₅ h₆ h₇
  answered k asked answer h := h

/-! ## What holds of every state -/

variable (calls : Calls κ γ)

/-- The call was answered by this server, confined as the call's session is. -/
structure State.AnsweredBy (s : State κ γ) (k : κ) (w : ℕ) (update : Update) : Prop where
  made : w < s.made
  key : (s.server w).key = calls.key k
  confinement : (s.server w).confinement = calls.confinement k
  own : ∃ answer, (s.server w).Answered k (s.asked k) answer ∧
    outcome (calls.key k).2 answer = some update

/-- What does not depend on how far a server is. -/
structure Core (s : State κ γ) : Prop where
  servers : ∀ w, (s.server w).Inv
  asked : ∀ k, s.asked k ≤ s.written
  made : ∀ i w, s.inSlot i = some w → i < s.slots ∧ w < s.made
  alone : ∀ i j w, s.inSlot i = some w → s.inSlot j = some w → i = j
  owned : ∀ i w, s.inSlot i = some w → (s.server w).key = s.owner i
  held : ∀ i k, s.holder i = some k → ∃ w digest, s.call k = .reading i w digest ∧
    s.inSlot i = some w ∧ (s.server w).confinement = calls.confinement k
  reading : ∀ k i w digest, s.call k = .reading i w digest → s.holder i = some k
  mapped : ∀ key i, s.servers key = some i → i < s.slots ∧ s.owner i = key
  used : ∀ k i, (s.call k).Uses i → i < s.slots ∧ s.owner i = calls.key k
  running : ∀ w, (s.server w).stopped = false → ∃ i, s.inSlot i = some w
  answered : ∀ k w update, s.call k = .answered w update → s.AnsweredBy calls k w update

/-- The server in a free slot has nothing left to say, and the one in a slot that is held
serves the holder. -/
def Settled (s : State κ γ) (i : ℕ) : Prop :=
  ∀ w, s.inSlot i = some w →
    match s.holder i with
    | none => (s.server w).Quiet
    | some k => ∀ digest, s.call k = .reading i w digest →
        (s.server w).Serving k (s.asked k) digest

structure Inv (s : State κ γ) : Prop where
  core : Core calls s
  settled : ∀ i, Settled s i

variable {calls} {s t : State κ γ}

theorem Settled.frame {j : ℕ} (h : Settled s j) (hslot : t.inSlot j = s.inSlot j)
    (hholder : t.holder j = s.holder j) (hserver : ∀ w, s.inSlot j = some w → t.server w = s.server w)
    (hcall : ∀ k, s.holder j = some k → t.call k = s.call k ∧ t.asked k = s.asked k) :
    Settled t j := by
  intro w hw
  rw [hslot] at hw
  have hs := h w hw
  rw [hholder, hserver w hw]
  cases hk : s.holder j with
  | none => simpa [hk] using hs
  | some k =>
    obtain ⟨hcall, hasked⟩ := hcall k hk
    simpa [hk, hcall, hasked] using hs

theorem State.AnsweredBy.mono {k : κ} {w : ℕ} {update : Update} (h : s.AnsweredBy calls k w update)
    (hmade : s.made ≤ t.made) (hasked : t.asked k = s.asked k)
    (hkey : (t.server w).key = (s.server w).key)
    (hconf : (t.server w).confinement = (s.server w).confinement)
    (hown : ∀ answer, (s.server w).Answered k (s.asked k) answer →
      (t.server w).Answered k (s.asked k) answer) : t.AnsweredBy calls k w update := by
  obtain ⟨answer, hanswer, hupdate⟩ := h.own
  exact ⟨h.made.trans_le hmade, hkey.trans h.key, hconf.trans h.confinement, answer,
    hasked ▸ hown answer hanswer, hupdate⟩

theorem Core.holder_ne {k : κ} (h : Core calls s) (hk : ∀ i w digest, s.call k ≠ .reading i w digest)
    (i : ℕ) : s.holder i ≠ some k := by
  intro hi
  obtain ⟨w, digest, hcall, -⟩ := h.held i k hi
  exact hk i w digest hcall

/-! ## What each step does to it -/

section
variable [DecidableEq κ]

/-- A call that does not read goes on to something else. -/
theorem Core.setCall {k : κ} {x : Call} (h : Core calls s)
    (hk : ∀ i w digest, s.call k ≠ .reading i w digest)
    (hreading : ∀ i w digest, x ≠ .reading i w digest)
    (hused : ∀ i, x.Uses i → i < s.slots ∧ s.owner i = calls.key k)
    (hanswered : ∀ w update, x = .answered w update → s.AnsweredBy calls k w update) :
    Core calls (s.setCall k x) where
  servers := h.servers
  asked := h.asked
  made := h.made
  alone := h.alone
  owned := h.owned
  held i j hj := by
    have hne : j ≠ k := by
      rintro rfl
      exact h.holder_ne hk i hj
    obtain ⟨w, digest, hcall, hrest⟩ := h.held i j hj
    exact ⟨w, digest, by simpa [State.setCall, Function.update_of_ne hne] using hcall, hrest⟩
  reading j i w digest hj := by
    by_cases hne : j = k
    · subst hne
      simp only [State.setCall, Function.update_self] at hj
      exact absurd hj (hreading i w digest)
    · simp only [State.setCall, Function.update_of_ne hne] at hj
      exact h.reading j i w digest hj
  mapped := h.mapped
  used j i hj := by
    by_cases hne : j = k
    · subst hne
      simp only [State.setCall, Function.update_self] at hj
      exact hused i hj
    · simp only [State.setCall, Function.update_of_ne hne] at hj
      exact h.used j i hj
  running := h.running
  answered j w update hj := by
    by_cases hne : j = k
    · subst hne
      simp only [State.setCall, Function.update_self] at hj
      have hown := hanswered w update hj
      exact ⟨hown.made, hown.key, hown.confinement, hown.own⟩
    · simp only [State.setCall, Function.update_of_ne hne] at hj
      have hown := h.answered j w update hj
      exact ⟨hown.made, hown.key, hown.confinement, hown.own⟩

/-- The reader is done and gives the lock back. -/
theorem Core.release {k : κ} {i w : ℕ} {digest : Option (List Char)} {x : Call}
    (h : Core calls s) (hk : s.call k = .reading i w digest)
    (hreading : ∀ i w digest, x ≠ .reading i w digest) (hused : ∀ i, ¬ x.Uses i)
    (hanswered : ∀ w update, x = .answered w update → s.AnsweredBy calls k w update) :
    Core calls (s.release k i x) where
  servers := h.servers
  asked := h.asked
  made := h.made
  alone := h.alone
  owned := h.owned
  held j c hc := by
    have hji : j ≠ i := by
      rintro rfl
      simp [State.release] at hc
    simp only [State.release, Function.update_of_ne hji] at hc
    obtain ⟨w', digest', hcall, hrest⟩ := h.held j c hc
    have hne : c ≠ k := by
      rintro rfl
      rw [hk] at hcall
      exact hji (Call.reading.inj hcall).1.symm
    exact ⟨w', digest', by simpa [State.release, State.setCall, Function.update_of_ne hne] using hcall,
      hrest⟩
  reading c j w' digest' hc := by
    by_cases hne : c = k
    · subst hne
      simp only [State.release, State.setCall, Function.update_self] at hc
      exact absurd hc (hreading j w' digest')
    · simp only [State.release, State.setCall, Function.update_of_ne hne] at hc
      have hholder := h.reading c j w' digest' hc
      have hji : j ≠ i := by
        rintro rfl
        rw [h.reading k j w digest hk] at hholder
        exact hne (Option.some.inj hholder).symm
      simpa [State.release, Function.update_of_ne hji] using hholder
  mapped := h.mapped
  used c j hc := by
    by_cases hne : c = k
    · subst hne
      simp only [State.release, State.setCall, Function.update_self] at hc
      exact absurd hc (hused j)
    · simp only [State.release, State.setCall, Function.update_of_ne hne] at hc
      exact h.used c j hc
  running := h.running
  answered c w' update hc := by
    by_cases hne : c = k
    · subst hne
      simp only [State.release, State.setCall, Function.update_self] at hc
      have hown := hanswered w' update hc
      exact ⟨hown.made, hown.key, hown.confinement, hown.own⟩
    · simp only [State.release, State.setCall, Function.update_of_ne hne] at hc
      have hown := h.answered c w' update hc
      exact ⟨hown.made, hown.key, hown.confinement, hown.own⟩

end

/-- A server takes a step that keeps what a call may rely on. -/
theorem Core.setServer {w : ℕ} {x : Server κ γ} (h : Core calls s) (hkey : x.key = (s.server w).key)
    (hconf : x.confinement = (s.server w).confinement)
    (hstopped : x.stopped = false → (s.server w).stopped = false) (hinv : x.Inv)
    (hanswered : ∀ k asked answer, (s.server w).Answered k asked answer →
      x.Answered k asked answer) : Core calls (s.setServer w x) where
  servers v := by
    by_cases hv : v = w
    · subst hv
      simpa [State.setServer] using hinv
    · simpa [State.setServer, Function.update_of_ne hv] using h.servers v
  asked := h.asked
  made := h.made
  alone := h.alone
  owned i v hv := by
    have howned := h.owned i v hv
    by_cases hvw : v = w
    · subst hvw
      simpa [State.setServer, hkey] using howned
    · simpa [State.setServer, Function.update_of_ne hvw] using howned
  held i k hk := by
    obtain ⟨v, digest, hcall, hslot, hv⟩ := h.held i k hk
    refine ⟨v, digest, hcall, hslot, ?_⟩
    by_cases hvw : v = w
    · subst hvw
      simpa [State.setServer, hconf] using hv
    · simpa [State.setServer, Function.update_of_ne hvw] using hv
  reading := h.reading
  mapped := h.mapped
  used := h.used
  running v hv := by
    by_cases hvw : v = w
    · subst hvw
      exact h.running v (hstopped (by simpa [State.setServer] using hv))
    · exact h.running v (by simpa [State.setServer, Function.update_of_ne hvw] using hv)
  answered k v update hk := by
    have hown := h.answered k v update hk
    by_cases hvw : v = w
    · subst hvw
      exact hown.mono le_rfl rfl (by simpa [State.setServer] using hkey)
        (by simpa [State.setServer] using hconf)
        fun answer ha => by simpa [State.setServer] using hanswered k _ answer ha
    · exact hown.mono le_rfl rfl (by simp [State.setServer, hvw]) (by simp [State.setServer, hvw])
        fun answer ha => by simpa [State.setServer, Function.update_of_ne hvw] using ha

/-- The server of a free slot is taken out and stopped. -/
theorem Core.shutDown {i : ℕ} (h : Core calls s) (hfree : s.holder i = none) :
    Core calls (s.shutDown i) := by
  unfold State.shutDown
  cases hslot : s.inSlot i with
  | none => exact h
  | some w =>
    have hstep : (s.server w).Step s.written { s.server w with stopped := true } := step_stop
    have ht := h.setServer (x := { s.server w with stopped := true }) hstep.key
      hstep.confinement hstep.stopped (hstep.inv (h.servers w)) hstep.answered
    have hof {j v : ℕ} (hj : Function.update s.inSlot i none j = some v) : s.inSlot j = some v := by
      by_cases hji : j = i
      · simp [hji] at hj
      · rwa [Function.update_of_ne hji] at hj
    refine ⟨ht.servers, ht.asked, fun j v hj => ht.made j v (hof hj),
      fun j j' v hj hj' => ht.alone j j' v (hof hj) (hof hj'), fun j v hj => ht.owned j v (hof hj),
      fun j k hk => ?_, ht.reading, ht.mapped, ht.used, fun v hv => ?_,
      fun k v update hk => (ht.answered k v update hk).mono le_rfl rfl rfl rfl fun _ => id⟩
    · obtain ⟨v, digest, hcall, hv, hconf⟩ := ht.held j k hk
      replace hv : s.inSlot j = some v := hv
      have hji : j ≠ i := by
        rintro rfl
        have hk' : s.holder j = some k := hk
        rw [hfree] at hk'
        cases hk'
      exact ⟨v, digest, hcall, by simpa [Function.update_of_ne hji] using hv, hconf⟩
    · obtain ⟨j, hj⟩ := ht.running v hv
      replace hj : s.inSlot j = some v := hj
      have hvw : v ≠ w := by
        rintro rfl
        simp [State.setServer] at hv
      refine ⟨j, ?_⟩
      have hji : j ≠ i := by
        rintro rfl
        rw [hslot] at hj
        exact hvw (Option.some.inj hj).symm
      simpa [Function.update_of_ne hji] using hj

@[simp] theorem shutDown_call (s : State κ γ) (i : ℕ) : (s.shutDown i).call = s.call := by
  unfold State.shutDown
  cases s.inSlot i <;> rfl

@[simp] theorem shutDown_holder (s : State κ γ) (i : ℕ) : (s.shutDown i).holder = s.holder := by
  unfold State.shutDown
  cases s.inSlot i <;> rfl

@[simp] theorem shutDown_owner (s : State κ γ) (i : ℕ) : (s.shutDown i).owner = s.owner := by
  unfold State.shutDown
  cases s.inSlot i <;> rfl

@[simp] theorem shutDown_slots (s : State κ γ) (i : ℕ) : (s.shutDown i).slots = s.slots := by
  unfold State.shutDown
  cases s.inSlot i <;> rfl

theorem inSlot_shutDown (s : State κ γ) (i : ℕ) : (s.shutDown i).inSlot i = none := by
  unfold State.shutDown
  cases hslot : s.inSlot i with
  | none => exact hslot
  | some w => simp

theorem Settled.of_empty {i : ℕ} (h : s.inSlot i = none) : Settled s i := by
  intro w hw
  rw [h] at hw
  cases hw

/-- In the other slots nothing changes. -/
theorem Settled.shutDown {i j : ℕ} (h : Settled s j) (hcore : Core calls s) (hji : j ≠ i) :
    Settled (s.shutDown i) j := by
  unfold State.shutDown
  cases hslot : s.inSlot i with
  | none => exact h
  | some w =>
    refine h.frame (by simp [Function.update_of_ne hji]) rfl (fun v hv => ?_) fun _ _ => ⟨rfl, rfl⟩
    have hvw : v ≠ w := by
      rintro rfl
      exact hji (hcore.alone j i v hv hslot)
    simp [State.setServer, Function.update_of_ne hvw]

theorem Inv.shutDown {i : ℕ} (h : Inv calls s) (hfree : s.holder i = none) :
    Inv calls (s.shutDown i) := by
  refine ⟨h.core.shutDown hfree, fun j => ?_⟩
  by_cases hji : j = i
  · subst hji
    exact .of_empty (inSlot_shutDown s j)
  · exact (h.settled j).shutDown h.core hji

/-- The compiler takes a step. -/
theorem Inv.step {w : ℕ} {x : Server κ γ} (h : Inv calls s)
    (hstep : (s.server w).Step s.written x) : Inv calls (s.setServer w x) := by
  refine ⟨h.core.setServer hstep.key hstep.confinement hstep.stopped
    (hstep.inv (h.core.servers w)) hstep.answered, fun i v hv => ?_⟩
  have hs := h.settled i v hv
  by_cases hvw : v = w
  · subst hvw
    change match s.holder i with
      | none => _
      | some k => _
    cases hk : s.holder i with
    | none =>
      rw [hk] at hs
      simpa [State.setServer] using hstep.quiet hs
    | some k =>
      rw [hk] at hs
      intro digest hcall
      simpa [State.setServer] using
        hstep.serving k _ digest (h.core.asked k) (hs digest hcall)
  · simpa [State.setServer, Function.update_of_ne hvw] using hs

section
variable [DecidableEq κ]

theorem Settled.setCall {i : ℕ} {k : κ} {x : Call} (h : Settled s i) (hk : s.holder i ≠ some k) :
    Settled (s.setCall k x) i := by
  refine h.frame rfl rfl (fun _ _ => rfl) fun c hc => ⟨?_, rfl⟩
  have hck : c ≠ k := by
    rintro rfl
    exact hk hc
  simp [State.setCall, Function.update_of_ne hck]

/-- In the other slots nothing changes. -/
theorem Settled.release {i j w : ℕ} {k : κ} {digest : Option (List Char)} {x : Call}
    (h : Settled s j) (hcore : Core calls s) (hk : s.call k = .reading i w digest) (hji : j ≠ i) :
    Settled (s.release k i x) j := by
  refine h.frame rfl (by simp [State.release, Function.update_of_ne hji]) (fun _ _ => rfl)
    fun c hc => ⟨?_, rfl⟩
  have hck : c ≠ k := by
    rintro rfl
    obtain ⟨w', digest', hcall, -⟩ := hcore.held j c hc
    rw [hk] at hcall
    exact hji (Call.reading.inj hcall).1.symm
  simp [State.release, State.setCall, Function.update_of_ne hck]

/-- The reader gives up, and its server with it. -/
theorem Core.leave {k : κ} {i w : ℕ} {digest : Option (List Char)} (h : Core calls s)
    (hk : s.call k = .reading i w digest) :
    Core calls ((s.shutDown i).release k i .unserved) := by
  have hcomm : (s.shutDown i).release k i .unserved = (s.release k i .unserved).shutDown i := by
    unfold State.shutDown
    cases hslot : s.inSlot i <;> simp [State.release, State.setCall, State.setServer, hslot]
  rw [hcomm]
  refine (h.release hk (by simp) (by simp [Call.Uses]) (by simp)).shutDown ?_
  simp [State.release]

theorem settled_leave {k : κ} {i w j : ℕ} {digest : Option (List Char)} (h : Settled s j ∨ j = i)
    (hcore : Core calls s) (hk : s.call k = .reading i w digest) :
    Settled ((s.shutDown i).release k i .unserved) j := by
  by_cases hji : j = i
  · subst hji
    exact .of_empty (inSlot_shutDown s j)
  · refine ((h.resolve_right hji).shutDown hcore hji).frame rfl
      (by simp [State.release, Function.update_of_ne hji]) (fun _ _ => rfl) fun c hc => ⟨?_, rfl⟩
    rw [shutDown_holder] at hc
    have hck : c ≠ k := by
      rintro rfl
      obtain ⟨w', digest', hcall, -⟩ := hcore.held j c hc
      rw [hk] at hcall
      exact hji (Call.reading.inj hcall).1.symm
    simp [State.release, State.setCall, Function.update_of_ne hck]

end

/-! ## A call and its server -/

theorem Server.Serving.read {x : Server κ γ} {k : κ} {asked : ℕ} {digest digest' : Option (List Char)}
    {m : Message} {rest : List Message} (h : x.Serving k asked digest) (hunread : x.unread = m :: rest)
    (hstep : readStep digest m = .inl digest') :
    Server.Serving { x with unread := rest } k asked digest' := by
  have hnext {read : List Message} (hread : requestUpdate none read = .inl digest) :
      requestUpdate none (read ++ [m]) = .inl digest' := by
    rw [requestUpdate_append, hread]
    simp [requestUpdate, hstep]
  cases h with
  | requested front _ _ _ hnil =>
    rw [hunread] at hnil
    cases hnil
  | building front b read h₁ h₂ h₃ h₄ hmessages hread =>
    exact .building front b (read ++ [m]) h₁ h₂ h₃ h₄ (by simp [hmessages, hunread]) (hnext hread)
  | built front builds b read h₁ h₂ h₃ h₄ h₅ hmessages hread =>
    exact .built front builds b (read ++ [m]) h₁ h₂ h₃ h₄ h₅ (by simp [hmessages, hunread])
      (hnext hread)

/-- The error bundle is the last the server had to say, and settles the call's own build. -/
theorem Server.Serving.finish {x : Server κ γ} {k : κ} {asked : ℕ} {digest : Option (List Char)}
    {m : Message} {rest : List Message} {answer : Except String BuildAnswer}
    (h : x.Serving k asked digest) (hinv : x.Inv) (hunread : x.unread = m :: rest)
    (hstep : readStep digest m = .inr answer) :
    Server.Quiet { x with unread := rest } ∧
      ∀ result, answer = .ok result → x.Answered k asked result := by
  have hbundle : m.tag = serverErrorBundle := by
    by_contra hne
    have hleft := (readStep_isLeft digest m).mpr hne
    rw [hstep] at hleft
    cases hleft
  cases h with
  | requested front _ _ _ hnil =>
    rw [hunread] at hnil
    cases hnil
  | building front b read _ _ hb _ hmessages =>
    rw [hunread] at hmessages
    exact absurd hbundle (hinv.underWay b hb m (by simp [hmessages]))
  | built front builds b read hrequests hbuilds hlength hnone hasked hmessages hread =>
    rw [hunread] at hmessages
    have hwhole : Whole (read ++ m :: rest) := hmessages ▸ hinv.whole b (by simp [hbuilds])
    obtain rfl := hwhole.behind_bundle hbundle
    refine ⟨⟨hnone, rfl, by simp [hbuilds, hrequests, hlength]⟩, ?_⟩
    rintro result rfl
    refine ⟨front.length, b, by simp [hrequests], by simp [hbuilds, ← hlength], hasked, ?_⟩
    rw [hmessages, requestUpdate_append, hread]
    simp [requestUpdate, hstep]

theorem Server.Quiet.serving {x : Server κ γ} (h : x.Quiet) (k : κ) (asked : ℕ) :
    Server.Serving { x with requests := x.requests ++ [k] } k asked none :=
  .requested x.requests rfl h.builds h.current h.unread rfl

theorem Core.unread {w : ℕ} (h : Core calls s) (unread : List Message) :
    Core calls (s.setServer w { s.server w with unread := unread }) :=
  h.setServer rfl rfl id ⟨(h.servers w).whole, (h.servers w).underWay⟩ fun _ _ _ => id

theorem Core.libc (h : Core calls s) (sessions : List String) :
    Core calls { s with needsLibc := sessions } :=
  ⟨h.servers, h.asked, h.made, h.alone, h.owned, h.held, h.reading, h.mapped, h.used, h.running,
    fun k w update hk => (h.answered k w update hk).mono le_rfl rfl rfl rfl fun _ => id⟩

theorem settled_libc {i : ℕ} (h : Settled s i) (sessions : List String) :
    Settled { s with needsLibc := sessions } i :=
  h.frame rfl rfl (fun _ _ => rfl) fun _ _ => ⟨rfl, rfl⟩

/-- The slot of the call is the only one whose server changes. -/
theorem Settled.unread {i j w : ℕ} (h : Settled s j) (hcore : Core calls s)
    (hslot : s.inSlot i = some w) (hji : j ≠ i) (unread : List Message) :
    Settled (s.setServer w { s.server w with unread := unread }) j := by
  refine h.frame rfl rfl (fun v hv => ?_) fun _ _ => ⟨rfl, rfl⟩
  have hvw : v ≠ w := by
    rintro rfl
    exact hji (hcore.alone j i v hv hslot)
  simp [State.setServer, Function.update_of_ne hvw]

theorem Inv.newSlot (h : Inv calls s) (key : SlotKey) :
    Inv calls { s with
      servers := Function.update s.servers key (some s.slots)
      owner := Function.update s.owner s.slots key
      slots := s.slots + 1 } := by
  have hof {i : ℕ} (hi : i < s.slots) : Function.update s.owner s.slots key i = s.owner i :=
    Function.update_of_ne (Nat.ne_of_lt hi) _ _
  refine ⟨⟨h.core.servers, h.core.asked, fun i w hi => ?_, h.core.alone, fun i w hi => ?_,
    h.core.held, h.core.reading, fun key' i hi => ?_, fun k i hi => ?_, h.core.running,
    fun k w update hk => (h.core.answered k w update hk).mono le_rfl rfl rfl rfl fun _ => id⟩,
    fun i => (h.settled i).frame rfl rfl (fun _ _ => rfl) fun _ _ => ⟨rfl, rfl⟩⟩
  · have hmade := h.core.made i w hi
    exact ⟨Nat.lt_succ_of_lt hmade.1, hmade.2⟩
  · exact (h.core.owned i w hi).trans (hof (h.core.made i w hi).1).symm
  · by_cases hkey : key' = key
    · subst hkey
      simp only [Function.update_self] at hi
      obtain rfl := Option.some.inj hi
      exact ⟨Nat.lt_succ_self _, Function.update_self _ _ _⟩
    · simp only [Function.update_of_ne hkey] at hi
      obtain ⟨hlt, howner⟩ := h.core.mapped key' i hi
      exact ⟨Nat.lt_succ_of_lt hlt, (hof hlt).trans howner⟩
  · obtain ⟨hlt, howner⟩ := h.core.used k i hi
    exact ⟨Nat.lt_succ_of_lt hlt, (hof hlt).trans howner⟩

theorem Inv.spawn {i : ℕ} {x : Server κ γ} (h : Inv calls s) (hslot : s.inSlot i = none)
    (hi : i < s.slots) (hkey : x.key = s.owner i) (hx : x.Quiet) (hinv : x.Inv)
    (hfree : s.holder i = none) : Inv calls (s.spawn i x) := by
  have hold {j w : ℕ} (hj : s.inSlot j = some w) :
      (s.spawn i x).inSlot j = some w ∧ (s.spawn i x).server w = s.server w := by
    have hji : j ≠ i := by
      rintro rfl
      rw [hslot] at hj
      cases hj
    have hw : w ≠ s.made := Nat.ne_of_lt (h.core.made j w hj).2
    exact ⟨by simpa [State.spawn, Function.update_of_ne hji] using hj,
      by simp [State.spawn, State.setServer, Function.update_of_ne hw]⟩
  have hnew : (s.spawn i x).inSlot i = some s.made ∧ (s.spawn i x).server s.made = x := by
    simp [State.spawn, State.setServer]
  have hcases {j w : ℕ} (hj : (s.spawn i x).inSlot j = some w) :
      (j = i ∧ w = s.made) ∨ s.inSlot j = some w := by
    by_cases hji : j = i
    · subst hji
      rw [hnew.1] at hj
      exact .inl ⟨rfl, (Option.some.inj hj).symm⟩
    · simp only [State.spawn, Function.update_of_ne hji] at hj
      exact .inr hj
  refine ⟨⟨fun w => ?_, h.core.asked, fun j w hj => ?_, fun j j' w hj hj' => ?_, fun j w hj => ?_,
    fun j k hk => ?_, h.core.reading, h.core.mapped, h.core.used, fun w hw => ?_,
    fun k w update hk => ?_⟩, fun j w hj => ?_⟩
  · by_cases hw : w = s.made
    · rw [hw, hnew.2]
      exact hinv
    · simpa [State.spawn, State.setServer, Function.update_of_ne hw] using h.core.servers w
  · rcases hcases hj with ⟨rfl, rfl⟩ | hj
    · exact ⟨hi, Nat.lt_succ_self _⟩
    · obtain ⟨hj, hw⟩ := h.core.made j w hj
      exact ⟨hj, Nat.lt_succ_of_lt hw⟩
  · rcases hcases hj with ⟨hji, hw⟩ | hj₀ <;> rcases hcases hj' with ⟨hji', hw'⟩ | hj₀'
    · exact hji.trans hji'.symm
    · exact absurd (h.core.made j' w hj₀').2 (hw ▸ Nat.lt_irrefl _)
    · exact absurd (h.core.made j w hj₀).2 (hw' ▸ Nat.lt_irrefl _)
    · exact h.core.alone j j' w hj₀ hj₀'
  · rcases hcases hj with ⟨rfl, rfl⟩ | hj
    · rw [hnew.2]
      exact hkey
    · rw [(hold hj).2]
      exact h.core.owned j w hj
  · obtain ⟨w, digest, hcall, hj, hconf⟩ := h.core.held j k hk
    exact ⟨w, digest, hcall, (hold hj).1, by rw [(hold hj).2]; exact hconf⟩
  · by_cases hwm : w = s.made
    · exact ⟨i, by rw [hwm]; exact hnew.1⟩
    · simp only [State.spawn, State.setServer, Function.update_of_ne hwm] at hw
      obtain ⟨j, hj⟩ := h.core.running w hw
      exact ⟨j, (hold hj).1⟩
  · have hown := h.core.answered k w update hk
    have hw : (s.spawn i x).server w = s.server w := by
      simp [State.spawn, State.setServer, Function.update_of_ne (Nat.ne_of_lt hown.made)]
    exact hown.mono (Nat.le_succ _) rfl (by rw [hw]) (by rw [hw]) fun answer ha => by rwa [hw]
  · rcases hcases hj with ⟨rfl, rfl⟩ | hj
    · rw [hnew.2]
      change match s.holder j with
        | none => _
        | some k => _
      rw [hfree]
      exact hx
    · rw [(hold hj).2]
      exact h.settled j w hj

theorem inv_init [Inhabited γ] : Inv calls (init : State κ γ) where
  core :=
    { servers := fun w => ⟨by simp [init, Server.spawn], by simp [init, Server.spawn]⟩
      asked := fun k => le_rfl
      made := fun i w hi => by cases hi
      alone := fun i j w hi => by cases hi
      owned := fun i w hi => by cases hi
      held := fun i k hk => by cases hk
      reading := fun k i w digest hk => by cases hk
      mapped := fun key i hi => by cases hi
      used := fun k i hi => by cases hi
      running := fun w hw => by cases hw
      answered := fun k w update hk => by cases hk }
  settled := fun i w hw => by cases hw

section
variable [DecidableEq κ]

theorem Core.advance {k : κ} {i w : ℕ} {digest digest' : Option (List Char)} (h : Core calls s)
    (hk : s.call k = .reading i w digest) : Core calls (s.setCall k (.reading i w digest')) := by
  have hof {c : κ} (hne : c ≠ k) : (s.setCall k (.reading i w digest')).call c = s.call c := by
    simp [State.setCall, Function.update_of_ne hne]
  have hself : (s.setCall k (.reading i w digest')).call k = .reading i w digest' := by
    simp [State.setCall]
  refine ⟨h.servers, h.asked, h.made, h.alone, h.owned, fun j c hc => ?_, fun c j v d hc => ?_,
    h.mapped, fun c j hc => ?_, h.running, fun c v update hc => ?_⟩
  · obtain ⟨v, d, hcall, hrest⟩ := h.held j c hc
    by_cases hne : c = k
    · subst hne
      rw [hk] at hcall
      obtain ⟨rfl, rfl, -⟩ := Call.reading.inj hcall
      exact ⟨w, digest', hself, hrest⟩
    · exact ⟨v, d, (hof hne).trans hcall, hrest⟩
  · by_cases hne : c = k
    · subst hne
      rw [hself] at hc
      obtain ⟨rfl, rfl, -⟩ := Call.reading.inj hc
      exact h.reading c i w digest hk
    · exact h.reading c j v d ((hof hne).symm.trans hc)
  · by_cases hne : c = k
    · subst hne
      rw [hself] at hc
      exact h.used c j (by rw [hk]; exact hc)
    · rw [hof hne] at hc
      exact h.used c j hc
  · by_cases hne : c = k
    · subst hne
      rw [hself] at hc
      cases hc
    · rw [hof hne] at hc
      exact (h.answered c v update hc).mono le_rfl rfl rfl rfl fun _ => id

theorem Settled.advance {i w : ℕ} {k : κ} {digest : Option (List Char)}
    (hk : s.holder i = some k) (hslot : s.inSlot i = some w)
    (hserving : (s.server w).Serving k (s.asked k) digest) :
    Settled (s.setCall k (.reading i w digest)) i := by
  intro v hv
  obtain rfl : w = v := Option.some.inj (hslot.symm.trans hv)
  change match s.holder i with
    | none => _
    | some k => _
  rw [hk]
  intro digest' hcall
  simp only [State.setCall, Function.update_self] at hcall
  rw [← (Call.reading.inj hcall).2.2]
  exact hserving

theorem Inv.leave {k : κ} {i w : ℕ} {digest : Option (List Char)} (hcore : Core calls s)
    (hk : s.call k = .reading i w digest) (h : ∀ j ≠ i, Settled s j) :
    Inv calls ((s.shutDown i).release k i .unserved) := by
  refine ⟨hcore.leave hk, fun j => settled_leave ?_ hcore hk⟩
  by_cases hji : j = i
  · exact .inr hji
  · exact .inl (h j hji)

theorem Inv.receive {k : κ} {i w : ℕ} {digest : Option (List Char)} {m : Message}
    (h : Inv calls s) (hk : s.call k = .reading i w digest)
    (hm : (s.server w).unread.head? = some m) : Inv calls (s.receive calls k i w digest m) := by
  obtain ⟨rest, hunread⟩ : ∃ rest, (s.server w).unread = m :: rest := by
    cases hlist : (s.server w).unread with
    | nil => simp [hlist] at hm
    | cons m' rest =>
      rw [hlist] at hm
      exact ⟨rest, by rw [Option.some.inj hm]⟩
  have hholder := h.core.reading k i w digest hk
  obtain ⟨w', digest', hcall, hslot, hconf⟩ := h.core.held i k hholder
  obtain ⟨-, rfl, -⟩ := Call.reading.inj (hcall.symm.trans hk)
  have hserving : (s.server w').Serving k (s.asked k) digest := by
    have hs := h.settled i w' hslot
    rw [hholder] at hs
    exact hs digest hk
  have hcore := h.core.unread (w := w') rest
  have hothers (j : ℕ) (hji : j ≠ i) := (h.settled j).unread h.core hslot hji rest
  simp only [State.receive, hunread, List.tail_cons]
  set t := s.setServer w' { s.server w' with unread := rest } with ht
  have hserver : t.server w' = { s.server w' with unread := rest } := by simp [ht, State.setServer]
  cases hstep : readStep digest m with
  | inl digest' =>
    refine ⟨hcore.advance hk, fun j => ?_⟩
    by_cases hji : j = i
    · subst hji
      exact Settled.advance hholder hslot (hserver ▸ hserving.read hunread hstep)
    · refine (hothers j hji).setCall fun hj => hji ?_
      obtain ⟨v, d, hjcall, -⟩ := h.core.held j k hj
      exact (Call.reading.inj (hjcall.symm.trans hk)).1
  | inr answer =>
    obtain ⟨hquiet, hanswered⟩ := hserving.finish (h.core.servers w') hunread hstep
    cases answer with
    | error e => exact Inv.leave hcore hk hothers
    | ok result =>
      simp only [State.answer]
      cases hupdate : outcome (calls.key k).2 result with
      | none =>
        have hleft := Inv.leave hcore hk hothers
        exact ⟨hleft.core.libc _, fun j => settled_libc (hleft.settled j) _⟩
      | some update =>
        have hused : i < s.slots ∧ s.owner i = calls.key k :=
          h.core.used k i (by rw [hk]; rfl)
        refine ⟨hcore.release hk (by simp) (by simp [Call.Uses]) fun v u hv => ?_, fun j => ?_⟩
        · obtain ⟨rfl, rfl⟩ := Call.answered.inj hv
          refine ⟨(h.core.made i w' hslot).2, ?_, ?_, result, ?_, hupdate⟩
          · rw [hserver]
            exact (h.core.owned i w' hslot).trans hused.2
          · rw [hserver]
            exact hconf
          · rw [hserver]
            exact hanswered result rfl
        · by_cases hji : j = i
          · subst hji
            intro v hv
            obtain rfl : w' = v := Option.some.inj (hslot.symm.trans hv)
            simp only [State.release, Function.update_self]
            exact hserver ▸ hquiet
          · exact (hothers j hji).release hcore hk hji

/-! ## Calls that come, and the slots they find -/

theorem Inv.ask {k : κ} (h : Inv calls s) (hk : s.call k = .idle) :
    Inv calls { s with asked := Function.update s.asked k s.written } := by
  have hof {c : κ} (hc : s.call c ≠ .idle) :
      Function.update s.asked k s.written c = s.asked c := by
    refine Function.update_of_ne ?_ _ _
    rintro rfl
    exact hc hk
  refine ⟨⟨h.core.servers, fun c => ?_, h.core.made, h.core.alone, h.core.owned, h.core.held,
    h.core.reading, h.core.mapped, h.core.used, h.core.running, fun c w update hc => ?_⟩,
    fun i => (h.settled i).frame rfl rfl (fun _ _ => rfl) fun c hc => ⟨rfl, hof ?_⟩⟩
  · by_cases hck : c = k
    · simp [hck]
    · simpa [Function.update_of_ne hck] using h.core.asked c
  · refine (h.core.answered c w update hc).mono le_rfl (hof ?_) rfl rfl fun _ => id
    rw [show s.call c = _ from hc]
    simp
  · obtain ⟨w, digest, hcall, -⟩ := h.core.held i c hc
    simp [hcall]

theorem Inv.setCall {k : κ} {x : Call} (h : Inv calls s)
    (hk : ∀ i w digest, s.call k ≠ .reading i w digest)
    (hreading : ∀ i w digest, x ≠ .reading i w digest) (hanswered : ∀ w update, x ≠ .answered w update)
    (hused : ∀ i, x.Uses i → i < s.slots ∧ s.owner i = calls.key k) :
    Inv calls (s.setCall k x) :=
  ⟨h.core.setCall hk hreading hused fun w update hx => absurd hx (hanswered w update),
    fun i => (h.settled i).setCall (h.core.holder_ne hk i)⟩

theorem Inv.entry {k : κ} (h : Inv calls s) (hk : s.call k = .idle) :
    Inv calls (s.entry calls k) := by
  unfold State.entry
  cases hkey : s.servers (calls.key k) with
  | some i =>
    refine (h.ask hk).setCall (k := k) (x := .waiting i) (by simp [hk]) (by simp) (by simp) ?_
    rintro j rfl
    exact h.core.mapped _ i hkey
  | none =>
    refine ((h.newSlot (calls.key k)).ask hk).setCall (k := k) (x := .waiting s.slots)
      (by simp [hk]) (by simp) (by simp) ?_
    rintro j rfl
    exact ⟨Nat.lt_succ_self _, Function.update_self _ _ _⟩

/-- The call that has the lock asks the server in the slot. -/
theorem Inv.request {k : κ} {i w : ℕ} (h : Inv calls s) (hk : s.call k = .waiting i)
    (hfree : s.holder i = none) (hslot : s.inSlot i = some w)
    (hconf : (s.server w).confinement = calls.confinement k) : Inv calls (s.request k i w) := by
  have hquiet : (s.server w).Quiet := by
    have hs := h.settled i w hslot
    rwa [hfree] at hs
  have hused := h.core.used k i (by rw [hk]; rfl)
  have ht := h.core.setServer (w := w)
    (x := { s.server w with requests := (s.server w).requests ++ [k] }) rfl rfl id
    ⟨(h.core.servers w).whole, (h.core.servers w).underWay⟩
    fun _ _ _ ha => ha.mono (List.prefix_append _ _) List.prefix_rfl
  have hof {c : κ} (hc : c ≠ k) : (s.request k i w).call c = s.call c := by
    simp [State.request, State.setCall, State.setServer, Function.update_of_ne hc]
  have hself : (s.request k i w).call k = .reading i w none := by
    simp [State.request, State.setCall]
  have hserver : (s.request k i w).server w =
      { s.server w with requests := (s.server w).requests ++ [k] } := by
    simp [State.request, State.setCall, State.setServer]
  have hne {j : ℕ} {c : κ} (hc : s.holder j = some c) : c ≠ k ∧ j ≠ i := by
    constructor
    · rintro rfl
      exact h.core.holder_ne (by simp [hk]) j hc
    · rintro rfl
      rw [hfree] at hc
      cases hc
  have hholder {j : ℕ} (hj : j ≠ i) : (s.request k i w).holder j = s.holder j := by
    simp [State.request, State.setCall, State.setServer, Function.update_of_ne hj]
  refine ⟨⟨ht.servers, ht.asked, ht.made, ht.alone, ht.owned, fun j c hc => ?_,
    fun c j v d hc => ?_, ht.mapped, fun c j hc => ?_, ht.running, fun c v update hc => ?_⟩,
    fun j => ?_⟩
  · by_cases hji : j = i
    · subst hji
      simp only [State.request, Function.update_self, Option.some.injEq] at hc
      subst hc
      exact ⟨w, none, hself, hslot, by rw [hserver]; exact hconf⟩
    · rw [hholder hji] at hc
      obtain ⟨v, d, hcall, hrest⟩ := ht.held j c hc
      exact ⟨v, d, (hof (hne hc).1).trans hcall, hrest⟩
  · by_cases hck : c = k
    · subst hck
      rw [hself] at hc
      obtain ⟨rfl, -⟩ := Call.reading.inj hc
      simp [State.request]
    · rw [hof hck] at hc
      have hj := h.core.reading c j v d hc
      rw [hholder (hne hj).2, hj]
  · by_cases hck : c = k
    · subst hck
      rw [hself] at hc
      obtain rfl : i = j := hc
      exact hused
    · rw [hof hck] at hc
      exact h.core.used c j hc
  · have hck : c ≠ k := by
      rintro rfl
      rw [hself] at hc
      cases hc
    rw [hof hck] at hc
    exact (ht.answered c v update hc).mono le_rfl rfl rfl rfl fun _ => id
  · by_cases hji : j = i
    · subst hji
      intro v hv
      obtain rfl : w = v := Option.some.inj (hslot.symm.trans hv)
      simp only [State.request, Function.update_self]
      intro d hd
      rw [← (Call.reading.inj (hself.symm.trans hd)).2.2]
      simpa [State.setCall, State.setServer] using hquiet.serving k (s.asked k)
    · refine (h.settled j).frame rfl (hholder hji) (fun v hv => ?_) fun c hc => ⟨hof (hne hc).1, rfl⟩
      have hvw : v ≠ w := by
        rintro rfl
        exact hji (h.core.alone j i v hv hslot)
      simp [State.request, State.setCall, State.setServer, Function.update_of_ne hvw]

section
variable [DecidableEq γ]

theorem Inv.acquire {k : κ} {i : ℕ} (h : Inv calls s) (hk : s.call k = .waiting i)
    (hfree : s.holder i = none) (spawns : Bool) : Inv calls (s.acquire calls k i spawns) := by
  have hused := h.core.used k i (by rw [hk]; rfl)
  unfold State.acquire
  cases hkept : s.kept calls k i with
  | some w =>
    obtain ⟨hslot, hconf⟩ := Option.filter_eq_some_iff.mp hkept
    exact h.request hk hfree hslot (by simpa using hconf)
  | none =>
    have ht := h.shutDown hfree
    have hcall : (s.shutDown i).call k = .waiting i := by rw [shutDown_call, hk]
    cases spawns with
    | false => exact ht.setCall (by simp [hk]) (by simp) (by simp) (by simp [Call.Uses])
    | true =>
      have hspawn := ht.spawn (x := .spawn (calls.key k) (calls.confinement k))
        (inSlot_shutDown s i) (by rw [shutDown_slots]; exact hused.1)
        (by rw [shutDown_owner]; exact hused.2.symm) ⟨rfl, rfl, rfl⟩
        ⟨by simp [Server.spawn], by simp [Server.spawn]⟩ (by rw [shutDown_holder]; exact hfree)
      exact hspawn.request hcall (by simpa [State.spawn, State.setServer] using hfree)
        (by simp [State.spawn]) (by simp [State.spawn, State.setServer, Server.spawn])

theorem inv_step (s : State κ γ) (a : Action κ) (h : Inv calls s)
    (ha : (machine calls).enabled s a) : Inv calls ((machine calls).next s a) := by
  cases a with
  | enter k => exact h.entry ha
  | acquire k i spawns => exact h.acquire ha.1 ha.2 spawns
  | receive k i w digest m => exact h.receive ha.1 ha.2
  | giveUp k i w digest => exact Inv.leave h.core ha fun j _ => h.settled j
  | forget key =>
    refine ⟨⟨h.core.servers, h.core.asked, h.core.made, h.core.alone, h.core.owned, h.core.held,
      h.core.reading, fun key' i hi => ?_, h.core.used, h.core.running, fun k w update hk =>
        (h.core.answered k w update hk).mono le_rfl rfl rfl rfl fun _ => id⟩,
      fun i => (h.settled i).frame rfl rfl (fun _ _ => rfl) fun _ _ => ⟨rfl, rfl⟩⟩
    have hkey : key' ≠ key := by
      rintro rfl
      simp [machine, next] at hi
    exact h.core.mapped key' i (by simpa [machine, next, Function.update_of_ne hkey] using hi)
  | forgetSlot i =>
    have ht := h.shutDown ha.2
    exact ⟨⟨ht.core.servers, ht.core.asked, ht.core.made, ht.core.alone, ht.core.owned,
      ht.core.held, ht.core.reading, ht.core.mapped, ht.core.used, ht.core.running,
      fun k w update hk => (ht.core.answered k w update hk).mono le_rfl rfl rfl rfl fun _ => id⟩,
      fun j => (ht.settled j).frame rfl rfl (fun _ _ => rfl) fun _ _ => ⟨rfl, rfl⟩⟩
  | forgetLibc session => exact ⟨h.core.libc _, fun i => settled_libc (h.settled i) _⟩
  | reapIdle i => exact h.shutDown ha
  | dropSlot i =>
    refine h.shutDown ?_
    by_contra hheld
    obtain ⟨k, hk⟩ := Option.ne_none_iff_exists'.mp hheld
    obtain ⟨w, digest, hcall, -⟩ := h.core.held i k hk
    exact ha.2.1 k (by rw [hcall]; rfl)
  | start w => exact h.step (step_start ha.2.1 ha.2.2)
  | emit w m => exact h.step (step_emit ha.2.1 ha.2.2)
  | finish w m => exact h.step (step_finish ha.2.1 ha.2.2)
  | exit w => exact h.step step_stop
  | write =>
    exact ⟨⟨h.core.servers, fun k => Nat.le_succ_of_le (h.core.asked k), h.core.made, h.core.alone,
      h.core.owned, h.core.held, h.core.reading, h.core.mapped, h.core.used, h.core.running,
      fun k w update hk => (h.core.answered k w update hk).mono le_rfl rfl rfl rfl fun _ => id⟩,
      fun i => (h.settled i).frame rfl rfl (fun _ _ => rfl) fun _ _ => ⟨rfl, rfl⟩⟩

variable [Inhabited γ] (calls)

/-- Whatever calls, cancellations, forgetting, idle servers and crashes come between: what a
call returns is the answer to its own request, of a server confined as the call's session
is, from sources no older than the call. -/
theorem updates_answer_own_build {s : State κ γ} (h : (machine calls).Reaches init s) {k : κ}
    {w : ℕ} {update : Update} (hk : s.call k = .answered w update) :
    (s.server w).key = calls.key k ∧ (s.server w).confinement = calls.confinement k ∧
      ∃ (n : ℕ) (build : Build) (answer : BuildAnswer), (s.server w).requests[n]? = some k ∧
        (s.server w).builds[n]? = some build ∧ s.asked k ≤ build.sources ∧
        requestUpdate none build.messages = .inr (.ok answer) ∧
        outcome (calls.key k).2 answer = some update := by
  have hinv : Inv calls s := h.invariant inv_step inv_init
  obtain ⟨-, hkey, hconf, answer, ⟨n, build, hrequest, hbuild, hsources, hanswer⟩, hupdate⟩ :=
    hinv.core.answered k w update hk
  exact ⟨hkey, hconf, n, build, answer, hrequest, hbuild, hsources, hanswer, hupdate⟩

/-- A running server stands in a slot made for its session and kind, and once that slot is
neither listed nor being forgotten and no call uses it, it is there to be dropped. -/
theorem running_servers_have_homes {s : State κ γ} (h : (machine calls).Reaches init s) {w : ℕ}
    (hw : (s.server w).stopped = false) :
    ∃ i, s.inSlot i = some w ∧ s.owner i = (s.server w).key ∧
      (s.servers (s.server w).key = some i ∨ (∃ k, (s.call k).Uses i ∧ calls.key k = (s.server w).key) ∨
        i ∈ s.forgetting ∨ (machine calls).enabled s (.dropSlot i)) := by
  have hinv : Inv calls s := h.invariant inv_step inv_init
  obtain ⟨i, hslot⟩ := hinv.core.running w hw
  have howner := hinv.core.owned i w hslot
  refine ⟨i, hslot, howner.symm, ?_⟩
  by_cases hmapped : ∃ key, s.servers key = some i
  · obtain ⟨key, hkey⟩ := hmapped
    rw [howner, (hinv.core.mapped key i hkey).2]
    exact .inl hkey
  by_cases hused : ∃ k, (s.call k).Uses i
  · obtain ⟨k, hk⟩ := hused
    exact .inr (.inl ⟨k, hk, ((hinv.core.used k i hk).2.symm.trans howner.symm)⟩)
  by_cases hforgetting : i ∈ s.forgetting
  · exact .inr (.inr (.inl hforgetting))
  · push Not at hmapped hused
    exact .inr (.inr (.inr ⟨hmapped, hused, hforgetting⟩))

/-- Once a session is forgotten, its calls have returned and dropped slots are gone, none of
its servers runs. -/
theorem forgotten_sessions_have_no_server {s : State κ γ} (h : (machine calls).Reaches init s)
    {session : String} (hlisted : ∀ kind, s.servers (session, kind) = none)
    (hcalls : ∀ k, (calls.key k).1 = session → ∀ i, ¬ (s.call k).Uses i)
    (hforgetting : s.forgetting = []) (hdropped : ∀ i, s.inSlot i ≠ none →
      ¬ (machine calls).enabled s (.dropSlot i)) (w : ℕ) (hw : (s.server w).key.1 = session) :
    (s.server w).stopped = true := by
  by_contra hrun
  obtain ⟨i, hslot, -, hhome⟩ := running_servers_have_homes calls h (by simpa using hrun)
  rcases hhome with hmapped | ⟨k, hused, hkey⟩ | hmem | hdrop
  · have hnone := hlisted (s.server w).key.2
    rw [← hw, Prod.mk.eta, hmapped] at hnone
    cases hnone
  · exact hcalls k (by rw [hkey, hw]) i hused
  · rw [hforgetting] at hmem
    cases hmem
  · exact hdropped i (by simp [hslot]) hdrop

end

end

/-- One call, its server started for it, an executable without errors, and the session's end. -/
def quickRun : List (Action Unit) :=
  [.enter (), .acquire () 0 true, .start 0, .emit 0 ⟨2, List.replicate 17 171⟩,
    .finish 0 ⟨1, List.replicate 8 0⟩, .receive () 0 0 none ⟨2, List.replicate 17 171⟩,
    .receive () 0 0 (some (List.replicate 16 ['a', 'b']).flatten) ⟨1, List.replicate 8 0⟩,
    .forget ("s", .program), .forgetSlot 0]

def quickCalls : Calls Unit Unit := ⟨fun _ => ("s", .program), fun _ => ()⟩

def quickState (n : ℕ) : State Unit Unit := (quickRun.take n).foldl (next quickCalls) init

theorem quick_step {n : ℕ} {a : Action Unit} (ha : quickRun[n]? = some a)
    (h : (machine quickCalls).Reaches init (quickState n)) (hen : enabled (quickState n) a) :
    (machine quickCalls).Reaches init (quickState (n + 1)) := by
  have hnext : quickState (n + 1) = next quickCalls (quickState n) a := by
    rw [quickState, List.take_add_one, ha]
    simp [quickState]
  rw [hnext]
  exact h.tail hen

theorem quick_reaches : (machine quickCalls).Reaches init (quickState 7) := by
  have h₁ := quick_step (n := 0) rfl (.refl _) rfl
  have h₂ := quick_step (n := 1) rfl h₁ ⟨rfl, rfl⟩
  have h₃ := quick_step (n := 2) rfl h₂ ⟨rfl, rfl, by decide⟩
  have h₄ := quick_step (n := 3) rfl h₃ ⟨rfl, Option.some_ne_none _, by decide⟩
  have h₅ := quick_step (n := 4) rfl h₄ ⟨rfl, Option.some_ne_none _, rfl⟩
  have h₆ := quick_step (n := 5) rfl h₅ ⟨rfl, rfl⟩
  exact quick_step (n := 6) rfl h₆ ⟨rfl, rfl⟩

theorem quick_reaches_end : (machine quickCalls).Reaches init (quickState 9) := by
  have h₈ := quick_step (n := 7) rfl quick_reaches trivial
  exact quick_step (n := 8) rfl h₈ ⟨List.mem_singleton_self _, rfl⟩

theorem updates_answer_own_build_quick :
    ∃ (n : ℕ) (build : Build) (answer : BuildAnswer), ((quickState 7).server 0).requests[n]? = some () ∧
      ((quickState 7).server 0).builds[n]? = some build ∧ 0 ≤ build.sources ∧
      requestUpdate none build.messages = .inr (.ok answer) ∧ outcome .program answer =
        some (.built [".zig-cache/o".toList, (List.replicate 16 ['a', 'b']).flatten,
          Kind.name .program]) :=
  (updates_answer_own_build quickCalls quick_reaches (k := ()) rfl).2.2

theorem forgotten_sessions_have_no_server_quick : ((quickState 9).server 0).stopped = true := by
  have hkey : ((quickState 9).server 0).key.1 = "s" := rfl
  refine forgotten_sessions_have_no_server quickCalls quick_reaches_end ?_ ?_ rfl ?_ 0 hkey
  · intro kind
    cases kind <;> rfl
  · rintro ⟨⟩ - i ⟨⟩
  · intro i hi
    exact absurd (by cases i <;> rfl) hi

end Atomis.CompileServer
