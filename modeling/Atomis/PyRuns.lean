import Atomis.PySplice

/-!
# Runs of spliced programs

A run of the original and the spliced program that makes the same choices: the calls are
made in between, and where each is quiet nothing else differs.
-/

namespace Atomis.PyInstrument

variable {V : Type} {behind : Position → List Call} {apply : Apply V} {P : Span → Simple → Prop}
  {s s' t : State V} {a : Action V} {as bs : List (Action V)} {call : Call} {calls : List Call}

/-! ## What a step keeps -/

theorem Frame.defines_all {frame : Frame} (h : frame.control.All P) {choice : Choice}
    {closure : Closure} (hc : closure ∈ frame.defines choice) : closure.body.All P := by
  unfold Frame.defines at hc
  split at hc
  next span name params bound suites hhead =>
    obtain ⟨body, hbody, rfl⟩ := List.mem_map.mp hc
    have hsuites : suites.All P := Control.head_all h hhead
    exact suites.all_iff.mp hsuites body hbody
  next => exact absurd hc List.not_mem_nil

theorem Frame.classFrame_all {frame body : Frame} (h : frame.control.All P) {space : ℕ}
    (hbody : frame.classFrame space = some body) : body.control.All P := by
  unfold Frame.classFrame at hbody
  split at hbody
  next span name bound suite hhead =>
    obtain rfl := Option.some.inj hbody
    have hsuite : suite.All P ∧ True := Control.head_all h hhead
    intro kont hkont
    rw [List.mem_singleton.mp hkont]
    exact hsuite.1
  next => cases hbody

theorem State.All.advance (h : s.All P) {frame : Frame} {below : List Frame}
    (hframes : s.frames = frame :: below) {choice : Choice} {memory : Memory V}
    {values : String → V} (hnext : s.advance frame below choice memory values = some s') :
    s'.All P := by
  have hframe := h.frames frame (by simp [hframes])
  have hbelow : ∀ f ∈ below, f.control.All P := fun f hf => h.frames f (by simp [hframes, hf])
  unfold State.advance at hnext
  split at hnext
  · split_ifs at hnext
    obtain rfl := Option.some.inj hnext
    exact ⟨hbelow, h.suspended, h.closures⟩
  · obtain ⟨control, hcontrol, rfl⟩ := Option.map_eq_some_iff.mp hnext
    refine ⟨?_, h.suspended, fun closure hc => ?_⟩
    · rintro f (_ | ⟨_, hf⟩)
      · exact hframe.next hcontrol
      · exact hbelow f hf
    · rcases List.mem_append.mp hc with hc | hc
      · exact h.closures closure hc
      · exact Frame.defines_all hframe hc

theorem State.All.next (h : s.All P) (hnext : s.next apply a = some s') : s'.All P := by
  have hcall := h.atCall
  unfold State.next at hnext
  split at hnext
  · cases hnext
  next frame below hframes =>
    rw [hcall] at hnext
    have hframe := h.frames frame (by simp [hframes])
    have hcons : ∀ first : Frame, first.control.All P →
        ∀ f ∈ first :: frame :: below, f.control.All P := by
      rintro first hfirst f (_ | ⟨_, hf⟩)
      · exact hfirst
      · exact h.frames f (hframes ▸ hf)
    cases a with
    | report => cases hnext
    | step choice memory values => exact h.advance hframes hnext
    | call i memory =>
      obtain ⟨closure, hclosure, rfl⟩ := Option.map_eq_some_iff.mp hnext
      refine ⟨hcons _ fun kont hkont => ?_, h.suspended, h.closures⟩
      rw [List.mem_singleton.mp hkont]
      exact h.closures closure (List.mem_of_getElem? hclosure)
    | enterClass memory =>
      obtain ⟨body, hbody, rfl⟩ := Option.map_eq_some_iff.mp hnext
      exact ⟨hcons _ (Frame.classFrame_all hframe hbody), h.suspended, h.closures⟩
    | resume i memory =>
      obtain ⟨waiting, hwaiting, rfl⟩ := Option.map_eq_some_iff.mp hnext
      exact ⟨hcons _ (h.suspended waiting (List.mem_of_getElem? hwaiting)),
        fun f hf => h.suspended f (List.mem_of_mem_eraseIdx hf), h.closures⟩
    | suspend memory =>
      dsimp only at hnext
      split_ifs at hnext
      obtain rfl := Option.some.inj hnext
      refine ⟨fun f hf => h.frames f (by simp [hframes, hf]), fun f hf => ?_, h.closures⟩
      rcases List.mem_append.mp hf with hf | hf
      · exact h.suspended f hf
      · rw [List.mem_singleton.mp hf]
        exact hframe

theorem Suite.start_all {file : Suite} (h : file.All P) (memory : Memory V) :
    (file.start memory).All P := by
  refine ⟨fun frame hframe => ?_, by simp [Suite.start], by simp [Suite.start]⟩
  rw [List.mem_singleton.mp hframe]
  intro kont hkont
  rw [List.mem_singleton.mp hkont]
  exact h

theorem Suite.start_splice (file : Suite) (memory : Memory V) :
    (file.splice behind).start memory = (file.start memory).splice behind := by
  simp [Suite.start, State.splice, Frame.splice, Control.splice, Kont.splice, Suite.scope_splice]

/-! ## Calls still to make -/

/-- The running frame is in front of a suite. -/
def State.Ready (s : State V) : Prop :=
  ∃ frame below suite ks, s.frames = frame :: below ∧ frame.control = ⟨none, .suite suite :: ks⟩

theorem Control.ready_of_completed {control control' : Control} {choice : Choice}
    (hnext : control.next choice = some control')
    (h : control.completed behind choice ≠ []) :
    ∃ suite ks, control' = ⟨none, .suite suite :: ks⟩ := by
  unfold Control.completed at h
  split at h
  · exact absurd rfl h
  next span s hexit hhead =>
    match control with
    | ⟨none, .suite (.cons first rest) :: ks⟩ =>
      obtain rfl := Option.some.inj hhead
      refine ⟨rest, ks, ?_⟩
      cases s with
      | exit how bound => exact (hexit how bound rfl).elim
      | _ => exact (Option.some.inj hnext).symm
  · exact absurd rfl h

theorem State.All.ready (hs : s.All P) (hnext : s.next apply a = some s')
    (h : s.completed behind a ≠ []) : s'.Ready := by
  cases a with
  | step choice memory values =>
    cases hframes : s.frames with
    | nil => simp [State.completed, hframes] at h
    | cons frame below =>
      rw [State.completed_cons hframes] at h
      simp only [State.next, hframes, hs.atCall] at hnext
      obtain ⟨chain, signal, konts⟩ := frame
      cases konts with
      | nil => cases choice <;> cases signal <;> exact absurd rfl h
      | cons kont ks =>
        obtain ⟨control, hcontrol, rfl⟩ := Option.map_eq_some_iff.mp hnext
        obtain ⟨suite, ks', rfl⟩ := Control.ready_of_completed hcontrol h
        exact ⟨_, below, suite, ks', rfl, rfl⟩
  | _ => exact absurd rfl h

theorem State.Ready.atCall (h : t.Ready) :
    ((t.splice behind).before (call :: calls)).atCall = some call := by
  obtain ⟨⟨chain, control⟩, below, suite, ks, hframes, rfl⟩ := h
  simp [State.atCall, State.before, State.splice, hframes, Frame.splice, Control.splice,
    Kont.splice, Control.before_suite, Suite.after_cons, Control.head]

theorem State.quiet_before (t : State V) :
    ((t.splice behind).before calls).Quiet apply call ↔ t.Quiet apply call := by
  obtain ⟨memory, frames, suspended, closures, fresh⟩ := t
  cases frames with
  | nil => simp [State.Quiet, State.before, State.splice]
  | cons frame below => simp [State.Quiet, State.before, State.splice, Frame.outcome, Frame.read,
      Frame.owner, Frame.splice]

/-- A quiet call is made, and nothing else happens. -/
theorem State.Ready.report (h : t.Ready) (hquiet : t.Quiet apply call) :
    ((t.splice behind).before (call :: calls)).next apply .report =
      some ((t.splice behind).before calls) := by
  have hcall : ((t.splice behind).before (call :: calls)).atCall = some call := h.atCall
  have hq : ((t.splice behind).before (call :: calls)).Quiet apply call := t.quiet_before.mpr hquiet
  obtain ⟨⟨chain, control⟩, below, suite, ks, hframes, rfl⟩ := h
  have hfront (cs : List Call) : (t.splice behind).before cs =
      { t.splice behind with
        frames := ⟨chain, ⟨none, .suite ((suite.splice behind).after cs) ::
          ks.map (Kont.splice behind)⟩⟩ :: below.map (Frame.splice behind) } := by
    simp [State.before, State.splice, hframes, Frame.splice, Control.splice, Kont.splice,
      Control.before_suite]
  rw [hfront] at hcall hq ⊢
  rw [hfront]
  have houtcome := hq _ rfl
  simp only [State.next, hcall, houtcome]
  rfl

/-! ## Runs -/

/-- Every call behind a statement that the run completes is quiet. -/
def State.QuietAlong (behind : Position → List Call) (apply : Apply V) :
    State V → List (Action V) → Prop
  | _, [] => True
  | s, a :: as => ∀ s', s.next apply a = some s' →
    (∀ call ∈ s.completed behind a, s'.Quiet apply call) ∧ s'.QuietAlong behind apply as

/-- Every call that is reached while the choices are those of `as` is quiet. -/
def State.NeverDisturbed (apply : Apply V) (s : State V) (as : List (Action V)) : Prop :=
  ∀ bs s' call, bs.filter (fun a => !a.isReport) <+: as → s.exec apply bs = some s' →
    s'.atCall = some call → s'.Quiet apply call

theorem State.exec_append (s : State V) (as bs : List (Action V)) :
    s.exec apply (as ++ bs) = (s.exec apply as).bind fun s' => s'.exec apply bs := by
  induction as generalizing s with
  | nil => rfl
  | cons a as ih =>
    simp only [List.cons_append, State.exec]
    cases s.next apply a with
    | none => rfl
    | some s' => exact ih s'

/-- The calls in front of a state are all made. -/
theorem State.exec_reports (h : t.Ready ∨ calls = []) (hquiet : ∀ call ∈ calls, t.Quiet apply call) :
    ((t.splice behind).before calls).exec apply (List.replicate calls.length .report) =
      some (t.splice behind) := by
  induction calls with
  | nil => simp [State.exec, State.before_nil]
  | cons call calls ih =>
    have hready : t.Ready := h.resolve_right (List.cons_ne_nil call calls)
    rw [List.length_cons, List.replicate_succ, State.exec,
      hready.report (hquiet call List.mem_cons_self)]
    exact ih (Or.inl hready) fun c hc => hquiet c (List.mem_cons_of_mem _ hc)

theorem filter_reports (n : ℕ) :
    (List.replicate n (Action.report : Action V)).filter (fun a => !a.isReport) = [] := by
  simp [Action.isReport]

/-- The run lemma: where every call is quiet, the spliced program makes the original's run. -/
theorem State.All.follow (h : s.All P) (has : s.exec apply as = some t)
    (hquiet : s.QuietAlong behind apply as) :
    ∃ bs, bs.filter (fun a => !a.isReport) = as ∧
      (s.splice behind).exec apply bs = some (t.splice behind) := by
  induction as generalizing s with
  | nil =>
    obtain rfl := Option.some.inj has
    exact ⟨[], rfl, rfl⟩
  | cons a as ih =>
    obtain ⟨s₁, hs₁, hrest⟩ := Option.bind_eq_some_iff.mp has
    have ha : a.isReport = false := by
      cases a with
      | report =>
        exfalso
        have hcall := h.atCall
        unfold State.next at hs₁
        split at hs₁ <;> simp_all
      | _ => rfl
    obtain ⟨hcalls, hquiet₁⟩ := hquiet s₁ hs₁
    obtain ⟨bs, hbs, hexec⟩ := ih (h.next hs₁) hrest hquiet₁
    have hready : s₁.Ready ∨ s.completed behind a = [] := by
      by_cases hnil : s.completed behind a = []
      · exact Or.inr hnil
      · exact Or.inl (h.ready hs₁ hnil)
    refine ⟨a :: (List.replicate (s.completed behind a).length .report ++ bs), ?_, ?_⟩
    · rw [List.filter_cons_of_pos (by simp [ha]), List.filter_append, filter_reports, hbs,
        List.nil_append]
    · rw [State.exec, State.next_splice h ha, hs₁, Option.map_some, Option.bind_some,
        State.exec_append, State.exec_reports hready hcalls]
      exact hexec

/-- While the calls are quiet, the spliced program is where the original is, with some of them
still to make. -/
theorem State.All.exec_splice (h : s.All P) (hquiet : s.QuietAlong behind apply as)
    (hcalls : ∀ call ∈ calls, s.Quiet apply call) (hready : s.Ready ∨ calls = [])
    (hbs : bs.filter (fun a => !a.isReport) <+: as)
    (hexec : ((s.splice behind).before calls).exec apply bs = some s') :
    ∃ (t : State V) (calls : List Call), s' = (t.splice behind).before calls ∧
      (t.Ready ∨ calls = []) ∧ t.All P ∧ ∀ call ∈ calls, t.Quiet apply call := by
  induction bs generalizing s calls as with
  | nil =>
    obtain rfl := Option.some.inj hexec
    exact ⟨s, calls, rfl, hready, h, hcalls⟩
  | cons b bs ih =>
    obtain ⟨s₁, hs₁, hrest⟩ := Option.bind_eq_some_iff.mp hexec
    cases calls with
    | cons call calls =>
      have hr := hready.resolve_right (List.cons_ne_nil call calls)
      -- in front of a call nothing else is possible
      have hb : b = .report := by
        have hcall : ((s.splice behind).before (call :: calls)).atCall = some call := hr.atCall
        unfold State.next at hs₁
        rw [hcall] at hs₁
        split at hs₁
        · cases hs₁
        · cases b <;> first
            | rfl
            | cases hs₁
      subst hb
      rw [hr.report (hcalls call List.mem_cons_self)] at hs₁
      obtain rfl := Option.some.inj hs₁
      exact ih h hquiet (fun c hc => hcalls c (List.mem_cons_of_mem _ hc)) (Or.inl hr)
        (by simpa [Action.isReport] using hbs) hrest
    | nil =>
      rw [State.before_nil] at hs₁
      cases hb : b.isReport with
      | true =>
        exfalso
        have hcall : (s.splice behind).atCall = none := h.atCall_splice
        cases b with
        | report =>
          unfold State.next at hs₁
          rw [hcall] at hs₁
          split at hs₁ <;> cases hs₁
        | _ => cases hb
      | false =>
        rw [List.filter_cons_of_pos (by simp [hb])] at hbs
        obtain ⟨as₁, rfl⟩ : ∃ as₁, as = b :: as₁ := by
          cases as with
          | nil => exact absurd (List.prefix_nil.mp hbs) (List.cons_ne_nil _ _)
          | cons a as₁ => exact ⟨as₁, by rw [(List.cons_prefix_cons.mp hbs).1]⟩
        rw [State.next_splice h hb] at hs₁
        obtain ⟨s₂, hs₂, rfl⟩ := Option.map_eq_some_iff.mp hs₁
        obtain ⟨hcompleted, hquiet₂⟩ := hquiet s₂ hs₂
        refine ih (h.next hs₂) hquiet₂ hcompleted ?_ (List.cons_prefix_cons.mp hbs).2 hrest
        by_cases hnil : s.completed behind b = []
        · exact Or.inr hnil
        · exact Or.inl (h.ready hs₂ hnil)

theorem State.All.neverDisturbed (h : s.All P) (hquiet : s.QuietAlong behind apply as) :
    (s.splice behind).NeverDisturbed apply as := by
  intro bs s' call hbs hexec hcall
  have hexec' : ((s.splice behind).before []).exec apply bs = some s' := by
    rwa [State.before_nil]
  obtain ⟨t, calls, rfl, hready, hall, hcalls⟩ :=
    h.exec_splice hquiet (List.forall_mem_nil _) (Or.inr rfl) hbs hexec'
  cases calls with
  | nil =>
    rw [State.before_nil, hall.atCall_splice] at hcall
    cases hcall
  | cons first calls =>
    rw [(hready.resolve_right (List.cons_ne_nil first calls)).atCall] at hcall
    obtain rfl := Option.some.inj hcall
    rw [State.quiet_before]
    exact hcalls first List.mem_cons_self

/-- Where no call disturbs the spliced program, the calls in front of a state are quiet. -/
theorem State.Ready.quiet (h : t.Ready)
    (hnever : ((t.splice behind).before calls).NeverDisturbed apply as) :
    ∀ call ∈ calls, t.Quiet apply call := by
  induction calls with
  | nil => simp
  | cons first calls ih =>
    have hfirst : t.Quiet apply first :=
      t.quiet_before.mp (hnever [] _ first List.nil_prefix rfl h.atCall)
    rintro call (_ | ⟨_, hcall⟩)
    · exact hfirst
    · refine ih (fun bs s' c hbs hexec hc => ?_) call hcall
      refine hnever (.report :: bs) s' c (by simpa [Action.isReport] using hbs) ?_ hc
      rw [State.exec, h.report hfirst]
      exact hexec

theorem State.All.quietAlong (h : s.All P)
    (hnever : (s.splice behind).NeverDisturbed apply as) : s.QuietAlong behind apply as := by
  induction as generalizing s with
  | nil => trivial
  | cons a as ih =>
    intro s₁ hs₁
    have ha : a.isReport = false := by
      cases a with
      | report =>
        exfalso
        have hcall := h.atCall
        unfold State.next at hs₁
        rw [hcall] at hs₁
        split at hs₁ <;> cases hs₁
      | _ => rfl
    have hstep : (s.splice behind).next apply a =
        some ((s₁.splice behind).before (s.completed behind a)) := by
      rw [State.next_splice h ha, hs₁]
      rfl
    have hready : s₁.Ready ∨ s.completed behind a = [] := by
      by_cases hnil : s.completed behind a = []
      · exact Or.inr hnil
      · exact Or.inl (h.ready hs₁ hnil)
    have hafter : ((s₁.splice behind).before (s.completed behind a)).NeverDisturbed apply as := by
      intro bs s' call hbs hexec hcall
      refine hnever (a :: bs) s' call ?_ ?_ hcall
      · rw [List.filter_cons_of_pos (by simp [ha])]
        exact List.cons_prefix_cons.mpr ⟨rfl, hbs⟩
      · rw [State.exec, hstep]
        exact hexec
    have hcalls : ∀ call ∈ s.completed behind a, s₁.Quiet apply call := by
      rcases hready with hready | hnil
      · exact hready.quiet hafter
      · simp [hnil]
    refine ⟨hcalls, ih (h.next hs₁) fun bs s' call hbs hexec hcall => ?_⟩
    refine hafter (List.replicate (s.completed behind a).length .report ++ bs) s' call ?_ ?_ hcall
    · rwa [List.filter_append, filter_reports, List.nil_append]
    · rw [State.exec_append, State.exec_reports hready hcalls]
      exact hexec

/-- The spliced program is disturbed by no call of a run if and only if every call behind a
statement that the run completes is quiet. -/
theorem State.All.neverDisturbed_iff (h : s.All P) :
    (s.splice behind).NeverDisturbed apply as ↔ s.QuietAlong behind apply as :=
  ⟨h.quietAlong, h.neverDisturbed⟩

end Atomis.PyInstrument
