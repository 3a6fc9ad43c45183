import Atomis.SchedulerInput

/-!
# Typed input reaches its own program

In every run of one scheduler in which no start waits out its grace, a receiver
in the session's slot is that of the only run whose program can still take it.
What is accepted while a run is active goes to its channel, and what its program
reads is a first part of that, in order.
-/

namespace Atomis.Scheduler

variable {present : Language → Bool} {s t : State}

/-- What the session's slot holds, in a run without an elapsed grace. -/
structure StdinInv (s : State) : Prop where
  prompt : ∀ r, s.sched.outlived r = false
  drawn : ∀ x args r, (s.sched.caller x).start = some (args, r) →
    s.world.liveStdin = if args.interactive then some r else none
  owner : ∀ q, s.world.liveStdin = some q → ∀ r, s.sched.task r ≠ .unborn →
    (s.sched.task r).isEnded = true ∨ r = q ∧ s.sched.interactive r

theorem stdinInv_init (world : World) (language : Language) : StdinInv (init world language) := by
  exact ⟨fun _ => rfl, fun x args r hx => (by cases hx), fun q _ r hr => (hr rfl).elim⟩

theorem StdinInv.keeps (h : StdinInv s) (hk : Keeps s t) : StdinInv t where
  prompt r := by rw [hk.outlived]; exact h.prompt r
  drawn x args r hx := by
    rw [hk.liveStdin]
    exact h.drawn x args r (hk.start x ▸ hx)
  owner q hq r hr := by
    rw [hk.liveStdin] at hq
    rw [Ne, hk.born] at hr
    rw [hk.interactive]
    exact (h.owner q hq r hr).imp_left (hk.ended r)

/-- Past the wait for the superseded run, every run spawned before has ended. -/
theorem StdinInv.all_ended (h : StdinInv s) (hch : ChainInv s.sched) {x : Caller}
    (hx : (s.sched.caller x).waited = true) {r : ℕ} (hr : s.sched.task r ≠ .unborn) :
    (s.sched.task r).isEnded = true := by
  refine (hch.waited x hx r hr).resolve_right fun hout => ?_
  rw [h.prompt r] at hout
  cases hout

theorem CallPc.waited_of_start {pc : CallPc} {args : Args} {r : ℕ}
    (h : pc.start = some (args, r)) : pc.waited = true := by
  cases pc <;> simp_all [CallPc.start, CallPc.waited]

theorem world_install {w : World} {c : Sched} {x : Caller} {args : Args} {target : Language}
    {r : ℕ} (hx : c.caller x = .install args target r) : (stepCaller present w c x).1 = w := by
  simp only [stepCaller, hx]

theorem StdinInv.draw (h : StdinInv s) (hc : CoreInv s) (hch : ChainInv s.sched) {x : Caller}
    {args : Args} {target : Language} (hx : s.sched.caller x = .setStdin args target) :
    StdinInv (next present s (.step x)) := by
  have hhold : (s.sched.caller x).holding = true := by rw [hx]; rfl
  simp only [next, stepCaller, hx]
  refine ⟨h.prompt, fun y args' r hy => ?_, fun q _ r hr => .inl (h.all_ended hch (x := x) ?_ hr)⟩
  · rw [setCaller_caller] at hy
    split_ifs at hy with hyx
    · obtain ⟨rfl, rfl⟩ : args = args' ∧ s.world.nextRun = r := by simpa [CallPc.start] using hy
      rfl
    · exact (hyx (hc.basic.unique (CallPc.holding_of_start hy) hhold)).elim
  · rw [hx]
    rfl

theorem StdinInv.install (h : StdinInv s) {x : Caller} {args : Args} {target : Language} {r : ℕ}
    (hx : s.sched.caller x = .install args target r) : StdinInv (next present s (.step x)) := by
  have hstart : ∀ y, ((stepCaller present s.world s.sched x).2.caller y).start =
      (s.sched.caller y).start := start_install hx
  have hint : ∀ q, (stepCaller present s.world s.sched x).2.interactive q ↔
      s.sched.interactive q := interactive_install hx
  have hworld : (stepCaller present s.world s.sched x).1 = s.world := world_install hx
  have htask : (stepCaller present s.world s.sched x).2.task = s.sched.task := by
    simp only [stepCaller, hx]
    rfl
  have hout : (stepCaller present s.world s.sched x).2.outlived = s.sched.outlived := by
    simp only [stepCaller, hx]
    rfl
  refine ⟨fun q => ?_, fun y args' q hy => ?_, fun q hq q' hq' => ?_⟩
  · change (stepCaller present s.world s.sched x).2.outlived q = false
    rw [hout]
    exact h.prompt q
  · change (stepCaller present s.world s.sched x).1.liveStdin = _
    rw [hworld]
    exact h.drawn y args' q ((hstart y).symm.trans hy)
  · change (stepCaller present s.world s.sched x).1.liveStdin = _ at hq
    change (stepCaller present s.world s.sched x).2.task q' ≠ .unborn at hq'
    change ((stepCaller present s.world s.sched x).2.task q').isEnded = true ∨
      q' = q ∧ (stepCaller present s.world s.sched x).2.interactive q'
    rw [hworld] at hq
    rw [htask] at hq' ⊢
    rw [hint]
    exact h.owner q hq q' hq'

theorem StdinInv.spawn (h : StdinInv s) (hc : CoreInv s) (hch : ChainInv s.sched) {x : Caller}
    {args : Args} {target : Language} {r : ℕ} (hx : s.sched.caller x = .spawn args target r) :
    StdinInv (next present s (.step x)) := by
  have hstart : (s.sched.caller x).start = some (args, r) := by rw [hx]; rfl
  have hborn : s.sched.task r = .unborn := (hc.fresh.starting x r (by rw [hx]; rfl)).2
  have hworld : (stepCaller present s.world s.sched x).1 = s.world := by
    simp only [stepCaller, hx]
  have hout : (stepCaller present s.world s.sched x).2.outlived = s.sched.outlived := by
    simp only [stepCaller, hx]
    rfl
  refine ⟨fun q => ?_, fun y args' q hy => ?_, fun q hq q' hq' => ?_⟩
  · change (stepCaller present s.world s.sched x).2.outlived q = false
    rw [hout]
    exact h.prompt q
  · change ((stepCaller present s.world s.sched x).2.caller y).start = _ at hy
    rw [start_spawn hx] at hy
    split_ifs at hy with hyx
    exact (hyx (hc.basic.unique (CallPc.holding_of_start hy) (CallPc.holding_of_start hstart))).elim
  · change (stepCaller present s.world s.sched x).1.liveStdin = _ at hq
    change (stepCaller present s.world s.sched x).2.task q' ≠ .unborn at hq'
    change ((stepCaller present s.world s.sched x).2.task q').isEnded = true ∨
      q' = q ∧ (stepCaller present s.world s.sched x).2.interactive q'
    rw [hworld, h.drawn x args r hstart] at hq
    rw [interactive_spawn hx (hc.slot.unknown hborn)]
    rw [task_spawn hx] at hq' ⊢
    split_ifs at hq with hi
    obtain rfl := Option.some.inj hq
    by_cases hqr : q' = r
    · exact .inr ⟨hqr, .inl ⟨x, args, hqr ▸ hstart, hi⟩⟩
    · rw [if_neg hqr] at hq' ⊢
      exact .inl (h.all_ended hch (CallPc.waited_of_start hstart) hq')

/-- A core step of a run in which nothing waits its grace out, and only a running
run's program takes the receiver. -/
def Prompt (s : State) (a : Action) : Prop :=
  (∀ x, a ≠ .graceElapsed x) ∧ (a = .takeStdin → ∃ r, s.sched.task r = .running)

theorem stdinInv_step (h : StdinInv s) (hc : CoreInv s) (hch : ChainInv s.sched) {a : Action}
    (ha : enabled s a) (hok : Prompt s a) : StdinInv (next present s a) := by
  by_cases hplain : s.plain a
  · exact h.keeps (keeps_next hc.basic ha hplain)
  rcases State.special hplain with ⟨x, args, target, rfl, hx⟩ | ⟨x, args, target, r, rfl, hx⟩ |
    ⟨x, args, target, r, rfl, hx⟩ | ⟨r, rfl, hpc, hactive⟩ | rfl | ⟨x, rfl⟩
  · exact h.draw hc hch hx
  · exact h.install hx
  · exact h.spawn hc hch hx
  · simp only [next, stepWatchdog, hpc, if_pos hactive]
    exact ⟨h.prompt, h.drawn, h.owner⟩
  · obtain ⟨r, hr⟩ := hok.2 rfl
    refine ⟨h.prompt, fun x args q hx => ?_, fun q hq => by cases hq⟩
    have hover := h.all_ended hch (CallPc.waited_of_start hx) (r := r) (by rw [hr]; simp)
    rw [hr] at hover
    cases hover
  · exact (hok.1 x rfl).elim

/-! ## What a step of the scheduler does to a run's input -/

theorem ended_next (hc : CoreInv s) {a : Action} (ha : enabled s a) {r : ℕ}
    (hr : (s.sched.task r).isEnded = true) : ((next present s a).sched.task r).isEnded = true := by
  by_cases hplain : s.plain a
  · exact (keeps_next hc.basic ha hplain).ended r hr
  rcases State.special hplain with ⟨x, args, target, rfl, hx⟩ | ⟨x, args, target, q, rfl, hx⟩ |
    ⟨x, args, target, q, rfl, hx⟩ | ⟨q, rfl, hpc, hactive⟩ | rfl | ⟨x, rfl⟩
  · simp only [next, stepCaller, hx]
    exact hr
  · simp only [next, stepCaller, hx]
    exact hr
  · have hborn : s.sched.task q = .unborn := (hc.fresh.starting x q (by rw [hx]; rfl)).2
    change ((stepCaller present s.world s.sched x).2.task r).isEnded = true
    rw [task_spawn hx, if_neg]
    · exact hr
    · rintro rfl
      rw [hborn] at hr
      cases hr
  · simpa only [next, stepWatchdog, hpc, if_pos hactive] using hr
  · exact hr
  · simp only [next]
    split <;> exact hr

theorem interactive_draw {x : Caller} {args : Args} {target : Language}
    (hx : s.sched.caller x = .setStdin args target) {r : ℕ} (hr : s.sched.interactive r) :
    (next present s (.step x)).sched.interactive r := by
  simp only [next, stepCaller, hx]
  rcases hr with ⟨y, args', hy, hi⟩ | hrun
  · refine .inl ⟨y, args', ?_, hi⟩
    rw [setCaller_caller, if_neg]
    · exact hy
    · rintro rfl
      rw [hx] at hy
      cases hy
  · exact .inr hrun

theorem interactive_next (hc : CoreInv s) {a : Action} (ha : enabled s a)
    (hgrace : ∀ x, a ≠ .graceElapsed x) {r : ℕ} (hr : s.sched.interactive r) :
    (next present s a).sched.interactive r := by
  by_cases hplain : s.plain a
  · exact ((keeps_next hc.basic ha hplain).interactive r).mpr hr
  rcases State.special hplain with ⟨x, args, target, rfl, hx⟩ | ⟨x, args, target, q, rfl, hx⟩ |
    ⟨x, args, target, q, rfl, hx⟩ | ⟨q, rfl, hpc, hactive⟩ | rfl | ⟨x, rfl⟩
  · exact interactive_draw hx hr
  · exact (interactive_install hx r).mpr hr
  · have hborn : s.sched.task q = .unborn := (hc.fresh.starting x q (by rw [hx]; rfl)).2
    exact (interactive_spawn hx (hc.slot.unknown hborn) r).mpr hr
  · simp only [next, stepWatchdog, hpc, if_pos hactive]
    exact hr
  · exact hr
  · exact (hgrace x rfl).elim

/-- An active interactive run had its receiver put in the slot, and the slot keeps it. -/
theorem active_next (hc : CoreInv s) (h : StdinInv s) {a : Action} (ha : enabled s a)
    (hgrace : ∀ x, a ≠ .graceElapsed x) (htake : a ≠ .takeStdin) {r : ℕ}
    (hactive : (next present s a).sched.inner.activeRun = some r)
    (hr : (next present s a).sched.interactive r) :
    (next present s a).world.liveStdin = some r ∨
      s.sched.inner.activeRun = some r ∧ s.sched.interactive r ∧
        (next present s a).world.liveStdin = s.world.liveStdin := by
  by_cases hplain : s.plain a
  · have hk : Keeps s (next present s a) := keeps_next hc.basic ha hplain
    refine .inr ⟨?_, (hk.interactive r).mp hr, hk.liveStdin⟩
    rcases hk.slot with ht | ht
    · rw [ht.1] at hactive
      cases hactive
    · exact ht.1.symm.trans hactive
  rcases State.special hplain with ⟨x, args, target, rfl, hx⟩ | ⟨x, args, target, q, rfl, hx⟩ |
    ⟨x, args, target, q, rfl, hx⟩ | ⟨q, rfl, hpc, hq⟩ | rfl | ⟨x, rfl⟩
  · have hnone : s.sched.inner.activeRun = none := hc.slot.cleared x (by rw [hx]; rfl)
    simp only [next, stepCaller, hx] at hactive
    change s.sched.inner.activeRun = some r at hactive
    rw [hnone] at hactive
    cases hactive
  · have hstart : (s.sched.caller x).start = some (args, q) := by rw [hx]; rfl
    have hborn : s.sched.task q = .unborn := (hc.fresh.starting x q (by rw [hx]; rfl)).2
    obtain rfl : q = r := by
      simp only [next, stepCaller, hx] at hactive
      exact Option.some.inj hactive
    refine .inl ?_
    change (stepCaller present s.world s.sched x).1.liveStdin = some q
    rw [world_install hx, h.drawn x args q hstart, if_pos]
    rcases (interactive_install hx q).mp hr with ⟨y, args', hy, hi⟩ | ⟨run, hrun, -⟩
    · rw [(hc.basic.start_unique hstart hy).1]
      exact hi
    · exact absurd hborn (hc.slot.known q run hrun)
  · have hborn : s.sched.task q = .unborn := (hc.fresh.starting x q (by rw [hx]; rfl)).2
    refine .inr ⟨?_, (interactive_spawn hx (hc.slot.unknown hborn) r).mp hr, ?_⟩
    · simp only [next, stepCaller, hx] at hactive
      exact hactive
    · simp only [next, stepCaller, hx]
  · simp only [next, stepWatchdog, hpc, if_pos hq] at hactive
    cases hactive
  · exact (htake rfl).elim
  · exact (hgrace x rfl).elim

/-! ## Accepted and received -/

def InputState.acceptedWhile (s : InputState) (r : ℕ) : List LiveInput :=
  (s.accepted.filter fun e => e.active = some r).map (·.input)

def InputState.acceptedOn (s : InputState) (q : ℕ) : List LiveInput :=
  (s.accepted.filter fun e => e.channel = q).map (·.input)

def InputState.receivedBy (s : InputState) (p : ℕ) : List LiveInput :=
  (s.received.filter fun e => e.program = p).map (·.input)

def InputState.receivedOn (s : InputState) (q : ℕ) : List LiveInput :=
  (s.received.filter fun e => e.channel = q).map (·.input)

/-- The program has, or had, the channel's receiver for its stdin. -/
def InputState.gave (s : InputState) (q p : ℕ) : Prop :=
  s.receiver q = .held p ∨ s.receiver q = .dropped p

structure DeliveryInv (s : InputState) : Prop where
  conserved : ∀ q, s.acceptedOn q = s.receivedOn q ++ s.queue q
  attributed : ∀ e ∈ s.accepted, e.active = some e.channel ∨
    e.active = none ∧ (s.core.sched.task e.channel).isEnded = true
  holder : ∀ q p, s.gave q p → p = q ∧ s.core.sched.interactive p
  own : ∀ e ∈ s.received, e.program = e.channel
  first : ∀ q, s.receivedOn q <+: s.acceptedWhile q
  placed : ∀ r, s.core.sched.inner.activeRun = some r → s.core.sched.interactive r →
    s.core.world.liveStdin = some r ∨ s.gave r r

theorem deliveryInv_new (world : World) (language : Language) :
    DeliveryInv (newInput world language) := by
  refine ⟨fun _ => rfl, fun e he => (by cases he), fun q p hq => ?_, fun e he => (by cases he),
    fun _ => List.prefix_rfl, fun r hr => by cases hr⟩
  rcases hq with hq | hq <;> cases hq

variable {u : InputState}

theorem DeliveryInv.core (h : DeliveryInv u) (hc : CoreInv u.core) (hs : StdinInv u.core)
    {a : Action} (ha : inputEnabled u (.core a)) (hgrace : ∀ x, a ≠ .graceElapsed x) :
    DeliveryInv (inputNext present u (.core a)) where
  conserved := h.conserved
  attributed e he := (h.attributed e he).imp_right fun ⟨hnone, hend⟩ =>
    ⟨hnone, ended_next hc ha.1 hend⟩
  holder q p hq := (h.holder q p hq).imp_right (interactive_next hc ha.1 hgrace)
  own := h.own
  first := h.first
  placed r hactive hr := by
    rcases active_next hc hs ha.1 hgrace ha.2.1 hactive hr with hslot | ⟨hold, hi, hsame⟩
    · exact .inl hslot
    · exact (h.placed r hold hi).imp_left hsame.trans

theorem DeliveryInv.stdin (h : DeliveryInv u) (hs : StdinInv u.core) {r : ℕ}
    (hr : u.core.sched.task r = .running) : DeliveryInv (stdin u r) := by
  simp only [Scheduler.stdin]
  split
  · next q hq =>
    obtain ⟨rfl, hi⟩ :=
      (hs.owner q hq r (by rw [hr]; simp)).resolve_left (by rw [hr]; simp [TaskPc.isEnded])
    refine ⟨h.conserved, h.attributed, fun q' p hp => ?_, h.own, h.first, fun r' ha hr' => .inr ?_⟩
    · simp only [InputState.gave, Table.set_get] at hp
      split_ifs at hp with hqr
      · have hpr : p = r := by
          rcases hp with hp | hp <;> cases hp
          rfl
        exact ⟨hpr.trans hqr.symm, hpr ▸ hi⟩
      · exact h.holder q' p hp
    · simp only [InputState.gave, Table.set_get]
      split_ifs with hqr
      · exact .inl (congrArg _ hqr.symm)
      · refine (h.placed r' ha hr').resolve_left fun hslot => hqr ?_
        exact Option.some.inj (hslot.symm.trans hq)
  · exact h

theorem closeOnEof_deliveryInv (h : DeliveryInv u) (input : LiveInput) :
    DeliveryInv (u.closeOnEof input) := by
  cases input with
  | data bytes => exact h
  | eof => exact ⟨h.conserved, h.attributed, h.holder, h.own, h.first, h.placed⟩

theorem DeliveryInv.push (h : DeliveryInv u) (hc : CoreInv u.core) {q : ℕ}
    (hq : u.core.sched.inner.liveInput = some q) (input : LiveInput) :
    DeliveryInv (u.push q input) := by
  refine ⟨fun q' => ?_, fun e he => ?_, h.holder, h.own, fun q' => ?_, h.placed⟩
  · have hold := h.conserved q'
    simp only [InputState.acceptedOn, InputState.receivedOn, InputState.push, List.filter_append,
      List.map_append, Table.set_get] at hold ⊢
    by_cases hqq : q' = q
    · subst hqq
      simp [hold]
    · simp [hold, hqq, Ne.symm hqq]
  · rcases List.mem_append.mp he with he | he
    · exact h.attributed e he
    · obtain rfl := List.mem_singleton.mp he
      exact hc.slot.owned q hq
  · refine (h.first q').trans ?_
    simp only [InputState.acceptedWhile, InputState.push, List.filter_append, List.map_append]
    exact List.prefix_append _ _

theorem DeliveryInv.write (h : DeliveryInv u) (hc : CoreInv u.core) (input : LiveInput) :
    DeliveryInv (writeStdin u input).2 := by
  simp only [writeStdin]
  split
  · next q hq =>
    split_ifs
    · exact closeOnEof_deliveryInv (h.push hc hq input) input
    · exact closeOnEof_deliveryInv h input
  · exact h

/-- While a run's task goes on, all its channel accepted came while it was active. -/
theorem DeliveryInv.acceptedWhile_eq (h : DeliveryInv u) {r : ℕ}
    (hr : (u.core.sched.task r).isEnded = false) : u.acceptedWhile r = u.acceptedOn r := by
  simp only [InputState.acceptedWhile, InputState.acceptedOn]
  congr 1
  refine List.filter_congr fun e he => ?_
  simp only [decide_eq_decide]
  rcases h.attributed e he with hown | ⟨hnone, hend⟩
  · rw [hown, Option.some.injEq]
  · rw [hnone]
    constructor
    · rintro ⟨⟩
    · rintro rfl
      rw [hr] at hend
      cases hend

theorem DeliveryInv.receivedBy_eq (h : DeliveryInv u) (r : ℕ) :
    u.receivedBy r = u.receivedOn r := by
  simp only [InputState.receivedBy, InputState.receivedOn]
  congr 1
  exact List.filter_congr fun e he => by rw [h.own e he]

theorem reads_iff (u : InputState) (q : ℕ) :
    u.reads q = true ↔ ∃ p, u.receiver q = .held p ∧ u.core.sched.task p = .running := by
  simp only [InputState.reads]
  split
  · next p hp => simp [hp]
  · next hp => simpa using fun p hq => (hp p hq).elim

theorem receivedOn_snoc {u v : InputState} {q : ℕ} {e : Received}
    (hv : v.received = u.received ++ [e]) :
    v.receivedOn q = u.receivedOn q ++ if e.channel = q then [e.input] else [] := by
  simp only [InputState.receivedOn, hv, List.filter_append, List.map_append]
  split_ifs with he <;> simp [he]

theorem DeliveryInv.recv (h : DeliveryInv u) {q : ℕ} (hq : u.reads q = true) :
    DeliveryInv (recv u q) := by
  obtain ⟨p, hp, hrun⟩ := (reads_iff u q).mp hq
  obtain ⟨rfl, hi⟩ := h.holder q p (.inl hp)
  have hall : u.acceptedWhile p = u.receivedOn p ++ u.queue p := by
    rw [h.acceptedWhile_eq (by rw [hrun]; rfl), h.conserved]
  simp only [Scheduler.recv, hp]
  split
  · next p' input inputs hp' hqueue =>
    cases hp'
    refine ⟨fun q => ?_, h.attributed, fun q p' hg => ?_, fun e he => ?_, fun q => ?_,
      fun r ha hr => (h.placed r ha hr).imp_right fun hg => ?_⟩
    · rw [receivedOn_snoc rfl, List.append_assoc, Table.set_get]
      change u.acceptedOn q = _
      by_cases hpq : p = q
      · subst hpq
        rw [h.conserved, hqueue]
        simp
      · rw [if_neg hpq, if_neg (Ne.symm hpq), List.nil_append, h.conserved]
    · refine h.holder q p' ?_
      simp only [InputState.gave] at hg ⊢
      by_cases hpq : q = p
      · subst hpq
        split_ifs at hg with heof
        · rw [Table.set_get, if_pos rfl] at hg
          rcases hg with hg | hg <;> cases hg
          exact .inl hp
        · exact hg
      · split_ifs at hg with heof
        · rwa [Table.set_get, if_neg hpq] at hg
        · exact hg
    · rcases List.mem_append.mp he with he | he
      · exact h.own e he
      · rw [List.mem_singleton.mp he]
    · rw [receivedOn_snoc rfl]
      change _ <+: u.acceptedWhile q
      by_cases hpq : p = q
      · subst hpq
        rw [hall, hqueue, if_pos rfl]
        exact ⟨inputs, by simp⟩
      · rw [if_neg hpq, List.append_nil]
        exact h.first q
    · simp only [InputState.gave] at hg ⊢
      split_ifs
      · rw [Table.set_get]
        split_ifs with hrp
        · exact .inr (congrArg _ hrp.symm)
        · exact hg
      · exact hg
  · exact h

theorem DeliveryInv.drop (h : DeliveryInv u) (q : ℕ) : DeliveryInv (drop u q) := by
  simp only [Scheduler.drop]
  split
  · next p hp =>
    have hgave : ∀ q' p',
        InputState.gave { u with receiver := u.receiver.set q (.dropped p) } q' p' ↔
          u.gave q' p' := fun q' p' => by
      simp only [InputState.gave, Table.set_get]
      by_cases hqq : q' = q
      · subst hqq
        simp [hp]
      · rw [if_neg hqq]
    refine ⟨h.conserved, h.attributed, fun q' p' hg => h.holder q' p' ((hgave q' p').mp hg), h.own,
      h.first, fun r ha hr => (h.placed r ha hr).imp_right (hgave r r).mpr⟩
  · exact h

/-! ## Over a run -/

structure RunInv (u : InputState) : Prop where
  core : CoreInv u.core
  chain : ChainInv u.core.sched
  stdin : StdinInv u.core
  delivery : DeliveryInv u

/-- Every superseded run ends within the grace of the start that waits for it. -/
def EndsInGrace (_ : InputState) : InputAction → Prop
  | .core (.graceElapsed _) => False
  | _ => True

instance : DecidableRel EndsInGrace := fun u a => by
  simp only [EndsInGrace]
  split <;> infer_instance

theorem EndsInGrace.ne {a : InputAction} (h : EndsInGrace u a) (x : Caller) :
    a ≠ .core (.graceElapsed x) := by
  rintro rfl
  exact h

theorem runInv_step (u : InputState) (a : InputAction) (h : RunInv u)
    (ha : ((inputMachine present).restrict EndsInGrace).enabled u a) :
    RunInv ((inputMachine present).next u a) := by
  obtain ⟨hen, hok⟩ := ha
  have hcore : CoreInv (inputNext present u a).core ∧ ChainInv (inputNext present u a).core.sched ∧
      StdinInv (inputNext present u a).core := by
    refine inputNext_kept (I := fun t => CoreInv t ∧ ChainInv t.sched ∧ StdinInv t)
      ⟨h.core, h.chain, h.stdin⟩ hen fun b hb hbe => ⟨h.core.next hbe,
        chainInv_step h.core.basic h.core.fresh h.chain b hbe,
        stdinInv_step h.stdin h.core h.chain hbe ⟨fun x => ?_, fun htake => ?_⟩⟩
    · rintro rfl
      cases a with
      | core a =>
        cases hb
        exact hok.ne x rfl
      | write input => cases input <;> cases hb
      | _ => cases hb
    · subst htake
      cases a with
      | core a =>
        cases hb
        exact (hen.2.1 rfl).elim
      | stdin r => exact ⟨r, hen⟩
      | write input => cases input <;> cases hb
      | _ => cases hb
  refine ⟨hcore.1, hcore.2.1, hcore.2.2, ?_⟩
  cases a with
  | core a => exact h.delivery.core h.core h.stdin hen fun x hx => hok.ne x (congrArg _ hx)
  | stdin r => exact h.delivery.stdin h.stdin hen
  | write input => exact h.delivery.write h.core input
  | recv q => exact h.delivery.recv hen.1
  | drop q => exact h.delivery.drop q

/-- What is typed while a run is active goes to that run's program and to no other. -/
structure InputState.Isolated (u : InputState) : Prop where
  addressed : ∀ e ∈ u.accepted, ∀ r, e.active = some r → e.channel = r
  delivered : ∀ e ∈ u.received, e.program = e.channel
  inOrder : ∀ r, u.receivedBy r <+: u.acceptedWhile r
  noneLost : ∀ r, u.core.sched.inner.activeRun = some r → (u.core.sched.task r).isEnded = false →
    u.acceptedWhile r = u.receivedBy r ++ u.queue r
  kept : ∀ r, u.core.sched.inner.activeRun = some r → u.core.sched.interactive r →
    u.core.world.liveStdin = some r ∨ u.gave r r
  typed : ∀ q p, u.gave q p → p = q ∧ u.core.sched.interactive p

/-- In every run in which each superseded run ends within its grace, typed input is isolated. -/
theorem input_isolated {world : World} {language : Language} {u : InputState}
    (h : ((inputMachine present).restrict EndsInGrace).Reaches (newInput world language) u) :
    u.Isolated := by
  have hinv : RunInv u := h.invariant runInv_step
    ⟨coreInv_init world language, chainInv_new language, stdinInv_init world language,
      deliveryInv_new world language⟩
  have hdel := hinv.delivery
  refine ⟨fun e he r hr => ?_, hdel.own, fun r => ?_, fun r _ hr => ?_, hdel.placed, hdel.holder⟩
  · rcases hdel.attributed e he with hown | ⟨hnone, -⟩
    · exact Option.some.inj (hown.symm.trans hr)
    · rw [hnone] at hr
      cases hr
  · rw [hdel.receivedBy_eq]
    exact hdel.first r
  · rw [hdel.acceptedWhile_eq hr, hdel.receivedBy_eq, hdel.conserved]

/-- An interactive run reads a line and is superseded by another one, which is typed
its own line before its program starts. -/
def typeTwice : List InputAction :=
  let call (k : ℕ) : List InputAction := [.core (.call k 1 none true)]
  let step (k n : ℕ) : List InputAction := List.replicate n (.core (.step (.external k)))
  call 0 ++ step 0 9 ++ [.core (.takeSlot 0), .write (.data [49]), .stdin 0, .recv 0] ++
    call 1 ++ step 1 5 ++ [.core (.runnerReturn 0 none), .core (.drained 0), .core (.task 0),
      .core (.task 0), .core (.watchdog 0)] ++ step 1 6 ++
    [.write (.data [50]), .core (.takeSlot 1), .stdin 1, .recv 1, .write .eof]

theorem input_isolated_typeTwice :
    ∃ u, ((inputMachine allPresent).restrict EndsInGrace).Reaches
        (newInput ⟨1, true, false, none, 0⟩ .zig) u ∧
      u.receivedBy 0 = [.data [49]] ∧ u.receivedBy 1 = [.data [50]] ∧ u.Isolated := by
  obtain ⟨u, hu, hp⟩ := Machine.exists_reaches_of_exec
    (M := (inputMachine allPresent).restrict EndsInGrace)
    (s := newInput ⟨1, true, false, none, 0⟩ .zig) (l := typeTwice)
    (p := fun u => u.receivedBy 0 = [.data [49]] ∧ u.receivedBy 1 = [.data [50]]) (by decide)
  simp only [decide_eq_true_eq] at hp
  exact ⟨u, hu, hp.1, hp.2, input_isolated hu⟩

end Atomis.Scheduler
