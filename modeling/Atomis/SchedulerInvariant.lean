import Atomis.Scheduler

/-!
# What every run of a scheduler keeps

The start lock belongs to the one caller that is past taking it, the timer in
the pending slot is asleep, and the token of the active run is the one the slot
holds. These hold with no condition on the run.
-/

namespace Atomis.Scheduler

/-- Past taking the start lock. -/
def CallPc.holding : CallPc → Bool
  | .checkVersion _ | .chooseTarget _ | .supersede .. | .takeFinished .. | .waitFinished ..
  | .recheckVersion .. | .setStdin .. | .install .. | .announce .. | .spawn .. => true
  | _ => false

def CallPc.isSleeping : CallPc → Bool
  | .sleeping _ => true
  | _ => false

/-- The request of a call that has not returned. -/
def CallPc.underWay : CallPc → Option ℕ
  | .idle | .sleeping _ => none
  | .cancelEdit _ n | .readVersion _ n | .readSettings _ n _ => some n
  | .arm args | .lockStart args | .checkVersion args | .chooseTarget args | .supersede args _
  | .takeFinished args _ | .waitFinished args _ _ | .recheckVersion args _ | .setStdin args _
  | .install args _ _ | .announce args _ _ | .spawn args _ _ => some args.request

def CallPc.installed : CallPc → Option ℕ
  | .announce _ _ r | .spawn _ _ r => some r
  | _ => none

/-! ## The updates, field by field -/

@[simp, grind =] theorem setCaller_caller (c : Sched) (x : Caller) (pc : CallPc) (y : Caller) :
    (c.setCaller x pc).caller.get y = if y = x then pc else c.caller.get y := by
  simp [Sched.setCaller]

@[simp, grind =] theorem cancelInternal_caller (c : Sched) (y : Caller) :
    (cancelInternal c).caller.get y =
      if c.inner.debounce.map Caller.timer = some y then .idle else c.caller.get y := by
  simp only [cancelInternal]
  cases c.inner.debounce with
  | none => simp
  | some tag => simp [eq_comm]

@[simp, grind =] theorem cancelInternal_cancelled (c : Sched) (r : ℕ) :
    (cancelInternal c).cancelled.get r =
      if c.inner.cancel = some r then true else c.cancelled.get r := by
  simp only [cancelInternal]
  cases c.inner.cancel with
  | none => simp
  | some q => simp [eq_comm]

@[simp, grind =] theorem cancelInternal_debounce (c : Sched) :
    (cancelInternal c).inner.debounce = none := rfl
@[simp, grind =] theorem cancelInternal_debounceSeq (c : Sched) :
    (cancelInternal c).inner.debounceSeq = c.inner.debounceSeq := rfl
@[simp, grind =] theorem cancelInternal_cancel (c : Sched) :
    (cancelInternal c).inner.cancel = none := rfl
@[simp, grind =] theorem cancelInternal_activeRun (c : Sched) :
    (cancelInternal c).inner.activeRun = none := rfl
@[simp, grind =] theorem cancelInternal_finished (c : Sched) :
    (cancelInternal c).inner.finished = c.inner.finished := rfl

structure Basic (c : Sched) : Prop where
  locked : ∀ x, (c.caller x).holding = true → c.startLock = some x
  awake : ∀ k, (c.caller (.external k)).isSleeping = false
  pending : ∀ tag, c.inner.debounce = some tag → (c.caller (.timer tag)).isSleeping = true
  tagged : ∀ tag, c.caller (.timer tag) ≠ .idle → tag ≤ c.inner.debounceSeq
  paired : c.inner.cancel = c.inner.activeRun

theorem basic_new (language : Language) : Basic (new language) := by
  constructor <;> simp [new, CallPc.holding, CallPc.isSleeping, default, instInhabitedCallPc.default]

/-- A step that leaves the callers, the lock and the pending slot alone. -/
theorem Basic.congr {c c' : Sched} (h : Basic c) (hcaller : c'.caller = c.caller)
    (hlock : c'.startLock = c.startLock) (hdeb : c'.inner.debounce = c.inner.debounce)
    (hseq : c'.inner.debounceSeq = c.inner.debounceSeq)
    (hpair : c'.inner.cancel = c'.inner.activeRun) : Basic c' where
  locked := by rw [hcaller, hlock]; exact h.locked
  awake := by rw [hcaller]; exact h.awake
  pending := by rw [hcaller, hdeb]; exact h.pending
  tagged := by rw [hcaller, hseq]; exact h.tagged
  paired := hpair

theorem Basic.not_pending {c : Sched} (h : Basic c) {x : Caller}
    (hx : (c.caller x).isSleeping = false) : c.inner.debounce.map Caller.timer ≠ some x := by
  intro heq
  obtain ⟨tag, hdeb, rfl⟩ := Option.map_eq_some_iff.mp heq
  rw [h.pending tag hdeb] at hx
  cases hx

/-- One caller moves on, to a place it may be in. -/
theorem Basic.setCaller {c : Sched} (h : Basic c) {x : Caller} {p : CallPc}
    (hx : (c.caller x).isSleeping = false) (hmine : c.caller x ≠ .idle ∨ ∃ k, x = .external k)
    (hhold : p.holding = true → c.startLock = some x) (hsleep : p.isSleeping = false) :
    Basic (c.setCaller x p) := by
  have hslot := h.not_pending hx
  obtain ⟨locked, awake, pending, tagged, paired⟩ := h
  constructor <;> grind [Sched.setCaller]

theorem Basic.cancelInternal {c : Sched} (h : Basic c) : Basic (cancelInternal c) := by
  obtain ⟨locked, awake, pending, tagged, paired⟩ := h
  refine ⟨fun x => ?_, ?_, ?_, ?_, ?_⟩
  · have hlock : (Scheduler.cancelInternal c).startLock = c.startLock := rfl
    grind [CallPc.holding]
  all_goals grind [CallPc.isSleeping]

theorem CallPc.isSleeping_of_holding {pc : CallPc} (h : pc.holding = true) :
    pc.isSleeping = false := by
  cases pc <;> simp_all [CallPc.holding, CallPc.isSleeping]

theorem CallPc.ne_idle_of_holding {pc : CallPc} (h : pc.holding = true) : pc ≠ .idle := by
  rintro rfl
  cases h

/-- The holder of the start lock moves on and keeps it. -/
theorem Basic.proceed {c : Sched} (h : Basic c) {x : Caller} {p : CallPc}
    (hx : (c.caller x).holding = true) (hpc : p.holding = true) : Basic (c.setCaller x p) :=
  h.setCaller (CallPc.isSleeping_of_holding hx) (.inl (CallPc.ne_idle_of_holding hx))
    (fun _ => h.locked x hx) (CallPc.isSleeping_of_holding hpc)

/-- The holder of the start lock returns. -/
theorem Basic.endStart {c : Sched} (h : Basic c) {x : Caller}
    (hx : (c.caller x).holding = true) : Basic (c.endStart x) := by
  have hlock := h.locked x hx
  have hslot := h.not_pending (CallPc.isSleeping_of_holding hx)
  obtain ⟨locked, awake, pending, tagged, paired⟩ := h
  refine ⟨fun y hy => ?_, ?_, ?_, ?_, ?_⟩
  · have hcaller : (c.endStart x).caller.get y = if y = x then .idle else c.caller.get y :=
      setCaller_caller c x .idle y
    have := locked y
    grind [CallPc.holding]
  all_goals grind [Sched.setCaller, Sched.endStart, CallPc.isSleeping]

theorem Basic.arm {c : Sched} (h : Basic c) (x : Caller) (args : Args) :
    Basic { (c.setCaller x .idle).setCaller (.timer (c.inner.debounceSeq + 1)) (.sleeping args) with
      inner := { c.inner with
        debounceSeq := c.inner.debounceSeq + 1
        debounce := some (c.inner.debounceSeq + 1) } } := by
  obtain ⟨locked, awake, pending, tagged, paired⟩ := h
  refine ⟨?_, ?_, ?_, fun tag => ?_, paired⟩
  · grind [CallPc.holding, Sched.setCaller]
  · grind [CallPc.isSleeping, Sched.setCaller]
  · grind [CallPc.isSleeping, Sched.setCaller]
  · have := tagged tag
    grind [Sched.setCaller]

theorem Basic.wake {c : Sched} (h : Basic c) {x : Caller} {args : Args}
    (hx : c.caller x = .sleeping args) (hslot : c.inner.debounce.map Caller.timer = some x) :
    Basic { c.setCaller x (.lockStart args) with inner := { c.inner with debounce := none } } := by
  obtain ⟨tag, hdeb, rfl⟩ := Option.map_eq_some_iff.mp hslot
  obtain ⟨locked, awake, pending, tagged, paired⟩ := h
  constructor <;> grind [CallPc.isSleeping, CallPc.holding, Sched.setCaller]

theorem Basic.giveUp {c : Sched} (h : Basic c) {x : Caller}
    (hslot : c.inner.debounce.map Caller.timer ≠ some x) :
    Basic (c.setCaller x .idle) := by
  obtain ⟨locked, awake, pending, tagged, paired⟩ := h
  constructor <;> grind [CallPc.isSleeping, CallPc.holding, Sched.setCaller]

theorem Basic.takeLock {c : Sched} (h : Basic c) {x : Caller} {args : Args}
    (hx : c.caller x = .lockStart args) (hfree : c.startLock = none) :
    Basic { c.setCaller x (.checkVersion args) with startLock := some x } := by
  obtain ⟨locked, awake, pending, tagged, paired⟩ := h
  constructor <;> grind [CallPc.isSleeping, CallPc.holding, Sched.setCaller]

variable {present : Language → Bool} {w : World} {c : Sched}

theorem Basic.mark (h : Basic c) (m : Mark) : Basic (c.mark m) :=
  h.congr rfl rfl rfl rfl h.paired

theorem Basic.send (h : Basic c) (event : Event) : Basic (c.send event) := h.mark _

theorem cancelInternal_holding (h : Basic c) {x : Caller} (hx : (c.caller x).holding = true) :
    ((cancelInternal c).caller x).holding = true := by
  have hslot := h.not_pending (CallPc.isSleeping_of_holding hx)
  rw [cancelInternal_caller, if_neg hslot]
  exact hx

theorem basic_stepCaller (h : Basic c) {x : Caller} (hen : (c.caller x).enabled c) :
    Basic (stepCaller present w c x).2 := by
  cases hx : c.caller x with
  | idle => simpa only [stepCaller, hx] using h
  | cancelEdit language n =>
    have hsleep : (c.caller x).isSleeping = false := by rw [hx]; rfl
    have hslot := h.not_pending hsleep
    simp only [stepCaller, hx]
    refine h.cancelInternal.setCaller ?_ (.inl ?_) (fun hh => by cases hh) rfl
    · rwa [cancelInternal_caller, if_neg hslot]
    · rw [cancelInternal_caller, if_neg hslot, hx]
      simp
  | readVersion language n =>
    simp only [stepCaller, hx]
    exact h.setCaller (by rw [hx]; rfl) (.inl (by simp [hx])) (fun hh => by cases hh) rfl
  | readSettings language n version =>
    have hx' : ∀ event, (c.send event).caller x = .readSettings language n version := fun _ => hx
    simp only [stepCaller, hx]
    split_ifs
    · exact (h.send _).setCaller (by rw [hx']; rfl) (.inl (by simp [hx'])) (fun hh => by cases hh) rfl
    · exact (h.send _).setCaller (by rw [hx']; rfl) (.inl (by simp [hx'])) (fun hh => by cases hh) rfl
  | arm args => simpa only [stepCaller, hx] using h.arm x args
  | sleeping args =>
    simp only [stepCaller, hx]
    split_ifs with hslot
    · exact h.wake hx hslot
    · exact h.giveUp hslot
  | lockStart args =>
    simp only [stepCaller, hx]
    exact h.takeLock hx (by simpa [hx, CallPc.enabled] using hen)
  | checkVersion args =>
    have hhold : (c.caller x).holding = true := by rw [hx]; rfl
    simp only [stepCaller, hx]
    split_ifs
    · exact h.proceed hhold rfl
    · exact h.endStart hhold
  | chooseTarget args =>
    have hhold : (c.caller x).holding = true := by rw [hx]; rfl
    simp only [stepCaller, hx]
    split_ifs
    · exact h.proceed hhold rfl
    · exact (h.send _).endStart hhold
  | supersede args target =>
    have hhold : (c.caller x).holding = true := by rw [hx]; rfl
    simp only [stepCaller, hx]
    exact h.cancelInternal.proceed (cancelInternal_holding h hhold) rfl
  | takeFinished args target =>
    have hhold : (c.caller x).holding = true := by rw [hx]; rfl
    simp only [stepCaller, hx]
    cases c.inner.finished with
    | none => exact (h.proceed hhold (p := .setStdin args target) rfl).congr rfl rfl rfl rfl h.paired
    | some previous =>
      exact (h.proceed hhold (p := .waitFinished args target previous) rfl).congr rfl rfl rfl rfl
        h.paired
  | waitFinished args target previous =>
    have hhold : (c.caller x).holding = true := by rw [hx]; rfl
    simp only [stepCaller, hx]
    exact h.proceed hhold rfl
  | recheckVersion args target =>
    have hhold : (c.caller x).holding = true := by rw [hx]; rfl
    simp only [stepCaller, hx]
    split_ifs
    · exact h.proceed hhold rfl
    · exact h.endStart hhold
  | setStdin args target =>
    have hhold : (c.caller x).holding = true := by rw [hx]; rfl
    simp only [stepCaller, hx]
    exact h.proceed hhold rfl
  | install args target r =>
    have hhold : (c.caller x).holding = true := by rw [hx]; rfl
    simp only [stepCaller, hx]
    refine ((h.mark (.active args.request r)).proceed (x := x) (p := if args.interactive then
      .announce args target r else .spawn args target r) hhold ?_).congr rfl rfl rfl rfl rfl
    split_ifs <;> rfl
  | announce args target r =>
    have hhold : (c.caller x).holding = true := by rw [hx]; rfl
    simp only [stepCaller, hx]
    exact (h.send _).proceed hhold rfl
  | spawn args target r =>
    have hhold : (c.caller x).holding = true := by rw [hx]; rfl
    simp only [stepCaller, hx]
    exact (h.endStart hhold).congr rfl rfl rfl rfl h.paired

theorem basic_stepTask (h : Basic c) (r : ℕ) : Basic (stepTask w c r) := by
  cases hr : c.task r with
  | checking outcome =>
    simp only [stepTask, hr]
    split_ifs <;> exact h.congr rfl rfl rfl rfl h.paired
  | checkingVersion outcome =>
    simp only [stepTask, hr]
    split_ifs <;> exact h.congr rfl rfl rfl rfl h.paired
  | reporting outcome =>
    cases outcome with
    | some state =>
      simp only [stepTask, hr]
      exact h.congr rfl rfl rfl rfl h.paired
    | none =>
      simp only [stepTask, hr]
      split <;> exact h.congr rfl rfl rfl rfl h.paired
  | finishing =>
    simp only [stepTask, hr]
    exact h.congr rfl rfl rfl rfl h.paired
  | cleaning =>
    simp only [stepTask, hr]
    split_ifs
    · exact h.congr rfl rfl rfl rfl rfl
    · exact h.congr rfl rfl rfl rfl h.paired
  | _ => simpa only [stepTask, hr] using h

theorem basic_stepForward (h : Basic c) (r : ℕ) : Basic (stepForward w c r) := by
  simp only [stepForward]
  split
  · split <;> exact h.congr rfl rfl rfl rfl h.paired
  all_goals exact h.congr rfl rfl rfl rfl h.paired

theorem basic_stepWatchdog (h : Basic c) (r : ℕ) : Basic (stepWatchdog c r) := by
  simp only [stepWatchdog]
  split
  · exact h.congr rfl rfl rfl rfl h.paired
  · split_ifs
    · exact h.congr rfl rfl rfl rfl rfl
    · exact h.congr rfl rfl rfl rfl h.paired
  · exact h.congr rfl rfl rfl rfl h.paired
  · exact h

theorem basic_stepWatcher (h : Basic c) (r : ℕ) : Basic (stepWatcher c r) := by
  simp only [stepWatcher]
  split
  · exact h
  · exact h.congr rfl rfl rfl rfl h.paired
  · exact h.cancelInternal.congr rfl rfl rfl rfl rfl
  · exact h.congr rfl rfl rfl rfl h.paired

theorem Basic.newRequest (h : Basic c) {k : ℕ} {p : ℕ → CallPc}
    (hk : c.caller (.external k) = .idle) (hpc : ∀ n, (p n).holding = false)
    (hsleep : ∀ n, (p n).isSleeping = false) : Basic (c.newRequest k p) := by
  refine ((h.mark (.request c.requests)).setCaller (x := .external k) (p := p c.requests) ?_
    (.inr ⟨k, rfl⟩) (fun hh => ?_) (hsleep _)).congr rfl rfl rfl rfl h.paired
  · show (c.caller (.external k)).isSleeping = false
    rw [hk]
    rfl
  · rw [hpc] at hh
    cases hh

theorem basic_step {s : State} (h : Basic s.sched) (a : Action) (ha : enabled s a) :
    Basic (next present s a).sched := by
  cases a with
  | call k version language interactive =>
    exact h.newRequest (p := fun n => .lockStart ⟨version, language, interactive, n⟩) ha
      (fun _ => rfl) (fun _ => rfl)
  | edit k language =>
    exact h.newRequest (p := .cancelEdit language) ha (fun _ => rfl) (fun _ => rfl)
  | stop => exact h.cancelInternal.mark _
  | close => exact h.cancelInternal.mark _
  | step x => exact basic_stepCaller h ha
  | graceElapsed x =>
    simp only [next]
    cases hx : s.sched.caller x with
    | waitFinished args target previous =>
      have hhold : (s.sched.caller x).holding = true := by rw [hx]; rfl
      exact (h.proceed hhold (p := .recheckVersion args target) rfl).congr rfl rfl rfl rfl h.paired
    | _ => exact h
  | drained r =>
    simp only [next]
    split <;> exact h.congr rfl rfl rfl rfl h.paired
  | task r => exact basic_stepTask h r
  | forward r => exact basic_stepForward h r
  | watchdog r => exact basic_stepWatchdog h r
  | watch r => exact basic_stepWatcher h r
  | _ => exact h.congr rfl rfl rfl rfl h.paired

/-- Two callers past taking the start lock are the same one. -/
theorem Basic.unique (h : Basic c) {x y : Caller} (hx : (c.caller x).holding = true)
    (hy : (c.caller y).holding = true) : x = y := by
  have := h.locked x hx
  rw [h.locked y hy] at this
  exact (Option.some.inj this).symm

/-! ## Runs that have not been spawned -/

/-- The run a start has drawn an id for and not spawned yet. -/
def CallPc.run : CallPc → Option ℕ
  | .install _ _ r | .announce _ _ r | .spawn _ _ r => some r
  | _ => none

theorem CallPc.holding_of_run {pc : CallPc} {r : ℕ} (h : pc.run = some r) :
    pc.holding = true := by
  cases pc <;> simp_all [CallPc.run, CallPc.holding]

theorem CallPc.holding_of_installed {pc : CallPc} {r : ℕ} (h : pc.installed = some r) :
    pc.holding = true := by
  cases pc <;> simp_all [CallPc.installed, CallPc.holding]

theorem CallPc.run_of_installed {pc : CallPc} {r : ℕ} (h : pc.installed = some r) :
    pc.run = some r := by
  cases pc <;> simp_all [CallPc.installed, CallPc.run]

structure Fresh (w : World) (c : Sched) : Prop where
  unborn : ∀ r, w.nextRun ≤ r → c.task r = .unborn
  starting : ∀ x r, (c.caller x).run = some r → r < w.nextRun ∧ c.task r = .unborn

theorem fresh_new (w : World) (language : Language) : Fresh w (new language) := by
  constructor <;>
    simp [new, CallPc.run, default, instInhabitedCallPc.default, instInhabitedTaskPc.default]

theorem Fresh.frame {w' : World} {c' : Sched} (h : Fresh w c) (hnext : w.nextRun ≤ w'.nextRun)
    (htask : ∀ r, c.task r = .unborn → c'.task r = .unborn)
    (hcaller : ∀ x r, (c'.caller x).run = some r → (c.caller x).run = some r) : Fresh w' c' where
  unborn r hr := htask r (h.unborn r (Nat.le_trans hnext hr))
  starting x r hx := by
    obtain ⟨hlt, hborn⟩ := h.starting x r (hcaller x r hx)
    exact ⟨Nat.lt_of_lt_of_le hlt hnext, htask r hborn⟩

theorem Fresh.move {c' : Sched} (h : Fresh w c) (htask : c'.task = c.task) {x : Caller}
    {pc : CallPc} (hcaller : ∀ y, c'.caller y = if y = x then pc else c.caller y)
    (hpc : ∀ r, pc.run = some r → (c.caller x).run = some r) : Fresh w c' := by
  refine h.frame le_rfl (fun r hr => by rwa [htask]) fun y r hy => ?_
  rw [hcaller] at hy
  split_ifs at hy with heq
  · exact heq ▸ hpc r hy
  · exact hy

theorem Fresh.cancelInternal (h : Fresh w c) : Fresh w (cancelInternal c) := by
  refine h.frame le_rfl (fun r hr => hr) fun y r hy => ?_
  rw [cancelInternal_caller] at hy
  split_ifs at hy
  · cases hy
  · exact hy

theorem Fresh.draw (h : Fresh w c) (x : Caller) (args : Args) (target : Language) (w' : World)
    (hnext : w'.nextRun = w.nextRun + 1) :
    Fresh w' (c.setCaller x (.install args target w.nextRun)) where
  unborn r hr := h.unborn r (by omega)
  starting y r hy := by
    rw [setCaller_caller] at hy
    split_ifs at hy
    · obtain rfl : w.nextRun = r := by simpa [CallPc.run] using hy
      exact ⟨by omega, h.unborn _ le_rfl⟩
    · obtain ⟨hlt, hborn⟩ := h.starting y r hy
      exact ⟨by omega, hborn⟩

/-- The run a caller spawns is nobody else's. -/
theorem Fresh.spawn (h : Fresh w c) (hb : Basic c) {x : Caller} {r : ℕ}
    (hx : (c.caller x).run = some r) {c' : Sched}
    (hcaller : ∀ y, c'.caller y = if y = x then .idle else c.caller y)
    (htask : ∀ q, c'.task q = if q = r then .queued else c.task q) : Fresh w c' where
  unborn q hq := by
    have := (h.starting x r hx).1
    rw [htask, if_neg (by omega)]
    exact h.unborn q hq
  starting y q hy := by
    rw [hcaller] at hy
    split_ifs at hy with heq
    · cases hy
    · obtain ⟨hlt, hborn⟩ := h.starting y q hy
      refine ⟨hlt, ?_⟩
      rw [htask, if_neg]
      · exact hborn
      · rintro rfl
        exact heq (hb.unique (CallPc.holding_of_run hy) (CallPc.holding_of_run hx))

theorem Fresh.setTask (h : Fresh w c) {r : ℕ} {pc : TaskPc} (hr : c.task r ≠ .unborn) {c' : Sched}
    (hcaller : c'.caller = c.caller) (htask : c'.task = c.task.set r pc) : Fresh w c' := by
  refine h.frame (Nat.le_refl _) (fun q hq => ?_) (fun x q hx => by rwa [hcaller] at hx)
  rw [htask, Table.set_get, if_neg (by rintro rfl; exact hr hq)]
  exact hq

theorem Fresh.same (h : Fresh w c) {w' : World} {c' : Sched} (hnext : w'.nextRun = w.nextRun)
    (hcaller : c'.caller = c.caller) (htask : c'.task = c.task) : Fresh w' c' :=
  h.frame (Nat.le_of_eq hnext.symm) (fun r hr => by rwa [htask]) (fun x r hx => by rwa [hcaller] at hx)

theorem fresh_stepCaller (h : Fresh w c) (hb : Basic c) (x : Caller) :
    Fresh (stepCaller present w c x).1 (stepCaller present w c x).2 := by
  cases hx : c.caller x with
  | idle => simpa only [stepCaller, hx] using h
  | cancelEdit language n =>
    simp only [stepCaller, hx]
    exact h.cancelInternal.move rfl (setCaller_caller _ x _) (fun r hr => by cases hr)
  | readVersion language n =>
    simp only [stepCaller, hx]
    exact h.move rfl (setCaller_caller _ x _) (fun r hr => by cases hr)
  | readSettings language n version =>
    simp only [stepCaller, hx]
    split_ifs <;> exact h.move rfl (setCaller_caller _ x _) (fun r hr => by cases hr)
  | arm args =>
    simp only [stepCaller, hx]
    have hidle : Fresh w (c.setCaller x .idle) :=
      h.move rfl (setCaller_caller c x _) (fun r hr => by cases hr)
    exact hidle.move rfl (setCaller_caller _ _ (.sleeping args)) (fun r hr => by cases hr)
  | sleeping args =>
    simp only [stepCaller, hx]
    split_ifs <;> exact h.move rfl (setCaller_caller _ x _) (fun r hr => by cases hr)
  | lockStart args =>
    simp only [stepCaller, hx]
    exact h.move rfl (setCaller_caller _ x _) (fun r hr => by cases hr)
  | checkVersion args =>
    simp only [stepCaller, hx]
    split_ifs <;> exact h.move rfl (setCaller_caller _ x _) (fun r hr => by cases hr)
  | chooseTarget args =>
    simp only [stepCaller, hx]
    split_ifs <;> exact h.move rfl (setCaller_caller _ x _) (fun r hr => by cases hr)
  | supersede args target =>
    simp only [stepCaller, hx]
    exact h.cancelInternal.move rfl (setCaller_caller _ x _) (fun r hr => by cases hr)
  | takeFinished args target =>
    simp only [stepCaller, hx]
    refine h.move rfl (setCaller_caller _ x _) (fun r hr => ?_)
    cases hf : c.inner.finished <;> simp [hf, CallPc.run] at hr
  | waitFinished args target previous =>
    simp only [stepCaller, hx]
    exact h.move rfl (setCaller_caller _ x _) (fun r hr => by cases hr)
  | recheckVersion args target =>
    simp only [stepCaller, hx]
    split_ifs <;> exact h.move rfl (setCaller_caller _ x _) (fun r hr => by cases hr)
  | setStdin args target =>
    simp only [stepCaller, hx]
    exact h.draw x args target _ rfl
  | install args target r =>
    simp only [stepCaller, hx]
    refine h.move rfl (setCaller_caller _ x _) (fun q hq => ?_)
    rw [hx]
    split_ifs at hq <;> exact hq
  | announce args target r =>
    simp only [stepCaller, hx]
    exact h.move rfl (setCaller_caller _ x _) (fun q hq => by rwa [hx])
  | spawn args target r =>
    simp only [stepCaller, hx]
    refine h.spawn hb (x := x) (r := r) (by rw [hx]; rfl) (setCaller_caller c x .idle) (fun q => ?_)
    simp [Sched.setTask, Sched.endStart, Sched.setCaller]

theorem fresh_stepTask (h : Fresh w c) (r : ℕ) : Fresh w (stepTask w c r) := by
  cases hr : c.task r with
  | checking outcome =>
    simp only [stepTask, hr]
    split_ifs <;> exact h.setTask (by simp [hr]) rfl rfl
  | checkingVersion outcome =>
    simp only [stepTask, hr]
    split_ifs <;> exact h.setTask (by simp [hr]) rfl rfl
  | reporting outcome =>
    cases outcome with
    | some state =>
      simp only [stepTask, hr]
      exact h.setTask (by simp [hr]) rfl rfl
    | none =>
      simp only [stepTask, hr]
      split <;> exact h.setTask (by simp [hr]) rfl rfl
  | finishing =>
    simp only [stepTask, hr]
    exact h.setTask (by simp [hr]) rfl rfl
  | cleaning =>
    simp only [stepTask, hr]
    exact h.setTask (by simp [hr]) rfl rfl
  | _ => simpa only [stepTask, hr] using h

theorem fresh_step {s : State} (h : Fresh s.world s.sched) (hb : Basic s.sched) (a : Action)
    (ha : enabled s a) : Fresh (next present s a).world (next present s a).sched := by
  cases a with
  | call k version language interactive =>
    exact h.move rfl (setCaller_caller s.sched (.external k) _) (fun r hr => by cases hr)
  | edit k language =>
    exact h.move rfl (setCaller_caller s.sched (.external k) _) (fun r hr => by cases hr)
  | stop => exact h.cancelInternal.same rfl rfl rfl
  | close => exact h.cancelInternal.same rfl rfl rfl
  | step x => exact fresh_stepCaller h hb x
  | graceElapsed x =>
    simp only [next]
    split
    · exact h.move rfl (setCaller_caller s.sched x _) (fun r hr => by cases hr)
    · exact h
  | takeSlot r => exact h.setTask (by rw [show s.sched.task r = .queued from ha]; simp) rfl rfl
  | leaveQueue r => exact h.setTask (by rw [show s.sched.task r = .queued from ha.1]; simp) rfl rfl
  | runnerReturn r outcome =>
    exact h.setTask (by rw [show s.sched.task r = .running from ha]; simp) rfl rfl
  | panic r => exact h.setTask (by rw [show s.sched.task r = .running from ha]; simp) rfl rfl
  | drained r =>
    simp only [next]
    split
    · next hr => exact h.setTask (by simp [hr]) rfl rfl
    · exact h
  | task r => exact fresh_stepTask h r
  | forward r =>
    simp only [next, stepForward]
    split
    · split <;> exact h.same rfl rfl rfl
    all_goals exact h.same rfl rfl rfl
  | watchdog r =>
    simp only [next, stepWatchdog]
    split
    · exact h.same rfl rfl rfl
    · split_ifs <;> exact h.same rfl rfl rfl
    all_goals exact h.same rfl rfl rfl
  | watch r =>
    simp only [next, stepWatcher]
    split
    · exact h
    · exact h.same rfl rfl rfl
    · exact h.cancelInternal.same rfl rfl rfl
    · exact h.same rfl rfl rfl
  | _ => exact h.same rfl rfl rfl

end Atomis.Scheduler
