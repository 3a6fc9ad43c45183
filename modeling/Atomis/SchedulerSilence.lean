import Atomis.Lib.History
import Atomis.SchedulerInvariant

/-!
# Superseded runs are silent

Once `cancel_internal` has returned while a run was the active one, nothing
carrying its id is sent. The forwarder and the completion look at the slot and
send later, so this holds in every run in which no cancellation falls between
such a look and its send.
-/

namespace Atomis.Scheduler
open History

def SilentAfterCancel : List Mark → Prop :=
  Always fun before m => ∀ event r, m = .sent event → event.run = some r →
    Mark.cancelled r ∉ before

/-- Past the look at the slot, with an event of the run still to send. -/
def ForwardPc.speaking : ForwardPc → Bool
  | .checkingVersion _ | .sending _ => true
  | _ => false

def TaskPc.speaking : TaskPc → Bool
  | .checkingVersion (some _) | .reporting (some _) | .finishing => true
  | _ => false

def CallPc.installs : CallPc → Option ℕ
  | .install _ _ r => some r
  | _ => none

def CallPc.announces : CallPc → Option ℕ
  | .announce _ _ r => some r
  | _ => none

def Sched.speaking (c : Sched) (r : ℕ) : Bool :=
  (c.forwarder r).speaking || (c.task r).speaking ||
    c.startLock.any fun x => (c.caller x).announces = some r

/-- The step runs `cancel_internal`. -/
def cancels (c : Sched) : Action → Bool
  | .stop | .close => true
  | .step x => match c.caller x with
    | .cancelEdit .. | .supersede .. => true
    | _ => false
  | .watch r => c.watcher r = .firing
  | _ => false

/-- No cancellation while the active run is between a look at the slot and its send. -/
def Uninterrupted (s : State) (a : Action) : Prop :=
  cancels s.sched a = true → s.sched.inner.activeRun.all (fun r => !s.sched.speaking r) = true

structure SilentInv (w : World) (c : Sched) : Prop where
  active : ∀ r, c.inner.activeRun = some r → r < w.nextRun ∧ .cancelled r ∉ c.history
  drawn : ∀ r, .cancelled r ∈ c.history → r < w.nextRun
  installing : ∀ x r, (c.caller x).installs = some r →
    .cancelled r ∉ c.history ∧ c.inner.activeRun ≠ some r
  announcing : ∀ x r, (c.caller x).announces = some r → .cancelled r ∉ c.history
  forwarding : ∀ r, (c.forwarder r).speaking = true → .cancelled r ∉ c.history
  reporting : ∀ r, (c.task r).speaking = true → .cancelled r ∉ c.history
  recovered : ∀ r, c.watchdog r = .announcing →
    .cancelled r ∉ c.history ∧ c.inner.activeRun ≠ some r
  ended : ∀ r, c.watchdog r ≠ .waiting → (c.task r).isEnded = true
  silent : SilentAfterCancel c.history

theorem silentInv_new (w : World) (language : Language) : SilentInv w (new language) := by
  refine ⟨?_, ?_, ?_, ?_, ?_, ?_, ?_, ?_, always_nil _⟩ <;>
    simp [new, CallPc.installs, CallPc.announces, ForwardPc.speaking, TaskPc.speaking, default,
      instInhabitedCallPc.default, instInhabitedTaskPc.default, instInhabitedForwardPc.default,
      instInhabitedWatchdogPc.default]

variable {present : Language → Bool} {w : World} {c : Sched}

/-- What a step may add to the history without breaking the silence. -/
def Hushed (c c' : Sched) : Prop :=
  c'.history = c.history ∨ ∃ m : Mark, (∀ r, m ≠ .cancelled r) ∧
    (∀ event r, m = .sent event → event.run = some r → .cancelled r ∉ c.history) ∧
    c'.history = c.history ++ [m]

theorem Hushed.mem_iff {c' : Sched} (hh : Hushed c c') (r : ℕ) :
    Mark.cancelled r ∈ c'.history ↔ Mark.cancelled r ∈ c.history := by
  rcases hh with heq | ⟨m, hm, -, heq⟩
  · rw [heq]
  · rw [heq, List.mem_append, List.mem_singleton]
    exact ⟨fun h => h.resolve_right fun h => hm r h.symm, .inl⟩

theorem Hushed.silent {c' : Sched} (hh : Hushed c c') (h : SilentAfterCancel c.history) :
    SilentAfterCancel c'.history := by
  rcases hh with heq | ⟨m, -, hm, heq⟩
  · rwa [heq]
  · rw [heq]
    exact always_append_singleton.mpr ⟨h, hm⟩

/-- A step that touches no caller. What newly speaks was seen to be active. -/
theorem SilentInv.frame {w' : World} {c' : Sched} (h : SilentInv w c) (hh : Hushed c c')
    (hnext : w'.nextRun = w.nextRun) (hcaller : c'.caller = c.caller)
    (hact : c'.inner.activeRun = c.inner.activeRun ∨ c'.inner.activeRun = none)
    (hfwd : ∀ r, (c'.forwarder r).speaking = true →
      (c.forwarder r).speaking = true ∨ c.inner.activeRun = some r)
    (htask : ∀ r, (c'.task r).speaking = true →
      (c.task r).speaking = true ∨ c.inner.activeRun = some r)
    (hdog : ∀ r, c'.watchdog r = .announcing → c.watchdog r = .announcing ∨
      (c.inner.activeRun = some r ∧ c'.inner.activeRun = none))
    (hended : ∀ r, c'.watchdog r ≠ .waiting → (c'.task r).isEnded = true) : SilentInv w' c' := by
  have hmem := hh.mem_iff
  obtain ⟨active, drawn, installing, announcing, forwarding, reporting, recovered, ended, silent⟩ := h
  refine ⟨?_, ?_, ?_, ?_, ?_, ?_, ?_, hended, hh.silent silent⟩ <;> grind

/-- A caller that moves on. -/
theorem SilentInv.move (h : SilentInv w c) {c' : Sched} (hh : Hushed c c') {x : Caller} {pc : CallPc}
    (hcaller : ∀ y, c'.caller y = if y = x then pc else c.caller y)
    (hact : c'.inner.activeRun = c.inner.activeRun) (hfwd : c'.forwarder = c.forwarder)
    (htask : c'.task = c.task) (hdog : c'.watchdog = c.watchdog)
    (hinst : pc.installs = none)
    (hann : ∀ r, pc.announces = some r → .cancelled r ∉ c.history) : SilentInv w c' := by
  have hmem := hh.mem_iff
  obtain ⟨active, drawn, installing, announcing, forwarding, reporting, recovered, ended, silent⟩ := h
  refine ⟨?_, ?_, ?_, ?_, ?_, ?_, ?_, ?_, hh.silent silent⟩ <;> grind

/-- The active run had nothing left to send when it was cancelled. -/
theorem SilentInv.cancelInternal (h : SilentInv w c) (hb : Basic c)
    (hquiet : c.inner.activeRun.all (fun r => !c.speaking r) = true) :
    SilentInv w (cancelInternal c) := by
  have hmem : ∀ r, Mark.cancelled r ∈ (Scheduler.cancelInternal c).history ↔
      Mark.cancelled r ∈ c.history ∨ c.inner.activeRun = some r := by
    intro r
    simp only [Scheduler.cancelInternal]
    cases c.inner.activeRun with
    | none => simp
    | some q => simp [eq_comm]
  have hsilent : SilentAfterCancel (Scheduler.cancelInternal c).history := by
    simp only [Scheduler.cancelInternal]
    cases c.inner.activeRun with
    | none => exact h.silent
    | some q => exact always_append_singleton.mpr ⟨h.silent, by simp⟩
  have hann : ∀ x r, (c.caller x).announces = some r → c.startLock = some x := fun x r hx =>
    hb.locked x (by cases hc : c.caller x <;> simp_all [CallPc.announces, CallPc.holding])
  have hforwarder : (Scheduler.cancelInternal c).forwarder = c.forwarder := rfl
  have htask : (Scheduler.cancelInternal c).task = c.task := rfl
  have hdog : (Scheduler.cancelInternal c).watchdog = c.watchdog := rfl
  obtain ⟨active, drawn, installing, announcing, forwarding, reporting, recovered, ended, silent⟩ := h
  refine ⟨?_, ?_, ?_, ?_, ?_, ?_, ?_, ?_, hsilent⟩ <;>
    grind [Sched.speaking, CallPc.installs, CallPc.announces]

theorem SilentInv.draw (h : SilentInv w c) (x : Caller) (args : Args) (target : Language)
    {w' : World} (hnext : w'.nextRun = w.nextRun + 1) :
    SilentInv w' (c.setCaller x (.install args target w.nextRun)) := by
  have hact : c.inner.activeRun ≠ some w.nextRun := fun hr =>
    Nat.lt_irrefl _ (h.active _ hr).1
  have hcan : Mark.cancelled w.nextRun ∉ c.history := fun hr => Nat.lt_irrefl _ (h.drawn _ hr)
  obtain ⟨active, drawn, installing, announcing, forwarding, reporting, recovered, ended, silent⟩ := h
  refine ⟨?_, ?_, ?_, ?_, forwarding, reporting, recovered, ended, silent⟩ <;>
    grind [Sched.setCaller, CallPc.installs, CallPc.announces]

theorem CallPc.holding_of_installs {pc : CallPc} {r : ℕ} (h : pc.installs = some r) :
    pc.holding = true := by
  cases pc <;> simp_all [CallPc.installs, CallPc.holding]

/-- The run drawn for a start becomes the active one for the first time. -/
theorem SilentInv.install (h : SilentInv w c) (hb : Basic c) (hf : Fresh w c) {x : Caller}
    {args : Args} {target : Language} {r : ℕ} (hx : c.caller x = .install args target r) {pc : CallPc}
    (hpc : pc = .announce args target r ∨ pc = .spawn args target r) {c' : Sched}
    (hcaller : ∀ y, c'.caller y = if y = x then pc else c.caller y)
    (hact : c'.inner.activeRun = some r) (hfwd : c'.forwarder = c.forwarder)
    (htask : c'.task = c.task) (hdog : c'.watchdog = c.watchdog)
    (hhist : c'.history = c.history ++ [.active args.request r]) : SilentInv w c' := by
  obtain ⟨hcan, -⟩ := h.installing x r (by rw [hx]; rfl)
  obtain ⟨hlt, hborn⟩ := hf.starting x r (by rw [hx]; rfl)
  have hhold : (c.caller x).holding = true := by rw [hx]; rfl
  have hmem : ∀ q, Mark.cancelled q ∈ c'.history ↔ Mark.cancelled q ∈ c.history := by simp [hhist]
  have hsilent : SilentAfterCancel c'.history := by
    rw [hhist]
    exact always_append_singleton.mpr ⟨h.silent, by simp⟩
  have halone : ∀ y q, (c.caller y).installs = some q → y = x := fun y q hy =>
    hb.unique (CallPc.holding_of_installs hy) hhold
  have hinst : pc.installs = none := by rcases hpc with rfl | rfl <;> rfl
  have hann : ∀ q, pc.announces = some q → q = r := by
    rintro q hq
    rcases hpc with rfl | rfl
    · exact (Option.some.inj hq).symm
    · cases hq
  obtain ⟨active, drawn, installing, announcing, forwarding, reporting, recovered, ended, silent⟩ := h
  refine ⟨?_, ?_, ?_, ?_, ?_, ?_, ?_, ?_, hsilent⟩ <;> grind [TaskPc.isEnded]

theorem SilentInv.spawn (h : SilentInv w c) (hf : Fresh w c) {x : Caller} {r : ℕ}
    (hx : (c.caller x).run = some r) {c' : Sched}
    (hcaller : ∀ y, c'.caller y = if y = x then .idle else c.caller y)
    (htask : ∀ q, c'.task q = if q = r then .queued else c.task q) (hinner : c'.inner = c.inner)
    (hfwd : c'.forwarder = c.forwarder) (hdog : c'.watchdog = c.watchdog)
    (hhist : c'.history = c.history) : SilentInv w c' := by
  have hborn := (hf.starting x r hx).2
  obtain ⟨active, drawn, installing, announcing, forwarding, reporting, recovered, ended, silent⟩ := h
  refine ⟨?_, ?_, ?_, ?_, ?_, ?_, ?_, ?_, hhist ▸ silent⟩ <;>
    grind [TaskPc.isEnded, TaskPc.speaking, CallPc.installs, CallPc.announces]

theorem hushed_send {v : Event}
    (he : ∀ r, v.run = some r → Mark.cancelled r ∉ c.history) : Hushed c (c.send v) :=
  .inr ⟨.sent v, by simp, fun e r heq hr => by cases heq; exact he r hr, rfl⟩

/-- An event without a run id. -/
theorem SilentInv.sendPlain (h : SilentInv w c) {v : Event} (he : v.run = none) :
    SilentInv w (c.send v) :=
  h.frame (hushed_send fun r hr => by rw [he] at hr; cases hr) rfl rfl (.inl rfl) (fun _ hr => .inl hr)
    (fun _ hr => .inl hr) (fun _ hr => .inl hr) h.ended

/-- A caller that neither installs nor announces a run. -/
theorem SilentInv.plain (h : SilentInv w c) (x : Caller) {p : CallPc} (hinst : p.installs = none)
    (hann : p.announces = none) {l : Option Caller} {i : Inner}
    (hact : i.activeRun = c.inner.activeRun) :
    SilentInv w { c.setCaller x p with startLock := l, inner := i } :=
  h.move (.inl rfl) (setCaller_caller c x p) hact rfl rfl rfl hinst
    (fun r hr => by rw [hann] at hr; cases hr)

theorem silentInv_stepCaller (h : SilentInv w c) (hb : Basic c) (hf : Fresh w c) {x : Caller}
    (hok : cancels c (.step x) = true →
      c.inner.activeRun.all (fun r => !c.speaking r) = true) :
    SilentInv (stepCaller present w c x).1 (stepCaller present w c x).2 := by
  cases hx : c.caller x with
  | idle => simpa only [stepCaller, hx] using h
  | cancelEdit language n =>
    simp only [stepCaller, hx]
    exact (h.cancelInternal hb (hok (by simp [cancels, hx]))).plain x rfl rfl rfl
  | readVersion language n =>
    simp only [stepCaller, hx]
    exact h.plain x rfl rfl rfl
  | readSettings language n version =>
    simp only [stepCaller, hx]
    split_ifs <;> exact (h.sendPlain rfl).plain x rfl rfl rfl
  | arm args =>
    simp only [stepCaller, hx]
    exact (h.plain (l := c.startLock) (i := c.inner) x (p := .idle) rfl rfl rfl).plain
      (.timer (c.inner.debounceSeq + 1)) (p := .sleeping args) rfl rfl rfl
  | sleeping args =>
    simp only [stepCaller, hx]
    split_ifs <;> exact h.plain x rfl rfl rfl
  | lockStart args =>
    simp only [stepCaller, hx]
    exact h.plain x rfl rfl rfl
  | checkVersion args =>
    simp only [stepCaller, hx]
    split_ifs <;> exact h.plain x rfl rfl rfl
  | chooseTarget args =>
    simp only [stepCaller, hx]
    split_ifs
    · exact h.plain x rfl rfl rfl
    · exact (h.sendPlain rfl).plain x rfl rfl rfl
  | supersede args target =>
    simp only [stepCaller, hx]
    exact (h.cancelInternal hb (hok (by simp [cancels, hx]))).plain x rfl rfl rfl
  | takeFinished args target =>
    simp only [stepCaller, hx]
    cases c.inner.finished <;> exact h.plain x rfl rfl rfl
  | waitFinished args target previous =>
    simp only [stepCaller, hx]
    exact h.plain x rfl rfl rfl
  | recheckVersion args target =>
    simp only [stepCaller, hx]
    split_ifs <;> exact h.plain x rfl rfl rfl
  | setStdin args target =>
    simp only [stepCaller, hx]
    exact h.draw x args target rfl
  | install args target r =>
    simp only [stepCaller, hx]
    refine h.install hb hf hx ?_ (setCaller_caller _ x _) rfl rfl rfl rfl rfl
    split_ifs
    · exact .inl rfl
    · exact .inr rfl
  | announce args target r =>
    have hcan := h.announcing x r (by rw [hx]; rfl)
    simp only [stepCaller, hx]
    exact h.move (hushed_send (v := .stdinOpen args.version r)
      fun q hq => by cases hq; exact hcan) (setCaller_caller _ x _) rfl rfl rfl rfl rfl
      (fun q hq => by cases hq)
  | spawn args target r =>
    simp only [stepCaller, hx]
    exact h.spawn hf (x := x) (r := r) (by rw [hx]; rfl) (setCaller_caller c x .idle)
      (fun q => by simp [Sched.setTask, Sched.endStart, Sched.setCaller]) rfl rfl rfl rfl

theorem not_waiting_ended (h : SilentInv w c) {r : ℕ} (hr : (c.task r).isEnded = false) (q : ℕ)
    (hq : c.watchdog q ≠ .waiting) : q ≠ r := by
  rintro rfl
  rw [h.ended q hq] at hr
  cases hr

/-- A task that moves on, and sends at most what it was seen fit to send. -/
theorem SilentInv.setTask (h : SilentInv w c) {r : ℕ} {pc : TaskPc} {c' : Sched}
    (hr : (c.task r).isEnded = false)
    (hspeak : pc.speaking = true → (c.task r).speaking = true ∨ c.inner.activeRun = some r)
    (hh : Hushed c c') (hcaller : c'.caller = c.caller)
    (hact : c'.inner.activeRun = c.inner.activeRun ∨ c'.inner.activeRun = none)
    (hfwd : c'.forwarder = c.forwarder) (htask : c'.task = c.task.set r pc)
    (hdog : c'.watchdog = c.watchdog) : SilentInv w c' := by
  have hne := not_waiting_ended h hr
  refine h.frame hh rfl hcaller hact (fun q hq => .inl (by rwa [hfwd] at hq)) (fun q hq => ?_)
    (fun q hq => .inl (by rwa [hdog] at hq)) (fun q hq => ?_)
  · rw [htask, Table.set_get] at hq
    split_ifs at hq with heq
    · exact heq ▸ hspeak hq
    · exact .inl hq
  · rw [hdog] at hq
    rw [htask, Table.set_get, if_neg (hne q hq)]
    exact h.ended q hq

theorem isCurrent_activeRun {r : ℕ} (h : c.isCurrent r = true) : c.inner.activeRun = some r := by
  simp only [Sched.isCurrent, Bool.and_eq_true, decide_eq_true_eq] at h
  exact h.2

theorem silentInv_stepTask (h : SilentInv w c) (r : ℕ) : SilentInv w (stepTask w c r) := by
  have hreport := h.reporting r
  cases hr : c.task r with
  | checking outcome =>
    have hend : (c.task r).isEnded = false := by rw [hr]; rfl
    simp only [stepTask, hr]
    split_ifs with hcur
    · exact h.setTask hend (fun _ => .inr (isCurrent_activeRun hcur)) (.inl rfl) rfl (.inl rfl) rfl rfl rfl
    · exact h.setTask hend (fun hs => by cases hs) (.inl rfl) rfl (.inl rfl) rfl rfl rfl
  | checkingVersion outcome =>
    have hend : (c.task r).isEnded = false := by rw [hr]; rfl
    simp only [stepTask, hr]
    split_ifs
    · exact h.setTask hend (fun hs => .inl (by rw [hr]; cases outcome <;> exact hs)) (.inl rfl) rfl
        (.inl rfl) rfl rfl rfl
    · exact h.setTask hend (fun hs => by cases hs) (.inl rfl) rfl (.inl rfl) rfl rfl rfl
  | reporting outcome =>
    have hend : (c.task r).isEnded = false := by rw [hr]; rfl
    cases outcome with
    | some state =>
      have hcan := hreport (by rw [hr]; rfl)
      simp only [stepTask, hr]
      exact h.setTask hend (fun _ => .inl (by rw [hr]; rfl))
        (hushed_send (v := .runState (c.version r) (some r) state)
          fun q hq => by cases hq; exact hcan) rfl (.inl rfl) rfl rfl rfl
    | none =>
      simp only [stepTask, hr]
      split
      · exact h.setTask hend (fun hs => by cases hs)
          (hushed_send (v := noRunner _) fun q hq => by cases hq) rfl (.inl rfl) rfl rfl rfl
      · exact h.setTask hend (fun hs => by cases hs) (.inl rfl) rfl (.inl rfl) rfl rfl rfl
  | finishing =>
    have hend : (c.task r).isEnded = false := by rw [hr]; rfl
    have hcan := hreport (by rw [hr]; rfl)
    simp only [stepTask, hr]
    exact h.setTask hend (fun hs => by cases hs)
      (hushed_send (v := .runFinished (c.version r) r) fun q hq => by cases hq; exact hcan)
      rfl (.inl rfl) rfl rfl rfl
  | cleaning =>
    have hend : (c.task r).isEnded = false := by rw [hr]; rfl
    simp only [stepTask, hr]
    refine h.setTask hend (fun hs => by cases hs) (.inl rfl) rfl ?_ rfl rfl rfl
    split_ifs
    · exact .inr rfl
    · exact .inl rfl
  | _ => simpa only [stepTask, hr] using h

/-- The forwarder of a run moves on. -/
theorem SilentInv.setForwarder (h : SilentInv w c) {r : ℕ} {pc : ForwardPc} {c' : Sched}
    (hspeak : pc.speaking = true → (c.forwarder r).speaking = true ∨ c.inner.activeRun = some r)
    (hh : Hushed c c') (hcaller : c'.caller = c.caller) (hinner : c'.inner = c.inner)
    (hfwd : c'.forwarder = c.forwarder.set r pc) (htask : c'.task = c.task)
    (hdog : c'.watchdog = c.watchdog) : SilentInv w c' := by
  refine h.frame hh rfl hcaller (.inl (by rw [hinner])) (fun q hq => ?_)
    (fun q hq => .inl (by rwa [htask] at hq)) (fun q hq => .inl (by rwa [hdog] at hq))
    (fun q hq => by rw [htask]; exact h.ended q (by rwa [hdog] at hq))
  rw [hfwd, Table.set_get] at hq
  split_ifs at hq with heq
  · exact heq ▸ hspeak hq
  · exact .inl hq

theorem silentInv_stepForward (h : SilentInv w c) (r : ℕ) : SilentInv w (stepForward w c r) := by
  cases hr : c.forwarder r with
  | idle =>
    simp only [stepForward, hr]
    split
    · exact h
    · exact h.setForwarder (fun hs => by cases hs) (.inl rfl) rfl rfl rfl rfl rfl
  | checking event =>
    simp only [stepForward, hr]
    refine h.setForwarder (fun hs => .inr ?_) (.inl rfl) rfl rfl rfl rfl rfl
    split_ifs at hs with hcur
    · exact isCurrent_activeRun hcur
    · cases hs
  | checkingVersion event =>
    simp only [stepForward, hr]
    exact h.setForwarder (fun _ => .inl (by rw [hr]; rfl)) (.inl rfl) rfl rfl rfl rfl rfl
  | sending event =>
    have hcan := h.forwarding r (by rw [hr]; rfl)
    simp only [stepForward, hr]
    exact h.setForwarder (fun hs => by cases hs)
      (hushed_send (v := .runner (c.version r) r event) fun q hq => by cases hq; exact hcan)
      rfl rfl rfl rfl rfl

theorem silentInv_stepWatchdog (h : SilentInv w c) {r : ℕ} (hr : (c.task r).isEnded = true) :
    SilentInv w (stepWatchdog c r) := by
  have hset : ∀ pc q, (c.watchdog.set r pc) q ≠ .waiting → (c.task q).isEnded = true := by
    intro pc q hq
    rw [Table.set_get] at hq
    split_ifs at hq with heq
    · rwa [heq]
    · exact h.ended q hq
  have hdog : ∀ pc q, pc ≠ .announcing → (c.watchdog.set r pc) q = .announcing →
      c.watchdog q = .announcing := by
    intro pc q hpc hq
    rw [Table.set_get] at hq
    split_ifs at hq
    · exact absurd hq hpc
    · exact hq
  cases hw : c.watchdog r with
  | waiting =>
    simp only [stepWatchdog, hw]
    refine h.frame (.inl rfl) rfl rfl (.inl rfl) (fun _ hq => .inl hq) (fun _ hq => .inl hq)
      (fun q hq => .inl (hdog _ q ?_ hq)) (hset _)
    split_ifs <;> simp
  | recovering =>
    simp only [stepWatchdog, hw]
    split_ifs with hact
    · refine h.frame (.inl rfl) rfl rfl (.inr rfl) (fun _ hq => .inl hq) (fun _ hq => .inl hq)
        (fun q hq => ?_) (hset _)
      change (c.watchdog.set r .announcing) q = .announcing at hq
      rw [Table.set_get] at hq
      split_ifs at hq with heq
      · exact .inr ⟨heq ▸ hact, rfl⟩
      · exact .inl hq
    · exact h.frame (.inl rfl) rfl rfl (.inl rfl) (fun _ hq => .inl hq) (fun _ hq => .inl hq)
        (fun q hq => .inl (hdog .done q (by simp) hq)) (hset _)
  | announcing =>
    have hcan := (h.recovered r hw).1
    have hsent : SilentInv w (c.send (.runState (c.version r) (some r) .idle)) :=
      h.frame (hushed_send fun q hq => by cases hq; exact hcan) rfl rfl (.inl rfl)
        (fun _ hq => .inl hq) (fun _ hq => .inl hq) (fun _ hq => .inl hq) h.ended
    simp only [stepWatchdog, hw]
    exact (hsent.sendPlain (v := .serverError
      "The run crashed inside the server and was reset") rfl).frame (.inl rfl) rfl rfl (.inl rfl)
      (fun _ hq => .inl hq) (fun _ hq => .inl hq) (fun q hq => .inl (hdog .done q (by simp) hq))
      (hset _)
  | done => simpa only [stepWatchdog, hw] using h

theorem silentInv_stepWatcher (h : SilentInv w c) (hb : Basic c) {r : ℕ}
    (hok : cancels c (.watch r) = true → c.inner.activeRun.all (fun r => !c.speaking r) = true) :
    SilentInv w (stepWatcher c r) := by
  cases hw : c.watcher r with
  | off => simpa only [stepWatcher, hw] using h
  | watching =>
    simp only [stepWatcher, hw]
    exact h.frame (.inl rfl) rfl rfl (.inl rfl) (fun _ hq => .inl hq) (fun _ hq => .inl hq)
      (fun _ hq => .inl hq) h.ended
  | firing =>
    have hc := h.cancelInternal hb (hok (by simp [cancels, hw]))
    simp only [stepWatcher, hw]
    exact hc.frame (.inl rfl) rfl rfl (.inl rfl) (fun _ hq => .inl hq) (fun _ hq => .inl hq)
      (fun _ hq => .inl hq) hc.ended
  | announcing =>
    have hsent := (h.sendPlain (v := .runState (c.version r) none .cancelled) rfl).sendPlain
      (v := .serverError
        "The server stopped after 15 minutes without a request — Run starts it again") rfl
    simp only [stepWatcher, hw]
    exact hsent.frame (.inl rfl) rfl rfl (.inl rfl) (fun _ hq => .inl hq) (fun _ hq => .inl hq)
      (fun _ hq => .inl hq) hsent.ended

theorem hushed_mark {m : Mark} (hcan : ∀ r, m ≠ .cancelled r) (hsent : ∀ e, m ≠ .sent e) :
    Hushed c (c.mark m) :=
  .inr ⟨m, hcan, fun e _ heq => absurd heq (hsent e), rfl⟩

theorem SilentInv.mark (h : SilentInv w c) {m : Mark} (hcan : ∀ r, m ≠ .cancelled r)
    (hsent : ∀ e, m ≠ .sent e) : SilentInv w (c.mark m) :=
  h.frame (hushed_mark hcan hsent) rfl rfl (.inl rfl) (fun _ hq => .inl hq) (fun _ hq => .inl hq)
    (fun _ hq => .inl hq) h.ended

theorem SilentInv.world (h : SilentInv w c) {w' : World} (hnext : w'.nextRun = w.nextRun) :
    SilentInv w' c :=
  h.frame (.inl rfl) hnext rfl (.inl rfl) (fun _ hq => .inl hq) (fun _ hq => .inl hq)
    (fun _ hq => .inl hq) h.ended

theorem silentInv_step {s : State} (hb : Basic s.sched) (hf : Fresh s.world s.sched)
    (h : SilentInv s.world s.sched) (a : Action) (ha : enabled s a) (hok : Uninterrupted s a) :
    SilentInv (next present s a).world (next present s a).sched := by
  cases a with
  | call k version language interactive =>
    exact h.move (hushed_mark (by simp) (by simp)) (setCaller_caller _ (.external k) _) rfl rfl rfl
      rfl rfl (fun r hr => by cases hr)
  | edit k language =>
    exact h.move (hushed_mark (by simp) (by simp)) (setCaller_caller _ (.external k) _) rfl rfl rfl
      rfl rfl (fun r hr => by cases hr)
  | stop => exact (h.cancelInternal hb (hok rfl)).mark (by simp) (by simp)
  | close => exact (h.cancelInternal hb (hok rfl)).mark (by simp) (by simp)
  | step x => exact silentInv_stepCaller h hb hf hok
  | graceElapsed x =>
    simp only [next]
    split
    · next args target previous _ =>
      exact (h.plain (l := s.sched.startLock) (i := s.sched.inner) x
        (p := .recheckVersion args target) rfl rfl rfl).frame (.inl rfl) rfl rfl (.inl rfl)
        (fun _ hq => .inl hq) (fun _ hq => .inl hq) (fun _ hq => .inl hq) h.ended
    · exact h
  | takeSlot r =>
    have hr : s.sched.task r = .queued := ha
    exact h.setTask (by rw [hr]; rfl) (fun hs => by cases hs) (hushed_mark (by simp) (by simp)) rfl
      (.inl rfl) rfl rfl rfl
  | leaveQueue r =>
    have hr : s.sched.task r = .queued := ha.1
    exact h.setTask (by rw [hr]; rfl) (fun hs => by cases hs) (.inl rfl) rfl (.inl rfl) rfl rfl rfl
  | runnerReturn r outcome =>
    have hr : s.sched.task r = .running := ha
    exact h.setTask (by rw [hr]; rfl) (fun hs => by cases hs) (.inl rfl) rfl (.inl rfl) rfl rfl rfl
  | panic r =>
    have hr : s.sched.task r = .running := ha
    exact h.setTask (by rw [hr]; rfl) (fun hs => by cases hs) (.inl rfl) rfl (.inl rfl) rfl rfl rfl
  | drained r =>
    simp only [next]
    split
    · next hr =>
      exact h.setTask (by rw [hr]; rfl) (fun hs => by cases hs) (.inl rfl) rfl (.inl rfl) rfl rfl rfl
    · exact h
  | task r => exact silentInv_stepTask h r
  | forward r => exact silentInv_stepForward h r
  | watchdog r => exact silentInv_stepWatchdog h ha.1
  | watch r => exact silentInv_stepWatcher h hb hok
  | runnerEvent r event =>
    exact h.frame (.inl rfl) rfl rfl (.inl rfl) (fun _ hq => .inl hq) (fun _ hq => .inl hq)
      (fun _ hq => .inl hq) h.ended
  | watchEnds r =>
    exact h.frame (.inl rfl) rfl rfl (.inl rfl) (fun _ hq => .inl hq) (fun _ hq => .inl hq)
      (fun _ hq => .inl hq) h.ended
  | writeEof =>
    exact h.frame (.inl rfl) rfl rfl (.inl rfl) (fun _ hq => .inl hq) (fun _ hq => .inl hq)
      (fun _ hq => .inl hq) h.ended
  | setVersion version => exact h.world rfl
  | setSettings autoRun serve => exact h.world rfl
  | takeStdin => exact h.world rfl

structure SilentState (s : State) : Prop where
  basic : Basic s.sched
  fresh : Fresh s.world s.sched
  silent : SilentInv s.world s.sched

theorem silentState_step (s : State) (a : Action) (h : SilentState s)
    (ha : ((machine present).restrict Uninterrupted).enabled s a) : SilentState (next present s a) :=
  ⟨basic_step h.basic a ha.1, fresh_step h.fresh h.basic a ha.1,
    silentInv_step h.basic h.fresh h.silent a ha.1 ha.2⟩

/-- In every uninterrupted run, no event of a run is sent after `cancel_internal`
found it active. -/
theorem superseded_runs_are_silent {world : World} {language : Language} {s : State}
    (h : ((machine present).restrict Uninterrupted).Reaches (init world language) s) :
    SilentAfterCancel s.sched.history := by
  have hs : SilentState s := h.invariant silentState_step
    ⟨basic_new language, fresh_new world language, silentInv_new world language⟩
  exact hs.silent.silent

instance : DecidableRel Uninterrupted := fun s a => by
  simp only [Uninterrupted]
  infer_instance

/-- A run reports one event, which its forwarder takes up and checks. -/
def reportOnce : List Action :=
  .call 0 1 none false :: List.replicate 8 (.step (.external 0)) ++
    [.takeSlot 0, .runnerEvent 0 (.data "42"), .forward 0, .forward 0]

/-- The event is on its way out before the stop. -/
theorem superseded_runs_are_silent_after_send :
    ∃ s, ((machine allPresent).restrict Uninterrupted).Reaches openSession s ∧
      .sent (.runner 1 0 (.data "42")) ∈ s.sched.history ∧ .cancelled 0 ∈ s.sched.history ∧
      SilentAfterCancel s.sched.history := by
  obtain ⟨s, hs, hp⟩ := Machine.exists_reaches_of_exec
    (M := (machine allPresent).restrict Uninterrupted) (s := openSession)
    (l := reportOnce ++ [.forward 0, .forward 0, .stop])
    (p := fun s => .sent (.runner 1 0 (.data "42")) ∈ s.sched.history ∧
      .cancelled 0 ∈ s.sched.history) (by decide)
  simp only [decide_eq_true_eq] at hp
  exact ⟨s, hs, hp.1, hp.2, superseded_runs_are_silent hs⟩

/-- The stop falls between the forwarder's look at the slot and its send. -/
theorem event_after_cancel :
    ∃ s, (machine allPresent).Reaches openSession s ∧ ¬ SilentAfterCancel s.sched.history := by
  obtain ⟨s, hs, hp⟩ := Machine.exists_reaches_of_exec
    (M := machine allPresent) (s := openSession)
    (l := reportOnce ++ [.stop, .forward 0, .forward 0])
    (p := fun s => s.sched.history = [.request 0, .active 0 0, .invoked 0 0, .cancelled 0, .stop,
      .sent (.runner 1 0 (.data "42"))]) (by decide)
  refine ⟨s, hs, fun hall => ?_⟩
  rw [of_decide_eq_true hp] at hall
  exact hall [_, _, _, _, _] (.sent (.runner 1 0 (.data "42"))) [] rfl _ 0 rfl rfl (by decide)

end Atomis.Scheduler
