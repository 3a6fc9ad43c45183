import Atomis.Lib.History
import Atomis.SchedulerInvariant

/-!
# Stop and close

What a stop or a close bars for good: every run requested before it, and after
a close every run. It does so in every run in which it lands on no edit or
start that is under way, a run cancelled in the queue leaves it, and nothing is
asked of a closed scheduler.
-/

namespace Atomis.Scheduler
open History

/-- Request `n` came before a stop, or the scheduler has been closed. -/
def Barred (h : List Mark) (n : ℕ) : Prop := .close ∈ h ∨ Precedes (.request n) .stop h

/-- The request a run is started or invoked for. -/
def Mark.starts : Mark → Option ℕ
  | .active n _ | .invoked n _ => some n
  | _ => none

def StopsHold : List Mark → Prop :=
  Always fun before m => ∀ n, m.starts = some n → ¬ Barred before n

/-- Between its own cancellation of the previous run and the installation of its own. -/
def CallPc.superseding : CallPc → Bool
  | .takeFinished .. | .waitFinished .. | .recheckVersion .. | .setStdin .. | .install .. => true
  | _ => false

/-- A stop or a close lands on no call that is under way, a cancelled run never
takes the slot it waited for, and a closed scheduler is asked nothing. -/
def Undisturbed (s : State) : Action → Prop
  | .stop | .close => ∀ x, (s.sched.caller x).underWay = none
  | .takeSlot r => s.sched.cancelled r = false
  | .call .. | .edit .. => Mark.close ∉ s.sched.history
  | _ => True

/-- A mark that neither requests, stops nor starts anything. -/
def Mark.quiet : Mark → Bool
  | .cancelled _ | .sent _ => true
  | _ => false

theorem barred_append_singleton {h : List Mark} {m : Mark} {n : ℕ} :
    Barred (h ++ [m]) n ↔ Barred h n ∨ m = .close ∨ (m = .stop ∧ .request n ∈ h) := by
  simp only [Barred, precedes_append_singleton, List.mem_append, List.mem_singleton]
  grind

theorem barred_append_iff {h : List Mark} {m : Mark} (hstop : m ≠ .stop) (hclose : m ≠ .close)
    (n : ℕ) : Barred (h ++ [m]) n ↔ Barred h n := by
  simp [barred_append_singleton, hstop, hclose]

theorem stopsHold_append_of_starts {h : List Mark} {m : Mark} (hm : m.starts = none) :
    StopsHold (h ++ [m]) ↔ StopsHold h := by
  simp [StopsHold, always_append_singleton, hm]

structure StopInv (c : Sched) : Prop where
  underWay : ∀ x n, (c.caller x).underWay = some n → ¬ Barred c.history n
  pending : ∀ tag args, c.inner.debounce = some tag → c.caller (.timer tag) = .sleeping args →
    ¬ Barred c.history args.request
  queued : ∀ r, c.task r = .queued → c.cancelled r = false →
    c.inner.cancel = some r ∧ ¬ Barred c.history (c.request r)
  installed : ∀ x r, (c.caller x).installed = some r → c.cancelled r = false →
    c.inner.cancel = some r
  superseding : ∀ x, (c.caller x).superseding = true → c.inner.cancel = none
  numbered : ∀ n, .request n ∈ c.history → n < c.requests
  holds : StopsHold c.history

theorem stopInv_new (language : Language) : StopInv (new language) := by
  refine ⟨?_, ?_, ?_, ?_, ?_, ?_, always_nil _⟩ <;>
    simp [new, CallPc.underWay, CallPc.installed, CallPc.superseding, default,
      instInhabitedCallPc.default, instInhabitedTaskPc.default]

/-- A step of a run that starts nothing and touches no caller. -/
theorem StopInv.frame {c c' : Sched} (h : StopInv c) (hcaller : c'.caller = c.caller)
    (hdeb : c'.inner.debounce = c.inner.debounce) (hcancel : c'.inner.cancel = c.inner.cancel)
    (hcancelled : c'.cancelled = c.cancelled) (hruns : c'.runs = c.runs)
    (htask : ∀ r, c'.task r = .queued → c.task r = .queued) (hreq : c'.requests = c.requests)
    (hhist : c'.history = c.history ∨ ∃ m : Mark, m.quiet = true ∧ c'.history = c.history ++ [m]) :
    StopInv c' := by
  have hbar : ∀ n, Barred c'.history n ↔ Barred c.history n := by
    intro n
    rcases hhist with heq | ⟨m, hm, heq⟩
    · rw [heq]
    · rw [heq, barred_append_iff (by rintro rfl; cases hm) (by rintro rfl; cases hm)]
  have hnum : ∀ n, Mark.request n ∈ c'.history ↔ Mark.request n ∈ c.history := by
    intro n
    rcases hhist with heq | ⟨m, hm, heq⟩
    · rw [heq]
    · rw [heq, List.mem_append, List.mem_singleton]
      exact ⟨fun hmem => hmem.resolve_right (by rintro rfl; cases hm), .inl⟩
  have hholds : StopsHold c'.history := by
    rcases hhist with heq | ⟨m, hm, heq⟩
    · rw [heq]
      exact h.holds
    · rw [heq, stopsHold_append_of_starts (by cases m <;> simp_all [Mark.quiet, Mark.starts])]
      exact h.holds
  have hrequest : ∀ r, c'.request r = c.request r := fun r => by simp only [Sched.request, hruns]
  refine ⟨?_, ?_, fun r hr hr' => ?_, ?_, ?_, ?_, hholds⟩
  · simpa only [hcaller, hbar] using h.underWay
  · simpa only [hcaller, hdeb, hbar] using h.pending
  · rw [hcancel, hbar, hrequest]
    exact h.queued r (htask r hr) (by rwa [hcancelled] at hr')
  · simpa only [hcaller, hcancel, hcancelled] using h.installed
  · simpa only [hcaller, hcancel] using h.superseding
  · simpa only [hnum, hreq] using h.numbered

/-- A caller that moves on without installing a run or superseding one. -/
theorem StopInv.move {c : Sched} (h : StopInv c) {x : Caller} {p : CallPc}
    (hreq : ∀ n, p.underWay = some n → (c.caller x).underWay = some n)
    (hsleep : p.isSleeping = false)
    (hinst : ∀ r, p.installed = some r → (c.caller x).installed = some r)
    (hsup : p.superseding = true → (c.caller x).superseding = true) :
    StopInv (c.setCaller x p) := by
  obtain ⟨underWay, pending, queued, installed, superseding, numbered, holds⟩ := h
  refine ⟨?_, ?_, queued, ?_, ?_, numbered, holds⟩ <;>
    grind [Sched.setCaller, CallPc.isSleeping]

theorem cancelInternal_history (c : Sched) : (cancelInternal c).history = c.history ∨
    ∃ m : Mark, m.quiet = true ∧ (cancelInternal c).history = c.history ++ [m] := by
  simp only [cancelInternal]
  cases c.inner.activeRun with
  | none => exact .inl rfl
  | some r => exact .inr ⟨.cancelled r, rfl, rfl⟩

theorem barred_quiet {h h' : List Mark}
    (hh : h' = h ∨ ∃ m : Mark, m.quiet = true ∧ h' = h ++ [m]) (n : ℕ) :
    Barred h' n ↔ Barred h n := by
  rcases hh with rfl | ⟨m, hm, rfl⟩
  · rfl
  · exact barred_append_iff (by rintro rfl; cases hm) (by rintro rfl; cases hm) n

variable {present : Language → Bool} {w : World} {c : Sched}

/-- Everything that was pending or queued is cancelled. -/
theorem StopInv.cancelInternal (h : StopInv c) : StopInv (cancelInternal c) := by
  have hbar := barred_quiet (cancelInternal_history c)
  have hmem : ∀ n, Mark.request n ∈ (Scheduler.cancelInternal c).history →
      Mark.request n ∈ c.history := by
    intro n hn
    rcases cancelInternal_history c with heq | ⟨m, hm, heq⟩
    · rwa [heq] at hn
    · rw [heq, List.mem_append, List.mem_singleton] at hn
      exact hn.resolve_right (by rintro rfl; cases hm)
  have hholds : StopsHold (Scheduler.cancelInternal c).history := by
    rcases cancelInternal_history c with heq | ⟨m, hm, heq⟩
    · rw [heq]
      exact h.holds
    · rw [heq, stopsHold_append_of_starts (by cases m <;> simp_all [Mark.quiet, Mark.starts])]
      exact h.holds
  have htask : (Scheduler.cancelInternal c).task = c.task := rfl
  have hreq : (Scheduler.cancelInternal c).requests = c.requests := rfl
  have hrequest : ∀ r, (Scheduler.cancelInternal c).request r = c.request r := fun _ => rfl
  obtain ⟨underWay, pending, queued, installed, superseding, numbered, holds⟩ := h
  refine ⟨?_, ?_, ?_, ?_, ?_, ?_, hholds⟩ <;> grind [CallPc.underWay, CallPc.installed]

theorem StopInv.supersede (h : StopInv c) (hb : Basic c) {x : Caller} {args : Args}
    {target : Language} (hx : c.caller x = .supersede args target) :
    StopInv ((Scheduler.cancelInternal c).setCaller x (.takeFinished args target)) := by
  have hslot := hb.not_pending (x := x) (by rw [hx]; rfl)
  have hx' : (Scheduler.cancelInternal c).caller x = .supersede args target := by
    rw [cancelInternal_caller, if_neg hslot, hx]
  obtain ⟨underWay, pending, queued, installed, superseding, numbered, holds⟩ := h.cancelInternal
  refine ⟨?_, ?_, queued, ?_, ?_, numbered, holds⟩ <;>
    grind [Sched.setCaller, CallPc.underWay, CallPc.installed]

theorem StopInv.newRequest (h : StopInv c) (hopen : Mark.close ∉ c.history) {k : ℕ}
    {p : ℕ → CallPc} (hreq : ∀ n, (p n).underWay = some n)
    (hinst : ∀ n, (p n).installed = none) (hsup : ∀ n, (p n).superseding = false) :
    StopInv (c.newRequest k p) := by
  have hbar : ∀ n, Barred (c.newRequest k p).history n ↔ Barred c.history n :=
    barred_append_iff (by simp) (by simp)
  have hnew : ¬ Barred c.history c.requests := by
    rintro (hclose | hstop)
    · exact hopen hclose
    · exact absurd (h.numbered c.requests (hstop.subset (by simp))) (Nat.lt_irrefl _)
  have hcaller : ∀ y, (c.newRequest k p).caller y =
      if y = .external k then p c.requests else c.caller y :=
    setCaller_caller c (.external k) (p c.requests)
  obtain ⟨underWay, pending, queued, installed, superseding, numbered, holds⟩ := h
  refine ⟨?_, ?_, ?_, ?_, ?_, fun n hn => ?_, (stopsHold_append_of_starts rfl).mpr holds⟩
  · grind
  · intro tag args hdeb htag
    rw [hcaller, if_neg (by simp)] at htag
    rw [hbar]
    exact pending tag args hdeb htag
  · intro r hr hr'
    rw [hbar]
    exact queued r hr hr'
  · intro x r hx
    rw [hcaller] at hx
    split_ifs at hx
    · simp [hinst] at hx
    · exact installed x r hx
  · intro x hx
    rw [hcaller] at hx
    split_ifs at hx
    · simp [hsup] at hx
    · exact superseding x hx
  · rcases List.mem_append.mp hn with hn | hn
    · exact Nat.lt_succ_of_lt (numbered n hn)
    · obtain rfl : n = c.requests := by simpa using hn
      exact Nat.lt_succ_self _

theorem StopInv.arm (h : StopInv c) {x : Caller} {args : Args} (hx : c.caller x = .arm args) :
    StopInv { (c.setCaller x .idle).setCaller (.timer (c.inner.debounceSeq + 1)) (.sleeping args) with
      inner := { c.inner with
        debounceSeq := c.inner.debounceSeq + 1
        debounce := some (c.inner.debounceSeq + 1) } } := by
  obtain ⟨underWay, pending, queued, installed, superseding, numbered, holds⟩ := h
  have hn := underWay x args.request (by rw [hx]; rfl)
  refine ⟨?_, ?_, queued, ?_, ?_, numbered, holds⟩ <;>
    grind [Sched.setCaller, CallPc.underWay, CallPc.installed, CallPc.superseding]

theorem StopInv.wake (h : StopInv c) {x : Caller} {args : Args}
    (hx : c.caller x = .sleeping args) (hslot : c.inner.debounce.map Caller.timer = some x) :
    StopInv { c.setCaller x (.lockStart args) with inner := { c.inner with debounce := none } } := by
  obtain ⟨tag, hdeb, rfl⟩ := Option.map_eq_some_iff.mp hslot
  obtain ⟨underWay, pending, queued, installed, superseding, numbered, holds⟩ := h
  have hn := pending tag args hdeb hx
  refine ⟨?_, ?_, queued, ?_, ?_, numbered, holds⟩ <;>
    grind [Sched.setCaller, CallPc.underWay, CallPc.installed, CallPc.superseding]

theorem CallPc.holding_of_superseding {pc : CallPc} (h : pc.superseding = true) :
    pc.holding = true := by
  cases pc <;> simp_all [CallPc.superseding, CallPc.holding]

/-- The run becomes the active one: no other is queued and uncancelled. -/
theorem StopInv.install (h : StopInv c) (hb : Basic c) {x : Caller} {args : Args}
    {target : Language} {r : ℕ} (hx : c.caller x = .install args target r) {pc : CallPc}
    (hpc : pc = .announce args target r ∨ pc = .spawn args target r) {inner : Inner}
    (hdeb : inner.debounce = c.inner.debounce) (hcancel : inner.cancel = some r) :
    StopInv { (c.mark (.active args.request r)).setCaller x pc with inner := inner } := by
  have hn : ¬ Barred c.history args.request := h.underWay x args.request (by rw [hx]; rfl)
  have hnone : c.inner.cancel = none := h.superseding x (by rw [hx]; rfl)
  have hhold : (c.caller x).holding = true := by rw [hx]; rfl
  have hbar : ∀ n, Barred (c.history ++ [.active args.request r]) n ↔ Barred c.history n :=
    barred_append_iff (by simp) (by simp)
  have hcaller : ∀ y, ((c.mark (.active args.request r)).setCaller x pc).caller y =
      if y = x then pc else c.caller y := setCaller_caller _ x pc
  have hinst : pc.installed = some r := by rcases hpc with rfl | rfl <;> rfl
  have hreq : pc.underWay = some args.request := by rcases hpc with rfl | rfl <;> rfl
  have hsup : pc.superseding = false := by rcases hpc with rfl | rfl <;> rfl
  refine ⟨fun y n hy => ?_, fun tag args' hd ht => ?_, fun q hq hq' => ?_, fun y q hy hq => ?_,
    fun y hy => ?_, fun n hm => ?_, ?_⟩
  · change (((c.mark _).setCaller x pc).caller y).underWay = some n at hy
    show ¬ Barred (c.history ++ [_]) n
    rw [hbar]
    rw [hcaller] at hy
    split_ifs at hy
    · obtain rfl : args.request = n := by simpa [hreq] using hy
      exact hn
    · exact h.underWay y n hy
  · change ((c.mark _).setCaller x pc).caller (.timer tag) = .sleeping args' at ht
    show ¬ Barred (c.history ++ [_]) args'.request
    rw [hbar]
    rw [hcaller] at ht
    split_ifs at ht
    · rcases hpc with rfl | rfl <;> cases ht
    · exact h.pending tag args' (hdeb ▸ hd) ht
  · have := (h.queued q hq hq').1
    rw [hnone] at this
    cases this
  · change (((c.mark _).setCaller x pc).caller y).installed = some q at hy
    rw [hcaller] at hy
    split_ifs at hy with heq
    · obtain rfl : r = q := by simpa [hinst] using hy
      exact hcancel
    · exact absurd (hb.unique (CallPc.holding_of_installed hy) hhold) heq
  · change (((c.mark _).setCaller x pc).caller y).superseding = true at hy
    rw [hcaller] at hy
    split_ifs at hy with heq
    · rw [hsup] at hy
      cases hy
    · exact absurd (hb.unique (CallPc.holding_of_superseding hy) hhold) heq
  · refine h.numbered n ?_
    rcases List.mem_append.mp hm with hm | hm
    · exact hm
    · simp at hm
  · refine always_append_singleton.mpr ⟨h.holds, fun n hm => ?_⟩
    obtain rfl : args.request = n := by simpa [Mark.starts] using hm
    exact hn

theorem StopInv.spawn (h : StopInv c) {x : Caller} {args : Args} {target : Language} {r : ℕ}
    (hx : c.caller x = .spawn args target r) {watcher : Table ℕ WatcherPc} :
    StopInv { (c.endStart x).setTask r .queued with
      runs := c.runs.set r (some ⟨args, target⟩)
      watcher := watcher } := by
  have hn : ¬ Barred c.history args.request := h.underWay x args.request (by rw [hx]; rfl)
  have hmine : c.cancelled r = false → c.inner.cancel = some r :=
    h.installed x r (by rw [hx]; rfl)
  obtain ⟨underWay, pending, queued, installed, superseding, numbered, holds⟩ := h
  refine ⟨?_, ?_, fun q hq hq' => ?_, ?_, ?_, numbered, holds⟩
  · grind [Sched.endStart, Sched.setTask, Sched.setCaller, CallPc.underWay]
  · grind [Sched.endStart, Sched.setTask, Sched.setCaller]
  · by_cases hqr : q = r
    · subst hqr
      refine ⟨hmine hq', ?_⟩
      simpa [Sched.request, Sched.setTask, Sched.endStart, Sched.setCaller] using hn
    · have hold := queued q (by simpa [Sched.setTask, Sched.endStart, Sched.setCaller, hqr] using hq)
        hq'
      simpa [Sched.request, Sched.setTask, Sched.endStart, Sched.setCaller, hqr] using hold
  · grind [Sched.endStart, Sched.setTask, Sched.setCaller, CallPc.installed]
  · grind [Sched.endStart, Sched.setTask, Sched.setCaller, CallPc.superseding]

theorem StopInv.takeSlot (h : StopInv c) {r : ℕ} (hr : c.task r = .queued)
    (hlive : c.cancelled r = false) :
    StopInv ((c.setTask r .running).mark (.invoked (c.request r) r)) := by
  have hn := (h.queued r hr hlive).2
  have hbar : ∀ n, Barred (c.history ++ [.invoked (c.request r) r]) n ↔ Barred c.history n :=
    barred_append_iff (by simp) (by simp)
  refine ⟨fun x n hx => ?_, fun tag args hd ht => ?_, fun q hq hq' => ?_, h.installed,
    h.superseding, fun n hm => ?_, ?_⟩
  · exact fun hbad => h.underWay x n hx ((hbar n).mp hbad)
  · exact fun hbad => h.pending tag args hd ht ((hbar _).mp hbad)
  · have hqr : q ≠ r := by
      rintro rfl
      simp [Sched.setTask, Sched.mark] at hq
    obtain ⟨hcancel, hold⟩ := h.queued q (by simpa [Sched.setTask, Sched.mark, hqr] using hq) hq'
    exact ⟨hcancel, fun hbad => hold ((hbar _).mp hbad)⟩
  · refine h.numbered n ?_
    rcases List.mem_append.mp hm with hm | hm
    · exact hm
    · simp at hm
  · refine always_append_singleton.mpr ⟨h.holds, fun n hm => ?_⟩
    obtain rfl : c.request r = n := by simpa [Mark.starts] using hm
    exact hn

/-- With no call under way, a stop leaves nothing that could still start. -/
theorem StopInv.stop (h : StopInv c) {m : Mark} (hm : m = .stop ∨ m = .close)
    (hcalm : ∀ x, (c.caller x).underWay = none) : StopInv ((Scheduler.cancelInternal c).mark m) := by
  have hcaller : ∀ x, ((Scheduler.cancelInternal c).caller x).underWay = none := by
    intro x
    rw [cancelInternal_caller]
    split_ifs
    · rfl
    · exact hcalm x
  have hstarts : m.starts = none := by rcases hm with rfl | rfl <;> rfl
  have hc := h.cancelInternal
  refine ⟨fun x n hx => ?_, fun tag args hd => ?_, fun q hq hq' => ?_, hc.installed,
    hc.superseding, fun n hn => ?_, (stopsHold_append_of_starts hstarts).mpr hc.holds⟩
  · have := hcaller x
    rw [show ((Scheduler.cancelInternal c).caller x).underWay = some n from hx] at this
    cases this
  · cases hd
  · have := (hc.queued q hq hq').1
    cases this
  · refine hc.numbered n ?_
    rcases List.mem_append.mp hn with hn | hn
    · exact hn
    · rcases hm with rfl | rfl <;> simp at hn

/-- The slot of a run that is past the queue is emptied. -/
theorem StopInv.release (h : StopInv c) (hb : Basic c) {r : ℕ} (hr : c.inner.activeRun = some r)
    (hpast : c.task r ≠ .queued) (hborn : ∀ x, (c.caller x).installed ≠ some r) {c' : Sched}
    (hcaller : c'.caller = c.caller) (hdeb : c'.inner.debounce = c.inner.debounce)
    (hcancel : c'.inner.cancel = none) (hcancelled : c'.cancelled = c.cancelled)
    (htask : ∀ q, c'.task q = .queued → c.task q = .queued)
    (hreq : c'.requests = c.requests) (hhist : c'.history = c.history) : StopInv c' := by
  have hslot : c.inner.cancel = some r := hb.paired.trans hr
  refine ⟨?_, ?_, fun q hq hq' => ?_, fun x q hx hq => ?_, fun _ _ => hcancel, ?_, ?_⟩
  · simpa only [hcaller, hhist] using h.underWay
  · simpa only [hcaller, hdeb, hhist] using h.pending
  · have hold := (h.queued q (htask q hq) (by rwa [hcancelled] at hq')).1
    obtain rfl : r = q := by simpa [hslot] using hold
    exact absurd (htask r hq) hpast
  · rw [hcaller] at hx
    have hold := h.installed x q hx (by rwa [hcancelled] at hq)
    obtain rfl : r = q := by simpa [hslot] using hold
    exact absurd hx (hborn x)
  · simpa only [hhist, hreq] using h.numbered
  · rw [hhist]
    exact h.holds

theorem StopInv.send (h : StopInv c) (event : Event) : StopInv (c.send event) :=
  h.frame rfl rfl rfl rfl rfl (fun _ hr => hr) rfl (.inr ⟨_, rfl, rfl⟩)

/-- A caller that returns or goes back to sleep leaves nothing behind. -/
theorem StopInv.endStart (h : StopInv c) (x : Caller) : StopInv (c.endStart x) :=
  (h.move (x := x) (p := .idle) (fun n hn => by cases hn) rfl (fun r hr => by cases hr)
    (fun hs => by cases hs)).frame rfl rfl rfl rfl rfl (fun _ hr => hr) rfl (.inl rfl)

theorem stopInv_stepCaller (h : StopInv c) (hb : Basic c) (x : Caller) :
    StopInv (stepCaller present w c x).2 := by
  cases hx : c.caller x with
  | idle => simpa only [stepCaller, hx] using h
  | cancelEdit language n =>
    have hslot := hb.not_pending (x := x) (by rw [hx]; rfl)
    simp only [stepCaller, hx]
    refine h.cancelInternal.move (fun m hm => ?_) rfl (fun r hr => by cases hr) (fun hs => by cases hs)
    rw [cancelInternal_caller, if_neg hslot, hx]
    exact hm
  | readVersion language n =>
    simp only [stepCaller, hx]
    exact h.move (fun m hm => by rw [hx]; exact hm) rfl (fun r hr => by cases hr)
      (fun hs => by cases hs)
  | readSettings language n version =>
    simp only [stepCaller, hx]
    split_ifs
    · refine (h.send _).move (fun m hm => ?_) rfl (fun r hr => by cases hr) (fun hs => by cases hs)
      show (c.caller x).underWay = some m
      rw [hx]
      exact hm
    · exact (h.send _).move (fun m hm => by cases hm) rfl (fun r hr => by cases hr)
        (fun hs => by cases hs)
  | arm args => simpa only [stepCaller, hx] using h.arm hx
  | sleeping args =>
    simp only [stepCaller, hx]
    split_ifs with hslot
    · exact h.wake hx hslot
    · exact h.move (fun m hm => by cases hm) rfl (fun r hr => by cases hr) (fun hs => by cases hs)
  | lockStart args =>
    simp only [stepCaller, hx]
    exact (h.move (x := x) (p := .checkVersion args) (fun m hm => by rw [hx]; exact hm) rfl
      (fun r hr => by cases hr) (fun hs => by cases hs)).frame rfl rfl rfl rfl rfl
        (fun _ hr => hr) rfl (.inl rfl)
  | checkVersion args =>
    simp only [stepCaller, hx]
    split_ifs
    · exact h.move (fun m hm => by rw [hx]; exact hm) rfl (fun r hr => by cases hr)
        (fun hs => by cases hs)
    · exact h.endStart x
  | chooseTarget args =>
    simp only [stepCaller, hx]
    split_ifs
    · exact h.move (fun m hm => by rw [hx]; exact hm) rfl (fun r hr => by cases hr)
        (fun hs => by cases hs)
    · exact (h.send _).endStart x
  | supersede args target =>
    simp only [stepCaller, hx]
    exact h.supersede hb hx
  | takeFinished args target =>
    simp only [stepCaller, hx]
    cases c.inner.finished with
    | none =>
      exact (h.move (x := x) (p := .setStdin args target) (fun m hm => by rw [hx]; exact hm) rfl
        (fun r hr => by cases hr) (fun _ => by rw [hx]; rfl)).frame rfl rfl rfl rfl rfl
          (fun _ hr => hr) rfl (.inl rfl)
    | some previous =>
      exact (h.move (x := x) (p := .waitFinished args target previous)
        (fun m hm => by rw [hx]; exact hm) rfl (fun r hr => by cases hr)
        (fun _ => by rw [hx]; rfl)).frame rfl rfl rfl rfl rfl (fun _ hr => hr) rfl (.inl rfl)
  | waitFinished args target previous =>
    simp only [stepCaller, hx]
    exact h.move (fun m hm => by rw [hx]; exact hm) rfl (fun r hr => by cases hr)
      (fun _ => by rw [hx]; rfl)
  | recheckVersion args target =>
    simp only [stepCaller, hx]
    split_ifs
    · exact h.move (fun m hm => by rw [hx]; exact hm) rfl (fun r hr => by cases hr)
        (fun _ => by rw [hx]; rfl)
    · exact h.endStart x
  | setStdin args target =>
    simp only [stepCaller, hx]
    exact h.move (fun m hm => by rw [hx]; exact hm) rfl (fun r hr => by cases hr)
      (fun _ => by rw [hx]; rfl)
  | install args target r =>
    simp only [stepCaller, hx]
    refine h.install hb hx ?_ rfl rfl
    split_ifs
    · exact .inl rfl
    · exact .inr rfl
  | announce args target r =>
    simp only [stepCaller, hx]
    refine (h.send _).move (fun m hm => ?_) rfl (fun q hq => ?_) (fun hs => by cases hs)
    · show (c.caller x).underWay = some m
      rw [hx]
      exact hm
    · show (c.caller x).installed = some q
      rw [hx]
      exact hq
  | spawn args target r =>
    simp only [stepCaller, hx]
    exact h.spawn hx

/-- Moving a run's task along, anywhere but into the queue. -/
theorem StopInv.setTask (h : StopInv c) (r : ℕ) {p : TaskPc} (hpc : p ≠ .queued) :
    StopInv (c.setTask r p) := by
  refine h.frame rfl rfl rfl rfl rfl (fun q hq => ?_) rfl (.inl rfl)
  by_cases hqr : q = r
  · rw [hqr] at hq
    exact absurd (by simpa [Sched.setTask] using hq) hpc
  · simpa [Sched.setTask, hqr] using hq

theorem stopInv_stepTask (h : StopInv c) (hb : Basic c) (hf : Fresh w c) (r : ℕ) :
    StopInv (stepTask w c r) := by
  cases hr : c.task r with
  | checking outcome =>
    simp only [stepTask, hr]
    split_ifs <;> exact h.setTask r (by simp)
  | checkingVersion outcome =>
    simp only [stepTask, hr]
    split_ifs <;> exact h.setTask r (by simp)
  | reporting outcome =>
    cases outcome with
    | some state =>
      simp only [stepTask, hr]
      exact (h.send _).setTask r (by simp)
    | none =>
      simp only [stepTask, hr]
      split
      · exact (h.send _).setTask r (by simp)
      · exact h.setTask r (by simp)
  | finishing =>
    simp only [stepTask, hr]
    exact (h.send _).setTask r (by simp)
  | cleaning =>
    simp only [stepTask, hr]
    have hend := h.setTask (r := r) (p := .ended false) (by simp)
    split_ifs with hact
    · refine h.release hb hact (by simp [hr]) (fun x hx => ?_) rfl rfl rfl rfl (fun q hq => ?_) rfl rfl
      · have := (hf.starting x r (CallPc.run_of_installed hx)).2
        simp [hr] at this
      · by_cases hqr : q = r
        · simp [Sched.setTask, hqr] at hq
        · simpa [Sched.setTask, hqr] using hq
    · exact hend
  | _ => simpa only [stepTask, hr] using h

theorem stopInv_stepWatchdog (h : StopInv c) (hb : Basic c) (hf : Fresh w c) {r : ℕ}
    (hr : (c.task r).isEnded = true) : StopInv (stepWatchdog c r) := by
  simp only [stepWatchdog]
  split
  · exact h.frame rfl rfl rfl rfl rfl (fun _ hq => hq) rfl (.inl rfl)
  · split_ifs with hact
    · refine h.release hb hact (fun hq => ?_) (fun x hx => ?_) rfl rfl rfl rfl (fun _ hq => hq) rfl rfl
      · rw [hq] at hr
        cases hr
      · rw [(hf.starting x r (CallPc.run_of_installed hx)).2] at hr
        cases hr
    · exact h.frame rfl rfl rfl rfl rfl (fun _ hq => hq) rfl (.inl rfl)
  · exact ((h.send _).send _).frame rfl rfl rfl rfl rfl (fun _ hq => hq) rfl (.inl rfl)
  · exact h

theorem stopInv_stepWatcher (h : StopInv c) (r : ℕ) : StopInv (stepWatcher c r) := by
  simp only [stepWatcher]
  split
  · exact h
  · exact h.frame rfl rfl rfl rfl rfl (fun _ hq => hq) rfl (.inl rfl)
  · exact h.cancelInternal.frame rfl rfl rfl rfl rfl (fun _ hq => hq) rfl (.inl rfl)
  · exact ((h.send _).send _).frame rfl rfl rfl rfl rfl (fun _ hq => hq) rfl (.inl rfl)

theorem stopInv_stepForward (h : StopInv c) (r : ℕ) : StopInv (stepForward w c r) := by
  simp only [stepForward]
  split
  · split <;> exact h.frame rfl rfl rfl rfl rfl (fun _ hq => hq) rfl (.inl rfl)
  · exact h.frame rfl rfl rfl rfl rfl (fun _ hq => hq) rfl (.inl rfl)
  · exact h.frame rfl rfl rfl rfl rfl (fun _ hq => hq) rfl (.inl rfl)
  · exact (h.send _).frame rfl rfl rfl rfl rfl (fun _ hq => hq) rfl (.inl rfl)

structure StopState (s : State) : Prop where
  basic : Basic s.sched
  fresh : Fresh s.world s.sched
  stop : StopInv s.sched

theorem stopInv_step {s : State} (h : StopState s) (a : Action) (ha : enabled s a)
    (hok : Undisturbed s a) : StopInv (next present s a).sched := by
  obtain ⟨hb, hf, hs⟩ := h
  cases a with
  | call k version language interactive =>
    exact hs.newRequest hok (p := fun n => .lockStart ⟨version, language, interactive, n⟩)
      (fun _ => rfl) (fun _ => rfl) (fun _ => rfl)
  | edit k language =>
    exact hs.newRequest hok (p := .cancelEdit language) (fun _ => rfl) (fun _ => rfl) (fun _ => rfl)
  | stop => exact hs.stop (.inl rfl) hok
  | close => exact hs.stop (.inr rfl) hok
  | step x => exact stopInv_stepCaller hs hb x
  | graceElapsed x =>
    simp only [next]
    split
    · next args target previous hx =>
      exact (hs.move (x := x) (p := .recheckVersion args target) (fun m hm => by rw [hx]; exact hm)
        rfl (fun r hr => by cases hr) (fun _ => by rw [hx]; rfl)).frame rfl rfl rfl rfl rfl
          (fun _ hr => hr) rfl (.inl rfl)
    · exact hs
  | takeSlot r => exact hs.takeSlot ha hok
  | leaveQueue r => exact hs.setTask r (by simp)
  | runnerReturn r outcome => exact hs.setTask r (by simp)
  | panic r => exact hs.setTask r (by simp)
  | drained r =>
    simp only [next]
    split
    · exact hs.setTask r (by simp)
    · exact hs
  | task r => exact stopInv_stepTask hs hb hf r
  | forward r => exact stopInv_stepForward hs r
  | watchdog r => exact stopInv_stepWatchdog hs hb hf ha.1
  | watch r => exact stopInv_stepWatcher hs r
  | _ => exact hs.frame rfl rfl rfl rfl rfl (fun _ hr => hr) rfl (.inl rfl)

theorem stopState_step (s : State) (a : Action) (h : StopState s)
    (ha : ((machine present).restrict Undisturbed).enabled s a) :
    StopState (next present s a) :=
  ⟨basic_step h.basic a ha.1, fresh_step h.fresh h.basic a ha.1, stopInv_step h a ha.1 ha.2⟩

/-- In every undisturbed run, nothing requested before a stop becomes the active
run or reaches the runner after it, and nothing at all does after a close. -/
theorem stops_are_final {world : World} {language : Language} {s : State}
    (h : ((machine present).restrict Undisturbed).Reaches (init world language) s) :
    StopsHold s.sched.history := by
  have hs : StopState s := h.invariant stopState_step
    ⟨basic_new language, fresh_new world language, stopInv_new language⟩
  exact hs.stop.holds

instance (s : State) : Decidable (∀ x, (s.sched.caller x).underWay = none) :=
  decidable_of_iff _ (s.sched.caller.forall_get_iff (p := fun _ pc => pc.underWay = none) fun _ => rfl).symm

instance : DecidableRel Undisturbed := fun s a =>
  match a with
  | .stop | .close => inferInstanceAs (Decidable (∀ x, (s.sched.caller x).underWay = none))
  | .takeSlot r => inferInstanceAs (Decidable (s.sched.cancelled r = false))
  | .call .. | .edit .. => inferInstanceAs (Decidable (Mark.close ∉ s.sched.history))
  | .step _ | .graceElapsed _ | .leaveQueue _ | .runnerEvent .. | .runnerReturn .. | .drained _
  | .task _ | .panic _ | .forward _ | .watchdog _ | .watch _ | .watchEnds _ | .writeEof
  | .setVersion _ | .setSettings .. | .takeStdin => .isTrue trivial

/-- An edit arms the pending run, and its timer carries it as far as `supersede`. -/
def editUntilSuperseded : List Action :=
  [.edit 0 none, .step (.external 0), .step (.external 0), .step (.external 0), .step (.external 0),
    .step (.timer 1), .step (.timer 1), .step (.timer 1), .step (.timer 1), .step (.timer 1)]

/-- The pending run of an edit is stopped before its timer fires, and a run
requested afterwards goes through to the runner. -/
def stopThenRun : List Action :=
  editUntilSuperseded.take 5 ++ [.stop, .call 0 1 none false] ++ List.replicate 8 (.step (.external 0))
    ++ [.takeSlot 0]

theorem stops_are_final_then_run :
    ∃ s, ((machine allPresent).restrict Undisturbed).Reaches openSession s ∧
      Precedes (.request 0) .stop s.sched.history ∧ .invoked 1 0 ∈ s.sched.history ∧
      StopsHold s.sched.history := by
  obtain ⟨s, hs, hp⟩ := Machine.exists_reaches_of_exec
    (M := (machine allPresent).restrict Undisturbed) (s := openSession) (l := stopThenRun)
    (p := fun s => Precedes (.request 0) .stop s.sched.history ∧ .invoked 1 0 ∈ s.sched.history)
    (by decide)
  simp only [decide_eq_true_eq] at hp
  exact ⟨s, hs, hp.1, hp.2, stops_are_final hs⟩

/-- Stop lands between a start's own cancellation and its installation: the run
of the edit before it becomes the active one all the same. -/
theorem stop_misses_a_start :
    ∃ s, (machine allPresent).Reaches openSession s ∧ ¬ StopsHold s.sched.history := by
  obtain ⟨s, hs, hp⟩ := Machine.exists_reaches_of_exec
    (M := machine allPresent) (s := openSession)
    (l := editUntilSuperseded ++ [.stop] ++ List.replicate 3 (.step (.timer 1)))
    (p := fun s => s.sched.history =
      [.request 0, .sent (.runState 1 none .debouncing), .stop, .active 0 0]) (by decide)
  refine ⟨s, hs, fun hall => ?_⟩
  rw [of_decide_eq_true hp] at hall
  exact hall [_, _, _] (.active 0 0) [] rfl 0 rfl (.inr (by decide))

end Atomis.Scheduler
