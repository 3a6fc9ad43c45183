import Atomis.SchedulerInvariant

/-!
# The idle watcher and its own server

A watcher looks at the active run, lets the lock go, and then cancels whatever
is current and announces it without a run id. It stops nothing but its own run
in every run in which no start installs and no edit arms while a watcher is
past its look, and no watcher looks while a timer is pending.
-/

namespace Atomis.Scheduler

/-- Past the look at the active run, with the cancellation or the announcement to come. -/
def WatcherPc.looked : WatcherPc → Bool
  | .firing | .announcing => true
  | _ => false

/-- The watcher of run `r` cancels no token but `r`'s and no pending timer, and
what it announces is not said of another run or of a pending one. -/
structure MindsOwn (s : State) (r : ℕ) : Prop where
  tokens : s.sched.watcher r = .firing →
    ∀ q, q ≠ r → (stepWatcher s.sched r).cancelled q = s.sched.cancelled q
  timers : s.sched.watcher r = .firing →
    ∀ x, (stepWatcher s.sched r).caller x = s.sched.caller x
  active : s.sched.watcher r = .announcing → ∀ q, s.sched.inner.activeRun = some q → q = r
  pending : s.sched.watcher r = .announcing → s.sched.inner.debounce = none

/-- Nothing new becomes current in a watcher's window, and none opens over a pending timer. -/
def OutsideWindow (s : State) : Action → Prop
  | .step x => match s.sched.caller x with
    | .arm _ | .install .. => ∀ r, (s.sched.watcher r).looked = false
    | _ => True
  | .watch r => s.sched.watcher r = .watching → s.sched.inner.activeRun = some r →
      s.sched.inner.debounce = none
  | _ => True

instance (c : Sched) : Decidable (∀ r, (c.watcher r).looked = false) :=
  decidable_of_iff (∀ e ∈ c.watcher.writes, (c.watcher e.1).looked = false)
    (c.watcher.forall_get_iff (p := fun _ pc => pc.looked = false) fun _ => rfl).symm

/-- The step that follows makes a timer or a run current. -/
def CallPc.makesCurrent : CallPc → Bool
  | .arm _ | .install .. => true
  | _ => false

theorem outsideWindow_step (s : State) (x : Caller) :
    ((s.sched.caller x).makesCurrent = true → ∀ r, (s.sched.watcher r).looked = false) ↔
      OutsideWindow s (.step x) := by
  simp only [OutsideWindow]
  cases s.sched.caller x <;> simp [CallPc.makesCurrent]

instance : DecidableRel OutsideWindow := fun s a =>
  match a with
  | .step x => decidable_of_iff _ (outsideWindow_step s x)
  | .watch r => inferInstanceAs (Decidable (s.sched.watcher r = .watching →
      s.sched.inner.activeRun = some r → s.sched.inner.debounce = none))
  | .call .. | .edit .. | .stop | .close | .graceElapsed _ | .takeSlot _ | .leaveQueue _
  | .runnerEvent .. | .runnerReturn .. | .drained _ | .task _ | .panic _ | .forward _
  | .watchdog _ | .watchEnds _ | .writeEof | .setVersion _ | .setSettings .. | .takeStdin =>
    .isTrue trivial

structure WatchInv (c : Sched) : Prop where
  active : ∀ r, (c.watcher r).looked = true → ∀ q, c.inner.activeRun = some q → q = r
  pending : ∀ r, (c.watcher r).looked = true → c.inner.debounce = none

theorem watchInv_new (language : Language) : WatchInv (new language) := by
  constructor <;> simp [new]

variable {present : Language → Bool} {w : World} {c c' : Sched}

/-- A step that opens no window and makes nothing current. -/
theorem WatchInv.frame (h : WatchInv c)
    (hwatch : ∀ r, (c'.watcher r).looked = true → (c.watcher r).looked = true)
    (hactive : c'.inner.activeRun = none ∨ c'.inner.activeRun = c.inner.activeRun)
    (hdeb : c'.inner.debounce = none ∨ c'.inner.debounce = c.inner.debounce) : WatchInv c' where
  active r hr q hq := by
    rcases hactive with hnone | hsame
    · rw [hnone] at hq
      cases hq
    · exact h.active r (hwatch r hr) q (hsame ▸ hq)
  pending r hr := by
    rcases hdeb with hnone | hsame
    · exact hnone
    · exact hsame.trans (h.pending r (hwatch r hr))

theorem WatchInv.same (h : WatchInv c) (hwatch : c'.watcher = c.watcher)
    (hactive : c'.inner.activeRun = none ∨ c'.inner.activeRun = c.inner.activeRun)
    (hdeb : c'.inner.debounce = none ∨ c'.inner.debounce = c.inner.debounce) : WatchInv c' :=
  h.frame (fun _ hr => by rwa [hwatch] at hr) hactive hdeb

/-- No watcher is past its look. -/
theorem watchInv_of_quiet (h : ∀ r, (c.watcher r).looked = false) : WatchInv c := by
  constructor <;> intro r hr <;> rw [h r] at hr <;> cases hr

theorem watchInv_stepCaller (h : WatchInv c) {x : Caller}
    (hok : OutsideWindow ⟨w, c⟩ (.step x)) : WatchInv (stepCaller present w c x).2 := by
  cases hx : c.caller x with
  | arm | install =>
    simp only [OutsideWindow, hx] at hok
    simp only [stepCaller, hx]
    exact watchInv_of_quiet hok
  | cancelEdit | supersede =>
    simp only [stepCaller, hx]
    exact h.same rfl (.inl rfl) (.inl rfl)
  | sleeping args =>
    simp only [stepCaller, hx]
    split_ifs
    · exact h.same rfl (.inr rfl) (.inl rfl)
    · exact h.same rfl (.inr rfl) (.inr rfl)
  | readSettings | checkVersion | chooseTarget | recheckVersion =>
    simp only [stepCaller, hx]
    split_ifs <;> exact h.same rfl (.inr rfl) (.inr rfl)
  | spawn args target r =>
    simp only [stepCaller, hx]
    refine h.frame (fun q hq => ?_) (.inr rfl) (.inr rfl)
    split_ifs at hq
    · change (((c.watcher.set r .watching) q).looked) = true at hq
      rw [Table.set_get] at hq
      split_ifs at hq
      · cases hq
      · exact hq
    · exact hq
  | _ =>
    simp only [stepCaller, hx]
    exact h.same rfl (.inr rfl) (.inr rfl)

theorem watchInv_stepWatcher (h : WatchInv c) {r : ℕ} (hok : OutsideWindow ⟨w, c⟩ (.watch r)) :
    WatchInv (stepWatcher c r) := by
  cases hr : c.watcher r with
  | off => simpa only [stepWatcher, hr] using h
  | watching =>
    simp only [stepWatcher, hr]
    split_ifs with hactive
    · -- The look: the only step that opens a window.
      refine ⟨fun q hq p hp => ?_, fun q hq => ?_⟩
      · rw [Table.set_get] at hq
        split_ifs at hq with hqr
        · exact (Option.some.inj (hactive.symm.trans hp)).symm.trans hqr.symm
        · exact h.active q hq p hp
      · exact hok hr hactive
    · refine h.frame (fun q hq => ?_) (.inr rfl) (.inr rfl)
      rw [Table.set_get] at hq
      split_ifs at hq
      · cases hq
      · exact hq
  | firing =>
    simp only [stepWatcher, hr]
    exact ⟨fun q _ p hp => (by cases hp), fun q _ => rfl⟩
  | announcing =>
    simp only [stepWatcher, hr]
    refine h.frame (fun q hq => ?_) (.inr rfl) (.inr rfl)
    rw [Table.set_get] at hq
    split_ifs at hq
    · cases hq
    · exact hq

theorem watchInv_stepTask (h : WatchInv c) (r : ℕ) : WatchInv (stepTask w c r) := by
  cases hr : c.task r with
  | checking | checkingVersion =>
    simp only [stepTask, hr]
    split_ifs <;> exact h.same rfl (.inr rfl) (.inr rfl)
  | reporting outcome =>
    cases outcome with
    | some state =>
      simp only [stepTask, hr]
      exact h.same rfl (.inr rfl) (.inr rfl)
    | none =>
      simp only [stepTask, hr]
      split <;> exact h.same rfl (.inr rfl) (.inr rfl)
  | cleaning =>
    simp only [stepTask, hr]
    split_ifs
    · exact h.same rfl (.inl rfl) (.inr rfl)
    · exact h.same rfl (.inr rfl) (.inr rfl)
  | _ =>
    simp only [stepTask, hr]
    exact h.same rfl (.inr rfl) (.inr rfl)

theorem watchInv_step (s : State) (a : Action) (h : WatchInv s.sched)
    (ha : ((machine present).restrict OutsideWindow).enabled s a) :
    WatchInv (next present s a).sched := by
  obtain ⟨hen, hok⟩ := ha
  cases a with
  | step x => exact watchInv_stepCaller h hok
  | watch r => exact watchInv_stepWatcher h hok
  | stop => exact h.same rfl (.inl rfl) (.inl rfl)
  | close => exact h.same rfl (.inl rfl) (.inl rfl)
  | watchEnds r =>
    refine h.frame (fun q hq => ?_) (.inr rfl) (.inr rfl)
    change ((s.sched.watcher.set r .off) q).looked = true at hq
    rw [Table.set_get] at hq
    split_ifs at hq
    · cases hq
    · exact hq
  | graceElapsed x | drained r =>
    simp only [next]
    split <;> exact h.same rfl (.inr rfl) (.inr rfl)
  | task r => exact watchInv_stepTask h r
  | forward r =>
    simp only [next, stepForward]
    split
    · split <;> exact h.same rfl (.inr rfl) (.inr rfl)
    all_goals exact h.same rfl (.inr rfl) (.inr rfl)
  | watchdog r =>
    simp only [next, stepWatchdog]
    split
    · exact h.same rfl (.inr rfl) (.inr rfl)
    · split_ifs
      · exact h.same rfl (.inl rfl) (.inr rfl)
      · exact h.same rfl (.inr rfl) (.inr rfl)
    all_goals exact h.same rfl (.inr rfl) (.inr rfl)
  | _ => exact h.same rfl (.inr rfl) (.inr rfl)

theorem mindsOwn_of_watchInv {s : State} (hb : Basic s.sched) (h : WatchInv s.sched) (r : ℕ) :
    MindsOwn s r := by
  refine ⟨fun hr q hq => ?_, fun hr x => ?_, fun hr => h.active r (by rw [hr]; rfl),
    fun hr => h.pending r (by rw [hr]; rfl)⟩
  · have hother : s.sched.inner.cancel ≠ some q := by
      rw [hb.paired]
      exact fun hactive => hq (h.active r (by rw [hr]; rfl) q hactive)
    simp only [stepWatcher, hr]
    change (cancelInternal s.sched).cancelled q = _
    rw [cancelInternal_cancelled, if_neg hother]
  · have hnone : s.sched.inner.debounce = none := h.pending r (by rw [hr]; rfl)
    simp only [stepWatcher, hr]
    change (cancelInternal s.sched).caller x = _
    rw [cancelInternal_caller, hnone]
    exact if_neg (by simp)

/-- Outside the watchers' windows every watcher minds its own run. -/
theorem watcher_minds_own {world : World} {language : Language} {s : State}
    (h : ((machine present).restrict OutsideWindow).Reaches (init world language) s) (r : ℕ) :
    MindsOwn s r := by
  have hb : Basic s.sched := h.of_restrict.invariant (I := fun s => Basic s.sched)
    (fun _ a hs ha => basic_step hs a ha) (basic_new language)
  exact mindsOwn_of_watchInv hb (h.invariant watchInv_step (watchInv_new language)) r

def serving : State := init ⟨1, true, true, none, 0⟩ .zig

/-- A manual start, from the call to the spawn of its run. -/
def serveOnce : List Action :=
  .call 0 1 none false :: List.replicate 8 (.step (.external 0))

theorem watcher_minds_own_idle :
    ∃ s, ((machine allPresent).restrict OutsideWindow).Reaches serving s ∧
      s.sched.watcher 0 = .announcing ∧ s.sched.cancelled 0 = true ∧ MindsOwn s 0 := by
  obtain ⟨s, hs, hp⟩ := Machine.exists_reaches_of_exec
    (M := (machine allPresent).restrict OutsideWindow) (s := serving)
    (l := serveOnce ++ [.takeSlot 0, .watch 0, .watch 0])
    (p := fun s => s.sched.watcher 0 = .announcing ∧ s.sched.cancelled 0 = true) (by decide)
  simp only [decide_eq_true_eq] at hp
  exact ⟨s, hs, hp.1, hp.2, watcher_minds_own hs 0⟩

/-- Between the look and the cancellation a new start supersedes the idle server and
installs its own run, and the old server's watcher cancels that one. -/
theorem watcher_cancels_another :
    ∃ s, (machine allPresent).Reaches serving s ∧ s.sched.watcher 0 = .firing ∧
      s.sched.cancelled 1 = false ∧ s.sched.inner.activeRun = some 1 ∧
      (next allPresent s (.watch 0)).sched.cancelled 1 = true ∧ ¬ MindsOwn s 0 := by
  obtain ⟨s, hs, hp⟩ := Machine.exists_reaches_of_exec
    (M := machine allPresent) (s := serving)
    (l := serveOnce ++ [.takeSlot 0, .watch 0, .call 1 1 none false] ++
      List.replicate 5 (.step (.external 1)) ++ [.runnerReturn 0 none, .drained 0, .task 0,
        .task 0, .watchdog 0] ++ List.replicate 4 (.step (.external 1)))
    (p := fun s => s.sched.watcher 0 = .firing ∧ s.sched.cancelled 1 = false ∧
      s.sched.inner.activeRun = some 1 ∧
      (next allPresent s (.watch 0)).sched.cancelled 1 = true) (by decide)
  simp only [decide_eq_true_eq] at hp
  obtain ⟨hfire, hfree, hactive, hcancelled⟩ := hp
  refine ⟨s, hs, hfire, hfree, hactive, hcancelled, fun hown => ?_⟩
  have hkept := hown.tokens hfire 1 (by decide)
  change (stepWatcher s.sched 0).cancelled 1 = true at hcancelled
  rw [hcancelled, hfree] at hkept
  cases hkept

end Atomis.Scheduler
