import Atomis.SchedulerInvariant
import Mathlib.Data.Fintype.Basic
import Mathlib.Logic.Function.Basic

/-!
# Runs of one session and its generated directory

Every socket of a session gets a scheduler of its own, and the schedulers share
the session. One scheduler hands the `finished` token from each run to the next,
so its own runs never overlap. Across schedulers nothing is handed on: runs do
not overlap in a run in which a scheduler is asked for something only while all
the others are quiet.
-/

namespace Atomis.Scheduler

structure Shared (κ : Type*) where
  world : World
  scheds : κ → Sched

def Shared.view {κ : Type*} (s : Shared κ) (k : κ) : State := ⟨s.world, s.scheds k⟩

section
variable {κ : Type*} [DecidableEq κ] (present : Language → Bool)

def sharedMachine : Machine (Shared κ) (κ × Action) where
  enabled s a := enabled (s.view a.1) a.2
  next s a :=
    let t := next present (s.view a.1) a.2
    ⟨t.world, Function.update s.scheds a.1 t.sched⟩

end

/-- The run's task has finished, or some later start waited its whole grace for it. -/
def Sched.settled (c : Sched) (r : ℕ) : Prop := (c.task r).isEnded = true ∨ c.outlived r = true

def CallPc.awaits : CallPc → Option ℕ
  | .waitFinished _ _ r => some r
  | _ => none

/-- Past taking the `finished` slot and before filling it. -/
def CallPc.took : CallPc → Bool
  | .waitFinished .. | .recheckVersion .. | .setStdin .. | .install .. => true
  | _ => false

/-- Past the wait for the superseded run. -/
def CallPc.waited : CallPc → Bool
  | .recheckVersion .. | .setStdin .. | .install .. | .announce .. | .spawn .. => true
  | _ => false

structure ChainInv (c : Sched) : Prop where
  chain : ∀ r, c.task r ≠ .unborn → c.settled r ∨ c.inner.finished = some r ∨
    ∃ x, (c.caller x).awaits = some r
  took : ∀ x, (c.caller x).took = true → c.inner.finished = none
  waited : ∀ x, (c.caller x).waited = true → ∀ r, c.task r ≠ .unborn → c.settled r
  announced : ∀ x r, (c.caller x).installed = some r → c.inner.finished = some r
  latest : ∀ x r, (c.caller x).run = some r → ∀ q, c.task q ≠ .unborn → q < r
  ordered : ∀ q r, c.task q ≠ .unborn → c.task r ≠ .unborn → q < r → c.settled q
  token : ∀ r, c.finished r = true → (c.task r).isEnded = true

theorem chainInv_new (language : Language) : ChainInv (new language) := by
  refine ⟨?_, ?_, ?_, ?_, ?_, ?_, fun r hr => by cases hr⟩ <;>
    simp [new, CallPc.took, CallPc.waited, CallPc.installed, CallPc.run, default,
      instInhabitedCallPc.default, instInhabitedTaskPc.default]

variable {present : Language → Bool} {w : World} {c : Sched}

/-- A step that touches no caller and spawns no run. -/
theorem ChainInv.frame {c' : Sched} (h : ChainInv c) (hcaller : c'.caller = c.caller)
    (hfin : c'.inner.finished = c.inner.finished)
    (htask : ∀ r, c'.task r ≠ .unborn → c.task r ≠ .unborn)
    (hset : ∀ r, c.settled r → c'.settled r)
    (htok : ∀ r, c'.finished r = true → (c'.task r).isEnded = true) : ChainInv c' where
  chain r hr := by
    rw [hfin, hcaller]
    exact (h.chain r (htask r hr)).imp_left (hset r)
  took := by
    rw [hfin, hcaller]
    exact h.took
  waited x hx r hr := hset r (h.waited x (hcaller ▸ hx) r (htask r hr))
  announced := by
    rw [hfin, hcaller]
    exact h.announced
  latest x r hx q hq := h.latest x r (hcaller ▸ hx) q (htask q hq)
  ordered q r hq hr hlt := hset q (h.ordered q r (htask q hq) (htask r hr) hlt)
  token := htok

/-- A caller that is not waiting for a run moves on, without a run of its own. -/
theorem ChainInv.move {c' : Sched} (h : ChainInv c) {x : Caller} {pc : CallPc}
    (hcaller : ∀ y, c'.caller y = if y = x then pc else c.caller y)
    (hfin : c'.inner.finished = c.inner.finished) (htask : c'.task = c.task)
    (hout : c'.outlived = c.outlived) (htok : c'.finished = c.finished)
    (hidle : (c.caller x).awaits = none) (htook : pc.took = true → (c.caller x).took = true)
    (hwait : pc.waited = true → (c.caller x).waited = true)
    (hrun : ∀ r, pc.run = some r → (c.caller x).run = some r)
    (hinst : ∀ r, pc.installed = some r → (c.caller x).installed = some r) : ChainInv c' := by
  have hset : ∀ r, c'.settled r ↔ c.settled r := by simp [Sched.settled, htask, hout]
  obtain ⟨chain, took, waited, announced, latest, ordered, token⟩ := h
  refine ⟨fun r hr => ?_, ?_, ?_, ?_, ?_, ?_, ?_⟩
  · rw [htask] at hr
    rcases chain r hr with hs | hf | ⟨y, hy⟩
    · exact .inl ((hset r).mpr hs)
    · exact .inr (.inl (hfin.trans hf))
    · refine .inr (.inr ⟨y, ?_⟩)
      rw [hcaller, if_neg (by rintro rfl; rw [hidle] at hy; cases hy)]
      exact hy
  all_goals grind

theorem CallPc.holding_of_awaits {pc : CallPc} {r : ℕ} (h : pc.awaits = some r) :
    pc.holding = true := by
  cases pc <;> simp_all [CallPc.awaits, CallPc.holding]

theorem CallPc.holding_of_took {pc : CallPc} (h : pc.took = true) : pc.holding = true := by
  cases pc <;> simp_all [CallPc.took, CallPc.holding]

theorem CallPc.holding_of_waited {pc : CallPc} (h : pc.waited = true) : pc.holding = true := by
  cases pc <;> simp_all [CallPc.waited, CallPc.holding]

/-- The slot is taken: its run is the only one that may be unsettled. -/
theorem ChainInv.takeFinished (h : ChainInv c) (hb : Basic c) {x : Caller} {args : Args}
    {target : Language} (hx : c.caller x = .takeFinished args target) {c' : Sched}
    (hcaller : ∀ y, c'.caller y = if y = x then
      (match c.inner.finished with
        | some previous => .waitFinished args target previous
        | none => .setStdin args target) else c.caller y)
    (hfin : c'.inner.finished = none) (htask : c'.task = c.task)
    (hout : c'.outlived = c.outlived) (htok : c'.finished = c.finished) : ChainInv c' := by
  have hset : ∀ r, c'.settled r ↔ c.settled r := by simp [Sched.settled, htask, hout]
  have hhold : (c.caller x).holding = true := by rw [hx]; rfl
  have halone : ∀ y, (c.caller y).holding = true → y = x := fun y hy => hb.unique hy hhold
  have hnone : ∀ y r, (c.caller y).awaits ≠ some r := fun y r hy => by
    obtain rfl := halone y (CallPc.holding_of_awaits hy)
    rw [hx] at hy
    cases hy
  have hother : ∀ y, y ≠ x → (c'.caller y).holding = false := fun y hy => by
    rw [hcaller, if_neg hy]
    cases hh : (c.caller y).holding with
    | false => rfl
    | true => exact absurd (halone y hh) hy
  have hchain : ∀ r, c.task r ≠ .unborn → c.settled r ∨ c.inner.finished = some r := fun r hr => by
    rcases h.chain r hr with hs | hf | ⟨y, hy⟩
    · exact .inl hs
    · exact .inr hf
    · exact absurd hy (hnone y r)
  refine ⟨fun r hr => ?_, fun _ _ => hfin, fun y hy r hr => ?_, fun y r hy => ?_, fun y r hy => ?_,
    ?_, ?_⟩
  · rw [htask] at hr
    rcases hchain r hr with hs | hf
    · exact .inl ((hset r).mpr hs)
    · refine .inr (.inr ⟨x, ?_⟩)
      rw [hcaller, if_pos rfl, hf]
      rfl
  · rw [htask] at hr
    by_cases hyx : y = x
    · rw [hcaller, if_pos hyx] at hy
      rcases hchain r hr with hs | hf
      · exact (hset r).mpr hs
      · rw [hf] at hy
        cases hy
    · have := hother y hyx
      rw [CallPc.holding_of_waited hy] at this
      cases this
  · by_cases hyx : y = x
    · rw [hcaller, if_pos hyx] at hy
      cases hf : c.inner.finished <;> rw [hf] at hy <;> cases hy
    · have := hother y hyx
      rw [CallPc.holding_of_installed hy] at this
      cases this
  · by_cases hyx : y = x
    · rw [hcaller, if_pos hyx] at hy
      cases hf : c.inner.finished <;> rw [hf] at hy <;> cases hy
    · have := hother y hyx
      rw [CallPc.holding_of_run hy] at this
      cases this
  · intro q r hq hr hlt
    rw [htask] at hq hr
    exact (hset q).mpr (h.ordered q r hq hr hlt)
  · intro r hr
    rw [htask]
    exact h.token r (by rwa [htok] at hr)

/-- The wait ends, with the run it was for settled. -/
theorem ChainInv.endWait (h : ChainInv c) (hb : Basic c) {x : Caller} {args : Args}
    {target : Language} {previous : ℕ} (hx : c.caller x = .waitFinished args target previous)
    {c' : Sched} (hcaller : ∀ y, c'.caller y = if y = x then .recheckVersion args target else c.caller y)
    (hfin : c'.inner.finished = c.inner.finished) (htask : c'.task = c.task)
    (hset : ∀ r, c.settled r → c'.settled r) (hdone : c'.settled previous)
    (htok : c'.finished = c.finished) : ChainInv c' := by
  have hhold : (c.caller x).holding = true := by rw [hx]; rfl
  have halone : ∀ y, (c.caller y).holding = true → y = x := fun y hy => hb.unique hy hhold
  have hnone : c.inner.finished = none := h.took x (by rw [hx]; rfl)
  have hall : ∀ r, c.task r ≠ .unborn → c'.settled r := fun r hr => by
    rcases h.chain r hr with hs | hf | ⟨y, hy⟩
    · exact hset r hs
    · rw [hnone] at hf
      cases hf
    · obtain rfl := halone y (CallPc.holding_of_awaits hy)
      rw [hx] at hy
      cases hy
      exact hdone
  have hother : ∀ y, y ≠ x → (c'.caller y).holding = false := fun y hy => by
    rw [hcaller, if_neg hy]
    cases hh : (c.caller y).holding with
    | false => rfl
    | true => exact absurd (halone y hh) hy
  refine ⟨fun r hr => .inl (hall r (htask ▸ hr)), fun _ _ => hfin.trans hnone,
    fun y _ r hr => hall r (htask ▸ hr), fun y r hy => ?_, fun y r hy => ?_,
    fun q _ hq _ _ => hall q (htask ▸ hq), fun r hr => ?_⟩
  · by_cases hyx : y = x
    · rw [hcaller, if_pos hyx] at hy
      cases hy
    · have := hother y hyx
      rw [CallPc.holding_of_installed hy] at this
      cases this
  · by_cases hyx : y = x
    · rw [hcaller, if_pos hyx] at hy
      cases hy
    · have := hother y hyx
      rw [CallPc.holding_of_run hy] at this
      cases this
  · rw [htask]
    exact h.token r (by rwa [htok] at hr)

theorem ChainInv.cancelInternal (h : ChainInv c) (hb : Basic c) : ChainInv (cancelInternal c) := by
  have hslot : ∀ y, c.inner.debounce.map Caller.timer = some y →
      (c.caller y).isSleeping = true := fun y hy => by
    obtain ⟨tag, hdeb, rfl⟩ := Option.map_eq_some_iff.mp hy
    exact hb.pending tag hdeb
  have htask : (Scheduler.cancelInternal c).task = c.task := rfl
  have hset : ∀ r, (Scheduler.cancelInternal c).settled r ↔ c.settled r := fun _ => Iff.rfl
  obtain ⟨chain, took, waited, announced, latest, ordered, token⟩ := h
  refine ⟨fun r hr => ?_, ?_, ?_, ?_, ?_, ordered, token⟩
  · rcases chain r hr with hs | hf | ⟨y, hy⟩
    · exact .inl hs
    · exact .inr (.inl hf)
    · refine .inr (.inr ⟨y, ?_⟩)
      rw [cancelInternal_caller, if_neg]
      · exact hy
      · intro hd
        have := CallPc.isSleeping_of_holding (CallPc.holding_of_awaits hy)
        rw [hslot y hd] at this
        cases this
  all_goals grind [CallPc.took, CallPc.waited, CallPc.installed, CallPc.run]

theorem ChainInv.draw (h : ChainInv c) (hf : Fresh w c) {x : Caller} {args : Args}
    {target : Language} (hx : c.caller x = .setStdin args target) :
    ChainInv (c.setCaller x (.install args target w.nextRun)) := by
  have hlt : ∀ q, c.task q ≠ .unborn → q < w.nextRun := fun q hq => by
    by_contra hge
    exact hq (hf.unborn q (Nat.le_of_not_lt hge))
  have hset : ∀ r, (c.setCaller x (.install args target w.nextRun)).settled r ↔ c.settled r :=
    fun _ => Iff.rfl
  obtain ⟨chain, took, waited, announced, latest, ordered, token⟩ := h
  refine ⟨fun r hr => ?_, ?_, ?_, ?_, ?_, ordered, token⟩
  · rcases chain r hr with hs | hfin | ⟨y, hy⟩
    · exact .inl hs
    · exact .inr (.inl hfin)
    · refine .inr (.inr ⟨y, ?_⟩)
      rw [setCaller_caller, if_neg (by rintro rfl; rw [hx] at hy; cases hy)]
      exact hy
  all_goals grind [Sched.setCaller, CallPc.took, CallPc.waited, CallPc.installed, CallPc.run]

theorem ChainInv.install (h : ChainInv c) (hb : Basic c) {x : Caller} {args : Args}
    {target : Language} {r : ℕ} (hx : c.caller x = .install args target r) {pc : CallPc}
    (hpc : pc = .announce args target r ∨ pc = .spawn args target r) {c' : Sched}
    (hcaller : ∀ y, c'.caller y = if y = x then pc else c.caller y)
    (hfin : c'.inner.finished = some r) (htask : c'.task = c.task)
    (hout : c'.outlived = c.outlived) (htok : c'.finished = c.finished) : ChainInv c' := by
  have hset : ∀ q, c'.settled q ↔ c.settled q := by simp [Sched.settled, htask, hout]
  have hhold : (c.caller x).holding = true := by rw [hx]; rfl
  have hother : ∀ y, y ≠ x → (c.caller y).holding = false := fun y hy => by
    cases hh : (c.caller y).holding with
    | false => rfl
    | true => exact absurd (hb.unique hh hhold) hy
  have hall := h.waited x (by rw [hx]; rfl)
  have hlatest := h.latest x r (by rw [hx]; rfl)
  have htook : pc.took = false := by rcases hpc with rfl | rfl <;> rfl
  have hinst : pc.installed = some r := by rcases hpc with rfl | rfl <;> rfl
  have hrun : pc.run = some r := by rcases hpc with rfl | rfl <;> rfl
  refine ⟨fun q hq => .inl ((hset q).mpr (hall q (htask ▸ hq))), fun y hy => ?_,
    fun y _ q hq => (hset q).mpr (hall q (htask ▸ hq)), fun y q hy => ?_, fun y q hy => ?_,
    fun q _ hq _ _ => (hset q).mpr (hall q (htask ▸ hq)), fun q hq => ?_⟩
  · rw [hcaller] at hy
    split_ifs at hy with hyx
    · rw [htook] at hy
      cases hy
    · have := hother y hyx
      rw [CallPc.holding_of_took hy] at this
      cases this
  · rw [hcaller] at hy
    split_ifs at hy with hyx
    · rw [hfin, ← hinst, hy]
    · have := hother y hyx
      rw [CallPc.holding_of_installed hy] at this
      cases this
  · rw [hcaller] at hy
    split_ifs at hy with hyx
    · obtain rfl : r = q := by simpa [hrun] using hy
      rw [htask]
      exact hlatest
    · have := hother y hyx
      rw [CallPc.holding_of_run hy] at this
      cases this
  · rw [htask]
    exact h.token q (by rwa [htok] at hq)

theorem ChainInv.spawn (h : ChainInv c) (hb : Basic c) (hf : Fresh w c) {x : Caller} {args : Args}
    {target : Language} {r : ℕ} (hx : c.caller x = .spawn args target r) {c' : Sched}
    (hcaller : ∀ y, c'.caller y = if y = x then .idle else c.caller y)
    (hfin : c'.inner.finished = c.inner.finished)
    (htask : ∀ q, c'.task q = if q = r then .queued else c.task q)
    (hout : c'.outlived = c.outlived) (htok : c'.finished = c.finished) : ChainInv c' := by
  have hborn := (hf.starting x r (by rw [hx]; rfl)).2
  have hhold : (c.caller x).holding = true := by rw [hx]; rfl
  have hall := h.waited x (by rw [hx]; rfl)
  have hlatest := h.latest x r (by rw [hx]; rfl)
  have hmine := h.announced x r (by rw [hx]; rfl)
  have hset : ∀ q, q ≠ r → c.settled q → c'.settled q := by
    intro q hq hs
    simpa [Sched.settled, htask, hout, hq] using hs
  have hother : ∀ y, (c'.caller y).holding = false := fun y => by
    rw [hcaller]
    split_ifs with hyx
    · rfl
    · cases hh : (c.caller y).holding with
      | false => rfl
      | true => exact absurd (hb.unique hh hhold) hyx
  have hold : ∀ q, q ≠ r → c'.task q ≠ .unborn → c.task q ≠ .unborn := fun q hq hne => by
    rwa [htask, if_neg hq] at hne
  have hnot : ∀ {y : Caller}, (c'.caller y).holding = true → False := fun {y} hy => by
    rw [hother y] at hy
    cases hy
  refine ⟨fun q hq => ?_, fun y hy => (hnot (CallPc.holding_of_took hy)).elim,
    fun y hy => (hnot (CallPc.holding_of_waited hy)).elim,
    fun y q hy => (hnot (CallPc.holding_of_installed hy)).elim,
    fun y q hy => (hnot (CallPc.holding_of_run hy)).elim, fun q q' hq hq' hlt => ?_, fun q hq => ?_⟩
  · by_cases hqr : q = r
    · exact .inr (.inl (by rw [hfin, hmine, hqr]))
    · exact .inl (hset q hqr (hall q (hold q hqr hq)))
  · by_cases hqr : q = r
    · have := hlatest q' (hold q' (by omega) hq')
      omega
    · exact hset q hqr (hall q (hold q hqr hq))
  · by_cases hqr : q = r
    · have := h.token q (by rwa [htok] at hq)
      rw [hqr, hborn] at this
      cases this
    · rw [htask, if_neg hqr]
      exact h.token q (by rwa [htok] at hq)

/-- A caller that is at no place of its own. -/
theorem ChainInv.plain (h : ChainInv c) {x : Caller} {pc : CallPc} {c' : Sched}
    (hcaller : ∀ y, c'.caller y = if y = x then pc else c.caller y)
    (hfin : c'.inner.finished = c.inner.finished) (htask : c'.task = c.task)
    (hout : c'.outlived = c.outlived) (htok : c'.finished = c.finished)
    (hidle : (c.caller x).awaits = none) (htook : pc.took = false) (hwait : pc.waited = false)
    (hrun : pc.run = none) (hinst : pc.installed = none) : ChainInv c' :=
  h.move hcaller hfin htask hout htok hidle (fun ht => by rw [htook] at ht; cases ht)
    (fun ht => by rw [hwait] at ht; cases ht) (fun r hr => by rw [hrun] at hr; cases hr)
    (fun r hr => by rw [hinst] at hr; cases hr)

theorem chainInv_stepCaller (h : ChainInv c) (hb : Basic c) (hf : Fresh w c) {x : Caller}
    (hen : (c.caller x).enabled c) : ChainInv (stepCaller present w c x).2 := by
  cases hx : c.caller x with
  | idle => simpa only [stepCaller, hx] using h
  | cancelEdit language n =>
    have hslot := hb.not_pending (x := x) (by rw [hx]; rfl)
    simp only [stepCaller, hx]
    refine (h.cancelInternal hb).plain (setCaller_caller _ x _) rfl rfl rfl rfl ?_ rfl rfl rfl rfl
    rw [cancelInternal_caller, if_neg hslot, hx]
    rfl
  | readVersion language n =>
    simp only [stepCaller, hx]
    exact h.plain (setCaller_caller _ x _) rfl rfl rfl rfl (by rw [hx]; rfl) rfl rfl rfl rfl
  | readSettings language n version =>
    simp only [stepCaller, hx]
    split_ifs <;>
      exact h.plain (setCaller_caller _ x _) rfl rfl rfl rfl (by rw [hx]; rfl) rfl rfl rfl rfl
  | arm args =>
    have hidle : ChainInv (c.setCaller x .idle) :=
      h.plain (setCaller_caller c x .idle) rfl rfl rfl rfl (by rw [hx]; rfl) rfl rfl rfl rfl
    have htimer : c.caller (.timer (c.inner.debounceSeq + 1)) = .idle := by
      by_contra hne
      have := hb.tagged _ hne
      omega
    simp only [stepCaller, hx]
    refine hidle.plain (setCaller_caller _ _ (.sleeping args)) rfl rfl rfl rfl ?_ rfl rfl rfl rfl
    rw [setCaller_caller, htimer]
    split_ifs <;> rfl
  | sleeping args =>
    simp only [stepCaller, hx]
    split_ifs <;>
      exact h.plain (setCaller_caller _ x _) rfl rfl rfl rfl (by rw [hx]; rfl) rfl rfl rfl rfl
  | lockStart args =>
    simp only [stepCaller, hx]
    exact h.plain (setCaller_caller _ x _) rfl rfl rfl rfl (by rw [hx]; rfl) rfl rfl rfl rfl
  | checkVersion args =>
    simp only [stepCaller, hx]
    split_ifs <;>
      exact h.plain (setCaller_caller _ x _) rfl rfl rfl rfl (by rw [hx]; rfl) rfl rfl rfl rfl
  | chooseTarget args =>
    simp only [stepCaller, hx]
    split_ifs <;>
      exact h.plain (setCaller_caller _ x _) rfl rfl rfl rfl (by rw [hx]; rfl) rfl rfl rfl rfl
  | supersede args target =>
    have hslot := hb.not_pending (x := x) (by rw [hx]; rfl)
    simp only [stepCaller, hx]
    refine (h.cancelInternal hb).plain (setCaller_caller _ x _) rfl rfl rfl rfl ?_ rfl rfl rfl rfl
    rw [cancelInternal_caller, if_neg hslot, hx]
    rfl
  | takeFinished args target =>
    simp only [stepCaller, hx]
    exact h.takeFinished hb hx (setCaller_caller c x _) rfl rfl rfl rfl
  | waitFinished args target previous =>
    have hdone : c.finished previous = true := by simpa [hx, CallPc.enabled] using hen
    simp only [stepCaller, hx]
    exact h.endWait hb hx (setCaller_caller c x _) rfl rfl (fun _ hs => hs)
      (.inl (h.token previous hdone)) rfl
  | recheckVersion args target =>
    simp only [stepCaller, hx]
    split_ifs
    · exact h.move (setCaller_caller _ x _) rfl rfl rfl rfl (by rw [hx]; rfl)
        (fun _ => by rw [hx]; rfl) (fun _ => by rw [hx]; rfl) (fun r hr => by cases hr)
        (fun r hr => by cases hr)
    · exact h.plain (setCaller_caller _ x _) rfl rfl rfl rfl (by rw [hx]; rfl) rfl rfl rfl rfl
  | setStdin args target =>
    simp only [stepCaller, hx]
    exact h.draw hf hx
  | install args target r =>
    simp only [stepCaller, hx]
    refine h.install hb hx ?_ (setCaller_caller _ x _) rfl rfl rfl rfl
    split_ifs
    · exact .inl rfl
    · exact .inr rfl
  | announce args target r =>
    simp only [stepCaller, hx]
    exact h.move (setCaller_caller _ x _) rfl rfl rfl rfl (by rw [hx]; rfl) (fun ht => by cases ht)
      (fun _ => by rw [hx]; rfl) (fun q hq => by rw [hx]; exact hq) (fun q hq => by rw [hx]; exact hq)
  | spawn args target r =>
    simp only [stepCaller, hx]
    exact h.spawn hb hf hx (setCaller_caller c x .idle) rfl
      (fun q => by simp [Sched.setTask, Sched.endStart, Sched.setCaller]) rfl rfl

theorem ChainInv.setTask (h : ChainInv c) {r : ℕ} {pc : TaskPc} {c' : Sched}
    (hborn : c.task r ≠ .unborn) (hr : (c.task r).isEnded = false) (hcaller : c'.caller = c.caller)
    (hfin : c'.inner.finished = c.inner.finished) (htask : c'.task = c.task.set r pc)
    (hout : c'.outlived = c.outlived) (htok : c'.finished = c.finished) : ChainInv c' := by
  refine h.frame hcaller hfin (fun q hq => ?_) (fun q hs => ?_) (fun q hq => ?_)
  · rw [htask, Table.set_get] at hq
    split_ifs at hq with heq
    · rwa [heq]
    · exact hq
  · rcases hs with hs | hs
    · refine .inl ?_
      rwa [htask, Table.set_get, if_neg (by rintro rfl; rw [hr] at hs; cases hs)]
    · exact .inr (by rwa [hout])
  · have hold := h.token q (by rwa [htok] at hq)
    rwa [htask, Table.set_get, if_neg (by rintro rfl; rw [hr] at hold; cases hold)]

/-- A step that leaves the callers, the tasks, the tokens and the slot alone. -/
theorem ChainInv.same (h : ChainInv c) {c' : Sched} (hcaller : c'.caller = c.caller)
    (hfin : c'.inner.finished = c.inner.finished) (htask : c'.task = c.task)
    (hout : c'.outlived = c.outlived) (htok : c'.finished = c.finished) : ChainInv c' :=
  h.frame hcaller hfin (fun r hr => by rwa [htask] at hr)
    (fun r hs => by simpa only [Sched.settled, htask, hout] using hs)
    (fun r hr => by rw [htask]; exact h.token r (by rwa [htok] at hr))

theorem chainInv_stepTask (h : ChainInv c) (r : ℕ) : ChainInv (stepTask w c r) := by
  cases hr : c.task r with
  | checking outcome =>
    simp only [stepTask, hr]
    split_ifs <;> exact h.setTask (by simp [hr]) (by rw [hr]; rfl) rfl rfl rfl rfl rfl
  | checkingVersion outcome =>
    simp only [stepTask, hr]
    split_ifs <;> exact h.setTask (by simp [hr]) (by rw [hr]; rfl) rfl rfl rfl rfl rfl
  | reporting outcome =>
    cases outcome with
    | some state =>
      simp only [stepTask, hr]
      exact h.setTask (by simp [hr]) (by rw [hr]; rfl) rfl rfl rfl rfl rfl
    | none =>
      simp only [stepTask, hr]
      split <;> exact h.setTask (by simp [hr]) (by rw [hr]; rfl) rfl rfl rfl rfl rfl
  | finishing =>
    simp only [stepTask, hr]
    exact h.setTask (by simp [hr]) (by rw [hr]; rfl) rfl rfl rfl rfl rfl
  | cleaning =>
    simp only [stepTask, hr]
    refine h.setTask (by simp [hr]) (by rw [hr]; rfl) rfl ?_ rfl rfl rfl
    split_ifs <;> rfl
  | _ => simpa only [stepTask, hr] using h

theorem chainInv_stepWatchdog (h : ChainInv c) {r : ℕ} (hr : (c.task r).isEnded = true) :
    ChainInv (stepWatchdog c r) := by
  simp only [stepWatchdog]
  split
  · refine h.frame rfl rfl (fun _ hq => hq) (fun _ hs => hs) (fun q hq => ?_)
    change (c.finished.set r true) q = true at hq
    rw [Table.set_get] at hq
    split_ifs at hq with heq
    · rwa [heq]
    · exact h.token q hq
  · split_ifs <;> exact h.same rfl rfl rfl rfl rfl
  all_goals exact h.same rfl rfl rfl rfl rfl

theorem chainInv_step {s : State} (hb : Basic s.sched) (hf : Fresh s.world s.sched)
    (h : ChainInv s.sched) (a : Action) (ha : enabled s a) : ChainInv (next present s a).sched := by
  cases a with
  | call k version language interactive =>
    exact h.plain (setCaller_caller _ (.external k) _) rfl rfl rfl rfl
      (by rw [show s.sched.caller (.external k) = .idle from ha]; rfl) rfl rfl rfl rfl
  | edit k language =>
    exact h.plain (setCaller_caller _ (.external k) _) rfl rfl rfl rfl
      (by rw [show s.sched.caller (.external k) = .idle from ha]; rfl) rfl rfl rfl rfl
  | stop => exact (h.cancelInternal hb).same rfl rfl rfl rfl rfl
  | close => exact (h.cancelInternal hb).same rfl rfl rfl rfl rfl
  | step x => exact chainInv_stepCaller h hb hf ha
  | graceElapsed x =>
    simp only [next]
    split
    · next args target previous hx =>
      refine h.endWait hb hx (setCaller_caller s.sched x _) rfl rfl (fun r hs => ?_) ?_ rfl
      · refine hs.imp_right fun ho => ?_
        show (s.sched.outlived.set previous true) r = true
        rw [Table.set_get, ho]
        split_ifs <;> rfl
      · refine .inr ?_
        show (s.sched.outlived.set previous true) previous = true
        simp
    · exact h
  | takeSlot r =>
    have hr : s.sched.task r = .queued := ha
    exact h.setTask (by rw [hr]; simp) (by rw [hr]; rfl) rfl rfl rfl rfl rfl
  | leaveQueue r =>
    have hr : s.sched.task r = .queued := ha.1
    exact h.setTask (by rw [hr]; simp) (by rw [hr]; rfl) rfl rfl rfl rfl rfl
  | runnerReturn r outcome =>
    have hr : s.sched.task r = .running := ha
    exact h.setTask (by rw [hr]; simp) (by rw [hr]; rfl) rfl rfl rfl rfl rfl
  | panic r =>
    have hr : s.sched.task r = .running := ha
    exact h.setTask (by rw [hr]; simp) (by rw [hr]; rfl) rfl rfl rfl rfl rfl
  | drained r =>
    simp only [next]
    split
    · next hr => exact h.setTask (by simp [hr]) (by rw [hr]; rfl) rfl rfl rfl rfl rfl
    · exact h
  | task r => exact chainInv_stepTask h r
  | forward r =>
    simp only [next, stepForward]
    split
    · split <;> exact h.same rfl rfl rfl rfl rfl
    all_goals exact h.same rfl rfl rfl rfl rfl
  | watchdog r => exact chainInv_stepWatchdog h ha.1
  | watch r =>
    simp only [next, stepWatcher]
    split
    · exact h
    · exact h.same rfl rfl rfl rfl rfl
    · exact (h.cancelInternal hb).same rfl rfl rfl rfl rfl
    · exact h.same rfl rfl rfl rfl rfl
  | _ => exact h.same rfl rfl rfl rfl rfl

/-! ## One scheduler after another -/

/-- No call of the scheduler is under way, no auto run is pending, and every run
it spawned has ended. -/
structure Sched.Quiet (c : Sched) : Prop where
  calm : ∀ x, (c.caller x).underWay = none
  unarmed : c.inner.debounce = none
  settled : ∀ r, c.task r = .unborn ∨ (c.task r).isEnded = true

/-- A scheduler is asked for a run, or told of an edit, only while all the others are quiet. -/
def Handover {κ : Type*} (s : Shared κ) (a : κ × Action) : Prop :=
  match a.2 with
  | .call .. | .edit .. => ∀ j, j ≠ a.1 → (s.scheds j).Quiet
  | _ => True

theorem Sched.Quiet.same (h : c.Quiet) {c' : Sched} (hcaller : c'.caller = c.caller)
    (hdeb : c'.inner.debounce = c.inner.debounce) (htask : c'.task = c.task) : c'.Quiet :=
  ⟨by rw [hcaller]; exact h.calm, by rw [hdeb]; exact h.unarmed, by rw [htask]; exact h.settled⟩

theorem Sched.Quiet.cancelInternal (h : c.Quiet) : (cancelInternal c).Quiet := by
  refine ⟨fun x => ?_, rfl, h.settled⟩
  rw [cancelInternal_caller]
  split_ifs
  · rfl
  · exact h.calm x

/-- Nothing a quiet scheduler does by itself makes it busy. -/
theorem quiet_step {s : State} (h : s.sched.Quiet) (a : Action) (ha : enabled s a)
    (hcall : ∀ k version language interactive, a ≠ .call k version language interactive)
    (hedit : ∀ k language, a ≠ .edit k language) : (next present s a).sched.Quiet := by
  have hover : ∀ r, s.sched.task r ≠ .queued ∧ s.sched.task r ≠ .running ∧
      (s.sched.task r).isDraining = false ∧ (s.sched.task r).finishes = false := fun r => by
    rcases h.settled r with hr | hr <;> cases hc : s.sched.task r <;>
      simp_all [TaskPc.isEnded, TaskPc.isDraining, TaskPc.finishes]
  cases a with
  | call k version language interactive => exact absurd rfl (hcall k version language interactive)
  | edit k language => exact absurd rfl (hedit k language)
  | stop => exact h.cancelInternal.same rfl rfl rfl
  | close => exact h.cancelInternal.same rfl rfl rfl
  | step x =>
    have hcalm := h.calm x
    cases hx : s.sched.caller x with
    | idle => simpa only [next, stepCaller, hx] using h
    | sleeping args =>
      simp only [next, stepCaller, hx, h.unarmed, Option.map_none, reduceCtorEq, ↓reduceIte]
      refine ⟨fun y => ?_, h.unarmed, h.settled⟩
      rw [setCaller_caller]
      split_ifs
      · rfl
      · exact h.calm y
    | _ =>
      rw [hx] at hcalm
      cases hcalm
  | graceElapsed x =>
    have hcalm := h.calm x
    simp only [next]
    split
    · next hx =>
      rw [hx] at hcalm
      cases hcalm
    · exact h
  | takeSlot r => exact absurd ha (hover r).1
  | leaveQueue r => exact absurd ha.1 (hover r).1
  | runnerEvent r event => exact absurd ha (hover r).2.1
  | runnerReturn r outcome => exact absurd ha (hover r).2.1
  | panic r => exact absurd ha (hover r).2.1
  | drained r => exact absurd ha.1 (by simp [(hover r).2.2.1])
  | task r =>
    have hfin : (s.sched.task r).finishes = true := ha
    rw [(hover r).2.2.2] at hfin
    cases hfin
  | forward r =>
    simp only [next, stepForward]
    split
    · split <;> exact h.same rfl rfl rfl
    all_goals exact h.same rfl rfl rfl
  | watchdog r =>
    simp only [next, stepWatchdog]
    split
    · exact h.same rfl rfl rfl
    · split_ifs <;> exact h.same rfl rfl rfl
    all_goals exact h.same rfl rfl rfl
  | watch r =>
    simp only [next, stepWatcher]
    split
    · exact h
    · exact h.same rfl rfl rfl
    · exact h.cancelInternal.same rfl rfl rfl
    · exact h.same rfl rfl rfl
  | _ => exact h.same rfl rfl rfl

theorem le_nextRun (s : State) (a : Action) :
    s.world.nextRun ≤ (next present s a).world.nextRun := by
  cases a with
  | step x =>
    cases hx : s.sched.caller x with
    | setStdin args target =>
      simp only [next, stepCaller, hx]
      exact Nat.le_succ _
    | readSettings | sleeping | checkVersion | chooseTarget | recheckVersion =>
      simp only [next, stepCaller, hx]
      split_ifs <;> exact Nat.le_refl _
    | _ =>
      simp only [next, stepCaller, hx]
      exact Nat.le_refl _
  | graceElapsed x =>
    simp only [next]
    split <;> exact Nat.le_refl _
  | drained r =>
    simp only [next]
    split <;> exact Nat.le_refl _
  | _ => exact Nat.le_refl _

section
variable {κ : Type*} [DecidableEq κ]

structure SharedInv (s : Shared κ) : Prop where
  basic : ∀ k, Basic (s.scheds k)
  fresh : ∀ k, Fresh s.world (s.scheds k)
  chain : ∀ k, ChainInv (s.scheds k)
  apart : ∀ j k, j ≠ k → (s.scheds j).Quiet ∨ (s.scheds k).Quiet

omit [DecidableEq κ] in
/-- The scheduler that takes a step is quiet after it, or all the others are. -/
theorem SharedInv.others_quiet {s : Shared κ} (h : SharedInv s) {k : κ} {a : Action}
    (ha : enabled (s.view k) a) (hok : Handover s (k, a)) :
    (next present (s.view k) a).sched.Quiet ∨ ∀ j, j ≠ k → (s.scheds j).Quiet := by
  by_cases hq : (s.scheds k).Quiet
  · cases a with
    | call c version language interactive => exact .inr hok
    | edit c language => exact .inr hok
    | _ => exact .inl (quiet_step hq _ ha (by simp) (by simp))
  · exact .inr fun j hj => (h.apart j k hj).resolve_right hq

theorem sharedInv_step (s : Shared κ) (a : κ × Action) (h : SharedInv s)
    (ha : ((sharedMachine present).restrict Handover).enabled s a) :
    SharedInv ((sharedMachine present).next s a) := by
  obtain ⟨k, a⟩ := a
  obtain ⟨hen, hok⟩ := ha
  have hothers : (next present (s.view k) a).sched.Quiet ∨ ∀ j, j ≠ k → (s.scheds j).Quiet :=
    h.others_quiet hen hok
  have hself : ((sharedMachine present).next s (k, a)).scheds k = (next present (s.view k) a).sched :=
    Function.update_self ..
  have hother : ∀ j, j ≠ k → ((sharedMachine present).next s (k, a)).scheds j = s.scheds j :=
    fun j hj => Function.update_of_ne hj ..
  refine ⟨fun j => ?_, fun j => ?_, fun j => ?_, fun i j hij => ?_⟩
  · by_cases hj : j = k
    · subst hj
      rw [hself]
      exact basic_step (h.basic j) a hen
    · rw [hother j hj]
      exact h.basic j
  · by_cases hj : j = k
    · subst hj
      rw [hself]
      exact fresh_step (h.fresh j) (h.basic j) a hen
    · rw [hother j hj]
      exact (h.fresh j).frame (le_nextRun (s.view k) a) (fun _ hr => hr) (fun _ _ hx => hx)
  · by_cases hj : j = k
    · subst hj
      rw [hself]
      exact chainInv_step (h.basic j) (h.fresh j) (h.chain j) a hen
    · rw [hother j hj]
      exact h.chain j
  · rcases hothers with hq | hq
    · by_cases hi : i = k
      · exact .inl (by rw [hi, hself]; exact hq)
      · by_cases hj : j = k
        · exact .inr (by rw [hj, hself]; exact hq)
        · rw [hother i hi, hother j hj]
          exact h.apart i j hij
    · by_cases hi : i = k
      · have hj : j ≠ k := fun hjk => hij (hi.trans hjk.symm)
        exact .inr (by rw [hother j hj]; exact hq j hj)
      · exact .inl (by rw [hother i hi]; exact hq i hi)

def newSession (κ : Type*) (world : World) (language : Language) : Shared κ :=
  ⟨world, fun _ => new language⟩

omit [DecidableEq κ] in
theorem quiet_new (language : Language) : (new language).Quiet :=
  ⟨fun _ => rfl, rfl, fun _ => .inl rfl⟩

/-- In every run in which a scheduler is asked for something only while all the
others are quiet: when a run may reach the runner, every run spawned before it
has ended, or a later start waited its whole grace for it. -/
theorem runs_do_not_overlap {world : World} {language : Language} {s : Shared κ}
    (h : ((sharedMachine present).restrict Handover).Reaches (newSession κ world language) s)
    {k : κ} {r : ℕ} (hr : (sharedMachine present).enabled s (k, .takeSlot r)) (j : κ) (q : ℕ)
    (hlt : q < r) (hq : (s.scheds j).task q ≠ .unborn) : (s.scheds j).settled q := by
  have hs : SharedInv s := h.invariant sharedInv_step
    ⟨fun _ => basic_new language, fun _ => fresh_new world language,
      fun _ => chainInv_new language, fun _ _ _ => .inl (quiet_new language)⟩
  have hqueued : (s.scheds k).task r = .queued := hr
  by_cases hj : j = k
  · subst hj
    exact (hs.chain j).ordered q r hq (by rw [hqueued]; simp) hlt
  · have hbusy : ¬ (s.scheds k).Quiet := fun hquiet => by
      rcases hquiet.settled r with hover | hover <;> rw [hqueued] at hover <;> cases hover
    exact .inl ((((hs.apart j k hj).resolve_right hbusy).settled q).resolve_left hq)

instance (c : Sched) : Decidable c.Quiet :=
  decidable_of_iff ((∀ e ∈ c.caller.writes, (c.caller e.1).underWay = none) ∧
      c.inner.debounce = none ∧
      ∀ e ∈ c.task.writes, c.task e.1 = .unborn ∨ (c.task e.1).isEnded = true) <| by
    rw [← c.caller.forall_get_iff (p := fun _ pc => pc.underWay = none) fun _ => rfl,
      ← c.task.forall_get_iff (p := fun _ pc => pc = .unborn ∨ pc.isEnded = true) fun _ => .inl rfl]
    exact ⟨fun ⟨h₁, h₂, h₃⟩ => ⟨h₁, h₂, h₃⟩, fun ⟨h₁, h₂, h₃⟩ => ⟨h₁, h₂, h₃⟩⟩

instance [Fintype κ] : DecidableRel (Handover (κ := κ)) := fun s a => by
  simp only [Handover]
  split <;> infer_instance

instance : DecidableRel (sharedMachine (κ := κ) present).enabled := fun s a =>
  inferInstanceAs (Decidable ((machine present).enabled (s.view a.1) a.2))

end

def sharedSession : Shared (Fin 2) := newSession (Fin 2) ⟨1, true, false, none, 0⟩ .zig

/-- A scheduler's first run, from the call to the slot. -/
def startRun (k : Fin 2) : List (Fin 2 × Action) :=
  (k, .call 0 1 none false) :: List.replicate 8 (k, .step (.external 0))

/-- The first socket's run ends, its scheduler is closed, and a second socket starts one. -/
def reconnectAfterEnd : List (Fin 2 × Action) :=
  startRun 0 ++ [(0, .takeSlot 0), (0, .runnerReturn 0 (some .succeeded)), (0, .drained 0),
    (0, .task 0), (0, .task 0), (0, .task 0), (0, .task 0), (0, .task 0), (0, .close)] ++ startRun 1

theorem runs_do_not_overlap_after_end :
    ∃ s, ((sharedMachine allPresent).restrict Handover).Reaches sharedSession s ∧
      (sharedMachine allPresent).enabled s (1, .takeSlot 1) ∧
      (s.scheds 0).task 0 ≠ .unborn ∧ (s.scheds 0).settled 0 := by
  obtain ⟨s, hs, hp⟩ := Machine.exists_reaches_of_exec
    (M := (sharedMachine allPresent).restrict Handover) (s := sharedSession)
    (l := reconnectAfterEnd) (p := fun s => (sharedMachine allPresent).enabled s (1, .takeSlot 1) ∧
      (s.scheds 0).task 0 ≠ .unborn) (by decide)
  simp only [decide_eq_true_eq] at hp
  exact ⟨s, hs, hp.1, hp.2, runs_do_not_overlap hs hp.1 0 0 (by decide) hp.2⟩

/-- The first socket's run is cancelled and still winding down when the second
socket's scheduler, which knows nothing of it, starts one. -/
theorem runs_overlap_after_reconnect :
    ∃ s, (sharedMachine allPresent).Reaches sharedSession s ∧
      (sharedMachine allPresent).enabled s (1, .takeSlot 1) ∧
      (s.scheds 0).task 0 = .running ∧ ¬ (s.scheds 0).settled 0 := by
  obtain ⟨s, hs, hp⟩ := Machine.exists_reaches_of_exec
    (M := sharedMachine allPresent) (s := sharedSession)
    (l := startRun 0 ++ [(0, .takeSlot 0), (0, .close)] ++ startRun 1)
    (p := fun s => (sharedMachine allPresent).enabled s (1, .takeSlot 1) ∧
      (s.scheds 0).task 0 = .running ∧ (s.scheds 0).outlived 0 = false) (by decide)
  simp only [decide_eq_true_eq] at hp
  refine ⟨s, hs, hp.1, hp.2.1, fun hset => ?_⟩
  rcases hset with hend | hout
  · rw [hp.2.1] at hend
    cases hend
  · rw [hp.2.2] at hout
    cases hout

end Atomis.Scheduler
