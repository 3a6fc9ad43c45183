import Atomis.PyInstrument
import Atomis.PyMachine
import Mathlib.Data.List.Infix

/-!
# Spliced programs run like the originals

A program with calls spliced in takes the steps of the original, whatever the calls are, as
long as each of them leaves the memory as it was and does not raise.
-/

namespace Atomis.PyInstrument

variable {V : Type} {behind : Position → List Call} {apply : Apply V}

/-! ## Syntax -/

theorem Suites.toList_splice (suites : Suites) :
    (suites.splice behind).toList = suites.toList.map (Suite.splice behind) := by
  match suites with
  | .nil => rfl
  | .cons suite rest => rw [Suites.splice, Suites.toList, Suites.toList, rest.toList_splice]; rfl

theorem Suite.after_cons (call : Call) (calls : List Call) (suite : Suite) :
    suite.after (call :: calls) = .cons (.call call) (suite.after calls) := rfl

theorem Suite.after_nil (suite : Suite) : suite.after [] = suite := rfl

theorem Suite.own_after (calls : List Call) (suite : Suite) : (suite.after calls).own = suite.own := by
  induction calls with
  | nil => rfl
  | cons call calls ih => rw [Suite.after_cons, Suite.own, Stmt.own, ih]; rfl

mutual

/-- Inserted calls bind no name. -/
theorem Stmt.own_splice (stmt : Stmt) : (stmt.splice behind).own = stmt.own := by
  match stmt with
  | .simple .. => rfl
  | .compound span compound suites =>
    rw [Stmt.splice, Stmt.own, Stmt.own, suites.own_splice]
  | .call _ => rfl

theorem Suite.own_splice (suite : Suite) : (suite.splice behind).own = suite.own := by
  match suite with
  | .nil => rfl
  | .cons stmt rest =>
    rw [Suite.splice, Suite.own, Suite.own, Suite.own_after, stmt.own_splice, rest.own_splice]

theorem Suites.own_splice (suites : Suites) : (suites.splice behind).own = suites.own := by
  match suites with
  | .nil => rfl
  | .cons suite rest =>
    rw [Suites.splice, Suites.own, Suites.own, suite.own_splice, rest.own_splice]

end

theorem Suite.scope_splice (kind : ScopeKind) (owner : Option String) (params : List String)
    (suite : Suite) :
    (suite.splice behind).scope kind owner params = suite.scope kind owner params := by
  rw [Suite.scope, Suite.scope, suite.own_splice]

section
variable (suites : Suites)

theorem Suites.handler_splice (i : ℕ) :
    (suites.splice behind).handler i = (suites.handler i).map (Suite.splice behind) := by
  rw [Suites.handler, Suites.handler, suites.toList_splice, ← List.map_dropLast,
    ← List.map_dropLast, ← List.map_tail, List.getElem?_map]

theorem getD_map_splice (suite : Option Suite) :
    (suite.map (Suite.splice behind)).getD .nil = (suite.getD .nil).splice behind := by
  cases suite <;> rfl

theorem Suites.orElse_splice :
    (suites.splice behind).orElse = suites.orElse.splice behind := by
  rw [Suites.orElse, Suites.orElse, suites.toList_splice, ← List.map_dropLast,
    List.getLast?_map, getD_map_splice]

theorem Suites.final_splice : (suites.splice behind).final = suites.final.splice behind := by
  rw [Suites.final, Suites.final, suites.toList_splice, List.getLast?_map, getD_map_splice]

end

/-! ## States -/

def Kont.splice (behind : Position → List Call) : Kont → Kont
  | .suite s => .suite (s.splice behind)
  | .loop stmt => .loop (stmt.splice behind)
  | .handling suites => .handling (suites.splice behind)
  | .finally last => .finally (last.splice behind)
  | .leaving => .leaving
  | .pending signal => .pending signal

def Control.splice (behind : Position → List Call) (control : Control) : Control :=
  ⟨control.signal, control.konts.map (Kont.splice behind)⟩

/-- The control with calls still to make. -/
def Control.before (calls : List Call) : Control → Control
  | ⟨signal, .suite suite :: ks⟩ => ⟨signal, .suite (suite.after calls) :: ks⟩
  | control => control

def Frame.splice (behind : Position → List Call) (frame : Frame) : Frame :=
  ⟨frame.chain, frame.control.splice behind⟩

def Closure.splice (behind : Position → List Call) (closure : Closure) : Closure :=
  ⟨closure.chain, closure.owner, closure.params, closure.body.splice behind⟩

def State.splice (behind : Position → List Call) (s : State V) : State V where
  memory := s.memory
  frames := s.frames.map (Frame.splice behind)
  suspended := s.suspended.map (Frame.splice behind)
  closures := s.closures.map (Closure.splice behind)
  fresh := s.fresh

def State.before (calls : List Call) (s : State V) : State V :=
  match s.frames with
  | frame :: below => { s with frames := ⟨frame.chain, frame.control.before calls⟩ :: below }
  | [] => s

/-- The calls behind the statement that a step completes. -/
def Control.completed (behind : Position → List Call) (choice : Choice) (control : Control) :
    List Call :=
  match choice, control.head with
  | .done, some (.simple _ (.exit ..)) => []
  | .done, some (.simple span _) => behind span.stop
  | _, _ => []

def State.completed (behind : Position → List Call) (s : State V) : Action V → List Call
  | .step choice _ _ => (s.frames.head?.map fun frame => frame.control.completed behind choice).getD []
  | _ => []

/-! ## Programs without inserted calls -/

section
variable (P : Span → Simple → Prop)

mutual

/-- There are no inserted calls, and every simple statement has the property. -/
def Stmt.All : Stmt → Prop
  | .simple span simple => P span simple
  | .compound _ _ suites => suites.All
  | .call _ => False

def Suite.All : Suite → Prop
  | .nil => True
  | .cons stmt rest => stmt.All ∧ rest.All

def Suites.All : Suites → Prop
  | .nil => True
  | .cons suite rest => suite.All ∧ rest.All

end

def Kont.All : Kont → Prop
  | .suite s | .finally s => s.All P
  | .loop (.compound _ _ suites) => suites.All P
  | .loop _ => False
  | .handling suites => suites.All P
  | .leaving | .pending _ => True

def Control.All (control : Control) : Prop := ∀ kont ∈ control.konts, kont.All P

structure State.All (s : State V) : Prop where
  frames : ∀ frame ∈ s.frames, frame.control.All P
  suspended : ∀ frame ∈ s.suspended, frame.control.All P
  closures : ∀ closure ∈ s.closures, closure.body.All P

end

variable {P : Span → Simple → Prop}

theorem Suites.all_iff (suites : Suites) : suites.All P ↔ ∀ suite ∈ suites.toList, suite.All P := by
  match suites with
  | .nil => simp [Suites.All, Suites.toList]
  | .cons suite rest => simp [Suites.All, Suites.toList, rest.all_iff]

section
variable {suites : Suites}

theorem Suites.All.handler (h : suites.All P) {i : ℕ} {suite : Suite}
    (hi : suites.handler i = some suite) : suite.All P :=
  suites.all_iff.mp h _ (List.mem_of_mem_dropLast (List.mem_of_mem_dropLast
    (List.mem_of_mem_tail (List.mem_of_getElem? hi))))

theorem all_getD {suite : Option Suite} (h : ∀ s ∈ suite, s.All P) :
    (suite.getD .nil).All P := by
  cases suite with
  | none => trivial
  | some suite => exact h suite rfl

theorem Suites.All.orElse (h : suites.All P) : suites.orElse.All P :=
  all_getD fun _ hs =>
    suites.all_iff.mp h _ (List.mem_of_mem_dropLast (List.mem_of_getLast? hs))

theorem Suites.All.final (h : suites.All P) : suites.final.All P :=
  all_getD fun _ hs => suites.all_iff.mp h _ (List.mem_of_getLast? hs)

end

/-! ## One step of a control -/

@[simp] theorem Control.before_nil (control : Control) : control.before [] = control := by
  match control with
  | ⟨_, []⟩ | ⟨_, .suite _ :: _⟩ | ⟨_, .loop _ :: _⟩ | ⟨_, .handling _ :: _⟩
  | ⟨_, .finally _ :: _⟩ | ⟨_, .leaving :: _⟩ | ⟨_, .pending _ :: _⟩ => rfl

theorem Control.before_suite (calls : List Call) (signal : Option Signal) (suite : Suite)
    (ks : List Kont) : Control.before calls ⟨signal, .suite suite :: ks⟩ =
      ⟨signal, .suite (suite.after calls) :: ks⟩ := rfl

theorem Stmt.calls_compound (span : Span) (compound : Compound) (suites : Suites) :
    (Stmt.compound span compound suites).calls behind = [] := rfl

theorem marks_splice (span : Span) (suites : Suites) (compound : Compound) (i : ℕ) :
    marks span (suites.splice behind) compound i =
      (marks span suites compound i).map (List.map (Kont.splice behind)) := by
  match compound, i with
  | .ifStmt _, _ | .matchStmt _, _ | .functionDef .., _ | .classDef .., _ => rfl
  | .forStmt .., 0 | .forStmt .., 1 | .forStmt .., _ + 2 => rfl
  | .whileStmt _, 0 | .whileStmt _, 1 | .whileStmt _, _ + 2 => rfl
  | .withStmt _, 0 | .withStmt _, _ + 1 | .tryStmt _, 0 | .tryStmt _, _ + 1 => rfl

section
variable {stmt : Stmt} {rest : Suite} {ks : List Kont} {choice : Choice} {control control' : Control}
  {kont : Kont} {signal : Signal}

theorem Stmt.enter_splice (span : Span) (compound : Compound) (suites : Suites) (i : ℕ) :
    ((Stmt.compound span compound suites).splice behind).begin (rest.splice behind)
        (ks.map (Kont.splice behind)) (.enter i) =
      ((Stmt.compound span compound suites).begin rest ks (.enter i)).map
        (Control.splice behind) := by
  simp only [Stmt.splice, Stmt.begin, marks_splice, Suites.toList_splice, List.getElem?_map]
  cases marks span suites compound i with
  | none => rfl
  | some marks =>
    cases suites.toList[i]? with
    | none => rfl
    | some suite => simp [Control.splice, Kont.splice]

theorem Stmt.begin_splice (h : stmt.All P) :
    (stmt.splice behind).begin ((rest.splice behind).after (stmt.calls behind))
        (ks.map (Kont.splice behind)) choice =
      (stmt.begin rest ks choice).map fun next => (next.splice behind).before
        (Control.completed behind choice ⟨none, .suite (.cons stmt rest) :: ks⟩) := by
  match stmt, choice with
  | .call _, _ => exact h.elim
  | .simple _ _, .raise => simp [Stmt.splice, Stmt.begin, Control.completed, Control.splice]
  | .simple span s, .done =>
    cases s <;>
      simp [Stmt.splice, Stmt.begin, Control.completed, Control.splice, Control.head, Stmt.calls,
        Control.before_suite, Kont.splice]
  | .simple _ _, .enter _ => rfl
  | .compound _ _ _, .raise => simp [Stmt.splice, Stmt.begin, Control.completed, Control.splice]
  | .compound span kind suites, .done =>
    cases kind <;>
      simp [Stmt.splice, Stmt.begin, Control.completed, Control.splice, Control.head,
        Stmt.calls_compound, Kont.splice, Suite.after_nil]
  | .compound _ _ _, .enter i =>
    rw [Stmt.calls_compound, Suite.after_nil, Stmt.enter_splice]
    simp [Control.completed]

theorem Kont.run_splice (h : kont.All P) :
    (kont.splice behind).run (ks.map (Kont.splice behind)) choice =
      (kont.run ks choice).map fun next => (next.splice behind).before
        (Control.completed behind choice ⟨none, kont :: ks⟩) := by
  match kont with
  | .suite .nil =>
    cases choice <;> simp [Kont.splice, Suite.splice, Kont.run, Control.completed, Control.head,
      Control.splice]
  | .suite (.cons stmt rest) => cases choice <;> exact Stmt.begin_splice h.1
  | .loop (.compound span compound suites) =>
    cases choice <;> simp [Kont.splice, Kont.run, Control.completed, Control.head, Control.splice,
      Suite.splice, Stmt.calls_compound, Suite.after_nil]
  | .leaving | .pending _ =>
    cases choice <;> simp [Kont.splice, Kont.run, Control.completed, Control.head, Control.splice]
  | .handling suites | .finally suites =>
    cases choice <;> simp [Kont.splice, Kont.run, Control.completed, Control.head, Control.splice,
      Suites.orElse_splice, Suites.final_splice]

theorem Kont.unwind_splice :
    (kont.splice behind).unwind signal (ks.map (Kont.splice behind)) choice =
      (kont.unwind signal ks choice).map (Control.splice behind) := by
  match kont, choice with
  | .suite _, .done | .suite _, .raise | .suite _, .enter _ => rfl
  | .loop _, .done => cases signal <;> rfl
  | .loop _, .raise | .loop _, .enter _ => rfl
  | .handling suites, .done =>
    simp [Kont.splice, Kont.unwind, Control.splice, Suites.final_splice]
  | .handling suites, .raise =>
    by_cases hsignal : signal = .raised <;>
      simp [Kont.splice, Kont.unwind, Control.splice, Suites.final_splice, hsignal]
  | .handling suites, .enter i =>
    by_cases hsignal : signal = .raised
    · cases hhandler : suites.handler i <;>
        simp [Kont.splice, Kont.unwind, Control.splice, Suites.final_splice,
          Suites.handler_splice, hsignal, hhandler]
    · simp [Kont.splice, Kont.unwind, hsignal]
  | .finally _, .done | .finally _, .raise | .finally _, .enter _ => rfl
  | .leaving, .done | .leaving, .raise | .leaving, .enter (_ + 1) => rfl
  | .leaving, .enter 0 =>
    by_cases hsignal : signal = .raised <;>
      simp [Kont.splice, Kont.unwind, Control.splice, hsignal]
  | .pending _, .done | .pending _, .raise | .pending _, .enter _ => rfl

/-- A step of the spliced program is one of the original, with the calls of the statement it
completes still to make. -/
theorem Control.next_splice (h : control.All P) :
    (control.splice behind).next choice =
      (control.next choice).map fun next =>
        (next.splice behind).before (control.completed behind choice) := by
  match control with
  | ⟨_, []⟩ => rfl
  | ⟨none, kont :: ks⟩ => exact Kont.run_splice (h kont List.mem_cons_self)
  | ⟨some signal, kont :: ks⟩ =>
    have hcompleted : Control.completed behind choice ⟨some signal, kont :: ks⟩ = [] := by
      cases choice <;> rfl
    rw [hcompleted]
    simp only [before_nil]
    exact Kont.unwind_splice

/-! ## What a step keeps -/

theorem Stmt.All.begin (h : stmt.All P) (hrest : rest.All P) (hks : ∀ kont ∈ ks, kont.All P)
    (hnext : stmt.begin rest ks choice = some control') : control'.All P := by
  have hbehind : ∀ kont ∈ Kont.suite rest :: ks, kont.All P := by
    rintro kont (_ | ⟨_, hkont⟩)
    · exact hrest
    · exact hks kont hkont
  match stmt, choice with
  | .call _, _ => exact h.elim
  | .simple _ _, .raise | .compound _ _ _, .raise =>
    obtain rfl := Option.some.inj hnext
    exact hks
  | .simple _ s, .done =>
    cases s <;> obtain rfl := Option.some.inj hnext
    all_goals first
      | exact hbehind
      | exact hks
  | .compound _ kind _, .done =>
    cases kind <;> first
      | (obtain rfl := Option.some.inj hnext; exact hbehind)
      | cases hnext
  | .compound span kind suites, .enter i =>
    simp only [Stmt.begin] at hnext
    split at hnext
    next marked suite hmarks hsuite =>
      obtain rfl := Option.some.inj hnext
      have hsuites : suites.All P := h
      have hmarked : ∀ kont ∈ marked, kont.All P := by
        match kind, i with
        | .ifStmt _, _ | .matchStmt _, _ =>
          obtain rfl := Option.some.inj hmarks
          simp
        | .forStmt .., 0 | .whileStmt _, 0 | .withStmt _, 0 | .tryStmt _, 0 =>
          obtain rfl := Option.some.inj hmarks
          simpa [Kont.All] using hsuites
        | .forStmt .., 1 | .whileStmt _, 1 =>
          obtain rfl := Option.some.inj hmarks
          simp
      intro kont hkont
      simp only [List.mem_cons, List.mem_append] at hkont
      rcases hkont with rfl | hkont | hkont
      · exact suites.all_iff.mp hsuites suite (List.mem_of_getElem? hsuite)
      · exact hmarked kont hkont
      · exact hbehind kont (List.mem_cons.mpr hkont)
    next => cases hnext

theorem Kont.All.run (h : kont.All P) (hks : ∀ kont ∈ ks, kont.All P)
    (hnext : kont.run ks choice = some control') : control'.All P := by
  have hcons : ∀ k : Kont, k.All P → ∀ kont ∈ k :: ks, kont.All P := by
    rintro k hk kont (_ | ⟨_, hkont⟩)
    · exact hk
    · exact hks kont hkont
  match kont, choice with
  | .suite .nil, .done | .leaving, .done | .leaving, .raise | .pending _, .done =>
    obtain rfl := Option.some.inj hnext
    exact hks
  | .suite (.cons stmt rest), .done | .suite (.cons stmt rest), .raise
  | .suite (.cons stmt rest), .enter _ => exact h.1.begin h.2 hks hnext
  | .loop (.compound _ _ suites), .done =>
    obtain rfl := Option.some.inj hnext
    exact hcons _ ⟨h, trivial⟩
  | .handling suites, .done =>
    obtain rfl := Option.some.inj hnext
    have hsuites : suites.All P := h
    rintro kont (_ | ⟨_, hkont⟩)
    · exact hsuites.orElse
    · exact hcons (.finally suites.final) hsuites.final kont hkont
  | .finally last, .done =>
    obtain rfl := Option.some.inj hnext
    exact hcons _ h

theorem Kont.All.unwind (h : kont.All P) (hks : ∀ kont ∈ ks, kont.All P)
    (hnext : kont.unwind signal ks choice = some control') : control'.All P := by
  have hcons : ∀ k : Kont, k.All P → ∀ kont ∈ k :: ks, kont.All P := by
    rintro k hk kont (_ | ⟨_, hkont⟩)
    · exact hk
    · exact hks kont hkont
  match kont, choice with
  | .suite _, .done | .pending _, .done | .leaving, .done | .leaving, .raise =>
    obtain rfl := Option.some.inj hnext
    exact hks
  | .loop stmt, .done =>
    cases signal <;> obtain rfl := Option.some.inj hnext
    all_goals first
      | exact hks
      | exact hcons _ h
  | .handling suites, .done =>
    obtain rfl := Option.some.inj hnext
    have hsuites : suites.All P := h
    rintro kont (_ | ⟨_, hkont⟩)
    · exact hsuites.final
    · exact hcons (.pending signal) trivial kont hkont
  | .handling suites, .raise =>
    simp only [Kont.unwind] at hnext
    split_ifs at hnext
    obtain rfl := Option.some.inj hnext
    have hsuites : suites.All P := h
    rintro kont (_ | ⟨_, hkont⟩)
    · exact hsuites.final
    · exact hcons (.pending .raised) trivial kont hkont
  | .handling suites, .enter i =>
    simp only [Kont.unwind] at hnext
    split_ifs at hnext
    obtain ⟨handler, hhandler, rfl⟩ := Option.map_eq_some_iff.mp hnext
    have hsuites : suites.All P := h
    rintro kont (_ | ⟨_, hkont⟩)
    · exact hsuites.handler hhandler
    · exact hcons (.finally suites.final) hsuites.final kont hkont
  | .finally last, .done =>
    obtain rfl := Option.some.inj hnext
    rintro kont (_ | ⟨_, hkont⟩)
    · exact h
    · exact hcons (.pending signal) trivial kont hkont
  | .leaving, .enter 0 =>
    simp only [Kont.unwind] at hnext
    split_ifs at hnext
    obtain rfl := Option.some.inj hnext
    exact hks

theorem Control.All.next (h : control.All P) (hnext : control.next choice = some control') :
    control'.All P := by
  match control with
  | ⟨_, []⟩ => cases hnext
  | ⟨none, kont :: ks⟩ =>
    exact (h kont List.mem_cons_self).run (fun k hk => h k (List.mem_cons_of_mem _ hk)) hnext
  | ⟨some _, kont :: ks⟩ =>
    exact (h kont List.mem_cons_self).unwind (fun k hk => h k (List.mem_cons_of_mem _ hk)) hnext

end

/-! ## One step of a state -/

section
variable {s s' : State V} {frame : Frame} {below : List Frame} {choice : Choice} {a : Action V}

theorem Control.head_all {control : Control} (h : control.All P) {stmt : Stmt}
    (hhead : control.head = some stmt) : stmt.All P := by
  match control with
  | ⟨none, .suite (.cons first _) :: _⟩ =>
    obtain rfl := Option.some.inj hhead
    exact (h _ List.mem_cons_self).1

theorem Control.head_splice (control : Control) :
    (control.splice behind).head = control.head.map (Stmt.splice behind) := by
  match control with
  | ⟨none, .suite (.cons _ _) :: _⟩ => rfl
  | ⟨none, .suite .nil :: _⟩ | ⟨none, .loop _ :: _⟩ | ⟨none, .handling _ :: _⟩
  | ⟨none, .finally _ :: _⟩ | ⟨none, .leaving :: _⟩ | ⟨none, .pending _ :: _⟩
  | ⟨none, []⟩ | ⟨some _, []⟩ | ⟨some _, _ :: _⟩ => rfl

theorem Stmt.stores_splice (stmt : Stmt) (choice : Choice) :
    (stmt.splice behind).stores choice = stmt.stores choice := by
  match stmt with
  | .simple .. | .call _ => rfl
  | .compound _ kind _ =>
    cases kind <;> cases choice with
    | enter i => cases i <;> rfl
    | _ => rfl

theorem Frame.stores_splice (frame : Frame) (choice : Choice) :
    (frame.splice behind).stores choice = frame.stores choice := by
  simp only [Frame.stores, Frame.splice, Frame.owner, Control.head_splice]
  cases frame.control.head with
  | none => rfl
  | some stmt => simp [Stmt.stores_splice]

theorem Frame.defines_splice (frame : Frame) (choice : Choice) :
    (frame.splice behind).defines choice = (frame.defines choice).map (Closure.splice behind) := by
  simp only [Frame.defines, Frame.splice, Frame.owner, Control.head_splice]
  rcases frame.control.head with _ | ⟨span, s⟩ | ⟨span, kind, suites⟩ | call
  · cases choice <;> rfl
  · cases choice <;> rfl
  · cases kind <;> cases choice <;>
      simp [Stmt.splice, Suites.toList_splice, Closure.splice]
  · cases choice <;> rfl

theorem Closure.frame_splice (closure : Closure) (space : ℕ) :
    (closure.splice behind).frame space = (closure.frame space).splice behind := by
  simp [Closure.frame, Closure.splice, Frame.splice, Control.splice, Kont.splice,
    Suite.scope_splice]

theorem Frame.classFrame_splice (frame : Frame) (space : ℕ) :
    (frame.splice behind).classFrame space =
      (frame.classFrame space).map (Frame.splice behind) := by
  simp only [Frame.classFrame, Frame.splice, Control.head_splice]
  rcases frame.control.head with _ | ⟨span, s⟩ | ⟨span, kind, suites⟩ | call
  · rfl
  · rfl
  · cases kind <;> rcases suites with _ | ⟨body, _ | _⟩ <;>
      simp [Stmt.splice, Suites.splice, Control.splice, Kont.splice, Suite.scope_splice, Frame.splice]
  · rfl

theorem State.before_nil (s : State V) : s.before [] = s := by
  obtain ⟨memory, frames, suspended, closures, fresh⟩ := s
  cases frames with
  | nil => rfl
  | cons frame below => simp [State.before]

theorem State.All.atCall (h : s.All P) : s.atCall = none := by
  unfold State.atCall
  split
  next frame below hframes =>
    split
    next call hhead =>
      have hcall := Control.head_all (h.frames frame (by simp [hframes])) hhead
      exact hcall.elim
    next => rfl
  next => rfl

theorem State.All.atCall_splice (h : s.All P) : (s.splice behind).atCall = none := by
  unfold State.atCall
  split
  next frame below hframes =>
    split
    next call hhead =>
      rw [State.splice] at hframes
      obtain ⟨first, rest, hfirst, rfl, -⟩ := List.map_eq_cons_iff.mp hframes
      rw [Frame.splice, Control.head_splice] at hhead
      obtain ⟨stmt, hstmt, hsplice⟩ := Option.map_eq_some_iff.mp hhead
      have hall := Control.head_all (h.frames first (by simp [hfirst])) hstmt
      cases stmt with
      | simple => cases hsplice
      | compound => cases hsplice
      | call => exact hall.elim
    next => rfl
  next => rfl

theorem State.advance_splice (hframe : frame.control.All P) (memory : Memory V)
    (values : String → V) :
    (s.splice behind).advance (frame.splice behind) (below.map (Frame.splice behind)) choice memory
        values =
      (s.advance frame below choice memory values).map fun s' =>
        (s'.splice behind).before (frame.control.completed behind choice) := by
  simp only [State.advance, Frame.stores_splice, Frame.defines_splice]
  obtain ⟨chain, signal, konts⟩ := frame
  cases konts with
  | nil =>
    have hcompleted : Control.completed behind choice ⟨signal, []⟩ = [] := by
      cases choice <;> cases signal <;> rfl
    rw [hcompleted]
    simp only [State.before_nil, Frame.splice, Control.splice, List.map_nil]
    by_cases hbelow : choice = .done ∧ below ≠ []
    · rw [if_pos hbelow, if_pos ⟨hbelow.1, by simpa using hbelow.2⟩]
      rfl
    · rw [if_neg hbelow, if_neg fun h => hbelow ⟨h.1, by simpa using h.2⟩]
      rfl
  | cons kont ks =>
    have hnext : (Control.splice behind _).next choice = _ := Control.next_splice hframe
    simp only [Frame.splice, Control.splice, List.map_cons] at hnext ⊢
    rw [hnext, Option.map_map, Option.map_map]
    congr 1
    funext control
    simp [State.splice, State.before, Frame.splice, Control.splice]

theorem State.completed_cons (hframes : s.frames = frame :: below) (memory : Memory V)
    (values : String → V) : s.completed behind (.step choice memory values) =
      frame.control.completed behind choice := by
  simp [State.completed, hframes]

/-- The step lemma: what the spliced program does next is what the original does, with the
calls behind a completed statement still to make. -/
theorem State.next_splice (h : s.All P) (ha : a.isReport = false) :
    (s.splice behind).next apply a =
      (s.next apply a).map fun s' => (s'.splice behind).before (s.completed behind a) := by
  have hcall := h.atCall
  have hcall' : (s.splice behind).atCall = none := h.atCall_splice
  cases hframes : s.frames with
  | nil => simp [State.next, State.splice, hframes]
  | cons frame below =>
    have hsplice : (s.splice behind).frames =
        frame.splice behind :: below.map (Frame.splice behind) := by
      simp [State.splice, hframes]
    simp only [State.next, hframes, hsplice, hcall, hcall']
    cases a with
    | report => cases ha
    | step choice memory values =>
      rw [State.completed_cons hframes]
      exact State.advance_splice (h.frames frame (by simp [hframes])) memory values
    | call i memory =>
      simp only [State.completed, State.before_nil]
      cases hclosure : s.closures[i]? <;>
        simp [State.splice, hclosure, Closure.frame_splice]
    | enterClass memory =>
      simp only [State.completed, State.before_nil, Frame.classFrame_splice]
      cases hbody : frame.classFrame s.fresh <;> simp [State.splice, hbody]
    | resume i memory =>
      simp only [State.completed, State.before_nil]
      cases hwaiting : s.suspended[i]? <;>
        simp [State.splice, hwaiting, List.eraseIdx_eq_take_drop_succ, List.map_take, List.map_drop]
    | suspend memory =>
      simp only [State.completed, State.before_nil]
      by_cases hbelow : below = [] <;> simp [State.splice, hbelow]

end

end Atomis.PyInstrument
