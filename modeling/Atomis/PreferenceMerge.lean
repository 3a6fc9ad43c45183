import Atomis.PreferenceStore

/-!
# Merges happen one after another

The renames of a run put the accepted patches in an order. The file is what that
order makes of the file of the start, every map returned and every map read is
what some beginning of the order makes of it.
-/

namespace Atomis.PreferenceStore
open KeyPatch History

namespace Stage

/-- Between taking the write lock and dropping it. -/
def inside : Stage → Bool
  | .locked | .merged _ | .written _ | .renamed _ => true
  | _ => false

def checked : Stage → Bool
  | .called | .refused _ => false
  | _ => true

/-- The map to be written, before it has replaced the file. -/
def building : Stage → Option Preferences
  | .merged stored | .written stored => some stored
  | _ => none

/-- The map an accepted call has written. -/
def accepted : Stage → Option Preferences
  | .renamed stored | .returned stored => some stored
  | _ => none

end Stage

def State.accepted (s : State) (i : ℕ) : Option Preferences := (s.stage i).bind Stage.accepted

def State.refused (s : State) (i : ℕ) : Prop := ∃ error, s.stage i = some (.refused error)

/-- What the patches make of `stored`, in the order of the commits. -/
def after (stored : Preferences) (commits : List (ℕ × PreferencesPatch)) : Preferences :=
  applyAll stored (commits.map Prod.snd)

@[simp] theorem after_nil (stored : Preferences) : after stored [] = stored := rfl

theorem after_append_singleton (stored : Preferences) (commits : List (ℕ × PreferencesPatch))
    (c : ℕ × PreferencesPatch) : after stored (commits ++ [c]) = apply (after stored commits) c.2 := by
  simp [after]

def Fits (stored : Preferences) : Prop := stored.keys.card ≤ maxKeys

instance (stored : Preferences) : Decidable (Fits stored) :=
  inferInstanceAs (Decidable (stored.keys.card ≤ maxKeys))

/-- What a commit wrote, at its place in the order. -/
def Recorded (stored : Preferences) (s : State) (before : List (ℕ × PreferencesPatch))
    (c : ℕ × PreferencesPatch) : Prop :=
  s.accepted c.1 = some (after stored (before ++ [c])) ∧ s.patch c.1 = c.2 ∧
    validate c.2 = .ok () ∧ Fits (after stored (before ++ [c]))

structure Inv (stored : Preferences) (s : State) : Prop where
  file : readAt s.file = after stored s.commits
  nodup : (s.commits.map Prod.fst).Nodup
  recorded : Always (Recorded stored s) s.commits
  committed : ∀ i m, s.accepted i = some m → (i, s.patch i) ∈ s.commits
  held : ∀ i stage, s.stage i = some stage → stage.inside = true → s.lock = some i
  building : ∀ i stage m, s.stage i = some stage → stage.building = some m →
    m = s.merging i ∧ Fits m
  temporary : ∀ i m, s.stage i = some (.written m) → s.temporary = some m
  checked : ∀ i stage, s.stage i = some stage → stage.checked = true →
    validate (s.patch i) = .ok ()
  reads : ∀ m ∈ s.reads, ∃ before, before <+: s.commits ∧ m = after stored before

variable {stored : Preferences} {s : State} {i : ℕ} {old new : Stage}

theorem inv_init (file : Contents) : Inv (readAt file) (State.init file) where
  file := rfl
  nodup := List.nodup_nil
  recorded := always_nil _
  committed i m h := by cases h
  held i stage h := by cases h
  building i stage m h := by cases h
  temporary i m h := by cases h
  checked i stage h := by cases h
  reads m h := by cases h

theorem Stage.building_eq_none_of_inside {stage : Stage} (h : stage.inside = false) :
    stage.building = none := by
  cases stage <;> simp_all [Stage.inside, Stage.building]

/-- Only one call is past taking the lock. -/
theorem Inv.outside (h : Inv stored s) (hi : s.stage i = some old) (hin : old.inside = true)
    {j : ℕ} {stage : Stage} (hne : j ≠ i) (hj : s.stage j = some stage) :
    stage.inside = false := by
  cases hjin : stage.inside with
  | false => rfl
  | true =>
    have hlock := (h.held j stage hj hjin).symm.trans (h.held i old hi hin)
    exact absurd (Option.some.inj hlock) hne

theorem Recorded.congr {t : State} (hacc : ∀ j, s.accepted j ≠ none → t.accepted j = s.accepted j)
    (hpatch : ∀ j, s.accepted j ≠ none → t.patch j = s.patch j)
    {before : List (ℕ × PreferencesPatch)} {c : ℕ × PreferencesPatch}
    (h : Recorded stored s before c) : Recorded stored t before c := by
  obtain ⟨h1, h2, h3⟩ := h
  have hne : s.accepted c.1 ≠ none := by simp [h1]
  exact ⟨(hacc _ hne).trans h1, (hpatch _ hne).trans h2, h3⟩

/-- A call moves on while nothing is committed. -/
theorem Inv.advance (h : Inv stored s) (hi : s.stage i = some old) {lock : Option ℕ}
    {temporary : Contents} (hacc : new.accepted = old.accepted)
    (hothers : ∀ j stage, j ≠ i → s.stage j = some stage → stage.inside = true → lock = some j)
    (hin : new.inside = true → lock = some i)
    (hbuild : ∀ m, new.building = some m → m = s.merging i ∧ Fits m)
    (hwritten : ∀ m, new = .written m → temporary = some m)
    (htemp : temporary = s.temporary ∨ old.inside = true)
    (hchecked : new.checked = true → validate (s.patch i) = .ok ()) :
    Inv stored { s.move i new with lock := lock, temporary := temporary } := by
  set t : State := { s.move i new with lock := lock, temporary := temporary }
  have hstage : ∀ j, t.stage j = if j = i then some new else s.stage j := stage_move hi new
  have hpatch : ∀ j, t.patch j = s.patch j := patch_move s i new
  have haccepted : ∀ j, t.accepted j = s.accepted j := by
    intro j
    simp only [State.accepted, hstage]
    split_ifs with hj
    · subst hj
      simp [hi, hacc]
    · rfl
  refine ⟨h.file, h.nodup, ?_, ?_, ?_, ?_, ?_, ?_, h.reads⟩
  · exact always_mono h.recorded fun before c hc =>
      hc.congr (fun j _ => haccepted j) fun j _ => hpatch j
  · intro j m hj
    rw [haccepted] at hj
    rw [hpatch]
    exact h.committed j m hj
  · intro j stage hj hjin
    rw [hstage] at hj
    split_ifs at hj with hji
    · subst hji
      obtain rfl := Option.some.inj hj
      exact hin hjin
    · exact hothers j stage hji hj hjin
  · intro j stage m hj hm
    have hmerging : t.merging j = s.merging j := congrArg (apply (readAt s.file)) (hpatch j)
    rw [hstage] at hj
    rw [hmerging]
    split_ifs at hj with hji
    · subst hji
      obtain rfl := Option.some.inj hj
      exact hbuild m hm
    · exact h.building j stage m hj hm
  · intro j m hj
    rw [hstage] at hj
    split_ifs at hj with hji
    · exact hwritten m (Option.some.inj hj)
    · rcases htemp with htemp | hin
      · exact htemp.trans (h.temporary j m hj)
      · cases h.outside hi hin hji hj
  · intro j stage hj hjc
    rw [hstage] at hj
    rw [hpatch]
    split_ifs at hj with hji
    · subst hji
      obtain rfl := Option.some.inj hj
      exact hchecked hjc
    · exact h.checked j stage hj hjc

/-- A call that neither holds nor takes the lock. -/
theorem Inv.move (h : Inv stored s) (hi : s.stage i = some old) (hacc : new.accepted = old.accepted)
    (hin : new.inside = true → old.inside = true)
    (hbuild : ∀ m, new.building = some m → m = s.merging i ∧ Fits m)
    (hwritten : ∀ m, new ≠ .written m)
    (hchecked : new.checked = true → validate (s.patch i) = .ok ()) : Inv stored (s.move i new) :=
  h.advance hi hacc (fun j stage _ hj hjin => h.held j stage hj hjin)
    (fun hnew => h.held i old hi (hin hnew)) hbuild (fun m hm => absurd hm (hwritten m))
    (.inl rfl) hchecked

/-- The holder of the lock drops it, and its map with it. -/
theorem Inv.release (h : Inv stored s) (hi : s.stage i = some old) (hold : old.inside = true)
    {temporary : Contents} (hacc : new.accepted = old.accepted) (hnew : new.inside = false)
    (hchecked : new.checked = true → validate (s.patch i) = .ok ()) :
    Inv stored { s.move i new with lock := none, temporary := temporary } := by
  refine h.advance hi hacc ?_ (fun hin => ?_) (fun m hm => ?_) (fun m hm => ?_) (.inr hold) hchecked
  · intro j stage hne hj hjin
    rw [h.outside hi hold hne hj] at hjin
    cases hjin
  · rw [hnew] at hin
    cases hin
  · rw [Stage.building_eq_none_of_inside hnew] at hm
    cases hm
  · subst hm
    cases hnew

theorem Inv.validate (h : Inv stored s) (hi : s.stage i = some .called) :
    Inv stored (next s (.validate i)) := by
  simp only [next]
  cases hv : PreferenceStore.validate (s.patch i) with
  | ok u =>
    refine h.move hi rfl (fun hin => ?_) (fun m hm => ?_) (fun m hm => ?_) fun _ => hv
    all_goals contradiction
  | error e =>
    refine h.move hi rfl (fun hin => ?_) (fun m hm => ?_) (fun m hm => ?_) fun hchecked => ?_
    all_goals contradiction

theorem Inv.lock (h : Inv stored s) (hi : s.stage i = some .waiting) (hfree : s.lock = none) :
    Inv stored (next s (.lock i)) := by
  refine h.advance hi rfl ?_ (fun _ => rfl) (fun m hm => ?_) (fun m hm => ?_) (.inl rfl)
    fun _ => h.checked i _ hi rfl
  · intro j stage _ hj hjin
    have hheld := h.held j stage hj hjin
    rw [hfree] at hheld
    cases hheld
  · cases hm
  · cases hm

theorem Inv.read (h : Inv stored s) (hi : s.stage i = some .locked) :
    Inv stored (next s (.read i)) := by
  simp only [next]
  split_ifs with hmany
  · refine h.release hi rfl rfl rfl fun hchecked => ?_
    contradiction
  · refine h.move hi rfl (fun _ => rfl) (fun m hm => ?_) (fun m hm => ?_)
      fun _ => h.checked i _ hi rfl
    · obtain rfl := Option.some.inj hm
      exact ⟨rfl, Nat.not_lt.mp hmany⟩
    · cases hm

theorem Inv.write {m : Preferences} (h : Inv stored s) (hi : s.stage i = some (.merged m)) :
    Inv stored (next s (.write i m)) := by
  refine h.advance hi rfl (fun j stage _ hj hjin => h.held j stage hj hjin)
    (fun _ => h.held i _ hi rfl) (fun m' hm' => ?_) (fun m' hm' => ?_) (.inr rfl)
    fun _ => h.checked i _ hi rfl
  · obtain rfl := Option.some.inj hm'
    exact h.building i _ _ hi rfl
  · obtain rfl := Stage.written.inj hm'
    rfl

theorem accepted_rename {m : Preferences} (hi : s.stage i = some (.written m)) (j : ℕ) :
    (next s (.rename i m)).accepted j = if j = i then some m else s.accepted j := by
  have hstage : (next s (.rename i m)).stage j = _ := stage_move hi (.renamed m) j
  simp only [State.accepted, hstage]
  split_ifs with hj <;> rfl

theorem Inv.of_mem_commits (h : Inv stored s) {c : ℕ × PreferencesPatch} (hc : c ∈ s.commits) :
    ∃ m, s.accepted c.1 = some m ∧ s.patch c.1 = c.2 := by
  obtain ⟨before, rest, heq⟩ := List.append_of_mem hc
  obtain ⟨hacc, hpatch, -⟩ := h.recorded before c rest heq
  exact ⟨_, hacc, hpatch⟩

theorem Inv.notMem_commits (h : Inv stored s) (hi : s.accepted i = none) :
    i ∉ s.commits.map Prod.fst := by
  intro hmem
  obtain ⟨c, hc, rfl⟩ := List.mem_map.mp hmem
  obtain ⟨m, hacc, -⟩ := h.of_mem_commits hc
  rw [hi] at hacc
  cases hacc

/-- The commit: the file becomes what the patch makes of it. -/
theorem Inv.rename {m : Preferences} (h : Inv stored s) (hi : s.stage i = some (.written m)) :
    Inv stored (next s (.rename i m)) := by
  have hnone : s.accepted i = none := by simp [State.accepted, hi, Stage.accepted]
  obtain ⟨hm, hfits⟩ := h.building i _ m hi rfl
  have hafter : after stored (s.commits ++ [(i, s.patch i)]) = m := by
    rw [after_append_singleton, ← h.file]
    exact hm.symm
  have hcommits : (next s (.rename i m)).commits = s.commits ++ [(i, s.patch i)] := rfl
  have hpatch : ∀ j, (next s (.rename i m)).patch j = s.patch j := patch_move s i _
  have hstage : ∀ j, (next s (.rename i m)).stage j = _ := stage_move hi (.renamed m)
  refine ⟨?_, ?_, ?_, ?_, ?_, ?_, ?_, ?_, ?_⟩
  · rw [hcommits, hafter]
    have htemp : (next s (.rename i m)).file = s.temporary := rfl
    rw [htemp, h.temporary i m hi]
    rfl
  · rw [hcommits, List.map_append, List.nodup_append]
    refine ⟨h.nodup, List.nodup_singleton _, ?_⟩
    rintro j hj k hk rfl
    obtain rfl := List.mem_singleton.mp hk
    exact h.notMem_commits hnone hj
  · rw [hcommits, always_append_singleton]
    constructor
    · refine always_mono h.recorded fun before c hc => hc.congr (fun j hj => ?_) fun j _ => hpatch j
      rw [accepted_rename hi, if_neg]
      rintro rfl
      exact hj hnone
    · refine ⟨?_, hpatch i, h.checked i _ hi rfl, hafter ▸ hfits⟩
      rw [accepted_rename hi, if_pos rfl, hafter]
  · intro j m' hj
    rw [accepted_rename hi] at hj
    rw [hpatch, hcommits, List.mem_append, List.mem_singleton]
    split_ifs at hj with hji
    · exact .inr (by rw [hji])
    · exact .inl (h.committed j m' hj)
  · intro j stage hj hjin
    rw [hstage] at hj
    split_ifs at hj with hji
    · subst hji
      exact h.held j _ hi rfl
    · exact h.held j stage hj hjin
  · intro j stage m' hj hm'
    rw [hstage] at hj
    split_ifs at hj with hji
    · obtain rfl := Option.some.inj hj
      cases hm'
    · have hout := h.outside hi rfl hji hj
      rw [Stage.building_eq_none_of_inside hout] at hm'
      cases hm'
  · intro j m' hj
    rw [hstage] at hj
    split_ifs at hj with hji
    · cases hj
    · cases h.outside hi rfl hji hj
  · intro j stage hj hjc
    rw [hstage] at hj
    rw [hpatch]
    split_ifs at hj with hji
    · subst hji
      exact h.checked j _ hi rfl
    · exact h.checked j stage hj hjc
  · intro m' hm'
    obtain ⟨before, hpre, rfl⟩ := h.reads m' hm'
    exact ⟨before, hpre.trans (List.prefix_append _ _), rfl⟩

theorem Inv.call (h : Inv stored s) (patch : PreferencesPatch) :
    Inv stored (next s (.call patch)) := by
  have hold : ∀ j stage, (next s (.call patch)).stage j = some stage →
      stage = .called ∨ s.stage j = some stage := by
    intro j stage hj
    rw [stage_call] at hj
    split_ifs at hj with hji
    · exact .inl (Option.some.inj hj).symm
    · exact .inr hj
  have hkeep : ∀ j stage, s.stage j = some stage →
      (next s (.call patch)).stage j = some stage ∧ (next s (.call patch)).patch j = s.patch j := by
    intro j stage hj
    have hlt := lt_of_stage hj
    rw [stage_call, patch_call, if_neg hlt.ne, if_neg hlt.ne]
    exact ⟨hj, rfl⟩
  have hacc : ∀ j m, s.accepted j = some m → (next s (.call patch)).accepted j = some m ∧
      (next s (.call patch)).patch j = s.patch j := by
    intro j m hj
    obtain ⟨stage, hstage, hm⟩ := Option.bind_eq_some_iff.mp hj
    obtain ⟨hs, hp⟩ := hkeep j stage hstage
    exact ⟨by simp [State.accepted, hs, hm], hp⟩
  refine ⟨h.file, h.nodup, ?_, ?_, ?_, ?_, ?_, ?_, h.reads⟩
  · refine always_mono h.recorded fun before c hc => hc.congr (fun j hj => ?_) fun j hj => ?_
    · obtain ⟨m, hm⟩ := Option.ne_none_iff_exists'.mp hj
      exact (hacc j m hm).1.trans hm.symm
    · obtain ⟨m, hm⟩ := Option.ne_none_iff_exists'.mp hj
      exact (hacc j m hm).2
  · intro j m hj
    obtain ⟨stage, hstage, hm⟩ := Option.bind_eq_some_iff.mp hj
    rcases hold j stage hstage with rfl | hs
    · cases hm
    · rw [(hkeep j stage hs).2]
      exact h.committed j m (by simp [State.accepted, hs, hm])
  · intro j stage hj hjin
    rcases hold j stage hj with rfl | hs
    · cases hjin
    · exact h.held j stage hs hjin
  · intro j stage m hj hm
    rcases hold j stage hj with rfl | hs
    · cases hm
    · obtain ⟨hbuilt, hfits⟩ := h.building j stage m hs hm
      have hmerging : (next s (.call patch)).merging j = s.merging j :=
        congrArg (apply (readAt s.file)) (hkeep j stage hs).2
      exact ⟨hbuilt.trans hmerging.symm, hfits⟩
  · intro j m hj
    rcases hold j _ hj with hs | hs
    · cases hs
    · exact h.temporary j m hs
  · intro j stage hj hjc
    rcases hold j stage hj with rfl | hs
    · cases hjc
    · rw [(hkeep j stage hs).2]
      exact h.checked j stage hs hjc

theorem Inv.readFile (h : Inv stored s) : Inv stored (next s .readFile) := by
  refine ⟨h.file, h.nodup, h.recorded, h.committed, h.held, h.building, h.temporary, h.checked, ?_⟩
  intro m hm
  rcases List.mem_append.mp hm with hm | hm
  · exact h.reads m hm
  · obtain rfl := List.mem_singleton.mp hm
    exact ⟨s.commits, List.prefix_refl _, h.file⟩

theorem inv_step (s : State) (a : Action) (h : Inv stored s) (ha : enabled s a) :
    Inv stored (next s a) := by
  cases a with
  | call patch => exact h.call patch
  | validate i => exact h.validate ha
  | lock i => exact h.lock ha.1 ha.2
  | read i => exact h.read ha
  | write i m => exact h.write ha
  | writeFails i m error left =>
    refine h.release ha rfl rfl rfl fun hchecked => ?_
    contradiction
  | rename i m => exact h.rename ha
  | renameFails i m error =>
    refine h.release ha rfl rfl rfl fun hchecked => ?_
    contradiction
  | finish i m => exact h.release ha rfl rfl rfl fun _ => h.checked i _ ha rfl
  | readFile => exact h.readFile

/-- The commits grow at their end, and only by a call that is not among them. -/
theorem commits_step (h : Inv stored s) {a : Action}
    (ha : enabled s a) : (next s a).commits = s.commits ∨
      ∃ i m, a = .rename i m ∧ i ∉ s.commits.map Prod.fst ∧
        (next s a).commits = s.commits ++ [(i, s.patch i)] := by
  cases a with
  | rename i m =>
    have hi : s.stage i = some (.written m) := ha
    exact .inr ⟨i, m, rfl, h.notMem_commits (by simp [State.accepted, hi, Stage.accepted]), rfl⟩
  | validate i =>
    left
    simp only [next]
    split <;> rfl
  | read i =>
    left
    simp only [next]
    split_ifs <;> rfl
  | call _ | lock _ | write _ _ | writeFails _ _ _ _ | renameFails _ _ _ | finish _ _ | readFile =>
    exact .inl rfl

/-- An accepted call stays accepted. -/
theorem accepted_next {a : Action} (h : Inv stored s) (ha : enabled s a)
    (hi : (s.accepted i).isSome = true) : ((next s a).accepted i).isSome = true := by
  obtain ⟨m, hm⟩ := Option.isSome_iff_exists.mp hi
  have hmem : (i, s.patch i) ∈ (next s a).commits := by
    rcases commits_step h ha with hsame | ⟨j, m', rfl, -, hgrow⟩
    · exact hsame ▸ h.committed i m hm
    · exact hgrow ▸ List.mem_append_left _ (h.committed i m hm)
  obtain ⟨m', hacc, -⟩ := (inv_step s a h ha).of_mem_commits hmem
  simp [hacc]

theorem inv_reaches {file : Contents} (hrun : machine.Reaches (State.init file) s) :
    Inv (readAt file) s :=
  hrun.invariant inv_step (inv_init file)

theorem file_of_refused {a : Action} (ha : enabled s a) (hbefore : ¬ s.refused i)
    (hafter : (next s a).refused i) : (next s a).file = s.file := by
  cases a with
  | rename j m =>
    obtain ⟨error, hi⟩ := hafter
    have hstage : (next s (.rename j m)).stage i = _ := stage_move ha (.renamed m) i
    rw [hstage] at hi
    split_ifs at hi with hij
    · cases hi
    · exact absurd ⟨error, hi⟩ hbefore
  | validate j =>
    simp only [next]
    split <;> rfl
  | read j =>
    simp only [next]
    split_ifs <;> rfl
  | call _ | lock _ | write _ _ | writeFails _ _ _ _ | renameFails _ _ _ | finish _ _ | readFile =>
    rfl

theorem Inv.fits (h : Inv stored s) (hstart : Fits stored) {before : List (ℕ × PreferencesPatch)}
    (hpre : before <+: s.commits) : Fits (after stored before) := by
  rcases List.eq_nil_or_concat before with rfl | ⟨init, c, rfl⟩
  · exact hstart
  · obtain ⟨rest, heq⟩ := hpre
    rw [List.concat_eq_append, List.append_assoc] at heq
    rw [List.concat_eq_append]
    exact (h.recorded init c rest heq.symm).2.2.2

theorem after_swap (before rest : List (ℕ × PreferencesPatch)) {c d : ℕ × PreferencesPatch}
    (h : DisjointKeys c.2 d.2) :
    after stored (before ++ c :: d :: rest) = after stored (before ++ d :: c :: rest) := by
  have hcomm := apply_comm h (after stored before)
  simp only [after, List.map_append, List.map_cons, applyAll_append] at hcomm ⊢
  exact congrArg (fun m => applyAll m (rest.map Prod.snd)) hcomm

theorem merges_serialise (file : Contents) (s : State)
    (hrun : machine.Reaches (State.init file) s) :
    ∃ order : List (ℕ × PreferencesPatch), (order.map Prod.fst).Nodup ∧
      (∀ i p, (i, p) ∈ order ↔ s.patch i = p ∧ (s.accepted i).isSome = true) ∧
      readAt s.file = after (readAt file) order ∧
      (∀ before i p rest, order = before ++ (i, p) :: rest →
        s.accepted i = some (after (readAt file) (before ++ [(i, p)])) ∧
          validate p = .ok () ∧ Fits (after (readAt file) (before ++ [(i, p)]))) ∧
      (∀ m ∈ s.reads, ∃ before, before <+: order ∧ m = after (readAt file) before) ∧
      (∀ i, s.refused i → ∀ p, (i, p) ∉ order) ∧
      (∀ a i, machine.enabled s a → ¬ s.refused i → (machine.next s a).refused i →
        (machine.next s a).file = s.file) ∧
      (Fits (readAt file) → Fits (readAt s.file) ∧ ∀ m ∈ s.reads, Fits m) ∧
      ∀ before c d rest, order = before ++ c :: d :: rest → DisjointKeys c.2 d.2 →
        after (readAt file) (before ++ d :: c :: rest) = readAt s.file := by
  have h := inv_reaches hrun
  have hmem : ∀ i p, (i, p) ∈ s.commits → s.patch i = p ∧ (s.accepted i).isSome = true := by
    intro i p hip
    obtain ⟨m, hacc, hpatch⟩ := h.of_mem_commits hip
    exact ⟨hpatch, by simp [hacc]⟩
  refine ⟨s.commits, h.nodup, fun i p => ⟨hmem i p, ?_⟩, h.file, ?_, h.reads, ?_,
    fun a i ha hbefore hafter => file_of_refused ha hbefore hafter, fun hstart => ⟨?_, ?_⟩, ?_⟩
  · rintro ⟨rfl, hacc⟩
    obtain ⟨m, hm⟩ := Option.isSome_iff_exists.mp hacc
    exact h.committed i m hm
  · intro before i p rest heq
    obtain ⟨hacc, -, hvalid, hfits⟩ := h.recorded before (i, p) rest heq
    exact ⟨hacc, hvalid, hfits⟩
  · rintro i ⟨error, hi⟩ p hip
    have hacc := (hmem i p hip).2
    simp [State.accepted, hi, Stage.accepted] at hacc
  · rw [h.file]
    exact h.fits hstart (List.prefix_refl _)
  · intro m hm
    obtain ⟨before, hpre, rfl⟩ := h.reads m hm
    exact h.fits hstart hpre
  · intro before c d rest heq hdisjoint
    rw [h.file, heq, after_swap before rest hdisjoint]

/-- Two devices save at the same moment, while a third reads and a fourth is refused. -/
def twoDevices : List Action :=
  let theme : Preferences := apply ∅ [("atomis.theme", some "mocha")]
  let both : Preferences := apply theme [("atomis.vim", some "true")]
  [.call [("atomis.theme", some "mocha")], .call [("atomis.vim", some "true")], .call [("", none)],
    .validate 0, .validate 1, .validate 2, .lock 0, .read 0, .write 0 theme, .readFile,
    .rename 0 theme, .readFile, .finish 0 theme, .lock 1, .read 1, .write 1 both, .rename 1 both,
    .finish 1 both]

theorem merges_serialise_twoDevices :
    ∃ s, machine.Reaches (State.init none) s ∧ s.stage 2 = some (.refused "Invalid preference key") ∧
      (readAt s.file).lookup "atomis.theme" = some "mocha" ∧
      (readAt s.file).lookup "atomis.vim" = some "true" ∧
      ∃ order : List (ℕ × PreferencesPatch), (order.map Prod.fst).Nodup ∧
        readAt s.file = after ∅ order ∧
        ∀ m ∈ s.reads, ∃ before, before <+: order ∧ m = after ∅ before := by
  obtain ⟨s, hrun, hs⟩ := Machine.exists_reaches_of_exec (M := machine) (s := State.init none)
    (l := twoDevices) (p := fun s => decide
      (s.stage 2 = some (.refused "Invalid preference key") ∧
        (readAt s.file).lookup "atomis.theme" = some "mocha" ∧
        (readAt s.file).lookup "atomis.vim" = some "true")) (by decide +kernel)
  obtain ⟨hrefused, htheme, hvim⟩ := of_decide_eq_true hs
  obtain ⟨order, hnodup, -, hfile, -, hreads, -⟩ := merges_serialise none s hrun
  exact ⟨s, hrun, hrefused, htheme, hvim, order, hnodup, hfile, hreads⟩

end Atomis.PreferenceStore
