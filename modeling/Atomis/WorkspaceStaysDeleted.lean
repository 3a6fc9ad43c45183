import Atomis.WorkspaceDeletion

/-!
# When a deleted workspace stays deleted

Every disk operation of an attached session, other than making directories,
fails once the directory is gone. So does a refresh that has not read the entry
file by then.
-/

namespace Atomis.WorkspaceDeletion
open Protocol Tree Workspace

/-! ## Where the steps act -/

def Below (dir : List String) (path : List (Component String)) : Prop :=
  ∃ rest, rest ≠ [] ∧ path = dir.map .name ++ rest

/-- What the step reads or writes, other than by making directories, is below the directory. -/
def DiskStep.Within (dir : List String) : DiskStep → Prop
  | makeDirs _ => True
  | write path _ | remove path | rename path _ => Below dir path
  | swapIn staging _ backup => Below dir staging ∧ Below dir backup

def DiskStep.removes : DiskStep → Bool
  | remove _ => true
  | _ => false

section
variable {session : Session} {texts : String → String} {dir : List String}

theorem below_destination (hroot : session.root = dir) {path : String}
    (h : projectPathOk path = true) : Below dir (session.destination path) := by
  refine ⟨.name "src" :: components path, List.cons_ne_nil _ _, ?_⟩
  rw [Session.destination, if_neg (head_of_proper (projectPathOk_proper h)), Session.sourceRoot,
    hroot]
  simp

theorem below_inRoot (hroot : session.root = dir) (name : String) :
    Below dir (session.inRoot name) := ⟨[.name name], by simp, by rw [Session.inRoot, hroot]⟩

theorem Below.append {path : List (Component String)} (h : Below dir path)
    (rest : List (Component String)) : Below dir (path ++ rest) := by
  obtain ⟨first, hne, rfl⟩ := h
  exact ⟨first ++ rest, by simp [hne], List.append_assoc _ _ _⟩

theorem Below.beside {path : List (Component String)} (h : Below dir path) (name : String) :
    Below dir (path.dropLast ++ [.name name]) := by
  obtain ⟨rest, hne, rfl⟩ := h
  exact ⟨rest.dropLast ++ [.name name], by simp,
    by rw [List.dropLast_append_of_ne_nil hne, List.append_assoc]⟩

theorem within_writeSteps (hroot : session.root = dir) {temporary path source : String}
    (h : projectPathOk path = true) :
    ∀ step ∈ writeSteps session temporary path source, step.Within dir ∧ step.removes = false := by
  have hpath := (below_destination hroot h).beside temporary
  simp only [writeSteps, List.forall_mem_cons]
  exact ⟨⟨trivial, rfl⟩, ⟨hpath, rfl⟩, ⟨hpath, rfl⟩, by simp⟩

theorem within_replaceSteps (hroot : session.root = dir) (staging backup : String)
    (sources : List SourceFile) :
    ∀ step ∈ replaceSteps session staging backup sources,
      step.Within dir ∧ step.removes = false := by
  intro step hstep
  simp only [replaceSteps, stageSteps, List.cons_append, List.mem_cons, List.mem_append,
    List.mem_flatMap, List.not_mem_nil, or_false] at hstep
  rcases hstep with rfl | ⟨file, -, rfl | rfl⟩ | rfl | rfl
  · exact ⟨trivial, rfl⟩
  · exact ⟨trivial, rfl⟩
  · exact ⟨(below_inRoot hroot staging).append _, rfl⟩
  · exact ⟨below_inRoot hroot "src", rfl⟩
  · exact ⟨⟨below_inRoot hroot staging, below_inRoot hroot backup⟩, rfl⟩

theorem DiskStep.keeps {step : DiskStep} {p : Prop}
    (h : step.Within dir ∧ step.removes = false) :
    step.Within dir ∧ (step.removes = true → p) :=
  ⟨h.1, fun hr => by rw [h.2] at hr; cases hr⟩

/-- Only a call that deletes a file removes one, and it does nothing else. -/
theorem within_steps (hroot : session.root = dir) {c : Call} (hc : requested c = true) :
    ∀ step ∈ steps session texts c, step.Within dir ∧
      (step.removes = true → saves c = false ∧ steps session texts c = [step]) := by
  intro step hstep
  cases c with
  | update => exact DiskStep.keeps (within_writeSteps hroot hc step hstep)
  | createFile => exact DiskStep.keeps (within_writeSteps hroot hc step hstep)
  | renameFile version path newPath =>
    simp only [requested, Bool.and_eq_true] at hc
    simp only [steps, List.mem_cons, List.not_mem_nil, or_false] at hstep
    rcases hstep with rfl | rfl
    · exact DiskStep.keeps ⟨trivial, rfl⟩
    · exact DiskStep.keeps ⟨below_destination hroot hc.1, rfl⟩
  | deleteFile version path =>
    obtain rfl : step = .remove (session.destination path) := by simpa [steps] using hstep
    exact ⟨below_destination hroot hc, fun _ => ⟨rfl, rfl⟩⟩
  | resetFiles => exact DiskStep.keeps (within_replaceSteps hroot _ _ _ step hstep)
  | replaceFiles => cases hc

theorem steps_ne_nil (c : Call) : steps session texts c ≠ [] := by
  cases c <;> simp [steps, writeSteps, replaceSteps]

end

/-! ## What the steps do once the directory is gone -/

section
variable {disk : Disk} {dir : List String} {faults : Faults} {step : DiskStep}

theorem run_of_gone (h : Gone disk (dir.map .name)) (hw : step.Within dir)
    (hm : step.makesDirs = false) : step.run faults disk = (step.removes, disk) := by
  cases step with
  | makeDirs path => cases hm
  | write path content =>
    obtain ⟨rest, hne, rfl⟩ := hw
    exact h.write_eq hne _ _
  | rename source target =>
    obtain ⟨rest, hne, rfl⟩ := hw
    exact h.rename_eq hne _ _
  | remove path =>
    obtain ⟨rest, hne, rfl⟩ := hw
    simp [DiskStep.run, DiskStep.removes, h.remove_eq hne]
  | swapIn staging source backup =>
    obtain ⟨rest, hne, rfl⟩ := hw.1
    exact h.rename_eq hne _ _

theorem undo_within {undo : DiskStep} (hw : step.Within dir) (h : step.undo = some undo) :
    undo.Within dir ∧ undo.makesDirs = false := by
  cases step with
  | swapIn staging source backup =>
    obtain rfl : .rename backup source = undo := Option.some.inj h
    exact ⟨hw.2, rfl⟩
  | makeDirs | write | rename | remove => cases h

end

theorem not_unlinkable {disk : Disk} {dir p : List String} (h : Gone disk (dir.map .name)) :
    ¬ Unlinkable disk dir p := by
  rintro ⟨q, hq, hdir, -⟩
  have hlocate := locate_of_place hq (by rw [hdir]; rfl)
  rw [h.at_end q hlocate] at hdir
  cases hdir

/-! ## The invariant -/

section
variable {w : Attached} {format : MetaText} {texts : String → String}

def Ended (s : State) : Prop := .deleted ∈ s.answers ∨ ∃ k, s.deletions k = .removed

/-- What is left to do is the end of what the call does. -/
def Remaining (w : Attached) (texts : String → String) (e : Edit) : Prop :=
  requested e.call = true ∧ match e.phase with
    | .refreshing _ => True
    | .working pending _ => pending <:+ steps (w.sessions e.session) texts e.call
    | .undoing step => step.Within w.dir ∧ step.makesDirs = false

structure Inv (w : Attached) (texts : String → String) (s : State) : Prop where
  remaining : ∀ e ∈ s.edit, Remaining w texts e
  gone : Ended s → Gone s.disk (w.dir.map .name)
  quiet : Ended s → s.edit.any (outlives w texts s.snapshots) = false
  unsaved : History.Always (fun before a => .deleted ∈ before → a.savesDocument = false) s.answers

variable {s s' : State}

theorem inv_init (disk : Disk) (snapshots : ℕ → Snapshot) :
    Inv w texts (init disk snapshots) := by
  have hended : ¬ Ended (init disk snapshots) := by
    rintro (h | ⟨k, h⟩)
    · cases h
    · cases h
  exact ⟨nofun, fun h => absurd h hended, fun h => absurd h hended,
    History.always_nil _⟩

/-- A step that answers nothing, or something that is not the end of a deletion. -/
def Answers (s s' : State) : Prop :=
  s'.answers = s.answers ∨ ∃ a, s'.answers = s.answers ++ [a] ∧ a ≠ .deleted ∧
    (Ended s → a.savesDocument = false)

theorem Answers.ended (h : Answers s s') (hdeletions : s'.deletions = s.deletions)
    (hended : Ended s') : Ended s := by
  rcases hended with hmem | ⟨k, hk⟩
  · rcases h with h | ⟨a, h, hne, -⟩
    · exact .inl (h ▸ hmem)
    · rw [h, List.mem_append, List.mem_singleton] at hmem
      exact .inl (hmem.resolve_right (Ne.symm hne))
  · exact .inr ⟨k, hdeletions ▸ hk⟩

theorem Inv.unsaved_of (h : Inv w texts s) (ha : Answers s s') :
    History.Always (fun before a => .deleted ∈ before → a.savesDocument = false) s'.answers := by
  rcases ha with ha | ⟨a, ha, -, hsaves⟩
  · rw [ha]
    exact h.unsaved
  · rw [ha, History.always_append_singleton]
    exact ⟨h.unsaved, fun hmem => hsaves (.inl hmem)⟩

/-- The deletions and the requests for the meta leave the edit in progress alone. -/
theorem Inv.of_disk (h : Inv w texts s) (hedit : s'.edit = s.edit)
    (hsnapshots : s'.snapshots = s.snapshots) (hdeletions : s'.deletions = s.deletions)
    (hgone : Gone s.disk (w.dir.map .name) → Gone s'.disk (w.dir.map .name))
    (ha : Answers s s') : Inv w texts s' where
  remaining := hedit ▸ h.remaining
  gone hended := hgone (h.gone (ha.ended hdeletions hended))
  quiet hended := by
    rw [hedit, hsnapshots]
    exact h.quiet (ha.ended hdeletions hended)
  unsaved := h.unsaved_of ha

/-- The edit in progress goes on. -/
theorem Inv.of_edit (h : Inv w texts s) {e : Edit} (hedit : s'.edit = some e)
    (hdeletions : s'.deletions = s.deletions) (hanswers : s'.answers = s.answers)
    (hremaining : Remaining w texts e)
    (hended : Ended s → s'.disk = s.disk ∧ outlives w texts s'.snapshots e = false) :
    Inv w texts s' where
  remaining e' he' := by
    obtain rfl : e = e' := by simpa [hedit] using he'
    exact hremaining
  gone hnow := by
    have hbefore := Answers.ended (.inl hanswers) hdeletions hnow
    rw [(hended hbefore).1]
    exact h.gone hbefore
  quiet hnow := by
    rw [hedit, Option.any_some]
    exact (hended (Answers.ended (.inl hanswers) hdeletions hnow)).2
  unsaved := h.unsaved_of (.inl hanswers)

theorem Inv.of_endEdit (h : Inv w texts s) {a : Answer} (hedit : s'.edit = none)
    (hdeletions : s'.deletions = s.deletions) (hanswers : s'.answers = s.answers ++ [a])
    (hne : a ≠ .deleted) (hended : Ended s → s'.disk = s.disk ∧ a.savesDocument = false) :
    Inv w texts s' := by
  have ha : Answers s s' := .inr ⟨a, hanswers, hne, fun hbefore => (hended hbefore).2⟩
  refine ⟨fun e he => ?_, fun hnow => ?_, fun _ => ?_, h.unsaved_of ha⟩
  · rw [hedit] at he
    cases he
  · have hbefore := ha.ended hdeletions hnow
    rw [(hended hbefore).1]
    exact h.gone hbefore
  · rw [hedit]
    rfl

/-! ## The steps of a deletion -/

theorem inv_removeDir (h : Inv w texts s) {k : ℕ}
    (ha : ((machine w format texts).restrict (Quiet w texts)).enabled s (.removeDir k)) :
    Inv w texts (next w format texts s (.removeDir k)) := by
  obtain ⟨⟨-, hok⟩, hquiet⟩ := ha
  exact ⟨h.remaining, fun _ => removeDir_gone (Prod.ext hok rfl), fun _ => hquiet, h.unsaved⟩

theorem inv_answerDelete (h : Inv w texts s) {k : ℕ} (hk : s.deletions k = .removed) :
    Inv w texts (next w format texts s (.answerDelete k)) :=
  ⟨h.remaining, fun _ => h.gone (.inr ⟨k, hk⟩), fun _ => h.quiet (.inr ⟨k, hk⟩),
    History.always_append_singleton.mpr ⟨h.unsaved, fun _ => rfl⟩⟩

/-- A deletion that has not removed the directory moves to another stage but the last. -/
theorem ended_setDeletion {k : ℕ} {deletion : Deletion} (hne : deletion ≠ .removed)
    (h : Ended (s.setDeletion k deletion)) : Ended s := by
  rcases h with h | ⟨j, hj⟩
  · exact .inl h
  · simp only [State.setDeletion, Function.update_apply] at hj
    split_ifs at hj
    · exact absurd hj hne
    · exact .inr ⟨j, hj⟩

theorem Inv.setDeletion (h : Inv w texts s) (k : ℕ) {deletion : Deletion}
    (hne : deletion ≠ .removed) : Inv w texts (s.setDeletion k deletion) :=
  ⟨h.remaining, fun hended => h.gone (ended_setDeletion hne hended),
    fun hended => h.quiet (ended_setDeletion hne hended), h.unsaved⟩

theorem Inv.answer (h : Inv w texts s) {a : Answer} (hne : a ≠ .deleted)
    (hsaves : a.savesDocument = false) : Inv w texts (s.answer a) :=
  h.of_disk rfl rfl rfl id (.inr ⟨a, rfl, hne, fun _ => hsaves⟩)

theorem inv_failDelete (h : Inv w texts s) (k : ℕ) :
    Inv w texts (next w format texts s (.failDelete k)) := by
  have hidle : Inv w texts (s.setDeletion k .idle) := h.setDeletion k nofun
  exact hidle.answer nofun rfl

theorem inv_delete (h : Inv w texts s) (k : ℕ) :
    Inv w texts (next w format texts s (.delete k)) := by
  simp only [next]
  split
  · exact h.answer (by simp) rfl
  · exact h.setDeletion k (by simp)

theorem inv_unlink (h : Inv w texts s) {k : ℕ} {p : List String}
    (hp : Unlinkable s.disk w.dir p) : Inv w texts (next w format texts s (.unlink k p)) :=
  h.of_disk rfl rfl rfl (fun hgone => absurd hp (not_unlinkable hgone)) (.inl rfl)

/-! ## The steps of a touch or a rename -/

theorem Request.failed_spec (r : Request) : r.failed ≠ .deleted ∧ r.failed.savesDocument = false := by
  cases r with
  | touch => exact ⟨nofun, rfl⟩
  | rename => exact ⟨nofun, rfl⟩

theorem Request.done_spec (r : Request) (updated : WorkspaceMeta) :
    r.done updated ≠ .deleted ∧ (r.done updated).savesDocument = false := by
  cases r with
  | touch => exact ⟨nofun, rfl⟩
  | rename => exact ⟨nofun, rfl⟩

theorem Answers.of_endRewrite {disk : Disk} {a : Answer}
    (ha : a ≠ .deleted ∧ a.savesDocument = false) :
    Answers s ({ s with disk := disk }.endRewrite a) := .inr ⟨a, rfl, ha.1, fun _ => ha.2⟩

theorem inv_request (h : Inv w texts s) (r : Request) :
    Inv w texts (next w format texts s (.request r)) := by
  cases r with
  | touch => exact h.of_disk rfl rfl rfl id (.inl rfl)
  | rename raw =>
    simp only [next, stepRequest]
    split
    · exact h.answer (by simp) rfl
    · exact h.of_disk rfl rfl rfl id (.inl rfl)

theorem inv_readMeta (h : Inv w texts s) (r : Request) (now : ℕ) :
    Inv w texts (next w format texts s (.readMeta r now)) := by
  simp only [next, stepReadMeta]
  split
  · exact h.of_disk rfl rfl rfl id (.of_endRewrite r.failed_spec)
  · exact h.of_disk rfl rfl rfl id (.inl rfl)

theorem inv_writeMeta (h : Inv w texts s) (r : Request) (updated : WorkspaceMeta)
    (fault : Option (Option Content)) :
    Inv w texts (next w format texts s (.writeMeta r updated fault)) := by
  have hgone : Gone s.disk (w.dir.map .name) → s.disk.write fault (metaTemporary w.dir)
      (.text (format.print updated)) = (false, s.disk) := fun hgone => hgone.write_eq (by simp) _ _
  simp only [next, stepWriteMeta]
  split
  next disk heq =>
    refine h.of_disk rfl rfl rfl (fun hg => ?_) (.of_endRewrite r.failed_spec)
    rw [hgone hg] at heq
    cases heq
    exact hg
  next disk heq =>
    refine h.of_disk rfl rfl rfl (fun hg => ?_) (.inl rfl)
    rw [hgone hg] at heq
    cases heq

theorem inv_replaceMeta (h : Inv w texts s) (r : Request) (updated : WorkspaceMeta)
    (fault : Bool) : Inv w texts (next w format texts s (.replaceMeta r updated fault)) := by
  have hgone : Gone s.disk (w.dir.map .name) → s.disk.rename fault (metaTemporary w.dir)
      (metaPath w.dir) = (false, s.disk) := fun hgone => hgone.rename_eq (by simp) _ _
  simp only [next, stepReplaceMeta]
  split
  next disk heq =>
    refine h.of_disk rfl rfl rfl (fun hg => ?_) (.of_endRewrite r.failed_spec)
    rw [hgone hg] at heq
    cases heq
    exact hg
  next disk heq =>
    refine h.of_disk rfl rfl rfl (fun hg => ?_) (.of_endRewrite (r.done_spec updated))
    rw [hgone hg] at heq
    cases heq

/-! ## The steps of a store operation -/

theorem quiet_edit (h : Inv w texts s) {e : Edit} (he : s.edit = some e) (hended : Ended s) :
    outlives w texts s.snapshots e = false := by
  have := h.quiet hended
  rwa [he, Option.any_some] at this

theorem inv_begin (h : Inv w texts s) {i : ℕ} {c : Call} (hc : requested c = true) :
    Inv w texts (next w format texts s (.begin i c)) := by
  refine h.of_edit rfl rfl rfl ⟨hc, trivial⟩ fun _ => ⟨rfl, ?_⟩
  have hpasses : passes w texts i c (s.snapshots i) [] = false := rfl
  simp [next, outlives, hpasses]

theorem inv_readSource (h : Inv w texts s) {i : ℕ} {c : Call} {found : List (String × String)}
    {path source : String} (ha : enabled w s (.readSource i c found path source)) :
    Inv w texts (next w format texts s (.readSource i c found path source)) := by
  obtain ⟨hedit, hproper, -, -, -, hread⟩ := ha
  refine h.of_edit rfl rfl rfl ⟨(h.remaining _ hedit).1, trivial⟩ fun hended => ?_
  have hpath : (w.sessions i).destination path =
      w.dir.map .name ++ (.name "src" :: components path) := by
    rw [Session.destination, if_neg (head_of_proper hproper), Session.sourceRoot, w.rooted]
    simp
  rw [hpath, (h.gone hended).absent] at hread
  cases hread

theorem inv_check (h : Inv w texts s) {i : ℕ} {c : Call} {found : List (String × String)}
    (hedit : s.edit = some ⟨i, c, .refreshing found⟩) :
    Inv w texts (next w format texts s (.check i c found)) := by
  have hquiet := fun hended => quiet_edit h hedit hended
  simp only [next, stepCheck]
  split
  · exact h.of_endEdit rfl rfl rfl nofun fun _ => ⟨rfl, rfl⟩
  next snapshot checked hchecked =>
    split
    · exact h.of_endEdit rfl rfl rfl nofun fun _ => ⟨rfl, rfl⟩
    next files =>
      refine h.of_edit rfl rfl rfl ⟨(h.remaining _ hedit).1, List.suffix_refl _⟩
        fun hended => ⟨rfl, ?_⟩
      have hpasses : passes w texts i c (s.snapshots i) found = true := by
        simp [passes, hchecked]
      simpa [outlives, hpasses, steps_ne_nil] using hquiet hended

theorem inv_work (h : Inv w texts s) {i : ℕ} {c : Call} {step : DiskStep}
    {pending : List DiskStep} {files : List ProjectFile} {faults : Faults}
    (hedit : s.edit = some ⟨i, c, .working (step :: pending) files⟩) :
    Inv w texts (next w format texts s (.work i c step pending files faults)) := by
  obtain ⟨hc, hsuffix⟩ : requested c = true ∧
    step :: pending <:+ steps (w.sessions i) texts c := h.remaining _ hedit
  obtain ⟨hwithin, hremoves⟩ := within_steps (w.rooted i) hc step (hsuffix.mem (by simp))
  have hrun : Ended s → step.run faults s.disk = (step.removes, s.disk) := fun hended => by
    have hquiet := quiet_edit h hedit hended
    refine run_of_gone (h.gone hended) hwithin ?_
    simp only [outlives, makesDirsNext, List.head?_cons, Option.any_some, Bool.or_eq_false_iff]
      at hquiet
    exact hquiet.1
  simp only [next, stepWork]
  split
  next disk heq =>
    refine h.of_edit rfl rfl rfl ⟨hc, (List.suffix_cons _ _).trans hsuffix⟩ fun hended => ?_
    rw [hrun hended] at heq
    obtain ⟨hr, rfl⟩ := Prod.ext_iff.mp heq
    obtain ⟨hsaves, hsteps⟩ := hremoves hr
    rw [hsteps] at hsuffix
    obtain rfl : pending = [] := by simpa using hsuffix.length_le
    exact ⟨rfl, by simp [outlives, makesDirsNext, hsaves]⟩
  next disk heq =>
    split
    · refine h.of_endEdit rfl rfl rfl nofun fun hended => ?_
      rw [hrun hended] at heq
      exact ⟨(Prod.ext_iff.mp heq).2.symm, rfl⟩
    next undo hundo =>
      refine h.of_edit rfl rfl rfl ⟨hc, undo_within hwithin hundo⟩ fun hended => ?_
      rw [hrun hended] at heq
      exact ⟨(Prod.ext_iff.mp heq).2.symm, rfl⟩

theorem inv_undo (h : Inv w texts s) {i : ℕ} {c : Call} {step : DiskStep} {faults : Faults}
    (hedit : s.edit = some ⟨i, c, .undoing step⟩) :
    Inv w texts (next w format texts s (.undo i c step faults)) := by
  obtain ⟨-, hwithin, hmakes⟩ := h.remaining _ hedit
  refine h.of_endEdit rfl rfl rfl nofun fun hended => ⟨?_, rfl⟩
  have hrun : step.run faults s.disk = (step.removes, s.disk) :=
    run_of_gone (h.gone hended) hwithin hmakes
  exact congrArg Prod.snd hrun

theorem inv_commit (h : Inv w texts s) {i : ℕ} {c : Call} {files : List ProjectFile}
    (hedit : s.edit = some ⟨i, c, .working [] files⟩) :
    Inv w texts (next w format texts s (.commit i c files)) := by
  simp only [next, stepCommit]
  split
  · exact h.of_endEdit rfl rfl rfl nofun fun _ => ⟨rfl, rfl⟩
  · refine h.of_endEdit rfl rfl rfl nofun fun hended => ⟨rfl, ?_⟩
    simpa [outlives, makesDirsNext, Answer.savesDocument] using quiet_edit h hedit hended

theorem inv_step (h : Inv w texts s) {a : Action}
    (ha : ((machine w format texts).restrict (Quiet w texts)).enabled s a) :
    Inv w texts (next w format texts s a) := by
  cases a with
  | removeDir k => exact inv_removeDir h ha
  | delete k => exact inv_delete h k
  | unlink k p => exact inv_unlink h ha.1.2
  | answerDelete k => exact inv_answerDelete h ha.1
  | failDelete k => exact inv_failDelete h k
  | request r => exact inv_request h r
  | readMeta r now => exact inv_readMeta h r now
  | writeMeta r updated fault => exact inv_writeMeta h r updated fault
  | replaceMeta r updated fault => exact inv_replaceMeta h r updated fault
  | begin i c => exact inv_begin h ha.1.2
  | readSource => exact inv_readSource h ha.1
  | check => exact inv_check h ha.1
  | work => exact inv_work h ha.1
  | undo => exact inv_undo h ha.1
  | commit => exact inv_commit h ha.1

theorem Inv.staysDeleted (h : Inv w texts s) : StaysDeleted w s where
  absent hmem := (h.gone (.inl hmem)).absent
  unsaved := h.unsaved

end

theorem deleted_stays_deleted (w : Attached) (format : MetaText) (texts : String → String)
    (disk : Disk) (snapshots : ℕ → Snapshot) {s : State}
    (hrun : ((machine w format texts).restrict (Quiet w texts)).Reaches (init disk snapshots) s) :
    StaysDeleted w s :=
  (hrun.invariant (fun _ _ h ha => inv_step h ha) (inv_init disk snapshots)).staysDeleted

/-! ## Runs -/

instance (w : Attached) : DecidableRel (enabled w) := fun s a => by
  cases a <;> simp only [enabled] <;> infer_instance

instance (w : Attached) (format : MetaText) (texts : String → String) :
    DecidableRel (machine w format texts).enabled := inferInstanceAs (DecidableRel (enabled w))

instance (w : Attached) (texts : String → String) : DecidableRel (Quiet w texts) := fun s a => by
  cases a <;> simp only [Quiet] <;> infer_instance

def demoId : String := "0123456789abcdef0123456789abcdef"

def demoMeta : WorkspaceMeta := ⟨demoId, "demo", .zig, 1, 1⟩

/-- How the meta of a Zig workspace is printed. -/
def demoText (m : WorkspaceMeta) : String :=
  "\x7b\n  \"id\": \"" ++ m.id ++ "\",\n  \"name\": \"" ++ m.name ++
    "\",\n  \"language\": \"zig\",\n  \"createdAt\": " ++ toString m.createdAt ++
    ",\n  \"updatedAt\": " ++ toString m.updatedAt ++ "\n\x7d"

def demoFormat : MetaText where
  print := demoText
  parse raw := if raw = demoText demoMeta then some demoMeta else none

def demoWorkspace : Attached where
  root := ["w"]
  id := demoId
  dir := ["w", demoId]
  sessions _ := ⟨"session", .zig, ["w", demoId], some demoId, fun _ => none⟩
  dir_eq := by decide +kernel
  rooted _ := rfl
  attached _ := rfl

def demoDisk : Disk :=
  ⟨[([], some .dir), (["w"], some .dir), (["w", demoId], some .dir),
    (["w", demoId, "atomis.json"], some (.file (.text (demoFormat.print demoMeta)))),
    (["w", demoId, "src"], some .dir),
    (["w", demoId, "src", "main.zig"], some (.file (.text "a")))]⟩

def demoInit : State :=
  init demoDisk fun i =>
    (demoWorkspace.sessions i).opening (fun _ => "") [("main.zig", "a")]

def demoUpdate : Call := .update "draft" 2 "main.zig" "b"

/-- A deletion that nothing disturbs. -/
def demoDeletion : List Action :=
  [.delete 0, .unlink 0 ["w", demoId, "src", "main.zig"], .unlink 0 ["w", demoId, "src"],
    .unlink 0 ["w", demoId, "atomis.json"], .removeDir 0, .answerDelete 0]

/-- The rest of `demoUpdate` after its checks. -/
def demoWork : List Action :=
  let src := [.name "w", .name demoId, .name "src"]
  let draft := src ++ [.name "draft"]
  let main := src ++ [.name "main.zig"]
  let files := [(demoWorkspace.sessions 0).projectFile "main.zig" "b"]
  [.work 0 demoUpdate (.makeDirs src) [.write draft (.text "b"), .rename draft main] files Faults.none,
    .work 0 demoUpdate (.write draft (.text "b")) [.rename draft main] files Faults.none,
    .work 0 demoUpdate (.rename draft main) [] files Faults.none, .commit 0 demoUpdate files]

/-- The update before the deletion is saved, and the one after it is refused. -/
theorem deleted_stays_deleted_editing : ∃ s,
    ((machine demoWorkspace demoFormat fun _ => "").restrict
      (Quiet demoWorkspace fun _ => "")).Reaches demoInit s ∧
    s.answers = [.saved 0 demoUpdate, .deleted, .refused 0 demoUpdate, .touched] ∧
    StaysDeleted demoWorkspace s := by
  obtain ⟨s, hrun, hs⟩ := Machine.exists_reaches_of_exec
    (M := (machine demoWorkspace demoFormat fun _ => "").restrict
      (Quiet demoWorkspace fun _ => ""))
    (s := demoInit)
    (l := [.begin 0 demoUpdate, .readSource 0 demoUpdate [] "main.zig" "a",
      .check 0 demoUpdate [("main.zig", "a")]] ++ demoWork ++ demoDeletion ++
      [.begin 0 demoUpdate, .check 0 demoUpdate [], .request .touch, .readMeta .touch 5])
    (p := fun s => decide
      (s.answers = [.saved 0 demoUpdate, .deleted, .refused 0 demoUpdate, .touched]))
    (by decide +kernel)
  exact ⟨s, hrun, of_decide_eq_true hs, deleted_stays_deleted _ _ _ _ _ hrun⟩

/-- An update that read the sources before they went makes the directory again, and the touch
that read the meta puts it back. -/
theorem deleted_comes_back : ∃ s,
    (machine demoWorkspace demoFormat fun _ => "").Reaches demoInit s ∧
    s.answers = [.deleted, .saved 0 demoUpdate, .touched] ∧
    (locate s.disk (metaPath demoWorkspace.dir)).bind s.disk =
      some (.file (.text (demoText { demoMeta with updatedAt := 5 }))) ∧
    ¬ StaysDeleted demoWorkspace s := by
  obtain ⟨s, hrun, hs⟩ := Machine.exists_reaches_of_exec
    (M := machine demoWorkspace demoFormat fun _ => "") (s := demoInit)
    (l := [.begin 0 demoUpdate, .readSource 0 demoUpdate [] "main.zig" "a", .request .touch,
        .readMeta .touch 5] ++ demoDeletion ++ .check 0 demoUpdate [("main.zig", "a")] :: demoWork ++
      [.writeMeta .touch { demoMeta with updatedAt := 5 } none,
        .replaceMeta .touch { demoMeta with updatedAt := 5 } false])
    (p := fun s => decide (s.answers = [.deleted, .saved 0 demoUpdate, .touched] ∧
      (locate s.disk (metaPath demoWorkspace.dir)).bind s.disk =
        some (.file (.text (demoText { demoMeta with updatedAt := 5 })))))
    (by decide +kernel)
  obtain ⟨hanswers, hmeta⟩ := of_decide_eq_true hs
  refine ⟨s, hrun, hanswers, hmeta, fun hstays => ?_⟩
  have habsent := hstays.absent (by simp [hanswers]) [.name metaFile]
  rw [show demoWorkspace.dir.map Component.name ++ [.name metaFile] =
    metaPath demoWorkspace.dir from rfl, hmeta] at habsent
  cases habsent

end Atomis.WorkspaceDeletion
