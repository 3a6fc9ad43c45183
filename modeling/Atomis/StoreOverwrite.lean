import Atomis.CreateSession

/-!
# Files that opening and creating overwrite

Opening a session spares the files under the source root unless one of its
writes lands on such a file with other bytes, and creating or renaming a file
spares the files the snapshot does not list unless one stands, with other
contents, where the new file goes.
-/

namespace Atomis
open Atomis.Tree

namespace StoreOverwrite
variable {session : Session} {faults : Faults} {texts : String → String} {disk : Disk}

/-! ## Opening -/

def KeepsFiles (session : Session) (disk disk' : Disk) : Prop :=
  ∀ p content, session.sourceRoot <+: p → disk p = some (.file content) →
    disk' p = some (.file content)

/-- What is written to a file under the source root is what it held. -/
def WritesBack (o : Opening) (disk : Disk) : Prop :=
  (o.makeAll disk).1 = true → ∀ p content, o.session.sourceRoot <+: p →
    disk p = some (.file content) → ∀ last,
      lastWrite (o.makeAll disk).2 (o.attempts (o.makeAll disk).2) p = some last → last = content

theorem create_keepsFiles_iff (o : Opening) (disk : Disk) :
    KeepsFiles o.session disk (o.create disk).2 ↔ WritesBack o disk := by
  have hmade : ∀ p content, disk p = some (.file content) →
      (o.makeAll disk).2 p = some (.file content) := fun p content hp => by
    rcases makeDirs_get _ disk p with hsame | ⟨hnone, -⟩
    · exact hsame.trans hp
    · rw [hp] at hnone
      cases hnone
  rw [KeepsFiles, Opening.create_disk]
  by_cases hok : (o.makeAll disk).1 = true
  · rw [if_pos hok]
    obtain ⟨-, hget⟩ := writeAll_spec (o.attempts (o.makeAll disk).2) (o.makeAll disk).2
    constructor
    · intro h _ p content hp hfile last hlast
      have := h p content hp hfile
      rw [hget p, hlast] at this
      simpa using this
    · intro h p content hp hfile
      rw [hget p]
      cases hlast : lastWrite (o.makeAll disk).2 (o.attempts (o.makeAll disk).2) p with
      | none => exact hmade p content hfile
      | some last =>
        rw [h hok p content hp hfile last hlast]
  · rw [if_neg hok]
    exact iff_of_true (fun p content _ hfile => hmade p content hfile) fun h => absurd h hok

/-! ## Creating and renaming -/

/-- The snapshot lists the file that stands here. -/
def InSnapshot (session : Session) (s : Store) (p : List String) : Prop :=
  ∃ f ∈ s.snapshot.files, place s.disk (session.destination f.path) = some p

/-- No file that is on the disk but not in the snapshot has something else in its place. -/
def SparesUnlisted (session : Session) (s : Store) (disk' : Disk) : Prop :=
  ∀ p content, session.sourceRoot <+: p → s.disk p = some (.file content) →
    ¬ InSnapshot session s p → disk' p = some (.file content) ∨ disk' p = none

def Overwrites (session : Session) (faults : Faults) (s : Store) : Call → Prop
  | .createFile temporary version path source =>
    (∃ files, session.createFiles s.snapshot version path source = .ok files) ∧
    (session.withParents faults path s.disk).1 = true ∧
    faults.write (session.temporaryPath temporary path) = none ∧
    faults.rename (session.temporaryPath temporary path) (session.destination path) = false ∧
    ∃ p content, place (session.withParents faults path s.disk).2 (session.destination path) =
        some p ∧ session.sourceRoot <+: p ∧ s.disk p = some (.file content) ∧
      ¬ InSnapshot session s p ∧ content ≠ .text source
  | .renameFile version path newPath =>
    (∃ files, session.renameFiles s.snapshot version path newPath = .ok files) ∧
    (session.withParents faults newPath s.disk).1 = true ∧
    faults.rename (session.destination path) (session.destination newPath) = false ∧
    ∃ a p node content,
      place (session.withParents faults newPath s.disk).2 (session.destination path) = some a ∧
      (session.withParents faults newPath s.disk).2 a = some node ∧ node ≠ .dir ∧
      place (session.withParents faults newPath s.disk).2 (session.destination newPath) = some p ∧
      session.sourceRoot <+: p ∧ s.disk p = some (.file content) ∧
      ¬ InSnapshot session s p ∧ node ≠ .file content
  | _ => False

/-- The path a call would put into the tree. -/
def newPath : Call → Option String
  | .createFile _ _ path _ => some path
  | .renameFile _ _ newPath => some newPath
  | _ => none

theorem withTemporary_alike (faults : Faults) {temporary path : String}
    (h : session.Fresh disk temporary path) (d : List String) (content : Content) :
    Alike (session.withParents faults path disk).2
      (session.withTemporary faults temporary path disk d content) :=
  Vacant.alike (.inl (h.withParents faults d)) content

/-- Where a file can stand at the destination, the temporary file is made beside it. -/
theorem temporary_beside {temporary path : String} (hfresh : session.Fresh disk temporary path)
    {p : List String}
    (hp : place (session.withParents faults path disk).2 (session.destination path) = some p) :
    ∃ d, locate (session.withParents faults path disk).2 (session.temporaryPath temporary path) =
        some (d ++ [temporary]) ∧
      place (session.withParents faults path disk).2 (session.temporaryPath temporary path) =
        some (d ++ [temporary]) ∧ p ≠ d ++ [temporary] := by
  obtain ⟨d, n, hlast, hd, hdir, rfl⟩ := place_eq_some hp
  have hn : n ≠ temporary := by
    rintro rfl
    exact hfresh.2 (List.mem_of_getLast? hlast)
  refine ⟨d, ?_, ?_, by simpa using hn⟩
  · exact resolve_append_dir (any_isDir_iff.mp hdir) (by simp [hfresh.withParents faults d]) hd
  · rw [Session.temporaryPath, place_append_name, hd, Option.bind_some, if_pos hdir]

/-- The rename that ends a write puts the new file over whatever file stands there. -/
theorem lastRename_cases {temporary path : String} (hfresh : session.Fresh disk temporary path)
    {d : List String} {content : Content}
    (hfound : locate (session.withParents faults path disk).2
      (session.temporaryPath temporary path) = some (d ++ [temporary]))
    {renamed : Bool × Disk}
    (h : session.lastRename faults temporary path
      (session.withTemporary faults temporary path disk d content) = renamed) :
    renamed.2 = session.withTemporary faults temporary path disk d content ∨
      faults.rename (session.temporaryPath temporary path) (session.destination path) = false ∧
      ∃ p, place (session.withParents faults path disk).2 (session.destination path) = some p ∧
        renamed.2 = ((session.withTemporary faults temporary path disk d content).set
          (d ++ [temporary]) none).set p (some (.file content)) := by
  subst h
  have halike := withTemporary_alike faults hfresh d content
  rw [Session.lastRename]
  cases hfault : faults.rename (session.temporaryPath temporary path) (session.destination path) with
  | true =>
    rw [rename_fault]
    exact .inl rfl
  | false =>
    rcases rename_cases false (session.withTemporary faults temporary path disk d content)
      (session.temporaryPath temporary path) (session.destination path) with
      hf | ⟨a, p, node, ha, hp, hnode, hcases⟩
    · rw [hf]
      exact .inl rfl
    · rw [halike.place_eq] at hp
      obtain ⟨d', hfound', hplace, hne⟩ := temporary_beside hfresh hp
      obtain rfl : d = d' := by
        have := Option.some.inj (hfound.symm.trans hfound')
        exact List.append_inj_left' this rfl
      obtain rfl : d ++ [temporary] = a := by
        rw [halike.place_eq, hplace] at ha
        exact Option.some.inj ha
      obtain rfl : .file content = node := by
        simpa [Session.withTemporary] using hnode
      rcases hcases with ⟨heq, -⟩ | ⟨hdir, -⟩ | ⟨-, -, -, hr⟩
      · exact absurd heq.symm hne
      · cases hdir
      · rw [hr]
        exact .inr ⟨rfl, p, hp, rfl⟩

theorem atomicWrite_over {temporary path source : String}
    (hfresh : session.Fresh disk temporary path)
    (hmade : (session.withParents faults path disk).1 = true)
    (hwrite : faults.write (session.temporaryPath temporary path) = none)
    (hrename : faults.rename (session.temporaryPath temporary path) (session.destination path) =
      false) {p : List String} {content : Content}
    (hp : place (session.withParents faults path disk).2 (session.destination path) = some p)
    (hfile : disk p = some (.file content)) :
    (session.atomicWrite faults temporary path source disk).2 p =
      some (.file (.text source)) := by
  obtain ⟨d, hfound, hplace, hne⟩ := temporary_beside hfresh hp
  have halike := withTemporary_alike faults hfresh d (.text source)
  have hold : session.withTemporary faults temporary path disk d (.text source) p =
      some (.file content) := by
    rw [Session.withTemporary, Table.set_get, if_neg hne]
    exact Session.withParents_keeps faults path p _ hfile
  have hrenamed : session.lastRename faults temporary path
      (session.withTemporary faults temporary path disk d (.text source)) = (true,
        ((session.withTemporary faults temporary path disk d (.text source)).set
          (d ++ [temporary]) none).set p (some (.file (.text source)))) := by
    rw [Session.lastRename, hrename]
    refine rename_over ((halike.place_eq _).trans hplace) ((halike.place_eq _).trans hp) hne.symm ?_
      (by simp) hold
    simp [Session.withTemporary]
  rw [Session.withTemporary] at hrenamed
  rw [Session.atomicWrite_eq]
  simp only [hmade, Bool.true_eq_false, ↓reduceIte, hwrite,
    write_vacant hfound (.inl (hfresh.withParents faults d)), hrenamed]
  simp

theorem createFile_spares_iff {s : Store} {temporary path source : String} {version : ℕ}
    (hfresh : session.Fresh s.disk temporary path)
    (hc : ∃ files, session.createFiles s.snapshot version path source = .ok files) :
    SparesUnlisted session s (session.atomicWrite faults temporary path source s.disk).2 ↔
      ¬ Overwrites session faults s (.createFile temporary version path source) := by
  constructor
  · rintro h ⟨-, hmade, hwrite, hrename, p, content, hp, hunder, hfile, hnot, hne⟩
    have hover : (session.atomicWrite faults temporary path source s.disk).2 p =
        some (.file (.text source)) := atomicWrite_over hfresh hmade hwrite hrename hp hfile
    rcases h p content hunder hfile hnot with hsame | hgone
    · rw [hover] at hsame
      exact hne (by simpa using hsame.symm)
    · rw [hover] at hgone
      cases hgone
  · intro hno p content hunder hfile hnot
    have hkept : ∀ d new, session.withTemporary faults temporary path s.disk d new p =
        some (.file content) := fun d new => (hfresh.withTemporary faults d new).2 p _ hfile
    cases Session.writeEnd_atomicWrite faults source hfresh with
    | unwritten h =>
      rw [h]
      exact .inl (Session.withParents_keeps faults path p _ hfile)
    | partly d part made found fault h =>
      rw [h]
      exact .inl (hkept d part)
    | wholly d renamed made found fault hrenamed h =>
      rw [h]
      rcases lastRename_cases hfresh found hrenamed with hsame | ⟨hrename, q, hq, hmoved⟩
      · simp only [hsame]
        exact .inl (hkept d _)
      · simp only [hmoved]
        rw [Table.set_get]
        split_ifs with hpq
        · subst hpq
          by_cases heq : content = .text source
          · rw [heq]
            exact .inl rfl
          · exact absurd ⟨hc, made, fault, hrename, p, content, hq, hunder, hfile, hnot, heq⟩ hno
        · rw [Table.set_get]
          split_ifs
          · exact .inr rfl
          · exact .inl (hkept d _)

/-- Parents of whatever is on the disk are directories. -/
def WellFormed (disk : Disk) : Prop :=
  ∀ p r node, r ≠ [] → disk (p ++ r) = some node → disk p = some .dir

theorem wellFormed_iff :
    WellFormed disk ↔ ∀ q, (disk q).isSome = true → ∀ p ∈ q.inits, p ≠ q → disk p = some .dir := by
  constructor
  · intro h q hq p hp hne
    obtain ⟨r, rfl⟩ := (List.mem_inits p q).mp hp
    obtain ⟨node, hnode⟩ := Option.isSome_iff_exists.mp hq
    exact h p r node (by simpa using hne) hnode
  · intro h p r node hr hnode
    refine h (p ++ r) (by rw [hnode]; rfl) p ((List.mem_inits _ _).mpr (List.prefix_append p r)) ?_
    simpa using hr

instance : Decidable (WellFormed disk) :=
  decidable_of_iff _ ((disk.forall_get_iff
    (p := fun k v => v.isSome = true → ∀ q ∈ k.inits, q ≠ k → disk q = some .dir)
    fun _ h => by cases h).symm.trans wellFormed_iff.symm)

theorem renameFile_spares_iff {s : Store} {path newPath : String} {version : ℕ}
    (hwell : WellFormed s.disk)
    (hc : ∃ files, session.renameFiles s.snapshot version path newPath = .ok files) :
    SparesUnlisted session s (session.renameOnDisk faults path newPath s.disk).2 ↔
      ¬ Overwrites session faults s (.renameFile version path newPath) := by
  have hkeep : Keeps s.disk (session.withParents faults newPath s.disk).2 :=
    Session.withParents_keeps faults newPath
  rw [Session.renameOnDisk_eq]
  constructor
  · rintro h ⟨-, hmade, hrename, a, p, node, content, ha, hnode, hdir, hp, hunder, hfile, hnot, hne⟩
    have hold := hkeep p _ hfile
    have hap : a ≠ p := by
      rintro rfl
      exact hne (Option.some.inj (hnode.symm.trans hold))
    have hmoved := rename_over ha hp hap hnode hdir hold
    simp only [hmade, Bool.true_eq_false, ↓reduceIte, hrename, hmoved] at h
    rcases h p content hunder hfile hnot with hsame | hgone
    · exact hne (by simpa using hsame)
    · simp at hgone
  · intro hno p content hunder hfile hnot
    have hold := hkeep p _ hfile
    by_cases hmade : (session.withParents faults newPath s.disk).1 = false
    · rw [if_pos hmade]
      exact .inl hold
    simp only [if_neg hmade]
    rcases rename_cases (faults.rename (session.destination path) (session.destination newPath))
      (session.withParents faults newPath s.disk).2 (session.destination path)
      (session.destination newPath) with hf | ⟨a, b, node, ha, hb, hnode, hcases⟩
    · rw [hf]
      exact .inl hold
    rcases hcases with ⟨-, hr⟩ | ⟨-, hfree, -, hr⟩ | ⟨-, hdir, -, hr⟩
    · rw [hr]
      exact .inl hold
    · -- a directory takes no file's place
      rw [hr]
      simp only
      rw [move_get]
      split_ifs with hbp hap
      · obtain ⟨r, rfl⟩ := hbp
        by_cases hrnil : r = []
        · subst hrnil
          rw [List.append_nil] at hold
          rcases hfree with hnone | ⟨hisdir, -⟩
          · rw [hold] at hnone
            cases hnone
          · rw [hold] at hisdir
            cases hisdir
        · have hbdir := hkeep b _ (hwell b r _ hrnil hfile)
          rcases hfree with hnone | ⟨-, hempty⟩
          · rw [hbdir] at hnone
            cases hnone
          · rw [isEmptyDir_get hempty (List.prefix_append b r) (by simpa using hrnil)] at hold
            cases hold
      · exact .inr rfl
      · exact .inl hold
    · have hfault : faults.rename (session.destination path) (session.destination newPath) = false := by
        cases hfault : faults.rename (session.destination path) (session.destination newPath) with
        | false => rfl
        | true =>
          rw [hfault, rename_fault] at hr
          cases hr
      rw [hr]
      simp only
      rw [Table.set_get]
      split_ifs with hpb
      · subst hpb
        by_cases heq : node = .file content
        · rw [heq]
          exact .inl rfl
        · rw [Bool.not_eq_false] at hmade
          exact absurd ⟨hc, hmade, hfault, a, p, node, content, ha, hnode, hdir, hb, hunder, hfile,
            hnot, heq⟩ hno
      · rw [Table.set_get]
        split_ifs
        · exact .inr rfl
        · exact .inl hold

/-! ## Both -/

theorem run_disk (s : Store) (version : ℕ) {checked : Except String (List ProjectFile)}
    (work : Disk → Except StoreError Unit × Disk) :
    (s.run session version checked work).2.disk =
      match checked with
      | .error _ => s.disk
      | .ok _ => (work s.disk).2 := by
  simp only [Store.run]
  cases checked with
  | error message => rfl
  | ok files =>
    obtain ⟨result, disk, hw⟩ : ∃ result disk, work s.disk = (result, disk) := ⟨_, _, rfl⟩
    cases result with
    | error error => simp [hw]
    | ok _ =>
      simp only [hw]
      split <;> rfl

theorem call_spares_iff {s : Store} {c : Call} (hwell : WellFormed s.disk)
    (hfresh : c.Fresh session s.disk) (hnew : (newPath c).isSome = true) :
    SparesUnlisted session s (c.answer session faults texts s).2.disk ↔
      ¬ Overwrites session faults s c := by
  have hrefused : ∀ message, c.checked session texts s.snapshot = .error message →
      (SparesUnlisted session s (c.answer session faults texts s).2.disk ↔
        ¬ Overwrites session faults s c) := fun message hc => by
    refine iff_of_true ?_ fun hover => ?_
    · rw [Call.answer_eq, run_disk, hc]
      exact fun p content _ hfile _ => .inl hfile
    · cases c with
      | createFile temporary version path source =>
        obtain ⟨⟨files, hok⟩, -⟩ := hover
        rw [Call.checked, hok] at hc
        cases hc
      | renameFile version path newPath =>
        obtain ⟨⟨files, hok⟩, -⟩ := hover
        rw [Call.checked, hok] at hc
        cases hc
      | _ => exact hover
  cases hc : c.checked session texts s.snapshot with
  | error message => exact hrefused message hc
  | ok files =>
    rw [Call.answer_eq, run_disk, hc]
    cases c with
    | createFile temporary version path source => exact createFile_spares_iff hfresh ⟨files, hc⟩
    | renameFile version path newPath => exact renameFile_spares_iff hwell ⟨files, hc⟩
    | _ => cases hnew

def zigOpening : Opening where
  id := "session"
  root := ["w"]
  workspaceId := some "workspace"
  preferred := .zig
  support := fun language => some ⟨language = .zig, language = .zig, false⟩
  scaffold := .demo
  texts := fun _ => "default"
  templates := []
  order := [["w", "src", "a.zig"], ["w", "src", "main.zig"], ["w", "src", "logo.png"]]

/-- Files directly under the source root. -/
def workspace (files : List (String × Content)) : Disk :=
  ⟨files.map (fun (name, content) => (["w", "src", name], some (.file content))) ++
    [(["w", "src"], some .dir), (["w"], some .dir), ([], some .dir)]⟩

def healthy : Disk := workspace [("a.zig", .text "a"), ("main.zig", .text "main")]

def opened (disk : Disk) : Store :=
  ⟨zigOpening.session.opening zigOpening.texts (zigOpening.existing disk), disk⟩

end StoreOverwrite
end Atomis
