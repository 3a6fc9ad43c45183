import Atomis.StoreCall

/-!
# Opening a session

`SessionManager::create` on the disk: the session's directories are made, the
languages' templates are written (`templates`, in the order and to the places
`packs::scaffold` writes them), the sources are read, and either the scaffold or
the missing entry file is written. The first write that fails ends it.
-/

namespace Atomis
open Atomis.Tree

def makeDirs : List (List (Component String)) → Disk → Bool × Disk
  | [], disk => (true, disk)
  | path :: paths, disk =>
    match disk.mkdirs (fun _ => false) [] path with
    | (false, disk) => (false, disk)
    | (true, disk) => makeDirs paths disk

def writeAll : List (List (Component String) × Content) → Disk → Bool × Disk
  | [], disk => (true, disk)
  | (path, content) :: writes, disk =>
    match disk.write none path content with
    | (false, disk) => (false, disk)
    | (true, disk) => writeAll writes disk

def included (support : Language → Option LanguageSupport) : List Packs.LanguagePack :=
  Packs.packs.filter fun pack => (support pack.id).any LanguageSupport.present

namespace Session

/-- `src/` plus a file name, from the root. -/
def sourceFile (session : Session) (name : String) : List (Component String) :=
  session.inRoot "src" ++ [.name name]

def generatedFile (session : Session) (name : String) : List (Component String) :=
  session.inRoot "generated" ++ [.name name]

def addSource (sources : List (String × String)) (source : String × String) :
    List (String × String) :=
  if sources.any fun other => other.1 = source.1 then sources else sources ++ [source]

/-- The sources of a new workspace. -/
def scaffoldOf (session : Session) (texts : String → String) (scaffold : WorkspaceScaffold) :
    List (String × String) :=
  (included session.support).foldl
    (fun sources pack =>
      if scaffold = .minimal ∧ pack.id ≠ session.language then sources
      else
        let sources := addSource sources (pack.entryFile, texts pack.entryFile)
        if scaffold = .minimal then sources
        else (pack.extraFiles.map fun path => (path, texts path)).foldl addSource sources)
    []

/-- The sources a session opens with, and the writes that put them on the disk. -/
def attach (session : Session) (texts : String → String) (scaffold : WorkspaceScaffold)
    (existing : List (String × String)) :
    List (String × String) × List (List (Component String) × Content) :=
  if existing ≠ [] then
    if existing.any fun source => source.1 = session.entryPath then (existing, [])
    else
      (existing ++ [(session.entryPath, texts session.entryPath)],
        [(session.sourceFile session.entryPath, .text (texts session.entryPath))])
  else
    let sources := session.scaffoldOf texts scaffold
    (sources, sources.flatMap fun (path, source) =>
      [(session.sourceFile path, .text source), (session.generatedFile path, .text source)])

end Session

/-- What a session is opened with. -/
structure Opening where
  id : String
  root : List String
  workspaceId : Option String
  preferred : Language
  support : Language → Option LanguageSupport
  scaffold : WorkspaceScaffold
  texts : String → String
  templates : List (List (Component String) × Content)
  order : List (List String)

namespace Opening

def session (o : Opening) : Session where
  id := o.id
  language := if (included o.support).any fun pack => pack.id = o.preferred then o.preferred else .zig
  root := o.root
  workspaceId := o.workspaceId
  support := o.support

def makeAll (o : Opening) (disk : Disk) : Bool × Disk :=
  makeDirs ([["src"], ["generated"], [".zig-cache"], [".tmp"], [".cache"]].map fun dir =>
    (o.root ++ dir).map .name) disk

/-- The sources found once the templates are written. -/
def existing (o : Opening) (disk : Disk) : List (String × String) :=
  if o.workspaceId.isSome then readSources o.order disk o.session.sourceRoot else []

def create (o : Opening) (disk : Disk) : Except StoreError (Session × Snapshot) × Disk :=
  match o.makeAll disk with
  | (false, disk) => (.error .io, disk)
  | (true, disk) =>
    match writeAll o.templates disk with
    | (false, disk) => (.error .io, disk)
    | (true, disk) =>
      let (sources, writes) := o.session.attach o.texts o.scaffold (o.existing disk)
      match writeAll writes disk with
      | (false, disk) => (.error .io, disk)
      | (true, disk) => (.ok (o.session, o.session.opening o.texts sources), disk)

end Opening

/-! ## What a list of writes leaves -/

def writable (disk : Disk) (path : List (Component String)) : Bool :=
  (locate disk path).any fun p => decide (disk p ≠ some .dir) && !(disk p).any Node.isLink

/-- The writes that are made: those before the first that fails. -/
def executed (disk : Disk) (writes : List (List (Component String) × Content)) :
    List (List (Component String) × Content) :=
  writes.takeWhile fun w => writable disk w.1

/-- The last thing written to a place. -/
def lastWrite (disk : Disk) (writes : List (List (Component String) × Content))
    (p : List String) : Option Content :=
  (((executed disk writes).filter fun w => locate disk w.1 = some p).getLast?).map Prod.snd

variable {disk : Disk} {writes : List (List (Component String) × Content)}

theorem writable_iff {path : List (Component String)} :
    writable disk path = true ↔ ∃ p, locate disk path = some p ∧ Vacant disk p := by
  simp [writable, Option.any_eq_true, vacant_iff]

theorem writable_alike {disk' : Disk} (h : Alike disk disk') (path : List (Component String)) :
    writable disk' path = writable disk path := by
  simp only [writable, h.locate_eq, h.1.isLink, ne_eq, h.isDir]

theorem lastWrite_alike {disk' : Disk} (h : Alike disk disk')
    (writes : List (List (Component String) × Content)) (p : List String) :
    lastWrite disk' writes p = lastWrite disk writes p := by
  simp only [lastWrite, executed, writable_alike h, h.locate_eq]

theorem lastWrite_cons_of_not_writable {w : List (Component String) × Content}
    (h : writable disk w.1 = false) (p : List String) : lastWrite disk (w :: writes) p = none := by
  simp [lastWrite, executed, h]

theorem lastWrite_cons {w : List (Component String) × Content} {q : List String}
    (h : writable disk w.1 = true) (hq : locate disk w.1 = some q) (p : List String) :
    lastWrite disk (w :: writes) p =
      if q = p then some ((lastWrite disk writes p).getD w.2) else lastWrite disk writes p := by
  have hexec : executed disk (w :: writes) = w :: executed disk writes := by
    simp [executed, h]
  simp only [lastWrite, hexec]
  split_ifs with hqp
  · subst hqp
    rw [List.filter_cons_of_pos (by simpa using hq), List.getLast?_cons, Option.map_some]
    cases (List.filter (fun w => decide (locate disk w.1 = some q)) (executed disk writes)).getLast? <;> rfl
  · rw [List.filter_cons_of_neg (by simpa [hq] using hqp)]

/-- Each place holds what was written to it last. -/
theorem writeAll_spec (writes : List (List (Component String) × Content)) (disk : Disk) :
    Alike disk (writeAll writes disk).2 ∧ ∀ p, (writeAll writes disk).2 p =
      match lastWrite disk writes p with
      | some content => some (.file content)
      | none => disk p := by
  induction writes generalizing disk with
  | nil => exact ⟨⟨.refl disk, .refl disk⟩, fun p => rfl⟩
  | cons w writes ih =>
    obtain ⟨path, content⟩ := w
    simp only [writeAll]
    by_cases hw : writable disk path = true
    · obtain ⟨q, hq, hvacant⟩ := writable_iff.mp hw
      have halike : Alike disk (disk.set q (some (.file content))) := hvacant.alike content
      obtain ⟨hrest, hget⟩ := ih (disk.set q (some (.file content)))
      rw [write_vacant hq hvacant]
      refine ⟨halike.trans hrest, fun p => ?_⟩
      rw [hget p, lastWrite_alike halike, lastWrite_cons hw hq p]
      split_ifs with hqp
      · subst hqp
        cases lastWrite disk writes q <;> simp
      · cases lastWrite disk writes p with
        | none => simp [Ne.symm hqp]
        | some last => rfl
    · rw [Bool.not_eq_true] at hw
      have hfail : disk.write none path content = (false, disk) := by
        rcases write_cases none disk path content with hf | ⟨q, hq, hvacant, -⟩
        · exact hf
        · rw [writable_iff.mpr ⟨q, hq, hvacant⟩] at hw
          cases hw
      rw [hfail]
      refine ⟨⟨.refl disk, .refl disk⟩, fun p => ?_⟩
      rw [lastWrite_cons_of_not_writable hw]

theorem writeAll_append (first second : List (List (Component String) × Content)) (disk : Disk) :
    writeAll (first ++ second) disk =
      if (writeAll first disk).1 then writeAll second (writeAll first disk).2
      else writeAll first disk := by
  induction first generalizing disk with
  | nil => rfl
  | cons w first ih =>
    obtain ⟨path, content⟩ := w
    simp only [List.cons_append, writeAll]
    obtain ⟨written, disk', hw⟩ : ∃ written disk', disk.write none path content =
      (written, disk') := ⟨_, _, rfl⟩
    cases written with
    | false => simp [hw]
    | true => simpa [hw] using ih disk'

theorem makeDirs_get (paths : List (List (Component String))) (disk : Disk) (p : List String) :
    (makeDirs paths disk).2 p = disk p ∨ disk p = none ∧ (makeDirs paths disk).2 p = some .dir := by
  induction paths generalizing disk with
  | nil => exact .inl rfl
  | cons path paths ih =>
    have hfirst := mkdirs_get (fun _ => false) disk [] path p
    simp only [makeDirs]
    split
    next made hmade =>
      rw [hmade] at hfirst
      exact hfirst
    next made hmade =>
      rw [hmade] at hfirst
      rcases hfirst with hsame | ⟨hnone, hdir⟩
      · rw [← hsame]
        exact ih made
      · rcases ih made with hrest | ⟨hnone', -⟩
        · exact .inr ⟨hnone, hrest.trans hdir⟩
        · rw [hdir] at hnone'
          cases hnone'

namespace Opening

/-- Every write `create` attempts once the directories are there. -/
def attempts (o : Opening) (made : Disk) : List (List (Component String) × Content) :=
  o.templates ++ (o.session.attach o.texts o.scaffold (o.existing (writeAll o.templates made).2)).2

theorem create_disk (o : Opening) (disk : Disk) :
    (o.create disk).2 =
      if (o.makeAll disk).1 then (writeAll (o.attempts (o.makeAll disk).2) (o.makeAll disk).2).2
      else (o.makeAll disk).2 := by
  simp only [create, attempts, writeAll_append]
  rcases o.makeAll disk with ⟨made, disk⟩
  cases made with
  | false => rfl
  | true =>
    simp only [↓reduceIte]
    rcases writeAll o.templates disk with ⟨written, disk⟩
    cases written with
    | false => rfl
    | true =>
      simp only [↓reduceIte]
      rcases writeAll (o.session.attach o.texts o.scaffold (o.existing disk)).2 disk with ⟨done, disk⟩
      cases done <;> rfl

end Opening

end Atomis
