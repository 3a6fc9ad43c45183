import Atomis.Lib.History
import Atomis.Lib.Machine
import Atomis.Workspace

/-!
# Deleting a workspace while it is in use

`delete`, `rename` and `touch` of `domain/workspace.rs` on one workspace, with
the store operations that the sessions attached to it perform in
`handle_message` of `ws/runtime.rs`. A step is one disk operation. Destroying a
session of a persistent workspace is a `touch`. The edit lock admits one store
operation at a time and the metadata lock one `touch` or `rename`; `delete`
takes neither.
-/

namespace Atomis.WorkspaceDeletion
open Protocol Tree Workspace

/-! ## Store operations, one disk operation at a time -/

/-- `remove` ignores a failure; `swapIn` is the rename that a failure undoes. -/
inductive DiskStep
  | makeDirs (path : List (Component String))
  | write (path : List (Component String)) (content : Content)
  | rename (source target : List (Component String))
  | remove (path : List (Component String))
  | swapIn (staging source backup : List (Component String))
deriving DecidableEq

def DiskStep.run (faults : Faults) (disk : Disk) : DiskStep → Bool × Disk
  | makeDirs path => disk.mkdirs faults.createDir [] path
  | write path content => disk.write (faults.write path) path content
  | rename source target | swapIn source target _ =>
    disk.rename (faults.rename source target) source target
  | remove path => (true, (disk.remove (faults.remove path) path).2)

/-- What a failed step is followed by. -/
def DiskStep.undo : DiskStep → Option DiskStep
  | swapIn _ source backup => some (rename backup source)
  | _ => none

def DiskStep.makesDirs : DiskStep → Bool
  | makeDirs _ => true
  | _ => false

def runSteps (faults : Faults) : List DiskStep → Disk → Except StoreError Unit × Disk
  | [], disk => (.ok (), disk)
  | step :: steps, disk =>
    match step.run faults disk with
    | (true, disk) => runSteps faults steps disk
    | (false, disk) =>
      match step.undo with
      | none => (.error .io, disk)
      | some undo => (.error .io, (undo.run faults disk).2)

def writeSteps (session : Session) (temporary path source : String) : List DiskStep :=
  let destination := session.destination path
  let temporary := destination.dropLast ++ [.name temporary]
  [.makeDirs destination.dropLast, .write temporary (.text source), .rename temporary destination]

def stageSteps (staging : List (Component String)) (sources : List SourceFile) : List DiskStep :=
  sources.flatMap fun file =>
    let destination := staging ++ components file.path
    [.makeDirs destination.dropLast, .write destination (.text file.source)]

def replaceSteps (session : Session) (staging backup : String) (sources : List SourceFile) :
    List DiskStep :=
  let staging := session.inRoot staging
  let backup := session.inRoot backup
  let source := session.inRoot "src"
  .makeDirs staging :: stageSteps staging sources ++
    [.rename source backup, .swapIn staging source backup]

/-- The disk operations of a call, in order. -/
def steps (session : Session) (texts : String → String) : Call → List DiskStep
  | .update temporary _ path source | .createFile temporary _ path source =>
    writeSteps session temporary path source
  | .renameFile _ path newPath =>
    [.makeDirs (session.destination newPath).dropLast,
      .rename (session.destination path) (session.destination newPath)]
  | .deleteFile _ path => [.remove (session.destination path)]
  | .resetFiles staging backup _ scaffold =>
    replaceSteps session staging backup (session.scaffoldSources texts scaffold)
  | .replaceFiles staging backup _ sources => replaceSteps session staging backup sources

/-- A call some message asks for, with the paths the protocol lets through. -/
def requested : Call → Bool
  | .update _ _ path _ | .createFile _ _ path _ | .deleteFile _ path => projectPathOk path
  | .renameFile _ path newPath => projectPathOk path && projectPathOk newPath
  | .resetFiles .. => true
  | .replaceFiles .. => false

/-- A call whose success says that documents are saved. -/
def saves : Call → Bool
  | .update .. | .createFile .. | .resetFiles .. | .replaceFiles .. => true
  | .renameFile .. | .deleteFile .. => false

section
variable {session : Session} {faults : Faults} {texts : String → String}

theorem runSteps_append (first rest : List DiskStep) (disk : Disk) :
    runSteps faults (first ++ rest) disk = match runSteps faults first disk with
      | (.ok _, disk) => runSteps faults rest disk
      | (.error error, disk) => (.error error, disk) := by
  induction first generalizing disk with
  | nil => rfl
  | cons step first ih =>
    simp only [List.cons_append, runSteps]
    split
    · exact ih _
    · split <;> rfl

theorem runSteps_writeSteps (temporary path source : String) (disk : Disk) :
    runSteps faults (writeSteps session temporary path source) disk =
      session.atomicWrite faults temporary path source disk := by
  simp only [writeSteps, runSteps, DiskStep.run, DiskStep.undo, Session.atomicWrite]
  rcases disk.mkdirs faults.createDir [] (session.destination path).dropLast
    with ⟨_ | _, parents⟩
  · rfl
  · simp only
    rcases parents.write _ _ _ with ⟨_ | _, written⟩
    · rfl
    · simp only
      rcases written.rename _ _ _ with ⟨_ | _, renamed⟩ <;> rfl

theorem runSteps_stageSteps (staging : List (Component String)) (sources : List SourceFile)
    (disk : Disk) :
    runSteps faults (stageSteps staging sources) disk =
      match Session.stageFiles faults staging sources disk with
      | (true, disk) => (.ok (), disk)
      | (false, disk) => (.error .io, disk) := by
  induction sources generalizing disk with
  | nil => rfl
  | cons file sources ih =>
    have ih' : ∀ disk, runSteps faults (stageSteps staging sources) disk = _ := ih
    simp only [stageSteps, List.flatMap_cons, List.cons_append, List.nil_append, runSteps,
      DiskStep.run, DiskStep.undo, Session.stageFiles]
    rcases disk.mkdirs faults.createDir [] (staging ++ components file.path).dropLast
      with ⟨_ | _, parents⟩
    · rfl
    · simp only
      rcases parents.write _ _ _ with ⟨_ | _, written⟩
      · rfl
      · exact ih' written

theorem runSteps_replaceSteps (staging backup : String) (sources : List SourceFile) (disk : Disk) :
    runSteps faults (replaceSteps session staging backup sources) disk =
      session.replaceOnDisk faults staging backup sources disk := by
  simp only [replaceSteps, List.cons_append, runSteps, DiskStep.run, DiskStep.undo,
    Session.replaceOnDisk]
  rcases disk.mkdirs faults.createDir [] (session.inRoot staging) with ⟨_ | _, made⟩
  · rfl
  · simp only [runSteps_append, runSteps_stageSteps]
    rcases Session.stageFiles faults (session.inRoot staging) sources made with ⟨_ | _, staged⟩
    · rfl
    · simp only [runSteps, DiskStep.run, DiskStep.undo]
      rcases staged.rename _ _ _ with ⟨_ | _, away⟩
      · rfl
      · simp only
        rcases away.rename _ _ _ with ⟨_ | _, swapped⟩ <;> rfl

/-- Undisturbed, the steps are the call's work on the disk. -/
theorem runSteps_steps (c : Call) (disk : Disk) :
    runSteps faults (steps session texts c) disk = c.work session faults texts disk := by
  cases c with
  | update => exact runSteps_writeSteps _ _ _ disk
  | createFile => exact runSteps_writeSteps _ _ _ disk
  | renameFile version path newPath =>
    simp only [steps, runSteps, DiskStep.run, DiskStep.undo, Call.work, Session.renameOnDisk]
    rcases disk.mkdirs faults.createDir [] (session.destination newPath).dropLast
      with ⟨_ | _, parents⟩
    · rfl
    · simp only
      rcases parents.rename _ _ _ with ⟨_ | _, renamed⟩ <;> rfl
  | deleteFile => rfl
  | resetFiles => exact runSteps_replaceSteps _ _ _ disk
  | replaceFiles => exact runSteps_replaceSteps _ _ _ disk

end

/-! ## The machine -/

/-- A workspace and the sessions attached to it. -/
structure Attached where
  root : List String
  id : String
  dir : List String
  sessions : ℕ → Session
  dir_eq : workspaceDir root id = some dir
  rooted : ∀ i, (sessions i).root = dir
  attached : ∀ i, (sessions i).workspaceId = some id

/-- Where the holder of the edit lock stands: reading the sources, or with disk operations to
do, or undoing the last one, which failed. -/
inductive Phase
  | refreshing (found : List (String × String))
  | working (pending : List DiskStep) (files : List ProjectFile)
  | undoing (step : DiskStep)
deriving DecidableEq

deriving instance DecidableEq for Call

structure Edit where
  session : ℕ
  call : Call
  phase : Phase
deriving DecidableEq

inductive Request
  | touch
  | rename (name : String)
deriving DecidableEq

inductive RewritePhase
  | reading
  | writing (updated : WorkspaceMeta)
  | replacing (updated : WorkspaceMeta)
deriving DecidableEq

/-- The holder of the metadata lock. -/
structure Rewrite where
  request : Request
  phase : RewritePhase
deriving DecidableEq

inductive Deletion
  | idle
  | removing
  | removed
deriving DecidableEq

inductive Answer
  | deleted
  | deleteFailed
  | touched
  | renamed (updated : WorkspaceMeta)
  | renameRefused
  | saved (session : ℕ) (call : Call)
  | refused (session : ℕ) (call : Call)
deriving DecidableEq

structure State where
  disk : Disk
  snapshots : ℕ → Snapshot
  edit : Option Edit
  rewrite : Option Rewrite
  deletions : ℕ → Deletion
  answers : List Answer

def Answer.savesDocument : Answer → Bool
  | saved _ c => saves c
  | _ => false

def init (disk : Disk) (snapshots : ℕ → Snapshot) : State :=
  ⟨disk, snapshots, none, none, fun _ => .idle, []⟩

inductive Action
  | delete (k : ℕ)
  | unlink (k : ℕ) (p : List String)
  | removeDir (k : ℕ)
  | answerDelete (k : ℕ)
  | failDelete (k : ℕ)
  | request (r : Request)
  | readMeta (r : Request) (now : ℕ)
  | writeMeta (r : Request) (updated : WorkspaceMeta) (fault : Option (Option Content))
  | replaceMeta (r : Request) (updated : WorkspaceMeta) (fault : Bool)
  | begin (i : ℕ) (c : Call)
  | readSource (i : ℕ) (c : Call) (found : List (String × String)) (path source : String)
  | check (i : ℕ) (c : Call) (found : List (String × String))
  | work (i : ℕ) (c : Call) (step : DiskStep) (pending : List DiskStep) (files : List ProjectFile)
      (faults : Faults)
  | undo (i : ℕ) (c : Call) (step : DiskStep) (faults : Faults)
  | commit (i : ℕ) (c : Call) (files : List ProjectFile)

def Request.apply (now : ℕ) (found : WorkspaceMeta) : Request → WorkspaceMeta
  | touch => { found with updatedAt := now }
  | rename name => { found with name := name, updatedAt := now }

/-- `touch` ignores every failure, `rename` answers it. -/
def Request.failed : Request → Answer
  | touch => .touched
  | rename _ => .renameRefused

def Request.done (updated : WorkspaceMeta) : Request → Answer
  | touch => .touched
  | rename _ => .renamed updated

namespace State

def answer (s : State) (answer : Answer) : State := { s with answers := s.answers ++ [answer] }

def setDeletion (s : State) (k : ℕ) (deletion : Deletion) : State :=
  { s with deletions := Function.update s.deletions k deletion }

/-- The operation is answered, and the edit lock is free. -/
def endEdit (s : State) (answer : Answer) : State := { s.answer answer with edit := none }

/-- The request is answered, and the metadata lock is free. -/
def endRewrite (s : State) (answer : Answer) : State := { s.answer answer with rewrite := none }

end State

section
variable (w : Attached) (format : MetaText) (texts : String → String)

/-- `refresh_files` with these sources, and then the call's own checks. -/
def checkedAfter (i : ℕ) (c : Call) (snapshot : Snapshot) (found : List (String × String)) :
    Except String (Snapshot × Except String (List ProjectFile)) := do
  let snapshot ← (w.sessions i).commit snapshot.version
    (found.map fun (path, source) => (w.sessions i).projectFile path source)
  return (snapshot, c.checked (w.sessions i) texts snapshot)

def enabled (s : State) : Action → Prop
  | .delete k => s.deletions k = .idle
  | .unlink k p => s.deletions k = .removing ∧ Unlinkable s.disk w.dir p
  | .removeDir k => s.deletions k = .removing ∧ (removeDir s.disk w.dir).1 = true
  | .answerDelete k => s.deletions k = .removed
  | .failDelete k => s.deletions k = .removing
  | .request _ => s.rewrite = none
  | .readMeta r _ => s.rewrite = some ⟨r, .reading⟩
  | .writeMeta r updated _ => s.rewrite = some ⟨r, .writing updated⟩
  | .replaceMeta r updated _ => s.rewrite = some ⟨r, .replacing updated⟩
  | .begin _ c => s.edit = none ∧ requested c = true
  | .readSource i c found path source => s.edit = some ⟨i, c, .refreshing found⟩ ∧
      properPath path = true ∧ path ∉ found.map Prod.fst ∧ found.length < maxProjectFiles ∧
      (found.map fun f => f.2.utf8ByteSize).sum + source.utf8ByteSize ≤ maxProjectBytes ∧
      (locate s.disk ((w.sessions i).destination path)).bind s.disk = some (.file (.text source))
  | .check i c found => s.edit = some ⟨i, c, .refreshing found⟩
  | .work i c step pending files _ => s.edit = some ⟨i, c, .working (step :: pending) files⟩
  | .undo i c step _ => s.edit = some ⟨i, c, .undoing step⟩
  | .commit i c files => s.edit = some ⟨i, c, .working [] files⟩

def stepRequest (s : State) (r : Request) : State :=
  match r with
  | .touch => { s with rewrite := some ⟨.touch, .reading⟩ }
  | .rename raw =>
    match sanitizeName raw with
    | none => s.answer .renameRefused
    | some name => { s with rewrite := some ⟨.rename name, .reading⟩ }

def stepReadMeta (s : State) (r : Request) (now : ℕ) : State :=
  match readMeta format w.dir s.disk with
  | none => s.endRewrite r.failed
  | some found => { s with rewrite := some ⟨r, .writing (r.apply now found)⟩ }

def stepWriteMeta (s : State) (r : Request) (updated : WorkspaceMeta)
    (fault : Option (Option Content)) : State :=
  match s.disk.write fault (metaTemporary w.dir) (.text (format.print updated)) with
  | (false, disk) => { s with disk := disk }.endRewrite r.failed
  | (true, disk) => { s with disk := disk, rewrite := some ⟨r, .replacing updated⟩ }

def stepReplaceMeta (s : State) (r : Request) (updated : WorkspaceMeta) (fault : Bool) : State :=
  match s.disk.rename fault (metaTemporary w.dir) (metaPath w.dir) with
  | (false, disk) => { s with disk := disk }.endRewrite r.failed
  | (true, disk) => { s with disk := disk }.endRewrite (r.done updated)

def stepCheck (s : State) (i : ℕ) (c : Call) (found : List (String × String)) : State :=
  match checkedAfter w texts i c (s.snapshots i) found with
  | .error _ => s.endEdit (.refused i c)
  | .ok (snapshot, checked) =>
    let s := { s with snapshots := Function.update s.snapshots i snapshot }
    match checked with
    | .error _ => s.endEdit (.refused i c)
    | .ok files =>
      { s with edit := some ⟨i, c, .working (steps (w.sessions i) texts c) files⟩ }

def stepWork (s : State) (i : ℕ) (c : Call) (step : DiskStep) (pending : List DiskStep)
    (files : List ProjectFile) (faults : Faults) : State :=
  match step.run faults s.disk with
  | (true, disk) => { s with disk := disk, edit := some ⟨i, c, .working pending files⟩ }
  | (false, disk) =>
    match step.undo with
    | none => { s with disk := disk }.endEdit (.refused i c)
    | some undo => { s with disk := disk, edit := some ⟨i, c, .undoing undo⟩ }

def stepCommit (s : State) (i : ℕ) (c : Call) (files : List ProjectFile) : State :=
  match (w.sessions i).commit c.version files with
  | .error _ => s.endEdit (.refused i c)
  | .ok snapshot =>
    { s with snapshots := Function.update s.snapshots i snapshot }.endEdit (.saved i c)

def next (s : State) : Action → State
  | .delete k =>
    match readMeta format w.dir s.disk with
    | none => s.answer .deleteFailed
    | some _ => s.setDeletion k .removing
  | .unlink _ p => { s with disk := s.disk.set p none }
  | .removeDir k => { s with disk := (removeDir s.disk w.dir).2 }.setDeletion k .removed
  | .answerDelete k => (s.setDeletion k .idle).answer .deleted
  | .failDelete k => (s.setDeletion k .idle).answer .deleteFailed
  | .request r => stepRequest s r
  | .readMeta r now => stepReadMeta w format s r now
  | .writeMeta r updated fault => stepWriteMeta w format s r updated fault
  | .replaceMeta r updated fault => stepReplaceMeta w s r updated fault
  | .begin i c => { s with edit := some ⟨i, c, .refreshing []⟩ }
  | .readSource i c found path source =>
    { s with edit := some ⟨i, c, .refreshing (found ++ [(path, source)])⟩ }
  | .check i c found => stepCheck w texts s i c found
  | .work i c step pending files faults => stepWork s i c step pending files faults
  | .undo i c step faults => { s with disk := (step.run faults s.disk).2 }.endEdit (.refused i c)
  | .commit i c files => stepCommit w s i c files

def machine : Machine State Action := ⟨enabled w, next w format texts⟩

/-- The refresh with these sources succeeds, and so do the call's checks. -/
def passes (i : ℕ) (c : Call) (snapshot : Snapshot) (found : List (String × String)) : Bool :=
  match checkedAfter w texts i c snapshot found with
  | .ok (_, .ok _) => true
  | _ => false

def makesDirsNext (pending : List DiskStep) : Bool := pending.head?.any DiskStep.makesDirs

/-- An operation that goes on although the workspace is gone now: one that has read enough of
the sources to pass its checks, one that makes directories next, or one about to be answered. -/
def outlives (snapshots : ℕ → Snapshot) (e : Edit) : Bool :=
  match e.phase with
  | .refreshing found =>
    passes w texts e.session e.call (snapshots e.session) found &&
      makesDirsNext (steps (w.sessions e.session) texts e.call)
  | .working pending _ => makesDirsNext pending || (pending.isEmpty && saves e.call)
  | .undoing _ => false

/-- The directory is not removed under an operation that outlives it. -/
def Quiet (s : State) : Action → Prop
  | .removeDir _ => s.edit.any (outlives w texts s.snapshots) = false
  | _ => True

end

/-- Neither the workspace's directory nor anything in it is there. -/
def Absent (w : Attached) (disk : Disk) : Prop :=
  ∀ rest, (locate disk (w.dir.map .name ++ rest)).bind disk = none

/-- Once a deletion has been answered, the directory is gone and no document is saved. -/
structure StaysDeleted (w : Attached) (s : State) : Prop where
  absent : .deleted ∈ s.answers → Absent w s.disk
  unsaved : History.Always (fun before a => .deleted ∈ before → a.savesDocument = false) s.answers

end Atomis.WorkspaceDeletion
