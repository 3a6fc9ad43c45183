import Atomis.StoreDisk
import Atomis.StoreListing

/-!
# Calls on the store

The operations of a session's store as one type, each with its checks and its
work on the disk.
-/

namespace Atomis

inductive Call
  | update (temporary : String) (version : ℕ) (path source : String)
  | createFile (temporary : String) (version : ℕ) (path source : String)
  | renameFile (version : ℕ) (path newPath : String)
  | deleteFile (version : ℕ) (path : String)
  | resetFiles (staging backup : String) (version : ℕ) (scaffold : WorkspaceScaffold)
  | replaceFiles (staging backup : String) (version : ℕ) (sources : List SourceFile)

namespace Call
variable {session : Session} {faults : Faults} {texts : String → String} {snapshot : Snapshot}
  {files : List ProjectFile}

def answer (session : Session) (faults : Faults) (texts : String → String) (s : Store) :
    Call → Except StoreError Snapshot × Store
  | update temporary version path source => s.update session faults temporary version path source
  | createFile temporary version path source =>
    s.createFile session faults temporary version path source
  | renameFile version path newPath => s.renameFile session faults version path newPath
  | deleteFile version path => s.deleteFile session faults version path
  | resetFiles staging backup version scaffold =>
    s.resetFiles session faults texts staging backup version scaffold
  | replaceFiles staging backup version sources =>
    s.replaceFiles session faults staging backup version sources

def version : Call → ℕ
  | update _ version _ _ | createFile _ version _ _ | renameFile version _ _
  | deleteFile version _ | resetFiles _ _ version _ | replaceFiles _ _ version _ => version

/-- The files the call would commit, if its checks pass. -/
def checked (session : Session) (texts : String → String) (snapshot : Snapshot) :
    Call → Except String (List ProjectFile)
  | update _ version path source => session.updateFiles snapshot version path source
  | createFile _ version path source => session.createFiles snapshot version path source
  | renameFile version path newPath => session.renameFiles snapshot version path newPath
  | deleteFile version path => session.deleteFiles snapshot version path
  | resetFiles _ _ version scaffold => session.resetFilesList texts snapshot version scaffold
  | replaceFiles _ _ version sources => session.replacedFiles snapshot version sources

def work (session : Session) (faults : Faults) (texts : String → String) :
    Call → Disk → Except StoreError Unit × Disk
  | update temporary _ path source | createFile temporary _ path source =>
    session.atomicWrite faults temporary path source
  | renameFile _ path newPath => session.renameOnDisk faults path newPath
  | deleteFile _ path => session.deleteOnDisk faults path
  | resetFiles staging backup _ scaffold =>
    session.replaceOnDisk faults staging backup (session.scaffoldSources texts scaffold)
  | replaceFiles staging backup _ sources => session.replaceOnDisk faults staging backup sources

theorem answer_eq (c : Call) (s : Store) :
    c.answer session faults texts s = s.run session c.version
      (c.checked session texts s.snapshot) (c.work session faults texts) := by
  cases c <;> rfl

/-- The names drawn for the call are new. -/
def Fresh (session : Session) (disk : Disk) : Call → Prop
  | update temporary _ path _ | createFile temporary _ path _ => session.Fresh disk temporary path
  | resetFiles staging backup _ _ | replaceFiles staging backup _ _ =>
    Session.SwapNames disk staging backup
  | _ => True

/-- A path the call puts into the listing is a proper one. -/
def proper : Call → Bool
  | createFile _ _ path _ => properPath path
  | renameFile _ _ newPath => properPath newPath
  | _ => true

def replaces : Call → Bool
  | resetFiles .. | replaceFiles .. => true
  | _ => false

/-- A call that must name a version newer than the current one. -/
def advances : Call → Bool
  | replaceFiles .. => false
  | _ => true

theorem listed {c : Call} (h : session.Listed snapshot.files)
    (hc : c.checked session texts snapshot = .ok files) : session.Listed files := by
  cases c with
  | update => exact h.updateFiles hc
  | createFile => exact h.createFiles hc
  | renameFile => exact h.renameFiles hc
  | deleteFile => exact h.deleteFiles hc
  | resetFiles => exact Session.listed_replacedFiles (Session.resetFilesList_ok hc).2
  | replaceFiles => exact Session.listed_replacedFiles hc

theorem version_le {c : Call} (hc : c.checked session texts snapshot = .ok files) :
    snapshot.version ≤ c.version ∧ (c.advances = true → snapshot.version < c.version) := by
  have hlt : snapshot.version < c.version → snapshot.version ≤ c.version ∧
      (c.advances = true → snapshot.version < c.version) := fun h => ⟨h.le, fun _ => h⟩
  cases c with
  | update => exact hlt (Session.updateFiles_ok hc).1
  | createFile => exact hlt (Session.createFiles_ok hc).1
  | renameFile => exact hlt (Session.renameFiles_ok hc).1
  | deleteFile => exact hlt (Session.deleteFiles_ok hc).1
  | resetFiles => exact hlt (Session.resetFilesList_ok hc).1
  | replaceFiles => exact ⟨(Session.replacedFiles_ok hc).1, fun h => by cases h⟩

/-- A call whose checks pass commits unless it fails on the disk. -/
theorem answer_cases (faults : Faults) {s : Store} (h : session.Listed s.snapshot.files)
    (c : Call) :
    (∃ message, c.checked session texts s.snapshot = .error message ∧
      c.answer session faults texts s = (.error (.refused message), s)) ∨
    ∃ files, c.checked session texts s.snapshot = .ok files ∧
      ((∃ error, (c.work session faults texts s.disk).1 = .error error ∧
          c.answer session faults texts s =
            (.error error, { s with disk := (c.work session faults texts s.disk).2 })) ∨
        ∃ snapshot, (c.work session faults texts s.disk).1 = .ok () ∧
          session.commit c.version files = .ok snapshot ∧
          c.answer session faults texts s =
            (.ok snapshot, ⟨snapshot, (c.work session faults texts s.disk).2⟩)) := by
  rw [answer_eq]
  exact Session.run_cases fun files hc => listed h hc

end Call

/-- A session on a persistent workspace, for concrete calls. -/
def zigSession : Session := ⟨"session", .zig, ["w"], some "workspace", fun _ => none⟩

end Atomis
