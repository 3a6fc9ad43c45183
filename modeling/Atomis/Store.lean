import Atomis.Lib.FileTree
import Atomis.Session

/-!
# The document store

The operations of `domain/session.rs` on a session's snapshot and on the disk,
and `read_sources` of `domain/workspace.rs`. Every operation checks its
arguments against the snapshot, then works on the disk, then commits. Random
names are arguments, `faults` says which disk operations fail although they
could have succeeded, and `order` is the order in which directories are read.
-/

namespace Atomis
open Protocol

/-- What a file holds: text that reads as UTF-8, or other bytes. -/
inductive Content
  | text (source : String)
  | bytes (data : List ℕ)
deriving DecidableEq

abbrev Disk := Tree String Content

structure Faults where
  createDir : List String → Bool
  write : List (Component String) → Option (Option Content)
  rename : List (Component String) → List (Component String) → Bool
  remove : List (Component String) → Bool

def Faults.none : Faults := ⟨fun _ => false, fun _ => .none, fun _ _ => false, fun _ => false⟩

structure Store where
  snapshot : Snapshot
  disk : Disk

inductive StoreError
  | refused (message : String)
  | io
deriving DecidableEq

/-- The components of a path: `.` and empty ones are dropped. -/
def components (path : String) : List (Component String) :=
  (parts path).filterMap fun part =>
    if part = [] ∨ part = ['.'] then none
    else if part = ['.', '.'] then some .up
    else some (.name (String.ofList part))

namespace Session

/-- `source_root.join(path)`, as components from the root. -/
def destination (session : Session) (path : String) : List (Component String) :=
  if path.toList.head? = some '/' then components path
  else session.sourceRoot.map .name ++ components path

def inRoot (session : Session) (name : String) : List (Component String) :=
  session.root.map .name ++ [.name name]

def atomicWrite (session : Session) (faults : Faults) (temporary : String) (path source : String)
    (disk : Disk) : Except StoreError Unit × Disk :=
  let destination := session.destination path
  let parent := destination.dropLast
  let temporary := parent ++ [.name temporary]
  match disk.mkdirs faults.createDir [] parent with
  | (false, disk) => (.error .io, disk)
  | (true, disk) =>
    match disk.write (faults.write temporary) temporary (.text source) with
    | (false, disk) => (.error .io, disk)
    | (true, disk) =>
      match disk.rename (faults.rename temporary destination) temporary destination with
      | (false, disk) => (.error .io, disk)
      | (true, disk) => (.ok (), disk)

/-- The disk part of `rename_file`. -/
def renameOnDisk (session : Session) (faults : Faults) (path newPath : String) (disk : Disk) :
    Except StoreError Unit × Disk :=
  let source := session.destination path
  let destination := session.destination newPath
  match disk.mkdirs faults.createDir [] destination.dropLast with
  | (false, disk) => (.error .io, disk)
  | (true, disk) =>
    match disk.rename (faults.rename source destination) source destination with
    | (false, disk) => (.error .io, disk)
    | (true, disk) => (.ok (), disk)

/-- The disk part of `delete_file`, which ignores whether it could remove the file. -/
def deleteOnDisk (session : Session) (faults : Faults) (path : String) (disk : Disk) :
    Except StoreError Unit × Disk :=
  (.ok (), (disk.remove (faults.remove (session.destination path)) (session.destination path)).2)

/-- The loop of `replace_files` that writes the staged tree. -/
def stageFiles (faults : Faults) (staging : List (Component String)) :
    List SourceFile → Disk → Bool × Disk
  | [], disk => (true, disk)
  | file :: files, disk =>
    let destination := staging ++ components file.path
    match disk.mkdirs faults.createDir [] destination.dropLast with
    | (false, disk) => (false, disk)
    | (true, disk) =>
      match disk.write (faults.write destination) destination (.text file.source) with
      | (false, disk) => (false, disk)
      | (true, disk) => stageFiles faults staging files disk

/-- The disk part of `replace_files`: stage, then swap the trees, or swap back. -/
def replaceOnDisk (session : Session) (faults : Faults) (staging backup : String)
    (sources : List SourceFile) (disk : Disk) : Except StoreError Unit × Disk :=
  let staging := session.inRoot staging
  let backup := session.inRoot backup
  let source := session.inRoot "src"
  match disk.mkdirs faults.createDir [] staging with
  | (false, disk) => (.error .io, disk)
  | (true, disk) =>
    match stageFiles faults staging sources disk with
    | (false, disk) => (.error .io, disk)
    | (true, disk) =>
      match disk.rename (faults.rename source backup) source backup with
      | (false, disk) => (.error .io, disk)
      | (true, disk) =>
        match disk.rename (faults.rename staging source) staging source with
        | (true, disk) => (.ok (), disk)
        | (false, disk) => (.error .io, (disk.rename (faults.rename backup source) backup source).2)

/-! ## The checks, and the files an operation would commit -/

def updateFiles (session : Session) (snapshot : Snapshot) (version : ℕ) (path source : String) :
    Except String (List ProjectFile) := do
  assertVersion snapshot version
  if !snapshot.files.any fun f => f.path = path then throw ("File does not exist: " ++ path)
  let files := snapshot.files.map fun f =>
    if f.path = path then session.projectFile path source else f
  assertProjectSize files
  return files

def createFiles (session : Session) (snapshot : Snapshot) (version : ℕ) (path source : String) :
    Except String (List ProjectFile) := do
  assertVersion snapshot version
  if snapshot.files.length ≥ maxProjectFiles then
    throw ("A project can contain at most " ++ toString maxProjectFiles ++ " files")
  if snapshot.files.any fun f => f.path = path then throw ("File already exists: " ++ path)
  let files := snapshot.files ++ [session.projectFile path source]
  assertProjectSize files
  return files

def renameFiles (session : Session) (snapshot : Snapshot) (version : ℕ) (path newPath : String) :
    Except String (List ProjectFile) := do
  assertVersion snapshot version
  if session.entryPath = path then throw (path ++ " cannot be renamed")
  match snapshot.files.find? fun f => f.path = path with
  | none => throw ("File does not exist: " ++ path)
  | some current =>
    if snapshot.files.any fun f => f.path = newPath then throw ("File already exists: " ++ newPath)
    return snapshot.files.map fun f =>
      if f.path = path then session.projectFile newPath current.source else f

def deleteFiles (session : Session) (snapshot : Snapshot) (version : ℕ) (path : String) :
    Except String (List ProjectFile) := do
  assertVersion snapshot version
  if session.entryPath = path then throw (path ++ " cannot be deleted")
  if !snapshot.files.any fun f => f.path = path then throw ("File does not exist: " ++ path)
  return snapshot.files.filter fun f => f.path ≠ path

def replacedFiles (session : Session) (snapshot : Snapshot) (version : ℕ)
    (sources : List SourceFile) : Except String (List ProjectFile) := do
  validateSourceFiles sources
  if !sources.any fun file => file.path = (Packs.pack session.language).entryFile then
    throw "Recovery is missing the language entry file"
  if version < snapshot.version then throw "Regressive reset version"
  return sources.map fun file => session.projectFile file.path file.source

def present (session : Session) (language : Language) : Bool :=
  (session.support language).any LanguageSupport.present

/-- What a scaffold puts in `src/`; `texts` gives the default text of each file. -/
def scaffoldSources (session : Session) (texts : String → String) (scaffold : WorkspaceScaffold) :
    List SourceFile :=
  Packs.packs.flatMap fun pack =>
    if !session.present pack.id then []
    else if scaffold = .minimal ∧ pack.id ≠ session.language then []
    else ⟨pack.entryFile, texts pack.entryFile⟩ ::
      (if scaffold = .demo then pack.extraFiles.map fun path => ⟨path, texts path⟩ else [])

def resetFilesList (session : Session) (texts : String → String) (snapshot : Snapshot)
    (version : ℕ) (scaffold : WorkspaceScaffold) : Except String (List ProjectFile) := do
  assertVersion snapshot version
  session.replacedFiles snapshot version (session.scaffoldSources texts scaffold)

end Session

namespace Store

/-- Check, work on the disk, commit. -/
def run (session : Session) (s : Store) (version : ℕ) (checked : Except String (List ProjectFile))
    (work : Disk → Except StoreError Unit × Disk) : Except StoreError Snapshot × Store :=
  match checked with
  | .error message => (.error (.refused message), s)
  | .ok files =>
    match work s.disk with
    | (.error error, disk) => (.error error, { s with disk := disk })
    | (.ok _, disk) =>
      match session.commit version files with
      | .error message => (.error (.refused message), { s with disk := disk })
      | .ok snapshot => (.ok snapshot, ⟨snapshot, disk⟩)

section
variable (session : Session) (faults : Faults) (s : Store)

def update (temporary : String) (version : ℕ) (path source : String) :
    Except StoreError Snapshot × Store :=
  s.run session version (session.updateFiles s.snapshot version path source)
    (session.atomicWrite faults temporary path source)

def createFile (temporary : String) (version : ℕ) (path source : String) :
    Except StoreError Snapshot × Store :=
  s.run session version (session.createFiles s.snapshot version path source)
    (session.atomicWrite faults temporary path source)

def renameFile (version : ℕ) (path newPath : String) : Except StoreError Snapshot × Store :=
  s.run session version (session.renameFiles s.snapshot version path newPath)
    (session.renameOnDisk faults path newPath)

def deleteFile (version : ℕ) (path : String) : Except StoreError Snapshot × Store :=
  s.run session version (session.deleteFiles s.snapshot version path)
    (session.deleteOnDisk faults path)

def replaceFiles (staging backup : String) (version : ℕ) (sources : List SourceFile) :
    Except StoreError Snapshot × Store :=
  s.run session version (session.replacedFiles s.snapshot version sources)
    (session.replaceOnDisk faults staging backup sources)

def resetFiles (texts : String → String) (staging backup : String) (version : ℕ)
    (scaffold : WorkspaceScaffold) : Except StoreError Snapshot × Store :=
  s.run session version (session.resetFilesList texts s.snapshot version scaffold)
    (session.replaceOnDisk faults staging backup (session.scaffoldSources texts scaffold))

end

end Store

/-! ## Reading the sources back -/

structure Found where
  files : List (String × String)
  bytes : ℕ
  pending : List (List String)

/-- What `read_dir` lists in a directory. -/
def entries (order : List (List String)) (disk : Disk) (dir : List String) : List (List String) :=
  if (disk dir).any Node.isDir then
    order.filter fun p => p ≠ [] ∧ p.dropLast = dir ∧ (disk p).isSome = true
  else []

def relative (root p : List String) : String :=
  String.ofList (['/'].intercalate ((p.drop root.length).map String.toList))

def visit (disk : Disk) (root : List String) (found : Found) (p : List String) : Found :=
  match disk p with
  | some .dir => { found with pending := p :: found.pending }
  | some (.file (.text source)) =>
    if found.files.length ≥ maxProjectFiles then found
    else if found.bytes + source.utf8ByteSize > maxProjectBytes then found
    else { found with
      files := found.files ++ [(relative root p, source)]
      bytes := found.bytes + source.utf8ByteSize }
  | _ => found

/-- Directories wait on a stack; each is read once, so as many rounds as there are entries do. -/
def readLoop (order : List (List String)) (disk : Disk) (root : List String) : ℕ → Found → Found
  | 0, found => found
  | fuel + 1, found =>
    match found.pending with
    | [] => found
    | dir :: pending =>
      readLoop order disk root fuel
        ((entries order disk dir).foldl (visit disk root) { found with pending := pending })

def readSources (order : List (List String)) (disk : Disk) (root : List String) :
    List (String × String) :=
  (readLoop order disk root (order.length + 1) ⟨[], 0, [root]⟩).files.insertionSort
    fun l r => (localeCompare l.1 r.1).isLE = true

def Store.refreshFiles (session : Session) (order : List (List String)) (s : Store) :
    Except StoreError Snapshot × Store :=
  if session.workspaceId.isNone then (.ok s.snapshot, s)
  else
    let files := (readSources order s.disk session.sourceRoot).map fun (path, source) =>
      session.projectFile path source
    match session.commit s.snapshot.version files with
    | .error message => (.error (.refused message), s)
    | .ok snapshot => (.ok snapshot, { s with snapshot := snapshot })

end Atomis
