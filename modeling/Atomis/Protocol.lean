import Mathlib

/-!
# Wire types and their validation

`protocol.rs`: the part of the runtime protocol the server's document store and
message handling read. The `sessionId` every message carries is checked against
the socket's session before the message is handled and is left out; a `u64` is
a natural number.
-/

namespace Atomis

inductive Language
  | zig | rust | go | ts | py | c | cpp
deriving DecidableEq

def Language.asStr : Language → String
  | .zig => "zig"
  | .rust => "rust"
  | .go => "go"
  | .ts => "ts"
  | .py => "py"
  | .c => "c"
  | .cpp => "cpp"

inductive WorkspaceScaffold
  | demo
  | minimal
deriving DecidableEq

inductive RunReason
  | manual
  | auto
deriving DecidableEq

inductive RunState
  | idle | debouncing | instrumenting | compiling | running | testing
  | succeeded | compileError | runtimeError | timedOut | cancelled
deriving DecidableEq

structure ProjectFile where
  path : String
  uri : String
  source : String
deriving DecidableEq

structure SourceFile where
  path : String
  source : String
deriving DecidableEq

namespace Protocol

def maxSourceBytes : ℕ := 1024 * 1024
def maxProjectFiles : ℕ := 64
def maxProjectBytes : ℕ := 8 * 1024 * 1024

inductive RuntimeClientMessage
  | documentUpdate (version : ℕ) (path source : String) (baseRevision : Option ℕ)
  | fileCreate (version : ℕ) (path source : String) (baseRevision : Option ℕ)
  | fileRename (version : ℕ) (path newPath : String) (baseRevision : Option ℕ)
  | fileDelete (version : ℕ) (path : String) (baseRevision : Option ℕ)
  | workspaceReset (version : ℕ) (scaffold : WorkspaceScaffold) (baseRevision : Option ℕ)
  | inputUpdate (text : String)
  | runRequest (version : ℕ) (reason : RunReason) (language : Option Language)
      (interactive : Option Bool)
  | stdinWrite (data : String) (eof : Option Bool)
  | runCancel
  | settingsUpdate (autoRun autoInspect : Bool) (debounceMs timeoutMs : ℕ)
      (manualProbeIds : List String) (sandbox network serve : Option Bool)
  | depsList
  | depsAdd (name : String)
  | depsRemove (name : String)
deriving DecidableEq

inductive ServerEvent
  | documentSaved (documentVersion : ℕ)
  | projectChanged (files : List ProjectFile) (revision : ℕ)
  | runState (documentVersion : ℕ) (runId : Option String) (state : RunState)
  | workspacePeers (count : ℕ)
  | documentChanged (path source : String) (revision : ℕ)
  | documentConflict (path : String) (revision : ℕ)
  | projectFiles (documentVersion : ℕ) (files : List ProjectFile)
  | serverError (recoverable : Bool) (message : String) (details : Option String)
deriving DecidableEq

/-- The parts of a relative path, as `split('/')` cuts it. -/
def parts (path : String) : List (List Char) := path.toList.splitOn '/'

def validPart (part : List Char) : Bool :=
  part ≠ [] && part ≠ ['.'] && part ≠ ['.', '.']

def projectPathOk (value : String) : Bool :=
  value ≠ "" && value.utf8ByteSize ≤ 240 && value.toList.head? ≠ some '/'
    && !value.toList.contains '\\' && !value.toList.any (fun c => c.toNat < 0x20)
    && (parts value).all validPart

def validProjectPath (value : String) : Except String Unit :=
  if projectPathOk value then .ok () else .error "Invalid project-relative path"

def checkVersion (version : ℕ) : Except String Unit :=
  if version = 0 then .error "version must be positive" else .ok ()

def checkSize (source : String) : Except String Unit :=
  if source.utf8ByteSize > maxSourceBytes then .error "Source exceeds 1 MiB" else .ok ()

/-- The checks of a message that names a version. The others are checked for the
sizes and names they carry, which no operation on files reads. -/
def validate : RuntimeClientMessage → Except String Unit
  | .documentUpdate version path source _ | .fileCreate version path source _ => do
    checkVersion version
    validProjectPath path
    checkSize source
  | .fileRename version path newPath _ => do
    checkVersion version
    validProjectPath path
    validProjectPath newPath
  | .fileDelete version path _ => do
    checkVersion version
    validProjectPath path
  | .runRequest version .. | .workspaceReset version .. => checkVersion version
  | _ => .ok ()

def checkSource (seen : List String) (file : SourceFile) : Except String Unit := do
  validProjectPath file.path
  if seen.contains file.path then throw "Duplicate file path"
  if file.source.utf8ByteSize > maxSourceBytes then throw "Source exceeds 1 MiB"

/-- The loop of `validate_source_files`: every file's own checks, in order. -/
def checkSources (seen : List String) : List SourceFile → Except String Unit
  | [] => .ok ()
  | file :: files => do
    checkSource seen file
    checkSources (file.path :: seen) files

def validateSourceFiles (files : List SourceFile) : Except String Unit := do
  if files.isEmpty || files.length > maxProjectFiles then
    throw "A project must contain 1..64 files"
  checkSources [] files
  if (files.map fun file => file.source.utf8ByteSize).sum > maxProjectBytes then
    throw "Project source exceeds 8 MiB"
  if files.any fun file => files.any fun other =>
      (file.path ++ "/").toList.isPrefixOf other.path.toList then
    throw "A file cannot also be a directory"

end Protocol

end Atomis
