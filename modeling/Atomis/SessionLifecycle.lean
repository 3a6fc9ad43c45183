import Atomis.Lib.Machine
import Atomis.Packs
import Mathlib.Logic.Function.Basic

/-!
# Opening, switching and recovering sessions

`useSessionLifecycle.ts`: a step is what an operation does between two awaits.
An operation that was started holds its number and waits for the head or the
body of a response. What a response carries is part of the action. `produced`
records the session that an operation's responses ended with; the code does not
keep it. The teardown of the socket, the language clients and the picker is not
in the state.
-/

namespace Atomis.SessionLifecycle
open Protocol

structure WorkspaceRef where
  id : String
  name : String
deriving DecidableEq

/-- `CreateSessionResponse`. -/
structure Created where
  sessionId : String
  workspace : Option WorkspaceRef
  language : Language
  files : Option (List ProjectFile)
  documentUri : String
  initialSource : String
  sandboxUnsupported : Bool
deriving DecidableEq

/-- The id the response names; `""` and a missing one are both no workspace. -/
def named (id : Option String) : Option String := id.filter fun id => id ≠ ""

def Created.workspaceId (created : Created) : Option String :=
  named (created.workspace.map WorkspaceRef.id)

structure SessionSeed where
  language : Language
  files : List SourceFile
  input : Option String
  dependencies : List String

/-- What an operation waits for: the head of a response, or (`reading`, `preserved`,
`recovered`) its body. -/
inductive Stage
  | opening (workspace : Option String) (seed : Option SessionSeed) (isSwitch : Bool)
  | fallback (isSwitch : Bool)
  | reading (workspace : Option String) (isSwitch : Bool)
  | preserving (previous : Created) (files : List SourceFile)
  | preserved (previous : Created) (files : List SourceFile)
  | recovering (previous : Created) (unsaved : Bool) (workspace : Option String)
      (files : List SourceFile)
  | recovered (previous : Created) (unsaved : Bool) (workspace : Option String)

structure State where
  session : Option Created
  files : List ProjectFile
  entry : String
  activeLanguage : Language
  version : ℕ
  sandbox : Bool
  status : String
  startupError : Option String
  switchFailed : Option String
  switching : Bool
  persisted : Option String
  lastOpenFailed : Bool
  booted : Bool
  recovery : Option ℕ
  operation : ℕ
  pending : ℕ → Option Stage
  produced : ℕ → Option Created

def init (persisted : Option String) (sandbox : Bool) : State where
  session := none
  files := []
  entry := (Packs.pack .zig).entryFile
  activeLanguage := .zig
  version := 1
  sandbox := sandbox
  status := ""
  startupError := none
  switchFailed := none
  switching := false
  persisted := named persisted
  lastOpenFailed := false
  booted := false
  recovery := none
  operation := 0
  pending _ := none
  produced _ := none

inductive Action
  | openSession (workspace : Option String) (seed : Option SessionSeed)
  | boot
  | retryBoot
  | switchToWorkspace (id : Option String)
  | openDemo (seed : SessionSeed)
  | recoverSession (unsaved : Bool)
  | accept (n : ℕ)
  | refuse (n status : ℕ)
  | fail (n : ℕ) (message : String)
  | deliver (n : ℕ) (created : Created)
  | deliverWorkspace (n : ℕ) (id : String)

namespace State

def saveActiveWorkspace (s : State) (id : Option String) : State := { s with persisted := named id }

def setPending (s : State) (n : ℕ) (stage : Option Stage) : State :=
  { s with pending := Function.update s.pending n stage }

def adoptSession (s : State) (created : Created) : State :=
  let entry := (Packs.pack created.language).entryFile
  { s with
    lastOpenFailed := false
    session := some created
    entry := entry
    activeLanguage := created.language
    version := 1
    files := created.files.getD [⟨entry, created.documentUri, created.initialSource⟩]
    sandbox := s.sandbox && !created.sandboxUnsupported }

/-- The synchronous part of `openSession`. -/
def openSession (s : State) (workspace : Option String) (seed : Option SessionSeed) : State :=
  let n := s.operation + 1
  { s with operation := n }.setPending n (some (.opening workspace seed s.session.isSome))

def leaveSession (s : State) (status : String) : State :=
  { s with switching := true, status := status, version := 1 }

def switchToWorkspace (s : State) (id : Option String) : State :=
  if !s.lastOpenFailed && id == (s.session.bind Created.workspace).map WorkspaceRef.id then s
  else ((s.saveActiveWorkspace id).leaveSession "Opening workspace…").openSession id none

def openDemo (s : State) (seed : SessionSeed) : State :=
  ((s.saveActiveWorkspace none).leaveSession "Opening demo…").openSession none (some seed)

def boot (s : State) : State :=
  if s.booted then s else { s with booted := true }.openSession s.persisted none

def retryBoot (s : State) : State :=
  { s with startupError := none, status := "Retrying…" }.openSession s.persisted none

/-- The synchronous part of `recoverSession`. -/
def recoverSession (s : State) (unsaved : Bool) : State :=
  if s.recovery.isSome then s
  else
    match s.session with
    | none => s
    | some previous =>
      let n := s.operation + 1
      let files := s.files.map fun file => ⟨file.path, file.source⟩
      let workspace := named (previous.workspace.map WorkspaceRef.id)
      { s with
        operation := n
        recovery := some n
        switching := true
        status := "Restoring session…" }.setPending n
          (some (if workspace.isSome && unsaved then .preserving previous files
            else .recovering previous unsaved workspace files))

/-- The `finally` blocks: the flag is cleared for the newest operation only. -/
def settle (s : State) (n : ℕ) : State :=
  { s with
    switching := if n = s.operation then false else s.switching
    recovery := if s.recovery = some n then none else s.recovery }.setPending n none

/-- The `catch` of `openSession`. -/
def openFailed (s : State) (n : ℕ) (isSwitch : Bool) (message : String) : State :=
  if n ≠ s.operation then s
  else if isSwitch then { s with lastOpenFailed := true, switchFailed := some message }
  else { s with lastOpenFailed := true, startupError := some message }

def openSucceeded (s : State) (n : ℕ) (created : Created) : State :=
  if n ≠ s.operation then s else s.adoptSession created

def recoverSucceeded (s : State) (n : ℕ) (previous : Created) (unsaved : Bool)
    (created : Created) : State :=
  if s.session ≠ some previous ∨ n ≠ s.operation then s
  else
    { ((s.saveActiveWorkspace created.workspaceId).adoptSession created) with
      status := if previous.workspace.isSome && unsaved
        then "Local edits preserved in a recovery workspace" else "Session restored" }

def produce (s : State) (n : ℕ) (created : Created) : State :=
  { s with produced := Function.update s.produced n (some created) }

end State

open State

/-- The workspace a session is opened for is the one its response names. -/
def enabled (s : State) : Action → Prop
  | .openSession .. | .boot | .retryBoot | .switchToWorkspace _ | .openDemo _
  | .recoverSession _ => True
  | .accept n | .refuse n _ => match s.pending n with
    | some (.opening ..) | some (.fallback _) | some (.preserving ..) | some (.recovering ..) => True
    | _ => False
  | .fail n _ => (s.pending n).isSome = true
  | .deliver n created => match s.pending n with
    | some (.reading workspace _) | some (.recovered _ _ workspace) =>
      created.workspaceId = named workspace
    | _ => False
  | .deliverWorkspace n _ => match s.pending n with
    | some (.preserved ..) => True
    | _ => False

def stepAccept (s : State) (n : ℕ) : State :=
  match s.pending n with
  | some (.opening workspace seed isSwitch) =>
    s.setPending n (some (.reading (if seed.isSome then none else workspace) isSwitch))
  | some (.fallback isSwitch) => s.setPending n (some (.reading none isSwitch))
  | some (.preserving previous files) => s.setPending n (some (.preserved previous files))
  | some (.recovering previous unsaved workspace _) =>
    s.setPending n (some (.recovered previous unsaved workspace))
  | _ => s

def stepRefuse (s : State) (n status : ℕ) : State :=
  let creation := "Session creation failed (" ++ toString status ++ ")"
  match s.pending n with
  | some (.opening workspace _ isSwitch) =>
    if (named workspace).isSome then
      (s.saveActiveWorkspace none).setPending n (some (.fallback isSwitch))
    else (s.openFailed n isSwitch creation).settle n
  | some (.fallback isSwitch) => (s.openFailed n isSwitch creation).settle n
  -- The recovery's promise is rejected with a message; its caller keeps the session.
  | some (.preserving ..) | some (.recovering ..) => s.settle n
  | _ => s

def stepFail (s : State) (n : ℕ) (message : String) : State :=
  match s.pending n with
  | some (.opening _ _ isSwitch) | some (.fallback isSwitch) | some (.reading _ isSwitch) =>
    (s.openFailed n isSwitch message).settle n
  | some _ => s.settle n
  | none => s

def stepDeliver (s : State) (n : ℕ) (created : Created) : State :=
  match s.pending n with
  | some (.reading ..) => ((s.produce n created).openSucceeded n created).settle n
  | some (.recovered previous unsaved _) =>
    ((s.produce n created).recoverSucceeded n previous unsaved created).settle n
  | _ => s

def stepDeliverWorkspace (s : State) (n : ℕ) (id : String) : State :=
  match s.pending n with
  | some (.preserved previous files) =>
    s.setPending n (some (.recovering previous true (some id) files))
  | _ => s

def next (s : State) : Action → State
  | .openSession workspace seed => s.openSession workspace seed
  | .boot => s.boot
  | .retryBoot => s.retryBoot
  | .switchToWorkspace id => s.switchToWorkspace id
  | .openDemo seed => s.openDemo seed
  | .recoverSession unsaved => s.recoverSession unsaved
  | .accept n => stepAccept s n
  | .refuse n status => stepRefuse s n status
  | .fail n message => stepFail s n message
  | .deliver n created => stepDeliver s n created
  | .deliverWorkspace n id => stepDeliverWorkspace s n id

def machine : Machine State Action := ⟨enabled, next⟩

end Atomis.SessionLifecycle
