import Atomis.Collab
import Atomis.Lib.Machine
import Atomis.Session

/-!
# Handling messages under the edit lock

`handle_message` of `ws/runtime.rs`, for any number of sessions on any number
of workspaces. A step is what one handler does between two await points; what
the store answers is part of the action, so every answer is covered. The attach
code and the forwarders take the same lock without writing, and everything else
that sends to an outbox is the action `emit`.
-/

namespace Atomis.HandleMessage
open Protocol

structure Mutation where
  version : ℕ
  path : String
  source : Option String
  base : Option ℕ

def mutation : RuntimeClientMessage → Option Mutation
  | .documentUpdate version path source base => some ⟨version, path, some source, base⟩
  | .fileCreate version path _ base => some ⟨version, path, none, base⟩
  | .fileRename version path _ base => some ⟨version, path, none, base⟩
  | .fileDelete version path base => some ⟨version, path, none, base⟩
  | .workspaceReset version _ base => some ⟨version, "", none, base⟩
  | _ => none

def wantsLock (message : RuntimeClientMessage) : Bool :=
  (mutation message).isSome || match message with
    | .runRequest .. => true
    | _ => false

/-- The path `after_store_change` is told about, and whether the set of files changed. -/
def changed (session : Session) : RuntimeClientMessage → String × Bool
  | .documentUpdate _ path _ _ => (path, false)
  | .fileCreate _ path _ _ | .fileRename _ path _ _ | .fileDelete _ path _ => (path, true)
  | .workspaceReset .. => ((Packs.pack session.language).entryFile, true)
  | _ => ("", false)

def afterStoreChange (session : Session) (snapshot : Snapshot) (path : String)
    (catalogChanged : Bool) : List ServerEvent :=
  let language := ((Packs.packForPath path).map Packs.LanguagePack.id).getD session.language
  (if catalogChanged then [.projectFiles snapshot.version snapshot.files] else []) ++
    (if (session.support language).any LanguageSupport.run then []
      else [.runState snapshot.version none .idle])

inductive Pc
  | locking
  | checking
  | refreshing
  | performing
  | recording
deriving DecidableEq

inductive Holder
  | handler (id : String)
  | reader (id : String)
deriving DecidableEq

inductive Outcome
  | conflict (current : ℕ)
  | refused (error : String)
  | saved
  | lost (error : String)
deriving DecidableEq

structure Handled where
  session : String
  mutation : Mutation
  outcome : Outcome

structure State where
  collab : Collab.State
  editLock : String → Option Holder
  phase : String → Option (Pc × RuntimeClientMessage)
  outbox : String → List ServerEvent
  handled : List Handled

def init : State := ⟨Collab.new, fun _ => none, fun _ => none, fun _ => [], []⟩

inductive Action
  | receive (id : String) (message : RuntimeClientMessage)
  | acquire (id : String) (message : RuntimeClientMessage)
  | check (id : String) (message : RuntimeClientMessage)
  | refresh (id : String) (message : RuntimeClientMessage) (result : Except String Unit)
  | store (id : String) (message : RuntimeClientMessage) (result : Except String Snapshot)
  | answer (id : String) (message : RuntimeClientMessage) (result : Except String Unit)
  | record (id : String) (message : RuntimeClientMessage)
  | readerLock (id workspace : String)
  | join (id workspace : String)
  | readerUnlock (id workspace : String)
  | leave (id workspace : String)
  | emit (id : String) (event : ServerEvent)

def isDocumentSaved : ServerEvent → Bool
  | .documentSaved _ => true
  | _ => false

section
variable (sessions : String → Session)

/-- The workspace whose lock a message is handled under. -/
def lockFor (id : String) (message : RuntimeClientMessage) : Option String :=
  if wantsLock message then (sessions id).workspaceId else none

def enabled (s : State) : Action → Prop
  | .receive id _ => s.phase id = none
  | .acquire id m => s.phase id = some (.locking, m) ∧
      (lockFor sessions id m).all (fun w => (s.editLock w).isNone) = true
  | .check id m => s.phase id = some (.checking, m)
  | .refresh id m _ => s.phase id = some (.refreshing, m)
  | .store id m _ => s.phase id = some (.performing, m) ∧ (mutation m).isSome = true
  | .answer id m _ => s.phase id = some (.performing, m) ∧ (mutation m).isSome = false
  | .record id m => s.phase id = some (.recording, m)
  | .readerLock _ w => s.editLock w = none
  | .join id w => s.editLock w = some (.reader id)
  | .readerUnlock id w => s.editLock w = some (.reader id)
  | .leave _ _ => True
  | .emit _ event => isDocumentSaved event = false

def State.setPhase (s : State) (id : String) (x : Option (Pc × RuntimeClientMessage)) : State :=
  { s with phase := Function.update s.phase id x }

def State.setLock (s : State) (w : Option String) (x : Option Holder) : State :=
  match w with
  | none => s
  | some w => { s with editLock := Function.update s.editLock w x }

def State.send (s : State) (id : String) (events : List ServerEvent) : State :=
  { s with outbox := Function.update s.outbox id (s.outbox id ++ events) }

def State.log (s : State) (id : String) (m : RuntimeClientMessage) (outcome : Outcome) : State :=
  match mutation m with
  | none => s
  | some mu => { s with handled := s.handled ++ [⟨id, mu, outcome⟩] }

/-- The handler returns: the guard is dropped and the socket reads its next message. -/
def State.return (s : State) (id : String) (m : RuntimeClientMessage) : State :=
  (s.setPhase id none).setLock (lockFor sessions id m) none

def recordMutation (c : Collab.State) (workspace id : String) (mu : Mutation) :
    Except Collab.Conflict ℕ × Collab.State :=
  match mu.source with
  | some source => Collab.recordEdit c workspace id mu.path source mu.base
  | none => Collab.recordFiles c workspace id mu.base

def stepCheck (s : State) (id : String) (m : RuntimeClientMessage) : State :=
  match (sessions id).workspaceId with
  | none => s.setPhase id (some (.performing, m))
  | some w =>
    let next := s.setPhase id (some (if wantsLock m then .refreshing else .performing, m))
    match mutation m with
    | none => next
    | some mu =>
      match Collab.checkWriterBase s.collab w id mu.base with
      | .ok _ => next
      | .error conflict =>
        (((s.send id [.documentConflict mu.path conflict.current]).log id m
          (.conflict conflict.current))).return sessions id m

def stepRecord (s : State) (id : String) (m : RuntimeClientMessage) : State :=
  match mutation m with
  | none => s.return sessions id m
  | some mu =>
    match (sessions id).workspaceId with
    | none => ((s.send id [.documentSaved mu.version]).log id m .saved).return sessions id m
    | some w =>
      match recordMutation s.collab w id mu with
      | (.ok revision, c) =>
        (({ s with collab := c }.send id
          [.documentChanged "" "" revision, .documentSaved mu.version]).log id m .saved).return
            sessions id m
      | (.error _, c) =>
        (({ s with collab := c }.send id
          [.serverError true "Workspace revision changed while locked" none]).log id m
            (.lost "Workspace revision changed while locked")).return sessions id m

def next (s : State) : Action → State
  | .receive id m => s.setPhase id (some (.locking, m))
  | .acquire id m =>
    (s.setPhase id (some (.checking, m))).setLock (lockFor sessions id m) (some (.handler id))
  | .check id m => stepCheck sessions s id m
  | .refresh id m (.ok _) => s.setPhase id (some (.performing, m))
  | .refresh id m (.error e) =>
    ((s.send id [.serverError true e none]).log id m (.refused e)).return sessions id m
  | .store id m (.ok snapshot) =>
    let (path, catalogChanged) := changed (sessions id) m
    (s.send id (afterStoreChange (sessions id) snapshot path catalogChanged)).setPhase id
      (some (.recording, m))
  | .store id m (.error e) =>
    ((s.send id [.serverError true e none]).log id m (.refused e)).return sessions id m
  | .answer id m (.ok _) => s.return sessions id m
  | .answer id m (.error e) => (s.send id [.serverError true e none]).return sessions id m
  | .record id m => stepRecord sessions s id m
  | .readerLock id w => s.setLock (some w) (some (.reader id))
  | .join id w =>
    let (revision, c) := Collab.join s.collab w id
    { s with collab := c }.send id [.documentChanged "" "" revision]
  | .readerUnlock _ w => s.setLock (some w) none
  | .leave id w => { s with collab := Collab.leave s.collab w id }
  | .emit id event => s.send id [event]

def machine : Machine State Action := ⟨enabled sessions, next sessions⟩

end

end Atomis.HandleMessage
