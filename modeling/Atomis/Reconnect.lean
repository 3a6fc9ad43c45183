import Atomis.Lib.KeyedEdits
import Atomis.OfflineQueue

/-!
# One client and its session across reconnects

A client edits alone (`useRuntimeSocket.ts`, `useProjectFiles.ts`, `App.tsx`) while
its runtime socket drops and comes back, and the session stays alive
(`handle_runtime` of `ws/runtime.rs`). A socket that dies delivers the messages it
was handed up to some point; the server handles these before it accepts the next
socket, and what it answers to them is not heard. Only messages that change files
are in the model. `stale` and `reset` are history: the paths of lost updates that
nothing sent since has made up for, and how far a reset has come.
-/

namespace Atomis.Reconnect
open Protocol RuntimeSocket Collab PeerUpdate

/-- What an operation makes of the mirror, and what it sends. -/
structure Intent where
  files : List ProjectFile
  message : ℕ → RuntimeClientMessage

def intent (session : Session) (c : Client) : Operation → Option Intent
  | .change source =>
    match c.files.find? fun f => f.path = c.activePath with
    | none => none
    | some current =>
      if source = current.source then none
      else some ⟨c.replace c.activePath source, fun version =>
        .documentUpdate version c.activePath source c.revisionRef⟩
  | .create path =>
    if !Client.isValidProjectPath path || c.has path || c.files.length ≥ maxProjectFiles then none
    else some ⟨(c.files ++ [session.projectFile path ""]).insertionSort Session.before,
      fun version => .fileCreate version path "" none⟩
  | .rename path newPath =>
    if path = session.entryPath || newPath = "" || newPath = path ||
        !Client.isValidProjectPath newPath || c.has newPath || !c.has path then none
    else some ⟨c.files.map fun f =>
        if f.path = path then { session.projectFile newPath "" with source := f.source } else f,
      fun version => .fileRename version path newPath none⟩
  | .remove path =>
    if path = session.entryPath || !c.has path then none
    else some ⟨c.files.filter fun f => f.path ≠ path, fun version => .fileDelete version path none⟩
  | .reset scaffold => some ⟨c.files, fun version => .workspaceReset version scaffold none⟩

/-- The mirror moves at once, and a message goes out if the socket is open. -/
def sendWhile (c : Client) (isOpen : Bool) (i : Intent) : Option RuntimeClientMessage × Client :=
  let version := c.version + 1
  let sent := c.socket.sendRuntime c.revisionRef isOpen (i.message version)
  (sent.1, { c with version := version, files := i.files, socket := sent.2 })

/-- On an open socket an operation is what it is in `PeerUpdate`. -/
theorem run_eq (session : Session) (c : Client) (op : Operation) :
    op.run session c = match intent session c op with
      | none => (none, c)
      | some i => sendWhile c true i := by
  cases op with
  | change source =>
    simp only [Operation.run, Client.onChange, intent]
    cases c.files.find? fun f => f.path = c.activePath with
    | none => rfl
    | some current =>
      simp only
      by_cases hsame : source = current.source
      · rw [if_pos hsame, if_pos hsame]
      · rw [if_neg hsame, if_neg hsame]
        rfl
  | create path =>
    simp only [Operation.run, Client.createFileNamed, intent]
    split_ifs <;> first | rfl | contradiction
  | rename path newPath =>
    simp only [Operation.run, Client.renameFileTo, intent]
    split_ifs <;> first | rfl | contradiction
  | remove path =>
    simp only [Operation.run, Client.removeFile, intent]
    split_ifs <;> rfl
  | reset scaffold => rfl

inductive ResetPhase
  | settled
  | sent
  | answered
deriving DecidableEq

structure State where
  client : Client
  retry : ℕ
  online : Bool
  inbox : List RuntimeClientMessage
  outbox : List ServerEvent
  snapshot : Snapshot
  collab : Collab.State
  stale : List String
  reset : ResetPhase

def isReset : RuntimeClientMessage → Bool
  | .workspaceReset .. => true
  | _ => false

/-- What a message does to the text at each path, a reset left aside. -/
def editOf : RuntimeClientMessage → KeyedEdit String String
  | .documentUpdate _ path source _ => .overwrite path source
  | .fileCreate _ path source _ => .insert path source
  | .fileRename _ path newPath _ => .rename path newPath
  | .fileDelete _ path _ => .erase path
  | _ => .keep

inductive Action
  | operate (op : Operation)
  | look (path : String) (focused : Bool)
  | handle (fails : Bool)
  | deliver
  | cut (kept : ℕ)
  | connectFails
  | open (fails : Bool)

section
variable (session : Session) (texts : String → String) (initialSource : String)

/-- The session as it was just opened. -/
def init (snapshot : Snapshot) : State where
  client := .opened snapshot.files session.entryPath 0
  retry := 0
  online := false
  inbox := []
  outbox := []
  snapshot := snapshot
  collab := Collab.new
  stale := []
  reset := .settled

/-- `refresh_files`; nobody else writes. -/
def refreshed (snapshot : Snapshot) : Except String Snapshot :=
  if session.workspaceId.isNone then .ok snapshot
  else session.commit snapshot.version snapshot.files

def perform (snapshot : Snapshot) (m : RuntimeClientMessage) : Except String Snapshot := do
  handleMessageInner texts session (← refreshed session snapshot) m

def checkBase (s : State) (m : RuntimeClientMessage) : Except Conflict Unit :=
  match session.workspaceId with
  | none => .ok ()
  | some w => checkWriterBase s.collab w session.id (baseRevision m)

/-- The message is recorded, if the workspace is shared, and acknowledged. -/
def acknowledge (s : State) (m : RuntimeClientMessage) : List ServerEvent × Collab.State :=
  match session.workspaceId with
  | none => ([.documentSaved ((versionOf m).getD 0)], s.collab)
  | some w =>
    match record w s.collab session.id m with
    | (.ok revision, collab) =>
      ([.documentChanged "" "" revision, .documentSaved ((versionOf m).getD 0)], collab)
    | (.error _, collab) =>
      ([.serverError true "Workspace revision changed while locked" none], collab)

/-- What the server sends is only heard while the socket is up. -/
def State.say (s : State) (events : List ServerEvent) : State :=
  if s.online then { s with outbox := s.outbox ++ events } else s

def accept (s : State) (m : RuntimeClientMessage) (snapshot : Snapshot) : State :=
  let answer := acknowledge session s m
  State.say { s with
    snapshot := snapshot
    collab := answer.2
    reset := if isReset m then .answered else s.reset } (catalogFor snapshot m ++ answer.1)

def handleMessage (s : State) (m : RuntimeClientMessage) (fails : Bool) : State :=
  match validate m with
  | .error details => s.say [.serverError true "Invalid runtime message" (some details)]
  | .ok _ =>
    match checkBase session s m with
    | .error conflict => s.say [.documentConflict (pathOf m) conflict.current]
    | .ok _ =>
      match perform session texts s.snapshot m with
      | .error error => s.say [.serverError true error none]
      | .ok snapshot =>
        if fails then s.say [.serverError true "" none] else accept session s m snapshot

/-- What is on screen for the entry file. -/
def mainSource (c : Client) : String :=
  ((c.files.find? fun f => f.path = session.entryPath).map ProjectFile.source).getD initialSource

/-- Whether the `open` handler sends the entry file after the queue. -/
def pushes (s : State) : Bool :=
  !(s.client.socket.pending.any fun m => updatedPath m = some session.entryPath) &&
    session.workspaceId.isNone &&
    (decide (0 < s.retry) || mainSource session initialSource s.client ≠ initialSource)

/-- The `open` handler: the queue goes out, and the entry file after it. -/
def flush (s : State) : List RuntimeClientMessage × Client :=
  let pending := s.client.socket.pending
  let c := { s.client with socket := { s.client.socket with pending := [] } }
  if pushes session initialSource s then
    let version := max (c.version + 1) 2
    let sent := c.socket.sendRuntime c.revisionRef true
      (.documentUpdate version session.entryPath (mainSource session initialSource c) c.revisionRef)
    (pending ++ sent.1.toList, { c with version := version, socket := sent.2 })
  else (pending, c)

/-- A session on a workspace joins it and is sent its files. -/
def attach (s : State) (fails : Bool) : List ServerEvent × Collab.State :=
  match session.workspaceId with
  | none => ([], s.collab)
  | some w =>
    let joined := join s.collab w session.id
    ([.documentChanged "" "" joined.1, .workspacePeers (peerCount joined.2 w)] ++
      (match fails, refreshed session s.snapshot with
        | false, .ok snapshot => [.projectChanged snapshot.files joined.1]
        | _, _ => []), joined.2)

def detach (s : State) : Collab.State :=
  match session.workspaceId with
  | none => s.collab
  | some w => leave s.collab w session.id

def enabled (s : State) : Action → Prop
  | .operate _ | .look .. => True
  | .handle _ => s.inbox ≠ []
  | .deliver => s.outbox ≠ []
  | .cut _ => s.online = true
  | .connectFails => s.online = false
  | .open _ => s.online = false ∧ s.inbox = []

def stepOperate (s : State) (op : Operation) : State :=
  match intent session s.client op with
  | none => s
  | some i =>
    let m := i.message (s.client.version + 1)
    let sent := sendWhile s.client s.online i
    { s with
      client := sent.2
      inbox := s.inbox ++ sent.1.toList
      stale := (editOf m).staleAfter s.stale
      reset := if isReset m then .sent else s.reset }

def stepDeliver (s : State) : State :=
  match s.outbox with
  | [] => s
  | event :: events =>
    let heard := match event with
      | .projectFiles version _ => decide (version = s.client.version)
      | _ => false
    { s with
      client := s.client.onMessage event
      outbox := events
      reset := if heard && s.reset = .answered then .settled else s.reset }

def stepCut (s : State) (kept : ℕ) : State :=
  let lost := s.inbox.drop kept
  { s with
    online := false
    retry := s.retry + 1
    inbox := s.inbox.take kept
    outbox := []
    collab := detach session s
    stale := lost.filterMap updatedPath
    reset := if lost.any isReset then .settled else s.reset }

def stepOpen (s : State) (fails : Bool) : State :=
  let sent := flush session initialSource s
  let attached := attach session s fails
  { s with
    client := sent.2
    retry := 0
    online := true
    inbox := sent.1
    outbox := attached.1
    collab := attached.2
    stale := [] }

def next (s : State) : Action → State
  | .operate op => stepOperate session s op
  | .look path focused =>
    { s with client := { s.client with activePath := path, focused := focused } }
  | .handle fails =>
    match s.inbox with
    | [] => s
    | m :: rest => handleMessage session texts { s with inbox := rest } m fails
  | .deliver => stepDeliver s
  | .cut kept => stepCut session s kept
  | .connectFails => { s with retry := s.retry + 1 }
  | .open fails => stepOpen session initialSource s fails

def machine : Machine State Action := ⟨enabled, next session texts initialSource⟩

instance : DecidableRel (machine session texts initialSource).enabled := fun s a => by
  cases a <;> simp only [machine, enabled] <;> infer_instance

/-! ## What may go wrong -/

/-- The server does what the message asks. -/
def Takes (s : State) (m : RuntimeClientMessage) (fails : Bool) : Prop :=
  (validate m).isOk = true ∧ (checkBase session s m).isOk = true ∧
    (perform session texts s.snapshot m).isOk = true ∧ fails = false

instance (s : State) (m : RuntimeClientMessage) (fails : Bool) :
    Decidable (Takes session texts s m fails) := by
  unfold Takes
  infer_instance

/-- What the `open` handler sends besides the queue. -/
def pushed (s : State) : List RuntimeClientMessage :=
  (flush session initialSource s).1.drop s.client.socket.pending.length

/-- The user lets a reset be answered first, no message is dropped for its size or because the
queue is full, and the server takes every message. A socket that dies loses only updates and
resets, and an update is made up for before the socket is open again or by its `open` handler. -/
def Smooth (s : State) : Action → Prop
  | .operate op => ∀ i ∈ intent session s.client op,
    s.reset = .settled ∧ oversized (i.message (s.client.version + 1)) = false ∧
      (s.online = true ∨
        (s.client.socket.coalesce (i.message (s.client.version + 1))).pending.length < queueLimit)
  | .handle fails => ∀ m ∈ s.inbox.head?, Takes session texts s m fails
  | .cut kept => s.reset ≠ .answered ∧ (∀ m ∈ s.inbox.take kept, isReset m = false) ∧
    ∀ m ∈ s.inbox.drop kept, (updatedPath m).isSome = true ∨ isReset m = true
  | .open _ =>
    ((pushed session initialSource s).map editOf).foldl KeyedEdit.staleAfter s.stale = [] ∧
      (s.reset = .sent → pushes session initialSource s = false)
  | _ => True

instance : DecidableRel (Smooth session texts initialSource) := fun s a => by
  cases a <;> simp only [Smooth] <;> infer_instance

end

/-- The text at a path. -/
def contentOf (files : List ProjectFile) (path : String) : Option String :=
  (files.find? fun f => f.path = path).map ProjectFile.source

/-- The replay is handled and nothing is in flight: the server has what is on screen. -/
def Converged (s : State) : Prop :=
  s.online = true → s.inbox = [] → s.outbox = [] →
    contentOf s.snapshot.files = contentOf s.client.files

end Atomis.Reconnect
