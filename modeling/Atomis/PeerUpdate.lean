import Atomis.Collab
import Atomis.Lib.Machine
import Atomis.RuntimeSocket
import Atomis.Store

/-!
# Sessions editing one workspace

Every session that shares a workspace as one system: the client (`App.tsx`,
`useProjectFiles.ts`, `useRuntimeEvents.ts`), its socket, the server's handler,
its outbox and the forwarder of the changes of its peers (`ws/runtime.rs`). A
handler holds the edit lock from the check of the base to the acknowledgement,
so what it does is one step; a forwarder takes a change off the channel in one
step and re-reads the files under the lock in another. Sessions open and attach
at any time, and a socket that is attached stays open.
-/

namespace Atomis.PeerUpdate
open Protocol RuntimeSocket Collab

structure RemoteEdit where
  path : String
  source : String
  revision : ℕ
deriving DecidableEq

/-- `loaded`, `builtOn` and `applied` are history: whether a catalog has come,
the revision the mirror's state of a path was last taken from, and the highest
one it was ever taken from. -/
structure Client where
  files : List ProjectFile
  socket : Socket
  version : ℕ
  revisionRef : Option ℕ
  remoteEdit : Option RemoteEdit
  conflict : Option String
  activePath : String
  focused : Bool
  loaded : Bool
  builtOn : String → ℕ
  applied : String → ℕ

namespace Client

/-- A session as `adoptSession` leaves it, with the files read at `revision`. -/
def opened (files : List ProjectFile) (entry : String) (revision : ℕ) : Client where
  files := files
  socket := .empty
  version := 1
  revisionRef := none
  remoteEdit := none
  conflict := none
  activePath := entry
  focused := false
  loaded := false
  builtOn := fun _ => revision
  applied := fun _ => revision

def has (c : Client) (path : String) : Bool := c.files.any fun f => f.path = path

def replace (c : Client) (path source : String) : List ProjectFile :=
  c.files.map fun f => if f.path = path then { f with source := source } else f

/-- The mirror takes the state of the paths in `p` from the server's at `revision`. -/
def take (c : Client) (p : String → Bool) (revision : ℕ) : Client :=
  { c with
    builtOn := fun path => if p path then revision else c.builtOn path
    applied := fun path => if p path then max (c.applied path) revision else c.applied path }

def handleRuntimeEvent (c : Client) : ServerEvent → Client
  | .projectChanged files revision =>
    if revision < c.revisionRef.getD 0 then c
    else { c.take (fun path => !c.socket.dirty path) revision with
      revisionRef := some revision
      files := files
      loaded := true }
  | .documentChanged path source revision =>
    if revision < c.revisionRef.getD 0 then c
    else if path = "" then { c with revisionRef := some revision, conflict := none }
    else { c with revisionRef := some revision, remoteEdit := some ⟨path, source, revision⟩ }
  | .documentConflict path revision =>
    { c with revisionRef := some revision, conflict := some path }
  | .projectFiles version files => if c.version = version then { c with files := files } else c
  | _ => c

/-- The socket's own handler, in front of `handleRuntimeEvent`. -/
def onMessage (c : Client) : ServerEvent → Client
  | .documentSaved version => { c with socket := c.socket.saved version }
  | .projectChanged files revision =>
    c.handleRuntimeEvent (.projectChanged (c.socket.keepLocal c.files files) revision)
  | event => c.handleRuntimeEvent event

/-- The caret is in the very file. -/
def editing (c : Client) (path : String) : Bool := c.activePath = path && c.focused

/-- The shell's effect on `remoteEdit`. -/
def applyRemoteEdit (c : Client) : Client :=
  match c.remoteEdit with
  | none => c
  | some edit =>
    if c.editing edit.path then { c with remoteEdit := none, conflict := some edit.path }
    else { c.take (fun path => c.has edit.path && path = edit.path) edit.revision with
      remoteEdit := none
      files := c.replace edit.path edit.source }

/-- An operation of the user: the mirror moves at once, and a message goes out. -/
def send (c : Client) (files : List ProjectFile) (m : ℕ → RuntimeClientMessage) :
    Option RuntimeClientMessage × Client :=
  let version := c.version + 1
  let sent := c.socket.sendRuntime c.revisionRef true (m version)
  (sent.1, { c with version := version, files := files, socket := sent.2 })

def onChange (c : Client) (source : String) : Option RuntimeClientMessage × Client :=
  match c.files.find? fun f => f.path = c.activePath with
  | none => (none, c)
  | some current =>
    if source = current.source then (none, c)
    else c.send (c.replace c.activePath source) fun version =>
      .documentUpdate version c.activePath source c.revisionRef

def isValidProjectPath (path : String) : Bool :=
  projectPathOk path && !path.toList.contains '#' && !path.toList.contains '?'

def createFileNamed (c : Client) (file : ProjectFile) : Option RuntimeClientMessage × Client :=
  if !isValidProjectPath file.path || c.has file.path || c.files.length ≥ maxProjectFiles then
    (none, c)
  else c.send ((c.files ++ [file]).insertionSort Session.before) fun version =>
    .fileCreate version file.path file.source none

def renameFileTo (c : Client) (entry : String) (path : String) (file : ProjectFile) :
    Option RuntimeClientMessage × Client :=
  if path = entry || file.path = "" || file.path = path || !isValidProjectPath file.path ||
      c.has file.path || !c.has path then (none, c)
  else
    c.send (c.files.map fun f => if f.path = path then { file with source := f.source } else f)
      fun version => .fileRename version path file.path none

def removeFile (c : Client) (entry : String) (path : String) :
    Option RuntimeClientMessage × Client :=
  if path = entry || !c.has path then (none, c)
  else c.send (c.files.filter fun f => f.path ≠ path) fun version => .fileDelete version path none

def resetWorkspace (c : Client) (scaffold : WorkspaceScaffold) :
    Option RuntimeClientMessage × Client :=
  c.send c.files fun version => .workspaceReset version scaffold none

end Client

inductive Operation
  | change (source : String)
  | create (path : String)
  | rename (path newPath : String)
  | remove (path : String)
  | reset (scaffold : WorkspaceScaffold)

def Operation.run (session : Session) (c : Client) :
    Operation → Option RuntimeClientMessage × Client
  | .change source => c.onChange source
  | .create path => c.createFileNamed (session.projectFile path "")
  | .rename path newPath => c.renameFileTo session.entryPath path (session.projectFile newPath "")
  | .remove path => c.removeFile session.entryPath path
  | .reset scaffold => c.resetWorkspace scaffold

/-- A message on the socket, with what the mirror's state of each path was built on. -/
structure Sent where
  message : RuntimeClientMessage
  builtOn : String → ℕ

inductive Phase
  | absent
  | opened
  | subscribed
  | attached
deriving DecidableEq

/-- `log` is history: who made each accepted change, in order. Its entry `n` made
revision `n + 1`. -/
structure State where
  collab : Collab.State
  files : List ProjectFile
  phase : String → Phase
  snapshot : String → Snapshot
  client : String → Client
  inbox : String → List Sent
  outbox : String → List ServerEvent
  cursor : String → ℕ
  waiting : String → Bool
  log : List (String × RuntimeClientMessage)

inductive Action
  | openSession (id : String)
  | subscribe (id : String)
  | attach (id : String) (fails : Bool)
  | receive (id : String)
  | lag (id : String)
  | refresh (id : String) (fails : Bool)
  | deliver (id : String)
  | effect (id : String)
  | look (id path : String) (focused : Bool)
  | operate (id : String) (op : Operation)
  | handle (id : String) (fails : Bool)
  | elsewhere (change : WorkspaceChange)

def workspaceOf : WorkspaceChange → String
  | .files workspace _ | .peers workspace _ | .document workspace _ _ _ _ => workspace

/-- The paths an operation changes. -/
def touches : RuntimeClientMessage → String → Bool
  | .documentUpdate _ path _ _, p | .fileCreate _ path _ _, p | .fileDelete _ path _, p =>
    path = p
  | .fileRename _ path newPath _, p => path = p || newPath = p
  | .workspaceReset .., _ => true
  | _, _ => false

section
variable (sessions : String → Session) (texts : String → String) (w : String)

def init (files : List ProjectFile) : State where
  collab := Collab.new
  files := files
  phase := fun _ => .absent
  snapshot := fun _ => ⟨0, "", "", []⟩
  client := fun _ => .opened [] "" 0
  inbox := fun _ => []
  outbox := fun _ => []
  cursor := fun _ => 0
  waiting := fun _ => false
  log := []

def State.setClient (s : State) (id : String) (c : Client) : State :=
  { s with client := Function.update s.client id c }

def State.send (s : State) (id : String) (events : List ServerEvent) : State :=
  { s with outbox := Function.update s.outbox id (s.outbox id ++ events) }

/-- `refresh_files`: the files on disk, under the version of the session's snapshot. -/
def refreshFiles (id : String) (s : State) : Except String Snapshot :=
  (sessions id).commit (s.snapshot id).version s.files

/-- `handle_message_inner`, for the operations of the store. -/
def handleMessageInner (session : Session) (snapshot : Snapshot) :
    RuntimeClientMessage → Except String Snapshot
  | .documentUpdate version path source _ => do
    session.commit version (← session.updateFiles snapshot version path source)
  | .fileCreate version path source _ => do
    session.commit version (← session.createFiles snapshot version path source)
  | .fileRename version path newPath _ => do
    session.commit version (← session.renameFiles snapshot version path newPath)
  | .fileDelete version path _ => do
    session.commit version (← session.deleteFiles snapshot version path)
  | .workspaceReset version scaffold _ => do
    session.commit version (← session.resetFilesList texts snapshot version scaffold)
  | _ => .error ""

def perform (id : String) (s : State) (m : RuntimeClientMessage) : Except String Snapshot := do
  handleMessageInner texts (sessions id) (← refreshFiles sessions id s) m

def record (c : Collab.State) (id : String) (m : RuntimeClientMessage) :
    Except Conflict ℕ × Collab.State :=
  match m with
  | .documentUpdate _ path source base => recordEdit c w id path source base
  | _ => recordFiles c w id (baseRevision m)

/-- What the sender of a file operation is told of the files. -/
def catalogFor (snapshot : Snapshot) : RuntimeClientMessage → List ServerEvent
  | .documentUpdate .. => []
  | _ => [.projectFiles snapshot.version snapshot.files]

/-- The path of a refusal: a reset has none. -/
def pathOf (m : RuntimeClientMessage) : String := (pathsOf m).headD ""

/-- The store took the message: it is recorded, broadcast and acknowledged. -/
def accept (s : State) (id : String) (m : RuntimeClientMessage) (snapshot : Snapshot) : State :=
  match record w s.collab id m with
  | (.ok revision, collab) =>
    State.send { s with
      collab := collab
      files := snapshot.files
      snapshot := Function.update s.snapshot id snapshot
      log := s.log ++ [(id, m)] } id
      (catalogFor snapshot m ++
        [.documentChanged "" "" revision, .documentSaved ((versionOf m).getD 0)])
  | (.error _, collab) =>
    State.send { s with
      collab := collab
      files := snapshot.files
      snapshot := Function.update s.snapshot id snapshot } id
      (catalogFor snapshot m ++ [.serverError true "Workspace revision changed while locked" none])

/-- The message loop's `validate`, then `handle_message`; `fails` is a failing disk. -/
def handleMessage (s : State) (id : String) (m : RuntimeClientMessage) (fails : Bool) : State :=
  match validate m with
  | .error details => s.send id [.serverError true "Invalid runtime message" (some details)]
  | .ok _ =>
    match checkWriterBase s.collab w id (baseRevision m) with
    | .error conflict => s.send id [.documentConflict (pathOf m) conflict.current]
    | .ok _ =>
      match perform sessions texts id s m with
      | .error error => s.send id [.serverError true error none]
      | .ok snapshot =>
        if fails then s.send id [.serverError true "" none] else accept w s id m snapshot

/-- What the forwarder of a session sends on at once. -/
def forward (id : String) : WorkspaceChange → List ServerEvent
  | .files _ _ => []
  | .peers workspace count => if workspace = w then [.workspacePeers count] else []
  | .document workspace origin path source revision =>
    if workspace = w ∧ origin ≠ id then [.documentChanged path source revision] else []

/-- Whether a change makes the forwarder read the files again. -/
def rereads (id : String) : WorkspaceChange → Bool
  | .files workspace origin => workspace = w && origin ≠ id
  | _ => false

/-- The files as a session's own `refresh_files` finds them, sent on under `revision`. -/
def catalog (id : String) (s : State) (fails : Bool) (revision : ℕ) : List ServerEvent :=
  match fails, refreshFiles sessions id s with
  | false, .ok snapshot => [.projectChanged snapshot.files revision]
  | _, _ => []

def behind (s : State) (id : String) : ℕ := s.collab.changes.length - s.cursor id

def enabled (s : State) : Action → Prop
  | .openSession id => s.phase id = .absent
  | .subscribe id => s.phase id = .opened
  | .attach id _ => s.phase id = .subscribed
  | .receive id => s.phase id = .attached ∧ s.waiting id = false ∧
      0 < behind s id ∧ behind s id ≤ backlog
  | .lag id => s.phase id = .attached ∧ s.waiting id = false ∧ backlog < behind s id
  | .refresh id _ => s.waiting id = true
  | .deliver id => s.outbox id ≠ []
  | .effect id => (s.client id).remoteEdit.isSome
  | .look id _ _ => s.phase id ≠ .absent
  | .operate id _ => s.phase id ≠ .absent
  | .handle id _ => s.phase id = .attached ∧ s.inbox id ≠ []
  | .elsewhere change => workspaceOf change ≠ w

def next (s : State) : Action → State
  | .openSession id =>
    { s with
      phase := Function.update s.phase id .opened
      snapshot := Function.update s.snapshot id ⟨1, "", "", s.files⟩
      client := Function.update s.client id
        (.opened s.files (sessions id).entryPath (revision s.collab w)) }
  | .subscribe id =>
    { s with
      phase := Function.update s.phase id .subscribed
      cursor := Function.update s.cursor id s.collab.changes.length }
  | .attach id fails =>
    let joined := join s.collab w id
    State.send { s with
      collab := joined.2
      phase := Function.update s.phase id .attached } id
      ([.documentChanged "" "" joined.1, .workspacePeers (peerCount joined.2 w)] ++
        catalog sessions id s fails joined.1)
  | .receive id =>
    match s.collab.changes[s.cursor id]? with
    | none => s
    | some change =>
      State.send { s with
        cursor := Function.update s.cursor id (s.cursor id + 1)
        waiting := Function.update s.waiting id (rereads w id change) } id
        (forward w id change)
  | .lag id =>
    { s with cursor := Function.update s.cursor id (s.collab.changes.length - backlog) }
  | .refresh id fails =>
    State.send { s with waiting := Function.update s.waiting id false } id
      (catalog sessions id s fails (revision s.collab w))
  | .deliver id =>
    match s.outbox id with
    | [] => s
    | event :: events =>
      State.setClient { s with outbox := Function.update s.outbox id events } id
        ((s.client id).onMessage event)
  | .effect id => s.setClient id (s.client id).applyRemoteEdit
  | .look id path focused =>
    s.setClient id { s.client id with activePath := path, focused := focused }
  | .operate id op =>
    match op.run (sessions id) (s.client id) with
    | (none, c) => s.setClient id c
    | (some m, c) =>
      let sent : Sent := ⟨m, (s.client id).builtOn⟩
      State.setClient { s with inbox := Function.update s.inbox id (s.inbox id ++ [sent]) } id c
  | .handle id fails =>
    match s.inbox id with
    | [] => s
    | sent :: rest =>
      handleMessage sessions texts w { s with inbox := Function.update s.inbox id rest } id
        sent.message fails
  | .elsewhere change => { s with collab := Collab.send s.collab change }

def machine : Machine State Action := ⟨enabled w, next sessions texts w⟩

instance : DecidableRel (machine sessions texts w).enabled := fun s a => by
  cases a <;> simp only [machine, enabled] <;> infer_instance

end

end Atomis.PeerUpdate
