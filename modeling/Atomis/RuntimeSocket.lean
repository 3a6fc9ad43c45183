import Atomis.Protocol

/-!
# The client's runtime socket

`useRuntimeSocket.ts`: what the client sends, what it queues while the socket is
away, and what it keeps until the server says `document.saved`. A JavaScript map
is the list of its entries in insertion order.
-/

namespace Atomis.RuntimeSocket
open Protocol

def queueLimit : ℕ := 256

/-- The messages worth keeping while the socket is away. -/
def queueable : RuntimeClientMessage → Bool
  | .documentUpdate .. | .fileCreate .. | .fileRename .. | .fileDelete .. | .workspaceReset .. =>
    true
  | _ => false

def versionOf : RuntimeClientMessage → Option ℕ
  | .documentUpdate version .. | .fileCreate version .. | .fileRename version ..
  | .fileDelete version .. | .workspaceReset version .. | .runRequest version .. => some version
  | _ => none

def baseRevision : RuntimeClientMessage → Option ℕ
  | .documentUpdate _ _ _ base | .fileCreate _ _ _ base | .fileRename _ _ _ base
  | .fileDelete _ _ base | .workspaceReset _ _ base => base
  | _ => none

/-- `path` and `newPath`, where a message has them. -/
def pathsOf : RuntimeClientMessage → List String
  | .documentUpdate _ path _ _ | .fileCreate _ path _ _ | .fileDelete _ path _ => [path]
  | .fileRename _ path newPath _ => [path, newPath]
  | _ => []

/-- The path of a `document.update`. -/
def updatedPath : RuntimeClientMessage → Option String
  | .documentUpdate _ path _ _ => some path
  | _ => none

/-- Puts the revision a message is built on into it, unless it has one. -/
def withBase (revision : Option ℕ) : RuntimeClientMessage → RuntimeClientMessage
  | .documentUpdate version path source base =>
    .documentUpdate version path source (base <|> revision)
  | .fileCreate version path source base => .fileCreate version path source (base <|> revision)
  | .fileRename version path newPath base => .fileRename version path newPath (base <|> revision)
  | .fileDelete version path base => .fileDelete version path (base <|> revision)
  | .workspaceReset version scaffold base => .workspaceReset version scaffold (base <|> revision)
  | m => m

abbrev Unacknowledged := List (ℕ × RuntimeClientMessage)

def Unacknowledged.get (u : Unacknowledged) (version : ℕ) : Option RuntimeClientMessage :=
  (u.find? fun entry => entry.1 = version).map Prod.snd

def Unacknowledged.set (u : Unacknowledged) (version : ℕ) (m : RuntimeClientMessage) :
    Unacknowledged :=
  if u.any fun entry => entry.1 = version then
    u.map fun entry => if entry.1 = version then (version, m) else entry
  else u ++ [(version, m)]

def Unacknowledged.delete (u : Unacknowledged) (version : ℕ) : Unacknowledged :=
  u.filter fun entry => entry.1 ≠ version

structure Socket where
  pending : List RuntimeClientMessage
  unacknowledged : Unacknowledged

def Socket.empty : Socket := ⟨[], []⟩

/-- Takes the last queued update of `path` out of the updates that end the
queue, which is given last message first. -/
def takeQueued (path : String) :
    List RuntimeClientMessage → Option RuntimeClientMessage × List RuntimeClientMessage
  | [] => (none, [])
  | queued :: rest =>
    match updatedPath queued with
    | none => (none, queued :: rest)
    | some p =>
      if p = path then (some queued, rest)
      else ((takeQueued path rest).1, queued :: (takeQueued path rest).2)

/-- Leaves out the queued update that a new one replaces. -/
def Socket.coalesce (s : Socket) (m : RuntimeClientMessage) : Socket :=
  match updatedPath m with
  | none => s
  | some path =>
    let taken := takeQueued path s.pending.reverse
    { pending := taken.2.reverse
      unacknowledged := match taken.1.bind versionOf with
        | none => s.unacknowledged
        | some version => s.unacknowledged.delete version }

def Socket.enqueue (s : Socket) (m : RuntimeClientMessage) : Socket :=
  let s := s.coalesce m
  { s with pending := (if s.pending.length ≥ queueLimit then s.pending.tail else s.pending) ++ [m] }

def Socket.remember (s : Socket) (m : RuntimeClientMessage) : Socket :=
  match versionOf m with
  | some version => if queueable m then { s with unacknowledged := s.unacknowledged.set version m }
      else s
  | none => s

/-- A source the server would close the socket over. -/
def oversized : RuntimeClientMessage → Bool
  | .documentUpdate _ _ source _ => maxSourceBytes < source.utf8ByteSize
  | _ => false

/-- What goes out on the socket, and what the client keeps. -/
def Socket.sendRuntime (s : Socket) (revision : Option ℕ) (isOpen : Bool)
    (m : RuntimeClientMessage) : Option RuntimeClientMessage × Socket :=
  let m := withBase revision m
  let s := s.remember m
  if oversized m then (none, s)
  else if isOpen then (some m, s)
  else if queueable m then (none, s.enqueue m)
  else (none, s)

/-- `document.saved`: an accepted update also settles the earlier ones of its path. -/
def Socket.saved (s : Socket) (version : ℕ) : Socket :=
  let accepted := (s.unacknowledged.get version).bind updatedPath
  { s with unacknowledged := s.unacknowledged.filter fun entry =>
      !(entry.1 = version || (entry.1 < version && accepted.isSome &&
        updatedPath entry.2 = accepted)) }

/-- The paths of everything not yet saved. -/
def Socket.dirty (s : Socket) (path : String) : Bool :=
  s.unacknowledged.any fun entry => (pathsOf entry.2).contains path

/-- A catalog from the server, with the local files kept where work is unsaved. -/
def Socket.keepLocal (s : Socket) (mirror files : List ProjectFile) : List ProjectFile :=
  if s.unacknowledged.isEmpty then files
  else (files.filter fun f => !s.dirty f.path) ++ mirror.filter fun f => s.dirty f.path

end Atomis.RuntimeSocket
