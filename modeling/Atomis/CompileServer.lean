import Atomis.Lib.Machine
import Atomis.ZigErrorBundle
import Atomis.ZonManifest

/-!
# The Zig compile servers

`languages/zig/compile_server.rs`: a slot for each session and kind, locked by one call at
a time, and the servers that ever stood in one. A compiler answers an update with messages
of which the last is an error bundle. `requests`, `builds` and `asked` are history: who
asked a server to update, what it sent for each request, and how often the generated
sources had been written when it read them and when the call was made.
-/

namespace Atomis.CompileServer
open ZigErrorBundle

inductive Kind
  | program
  | tests
deriving DecidableEq

def Kind.name : Kind → List Char
  | .program => "atomis-session".toList
  | .tests => "atomis-tests".toList

/-- `slot_key`. -/
abbrev SlotKey := String × Kind

/-! ## The answer to an update -/

structure Message where
  tag : ℕ
  body : List UInt8
deriving DecidableEq

def serverErrorBundle : ℕ := 1

def serverEmitDigest : ℕ := 2

inductive BuildAnswer
  | built (digest : List Char)
  | failed (errors : List Char)
deriving DecidableEq

/-- `{byte:02x}`. -/
def hexByte (byte : UInt8) : List Char :=
  [Nat.digitChar (byte.toNat / 16), Nat.digitChar (byte.toNat % 16)]

/-- What the loop of `request_update` knows: the last digest, or the answer. -/
abbrev Progress := Option (List Char) ⊕ Except String BuildAnswer

/-- One turn of the loop of `request_update`. -/
def readStep (digest : Option (List Char)) (m : Message) : Progress :=
  if m.tag = serverEmitDigest then
    .inl (if m.body.length = 17 then some (m.body.tail.flatMap hexByte) else digest)
  else if m.tag = serverErrorBundle then
    .inr (do
      let errors ← renderErrorBundle m.body
      match errors.isEmpty, digest with
      | true, some digest => .ok (.built digest)
      | true, none => .error "build finished without an executable"
      | false, _ => .ok (.failed errors))
  else .inl digest

def requestUpdate (digest : Option (List Char)) : List Message → Progress
  | [] => .inl digest
  | m :: rest =>
    match readStep digest m with
    | .inl digest => requestUpdate digest rest
    | .inr answer => .inr answer

inductive Update
  | built (executable : List (List Char))
  | failed (errors : List Char)
deriving DecidableEq

/-- `wants_libc`. -/
def wantsLibc (errors : List Char) : Bool :=
  ZonManifest.contains "dependency on libc must be explicitly specified".toList errors ||
    ZonManifest.contains "requires libc".toList errors

/-- What `update_inner` makes of an answer; `none` is the classic build. -/
def outcome (kind : Kind) : BuildAnswer → Option Update
  | .built digest => some (.built [".zig-cache/o".toList, digest, kind.name])
  | .failed errors => if wantsLibc errors then none else some (.failed errors)

theorem requestUpdate_append (digest : Option (List Char)) (front back : List Message) :
    requestUpdate digest (front ++ back) =
      Sum.elim (requestUpdate · back) .inr (requestUpdate digest front) := by
  induction front generalizing digest with
  | nil => rfl
  | cons m front ih =>
    rw [List.cons_append, requestUpdate, requestUpdate]
    cases readStep digest m with
    | inl digest => exact ih digest
    | inr answer => rfl

theorem readStep_isLeft (digest : Option (List Char)) (m : Message) :
    (readStep digest m).isLeft = true ↔ m.tag ≠ serverErrorBundle := by
  unfold readStep
  by_cases hdigest : m.tag = serverEmitDigest
  · simp [hdigest, serverEmitDigest, serverErrorBundle]
  · by_cases hbundle : m.tag = serverErrorBundle
    · simp [hbundle, serverEmitDigest, serverErrorBundle]
    · simp [hdigest, hbundle]

/-- No error bundle among the messages: the build is under way. -/
def UnderWay (messages : List Message) : Prop := ∀ m ∈ messages, m.tag ≠ serverErrorBundle

/-- The error bundle is the last message. -/
def Whole (messages : List Message) : Prop :=
  ∃ front last, messages = front ++ [last] ∧ last.tag = serverErrorBundle ∧ UnderWay front

theorem UnderWay.of_append {front back : List Message} (h : UnderWay (front ++ back)) :
    UnderWay back :=
  fun m hm => h m (List.mem_append_right _ hm)

/-- Behind the error bundle of a build there is nothing. -/
theorem Whole.behind_bundle {read rest : List Message} {m : Message}
    (h : Whole (read ++ m :: rest)) (hm : m.tag = serverErrorBundle) : rest = [] := by
  obtain ⟨front, last, heq, -, hfront⟩ := h
  cases rest using List.reverseRecOn with
  | nil => rfl
  | append_singleton rest b =>
    have hsplit : read ++ m :: rest = front := by
      have heq' : (read ++ m :: rest) ++ [b] = front ++ [last] := by simpa using heq
      exact List.append_inj_left' heq' rfl
    exact absurd hm (hfront m (by simp [← hsplit]))

/-! ## The machine -/

structure Build where
  sources : ℕ
  messages : List Message

structure Server (κ γ : Type) where
  key : SlotKey
  confinement : γ
  requests : List κ
  builds : List Build
  current : Option Build
  unread : List Message
  stopped : Bool

inductive Call
  | idle
  | waiting (slot : ℕ)
  | reading (slot server : ℕ) (digest : Option (List Char))
  | answered (server : ℕ) (update : Update)
  | unserved

/-- The call has a clone of this slot. -/
def Call.Uses (i : ℕ) : Call → Prop
  | .waiting j | .reading j .. => j = i
  | _ => False

structure State (κ γ : Type) where
  servers : SlotKey → Option ℕ
  slots : ℕ
  owner : ℕ → SlotKey
  inSlot : ℕ → Option ℕ
  holder : ℕ → Option κ
  made : ℕ
  server : ℕ → Server κ γ
  call : κ → Call
  asked : κ → ℕ
  forgetting : List ℕ
  needsLibc : List String
  written : ℕ

/-- What each call is for, and the sandbox its session has. -/
structure Calls (κ γ : Type) where
  key : κ → SlotKey
  confinement : κ → γ

variable {κ γ : Type}

def Server.spawn (key : SlotKey) (confinement : γ) : Server κ γ :=
  ⟨key, confinement, [], [], none, [], false⟩

def init [Inhabited γ] : State κ γ where
  servers _ := none
  slots := 0
  owner _ := ("", .program)
  inSlot _ := none
  holder _ := none
  made := 0
  server _ := { Server.spawn ("", .program) default with stopped := true }
  call _ := .idle
  asked _ := 0
  forgetting := []
  needsLibc := []
  written := 0

/-- `start` and the two after it are the compiler's: it takes a request, sends a message,
and sends the error bundle that ends the build. -/
inductive Action (κ : Type)
  | enter (k : κ)
  | acquire (k : κ) (slot : ℕ) (spawns : Bool)
  | receive (k : κ) (slot server : ℕ) (digest : Option (List Char)) (m : Message)
  | giveUp (k : κ) (slot server : ℕ) (digest : Option (List Char))
  | forget (key : SlotKey)
  | forgetSlot (slot : ℕ)
  | forgetLibc (session : String)
  | reapIdle (slot : ℕ)
  | dropSlot (slot : ℕ)
  | start (w : ℕ)
  | emit (w : ℕ) (m : Message)
  | finish (w : ℕ) (m : Message)
  | exit (w : ℕ)
  | write

section Machine
variable [DecidableEq κ] [DecidableEq γ] (calls : Calls κ γ)

def State.setCall (s : State κ γ) (k : κ) (x : Call) : State κ γ :=
  { s with call := Function.update s.call k x }

def State.setServer (s : State κ γ) (w : ℕ) (x : Server κ γ) : State κ γ :=
  { s with server := Function.update s.server w x }

/-- `slot.take()` and `shut_down`. -/
def State.shutDown (s : State κ γ) (i : ℕ) : State κ γ :=
  match s.inSlot i with
  | some w =>
    { s.setServer w { s.server w with stopped := true } with
      inSlot := Function.update s.inSlot i none }
  | none => s

/-- `servers.entry(slot_key).or_default()`. -/
def State.entry (s : State κ γ) (k : κ) : State κ γ :=
  match s.servers (calls.key k) with
  | some i => { s.setCall k (.waiting i) with asked := Function.update s.asked k s.written }
  | none =>
    { s.setCall k (.waiting s.slots) with
      servers := Function.update s.servers (calls.key k) (some s.slots)
      owner := Function.update s.owner s.slots (calls.key k)
      slots := s.slots + 1
      asked := Function.update s.asked k s.written }

/-- The head of `request_update`. -/
def State.request (s : State κ γ) (k : κ) (i w : ℕ) : State κ γ :=
  { (s.setServer w { s.server w with requests := (s.server w).requests ++ [k] }).setCall k
      (.reading i w none) with
    holder := Function.update s.holder i (some k) }

def State.spawn (s : State κ γ) (i : ℕ) (x : Server κ γ) : State κ γ :=
  { s.setServer s.made x with inSlot := Function.update s.inSlot i (some s.made), made := s.made + 1 }

/-- The server in the slot, unless it was confined otherwise. -/
def State.kept (s : State κ γ) (k : κ) (i : ℕ) : Option ℕ :=
  (s.inSlot i).filter fun w => (s.server w).confinement = calls.confinement k

def State.acquire (s : State κ γ) (k : κ) (i : ℕ) (spawns : Bool) : State κ γ :=
  match s.kept calls k i with
  | some w => s.request k i w
  | none =>
    let t := s.shutDown i
    if spawns then (t.spawn i (.spawn (calls.key k) (calls.confinement k))).request k i t.made
    else t.setCall k .unserved

def State.release (s : State κ γ) (k : κ) (i : ℕ) (x : Call) : State κ γ :=
  { s.setCall k x with holder := Function.update s.holder i none }

/-- `update_inner` with the answer to its request. -/
def State.answer (s : State κ γ) (k : κ) (i w : ℕ) : Except String BuildAnswer → State κ γ
  | .ok answer =>
    match outcome (calls.key k).2 answer with
    | some update => s.release k i (.answered w update)
    | none =>
      { (s.shutDown i).release k i .unserved with needsLibc := (calls.key k).1 :: s.needsLibc }
  | .error _ => (s.shutDown i).release k i .unserved

def State.receive (s : State κ γ) (k : κ) (i w : ℕ) (digest : Option (List Char)) (m : Message) :
    State κ γ :=
  let t := s.setServer w { s.server w with unread := (s.server w).unread.tail }
  match readStep digest m with
  | .inl digest => t.setCall k (.reading i w digest)
  | .inr answer => t.answer calls k i w answer

def Server.start (x : Server κ γ) (sources : ℕ) : Server κ γ := { x with current := some ⟨sources, []⟩ }

def Server.emit (x : Server κ γ) (m : Message) : Server κ γ :=
  { x with
    current := x.current.map fun b => { b with messages := b.messages ++ [m] }
    unread := x.unread ++ [m] }

def Server.finish (x : Server κ γ) (m : Message) : Server κ γ :=
  { x with
    builds := x.builds ++ x.current.toList.map fun b => { b with messages := b.messages ++ [m] }
    current := none
    unread := x.unread ++ [m] }

/-- `giveUp` is a cancellation, the timeout or an error of the stream, `dropSlot` what
happens to a slot nobody has a clone of. -/
def enabled (s : State κ γ) : Action κ → Prop
  | .enter k => s.call k = .idle
  | .acquire k i _ => s.call k = .waiting i ∧ s.holder i = none
  | .receive k i w digest m =>
    s.call k = .reading i w digest ∧ (s.server w).unread.head? = some m
  | .giveUp k i w digest => s.call k = .reading i w digest
  | .forget _ | .forgetLibc _ | .write => True
  | .forgetSlot i => i ∈ s.forgetting ∧ s.holder i = none
  | .reapIdle i => s.holder i = none
  | .dropSlot i => (∀ key, s.servers key ≠ some i) ∧ (∀ k, ¬ (s.call k).Uses i) ∧ i ∉ s.forgetting
  | .start w =>
    (s.server w).stopped = false ∧ (s.server w).current = none ∧
      (s.server w).builds.length < (s.server w).requests.length
  | .emit w m =>
    (s.server w).stopped = false ∧ (s.server w).current ≠ none ∧ m.tag ≠ serverErrorBundle
  | .finish w m =>
    (s.server w).stopped = false ∧ (s.server w).current ≠ none ∧ m.tag = serverErrorBundle
  | .exit _ => True

def next (s : State κ γ) : Action κ → State κ γ
  | .enter k => s.entry calls k
  | .acquire k i spawns => s.acquire calls k i spawns
  | .receive k i w digest m => s.receive calls k i w digest m
  | .giveUp k i _ _ => (s.shutDown i).release k i .unserved
  | .forget key =>
    { s with
      servers := Function.update s.servers key none
      forgetting := (s.servers key).toList ++ s.forgetting }
  | .forgetSlot i => { s.shutDown i with forgetting := s.forgetting.erase i }
  | .forgetLibc session => { s with needsLibc := s.needsLibc.filter (· ≠ session) }
  | .reapIdle i | .dropSlot i => s.shutDown i
  | .start w => s.setServer w ((s.server w).start s.written)
  | .emit w m => s.setServer w ((s.server w).emit m)
  | .finish w m => s.setServer w ((s.server w).finish m)
  | .exit w => s.setServer w { s.server w with stopped := true }
  | .write => { s with written := s.written + 1 }

def machine : Machine (State κ γ) (Action κ) := ⟨enabled, next calls⟩

end Machine

end Atomis.CompileServer
