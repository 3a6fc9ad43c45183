import Atomis.Lib.Lines
import Atomis.Lib.Machine
import Atomis.WorkerWire

/-!
# One worker slot and its callers

`instrument_inner` and `exchange` of `languages/instrument_worker.rs` on one slot of
`WORKERS`, with the workers it ever holds and the bytes in their pipes. A caller may be
dropped at every await point: waiting for the slot, between two writes and between two
reads of `read_line`, whose bytes are then lost. `issued` and `answered` are history: who
was given which id, and what the worker computed for which line.
-/

namespace Atomis.InstrumentWorker
open JsonScan

structure Worker (κ ρ τ γ : Type) where
  confinement : γ
  issued : List κ
  stdin : List UInt8
  unsent : List UInt8
  stdout : List UInt8
  exited : Bool
  answered : List (ℕ × ρ × Reply τ)

inductive Call (τ : Type)
  | idle
  | waiting
  | writing (worker id : ℕ) (left : List UInt8)
  | reading (worker id : ℕ) (line : List UInt8)
  | answered (worker id : ℕ) (answer : Answer τ)
  | failed (worker : ℕ)
  | unserved
  | dropped
deriving DecidableEq

structure State (κ ρ τ γ : Type) where
  slot : Option ℕ
  holder : Option κ
  made : ℕ
  worker : ℕ → Worker κ ρ τ γ
  call : κ → Call τ

/-- What each caller asks for, and the sandbox its session has. -/
structure Calls (κ ρ γ : Type) where
  request : κ → ρ
  confinement : κ → γ

variable {κ ρ τ γ : Type} (c : Codec ρ τ) (calls : Calls κ ρ γ)

def Worker.spawn (confinement : γ) : Worker κ ρ τ γ := ⟨confinement, [], [], [], [], false, []⟩

def init [Inhabited γ] : State κ ρ τ γ :=
  ⟨none, none, 0, fun _ => .spawn default, fun _ => .idle⟩

section Machine
variable [DecidableEq κ] [DecidableEq γ]

def State.setCall (s : State κ ρ τ γ) (k : κ) (x : Call τ) : State κ ρ τ γ :=
  { s with call := Function.update s.call k x }

def State.setWorker (s : State κ ρ τ γ) (w : ℕ) (x : Worker κ ρ τ γ) : State κ ρ τ γ :=
  { s with worker := Function.update s.worker w x }

/-- The head of `exchange`: the next id, and the line to write. -/
def State.begin (s : State κ ρ τ γ) (k : κ) (w : ℕ) : State κ ρ τ γ :=
  let id := (s.worker w).issued.length + 1
  { (s.setWorker w { s.worker w with issued := (s.worker w).issued ++ [k] }).setCall k
      (.writing w id (c.request (calls.request k) id ++ [10])) with
    slot := some w, holder := some k }

/-- The worker in the slot, unless it was confined otherwise. -/
def State.kept (s : State κ ρ τ γ) (k : κ) : Option ℕ :=
  s.slot.filter fun w => (s.worker w).confinement = calls.confinement k

def State.acquire (s : State κ ρ τ γ) (k : κ) (spawns : Bool) : State κ ρ τ γ :=
  match s.kept calls k with
  | some w => s.begin c calls k w
  | none =>
    if spawns then
      { s.setWorker s.made (.spawn (calls.confinement k)) with made := s.made + 1 }.begin
        c calls k s.made
    else { s.setCall k .unserved with slot := none }

/-- The worker is dropped, and killed with it. -/
def State.fail (s : State κ ρ τ γ) (k : κ) (w : ℕ) : State κ ρ τ γ :=
  { s.setCall k (.failed w) with slot := none, holder := none }

def State.finish (s : State κ ρ τ γ) (k : κ) (w id : ℕ) (line : List UInt8) : State κ ρ τ γ :=
  match c.judge id line with
  | some answer => { s.setCall k (.answered w id answer) with holder := none }
  | none => s.fail k w

/-- A line of something else than an answer: no part of it is taken for one. -/
def Harmless (line : List UInt8) : Prop :=
  10 ∉ line ∧ ∀ before part after, line ++ [10] = before ++ (part ++ after) →
    ∀ id, c.judge id part = none

/-- One line of the worker's loop, and the reply it comes to. -/
def Worker.take (x : Worker κ ρ τ γ) (line rest : List UInt8) (reply : Reply τ) :
    Worker κ ρ τ γ :=
  match c.decode line with
  | some (id, request) =>
    { x with
      stdin := rest
      unsent := x.unsent ++ (c.answer (some id) reply ++ [10])
      answered := x.answered ++ [(id, request, reply)] }
  | none => { x with stdin := rest, unsent := x.unsent ++ (c.answer none reply ++ [10]) }

inductive Action (κ τ : Type)
  | enter (k : κ)
  | acquire (k : κ) (spawns : Bool)
  | write (k : κ) (w id : ℕ) (chunk left : List UInt8)
  | read (k : κ) (w id : ℕ) (line chunk rest : List UInt8)
  | readEnd (k : κ) (w id : ℕ) (line : List UInt8)
  | giveUp (k : κ) (w id : ℕ)
  | drop (k : κ)
  | reapIdle
  | take (w : ℕ) (line rest : List UInt8) (reply : Reply τ)
  | noise (w : ℕ) (line : List UInt8)
  | send (w : ℕ) (chunk rest : List UInt8)
  | exit (w : ℕ)

/-- The call is in `exchange` on this worker, under this id. -/
def Call.On (w id : ℕ) : Call τ → Prop
  | .writing w' id' _ | .reading w' id' _ => w' = w ∧ id' = id
  | _ => False

/-- `giveUp` is the timeout, or an error of a write or a read. -/
def enabled (s : State κ ρ τ γ) : Action κ τ → Prop
  | .enter k => s.call k = .idle
  | .acquire k _ => s.call k = .waiting ∧ s.holder = none
  | .write k w id chunk left =>
    s.call k = .writing w id (chunk ++ left) ∧ chunk ≠ [] ∧ (s.worker w).exited = false
  | .read k w id line chunk rest =>
    s.call k = .reading w id line ∧ (s.worker w).stdout = chunk ++ rest ∧ chunk ≠ [] ∧
      10 ∉ chunk.dropLast
  | .readEnd k w id line =>
    s.call k = .reading w id line ∧ (s.worker w).stdout = [] ∧ (s.worker w).exited = true
  | .giveUp k w id => (s.call k).On w id
  | .drop k => s.call k = .waiting ∨ s.holder = some k
  | .reapIdle => s.holder = none
  | .take w line rest reply =>
    (s.worker w).exited = false ∧ Lines.first 10 (s.worker w).stdin = some (line, rest) ∧
      (c.decode line = none → reply.isOk = false)
  | .noise w line => (s.worker w).exited = false ∧ Harmless c line
  | .send w chunk rest => (s.worker w).exited = false ∧ (s.worker w).unsent = chunk ++ rest
  | .exit _ => True

def next (s : State κ ρ τ γ) : Action κ τ → State κ ρ τ γ
  | .enter k => s.setCall k .waiting
  | .acquire k spawns => s.acquire c calls k spawns
  | .write k w id chunk left =>
    (s.setWorker w { s.worker w with stdin := (s.worker w).stdin ++ chunk }).setCall k
      (if left = [] then .reading w id [] else .writing w id left)
  | .read k w id line chunk rest =>
    let t := s.setWorker w { s.worker w with stdout := rest }
    if chunk.getLast? = some 10 then t.finish c k w id (line ++ chunk)
    else t.setCall k (.reading w id (line ++ chunk))
  | .readEnd k w id line => if line = [] then s.fail k w else s.finish c k w id line
  | .giveUp k w _ => s.fail k w
  | .drop k => { s.setCall k .dropped with holder := if s.holder = some k then none else s.holder }
  | .reapIdle => { s with slot := none }
  | .take w line rest reply => s.setWorker w ((s.worker w).take c line rest reply)
  | .noise w line =>
    s.setWorker w { s.worker w with unsent := (s.worker w).unsent ++ (line ++ [10]) }
  | .send w chunk rest =>
    s.setWorker w { s.worker w with stdout := (s.worker w).stdout ++ chunk, unsent := rest }
  | .exit w => s.setWorker w { s.worker w with exited := true, unsent := [] }

def machine : Machine (State κ ρ τ γ) (Action κ τ) := ⟨enabled c, next c calls⟩

end Machine

/-! ## What is in the pipes -/

variable {c calls}

/-- A line the worker wrote. -/
def Emitted (c : Codec ρ τ) (x : Worker κ ρ τ γ) (line : List UInt8) : Prop :=
  (∃ id request reply, (id, request, reply) ∈ x.answered ∧ line = c.answer (some id) reply) ∨
    (∃ error, line = c.answer none (.error error)) ∨ Harmless c line

/-- `text` with what was read before it and what an exit cut off is lines the worker wrote. -/
def Stream (c : Codec ρ τ) (x : Worker κ ρ τ γ) (text : List UInt8) : Prop :=
  ∃ (front back : List UInt8) (lines : List (List UInt8)), (∀ line ∈ lines, Emitted c x line) ∧ (x.exited = false → back = []) ∧
    (lines.map (· ++ [10])).flatten = front ++ (text ++ back)

theorem part_of_lines {lines : List (List UInt8)} {front part back : List UInt8}
    (heq : (lines.map (· ++ [10])).flatten = front ++ (part ++ back)) (hpart : part ≠ [])
    (hline : 10 ∉ part.dropLast) :
    ∃ line ∈ lines, ∃ before after, line ++ [10] = before ++ (part ++ after) := by
  induction lines generalizing front with
  | nil => simp_all
  | cons line lines ih =>
    rw [List.map_cons, List.flatten_cons] at heq
    rcases List.append_eq_append_iff.mp heq with ⟨x, rfl, hx⟩ | ⟨x, hx, hrest⟩
    · obtain ⟨l, hl, hpart⟩ := ih hx
      exact ⟨l, by simp [hl], hpart⟩
    · rcases List.append_eq_append_iff.mp hrest with ⟨y, rfl, -⟩ | ⟨y, hy, hflat⟩
      · exact ⟨line, by simp, front, y, hx⟩
      · by_cases hy' : y = []
        · subst hy'
          exact ⟨line, by simp, front, [], by simpa [hy] using hx⟩
        · by_cases hx' : x = []
          · subst hx'
            obtain rfl : part = y := by simpa using hy
            have hflat' : (lines.map (· ++ [10])).flatten = [] ++ (part ++ back) := by
              simpa using hflat
            obtain ⟨l, hl, hmem⟩ := ih hflat'
            exact ⟨l, by simp [hl], hmem⟩
          · -- the newline of this line would be inside the part
            exfalso
            apply hline
            rw [hy, List.dropLast_append_of_ne_nil hy']
            have hlast := congrArg List.getLast? hx
            rw [List.getLast?_concat, List.getLast?_append_of_ne_nil _ hx'] at hlast
            exact List.mem_append_left _ (List.mem_of_getLast? hlast.symm)

theorem Stream.suffix {x : Worker κ ρ τ γ} {left right : List UInt8}
    (h : Stream c x (left ++ right)) : Stream c x right := by
  obtain ⟨front, back, lines, hlines, hback, heq⟩ := h
  exact ⟨front ++ left, back, lines, hlines, hback, by simpa using heq⟩

/-- The request a line of stdin carries. -/
def Genuine (c : Codec ρ τ) (calls : Calls κ ρ γ) (x : Worker κ ρ τ γ) (line : List UInt8) :
    Prop :=
  ∃ i k, x.issued[i]? = some k ∧ line = c.request (calls.request k) (i + 1)

/-- What dropped writers left at the end of stdin: nothing, or something no text can follow. -/
def Clean (text : List UInt8) : Prop := text = [] ∨ Broken text

def Worker.line (x : Worker κ ρ τ γ) : List UInt8 := (Lines.split 10 [] x.stdin).2

structure Worker.Inv (c : Codec ρ τ) (calls : Calls κ ρ γ) (x : Worker κ ρ τ γ) : Prop where
  lines : ∀ line ∈ (Lines.split 10 [] x.stdin).1, Genuine c calls x line ∨ ¬ Accepts line
  stream : Stream c x (x.stdout ++ x.unsent)
  answered : ∀ id request reply, (id, request, reply) ∈ x.answered →
    ∃ k, x.issued[id - 1]? = some k ∧ request = calls.request k

/-- A part of a request that does not end it is no clean line to go on from, and a clean
line goes on being one. -/
theorem clean_append {front written left : List UInt8} {r : ρ} {id : ℕ} (hfront : Clean front)
    (heq : c.request r id ++ [10] = written ++ left) (hleft : left ≠ []) :
    Clean (front ++ written) := by
  have hpart : ∃ rest, c.request r id = written ++ rest := by
    rcases List.append_eq_append_iff.mp heq with ⟨x, rfl, hx⟩ | ⟨x, hx, -⟩
    · refine ⟨[], ?_⟩
      cases x with
      | nil => simp
      | cons b x => simp_all
    · exact ⟨x, hx⟩
  obtain ⟨rest, hrest⟩ := hpart
  by_cases hnil : written = []
  · simpa [hnil] using hfront
  · right
    rcases hfront with rfl | hbroken
    · exact (c.request_keyed r id).broken hrest hnil
    · exact hbroken.append (c.request_keyed r id) hrest

/-! ## What a worker does -/

/-- One step of a worker: nobody is issued an id, and what is in its pipes stays lines. -/
structure Worker.Step (c : Codec ρ τ) (calls : Calls κ ρ γ) (x x' : Worker κ ρ τ γ) : Prop where
  confinement : x'.confinement = x.confinement
  issued : x'.issued = x.issued
  line : x'.line = x.line
  answered : ∀ entry ∈ x.answered, entry ∈ x'.answered
  inv : x.Inv c calls → x'.Inv c calls
  stream : x.Inv c calls → ∀ line, Stream c x (line ++ (x.stdout ++ x.unsent)) →
    Stream c x' (line ++ (x'.stdout ++ x'.unsent))

theorem Emitted.mono {x x' : Worker κ ρ τ γ} {line : List UInt8} (h : Emitted c x line)
    (hmem : ∀ entry ∈ x.answered, entry ∈ x'.answered) : Emitted c x' line := by
  rcases h with ⟨id, request, reply, hentry, rfl⟩ | h | h
  · exact .inl ⟨id, request, reply, hmem _ hentry, rfl⟩
  · exact .inr (.inl h)
  · exact .inr (.inr h)

/-- A worker that is running adds a line. -/
theorem Stream.append {x : Worker κ ρ τ γ} (x' : Worker κ ρ τ γ) {text line : List UInt8}
    (h : Stream c x text)
    (hrun : x.exited = false) (hmem : ∀ entry ∈ x.answered, entry ∈ x'.answered)
    (hline : Emitted c x' line) : Stream c x' (text ++ (line ++ [10])) := by
  obtain ⟨front, back, lines, hlines, hback, heq⟩ := h
  obtain rfl := hback hrun
  refine ⟨front, [], lines ++ [line], fun l hl => ?_, fun _ => rfl, ?_⟩
  · rcases List.mem_append.mp hl with hl | hl
    · exact (hlines l hl).mono hmem
    · rw [List.mem_singleton.mp hl]
      exact hline
  · rw [List.append_nil] at heq ⊢
    rw [List.map_append, List.flatten_append, heq]
    simp

theorem step_noise {x : Worker κ ρ τ γ} {line : List UInt8} (hrun : x.exited = false)
    (hline : Harmless c line) :
    x.Step c calls { x with unsent := x.unsent ++ (line ++ [10]) } := by
  have hstream (text : List UInt8) (h : Stream c x (text ++ (x.stdout ++ x.unsent))) :
      Stream c { x with unsent := x.unsent ++ (line ++ [10]) }
        (text ++ (x.stdout ++ (x.unsent ++ (line ++ [10])))) := by
    have := h.append { x with unsent := x.unsent ++ (line ++ [10]) } hrun (by simp)
      (.inr (.inr hline))
    simpa using this
  exact ⟨rfl, rfl, rfl, by simp, fun h => ⟨h.lines, by simpa using hstream [] h.stream, h.answered⟩,
    fun _ text h => hstream text h⟩

theorem step_send {x : Worker κ ρ τ γ} {chunk rest : List UInt8}
    (hunsent : x.unsent = chunk ++ rest) :
    x.Step c calls { x with stdout := x.stdout ++ chunk, unsent := rest } := by
  have hstream (text : List UInt8) (h : Stream c x (text ++ (x.stdout ++ x.unsent))) :
      Stream c { x with stdout := x.stdout ++ chunk, unsent := rest }
        (text ++ ((x.stdout ++ chunk) ++ rest)) := by
    rw [hunsent] at h
    simpa [Stream, Emitted] using h
  exact ⟨rfl, rfl, rfl, by simp, fun h => ⟨h.lines, by simpa using hstream [] h.stream, h.answered⟩,
    fun _ text h => hstream text h⟩

theorem step_exit {x : Worker κ ρ τ γ} :
    x.Step c calls { x with exited := true, unsent := [] } := by
  have hstream (text : List UInt8) (h : Stream c x (text ++ (x.stdout ++ x.unsent))) :
      Stream c { x with exited := true, unsent := [] } (text ++ (x.stdout ++ [])) := by
    obtain ⟨front, back, lines, hlines, -, heq⟩ := h
    exact ⟨front, x.unsent ++ back, lines, hlines, by simp, by simpa using heq⟩
  exact ⟨rfl, rfl, rfl, by simp, fun h => ⟨h.lines, by simpa using hstream [] h.stream, h.answered⟩,
    fun _ text h => hstream text h⟩

/-- What a line that decodes was: the request of one caller, with the id it was given. -/
theorem decode_genuine {x : Worker κ ρ τ γ} {line : List UInt8} {id : ℕ} {request : ρ}
    (h : Genuine c calls x line ∨ ¬ Accepts line) (hdecode : c.decode line = some (id, request)) :
    ∃ k, x.issued[id - 1]? = some k ∧ request = calls.request k := by
  rcases h with ⟨i, k, hk, rfl⟩ | hreject
  · rw [c.decode_request] at hdecode
    obtain ⟨rfl, rfl⟩ := Prod.mk.inj (Option.some.inj hdecode)
    exact ⟨k, by simpa using hk, rfl⟩
  · exact absurd (c.decode_accepts line _ hdecode) hreject

theorem step_take {x : Worker κ ρ τ γ} {line rest : List UInt8} {reply : Reply τ}
    (hrun : x.exited = false) (hfirst : Lines.first 10 x.stdin = some (line, rest))
    (hreply : c.decode line = none → reply.isOk = false) :
    x.Step c calls (x.take c line rest reply) := by
  have hsplit := Lines.split_first hfirst
  cases hdecode : c.decode line with
  | none =>
    obtain ⟨error, rfl⟩ : ∃ error, reply = .error error := by
      have hbad := hreply hdecode
      cases reply with
      | error error => exact ⟨error, rfl⟩
      | ok answer => cases hbad
    simp only [Worker.take, hdecode]
    have hstream (text : List UInt8) (h : Stream c x (text ++ (x.stdout ++ x.unsent))) :
        Stream c { x with stdin := rest, unsent := x.unsent ++ (c.answer none (.error error) ++ [10]) }
          (text ++ (x.stdout ++ (x.unsent ++ (c.answer none (.error error) ++ [10])))) := by
      have := h.append { x with
        stdin := rest, unsent := x.unsent ++ (c.answer none (.error error) ++ [10]) } hrun
        (by simp) (.inr (.inl ⟨error, rfl⟩))
      simpa using this
    refine ⟨rfl, rfl, by simp [Worker.line, hsplit], by simp, fun h => ⟨fun l hl => ?_, ?_,
      h.answered⟩, fun _ text h => hstream text h⟩
    · exact h.lines l (by rw [hsplit]; exact List.mem_cons_of_mem _ hl)
    · simpa using hstream [] h.stream
  | some entry =>
    obtain ⟨id, request⟩ := entry
    simp only [Worker.take, hdecode]
    have hstream (text : List UInt8) (h : Stream c x (text ++ (x.stdout ++ x.unsent))) :
        Stream c { x with
            stdin := rest
            unsent := x.unsent ++ (c.answer (some id) reply ++ [10])
            answered := x.answered ++ [(id, request, reply)] }
          (text ++ (x.stdout ++ (x.unsent ++ (c.answer (some id) reply ++ [10])))) := by
      have := h.append { x with
        stdin := rest
        unsent := x.unsent ++ (c.answer (some id) reply ++ [10])
        answered := x.answered ++ [(id, request, reply)] } hrun (fun _ h => by simp [h])
        (.inl ⟨id, request, reply, by simp, rfl⟩)
      simpa using this
    refine ⟨rfl, rfl, by simp [Worker.line, hsplit], fun _ h => by simp [h],
      fun h => ⟨fun l hl => ?_, ?_, fun id' request' reply' hmem => ?_⟩, fun _ text h => hstream text h⟩
    · exact h.lines l (by rw [hsplit]; exact List.mem_cons_of_mem _ hl)
    · simpa using hstream [] h.stream
    · rcases List.mem_append.mp hmem with hmem | hmem
      · exact h.answered id' request' reply' hmem
      · obtain ⟨rfl, rfl, rfl⟩ : id' = id ∧ request' = request ∧ reply' = reply := by
          simpa using hmem
        exact decode_genuine (h.lines line (by rw [hsplit]; simp)) hdecode

/-- What a caller writes ends up behind what was left there. -/
theorem line_write {x : Worker κ ρ τ γ} {chunk : List UInt8} (h : 10 ∉ chunk) :
    Lines.split 10 [] (x.stdin ++ chunk) =
      ((Lines.split 10 [] x.stdin).1, x.line ++ chunk) := by
  rw [Lines.split_append, Lines.split_of_not_mem _ h]
  simp [Worker.line]

/-- The last chunk of a request completes a line. -/
theorem line_written {x : Worker κ ρ τ γ} {chunk : List UInt8} (h : 10 ∉ chunk) :
    Lines.split 10 [] (x.stdin ++ (chunk ++ [10])) =
      ((Lines.split 10 [] x.stdin).1 ++ [x.line ++ chunk], []) := by
  rw [← List.append_assoc, Lines.split_append, line_write h]
  simp [Lines.split]

/-- A whole request behind a clean line is the caller's, or no request at all. -/
theorem genuine_written {x : Worker κ ρ τ γ} {front : List UInt8} {k : κ} {id : ℕ}
    (hfront : Clean front) (hid : 0 < id) (hk : x.issued[id - 1]? = some k) :
    Genuine c calls x (front ++ c.request (calls.request k) id) ∨
      ¬ Accepts (front ++ c.request (calls.request k) id) := by
  rcases hfront with rfl | hbroken
  · exact .inl ⟨id - 1, k, hk, by rw [Nat.sub_add_cancel hid]; rfl⟩
  · exact .inr (hbroken.not_accepts (c.request_keyed _ _))

/-- The bytes a caller writes: no newline before the last. -/
theorem newline_of_request {written chunk left : List UInt8} {r : ρ} {id : ℕ}
    (heq : c.request r id ++ [10] = written ++ (chunk ++ left)) (hchunk : chunk ≠ []) :
    if left = [] then ∃ chunk', chunk = chunk' ++ [10] ∧ 10 ∉ chunk' ∧
      c.request r id = written ++ chunk' else 10 ∉ chunk := by
  split_ifs with hleft
  · subst hleft
    obtain ⟨chunk', b, rfl⟩ : ∃ chunk' b, chunk = chunk' ++ [b] :=
      ⟨chunk.dropLast, chunk.getLast hchunk, (List.dropLast_append_getLast hchunk).symm⟩
    have heq' : c.request r id ++ [10] = (written ++ chunk') ++ [b] := by simpa using heq
    obtain ⟨hrequest, hb⟩ := List.append_inj' heq' rfl
    obtain rfl : 10 = b := by simpa using hb
    exact ⟨chunk', rfl, fun h => c.request_line r id (by rw [hrequest]; simp [h]), hrequest⟩
  · intro h
    obtain ⟨left', b, rfl⟩ : ∃ left' b, left = left' ++ [b] :=
      ⟨left.dropLast, left.getLast hleft, (List.dropLast_append_getLast hleft).symm⟩
    have heq' : c.request r id ++ [10] = (written ++ (chunk ++ left')) ++ [b] := by
      simpa using heq
    obtain ⟨hrequest, -⟩ := List.append_inj' heq' rfl
    exact c.request_line r id (by rw [hrequest]; simp [h])

/-! ## What holds of every run -/

structure State.Inv (c : Codec ρ τ) (calls : Calls κ ρ γ) (s : State κ ρ τ γ) : Prop where
  worker : ∀ w, (s.worker w).Inv c calls
  holder : ∀ k w id, (s.call k).On w id → s.holder = some k
  held : ∀ k, s.holder = some k → ∃ w id, (s.call k).On w id
  slot : ∀ w, s.slot = some w → w < s.made
  on : ∀ k w id, (s.call k).On w id → s.slot = some w ∧
    (s.worker w).confinement = calls.confinement k ∧ 0 < id ∧
    (s.worker w).issued[id - 1]? = some k
  clean : ∀ w, (∀ k id left, s.call k ≠ .writing w id left) → Clean (s.worker w).line
  writing : ∀ k w id left, s.call k = .writing w id left → left ≠ [] ∧
    ∃ front written, Clean front ∧ (s.worker w).line = front ++ written ∧
      c.request (calls.request k) id ++ [10] = written ++ left
  reading : ∀ k w id line, s.call k = .reading w id line → 10 ∉ line ∧
    Stream c (s.worker w) (line ++ ((s.worker w).stdout ++ (s.worker w).unsent))
  answered : ∀ k w id answer, s.call k = .answered w id answer → w < s.made ∧
    (s.worker w).confinement = calls.confinement k ∧ (s.worker w).issued[id - 1]? = some k ∧
    (id, calls.request k, .ok answer) ∈ (s.worker w).answered
  failed : ∀ k w, s.call k = .failed w → w < s.made ∧ s.slot ≠ some w

theorem inv_spawn (confinement : γ) :
    (Worker.spawn confinement : Worker κ ρ τ γ).Inv c calls := by
  refine ⟨by simp [Worker.spawn, Lines.split], ⟨[], [], [], by simp, by simp, rfl⟩, ?_⟩
  simp [Worker.spawn]

theorem inv_init [Inhabited γ] : (init : State κ ρ τ γ).Inv c calls := by
  refine ⟨fun _ => inv_spawn default, ?_, ?_, ?_, ?_, ?_, ?_, ?_, ?_, ?_⟩ <;>
    simp [init, Call.On, Clean, Worker.line, Worker.spawn, Lines.split]

variable {s : State κ ρ τ γ}

/-- A worker's own step. -/
theorem State.Inv.setWorker (h : s.Inv c calls) {w : ℕ} {x : Worker κ ρ τ γ}
    (hx : (s.worker w).Step c calls x) : (s.setWorker w x).Inv c calls := by
  have hworker (v : ℕ) : (s.worker v).Step c calls ((s.setWorker w x).worker v) := by
    by_cases hv : v = w
    · simpa [State.setWorker, hv] using hx
    · simp only [State.setWorker, Function.update_of_ne hv]
      exact ⟨rfl, rfl, rfl, fun _ h => h, id, fun _ _ h => h⟩
  refine ⟨fun v => (hworker v).inv (h.worker v), h.holder, h.held, h.slot, fun k v id hk => ?_,
    fun v hv => ?_, fun k v id left hk => ?_, fun k v id line hk => ?_,
    fun k v id answer hk => ?_, h.failed⟩
  · rw [(hworker v).confinement, (hworker v).issued]
    exact h.on k v id hk
  · rw [(hworker v).line]
    exact h.clean v hv
  · rw [(hworker v).line]
    exact h.writing k v id left hk
  · exact ⟨(h.reading k v id line hk).1,
      (hworker v).stream (h.worker v) line (h.reading k v id line hk).2⟩
  · rw [(hworker v).confinement, (hworker v).issued]
    obtain ⟨hmade, hconf, hissued, hmem⟩ := h.answered k v id answer hk
    exact ⟨hmade, hconf, hissued, (hworker v).answered _ hmem⟩

/-- What the writer leaves behind is clean again, wherever it stops. -/
theorem State.Inv.clean_line (h : s.Inv c calls) (w : ℕ) : Clean (s.worker w).line := by
  by_cases hw : ∀ k id left, s.call k ≠ .writing w id left
  · exact h.clean w hw
  · simp only [not_forall, not_not] at hw
    obtain ⟨k, id, left, hk⟩ := hw
    obtain ⟨hleft, front, written, hfront, hline, heq⟩ := h.writing k w id left hk
    rw [hline]
    exact clean_append hfront heq hleft

theorem Call.on_of_writing {w id : ℕ} {left : List UInt8} {x : Call τ}
    (h : x = .writing w id left) : x.On w id := by
  rw [h]
  exact ⟨rfl, rfl⟩

theorem Call.on_of_reading {w id : ℕ} {line : List UInt8} {x : Call τ}
    (h : x = .reading w id line) : x.On w id := by
  rw [h]
  exact ⟨rfl, rfl⟩

/-- Another call than the holder is not in `exchange`. -/
theorem State.Inv.not_on (h : s.Inv c calls) {k j : κ} (hfree : s.holder = some k ∨ s.holder = none)
    (hne : j ≠ k) (w id : ℕ) : ¬ (s.call j).On w id := by
  intro hon
  have := h.holder j w id hon
  rcases hfree with hfree | hfree <;> rw [this] at hfree
  · exact hne (Option.some.inj hfree)
  · cases hfree

theorem State.Inv.not_on_of_free (h : s.Inv c calls) (hfree : s.holder = none) (k : κ) (w id : ℕ) :
    ¬ (s.call k).On w id := fun hon => by
  rw [h.holder k w id hon] at hfree
  cases hfree

/-- An id is given: what was issued before stays under its id. -/
theorem Worker.Inv.issue {x : Worker κ ρ τ γ} (h : x.Inv c calls) (k : κ) :
    Worker.Inv c calls { x with issued := x.issued ++ [k] } := by
  have hmono {i : ℕ} {j : κ} (hj : x.issued[i]? = some j) : (x.issued ++ [k])[i]? = some j := by
    rw [List.getElem?_append_left (List.getElem?_eq_some_iff.mp hj).1]
    exact hj
  refine ⟨fun line hline => ?_, h.stream, fun id request reply hmem => ?_⟩
  · rcases h.lines line hline with ⟨i, j, hj, hl⟩ | hreject
    · exact .inl ⟨i, j, hmono hj, hl⟩
    · exact .inr hreject
  · obtain ⟨j, hj, hrequest⟩ := h.answered id request reply hmem
    exact ⟨j, hmono hj, hrequest⟩

/-- A fresh worker nobody has talked to. -/
theorem State.Inv.spawn (h : s.Inv c calls) (confinement : γ) (hfree : s.holder = none) :
    State.Inv c calls { s.setWorker s.made (.spawn confinement) with made := s.made + 1 } := by
  have hnone := h.not_on_of_free hfree
  refine ⟨fun v => ?_, h.holder, h.held, fun v hv => Nat.lt_succ_of_lt (h.slot v hv),
    fun j v id hj => absurd hj (hnone j v id), fun v hv => ?_,
    fun j v id left hj => absurd (Call.on_of_writing hj) (hnone j v id),
    fun j v id line hj => absurd (Call.on_of_reading hj) (hnone j v id),
    fun j v id a hj => ?_, fun j v hj => ?_⟩
  · by_cases hv : v = s.made
    · simpa [State.setWorker, hv] using inv_spawn confinement
    · simpa [State.setWorker, hv] using h.worker v
  · by_cases hv : v = s.made
    · left
      simp [State.setWorker, hv, Worker.line, Worker.spawn, Lines.split]
    · simpa [State.setWorker, hv] using h.clean_line v
  · obtain ⟨hmade, hrest⟩ := h.answered j v id a hj
    refine ⟨Nat.lt_succ_of_lt hmade, ?_⟩
    simpa [State.setWorker, hmade.ne] using hrest
  · obtain ⟨hmade, hslot⟩ := h.failed j v hj
    exact ⟨Nat.lt_succ_of_lt hmade, hslot⟩

section Steps
variable [DecidableEq κ]

/-- A call ends: the slot keeps its worker or loses it. -/
theorem State.Inv.leave (h : s.Inv c calls) {k : κ} {x : Call τ} (slot : Option ℕ)
    (hx : ∀ w id, ¬ x.On w id) (hslot : slot = s.slot ∨ slot = none)
    (hanswered : ∀ w id answer, x = .answered w id answer → w < s.made ∧
      (s.worker w).confinement = calls.confinement k ∧ (s.worker w).issued[id - 1]? = some k ∧
      (id, calls.request k, .ok answer) ∈ (s.worker w).answered)
    (hfailed : ∀ w, x = .failed w → w < s.made ∧ slot ≠ some w)
    (hfree : s.holder = some k ∨ s.holder = none) :
    State.Inv c calls { s.setCall k x with slot := slot, holder := none } := by
  have hnone (j : κ) (w id : ℕ) : ¬ (Function.update s.call k x j).On w id := by
    by_cases hj : j = k
    · simpa [hj] using hx w id
    · simpa [hj] using h.not_on hfree hj w id
  refine ⟨h.worker, fun j w id hj => absurd hj (hnone j w id), by simp, fun w hw => ?_,
    fun j w id hj => absurd hj (hnone j w id), fun w _ => h.clean_line w,
    fun j w id left hj => absurd (Call.on_of_writing hj) (hnone j w id),
    fun j w id line hj => absurd (Call.on_of_reading hj) (hnone j w id),
    fun j w id answer hj => ?_, fun j w hj => ?_⟩
  · rcases hslot with rfl | rfl
    · exact h.slot w hw
    · cases hw
  · by_cases hjk : j = k
    · subst hjk
      exact hanswered w id answer (by simpa [State.setCall] using hj)
    · exact h.answered j w id answer (by simpa [State.setCall, hjk] using hj)
  · by_cases hjk : j = k
    · exact hfailed w (by simpa [State.setCall, hjk] using hj)
    · obtain ⟨hmade, hw⟩ := h.failed j w (by simpa [State.setCall, hjk] using hj)
      exact ⟨hmade, by rcases hslot with rfl | rfl <;> simp [hw]⟩

theorem State.Inv.fail (h : s.Inv c calls) {k : κ} {w id : ℕ} (hon : (s.call k).On w id) :
    (s.fail k w).Inv c calls :=
  h.leave none (by simp [Call.On]) (.inr rfl) (by simp)
    (fun v hv => ⟨by cases hv; exact h.slot w (h.on k w id hon).1, by simp⟩)
    (.inl (h.holder k w id hon))

/-- A line that passes is the worker's answer to this very call. -/
theorem State.Inv.finish (h : s.Inv c calls) {k : κ} {w id : ℕ} {line : List UInt8}
    (hon : (s.call k).On w id) (hline : line ≠ []) (hlast : 10 ∉ line.dropLast)
    (hstream : Stream c (s.worker w) (line ++ ((s.worker w).stdout ++ (s.worker w).unsent))) :
    (s.finish c k w id line).Inv c calls := by
  simp only [State.finish]
  cases hjudge : c.judge id line with
  | none => exact h.fail hon
  | some answer =>
    obtain ⟨hslot, hconf, hid, hissued⟩ := h.on k w id hon
    refine h.leave s.slot (by simp [Call.On]) (.inl rfl) (fun v id' a ha => ?_) (by simp)
      (.inl (h.holder k w id hon))
    obtain ⟨rfl, rfl, rfl⟩ : w = v ∧ id = id' ∧ answer = a := by simpa using ha
    refine ⟨h.slot w hslot, hconf, hissued, ?_⟩
    obtain ⟨front, back, lines, hlines, -, heq⟩ := hstream
    obtain ⟨l, hl, before, after, hpart⟩ :=
      part_of_lines (by simpa using heq) hline hlast
    rcases hlines l hl with ⟨id', request, reply, hentry, rfl⟩ | ⟨error, rfl⟩ | hharmless
    · obtain ⟨hid', rfl⟩ := judge_part hpart hjudge
      obtain rfl : id' = id := Option.some.inj hid'
      obtain ⟨k', hk', rfl⟩ := (h.worker w).answered _ _ _ hentry
      rw [hissued] at hk'
      obtain rfl : k = k' := Option.some.inj hk'
      exact hentry
    · cases (judge_part hpart hjudge).1
    · rw [hharmless.2 before line after hpart id] at hjudge
      cases hjudge

theorem finish_setCall (s : State κ ρ τ γ) (k : κ) (x : Call τ) (w id : ℕ) (line : List UInt8) :
    (s.setCall k x).finish c k w id line = s.finish c k w id line := by
  simp only [State.finish, State.fail, State.setCall, Function.update_idem]

/-- The holder goes on with its worker. -/
theorem State.Inv.proceed (h : s.Inv c calls) {k : κ} {w id : ℕ} (hon : (s.call k).On w id)
    {x : Worker κ ρ τ γ} {y : Call τ} (hy : ∀ v i, y.On v i ↔ w = v ∧ id = i)
    (hconf : x.confinement = (s.worker w).confinement) (hissued : x.issued = (s.worker w).issued)
    (hanswered : x.answered = (s.worker w).answered) (hx : x.Inv c calls)
    (hclean : (∀ left, y ≠ .writing w id left) → Clean x.line)
    (hwriting : ∀ left, y = .writing w id left → left ≠ [] ∧ ∃ front written, Clean front ∧
      x.line = front ++ written ∧ c.request (calls.request k) id ++ [10] = written ++ left)
    (hreading : ∀ line, y = .reading w id line → 10 ∉ line ∧
      Stream c x (line ++ (x.stdout ++ x.unsent))) :
    ((s.setWorker w x).setCall k y).Inv c calls := by
  have hholder := h.holder k w id hon
  have hcall (j : κ) (v i : ℕ) :
      (Function.update s.call k y j).On v i ↔ j = k ∧ w = v ∧ id = i := by
    by_cases hj : j = k
    · simp [hj, hy]
    · simpa [hj] using h.not_on (.inl hholder) hj v i
  have hother (j : κ) (z : Call τ) (hj : Function.update s.call k y j = z)
      (hz : ¬ z.On w id) : j ≠ k := by
    rintro rfl
    exact hz (hj ▸ (hcall j w id).mpr ⟨rfl, rfl, rfl⟩)
  have hworker (v : ℕ) : Function.update s.worker w x v = if v = w then x else s.worker v := by
    simp [Function.update_apply]
  refine ⟨fun v => ?_, fun j v i hj => ?_, fun j hj => ?_, h.slot, fun j v i hj => ?_,
    fun v hv => ?_, fun j v i left hj => ?_, fun j v i line hj => ?_, fun j v i a hj => ?_,
    fun j v hj => ?_⟩ <;> simp only [State.setCall, State.setWorker] at *
  · rw [hworker]
    split_ifs
    · exact hx
    · exact h.worker v
  · rw [((hcall j v i).mp hj).1]
    exact hholder
  · obtain rfl : k = j := Option.some.inj (hholder.symm.trans hj)
    exact ⟨w, id, (hcall k w id).mpr ⟨rfl, rfl, rfl⟩⟩
  · obtain ⟨rfl, rfl, rfl⟩ := (hcall j v i).mp hj
    rw [Function.update_self, hconf, hissued]
    exact h.on j w id hon
  · rw [hworker]
    split_ifs with hvw
    · refine hclean fun left hleft => hv k id left ?_
      rw [Function.update_self, hvw]
      exact hleft
    · exact h.clean_line v
  · obtain ⟨rfl, rfl, rfl⟩ := (hcall j v i).mp (Call.on_of_writing hj)
    rw [Function.update_self] at hj ⊢
    exact hwriting left hj
  · obtain ⟨rfl, rfl, rfl⟩ := (hcall j v i).mp (Call.on_of_reading hj)
    rw [Function.update_self] at hj ⊢
    exact hreading line hj
  · have hjk := hother j _ hj (by simp [Call.On])
    rw [Function.update_of_ne hjk] at hj
    obtain ⟨hmade, hconf', hissued', hmem⟩ := h.answered j v i a hj
    rw [hworker]
    split_ifs with hvw
    · subst hvw
      rw [hconf, hissued, hanswered]
      exact ⟨hmade, hconf', hissued', hmem⟩
    · exact ⟨hmade, hconf', hissued', hmem⟩
  · rw [Function.update_of_ne (hother j _ hj (by simp [Call.On]))] at hj
    exact h.failed j v hj

theorem State.Inv.begin (h : s.Inv c calls) {k : κ} {w : ℕ} (hk : s.call k = .waiting)
    (hfree : s.holder = none) (hw : w < s.made)
    (hconf : (s.worker w).confinement = calls.confinement k)
    (hfailed : ∀ j v, s.call j = .failed v → v ≠ w) : (s.begin c calls k w).Inv c calls := by
  have hnone := h.not_on_of_free hfree
  have hcall (j : κ) (v i : ℕ) (z : Call τ)
      (hj : Function.update s.call k (.writing w ((s.worker w).issued.length + 1)
        (c.request (calls.request k) ((s.worker w).issued.length + 1) ++ [10])) j = z)
      (hon : z.On v i) : j = k ∧ w = v ∧ (s.worker w).issued.length + 1 = i := by
    by_cases hjk : j = k
    · rw [hjk, Function.update_self] at hj
      subst hj
      exact ⟨hjk, hon⟩
    · rw [Function.update_of_ne hjk] at hj
      exact absurd (hj ▸ hon) (hnone j v i)
  have hsame (j : κ) (z : Call τ)
      (hj : Function.update s.call k (.writing w ((s.worker w).issued.length + 1)
        (c.request (calls.request k) ((s.worker w).issued.length + 1) ++ [10])) j = z)
      (hz : ∀ v i, ¬ z.On v i) : s.call j = z := by
    by_cases hjk : j = k
    · rw [hjk, Function.update_self] at hj
      exact absurd (hj ▸ ⟨rfl, rfl⟩) (hz w ((s.worker w).issued.length + 1))
    · rwa [Function.update_of_ne hjk] at hj
  refine ⟨fun v => ?_, fun j v i hj => ?_, fun j hj => ?_, fun v hv => ?_, fun j v i hj => ?_,
    fun v hv => ?_, fun j v i left hj => ?_, fun j v i line hj => ?_, fun j v i a hj => ?_,
    fun j v hj => ?_⟩ <;> simp only [State.begin, State.setCall, State.setWorker] at *
  · by_cases hv : v = w
    · simpa [hv] using (h.worker w).issue k
    · simpa [hv] using h.worker v
  · rw [(hcall j v i _ rfl hj).1]
  · obtain rfl : k = j := Option.some.inj hj
    exact ⟨w, _, by rw [Function.update_self]; exact ⟨rfl, rfl⟩⟩
  · obtain rfl : w = v := Option.some.inj hv
    exact hw
  · obtain ⟨rfl, rfl, rfl⟩ := hcall j v i _ rfl hj
    simp [hconf]
  · by_cases hvw : v = w
    · exact absurd (by rw [hvw, Function.update_self]) (hv k _ _)
    · simpa [hvw] using h.clean_line v
  · obtain ⟨rfl, rfl, rfl⟩ := hcall j v i _ hj ⟨rfl, rfl⟩
    obtain rfl : c.request (calls.request j) ((s.worker w).issued.length + 1) ++ [10] = left := by
      simpa using hj
    refine ⟨by simp, (s.worker w).line, [], h.clean_line w, ?_, by simp⟩
    simp [Worker.line]
  · obtain ⟨rfl, rfl, rfl⟩ := hcall j v i _ hj ⟨rfl, rfl⟩
    simp at hj
  · obtain ⟨hmade, hconf', hissued, hmem⟩ := h.answered j v i a (hsame j _ hj (by simp [Call.On]))
    by_cases hvw : v = w
    · subst hvw
      rw [Function.update_self]
      refine ⟨hmade, hconf', ?_, hmem⟩
      rw [List.getElem?_append_left (List.getElem?_eq_some_iff.mp hissued).1]
      exact hissued
    · rw [Function.update_of_ne hvw]
      exact ⟨hmade, hconf', hissued, hmem⟩
  · have hj' := hsame j _ hj (by simp [Call.On])
    exact ⟨(h.failed j v hj').1, fun hv => hfailed j v hj' (Option.some.inj hv).symm⟩

/-- A call outside `exchange` goes on outside. -/
theorem State.Inv.setCall (h : s.Inv c calls) {k : κ} {x : Call τ}
    (hk : ∀ w id, ¬ (s.call k).On w id) (hx : x = .waiting ∨ x = .dropped) :
    (s.setCall k x).Inv c calls := by
  have hcall (j : κ) (v i : ℕ) : (Function.update s.call k x j).On v i → (s.call j).On v i ∧ j ≠ k := by
    intro hj
    by_cases hjk : j = k
    · rcases hx with rfl | rfl <;> simp [hjk, Call.On] at hj
    · exact ⟨by simpa [hjk] using hj, hjk⟩
  have hsame (j : κ) (z : Call τ) (hj : Function.update s.call k x j = z)
      (hz : z ≠ .waiting ∧ z ≠ .dropped) : s.call j = z := by
    by_cases hjk : j = k
    · rw [hjk, Function.update_self] at hj
      rcases hx with rfl | rfl
      · exact absurd hj.symm hz.1
      · exact absurd hj.symm hz.2
    · rwa [Function.update_of_ne hjk] at hj
  refine ⟨h.worker, fun j v i hj => h.holder j v i (hcall j v i hj).1, fun j hj => ?_, h.slot,
    fun j v i hj => h.on j v i (hcall j v i hj).1, fun v _ => h.clean_line v,
    fun j v i left hj => h.writing j v i left (hsame j _ hj (by simp)),
    fun j v i line hj => h.reading j v i line (hsame j _ hj (by simp)),
    fun j v i a hj => h.answered j v i a (hsame j _ hj (by simp)),
    fun j v hj => h.failed j v (hsame j _ hj (by simp))⟩
  obtain ⟨w, id, hon⟩ := h.held j hj
  have hjk : j ≠ k := by
    rintro rfl
    exact hk w id hon
  exact ⟨w, id, by simpa [State.setCall, hjk] using hon⟩

variable [DecidableEq γ]

theorem State.Inv.write (h : s.Inv c calls) {k : κ} {w id : ℕ} {chunk left : List UInt8}
    (hk : s.call k = .writing w id (chunk ++ left)) (hchunk : chunk ≠ []) :
    (next c calls s (.write k w id chunk left)).Inv c calls := by
  obtain ⟨-, front, written, hfront, hline, heq⟩ := h.writing k w id _ hk
  have hon := Call.on_of_writing hk
  obtain ⟨-, -, hid, hissued⟩ := h.on k w id hon
  have hnewline := newline_of_request heq hchunk
  simp only [next]
  split_ifs at hnewline ⊢ with hleft
  · obtain ⟨chunk', rfl, hnot, hrequest⟩ := hnewline
    have hsplit := line_written (x := s.worker w) hnot
    refine h.proceed hon (by simp [Call.On]) rfl rfl rfl
      ⟨fun l hl => ?_, (h.worker w).stream, (h.worker w).answered⟩ (fun _ => ?_) (by simp)
      fun line hreading => ?_
    · rw [hsplit] at hl
      rcases List.mem_append.mp hl with hl | hl
      · exact (h.worker w).lines l hl
      · rw [List.mem_singleton.mp hl, hline, List.append_assoc, ← hrequest]
        exact genuine_written hfront hid hissued
    · exact .inl (by simp [Worker.line, hsplit])
    · obtain rfl : [] = line := by simpa using hreading
      exact ⟨by simp, (h.worker w).stream⟩
  · have hsplit := line_write (x := s.worker w) hnewline
    refine h.proceed hon (by simp [Call.On]) rfl rfl rfl
      ⟨fun l hl => ?_, (h.worker w).stream, (h.worker w).answered⟩
      (fun hw => absurd rfl (hw left)) (fun left' hw => ?_) (by simp)
    · rw [hsplit] at hl
      exact (h.worker w).lines l hl
    · obtain rfl : left = left' := by simpa using hw
      refine ⟨hleft, front, written ++ chunk, hfront, ?_, by simpa using heq⟩
      rw [← List.append_assoc, ← hline]
      exact congrArg Prod.snd hsplit

theorem State.Inv.read (h : s.Inv c calls) {k : κ} {w id : ℕ} {line chunk rest : List UInt8}
    (ha : enabled c s (.read k w id line chunk rest)) :
    (next c calls s (.read k w id line chunk rest)).Inv c calls := by
  obtain ⟨hk, hstdout, hchunk, hlast⟩ := ha
  have hon := Call.on_of_reading hk
  obtain ⟨hline, hstream⟩ := h.reading k w id line hk
  have hmore : Stream c { s.worker w with stdout := rest }
      ((line ++ chunk) ++ (rest ++ (s.worker w).unsent)) := by
    rw [hstdout] at hstream
    simpa [Stream, Emitted] using hstream
  have hx : Worker.Inv c calls { s.worker w with stdout := rest } :=
    ⟨(h.worker w).lines, hmore.suffix, (h.worker w).answered⟩
  have hclean : Clean (Worker.line { s.worker w with stdout := rest }) := h.clean_line w
  simp only [next]
  split_ifs with hend
  · have hbefore : State.Inv c calls ((s.setWorker w { s.worker w with stdout := rest }).setCall k
        (.reading w id [])) :=
      h.proceed hon (by simp [Call.On]) rfl rfl rfl hx (fun _ => hclean) (by simp) fun l hl => by
        obtain rfl : [] = l := by simpa using hl
        exact ⟨by simp, hmore.suffix⟩
    have honBefore : (((s.setWorker w { s.worker w with stdout := rest }).setCall k
        (.reading w id [])).call k).On w id := by
      simp [State.setCall, Call.On]
    rw [← finish_setCall _ k (.reading w id [])]
    refine hbefore.finish honBefore (by simp [hchunk]) ?_ ?_
    · rw [List.dropLast_append_of_ne_nil hchunk]
      simp [hline, hlast]
    · simpa [State.setCall, State.setWorker] using hmore
  · refine h.proceed hon (by simp [Call.On]) rfl rfl rfl hx (fun _ => hclean) (by simp)
      fun l hl => ?_
    obtain rfl : line ++ chunk = l := by simpa using hl
    refine ⟨?_, hmore⟩
    rw [← List.dropLast_append_getLast hchunk]
    rw [List.getLast?_eq_some_getLast hchunk] at hend
    simp only [List.mem_append, List.mem_singleton, not_or]
    exact ⟨hline, hlast, fun h => hend (by rw [← h])⟩

theorem State.Inv.readEnd (h : s.Inv c calls) {k : κ} {w id : ℕ} {line : List UInt8}
    (hk : s.call k = .reading w id line) :
    (next c calls s (.readEnd k w id line)).Inv c calls := by
  have hon := Call.on_of_reading hk
  obtain ⟨hline, hstream⟩ := h.reading k w id line hk
  simp only [next]
  split_ifs with hnil
  · exact h.fail hon
  · exact h.finish hon hnil (fun h => hline (List.dropLast_subset line h)) hstream

theorem State.Inv.drop (h : s.Inv c calls) {k : κ}
    (ha : s.call k = .waiting ∨ s.holder = some k) :
    (next c calls s (.drop k)).Inv c calls := by
  simp only [next]
  split_ifs with hholder
  · exact h.leave s.slot (by simp [Call.On]) (.inl rfl) (by simp) (by simp) (.inl hholder)
  · have hk := ha.resolve_right hholder
    exact h.setCall (x := .dropped) (by simp [hk, Call.On]) (.inr rfl)

theorem State.Inv.reapIdle (h : s.Inv c calls) (hfree : s.holder = none) :
    (next c calls s .reapIdle).Inv c calls := by
  have hnone := h.not_on_of_free hfree
  exact ⟨h.worker, h.holder, h.held, by simp [next], fun j w id hj => absurd hj (hnone j w id),
    h.clean, h.writing, h.reading, h.answered, fun j w hj => ⟨(h.failed j w hj).1, by simp [next]⟩⟩

theorem State.Inv.acquire (h : s.Inv c calls) {k : κ} (hk : s.call k = .waiting)
    (hfree : s.holder = none) (spawns : Bool) :
    (next c calls s (.acquire k spawns)).Inv c calls := by
  simp only [next, State.acquire]
  split
  · next w hkept =>
    obtain ⟨hslot, hconf⟩ := Option.filter_eq_some_iff.mp hkept
    exact h.begin hk hfree (h.slot w hslot) (by simpa using hconf)
      fun j v hj hv => (h.failed j v hj).2 (hv ▸ hslot)
  · split_ifs
    · refine (h.spawn (calls.confinement k) hfree).begin hk hfree (Nat.lt_succ_self _)
        (by simp [State.setWorker, Worker.spawn]) fun j v hj => (h.failed j v hj).1.ne
    · have := h.leave (x := .unserved) (k := k) none (by simp [Call.On]) (.inr rfl)
        (by simp) (by simp) (.inr hfree)
      simpa [State.setCall, hfree] using this

theorem inv_step (s : State κ ρ τ γ) (a : Action κ τ) (h : s.Inv c calls)
    (ha : enabled c s a) : (next c calls s a).Inv c calls := by
  cases a with
  | enter k =>
    have hk : s.call k = .idle := ha
    exact h.setCall (by simp [hk, Call.On]) (.inl rfl)
  | acquire k spawns => exact h.acquire ha.1 ha.2 spawns
  | write k w id chunk left => exact h.write ha.1 ha.2.1
  | read k w id line chunk rest => exact h.read ha
  | readEnd k w id line => exact h.readEnd ha.1
  | giveUp k w id => exact h.fail ha
  | drop k => exact h.drop ha
  | reapIdle => exact h.reapIdle ha
  | take w line rest reply => exact h.setWorker (step_take ha.1 ha.2.1 ha.2.2)
  | noise w line => exact h.setWorker (step_noise ha.1 ha.2)
  | send w chunk rest => exact h.setWorker (step_send ha.2)
  | exit w => exact h.setWorker step_exit

/-- An answer a call returns is what a worker with the call's own confinement computed for
the call's own request, under the id it gave to that call; and no call ever talks to a
worker again on which another one failed. -/
theorem answers_own [Inhabited γ] (h : (machine c calls).Reaches init s) :
    (∀ k w id answer, s.call k = .answered w id answer →
      (s.worker w).confinement = calls.confinement k ∧
      (s.worker w).issued[id - 1]? = some k ∧
      (id, calls.request k, .ok answer) ∈ (s.worker w).answered) ∧
    ∀ k w, s.call k = .failed w → s.slot ≠ some w ∧ ∀ j id, ¬ (s.call j).On w id := by
  have hinv : s.Inv c calls := h.invariant inv_step inv_init
  refine ⟨fun k w id answer hk => (hinv.answered k w id answer hk).2, fun k w hk => ?_⟩
  obtain ⟨-, hslot⟩ := hinv.failed k w hk
  exact ⟨hslot, fun j id hj => hslot (hinv.on j w id hj).1⟩

end Steps

/-! ## The shortest request, its answer, and a run -/

def number (digits : List UInt8) : ℕ :=
  Nat.ofDigitChars 10 (digits.map fun b => Char.ofNat b.toNat) 0

theorem toNat_digit {ch : Char} {n : ℕ} (h : ch ∈ Nat.toDigits 10 n) :
    48 ≤ ch.toNat.toUInt8.toNat ∧ ch.toNat.toUInt8.toNat ≤ 57 ∧
      Char.ofNat ch.toNat.toUInt8.toNat = ch := by
  have hdigit := Utf8.toNat_of_isDigit (Nat.isDigit_of_mem_toDigits (by decide) (by decide) h)
  have hbyte : ch.toNat.toUInt8.toNat = ch.toNat :=
    UInt8.toNat_ofNat_of_lt' (lt_of_le_of_lt hdigit.2 (by decide))
  rw [hbyte]
  exact ⟨hdigit.1, hdigit.2, Char.ofNat_toNat ch⟩

theorem number_decimal (n : ℕ) : number (decimal n) = n := by
  have hmap : (decimal n).map (fun b => Char.ofNat b.toNat) = Nat.toDigits 10 n := by
    rw [decimal, List.map_map]
    exact (List.map_congr_left fun ch hch => (toNat_digit hch).2.2).trans (List.map_id _)
  rw [number, hmap, Nat.ofDigitChars_ten_toDigits]

def requestHead : List UInt8 :=
  [123, 34, 115, 111, 117, 114, 99, 101, 34, 58, 34, 34, 44, 34, 105, 100, 34, 58]

def bareRequest (n : ℕ) : List UInt8 := requestHead ++ (decimal n ++ [125])

def bareDecode (text : List UInt8) : Option (ℕ × Unit) :=
  let n := number (text.drop requestHead.length).dropLast
  if text = bareRequest n then some (n, ()) else none

def barePrinter : Printer Unit := ⟨[], fun _ => [], by simp, fun _ => .nil, by simp⟩

def bareReplies : List (Reply Unit) := [.ok ⟨(), none⟩, .ok ⟨(), some ()⟩, .error ()]

def bareLine (text : List UInt8) : List UInt8 :=
  if text.getLast? = some 10 then text.dropLast else text

def bareId (line : List UInt8) : Option ℕ :=
  let digits := (line.drop 6).takeWhile (· ≠ 44)
  if digits = null then none else some (number digits)

def bareWire (text : List UInt8) : Option (Wire Unit) :=
  (bareReplies.find? fun reply =>
    barePrinter.answer (bareId (bareLine text)) reply = bareLine text).map
      (Wire.of (bareId (bareLine text)))

theorem bareRequest_keyed (n : ℕ) : Keyed (bareRequest n) := by
  refine ⟨⟨?_, ⟨123, _, rfl, by decide⟩, ⟨requestHead ++ decimal n, 125, by simp [bareRequest],
    by decide⟩⟩, ⟨123, 34, 115, _, rfl, by decide, by decide, by decide⟩⟩
  have hhead : run start requestHead = some (.out, 1) := by decide
  rw [bareRequest, run_append, hhead, Option.bind_some, run_append,
    run_loose fun b hb => .inl (kind_decimal hb).1]
  rfl

theorem bareDecode_request (n : ℕ) : bareDecode (bareRequest n) = some (n, ()) := by
  have hdrop : ((bareRequest n).drop requestHead.length).dropLast = decimal n := by
    simp [bareRequest]
  simp only [bareDecode, hdrop, number_decimal, if_true]

theorem decimal_spec {n : ℕ} {b : UInt8} (h : b ∈ decimal n) : b ≠ 110 ∧ b ≠ 44 := by
  obtain ⟨ch, hch, rfl⟩ := List.mem_map.mp h
  obtain ⟨hlow, hhigh, -⟩ := toNat_digit hch
  constructor
  · rintro hb
    rw [hb] at hhigh
    exact absurd hhigh (by decide)
  · rintro hb
    rw [hb] at hlow
    exact absurd hlow (by decide)

theorem decimal_ne_null (n : ℕ) : decimal n ≠ null := fun h =>
  (decimal_spec (n := n) (b := 110) (h ▸ by decide)).1 rfl

/-- The id stands between the sixth byte of an answer and its first comma. -/
theorem takeWhile_answer (id : Option ℕ) (reply : Reply Unit) :
    ((barePrinter.answer id reply).drop 6).takeWhile (· ≠ 44) = id.elim null decimal := by
  have hdrop : (barePrinter.answer id reply).drop 6 =
      id.elim null decimal ++ 44 :: (barePrinter.reply reply ++ [125]) := by
    simp [Printer.answer, Printer.member, idKey, barePrinter]
  rw [hdrop, List.takeWhile_append_of_pos]
  · simp
  · intro b hb
    cases id with
    | none => exact List.all_eq_true.mp (by decide : null.all (· ≠ 44) = true) b hb
    | some n => simpa using (decimal_spec hb).2

theorem mem_bareReplies (reply : Reply Unit) : reply ∈ bareReplies := by
  rcases reply with ⟨⟩ | ⟨⟨⟩, _ | ⟨⟩⟩ <;> simp [bareReplies]

theorem answer_inj {id : Option ℕ} {reply reply' : Reply Unit} :
    barePrinter.answer id reply = barePrinter.answer id reply' ↔ reply = reply' := by
  refine ⟨fun h => ?_, fun h => by rw [h]⟩
  have hreply : barePrinter.reply reply = barePrinter.reply reply' := by
    simpa [Printer.answer, barePrinter] using h
  have hinj : ∀ r ∈ bareReplies, ∀ r' ∈ bareReplies,
      barePrinter.reply r = barePrinter.reply r' → r = r' := by decide
  exact hinj reply (mem_bareReplies reply) reply' (mem_bareReplies reply') hreply

theorem find_bareReplies (id : Option ℕ) (reply : Reply Unit) :
    bareReplies.find? (fun r => barePrinter.answer id r = barePrinter.answer id reply) =
      some reply := by
  simp only [answer_inj]
  revert reply
  have hfind : ∀ reply ∈ bareReplies,
      bareReplies.find? (fun r => decide (r = reply)) = some reply := by decide
  exact fun reply => hfind reply (mem_bareReplies reply)

theorem bareId_answer (id : Option ℕ) (reply : Reply Unit) :
    bareId (barePrinter.answer id reply) = id := by
  rw [bareId, takeWhile_answer]
  cases id with
  | none => rfl
  | some n => simp [decimal_ne_null, number_decimal]

theorem bareWire_of_line {text : List UInt8} {id : Option ℕ} {reply : Reply Unit}
    (h : bareLine text = barePrinter.answer id reply) : bareWire text = some (Wire.of id reply) := by
  simp only [bareWire, h, bareId_answer, find_bareReplies, Option.map_some]

theorem bareLine_answer (id : Option ℕ) (reply : Reply Unit) :
    bareLine (barePrinter.answer id reply) = barePrinter.answer id reply ∧
      bareLine (barePrinter.answer id reply ++ [10]) = barePrinter.answer id reply := by
  have hlast : barePrinter.answer id reply = (123 :: (barePrinter.member idKey
      (id.elim null decimal) ++ 44 :: barePrinter.reply reply)) ++ [125] := by
    simp [Printer.answer, barePrinter]
  refine ⟨?_, by simp [bareLine]⟩
  rw [bareLine, if_neg]
  rw [hlast, List.getLast?_concat]
  decide

theorem bareWire_eq_some {text : List UInt8} {wire : Wire Unit} (h : bareWire text = some wire) :
    ∃ id reply, text = barePrinter.answer id reply ∨ text = barePrinter.answer id reply ++ [10] := by
  obtain ⟨reply, hfind, -⟩ := Option.map_eq_some_iff.mp h
  have heq : barePrinter.answer (bareId (bareLine text)) reply = bareLine text := by
    simpa using List.find?_some hfind
  refine ⟨bareId (bareLine text), reply, ?_⟩
  rw [heq, bareLine]
  split_ifs with hlast
  · right
    obtain ⟨init, rfl⟩ : ∃ init, text = init ++ [10] := by
      exact List.getLast?_eq_some_iff.mp hlast
    simp
  · exact .inl rfl

theorem accepts_answer (id : Option ℕ) (reply : Reply Unit) (text : List UInt8)
    (h : text = barePrinter.answer id reply ∨ text = barePrinter.answer id reply ++ [10]) :
    Accepts text ∧ Headed text := by
  have hrun := (answer_bracketed (p := barePrinter) id reply).run
  obtain ⟨rest, hrest⟩ : ∃ rest, barePrinter.answer id reply = 123 :: rest := ⟨_, rfl⟩
  rcases h with rfl | rfl
  · exact ⟨⟨.shut, .inr rfl, hrun⟩, [], 123, rest, hrest, by simp, by decide⟩
  · refine ⟨⟨.shut, .inr rfl, ?_⟩, [], 123, rest ++ [10], by simp [hrest], by simp, by decide⟩
    rw [run_append, hrun]
    rfl

/-- The three programs on the shortest texts they exchange: a request with an empty source,
and empty texts in the answers. -/
def bareCodec : Codec Unit Unit where
  toPrinter := barePrinter
  request _ := bareRequest
  decode := bareDecode
  wire := bareWire
  request_keyed _ := bareRequest_keyed
  request_line _ n h := by
    simp only [bareRequest, List.mem_append, List.mem_singleton] at h
    rcases h with h | h | h
    · exact absurd h (by decide)
    · exact (kind_decimal h).2 rfl
    · exact absurd h (by decide)
  decode_request _ := bareDecode_request
  decode_accepts text x h := by
    simp only [bareDecode] at h
    split_ifs at h with htext
    rw [htext]
    exact ⟨.shut, .inr rfl, (bareRequest_keyed _).run⟩
  wire_accepts text w h := by
    obtain ⟨id, reply, heq⟩ := bareWire_eq_some h
    exact accepts_answer id reply text heq
  wire_string text w h _ := by
    obtain ⟨id, reply, heq⟩ := bareWire_eq_some h
    refine ⟨34, ?_, by decide⟩
    rcases heq with rfl | rfl <;> simp [Printer.answer, Printer.member, idKey]
  wire_answer id reply := bareWire_of_line (bareLine_answer id reply).1
  wire_line id reply := bareWire_of_line (bareLine_answer id reply).2

instance (w id : ℕ) (x : Call τ) : Decidable (x.On w id) := by
  cases x <;> simp only [Call.On] <;> infer_instance

/-- Whether a line is harmless is left to classical logic: the runs below have none. -/
noncomputable instance [DecidableEq κ] [DecidableEq γ] [DecidableEq τ] :
    DecidableRel (machine (γ := γ) c calls).enabled
  | _, .noise .. => Classical.propDecidable _
  | _, .enter .. => inferInstanceAs (Decidable (_ = _))
  | _, .acquire .. => inferInstanceAs (Decidable (_ ∧ _))
  | _, .write .. => inferInstanceAs (Decidable (_ ∧ _ ∧ _))
  | _, .read .. => inferInstanceAs (Decidable (_ ∧ _ ∧ _ ∧ _))
  | _, .readEnd .. => inferInstanceAs (Decidable (_ ∧ _ ∧ _))
  | s, .giveUp k w id => inferInstanceAs (Decidable ((s.call k).On w id))
  | _, .drop .. => inferInstanceAs (Decidable (_ ∨ _))
  | _, .reapIdle => inferInstanceAs (Decidable (_ = _))
  | _, .take .. => inferInstanceAs (Decidable (_ ∧ _ ∧ (_ → _)))
  | _, .send .. => inferInstanceAs (Decidable (_ ∧ _))
  | _, .exit .. => inferInstanceAs (Decidable True)

def sharedCalls : Calls (Fin 3) Unit ℕ := ⟨fun _ => (), fun _ => 0⟩

def bareReply : Reply Unit := .ok ⟨(), some ()⟩

/-- The first caller is dropped while it reads the answer, the second gets the rest of that
line and drops the worker, and the third is served by a new one. -/
def droppedReader : List (Action (Fin 3) Unit) :=
  [.enter 0, .enter 1, .enter 2, .acquire 0 true,
    .write 0 0 1 (bareRequest 1 ++ [10]) [],
    .take 0 (bareRequest 1) [] bareReply,
    .send 0 (barePrinter.answer (some 1) bareReply ++ [10]) [],
    .read 0 0 1 [] ((barePrinter.answer (some 1) bareReply).take 9)
      ((barePrinter.answer (some 1) bareReply).drop 9 ++ [10]),
    .drop 0, .acquire 1 true,
    .write 1 0 2 (bareRequest 2 ++ [10]) [],
    .read 1 0 2 [] ((barePrinter.answer (some 1) bareReply).drop 9 ++ [10]) [],
    .acquire 2 true,
    .write 2 1 1 (bareRequest 1 ++ [10]) [],
    .take 1 (bareRequest 1) [] bareReply,
    .send 1 (barePrinter.answer (some 1) bareReply ++ [10]) [],
    .read 2 1 1 [] (barePrinter.answer (some 1) bareReply ++ [10]) []]

theorem answers_own_droppedReader :
    ∃ s : State (Fin 3) Unit Unit ℕ, (machine bareCodec sharedCalls).Reaches init s ∧
      s.call 1 = .failed 0 ∧ s.slot ≠ some 0 ∧ s.call 2 = .answered 1 1 ⟨(), some ()⟩ ∧
      (1, (), .ok ⟨(), some ()⟩) ∈ (s.worker 1).answered := by
  obtain ⟨s, hs, hp⟩ := Machine.exists_reaches_of_exec
    (M := machine bareCodec sharedCalls) (s := init) (l := droppedReader)
    (p := fun s => decide (s.call 1 = .failed 0 ∧ s.call 2 = .answered 1 1 ⟨(), some ()⟩))
    (by decide +kernel)
  obtain ⟨hfailed, hanswered⟩ := of_decide_eq_true hp
  obtain ⟨hown, hslot⟩ := answers_own hs
  exact ⟨s, hs, hfailed, (hslot 1 0 hfailed).1, hanswered, (hown 2 1 1 _ hanswered).2.2⟩

end Atomis.InstrumentWorker
