import Atomis.RuntimeJson
import Atomis.Lib.Machine

/-!
# Probes of many threads

A probe takes a number, builds its record and writes it under a lock, so records may reach
the channel in another order than their numbers, and those of one thread never do. Whatever
the order and however the bytes are cut, the reader delivers exactly the records written.
-/

namespace Atomis.ProbeRecords
open Json Utf8 Ndjson RuntimeJson

/-- The record of a call, where its buffer has the room for what precedes the number and then
for the whole. -/
structure Runtime (Call : Type) where
  record : Call → Option (UInt64 → Option (List UInt8))

structure Emission (Call : Type) where
  thread : ℕ
  call : Call
  sequence : UInt64
  record : List UInt8

/-- `taken` counts how often the sequence number has been taken, which wraps; `begun` and
`written` are history. -/
structure State (Call : Type) where
  taken : ℕ := 0
  pending : ℕ → Option (Emission Call) := fun _ => none
  channel : List UInt8 := []
  begun : List (Emission Call) := []
  written : List (Emission Call) := []

inductive Action (Call : Type)
  | emit (thread : ℕ) (call : Call)
  | write (thread : ℕ)

section Threads

variable {Call : Type} (R : Runtime Call)

/-- Up to the lock. -/
def emit (s : State Call) (thread : ℕ) (call : Call) : State Call :=
  match R.record call with
  | none => s
  | some render =>
    let sequence := UInt64.ofNat s.taken
    match render sequence with
    | none => { s with taken := s.taken + 1 }
    | some record =>
      let emission := { thread, call, sequence, record }
      { s with
        taken := s.taken + 1
        pending := Function.update s.pending thread (some emission)
        begun := s.begun ++ [emission] }

/-- Under the lock. -/
def write (s : State Call) (thread : ℕ) : State Call :=
  match s.pending thread with
  | none => s
  | some emission =>
    { s with
      pending := Function.update s.pending thread none
      channel := s.channel ++ emission.record
      written := s.written ++ [emission] }

def machine : Machine (State Call) (Action Call) where
  enabled s
    | .emit thread _ => s.pending thread = none
    | .write thread => s.pending thread ≠ none
  next s
    | .emit thread call => emit R s thread call
    | .write thread => write s thread

def ofThread (thread : ℕ) (emissions : List (Emission Call)) : List (Emission Call) :=
  emissions.filter fun e => e.thread = thread

/-- What the runtime did for an emission. -/
def Emitted (e : Emission Call) : Prop :=
  ∃ render, R.record e.call = some render ∧ render e.sequence = some e.record

structure Inv (s : State Call) : Prop where
  emitted : ∀ e ∈ s.begun, Emitted R e
  channel : s.channel = s.written.flatMap Emission.record
  order : ∀ thread, ofThread thread s.begun =
    ofThread thread s.written ++ (s.pending thread).toList
  holder : ∀ thread, ∀ e ∈ s.pending thread, e.thread = thread
  numbered : s.taken ≤ 2 ^ 64 → (s.begun.map fun e => e.sequence.toNat).Pairwise (· < ·) ∧
    ∀ e ∈ s.begun, e.sequence.toNat < s.taken

variable {R} {s : State Call}

theorem inv_start : Inv R {} where
  emitted := by simp
  channel := rfl
  order _ := rfl
  holder := by simp
  numbered _ := ⟨List.Pairwise.nil, by simp⟩

theorem ofThread_append (thread : ℕ) (left right : List (Emission Call)) :
    ofThread thread (left ++ right) = ofThread thread left ++ ofThread thread right :=
  List.filter_append ..

theorem ofThread_singleton (thread : ℕ) (e : Emission Call) :
    ofThread thread [e] = if e.thread = thread then [e] else [] := by
  by_cases h : e.thread = thread <;> simp [ofThread, h]

theorem Inv.skip (h : Inv R s) : Inv R { s with taken := s.taken + 1 } where
  emitted := h.emitted
  channel := h.channel
  order := h.order
  holder := h.holder
  numbered htaken := by
    obtain ⟨hsorted, hbelow⟩ := h.numbered (Nat.le_of_succ_le htaken)
    exact ⟨hsorted, fun e he => Nat.lt_succ_of_lt (hbelow e he)⟩

theorem Inv.emit (h : Inv R s) {thread : ℕ} (hidle : s.pending thread = none) (call : Call) :
    Inv R (emit R s thread call) := by
  rw [ProbeRecords.emit]
  rcases hrender : R.record call with _ | render
  · exact h
  rcases hrecord : render (UInt64.ofNat s.taken) with _ | record
  · simpa [hrecord] using h.skip
  simp only [hrecord]
  refine ⟨?_, h.channel, fun other => ?_, fun other e he => ?_, fun htaken => ?_⟩
  · intro e he
    rcases List.mem_append.mp he with he | he
    · exact h.emitted e he
    · rw [List.mem_singleton.mp he]
      exact ⟨render, hrender, hrecord⟩
  · rw [ofThread_append, ofThread_singleton, h.order other]
    by_cases hother : thread = other
    · subst hother
      simp [hidle]
    · simp [hother, Function.update_of_ne (Ne.symm hother)]
  · dsimp only at he
    by_cases hother : other = thread
    · subst hother
      rw [Function.update_self] at he
      cases he
      rfl
    · rw [Function.update_of_ne hother] at he
      exact h.holder other e he
  · obtain ⟨hsorted, hbelow⟩ := h.numbered (Nat.le_of_succ_le htaken)
    have hvalue : (UInt64.ofNat s.taken).toNat = s.taken :=
      UInt64.toNat_ofNat_of_lt (Nat.lt_of_succ_le htaken)
    refine ⟨?_, fun e he => ?_⟩
    · rw [List.map_append, List.pairwise_append]
      refine ⟨hsorted, List.pairwise_singleton _ _, fun n hn m hm => ?_⟩
      obtain ⟨e, he, rfl⟩ := List.mem_map.mp hn
      rw [List.mem_singleton.mp hm]
      exact (hbelow e he).trans_eq hvalue.symm
    · rcases List.mem_append.mp he with he | he
      · exact Nat.lt_succ_of_lt (hbelow e he)
      · rw [List.mem_singleton.mp he, hvalue]
        exact Nat.lt_succ_self _

theorem Inv.write (h : Inv R s) (thread : ℕ) : Inv R (write s thread) := by
  rw [ProbeRecords.write]
  rcases hpending : s.pending thread with _ | emission
  · exact h
  have hholder := h.holder thread emission hpending
  refine ⟨h.emitted, ?_, fun other => ?_, fun other e he => ?_, h.numbered⟩
  · rw [h.channel, List.flatMap_append, List.flatMap_singleton]
  · rw [ofThread_append, ofThread_singleton, h.order other]
    by_cases hother : thread = other
    · subst hother
      simp [hpending, hholder]
    · simp [hholder, hother, Function.update_of_ne (Ne.symm hother)]
  · dsimp only at he
    by_cases hother : other = thread
    · subst hother
      simp at he
    · rw [Function.update_of_ne hother] at he
      exact h.holder other e he

theorem inv_of_reaches (h : (machine R).Reaches {} s) : Inv R s := by
  refine h.invariant (fun s action hs henabled => ?_) inv_start
  cases action with
  | emit thread call => exact hs.emit henabled call
  | write thread => exact hs.write thread

theorem mem_begun_of_written (h : Inv R s) {e : Emission Call} (he : e ∈ s.written) :
    e ∈ s.begun := by
  have hthread : e ∈ ofThread e.thread s.written := List.mem_filter.mpr ⟨he, by simp⟩
  have hbegun : e ∈ ofThread e.thread s.begun := by
    rw [h.order]
    exact List.mem_append_left _ hthread
  exact List.mem_of_mem_filter hbegun

/-- The record of a call is one line that decodes to its event. -/
structure Speaks (R : Runtime Call) (Fits : Call → Prop)
    (event : Call → UInt64 → RawProbeEvent) (line : Call → UInt64 → List Char) : Prop where
  record : ∀ e, Emitted R e → e.record = encode (line e.call e.sequence ++ ['\n'])
  short : ∀ e, Emitted R e → Fits e.call → byteLen (line e.call e.sequence) ≤ maxLine
  decodes : ∀ e, Emitted R e → Fits e.call →
    ∃ v, Text v (line e.call e.sequence) ∧ rawProbeEvent v = some (event e.call e.sequence)
  version : ∀ call n, (event call n).protocolVersion = 1 ∧ (event call n).kind = "probe_value"

/-- What the reader has made of the channel, and how that lies in what the threads did. -/
structure Arrives (event : Call → UInt64 → RawProbeEvent) (limit : ℕ) (s : State Call)
    (r : Reader RawProbeEvent) : Prop where
  delivered : r.delivered = (s.written.take limit).map fun e => event e.call e.sequence
  error : r.error =
    if s.written.length ≤ limit then none else some "Probe event count exceeds run limit"
  order : ∀ thread, ofThread thread s.begun =
    ofThread thread s.written ++ (s.pending thread).toList
  numbered : s.taken ≤ 2 ^ 64 → (s.begun.map fun e => e.sequence.toNat).Pairwise (· < ·)

theorem Speaks.isEvent {Fits : Call → Prop} {event : Call → UInt64 → RawProbeEvent}
    {line : Call → UInt64 → List Char} {serde : List Char → Except String RawProbeEvent}
    (hR : Speaks R Fits event line) (hserde : ReadsJson rawProbeEvent serde) {e : Emission Call}
    (he : Emitted R e) (hfits : Fits e.call) :
    IsEvent (probeChannel serde) (event e.call e.sequence) (line e.call e.sequence) := by
  obtain ⟨v, htext, hdecode⟩ := hR.decodes e he hfits
  refine ⟨?_, hR.short e he hfits, ?_, ?_⟩
  · obtain ⟨c, rest, hcons, -⟩ := head_ne_of_text htext
    rw [hcons]
    exact List.cons_ne_nil _ _
  · intro hmem
    exact absurd (printable_text htext _ hmem) (by decide)
  · simp [probeChannel, hserde v _ _ htext hdecode, hR.version]

theorem flatMap_record {line : Emission Call → List Char} {emissions : List (Emission Call)}
    (h : ∀ e ∈ emissions, e.record = encode (line e ++ ['\n'])) :
    emissions.flatMap Emission.record = encode (ended (emissions.map line)) := by
  induction emissions with
  | nil => rfl
  | cons e emissions ih =>
    obtain ⟨he, hrest⟩ := List.forall_mem_cons.mp h
    rw [List.flatMap_cons, he, ih hrest, ← encode_append]
    rfl

theorem Speaks.arrives {Fits : Call → Prop} {event : Call → UInt64 → RawProbeEvent}
    {line : Call → UInt64 → List Char} {serde : List Char → Except String RawProbeEvent}
    (hR : Speaks R Fits event line) (hserde : ReadsJson rawProbeEvent serde)
    (hs : (machine R).Reaches {} s) (hfits : ∀ e ∈ s.written, Fits e.call) (limit : ℕ)
    {chunks : List (List UInt8)} (hchunks : chunks.flatten = s.channel) :
    Arrives event limit s (Reader.read (probeChannel serde) limit chunks) := by
  have hinv := inv_of_reaches hs
  have hemitted : ∀ e ∈ s.written, Emitted R e := fun e he =>
    hinv.emitted e (mem_begun_of_written hinv he)
  have hbytes : chunks.flatten =
      encode (ended (s.written.map fun e => line e.call e.sequence)) := by
    rw [hchunks, hinv.channel]
    exact flatMap_record fun e he => hR.record e (hemitted e he)
  have hevents : ∀ e ∈ s.written, IsEvent (probeChannel serde) (event e.call e.sequence)
      (line e.call e.sequence) := fun e he => hR.isEvent hserde (hemitted e he) (hfits e he)
  obtain ⟨hdelivered, herror⟩ := read_isEvent hevents limit hbytes
  exact ⟨hdelivered, herror, hinv.order, fun htaken => (hinv.numbered htaken).1⟩

end Threads

end Atomis.ProbeRecords
