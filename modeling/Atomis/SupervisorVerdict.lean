import Atomis.Supervisor
import Atomis.Utf8Carry

/-!
# What the supervisor says of a process

The loop of `run_inner` with the chunks it reads, the text it hands on and the
quiet timer, over the model of its processes. What is said of limits and text,
and when the loop ends, holds of every run; a timeout is only said of a process
that was there at the deadline in every run in which the loop sees the exit
before the deadline passes and takes the deadline only before the exit.
-/

namespace Atomis.Supervisor
open Util (Utf8Carry)

def quietMs : ℕ := 150

/-- `listens p` is whether there is a callback for the pipe, `quiet` whether there is one
for a pause of the output. -/
structure Options (ι : Type*) where
  config : Config ι
  listens : Pipe → Bool
  quiet : Bool

/-- One stream's decoder and result, the texts its callback was given, and the chunks read. -/
structure Output where
  decoder : Utf8Carry
  text : List Char
  calls : List (List Char)
  chunks : List (List UInt8)

structure Run (ι : Type*) where
  core : State ι
  output : Pipe → Output
  probed : List (List UInt8)
  quietAt : Option ℕ
  exitedAt : Option ℕ

variable {ι : Type*} [DecidableEq ι]

def start (o : Options ι) : Run ι :=
  ⟨init o.config, fun _ => ⟨{}, [], [], []⟩, [], none, none⟩

def Output.give (x : Output) (listens : Bool) (text : List Char) : Output :=
  { x with
    text := x.text ++ text
    calls := if listens then x.calls ++ [text] else x.calls }

def Output.decode (x : Output) (listens : Bool) (chunk : List UInt8) : Output :=
  { x.give listens (x.decoder.decode chunk).1 with decoder := (x.decoder.decode chunk).2 }

/-- The tail is pushed and handed on when there is one. -/
def Output.finish (x : Output) (listens : Bool) : Output :=
  let y := if x.decoder.finish.1 = [] then x else x.give listens x.decoder.finish.1
  { y with decoder := x.decoder.finish.2 }

def Run.flush (o : Options ι) (s : Run ι) : Run ι :=
  { s with output := fun p =>
      if p ≠ .probe ∧ s.core.capped p = false then (s.output p).finish (o.listens p)
      else s.output p }

/-- After the loop the decoders are finished. -/
def Run.leave (o : Options ι) (before : State ι) (s : Run ι) : Run ι :=
  if before.status = .looping ∧ s.core.status = .returned then s.flush o else s

/-- What a read does beside the counting. -/
def Run.hear (o : Options ι) (s : Run ι) (p : Pipe) (chunk : List UInt8) : Run ι :=
  let x := { s.output p with chunks := (s.output p).chunks ++ [chunk] }
  if s.core.capped p then { s with output := Function.update s.output p x }
  else if p = .probe then
    { s with
      output := Function.update s.output p x
      probed := if o.listens p then s.probed ++ [chunk] else s.probed }
  else
    { s with
      output := Function.update s.output p (x.decode (o.listens p) chunk)
      quietAt := if o.quiet then some (s.core.now + quietMs) else s.quietAt }

inductive Event (ι : Type*)
  | core (a : Action ι)
  | read (p : Pipe) (chunk : List UInt8)
  | takeQuiet

def Action.isRead : Action ι → Bool
  | .takeRead .. => true
  | _ => false

namespace Run

def enabled (o : Options ι) (s : Run ι) : Event ι → Prop
  | .core a => a.isRead = false ∧ Supervisor.enabled o.config s.core a
  | .read p chunk => Supervisor.enabled o.config s.core (.takeRead p chunk.length)
  | .takeQuiet => s.core.status = .looping ∧ s.quietAt.any (· ≤ s.core.now) = true

def next (o : Options ι) (s : Run ι) : Event ι → Run ι
  | .core a =>
    let core := Supervisor.next o.config s.core a
    leave o s.core { s with
      core := core
      exitedAt := if s.core.alive o.config.main && !core.alive o.config.main then some s.core.now
        else s.exitedAt }
  | .read p chunk =>
    leave o s.core
      { s.hear o p chunk with core := Supervisor.next o.config s.core (.takeRead p chunk.length) }
  | .takeQuiet => leave o s.core { s with quietAt := none, core := s.core.settle }

def machine (o : Options ι) : Machine (Run ι) (Event ι) := ⟨enabled o, next o⟩

end Run

/-! ## What was read and what is shown of it -/

def total (chunks : List (List UInt8)) : ℕ := (chunks.map List.length).sum

/-- The chunks up to and including the one with which more than `limit` bytes were read,
`n` before them. -/
def upTo (limit : ℕ) : ℕ → List (List UInt8) → List (List UInt8)
  | _, [] => []
  | n, chunk :: chunks =>
    if limit < n + chunk.length then [chunk] else chunk :: upTo limit (n + chunk.length) chunks

/-- The chunks decoded one after the other, without the end of the stream. -/
def decodeChunks (carry : Utf8Carry) : List (List UInt8) → List Char × Utf8Carry
  | [] => ([], carry)
  | chunk :: chunks =>
    let later := decodeChunks (carry.decode chunk).2 chunks
    ((carry.decode chunk).1 ++ later.1, later.2)

/-- What is to be shown of a stream's chunks. -/
def shown (limit : ℕ) (chunks : List (List UInt8)) : List Char :=
  if limit < total chunks then (decodeChunks {} (upTo limit 0 chunks)).1
  else Utf8Carry.decodeAll {} chunks

theorem total_snoc (chunks : List (List UInt8)) (chunk : List UInt8) :
    total (chunks ++ [chunk]) = total chunks + chunk.length := by
  simp [total]

theorem upTo_of_le {limit n : ℕ} {chunks : List (List UInt8)} (h : n + total chunks ≤ limit) :
    upTo limit n chunks = chunks := by
  induction chunks generalizing n with
  | nil => rfl
  | cons chunk chunks ih =>
    have htotal : total (chunk :: chunks) = chunk.length + total chunks := rfl
    rw [upTo, if_neg (by omega), ih (by omega)]

theorem upTo_snoc_of_le {limit n : ℕ} {chunks : List (List UInt8)} (h : n + total chunks ≤ limit)
    (chunk : List UInt8) : upTo limit n (chunks ++ [chunk]) = chunks ++ [chunk] := by
  induction chunks generalizing n with
  | nil =>
    simp only [List.nil_append, upTo]
    split_ifs <;> rfl
  | cons first chunks ih =>
    have htotal : total (first :: chunks) = first.length + total chunks := rfl
    rw [List.cons_append, upTo, if_neg (by omega), ih (by omega)]

theorem upTo_snoc_of_lt {limit n : ℕ} {chunks : List (List UInt8)} (h : limit < n + total chunks)
    (hn : n ≤ limit) (chunk : List UInt8) :
    upTo limit n (chunks ++ [chunk]) = upTo limit n chunks := by
  induction chunks generalizing n with
  | nil =>
    have htotal : total [] = 0 := rfl
    omega
  | cons first chunks ih =>
    have htotal : total (first :: chunks) = first.length + total chunks := rfl
    rw [List.cons_append, upTo, upTo]
    split_ifs
    · rfl
    · rw [ih (by omega) (by omega)]

theorem decodeChunks_snoc (carry : Utf8Carry) (chunks : List (List UInt8)) (chunk : List UInt8) :
    decodeChunks carry (chunks ++ [chunk]) =
      ((decodeChunks carry chunks).1 ++ ((decodeChunks carry chunks).2.decode chunk).1,
        ((decodeChunks carry chunks).2.decode chunk).2) := by
  induction chunks generalizing carry with
  | nil => simp [decodeChunks]
  | cons first chunks ih => simp only [List.cons_append, decodeChunks, ih, List.append_assoc]

theorem decodeAll_eq_decodeChunks (carry : Utf8Carry) (chunks : List (List UInt8)) :
    Utf8Carry.decodeAll carry chunks =
      (decodeChunks carry chunks).1 ++ (decodeChunks carry chunks).2.finish.1 := by
  induction chunks generalizing carry with
  | nil => rfl
  | cons chunk chunks ih =>
    simp only [Utf8Carry.decodeAll, decodeChunks, ih, List.append_assoc]

/-! ## What the branches leave alone -/

section
variable {c : Config ι} {s : State ι}

omit [DecidableEq ι] in
theorem settle_counts (s : State ι) : s.settle.bytes = s.bytes ∧ s.settle.capped = s.capped ∧
    s.settle.limit = s.limit ∧ s.settle.now = s.now ∧ s.settle.alive = s.alive ∧
    s.settle.exited = s.exited ∧ s.settle.timedOut = s.timedOut := by
  unfold State.settle
  split_ifs <;> exact ⟨rfl, rfl, rfl, rfl, rfl, rfl, rfl⟩

omit [DecidableEq ι] in
theorem terminate_counts (s : State ι) : s.terminate.bytes = s.bytes ∧
    s.terminate.capped = s.capped ∧ s.terminate.limit = s.limit ∧ s.terminate.now = s.now ∧
    s.terminate.alive = s.alive ∧ s.terminate.exited = s.exited ∧
    s.terminate.timedOut = s.timedOut := by
  unfold State.terminate
  split_ifs <;> exact ⟨rfl, rfl, rfl, rfl, rfl, rfl, rfl⟩

theorem counts_next {a : Action ι} (ha : a.isRead = false) :
    (next c s a).bytes = s.bytes ∧ (next c s a).capped = s.capped ∧
      (next c s a).limit = s.limit := by
  cases a with
  | takeRead => cases ha
  | takeCancel =>
    obtain ⟨hb, hc, hl, -⟩ := settle_counts (State.terminate { s with cancelled := true })
    obtain ⟨hb', hc', hl', -⟩ := terminate_counts { s with cancelled := true }
    exact ⟨hb.trans hb', hc.trans hc', hl.trans hl'⟩
  | takeTimeout =>
    obtain ⟨hb, hc, hl, -⟩ := settle_counts (State.terminate { s with timedOut := true })
    obtain ⟨hb', hc', hl', -⟩ := terminate_counts { s with timedOut := true }
    exact ⟨hb.trans hb', hc.trans hc', hl.trans hl'⟩
  | takeDrain =>
    obtain ⟨hb, hc, hl, -⟩ := settle_counts s.terminate.giveUp
    obtain ⟨hb', hc', hl', -⟩ := terminate_counts s
    exact ⟨hb.trans hb', hc.trans hc', hl.trans hl'⟩
  | takeEnd | takeError | takeWait =>
    obtain ⟨hb, hc, hl, -⟩ := settle_counts _
    exact ⟨hb, hc, hl⟩
  | _ => exact ⟨rfl, rfl, rfl⟩

theorem counts_read (p : Pipe) (n : ℕ) :
    (next c s (.takeRead p n)).bytes = Function.update s.bytes p (s.bytes p + n) ∧
      (next c s (.takeRead p n)).capped =
        Function.update s.capped p (s.capped p || decide (c.limit p < s.bytes p + n)) ∧
      (next c s (.takeRead p n)).limit =
        if s.capped p = false ∧ c.limit p < s.bytes p + n then some p else s.limit := by
  obtain ⟨hb, hc, hl, -⟩ := settle_counts (s.receive c p n)
  simp only [next, hb, hc, hl]
  simp only [State.receive, Function.update_self]
  split_ifs with h
  · obtain ⟨hb', hc', hl', -⟩ := terminate_counts { s with
      buffered := Function.update s.buffered p (s.buffered p - n)
      bytes := Function.update s.bytes p (s.bytes p + n)
      capped := Function.update s.capped p true
      limit := some p }
    exact ⟨hb', hc'.trans (by simp [h.2]), hl'⟩
  · refine ⟨rfl, ?_, rfl⟩
    rw [eq_comm, Function.update_eq_self_iff]
    cases hcap : s.capped p <;> simp_all

/-- A loop that has ended stays ended. -/
theorem status_next {a : Action ι} (ha : enabled c s a) (hs : s.status ≠ .looping) :
    (next c s a).status = s.status := by
  cases a with
  | takeCancel | takeTimeout | takeDrain | takeRead | takeEnd | takeError | takeWait =>
    exact (hs ha.1).elim
  | drop => exact (hs ha).elim
  | _ => rfl

end

/-! ## Limits and text over a run -/

/-- The counts of every pipe and what its callback was given. -/
structure Counted (o : Options ι) (s : Run ι) : Prop where
  bytes : ∀ p, s.core.bytes p = total (s.output p).chunks
  capped : ∀ p, s.core.capped p = true ↔ o.config.limit p < total (s.output p).chunks
  named : ∀ p ∈ s.core.limit, s.core.capped p = true
  limited : ∀ p, s.core.capped p = true → s.core.limit.isSome = true
  called : ∀ p, p ≠ .probe → o.listens p = true →
    (s.output p).calls.flatten = (s.output p).text

/-- The stream's text while the loop runs. -/
structure Streaming (o : Options ι) (s : Run ι) (p : Pipe) : Prop where
  text : (s.output p).text =
    (decodeChunks {} (upTo (o.config.limit p) 0 (s.output p).chunks)).1
  decoder : s.core.capped p = false →
    (s.output p).decoder = (decodeChunks {} (s.output p).chunks).2

structure TextInv (o : Options ι) (s : Run ι) : Prop where
  counted : Counted o s
  streaming : s.core.status ≠ .returned → ∀ p, p ≠ .probe → Streaming o s p
  complete : s.core.status = .returned → ∀ p, p ≠ .probe →
    (s.output p).text = shown (o.config.limit p) (s.output p).chunks

variable {o : Options ι} {s : Run ι}

theorem textInv_start (o : Options ι) : TextInv o (start o) := by
  refine ⟨⟨fun _ => rfl, fun p => ?_, fun p hp => (by cases hp), fun p hp => (by cases hp),
    fun _ _ _ => rfl⟩, fun _ p _ => ⟨rfl, fun _ => rfl⟩, fun hs => by cases hs⟩
  simp [start, init, total]

theorem give_calls {x : Output} {listens : Bool} (hl : listens = true)
    (h : x.calls.flatten = x.text) (text : List Char) :
    (x.give listens text).calls.flatten = (x.give listens text).text := by
  simp [Output.give, hl, h]

theorem finish_text (x : Output) (listens : Bool) :
    (x.finish listens).text = x.text ++ x.decoder.finish.1 := by
  simp only [Output.finish]
  split_ifs with h
  · simp [h]
  · rfl

theorem finish_calls {x : Output} {listens : Bool} (hl : listens = true)
    (h : x.calls.flatten = x.text) :
    (x.finish listens).calls.flatten = (x.finish listens).text := by
  simp only [Output.finish]
  split_ifs
  · exact h
  · exact give_calls hl h _

theorem finish_chunks (x : Output) (listens : Bool) : (x.finish listens).chunks = x.chunks := by
  simp only [Output.finish]
  split_ifs <;> rfl

omit [DecidableEq ι] in
theorem flush_chunks (p : Pipe) : ((s.flush o).output p).chunks = (s.output p).chunks := by
  simp only [Run.flush]
  split_ifs
  · exact finish_chunks ..
  · rfl

omit [DecidableEq ι] in
theorem Counted.flush (h : Counted o s) : Counted o (s.flush o) := by
  refine ⟨fun p => ?_, fun p => ?_, h.named, h.limited, fun p hp hl => ?_⟩
  · rw [flush_chunks]
    exact h.bytes p
  · rw [flush_chunks]
    exact h.capped p
  · simp only [Run.flush]
    split_ifs
    · exact finish_calls hl (h.called p hp hl)
    · exact h.called p hp hl

omit [DecidableEq ι] in
/-- Finishing the decoders completes what is shown of each stream. -/
theorem Counted.flush_shown (h : Counted o s) {p : Pipe} (hp : p ≠ .probe)
    (hs : Streaming o s p) :
    ((s.flush o).output p).text = shown (o.config.limit p) ((s.flush o).output p).chunks := by
  rw [flush_chunks]
  have hcap := h.capped p
  simp only [Run.flush, shown]
  cases hc : s.core.capped p with
  | true =>
    rw [if_neg (by simp), if_pos (hcap.mp hc)]
    exact hs.text
  | false =>
    have hle : ¬ o.config.limit p < total (s.output p).chunks := fun hlt => by
      rw [hcap.mpr hlt] at hc
      cases hc
    rw [if_pos ⟨hp, rfl⟩, if_neg hle, finish_text, hs.text, hs.decoder hc,
      upTo_of_le (by omega), decodeAll_eq_decodeChunks]

omit [DecidableEq ι] in
/-- A step that runs the loop on, or ends it. -/
theorem TextInv.leave {before : State ι} (hcount : Counted o s)
    (hstream : before.status ≠ .returned → ∀ p, p ≠ .probe → Streaming o s p)
    (hshown : before.status = .returned → ∀ p, p ≠ .probe →
      (s.output p).text = shown (o.config.limit p) (s.output p).chunks)
    (hstatus : before.status ≠ .looping → s.core.status = before.status) :
    TextInv o (s.leave o before) := by
  simp only [Run.leave]
  split_ifs with h
  · have hs := hstream (by rw [h.1]; simp)
    exact ⟨hcount.flush, fun hne => (hne h.2).elim, fun _ p hp => hcount.flush_shown hp (hs p hp)⟩
  · refine ⟨hcount, fun hne => hstream fun hb => ?_, fun hret => hshown ?_⟩
    · exact hne ((hstatus (by rw [hb]; simp)).trans hb)
    · by_contra hb
      by_cases hloop : before.status = .looping
      · exact h ⟨hloop, hret⟩
      · exact hb ((hstatus hloop).symm.trans hret)

omit [DecidableEq ι] in
theorem hear_other {p q : Pipe} (hq : q ≠ p) (chunk : List UInt8) :
    (s.hear o p chunk).output q = s.output q := by
  simp only [Run.hear]
  split_ifs <;> simp [hq]

omit [DecidableEq ι] in
theorem hear_chunks (p : Pipe) (chunk : List UInt8) :
    ((s.hear o p chunk).output p).chunks = (s.output p).chunks ++ [chunk] := by
  simp only [Run.hear]
  split_ifs <;> simp [Output.decode, Output.give]

omit [DecidableEq ι] in
theorem hear_called {p : Pipe} (hp : p ≠ .probe) (hl : o.listens p = true)
    (h : (s.output p).calls.flatten = (s.output p).text) (chunk : List UInt8) :
    ((s.hear o p chunk).output p).calls.flatten = ((s.hear o p chunk).output p).text := by
  cases hc : s.core.capped p with
  | true =>
    simp only [Run.hear, hc, ↓reduceIte, Function.update_self]
    exact h
  | false =>
    simp only [Run.hear, hc, hp, Bool.false_eq_true, ↓reduceIte, Function.update_self]
    exact give_calls (x := { s.output p with chunks := (s.output p).chunks ++ [chunk] }) hl h _

omit [DecidableEq ι] in
/-- A capped stream shows no more, an uncapped one the next chunk. -/
theorem Counted.hear_text (h : Counted o s) {p : Pipe} (hp : p ≠ .probe) (hs : Streaming o s p)
    (chunk : List UInt8) :
    ((s.hear o p chunk).output p).text =
        (decodeChunks {} (upTo (o.config.limit p) 0 ((s.output p).chunks ++ [chunk]))).1 ∧
      (s.core.capped p = false → ((s.hear o p chunk).output p).decoder =
        (decodeChunks {} ((s.output p).chunks ++ [chunk])).2) := by
  have hcap := h.capped p
  cases hc : s.core.capped p with
  | true =>
    have hlt := hcap.mp hc
    simp only [Run.hear, hc, ↓reduceIte, Function.update_self]
    rw [upTo_snoc_of_lt (by omega) (Nat.zero_le _)]
    exact ⟨hs.text, fun hf => by cases hf⟩
  | false =>
    have hle : ¬ o.config.limit p < total (s.output p).chunks := fun hlt => by
      rw [hcap.mpr hlt] at hc
      cases hc
    have hdec := hs.decoder hc
    have htext := hs.text
    rw [upTo_of_le (by omega)] at htext
    simp only [Run.hear, hc, hp, Bool.false_eq_true, ↓reduceIte, Function.update_self,
      Output.decode, Output.give]
    rw [upTo_snoc_of_le (by omega), decodeChunks_snoc, ← hdec, htext]
    exact ⟨rfl, fun _ => rfl⟩

theorem textInv_read (h : TextInv o s) {p : Pipe} {chunk : List UInt8}
    (ha : Run.enabled o s (.read p chunk)) : TextInv o (Run.next o s (.read p chunk)) := by
  have hloop : s.core.status = .looping := ha.1
  obtain ⟨hbytes, hcapped, hlimit⟩ :=
    counts_read (c := o.config) (s := s.core) p chunk.length
  have htotal : total ((s.hear o p chunk).output p).chunks = s.core.bytes p + chunk.length := by
    rw [hear_chunks, total_snoc, h.counted.bytes]
  have hcap := h.counted.capped
  refine TextInv.leave ⟨fun q => ?_, fun q => ?_, fun q hq => ?_, fun q hq => ?_,
    fun q hq hl => ?_⟩ (fun _ q hq => ?_) (fun hret => ?_) (fun hne => (hne hloop).elim)
  · change (Supervisor.next o.config s.core (.takeRead p chunk.length)).bytes q = _
    rw [hbytes]
    by_cases hqp : q = p
    · subst hqp
      rw [Function.update_self]
      exact htotal.symm
    · rw [Function.update_of_ne hqp]
      change _ = total ((s.hear o p chunk).output q).chunks
      rw [hear_other hqp]
      exact h.counted.bytes q
  · change (Supervisor.next o.config s.core (.takeRead p chunk.length)).capped q = true ↔
      o.config.limit q < total ((s.hear o p chunk).output q).chunks
    rw [hcapped]
    by_cases hqp : q = p
    · subst hqp
      rw [Function.update_self, htotal, Bool.or_eq_true, decide_eq_true_eq, hcap,
        ← h.counted.bytes]
      omega
    · rw [Function.update_of_ne hqp, hear_other hqp]
      exact hcap q
  · change q ∈ (Supervisor.next o.config s.core (.takeRead p chunk.length)).limit at hq
    change (Supervisor.next o.config s.core (.takeRead p chunk.length)).capped q = true
    rw [hlimit] at hq
    rw [hcapped, Function.update_apply]
    split_ifs at hq with hcross
    · rw [if_pos (Option.some.inj hq).symm]
      simp [hcross.2]
    · have hold := h.counted.named q hq
      by_cases hqp : q = p
      · subst hqp
        simp [hold]
      · rw [if_neg hqp]
        exact hold
  · change (Supervisor.next o.config s.core (.takeRead p chunk.length)).capped q = true at hq
    change (Supervisor.next o.config s.core (.takeRead p chunk.length)).limit.isSome = true
    rw [hcapped, Function.update_apply] at hq
    rw [hlimit]
    split_ifs with hcross
    · rfl
    · refine h.counted.limited q ?_
      split_ifs at hq with hqp
      · subst hqp
        rcases Bool.or_eq_true_iff.mp hq with hq | hq
        · exact hq
        · rw [decide_eq_true_eq] at hq
          by_contra hnot
          exact hcross ⟨by simpa using hnot, hq⟩
      · exact hq
  · change ((s.hear o p chunk).output q).calls.flatten = ((s.hear o p chunk).output q).text
    by_cases hqp : q = p
    · subst hqp
      exact hear_called hq hl (h.counted.called q hq hl) chunk
    · rw [hear_other hqp]
      exact h.counted.called q hq hl
  · have hstream : Streaming o s q := h.streaming (by rw [hloop]; simp) q hq
    by_cases hqp : q = p
    · subst hqp
      obtain ⟨htext, hdec⟩ := h.counted.hear_text hq hstream chunk
      refine ⟨?_, fun hc => ?_⟩
      · change ((s.hear o q chunk).output q).text = _
        rw [htext, ← hear_chunks]
      · change (Supervisor.next o.config s.core (.takeRead q chunk.length)).capped q = false at hc
        rw [hcapped, Function.update_self, Bool.or_eq_false_iff] at hc
        change ((s.hear o q chunk).output q).decoder = _
        rw [hdec hc.1, ← hear_chunks]
    · refine ⟨?_, fun hc => ?_⟩
      · change ((s.hear o p chunk).output q).text =
          (decodeChunks {} (upTo _ 0 ((s.hear o p chunk).output q).chunks)).1
        rw [hear_other hqp]
        exact hstream.text
      · change (Supervisor.next o.config s.core (.takeRead p chunk.length)).capped q = false at hc
        rw [hcapped, Function.update_of_ne hqp] at hc
        change ((s.hear o p chunk).output q).decoder =
          (decodeChunks {} ((s.hear o p chunk).output q).chunks).2
        rw [hear_other hqp]
        exact hstream.decoder hc
  · rw [hloop] at hret
    cases hret

omit [DecidableEq ι] in
/-- The counts and the text go on when a step leaves them alone. -/
theorem textInv_aside (h : TextInv o s) {t : Run ι} (houtput : t.output = s.output)
    (hbytes : t.core.bytes = s.core.bytes) (hcapped : t.core.capped = s.core.capped)
    (hlimit : t.core.limit = s.core.limit)
    (hstatus : s.core.status ≠ .looping → t.core.status = s.core.status) :
    TextInv o (t.leave o s.core) := by
  obtain ⟨⟨bytes, capped, named, limited, called⟩, streaming, complete⟩ := h
  refine TextInv.leave ⟨?_, ?_, ?_, ?_, ?_⟩ (fun hne p hp => ?_) (fun hret p hp => ?_) hstatus
  · rwa [hbytes, houtput]
  · rwa [hcapped, houtput]
  · rwa [hlimit, hcapped]
  · rwa [hlimit, hcapped]
  · rwa [houtput]
  · obtain ⟨htext, hdec⟩ := streaming hne p hp
    refine ⟨by rwa [houtput], ?_⟩
    rwa [hcapped, houtput]
  · rw [houtput]
    exact complete hret p hp

theorem textInv_step (s : Run ι) (a : Event ι) (h : TextInv o s) (ha : Run.enabled o s a) :
    TextInv o (Run.next o s a) := by
  cases a with
  | core a =>
    obtain ⟨hb, hc, hl⟩ := counts_next (c := o.config) (s := s.core) ha.1
    exact textInv_aside h rfl hb hc hl (status_next ha.2)
  | read p chunk => exact textInv_read h ha
  | takeQuiet =>
    obtain ⟨hb, hc, hl, -⟩ := settle_counts s.core
    exact textInv_aside h rfl hb hc hl (fun hne => (hne ha.1).elim)

/-! ## The deadline over a run -/

/-- The loop sees the exit of the process before the deadline passes, and takes the
deadline only before it has seen the exit. -/
def OnTime (o : Options ι) (s : Run ι) : Event ι → Prop
  | .core .takeTimeout => s.core.exited = false
  | .core (.pass ms) => s.core.status = .looping → s.core.alive o.config.main = false →
      s.core.now < o.config.timeoutMs → o.config.timeoutMs ≤ s.core.now + ms →
      s.core.exited = true
  | _ => True

structure TimeInv (o : Options ι) (s : Run ι) : Prop where
  clock : ∀ t ∈ s.exitedAt, t ≤ s.core.now
  gone : s.exitedAt.isSome = true → s.core.alive o.config.main = false
  seen : ∀ t ∈ s.exitedAt, t < o.config.timeoutMs → o.config.timeoutMs ≤ s.core.now →
    s.core.status = .looping → s.core.exited = true
  late : s.core.timedOut = true → o.config.timeoutMs ≤ s.core.now
  verdict : s.core.timedOut = true → ∀ t ∈ s.exitedAt, o.config.timeoutMs ≤ t

theorem timeInv_start (o : Options ι) : TimeInv o (start o) := by
  constructor <;> simp [start, init]

/-- What every step but the clock's and the deadline's keeps of the state. -/
structure Later (c : Config ι) (s t : State ι) : Prop where
  now : t.now = s.now
  timedOut : t.timedOut = s.timedOut
  exited : s.exited = true → t.exited = true
  status : t.status = .looping → s.status = .looping
  alive : t.alive c.main = true → s.alive c.main = true

section
variable {c : Config ι} {s t : State ι}

omit [DecidableEq ι] in
theorem Later.settle (h : Later c s t) : Later c s t.settle := by
  unfold State.settle
  split_ifs
  · exact ⟨h.now, h.timedOut, h.exited, fun hs => (by cases hs), h.alive⟩
  · exact h

omit [DecidableEq ι] in
theorem Later.terminate (h : Later c s t) : Later c s t.terminate := by
  unfold State.terminate
  split_ifs
  · exact h
  · exact ⟨h.now, h.timedOut, h.exited, h.status, h.alive⟩

omit [DecidableEq ι] in
theorem Later.refl (c : Config ι) (s : State ι) : Later c s s := ⟨rfl, rfl, id, id, id⟩

theorem later_next {a : Action ι} (ha : enabled c s a) (hpass : ∀ ms, a ≠ .pass ms)
    (htimeout : a ≠ .takeTimeout) : Later c s (next c s a) := by
  cases a with
  | pass ms => exact (hpass ms rfl).elim
  | takeTimeout => exact (htimeout rfl).elim
  | exit i =>
    refine ⟨rfl, rfl, id, id, fun hm => ?_⟩
    simp only [next, Function.update_apply] at hm
    split_ifs at hm
    exact hm
  | fork i j =>
    refine ⟨rfl, rfl, id, id, fun hm => ?_⟩
    simpa [next, Function.update_apply, ha.2.2.symm] using hm
  | takeCancel =>
    exact Later.settle (Later.terminate (t := { s with cancelled := true }) ⟨rfl, rfl, id, id, id⟩)
  | takeDrain =>
    have hterm : Later c s s.terminate := (Later.refl c s).terminate
    exact Later.settle ⟨hterm.now, hterm.timedOut, hterm.exited, hterm.status, hterm.alive⟩
  | takeRead p n =>
    refine Later.settle ?_
    simp only [State.receive]
    split_ifs
    · exact Later.terminate ⟨rfl, rfl, id, id, id⟩
    · exact ⟨rfl, rfl, id, id, id⟩
  | takeEnd | takeError => exact Later.settle ⟨rfl, rfl, id, id, id⟩
  | takeWait => exact Later.settle ⟨rfl, rfl, fun _ => rfl, id, id⟩
  | drop => exact ⟨rfl, rfl, id, fun hs => (by cases hs), id⟩
  | _ => exact ⟨rfl, rfl, id, id, id⟩

end

omit [DecidableEq ι] in
theorem leave_core (before : State ι) : (s.leave o before).core = s.core := by
  simp only [Run.leave]
  split_ifs <;> rfl

omit [DecidableEq ι] in
theorem leave_exitedAt (before : State ι) : (s.leave o before).exitedAt = s.exitedAt := by
  simp only [Run.leave]
  split_ifs <;> rfl

omit [DecidableEq ι] in
theorem TimeInv.later {t : Run ι} (h : TimeInv o s) (hl : Later o.config s.core t.core)
    (hexit : t.exitedAt = s.exitedAt ∨
      t.exitedAt = some s.core.now ∧ t.core.alive o.config.main = false) : TimeInv o t := by
  have halive : s.core.alive o.config.main = false → t.core.alive o.config.main = false := fun hs => by
    cases ht : t.core.alive o.config.main with
    | false => rfl
    | true =>
      rw [hl.alive ht] at hs
      cases hs
  rcases hexit with hsame | ⟨hnow, hgone⟩
  · refine ⟨?_, fun hs => halive (h.gone (hsame ▸ hs)), ?_, ?_, ?_⟩
    · rw [hsame, hl.now]
      exact h.clock
    · rw [hsame, hl.now]
      exact fun t ht hlt hle hs => hl.exited (h.seen t ht hlt hle (hl.status hs))
    · rw [hl.timedOut, hl.now]
      exact h.late
    · rw [hl.timedOut, hsame]
      exact h.verdict
  · have hmem : ∀ x ∈ t.exitedAt, x = s.core.now := fun x hx => by
      rw [hnow] at hx
      exact (Option.some.inj hx).symm
    refine ⟨fun x hx => ?_, fun _ => hgone, fun x hx hlt hle => ?_, ?_, fun ht x hx => ?_⟩
    · rw [hmem x hx, hl.now]
    · have := hmem x hx
      rw [hl.now] at hle
      omega
    · rw [hl.timedOut, hl.now]
      exact h.late
    · rw [hmem x hx]
      exact h.late (hl.timedOut ▸ ht)

/-- Nothing but the clock of the core changes, and no pass takes it over an unseen exit. -/
theorem TimeInv.pass (h : TimeInv o s) {ms : ℕ} (hok : OnTime o s (.core (.pass ms))) :
    TimeInv o (Run.next o s (.core (.pass ms))) := by
  have hcore : (Run.next o s (.core (.pass ms))).core = { s.core with now := s.core.now + ms } :=
    leave_core _
  have hexit : (Run.next o s (.core (.pass ms))).exitedAt = s.exitedAt := by
    rw [Run.next, leave_exitedAt]
    exact if_neg (by simp [Supervisor.next])
  refine ⟨?_, ?_, ?_, ?_, ?_⟩
  · rw [hcore, hexit]
    exact fun t ht => (h.clock t ht).trans (Nat.le_add_right ..)
  · rw [hcore, hexit]
    exact h.gone
  · rw [hcore, hexit]
    intro t ht hlt hle hs
    by_cases hnow : s.core.now < o.config.timeoutMs
    · exact hok hs (h.gone (Option.isSome_of_mem ht)) hnow hle
    · exact h.seen t ht hlt (by omega) hs
  · rw [hcore]
    exact fun ht => (h.late ht).trans (Nat.le_add_right ..)
  · rw [hcore, hexit]
    exact h.verdict

theorem TimeInv.timeout (h : TimeInv o s) (ha : enabled o.config s.core .takeTimeout)
    (hok : s.core.exited = false) : TimeInv o (Run.next o s (.core .takeTimeout)) := by
  have hl : Later o.config { s.core with timedOut := true }
      (Supervisor.next o.config s.core .takeTimeout) :=
    Later.settle (Later.terminate (Later.refl o.config { s.core with timedOut := true }))
  have halive : (Supervisor.next o.config s.core .takeTimeout).alive = s.core.alive := by
    obtain ⟨-, -, -, -, ha, -⟩ := settle_counts (State.terminate { s.core with timedOut := true })
    obtain ⟨-, -, -, -, ha', -⟩ := terminate_counts { s.core with timedOut := true }
    exact ha.trans ha'
  have hcore : (Run.next o s (.core .takeTimeout)).core =
      Supervisor.next o.config s.core .takeTimeout := leave_core _
  have hexit : (Run.next o s (.core .takeTimeout)).exitedAt = s.exitedAt := by
    rw [Run.next, leave_exitedAt]
    exact if_neg (by simp [halive])
  have hthen : ∀ t ∈ s.exitedAt, o.config.timeoutMs ≤ t := fun t ht => by
    by_contra hlt
    have hseen := h.seen t ht (by omega) ha.2.1 ha.1
    rw [hok] at hseen
    cases hseen
  refine ⟨?_, ?_, ?_, ?_, ?_⟩
  · rw [hcore, hexit, hl.now]
    exact h.clock
  · rw [hcore, hexit, halive]
    exact h.gone
  · rw [hcore, hexit, hl.now]
    exact fun t ht hlt hle _ => hl.exited (h.seen t ht hlt hle ha.1)
  · rw [hcore, hl.now]
    exact fun _ => ha.2.1
  · rw [hexit]
    exact fun _ => hthen

theorem timeInv_step (s : Run ι) (a : Event ι) (h : TimeInv o s)
    (ha : ((Run.machine o).restrict (OnTime o)).enabled s a) : TimeInv o (Run.next o s a) := by
  obtain ⟨hen, hok⟩ := ha
  cases a with
  | read p chunk =>
    have hread : Supervisor.enabled o.config s.core (.takeRead p chunk.length) := hen
    have hl := later_next hread (by simp) (by simp)
    refine h.later ?_ (.inl ?_)
    · rw [Run.next, leave_core]
      exact hl
    · rw [Run.next, leave_exitedAt]
      simp only [Run.hear]
      split_ifs <;> rfl
  | takeQuiet =>
    refine h.later ?_ (.inl ?_)
    · rw [Run.next, leave_core]
      exact (Later.refl o.config s.core).settle
    · rw [Run.next, leave_exitedAt]
  | core a =>
    by_cases hpass : ∃ ms, a = .pass ms
    · obtain ⟨ms, rfl⟩ := hpass
      exact h.pass hok
    · by_cases htimeout : a = .takeTimeout
      · subst htimeout
        exact h.timeout hen.2 hok
      · have hl := later_next hen.2 (fun ms hms => hpass ⟨ms, hms⟩) htimeout
        refine h.later ?_ ?_
        · rw [Run.next, leave_core]
          exact hl
        · rw [Run.next, leave_exitedAt, leave_core]
          dsimp only
          split_ifs with hdies
          · exact .inr ⟨rfl, by simpa using (Bool.and_eq_true_iff.mp hdies).2⟩
          · exact .inl rfl

/-! ## The end of the loop -/

/-- The loop does not go on once the exit is seen and every pipe is done. -/
def Unfinished (s : State ι) : Prop := s.status = .looping → (s.exited && s.allDone) = false

omit [DecidableEq ι] in
theorem unfinished_settle (s : State ι) : Unfinished s.settle := by
  unfold State.settle Unfinished
  split_ifs with h
  · exact fun hs => by cases hs
  · simpa using fun _ => h

theorem unfinished_next {c : Config ι} {s : State ι} (h : Unfinished s) (a : Action ι) :
    Unfinished (next c s a) := by
  cases a with
  | takeCancel | takeTimeout | takeDrain | takeRead | takeEnd | takeError | takeWait =>
    exact unfinished_settle _
  | drop => exact fun hs => by cases hs
  | _ => exact h

/-- The branch a `select!` in the source's order takes once the drain window has passed. -/
def Run.branch (o : Options ι) (s : Run ι) : Event ι :=
  if s.core.cancelRequested && !s.core.cancelled then .core .takeCancel
  else if o.config.timeoutMs ≤ s.core.now ∧ s.core.timedOut = false ∧ s.core.terminating = false then
    .core .takeTimeout
  else if s.quietAt.any (· ≤ s.core.now) then .takeQuiet
  else .core .takeDrain

/-- The loop runs on although the exit is seen and the drain window has passed. -/
structure Drained (s : Run ι) : Prop where
  looping : s.core.status = .looping
  exited : s.core.exited = true
  window : s.core.drainDeadline.any (· ≤ s.core.now) = true

omit [DecidableEq ι] in
theorem Drained.branch_enabled (h : Drained s) : Run.enabled o s (s.branch o) := by
  simp only [Run.branch]
  split_ifs with hc ht hq
  · rw [Bool.and_eq_true] at hc
    exact ⟨rfl, h.looping, hc.1, by simpa using hc.2⟩
  · exact ⟨rfl, h.looping, ht⟩
  · exact ⟨h.looping, hq⟩
  · exact ⟨rfl, h.looping, h.window⟩

/-- The branches that may still come before the drain. -/
def Run.ahead (o : Options ι) (s : Run ι) : ℕ :=
  (if s.core.cancelRequested && !s.core.cancelled then 1 else 0) +
    (if o.config.timeoutMs ≤ s.core.now ∧ s.core.timedOut = false ∧ s.core.terminating = false
      then 1 else 0) +
    if s.quietAt.any (· ≤ s.core.now) then 1 else 0

omit [DecidableEq ι] in
theorem settle_cases (s : State ι) :
    s.settle.status = .returned ∨ s.settle = s := by
  unfold State.settle
  split_ifs
  · exact .inl rfl
  · exact .inr rfl

omit [DecidableEq ι] in
theorem settle_returned {s : State ι} (hexit : s.exited = true) (hdone : ∀ p, s.reading p ≠ .reading) :
    s.settle.status = .returned := by
  unfold State.settle
  rw [if_pos]
  rw [hexit, allDone_iff.mpr hdone]
  rfl

theorem drain_returns {c : Config ι} {s : State ι} (hexit : s.exited = true) :
    (next c s .takeDrain).status = .returned := by
  refine settle_returned ?_ fun p => ?_
  · exact (terminate_counts s).2.2.2.2.2.1.trans hexit
  · simp only [State.giveUp]
    split_ifs with hp
    · simp
    · exact hp

omit [DecidableEq ι] in
theorem terminate_loop (s : State ι) : s.terminate.status = s.status ∧
    s.terminate.cancelRequested = s.cancelRequested ∧ s.terminate.cancelled = s.cancelled ∧
    s.terminate.drainDeadline = s.drainDeadline := by
  unfold State.terminate
  split_ifs <;> exact ⟨rfl, rfl, rfl, rfl⟩

omit [DecidableEq ι] in
theorem leave_quietAt (before : State ι) : (s.leave o before).quietAt = s.quietAt := by
  simp only [Run.leave]
  split_ifs <;> rfl

theorem next_core (a : Action ι) :
    (Run.next o s (.core a)).core = Supervisor.next o.config s.core a ∧
      (Run.next o s (.core a)).quietAt = s.quietAt :=
  ⟨leave_core _, leave_quietAt _⟩

theorem Drained.cancel (h : Drained s) (hc : (s.core.cancelRequested && !s.core.cancelled) = true) :
    (Run.next o s (.core .takeCancel)).core.status = .returned ∨
      Drained (Run.next o s (.core .takeCancel)) ∧
        (Run.next o s (.core .takeCancel)).ahead o < s.ahead o := by
  obtain ⟨hcore, hquiet⟩ := next_core (o := o) (s := s) .takeCancel
  generalize Run.next o s (.core .takeCancel) = t at hcore hquiet
  rcases settle_cases (State.terminate { s.core with cancelled := true }) with hret | hsame
  · exact .inl (by rw [hcore]; exact hret)
  · replace hcore : t.core = State.terminate { s.core with cancelled := true } := hcore.trans hsame
    obtain ⟨hst, -, hcan, hdl⟩ := terminate_loop { s.core with cancelled := true }
    obtain ⟨-, -, -, hnow, -, hex, -⟩ := terminate_counts { s.core with cancelled := true }
    have hterm := terminate_terminating { s.core with cancelled := true }
    refine .inr ⟨⟨?_, ?_, ?_⟩, ?_⟩
    · rw [hcore, hst]
      exact h.looping
    · rw [hcore, hex]
      exact h.exited
    · rw [hcore, hdl, hnow]
      exact h.window
    · simp only [Run.ahead, hcore, hquiet, hcan, hterm, hnow, if_pos hc, Bool.not_true,
        Bool.and_false, Bool.false_eq_true, Bool.true_eq_false, and_false, if_false]
      omega

theorem Drained.timeout (h : Drained s)
    (hc : ¬ (s.core.cancelRequested && !s.core.cancelled) = true)
    (ht : o.config.timeoutMs ≤ s.core.now ∧ s.core.timedOut = false ∧ s.core.terminating = false) :
    (Run.next o s (.core .takeTimeout)).core.status = .returned ∨
      Drained (Run.next o s (.core .takeTimeout)) ∧
        (Run.next o s (.core .takeTimeout)).ahead o < s.ahead o := by
  obtain ⟨hcore, hquiet⟩ := next_core (o := o) (s := s) .takeTimeout
  generalize Run.next o s (.core .takeTimeout) = t at hcore hquiet
  rcases settle_cases (State.terminate { s.core with timedOut := true }) with hret | hsame
  · exact .inl (by rw [hcore]; exact hret)
  · replace hcore : t.core = State.terminate { s.core with timedOut := true } := hcore.trans hsame
    obtain ⟨hst, hreq, hcan, hdl⟩ := terminate_loop { s.core with timedOut := true }
    obtain ⟨-, -, -, hnow, -, hex, -⟩ := terminate_counts { s.core with timedOut := true }
    have hterm := terminate_terminating { s.core with timedOut := true }
    refine .inr ⟨⟨?_, ?_, ?_⟩, ?_⟩
    · rw [hcore, hst]
      exact h.looping
    · rw [hcore, hex]
      exact h.exited
    · rw [hcore, hdl, hnow]
      exact h.window
    · simp only [Run.ahead, hcore, hquiet, hreq, hcan, hterm, hnow, if_neg hc, if_pos ht]
      simp

theorem Drained.quiet (h : Drained s) (hq : s.quietAt.any (· ≤ s.core.now) = true) :
    (Run.next o s .takeQuiet).core.status = .returned ∨
      Drained (Run.next o s .takeQuiet) ∧ (Run.next o s .takeQuiet).ahead o < s.ahead o := by
  have hcore : (Run.next o s .takeQuiet).core = s.core.settle := leave_core _
  have hquiet : (Run.next o s .takeQuiet).quietAt = none := leave_quietAt _
  generalize Run.next o s .takeQuiet = t at hcore hquiet
  rcases settle_cases s.core with hret | hsame
  · exact .inl (by rw [hcore]; exact hret)
  · rw [hsame] at hcore
    refine .inr ⟨⟨?_, ?_, ?_⟩, ?_⟩
    · rw [hcore]
      exact h.looping
    · rw [hcore]
      exact h.exited
    · rw [hcore]
      exact h.window
    · simp only [Run.ahead, hcore, hquiet, if_pos hq]
      simp

/-- Each branch before the drain comes once. -/
theorem Drained.step (h : Drained s) :
    (Run.next o s (s.branch o)).core.status = .returned ∨
      Drained (Run.next o s (s.branch o)) ∧ (Run.next o s (s.branch o)).ahead o < s.ahead o := by
  simp only [Run.branch]
  split_ifs with hc ht hq
  · exact h.cancel hc
  · exact h.timeout hc ht
  · exact h.quiet hq
  · refine .inl ?_
    rw [(next_core (o := o) (s := s) .takeDrain).1]
    exact drain_returns h.exited

omit [DecidableEq ι] in
theorem ahead_le (s : Run ι) : s.ahead o ≤ 3 := by
  simp only [Run.ahead]
  split_ifs <;> omega

/-- At most three branches come before the loop ends. -/
theorem Drained.returns (h : Drained s) :
    ∃ k ≤ s.ahead o + 1, ((fun s => Run.next o s (s.branch o))^[k] s).core.status = .returned := by
  induction hn : s.ahead o using Nat.strong_induction_on generalizing s with
  | _ n ih =>
    rcases h.step (o := o) with hret | ⟨hd, hlt⟩
    · exact ⟨1, by omega, hret⟩
    · obtain ⟨k, hk, hret⟩ := ih _ (hn ▸ hlt) hd rfl
      exact ⟨k + 1, by omega, hret⟩

/-! ## The verdict -/

structure Truthful (o : Options ι) (s : Run ι) : Prop where
  timedOut : s.core.timedOut = true → ∀ t ∈ s.exitedAt, o.config.timeoutMs ≤ t
  limited : s.core.limit.isSome = true ↔ ∃ p, o.config.limit p < total (s.output p).chunks
  named : ∀ p ∈ s.core.limit, o.config.limit p < total (s.output p).chunks
  called : ∀ p, p ≠ .probe → o.listens p = true →
    (s.output p).calls.flatten = (s.output p).text
  streamed : s.core.status ≠ .returned → ∀ p, p ≠ .probe → (s.output p).text =
    (decodeChunks {} (upTo (o.config.limit p) 0 (s.output p).chunks)).1
  shown : s.core.status = .returned → ∀ p, p ≠ .probe →
    (s.output p).text = shown (o.config.limit p) (s.output p).chunks
  done : s.core.status = .looping → s.core.exited = true → ∃ p, s.core.reading p = .reading
  window : Drained s → Run.enabled o s (s.branch o) ∧ ∃ k ≤ 4,
    ((fun s => Run.next o s (s.branch o))^[k] s).core.status = .returned

theorem verdict_truthful (h : ((Run.machine o).restrict (OnTime o)).Reaches (start o) s) :
    Truthful o s := by
  have htext : TextInv o s := h.of_restrict.invariant textInv_step (textInv_start o)
  have htime : TimeInv o s := h.invariant timeInv_step (timeInv_start o)
  have hloop : Unfinished s.core := by
    refine h.of_restrict.invariant (I := fun s => Unfinished s.core) (fun s a hs _ => ?_)
      (fun _ => rfl)
    cases a with
    | core a =>
      change Unfinished (Run.next o s (.core a)).core
      rw [(next_core a).1]
      exact unfinished_next hs a
    | read p chunk =>
      change Unfinished (Run.next o s (.read p chunk)).core
      rw [Run.next, leave_core]
      exact unfinished_next hs (.takeRead p chunk.length)
    | takeQuiet =>
      change Unfinished (Run.next o s .takeQuiet).core
      rw [Run.next, leave_core]
      exact unfinished_settle s.core
  have hcount := htext.counted
  refine ⟨htime.verdict, ⟨fun hl => ?_, fun ⟨p, hp⟩ => ?_⟩, fun p hp => ?_, hcount.called,
    fun hs p hp => (htext.streaming hs p hp).text, htext.complete, fun hs hexit => ?_,
    fun hd => ⟨hd.branch_enabled, ?_⟩⟩
  · obtain ⟨p, hp⟩ := Option.isSome_iff_exists.mp hl
    exact ⟨p, (hcount.capped p).mp (hcount.named p hp)⟩
  · exact hcount.limited p ((hcount.capped p).mpr hp)
  · exact (hcount.capped p).mp (hcount.named p hp)
  · by_contra hnone
    have hdone : s.core.allDone = true :=
      allDone_iff.mpr fun p hp => hnone ⟨p, hp⟩
    have hfalse := hloop hs
    rw [hexit, hdone] at hfalse
    cases hfalse
  · obtain ⟨k, hk, hret⟩ := hd.returns (o := o)
    exact ⟨k, hk.trans (Nat.succ_le_succ (ahead_le s)), hret⟩

instance [Fintype ι] : DecidableRel (Run.machine o).enabled := fun s a =>
  match a with
  | .core a => inferInstanceAs (Decidable (_ ∧ (Supervisor.machine o.config).enabled s.core a))
  | .read p chunk =>
    inferInstanceAs (Decidable ((Supervisor.machine o.config).enabled s.core
      (.takeRead p chunk.length)))
  | .takeQuiet => inferInstanceAs (Decidable (_ ∧ _))

instance : DecidableRel (OnTime o) := fun s a => by
  simp only [OnTime]
  split <;> infer_instance

def program : Options (Fin 2) := ⟨⟨0, 100, fun _ => 4, false⟩, fun _ => true, true⟩

/-- A program prints, reaches its limit and exits. -/
theorem verdict_truthful_capped :
    ∃ s, ((Run.machine program).restrict (OnTime program)).Reaches (start program) s ∧
      s.core.status = .returned ∧ s.core.limit = some .stdout ∧ Truthful program s := by
  obtain ⟨s, hs, hp⟩ := Machine.exists_reaches_of_exec
    (M := (Run.machine program).restrict (OnTime program)) (s := start program)
    (l := [.core (.write 0 .stdout 6), .read .stdout [104, 105, 10], .core (.pass 20),
      .read .stdout [104, 105, 10], .core (.exit 0), .core .takeWait, .core (.takeEnd .stdout),
      .core (.takeEnd .stderr)])
    (p := fun s => s.core.status = .returned ∧ s.core.limit = some .stdout) (by decide)
  simp only [decide_eq_true_eq] at hp
  exact ⟨s, hs, hp.1, hp.2, verdict_truthful hs⟩

/-- The program exits in time, and a child it leaves behind keeps the pipes open past
the deadline: the exit is seen, and a timeout is reported. -/
theorem timedOut_after_exit :
    ∃ s, (Run.machine program).Reaches (start program) s ∧ s.core.exited = true ∧
      s.exitedAt = some 50 ∧ s.core.timedOut = true ∧ ¬ Truthful program s := by
  obtain ⟨s, hs, hp⟩ := Machine.exists_reaches_of_exec (M := Run.machine program)
    (s := start program)
    (l := [.core (.fork 0 1), .core (.pass 50), .core (.exit 0), .core .takeWait, .core (.pass 60),
      .core .takeTimeout])
    (p := fun s => s.core.exited = true ∧ s.exitedAt = some 50 ∧ s.core.timedOut = true)
    (by decide)
  simp only [decide_eq_true_eq] at hp
  obtain ⟨hexit, hat, htime⟩ := hp
  refine ⟨s, hs, hexit, hat, htime, fun htrue => ?_⟩
  have hle : program.config.timeoutMs ≤ 50 := htrue.timedOut htime 50 hat
  exact absurd hle (by decide)

end Atomis.Supervisor
