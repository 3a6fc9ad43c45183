import Atomis.Ndjson

/-!
# Lines that are all events

A stream of complete lines which the channel reads: the events arrive in their order up to the
limit of the run, and reading ends in an error when there are more.
-/

namespace Atomis.Ndjson
open Utf8

variable {Event α : Type} {channel : Channel Event} {limit count : ℕ}

/-- The text of lines that are each ended. -/
def ended (lines : List (List Char)) : List Char := lines.flatMap (· ++ ['\n'])

theorem split_ended {lines : List (List Char)} (h : ∀ line ∈ lines, '\n' ∉ line) :
    Lines.split '\n' [] (ended lines) = (lines, []) := by
  induction lines with
  | nil => rfl
  | cons line lines ih =>
    obtain ⟨hline, hlines⟩ := List.forall_mem_cons.mp h
    have hrest := ih hlines
    rw [ended] at hrest
    rw [ended, List.flatMap_cons, List.append_assoc, List.singleton_append,
      Lines.split_nil_append hline]
    simp [Lines.split, hrest]

/-- A line the channel reads as this event. -/
structure IsEvent (channel : Channel Event) (event : Event) (line : List Char) : Prop where
  nonempty : line ≠ []
  short : byteLen line ≤ maxLine
  one : '\n' ∉ line
  read : channel.read line = .ok event

theorem judge_isEvent {event : Event} {line : List Char} (h : IsEvent channel event line) :
    judge channel limit count line =
      if limit ≤ count then ([.failed channel.tooMany], .error channel.tooMany)
      else ([.parsed line, .delivered event], .ok (count + 1)) := by
  rw [judge, if_neg (Nat.not_lt.mpr h.short), if_neg h.nonempty, h.read]

/-- What is delivered of lines when `count` were before them, and the error. -/
theorem verdict_isEvent {sent : List α} {line : α → List Char} {event : α → Event}
    (h : ∀ a ∈ sent, IsEvent channel (event a) (line a)) (hcount : count ≤ limit) :
    deliveries (verdict channel limit count (sent.map line)).1 =
        (sent.take (limit - count)).map event ∧
      (verdict channel limit count (sent.map line)).2 =
        if count + sent.length ≤ limit then .ok (count + sent.length)
        else .error channel.tooMany := by
  induction sent generalizing count with
  | nil => simp [verdict, deliveries, hcount]
  | cons a sent ih =>
    obtain ⟨ha, hsent⟩ := List.forall_mem_cons.mp h
    rw [List.map_cons, verdict, judge_isEvent ha]
    by_cases hfull : limit ≤ count
    · have hnone : limit - count = 0 := Nat.sub_eq_zero_of_le hfull
      have hmany : ¬count + (sent.length + 1) ≤ limit := by omega
      simp [hfull, hnone, hmany, deliveries]
    · obtain ⟨hdelivered, hcounted⟩ := ih hsent (show count + 1 ≤ limit by omega)
      have hroom : limit - count = limit - (count + 1) + 1 := by omega
      have hlength : count + (sent.length + 1) = count + 1 + sent.length := by omega
      simp only [if_neg hfull, List.length_cons, hlength, hcounted, hroom, List.take_succ_cons,
        List.map_cons]
      rw [deliveries_append, hdelivered]
      exact ⟨rfl, trivial⟩

/-- Lines that are events, as the bytes that arrive in any chunks. -/
theorem read_isEvent {sent : List α} {line : α → List Char} {event : α → Event}
    (h : ∀ a ∈ sent, IsEvent channel (event a) (line a)) (limit : ℕ) {chunks : List (List UInt8)}
    (hchunks : chunks.flatten = encode (ended (sent.map line))) :
    (Reader.read channel limit chunks).delivered = (sent.take limit).map event ∧
      (Reader.read channel limit chunks).error =
        if sent.length ≤ limit then none else some channel.tooMany := by
  have heq := read_eq_outcome channel limit hchunks
  have hsplit : Lines.split '\n' [] (ended (sent.map line)) = (sent.map line, []) :=
    split_ended fun text htext => by
      obtain ⟨a, ha, rfl⟩ := List.mem_map.mp htext
      exact (h a ha).one
  obtain ⟨hdelivered, hcounted⟩ := verdict_isEvent h (Nat.zero_le limit)
  rw [Nat.sub_zero] at hdelivered
  rw [Nat.zero_add] at hcounted
  have hblank : remainder channel [] = none := by
    simp [remainder, byteLen, encode]
  rcases hverdict : verdict channel limit 0 (sent.map line) with ⟨log, result⟩
  rw [hverdict] at hdelivered hcounted
  simp only at hdelivered hcounted
  have houtcome : outcome channel limit (ended (sent.map line)) =
      (log, if sent.length ≤ limit then none else some channel.tooMany) := by
    rw [outcome, hsplit, hverdict, hcounted]
    split_ifs with hfew
    · simp [hblank]
    · rfl
  rw [houtcome] at heq
  obtain ⟨hlog, herror⟩ := Prod.mk.inj heq
  refine ⟨?_, herror⟩
  rw [Reader.delivered, hlog, hdelivered]

end Atomis.Ndjson
