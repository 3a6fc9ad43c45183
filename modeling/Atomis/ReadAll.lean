import Atomis.ReadSources
import Mathlib.Algebra.Order.BigOperators.Group.List
import Mathlib.Algebra.Order.Group.Nat

/-!
# What reading the sources leaves out

Where the texts below the root are within the limits, every text file of every directory that the
root leads to is listed.
-/

namespace Atomis
open Protocol

variable {order : List (List String)} {disk : Disk} {root : List String}

def isText (disk : Disk) (p : List String) : Bool :=
  match disk p with
  | some (.file (.text _)) => true
  | _ => false

def textSize (disk : Disk) (ps : List (List String)) : ℕ :=
  (ps.map fun p => (textAt disk p).utf8ByteSize).sum

/-- What a file is listed as. -/
def listed (disk : Disk) (root p : List String) : String × String := (relative root p, textAt disk p)

def textEntries (order : List (List String)) (disk : Disk) (dir : List String) :
    List (List String) :=
  (entries order disk dir).filter (isText disk)

def textsBelow (order : List (List String)) (disk : Disk) (root : List String) :
    List (List String) :=
  order.filter fun p => root <+: p ∧ isText disk p

/-- No limit stops the reading. -/
structure WithinLimits (order : List (List String)) (disk : Disk) (root : List String) : Prop where
  count : (textsBelow order disk root).length ≤ maxProjectFiles
  bytes : textSize disk (textsBelow order disk root) ≤ maxProjectBytes

/-- The directories that the root leads to. -/
inductive Reach (order : List (List String)) (disk : Disk) (root : List String) :
    List String → Prop
  | root : Reach order disk root root
  | child {dir q : List String} (h : Reach order disk root dir) (hq : q ∈ entries order disk dir)
      (hdir : (disk q).any Node.isDir = true) : Reach order disk root q

/-! ## One directory -/

theorem textSize_append (ps qs : List (List String)) :
    textSize disk (ps ++ qs) = textSize disk ps + textSize disk qs := by
  simp [textSize]

theorem textSize_perm {ps qs : List (List String)} (h : ps.Perm qs) :
    textSize disk ps = textSize disk qs :=
  (h.map _).sum_eq

theorem textSize_le {ps qs : List (List String)} (hnodup : ps.Nodup) (hsub : ps ⊆ qs) :
    ps.length ≤ qs.length ∧ textSize disk ps ≤ textSize disk qs := by
  obtain ⟨rs, hperm, hsublist⟩ := List.subperm_of_subset hnodup hsub
  rw [← hperm.length_eq, ← textSize_perm hperm]
  exact ⟨hsublist.length_le, (hsublist.map _).sum_le_sum fun _ _ => Nat.zero_le _⟩

/-- Within the limits nothing that can be read is passed over. -/
theorem foldl_visit_all (es : List (List String)) (found : Found)
    (hcount : found.files.length + (es.filter (isText disk)).length ≤ maxProjectFiles)
    (hbytes : found.bytes + textSize disk (es.filter (isText disk)) ≤ maxProjectBytes) :
    (es.foldl (visit disk root) found).files =
        found.files ++ (es.filter (isText disk)).map (listed disk root) ∧
      (es.foldl (visit disk root) found).bytes =
        found.bytes + textSize disk (es.filter (isText disk)) := by
  induction es generalizing found with
  | nil => simp [textSize]
  | cons p es ih =>
    rw [List.foldl_cons]
    cases htext : isText disk p with
    | false =>
      have hskip : (visit disk root found p).files = found.files ∧
          (visit disk root found p).bytes = found.bytes := by
        simp only [visit, isText] at htext ⊢
        split
        · exact ⟨rfl, rfl⟩
        next hnode =>
          rw [hnode] at htext
          cases htext
        · exact ⟨rfl, rfl⟩
      have hrest := ih (visit disk root found p)
      rw [hskip.1, hskip.2] at hrest
      rw [List.filter_cons_of_neg (by rw [htext]; exact Bool.false_ne_true)] at hcount hbytes ⊢
      exact hrest hcount hbytes
    | true =>
      obtain ⟨source, hnode⟩ : ∃ source, disk p = some (.file (.text source)) := by
        simp only [isText] at htext
        split at htext
        next source hnode => exact ⟨source, hnode⟩
        · cases htext
      have hat : textAt disk p = source := by simp [textAt, hnode]
      rw [List.filter_cons_of_pos htext] at hcount hbytes ⊢
      have hsize : textSize disk (p :: es.filter (isText disk)) =
          source.utf8ByteSize + textSize disk (es.filter (isText disk)) := by
        simp [textSize, hat]
      rw [hsize] at hbytes ⊢
      rw [List.length_cons] at hcount
      have hvisit : visit disk root found p = { found with
          files := found.files ++ [listed disk root p]
          bytes := found.bytes + source.utf8ByteSize } := by
        have hroom : ¬found.files.length ≥ maxProjectFiles := by omega
        have hfits : ¬found.bytes + source.utf8ByteSize > maxProjectBytes := by omega
        simp only [visit, hnode, if_neg hroom, if_neg hfits, listed, hat]
      rw [hvisit]
      obtain ⟨hfiles, hsum⟩ := ih { found with
          files := found.files ++ [listed disk root p]
          bytes := found.bytes + source.utf8ByteSize }
        (by simp only [List.length_append, List.length_cons, List.length_nil]; omega)
        (by simp only; omega)
      rw [hfiles, hsum]
      exact ⟨by simp, by simp only; omega⟩

/-! ## The whole loop -/

theorem mem_textEntries {dir p : List String} (h : p ∈ textEntries order disk dir) :
    p ∈ order ∧ p ≠ [] ∧ p.dropLast = dir ∧ isText disk p = true := by
  obtain ⟨hmem, htext⟩ := List.mem_filter.mp h
  obtain ⟨horder, hne, hparent⟩ := mem_entries hmem
  exact ⟨horder, hne, hparent, htext⟩

/-- The texts of several directories are some of those below the root. -/
theorem flatMap_textEntries (horder : order.Nodup) {read : List (List String)} (hread : read.Nodup)
    (hroot : ∀ d ∈ read, root <+: d) :
    (read.flatMap (textEntries order disk)).Nodup ∧
      read.flatMap (textEntries order disk) ⊆ textsBelow order disk root := by
  constructor
  · refine List.nodup_flatMap.mpr ⟨fun d _ => (entries_nodup horder d).filter _, ?_⟩
    refine hread.imp fun {d e} hne p hd he => hne ?_
    rw [← (mem_textEntries hd).2.2.1, (mem_textEntries he).2.2.1]
  · intro p hp
    obtain ⟨d, hd, hp⟩ := List.mem_flatMap.mp hp
    obtain ⟨hmem, -, hparent, htext⟩ := mem_textEntries hp
    refine List.mem_filter.mpr ⟨hmem, decide_eq_true ⟨?_, htext⟩⟩
    have hbelow := hroot d hd
    rw [← hparent] at hbelow
    exact hbelow.trans (List.dropLast_prefix p)

/-- All that was in the directories read is listed, and all that waits is reached. -/
structure Whole (order : List (List String)) (disk : Disk) (root : List String)
    (read : List (List String)) (found : Found) : Prop where
  files : found.files = (read.reverse.flatMap (textEntries order disk)).map (listed disk root)
  bytes : found.bytes = textSize disk (read.reverse.flatMap (textEntries order disk))
  reach : ∀ q ∈ read ++ found.pending, Reach order disk root q
  root_mem : root ∈ read ++ found.pending
  children : ∀ d ∈ read, ∀ q ∈ entries order disk d, (disk q).any Node.isDir = true →
    q ∈ read ++ found.pending

theorem whole_start : Whole order disk root [] ⟨[], 0, [root]⟩ := by
  refine ⟨rfl, rfl, ?_, by simp, by simp⟩
  intro q hq
  rw [List.mem_singleton.mp hq]
  exact .root

theorem Whole.round {read locs : List (List String)} {found : Found} {dir : List String}
    {pending : List (List String)} (h : Whole order disk root read found)
    (hr : Reading order disk root read locs found) (horder : order.Nodup)
    (hlimits : WithinLimits order disk root) (hpending : found.pending = dir :: pending) :
    Whole order disk root (dir :: read)
      ((entries order disk dir).foldl (visit disk root) { found with pending := pending }) := by
  have hdirs : (dir :: read ++ pending).Perm (read ++ found.pending) := by
    rw [hpending]
    exact List.perm_middle.symm
  have hnodup : (dir :: read).Nodup :=
    (hdirs.nodup_iff.mpr hr.dirs_nodup).of_append_left
  have hroot (d : List String) (hd : d ∈ dir :: read) : root <+: d :=
    (hr.dirs d (hdirs.mem_iff.mp (List.mem_append_left _ hd))).1
  have hread : (dir :: read).reverse.flatMap (textEntries order disk) =
      read.reverse.flatMap (textEntries order disk) ++ textEntries order disk dir := by
    simp [List.flatMap_append]
  obtain ⟨hdistinct, hbelow⟩ := flatMap_textEntries horder (List.nodup_reverse.mpr hnodup)
    fun d hd => hroot d (List.mem_reverse.mp hd)
  obtain ⟨hcount, hbytes⟩ := textSize_le hdistinct hbelow
  rw [hread, textSize_append] at hbytes
  rw [hread, List.length_append] at hcount
  have hlength : found.files.length = (read.reverse.flatMap (textEntries order disk)).length := by
    rw [h.files, List.length_map]
  obtain ⟨hfiles, hsum⟩ := foldl_visit_all (entries order disk dir)
    { found with pending := pending } ((by
      simp only [hlength]
      exact hcount.trans hlimits.count)) (by
      simp only [h.bytes]
      exact hbytes.trans hlimits.bytes)
  obtain ⟨-, -, -, -, hstack⟩ := foldl_visit disk root (entries order disk dir)
    { found with pending := pending }
  refine ⟨?_, ?_, ?_, ?_, ?_⟩
  · rw [hfiles, hread, List.map_append, h.files]
    rfl
  · rw [hsum, hread, textSize_append, h.bytes]
    rfl
  · intro q hq
    rw [hstack] at hq
    by_cases hold : q ∈ dir :: read ++ pending
    · exact h.reach q (hdirs.mem_iff.mp hold)
    · have hq' : q ∈ (entries order disk dir).filter fun p => (disk p).any Node.isDir := by
        simp only [List.mem_append, List.mem_reverse] at hq hold
        tauto
      obtain ⟨hmem, hdir⟩ := List.mem_filter.mp hq'
      exact .child (h.reach dir (by rw [hpending]; simp)) hmem hdir
  · rw [hstack]
    have := hdirs.mem_iff.mpr h.root_mem
    simp only [List.mem_append] at this ⊢
    tauto
  · intro d hd q hq hdir
    rw [hstack]
    rcases List.mem_cons.mp hd with rfl | hd
    · simp [hq, hdir]
    · have := hdirs.mem_iff.mpr (h.children d hd q hq hdir)
      simp only [List.mem_append] at this ⊢
      tauto

theorem Whole.readLoop {read locs : List (List String)} {found : Found}
    (h : Whole order disk root read found) (hr : Reading order disk root read locs found)
    (horder : order.Nodup) (hlimits : WithinLimits order disk root) (fuel : ℕ) :
    ∃ read' locs', Reading order disk root read' locs' (readLoop order disk root fuel found) ∧
      Whole order disk root read' (Atomis.readLoop order disk root fuel found) := by
  induction fuel generalizing read locs found with
  | zero => exact ⟨read, locs, hr, h⟩
  | succ fuel ih =>
    rw [Atomis.readLoop]
    cases hpending : found.pending with
    | nil => exact ⟨read, locs, hr, h⟩
    | cons dir pending =>
      obtain ⟨locs', hr'⟩ := hr.round horder hpending
      exact ih (h.round hr horder hlimits hpending) hr'

/-- What is listed, from the directories that the root leads to. -/
theorem readSources_all (horder : order.Nodup) (hlimits : WithinLimits order disk root) :
    ∃ read : List (List String), read.Nodup ∧ (∀ q, q ∈ read ↔ Reach order disk root q) ∧
      (readSources order disk root).Perm
        ((read.flatMap (textEntries order disk)).map (listed disk root)) := by
  obtain ⟨read, locs, hr, h⟩ := whole_start.readLoop (reading_start order disk root) horder hlimits
    (order.length + 1)
  have hpending : (readLoop order disk root (order.length + 1) ⟨[], 0, [root]⟩).pending = [] :=
    readLoop_pending horder
  have hnodup := hr.dirs_nodup
  have hreach := h.reach
  have hroot := h.root_mem
  have hchildren := h.children
  rw [hpending, List.append_nil] at hnodup hreach hroot hchildren
  refine ⟨read, hnodup, fun q => ⟨hreach q, fun hq => ?_⟩, ?_⟩
  · induction hq with
    | root => exact hroot
    | @child dir q _ hq hdir ih => exact hchildren dir ih q hq hdir
  · refine (List.perm_insertionSort _ _).trans ?_
    rw [h.files]
    exact ((List.reverse_perm read).flatMap_right _).map _

end Atomis
