import Atomis.Store

/-!
# What reading the sources finds

Every listed source is the text of one file below the root, every file is
listed at most once, and the loop ends with no directory left to read.
-/

namespace Atomis
open Protocol

/-! ## Paths and their names -/

def names (path : String) : List String := (parts path).map String.ofList

/-- A path the file system takes as it is written. -/
def properPath (path : String) : Bool := (parts path).all validPart

def plainName (n : String) : Bool := validPart n.toList && !n.toList.contains '/'

theorem names_toList (path : String) : (names path).map String.toList = parts path := by
  simp [names, Function.comp_def]

theorem names_injective : Function.Injective names := by
  intro a b hab
  have hparts : parts a = parts b := by rw [← names_toList, hab, names_toList]
  have := congrArg (List.intercalate ['/']) hparts
  rw [parts, parts, List.intercalate_splitOn, List.intercalate_splitOn] at this
  exact String.toList_injective this

theorem projectPathOk_proper {path : String} (h : projectPathOk path = true) :
    properPath path = true := by
  simp only [projectPathOk, Bool.and_eq_true] at h
  exact h.2

theorem components_of_proper {path : String} (h : properPath path = true) :
    components path = (names path).map .name := by
  simp only [properPath, List.all_eq_true] at h
  simp only [components, names, List.map_map]
  rw [← List.filterMap_eq_map]
  refine List.filterMap_congr fun part hpart => ?_
  have hvalid := h part hpart
  simp only [validPart, Bool.and_eq_true, decide_eq_true_eq] at hvalid
  simp [hvalid]

theorem head_of_proper {path : String} (h : properPath path = true) :
    path.toList.head? ≠ some '/' := by
  intro hslash
  obtain ⟨rest, hrest⟩ := List.head?_eq_some_iff.mp hslash
  simp only [properPath, parts, hrest, List.all_eq_true] at h
  have := h [] (by simp [List.splitOn_cons_eq_if_modifyHead])
  simp [validPart] at this

theorem parts_relative {root ns : List String} (hne : ns ≠ [])
    (hplain : ∀ n ∈ ns, plainName n = true) :
    parts (relative root (root ++ ns)) = ns.map String.toList := by
  rw [relative, List.drop_left, parts, String.toList_ofList]
  refine List.splitOn_intercalate '/' ?_ (by simpa using hne)
  intro l hl
  obtain ⟨n, hn, rfl⟩ := List.mem_map.mp hl
  have := hplain n hn
  simp only [plainName, Bool.and_eq_true] at this
  simpa using this.2

theorem names_relative (root : List String) {ns : List String} (hne : ns ≠ [])
    (hplain : ∀ n ∈ ns, plainName n = true) : names (relative root (root ++ ns)) = ns := by
  simp [names, parts_relative hne hplain, Function.comp_def]

theorem proper_relative {root ns : List String} (hne : ns ≠ [])
    (hplain : ∀ n ∈ ns, plainName n = true) :
    properPath (relative root (root ++ ns)) = true := by
  rw [properPath, parts_relative hne hplain, List.all_eq_true]
  intro l hl
  obtain ⟨n, hn, rfl⟩ := List.mem_map.mp hl
  have := hplain n hn
  simp only [plainName, Bool.and_eq_true] at this
  exact this.1

/-! ## One directory -/

def textAt (disk : Disk) (p : List String) : String :=
  match disk p with
  | some (.file (.text source)) => source
  | _ => ""

variable {order : List (List String)} {disk : Disk} {root : List String}

theorem mem_entries {dir p : List String} (h : p ∈ entries order disk dir) :
    p ∈ order ∧ p ≠ [] ∧ p.dropLast = dir := by
  simp only [entries] at h
  split_ifs at h
  · simp only [List.mem_filter, decide_eq_true_eq] at h
    exact ⟨h.1, h.2.1, h.2.2.1⟩
  · simp at h

theorem entries_nodup (h : order.Nodup) (dir : List String) : (entries order disk dir).Nodup := by
  simp only [entries]
  split_ifs
  · exact h.filter _
  · exact List.nodup_nil

theorem foldl_visit (disk : Disk) (root : List String) (es : List (List String)) (found : Found) :
    ∃ locs : List (List String), locs.Sublist es ∧ (∀ p ∈ locs, disk p = some (.file (.text (textAt disk p)))) ∧
      (es.foldl (visit disk root) found).files =
        found.files ++ locs.map (fun p => (relative root p, textAt disk p)) ∧
      (es.foldl (visit disk root) found).pending =
        (es.filter fun p => (disk p).any Node.isDir).reverse ++ found.pending := by
  induction es generalizing found with
  | nil => exact ⟨[], by simp⟩
  | cons p es ih =>
    obtain ⟨locs, hsub, htext, hfiles, hpending⟩ := ih (visit disk root found p)
    simp only [List.foldl_cons, hfiles, hpending]
    cases hp : disk p with
    | none => exact ⟨locs, hsub.cons p, htext, by simp [visit, hp], by simp [visit, hp]⟩
    | some node =>
      cases node with
      | dir => exact ⟨locs, hsub.cons p, htext, by simp [visit, hp], by simp [visit, hp, Node.isDir]⟩
      | link absolute target =>
        exact ⟨locs, hsub.cons p, htext, by simp [visit, hp], by simp [visit, hp, Node.isDir]⟩
      | file content =>
        cases content with
        | bytes data =>
          exact ⟨locs, hsub.cons p, htext, by simp [visit, hp], by simp [visit, hp, Node.isDir]⟩
        | text source =>
          by_cases hfull : found.files.length ≥ maxProjectFiles ∨
              found.bytes + source.utf8ByteSize > maxProjectBytes
          · refine ⟨locs, hsub.cons p, htext, ?_, ?_⟩ <;>
              rcases hfull with hfull | hfull <;> simp [visit, hp, hfull, Node.isDir]
          · have hat : textAt disk p = source := by simp [textAt, hp]
            rw [not_or] at hfull
            refine ⟨p :: locs, hsub.cons_cons p, ?_, ?_, ?_⟩
            · intro q hq
              rcases List.mem_cons.mp hq with rfl | hq
              · rw [hp, hat]
              · exact htext q hq
            · simp [visit, hp, hfull, hat]
            · simp [visit, hp, hfull, Node.isDir]

/-! ## The whole loop -/

/-- What has been read so far: the directories, and the places of the files listed. -/
structure Reading (order : List (List String)) (disk : Disk) (root : List String)
    (read locs : List (List String)) (found : Found) : Prop where
  files : found.files = locs.map fun p => (relative root p, textAt disk p)
  text : ∀ p ∈ locs, disk p = some (.file (.text (textAt disk p)))
  below : ∀ p ∈ locs, p ∈ order ∧ p ≠ [] ∧ root <+: p.dropLast ∧ p.dropLast ∈ read
  locs_nodup : locs.Nodup
  dirs : ∀ q ∈ read ++ found.pending, root <+: q ∧ (q = root ∨ q ∈ order ∧ q.dropLast ∈ read)
  dirs_nodup : (read ++ found.pending).Nodup

variable (order disk root) in
theorem reading_start : Reading order disk root [] [] ⟨[], 0, [root]⟩ := by
  constructor <;> simp

theorem dropLast_ne_self {p : List String} (h : p ≠ []) : p.dropLast ≠ p := by
  intro heq
  have := congrArg List.length heq
  have := List.length_pos_iff.mpr h
  simp only [List.length_dropLast] at *
  omega

theorem Reading.round {read locs : List (List String)} {found : Found} {dir : List String}
    {pending : List (List String)} (h : Reading order disk root read locs found)
    (horder : order.Nodup) (hpending : found.pending = dir :: pending) :
    ∃ locs', Reading order disk root (dir :: read) locs'
      ((entries order disk dir).foldl (visit disk root) { found with pending := pending }) := by
  obtain ⟨new, hsub, htext, hfiles, hstack⟩ := foldl_visit disk root
    (entries order disk dir) { found with pending := pending }
  have hdirs : (dir :: read ++ pending).Perm (read ++ found.pending) := by
    rw [hpending]
    exact List.perm_middle.symm
  have hnodup := hdirs.nodup_iff.mpr h.dirs_nodup
  have hroot : root <+: dir := (h.dirs dir (by simp [hpending])).1
  have hnotread : dir ∉ read := by
    simp only [List.cons_append, List.nodup_cons, List.mem_append, not_or] at hnodup
    exact hnodup.1.1
  -- no child of `dir` was known before `dir` is read
  have hchild : ∀ q ∈ entries order disk dir, q ∉ dir :: read ++ pending := by
    intro q hq hmem
    obtain ⟨-, hne, hparent⟩ := mem_entries hq
    rcases (h.dirs q (hdirs.mem_iff.mp hmem)).2 with rfl | ⟨-, hread⟩
    · rw [← hparent] at hroot
      exact dropLast_ne_self hne
        (List.IsPrefix.eq_of_length_le hroot (by simp)).symm
    · rw [hparent] at hread
      exact hnotread hread
  refine ⟨locs ++ new, ?_, ?_, ?_, ?_, ?_, ?_⟩
  · rw [hfiles, h.files, List.map_append]
  · intro p hp
    rcases List.mem_append.mp hp with hp | hp
    · exact h.text p hp
    · exact htext p hp
  · intro p hp
    rcases List.mem_append.mp hp with hp | hp
    · obtain ⟨hmem, hne, hbelow, hread⟩ := h.below p hp
      exact ⟨hmem, hne, hbelow, List.mem_cons_of_mem _ hread⟩
    · obtain ⟨hmem, hne, rfl⟩ := mem_entries (hsub.subset hp)
      exact ⟨hmem, hne, hroot, List.mem_cons_self⟩
  · refine List.nodup_append.mpr ⟨h.locs_nodup, (entries_nodup horder dir).sublist hsub, ?_⟩
    rintro p hp q hq rfl
    obtain ⟨-, -, rfl⟩ := mem_entries (hsub.subset hq)
    exact hnotread (h.below p hp).2.2.2
  · intro q hq
    rw [hstack] at hq
    by_cases hold : q ∈ dir :: read ++ pending
    · obtain ⟨hbelow, hq⟩ := h.dirs q (hdirs.mem_iff.mp hold)
      exact ⟨hbelow, hq.imp id fun ⟨hmem, hread⟩ => ⟨hmem, List.mem_cons_of_mem _ hread⟩⟩
    · have hq' : q ∈ entries order disk dir := by
        simp only [List.mem_append, List.mem_reverse, List.mem_filter] at hq hold
        tauto
      obtain ⟨hmem, -, rfl⟩ := mem_entries hq'
      exact ⟨hroot.trans (List.dropLast_prefix q), .inr ⟨hmem, List.mem_cons_self⟩⟩
  · rw [hstack]
    have hperm : (dir :: read ++ (((entries order disk dir).filter
        fun p => (disk p).any Node.isDir).reverse ++ pending)).Perm
        (((entries order disk dir).filter fun p => (disk p).any Node.isDir) ++
          (dir :: read ++ pending)) := by
      rw [← List.append_assoc]
      refine (List.Perm.append_right _ List.perm_append_comm).trans ?_
      rw [List.append_assoc]
      exact List.Perm.append_right _ (List.reverse_perm _)
    refine hperm.nodup_iff.mpr (List.nodup_append.mpr
      ⟨(entries_nodup horder dir).filter _, hnodup, ?_⟩)
    rintro p hp q hq rfl
    exact hchild p (List.mem_of_mem_filter hp) hq

theorem Reading.readLoop {read locs : List (List String)} {found : Found}
    (h : Reading order disk root read locs found) (horder : order.Nodup) (fuel : ℕ) :
    ∃ read' locs', Reading order disk root read' locs' (readLoop order disk root fuel found) ∧
      ((Atomis.readLoop order disk root fuel found).pending ≠ [] →
        read'.length = read.length + fuel) := by
  induction fuel generalizing read locs found with
  | zero => exact ⟨read, locs, h, fun _ => rfl⟩
  | succ fuel ih =>
    simp only [Atomis.readLoop]
    cases hp : found.pending with
    | nil => exact ⟨read, locs, h, fun hne => absurd hp hne⟩
    | cons dir pending =>
      obtain ⟨locs₁, h₁⟩ := h.round horder hp
      obtain ⟨read', locs', h', hlength⟩ := ih h₁
      refine ⟨read', locs', h', fun hne => ?_⟩
      have := hlength hne
      simp only [List.length_cons] at this
      omega

/-- Every directory is `root` or listed in `order`, so the rounds suffice. -/
theorem readLoop_pending (horder : order.Nodup) :
    (readLoop order disk root (order.length + 1) ⟨[], 0, [root]⟩).pending = [] := by
  obtain ⟨read, locs, h, hlength⟩ :=
    (reading_start order disk root).readLoop horder
      (order.length + 1)
  by_contra hne
  have hsub : (read ++ (readLoop order disk root (order.length + 1) ⟨[], 0, [root]⟩).pending) ⊆
      root :: order := by
    intro q hq
    rcases (h.dirs q hq).2 with rfl | ⟨hmem, -⟩
    · exact List.mem_cons_self
    · exact List.mem_cons_of_mem _ hmem
  have hle := (List.subperm_of_subset h.dirs_nodup hsub).length_le
  have hread := hlength hne
  have hpos := List.length_pos_iff.mpr hne
  simp only [List.length_append, List.length_cons, List.length_nil] at hle hread
  omega

theorem readSources_spec (disk : Disk) (root : List String) (horder : order.Nodup) :
    ∃ locs : List (List String), locs.Nodup ∧
      (readSources order disk root).Perm
        (locs.map fun p => (relative root p, textAt disk p)) ∧
      ∀ p ∈ locs, p ∈ order ∧ disk p = some (.file (.text (textAt disk p))) ∧
        ∃ ns, ns ≠ [] ∧ p = root ++ ns := by
  obtain ⟨read, locs, h, -⟩ :=
    (reading_start order disk root).readLoop horder
      (order.length + 1)
  refine ⟨locs, h.locs_nodup, ?_, ?_⟩
  · rw [readSources, ← h.files]
    exact List.perm_insertionSort _ _
  · intro p hp
    obtain ⟨hmem, hne, hbelow, -⟩ := h.below p hp
    refine ⟨hmem, h.text p hp, ?_⟩
    obtain ⟨ns, rfl⟩ := hbelow.trans (List.dropLast_prefix p)
    refine ⟨ns, ?_, rfl⟩
    rintro rfl
    rw [List.append_nil] at hne hbelow
    exact dropLast_ne_self hne (List.IsPrefix.eq_of_length_le hbelow (by simp)).symm

/-- Each listed path is a proper one and names the file it was read from. -/
theorem mem_readSources (horder : order.Nodup) (hplain : ∀ p ∈ order, ∀ n ∈ p, plainName n = true)
    {path source : String} (h : (path, source) ∈ readSources order disk root) :
    properPath path = true ∧ disk (root ++ names path) = some (.file (.text source)) := by
  obtain ⟨locs, -, hperm, hlocs⟩ := readSources_spec disk root horder
  obtain ⟨p, hp, heq⟩ := List.mem_map.mp (hperm.mem_iff.mp h)
  obtain ⟨hmem, hfile, ns, hne, rfl⟩ := hlocs p hp
  have hns : ∀ n ∈ ns, plainName n = true := fun n hn =>
    hplain _ hmem n (List.mem_append_right root hn)
  cases heq
  exact ⟨proper_relative hne hns, by rw [names_relative root hne hns, hfile]⟩

theorem readSources_nodup (horder : order.Nodup)
    (hplain : ∀ p ∈ order, ∀ n ∈ p, plainName n = true) :
    ((readSources order disk root).map Prod.fst).Nodup := by
  obtain ⟨locs, hnodup, hperm, hlocs⟩ := readSources_spec disk root horder
  rw [(hperm.map Prod.fst).nodup_iff, List.map_map]
  refine hnodup.map_on fun p hp q hq heq => ?_
  obtain ⟨hmem, -, ns, hne, rfl⟩ := hlocs p hp
  obtain ⟨hmem', -, ns', hne', rfl⟩ := hlocs q hq
  have hns := names_relative root hne fun n hn => hplain _ hmem n (List.mem_append_right root hn)
  have hns' := names_relative root hne' fun n hn =>
    hplain _ hmem' n (List.mem_append_right root hn)
  simp only [Function.comp_apply] at heq
  rw [heq, hns'] at hns
  rw [hns]

end Atomis
