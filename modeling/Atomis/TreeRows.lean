import Atomis.ClientUri
import Atomis.Lib.Ancestry
import Mathlib.Algebra.Order.BigOperators.Group.List
import Mathlib.Algebra.Order.Group.Nat

/-!
# The rows of the file tree

Folders are what stands in front of a slash of some path. They are grouped under their parents, and
a walk from the top shows each level, its folders with what is below them first.
-/

namespace Atomis.TreeRows

open Ancestry Protocol

inductive TreeRow
  | folder (path name : String) (depth : ℕ) (collapsed : Bool) (fails : ℕ) (pending : Bool)
  | file (path name : String) (depth : ℕ)
deriving DecidableEq

namespace TreeRow

def path : TreeRow → String
  | folder path .. => path
  | file path .. => path

def depth : TreeRow → ℕ
  | folder _ _ depth .. => depth
  | file _ _ depth => depth

def isFolder : TreeRow → Bool
  | folder .. => true
  | file .. => false

end TreeRow

structure Options where
  files : List String
  collapsed : List String
  pendingFolders : List String
  failsByFile : List (String × ℕ)

/-! ## The walk -/

def parentOf (path : String) : String :=
  if path.toList.contains '/' then String.ofList (parent '/' path.toList) else ""

/-- `path.slice(path.lastIndexOf("/") + 1)` -/
def nameOf (path : String) : String := String.ofList (path.toList.rtakeWhile (· ≠ '/'))

/-- `parts.slice(0, depth).join("/")` for each of `count` depths. -/
def folderChain (path : String) (count : ℕ) : List String :=
  (List.range' 1 count).map fun depth =>
    String.ofList (List.intercalate ['/'] ((parts path).take depth))

def addFolder (folders : List String) (folder : String) : List String :=
  if folder ∈ folders then folders else folders ++ [folder]

def groupByParent (paths : List String) : String → List String :=
  paths.foldl (fun children path =>
    Function.update children (parentOf path) (children (parentOf path) ++ [path])) fun _ => []

namespace Options

variable (o : Options)

def folders : List String :=
  let implicit := o.files.foldl (fun folders path =>
    (folderChain path ((parts path).length - 1)).foldl addFolder folders) []
  o.pendingFolders.foldl (fun folders path =>
    (folderChain path (parts path).length).foldl addFolder folders) implicit

def folderFails : String → ℕ :=
  o.failsByFile.foldl (fun table entry =>
    if entry.2 = 0 then table
    else (folderChain entry.1 ((parts entry.1).length - 1)).foldl (fun table folder =>
      Function.update table folder (table folder + entry.2)) table) fun _ => 0

def hasRealFiles (folder : String) : Bool :=
  o.files.any fun file => (folder ++ "/").toList.isPrefixOf file.toList

def folderRow (depth : ℕ) (folder : String) : TreeRow :=
  .folder folder (nameOf folder) depth (decide (folder ∈ o.collapsed)) (o.folderFails folder)
    (!o.hasRealFiles folder)

def fileRow (depth : ℕ) (file : String) : TreeRow := .file file (nameOf file) depth

end Options

/-- `paths.toSorted((a, b) => a.localeCompare(b))` -/
def toSorted (localeCompare : String → String → Ordering) (paths : List String) : List String :=
  paths.mergeSort fun a b => (localeCompare a b).isLE

def collect : List (Option (List TreeRow)) → Option (List TreeRow)
  | [] => some []
  | block :: blocks => block.bind fun rows => (collect blocks).map (rows ++ ·)

section
variable (localeCompare : String → String → Ordering) (o : Options)

def walk : ℕ → String → ℕ → Option (List TreeRow)
  | 0, _, _ => none
  | fuel + 1, parent, depth =>
    let sortedFolders := toSorted localeCompare (groupByParent o.folders parent)
    let sortedFiles := toSorted localeCompare (groupByParent o.files parent)
    (collect (sortedFolders.map fun folder =>
      if folder ∈ o.collapsed then some [o.folderRow depth folder]
      else (walk fuel folder (depth + 1)).map (o.folderRow depth folder :: ·))).map
      (· ++ sortedFiles.map (Options.fileRow depth))

def buildTreeRows (fuel : ℕ) : Option (List TreeRow) := walk localeCompare o fuel "" 0

end

/-! ## Paths inside folders -/

variable {localeCompare : String → String → Ordering} {o : Options} {path folder outer : String}
variable {depth fuel : ℕ} {rows : List TreeRow}

def Inside (folder path : String) : Prop := Ancestry.Below '/' folder.toList path.toList

def slashes (path : String) : ℕ := path.toList.count '/'

theorem toList_parentOf (path : String) : (parentOf path).toList = parent '/' path.toList := by
  rw [parentOf]
  split_ifs with h
  · exact String.toList_ofList
  · rw [parent_of_notMem fun hmem => h (List.contains_iff_mem.mpr hmem)]
    rfl

theorem parentOf_of_notMem (h : '/' ∉ path.toList) : parentOf path = "" :=
  if_neg fun hcontains => h (List.contains_iff_mem.mp hcontains)

theorem inside_parentOf (h : '/' ∈ path.toList) : Inside (parentOf path) path := by
  rw [Inside, toList_parentOf]
  exact below_parent h

theorem inside_iff (h : '/' ∈ path.toList) :
    Inside folder path ↔ folder = parentOf path ∨ Inside folder (parentOf path) := by
  rw [Inside, Inside, below_iff h, toList_parentOf, ← toList_parentOf path, String.toList_inj]

theorem slashes_parentOf (h : '/' ∈ path.toList) : slashes path = slashes (parentOf path) + 1 := by
  rw [slashes, slashes, toList_parentOf]
  exact count_parent h

theorem intercalate_append {sep : List Char} {front rest : List (List Char)} (hfront : front ≠ [])
    (hrest : rest ≠ []) :
    sep.intercalate (front ++ rest) = sep.intercalate front ++ sep ++ sep.intercalate rest := by
  induction front with
  | nil => exact absurd rfl hfront
  | cons part front ih =>
    by_cases hnil : front = []
    · rw [hnil, List.singleton_append, List.intercalate_cons_of_ne_nil hrest,
        List.intercalate_singleton]
    · rw [List.cons_append, List.intercalate_cons_of_ne_nil (by simp [hnil]), ih hnil,
        List.intercalate_cons_of_ne_nil hnil]
      simp only [List.append_assoc]

theorem mem_folderChain {count : ℕ} : folder ∈ folderChain path count ↔
    ∃ depth, 1 ≤ depth ∧ depth ≤ count ∧
      folder.toList = List.intercalate ['/'] ((parts path).take depth) := by
  simp only [folderChain, List.mem_map, List.mem_range'_1]
  constructor
  · rintro ⟨depth, ⟨hlow, hhigh⟩, rfl⟩
    exact ⟨depth, hlow, by omega, String.toList_ofList⟩
  · rintro ⟨depth, hlow, hhigh, htext⟩
    exact ⟨depth, ⟨hlow, by omega⟩, by rw [← htext, String.ofList_toList]⟩

theorem parts_ne_nil (path : String) : parts path ≠ [] := List.splitOn_ne_nil _ _

/-- The folders a file is in. -/
theorem mem_folderChain_inside :
    folder ∈ folderChain path ((parts path).length - 1) ↔ Inside folder path := by
  rw [mem_folderChain]
  constructor
  · rintro ⟨depth, hlow, hhigh, htext⟩
    refine ⟨List.intercalate ['/'] ((parts path).drop depth), ?_⟩
    have hlength := List.length_pos_iff.mpr (parts_ne_nil path)
    rw [htext, ← intercalate_append, List.take_append_drop, parts, List.intercalate_splitOn]
    · exact List.ne_nil_of_length_pos (by rw [List.length_take]; omega)
    · exact List.ne_nil_of_length_pos (by rw [List.length_drop]; omega)
  · rintro ⟨rest, hrest⟩
    rw [List.append_assoc, List.singleton_append] at hrest
    have hparts : parts path = parts folder ++ rest.splitOn '/' := by
      rw [parts, ← hrest, List.splitOn_append_cons_self]
      rfl
    have hfolder := List.length_pos_iff.mpr (parts_ne_nil folder)
    have htail := List.length_pos_iff.mpr (List.splitOn_ne_nil '/' rest)
    refine ⟨(parts folder).length, hfolder, ?_, ?_⟩
    · rw [hparts, List.length_append]
      omega
    · rw [hparts, List.take_left, parts, List.intercalate_splitOn]

theorem mem_folderChain_self :
    folder ∈ folderChain path (parts path).length ↔ folder = path ∨ Inside folder path := by
  rw [← mem_folderChain_inside, mem_folderChain, mem_folderChain]
  have hlength := List.length_pos_iff.mpr (parts_ne_nil path)
  have hwhole : List.intercalate ['/'] ((parts path).take (parts path).length) = path.toList := by
    rw [List.take_length, parts, List.intercalate_splitOn]
  constructor
  · rintro ⟨depth, hlow, hhigh, htext⟩
    by_cases hlast : depth = (parts path).length
    · rw [hlast, hwhole] at htext
      exact Or.inl (String.toList_inj.mp htext)
    · exact Or.inr ⟨depth, hlow, by omega, htext⟩
  · rintro (rfl | ⟨depth, hlow, hhigh, htext⟩)
    · exact ⟨_, hlength, le_rfl, hwhole.symm⟩
    · exact ⟨depth, hlow, by omega, htext⟩

/-- No folder of a path is met twice. -/
theorem folderChain_nodup {count : ℕ} (hcount : count ≤ (parts path).length) :
    (folderChain path count).Nodup := by
  have hpairwise : (folderChain path count).Pairwise Inside := by
    rw [folderChain, List.pairwise_map]
    refine List.Pairwise.imp_of_mem ?_ (@List.pairwise_lt_range' 1 count 1 Nat.one_pos)
    intro low high hlow hhigh hlt
    rw [List.mem_range'_1] at hlow hhigh
    refine ⟨List.intercalate ['/'] (((parts path).take high).drop low), ?_⟩
    have htake : (parts path).take low = ((parts path).take high).take low := by
      rw [List.take_take, Nat.min_eq_left (Nat.le_of_lt hlt)]
    rw [String.toList_ofList, String.toList_ofList, htake, ← intercalate_append,
      List.take_append_drop]
    · exact List.ne_nil_of_length_pos (by simp only [List.length_take]; omega)
    · exact List.ne_nil_of_length_pos (by simp only [List.length_take, List.length_drop]; omega)
  refine hpairwise.imp fun hinside hsame => ?_
  rw [hsame] at hinside
  exact Below.irrefl hinside

/-! ## The tables -/

theorem mem_addFolder {folders : List String} {added : String} :
    folder ∈ addFolder folders added ↔ folder ∈ folders ∨ folder = added := by
  rw [addFolder]
  split_ifs with h
  · exact ⟨Or.inl, fun hmem => hmem.elim id fun heq => heq ▸ h⟩
  · rw [List.mem_append, List.mem_singleton]

theorem addFolder_nodup {folders : List String} (h : folders.Nodup) :
    (addFolder folders folder).Nodup := by
  rw [addFolder]
  split_ifs with hmem
  · exact h
  · exact List.nodup_append.mpr ⟨h, List.nodup_singleton _,
      fun a ha b hb => fun hab => hmem (List.mem_singleton.mp hb ▸ hab ▸ ha)⟩

theorem mem_foldl_addFolder {folders added : List String} :
    folder ∈ added.foldl addFolder folders ↔ folder ∈ folders ∨ folder ∈ added := by
  induction added generalizing folders with
  | nil => simp
  | cons first added ih => rw [List.foldl_cons, ih, mem_addFolder, List.mem_cons, or_assoc]

theorem foldl_addFolder_nodup {folders added : List String} (h : folders.Nodup) :
    (added.foldl addFolder folders).Nodup := by
  induction added generalizing folders with
  | nil => exact h
  | cons first added ih => exact ih (addFolder_nodup h)

theorem mem_foldl_chains {chain : String → List String} {folders paths : List String} :
    folder ∈ paths.foldl (fun folders path => (chain path).foldl addFolder folders) folders ↔
      folder ∈ folders ∨ ∃ path ∈ paths, folder ∈ chain path := by
  induction paths generalizing folders with
  | nil => simp
  | cons path paths ih =>
    rw [List.foldl_cons, ih, mem_foldl_addFolder, or_assoc]
    simp only [List.mem_cons, exists_eq_or_imp]

theorem foldl_chains_nodup {chain : String → List String} {folders paths : List String}
    (h : folders.Nodup) :
    (paths.foldl (fun folders path => (chain path).foldl addFolder folders) folders).Nodup := by
  induction paths generalizing folders with
  | nil => exact h
  | cons path paths ih => exact ih (foldl_addFolder_nodup h)

/-- The folders of the files, and the pending ones with theirs. -/
theorem mem_folders : folder ∈ o.folders ↔
    (∃ file ∈ o.files, Inside folder file) ∨
      ∃ pending ∈ o.pendingFolders, folder = pending ∨ Inside folder pending := by
  rw [Options.folders, mem_foldl_chains, mem_foldl_chains]
  simp only [List.not_mem_nil, false_or, mem_folderChain_inside, mem_folderChain_self]

theorem folders_nodup (o : Options) : o.folders.Nodup :=
  foldl_chains_nodup (foldl_chains_nodup List.nodup_nil)

theorem foldl_groupByParent {paths : List String} {children : String → List String} :
    paths.foldl (fun children path =>
      Function.update children (parentOf path) (children (parentOf path) ++ [path])) children folder =
      children folder ++ paths.filter fun path => parentOf path = folder := by
  induction paths generalizing children with
  | nil => simp
  | cons path paths ih =>
    rw [List.foldl_cons, ih, List.filter_cons]
    by_cases h : parentOf path = folder
    · simp [h]
    · simp [h, Function.update_of_ne (Ne.symm h)]

theorem groupByParent_eq (paths : List String) (folder : String) :
    groupByParent paths folder = paths.filter fun path => parentOf path = folder := by
  rw [groupByParent, foldl_groupByParent, List.nil_append]

theorem foldl_update {chain : List String} {table : String → ℕ} {fails : ℕ} :
    chain.foldl (fun table folder => Function.update table folder (table folder + fails)) table
      folder = table folder + chain.count folder * fails := by
  induction chain generalizing table with
  | nil => simp
  | cons first chain ih =>
    rw [List.foldl_cons, ih, List.count_cons]
    by_cases h : first = folder
    · subst h
      simp [Nat.add_mul]
      omega
    · simp [h, Function.update_of_ne (Ne.symm h)]

instance : DecidableRel Inside :=
  fun folder path => inferInstanceAs (Decidable (folder.toList ++ ['/'] <+: path.toList))

theorem count_folderChain (folder path : String) :
    (folderChain path ((parts path).length - 1)).count folder = if Inside folder path then 1 else 0 := by
  rw [List.Nodup.count (folderChain_nodup (Nat.sub_le _ _))]
  simp only [mem_folderChain_inside]

theorem foldl_folderFails {entries : List (String × ℕ)} {table : String → ℕ} :
    entries.foldl (fun table entry =>
      if entry.2 = 0 then table
      else (folderChain entry.1 ((parts entry.1).length - 1)).foldl (fun table folder =>
        Function.update table folder (table folder + entry.2)) table) table folder =
      table folder + ((entries.filter fun entry => Inside folder entry.1).map Prod.snd).sum := by
  induction entries generalizing table with
  | nil => simp
  | cons entry entries ih =>
    rw [List.foldl_cons, ih, List.filter_cons]
    split_ifs with hzero hinside hinside
    · simp [hzero]
    · rfl
    · rw [foldl_update, count_folderChain, if_pos (of_decide_eq_true hinside)]
      simp [Nat.add_assoc]
    · rw [foldl_update, count_folderChain, if_neg (of_decide_eq_false (by simpa using hinside))]
      simp

/-- `failsByFile.get(file) ?? 0` -/
def failsOf (entries : List (String × ℕ)) (file : String) : ℕ :=
  ((entries.find? fun entry => entry.1 = file).map Prod.snd).getD 0

theorem failsOf_of_notMem {entries : List (String × ℕ)} (h : path ∉ entries.map Prod.fst) :
    failsOf entries path = 0 := by
  have hfind : (entries.find? fun entry => entry.1 = path) = none :=
    List.find?_eq_none.mpr fun entry hentry hsame =>
      h (of_decide_eq_true hsame ▸ List.mem_map_of_mem hentry)
  rw [failsOf, hfind]
  rfl

theorem failsOf_cons {entries : List (String × ℕ)} {entry : String × ℕ} :
    failsOf (entry :: entries) path = if entry.1 = path then entry.2 else failsOf entries path := by
  rw [failsOf, List.find?_cons]
  split_ifs with h
  · simp [h]
  · simp [h, failsOf]

theorem sum_failsOf_cons {entries : List (String × ℕ)} {entry : String × ℕ} {files : List String}
    (hfiles : files.Nodup) (hkey : entry.1 ∉ entries.map Prod.fst) :
    (files.map (failsOf (entry :: entries))).sum =
      (if entry.1 ∈ files then entry.2 else 0) + (files.map (failsOf entries)).sum := by
  induction files with
  | nil => simp
  | cons file files ih =>
    obtain ⟨hnew, hfiles⟩ := List.nodup_cons.mp hfiles
    rw [List.map_cons, List.sum_cons, ih hfiles, failsOf_cons, List.map_cons, List.sum_cons]
    by_cases hsame : entry.1 = file
    · subst hsame
      rw [if_pos rfl, if_neg hnew, if_pos List.mem_cons_self, failsOf_of_notMem hkey]
    · rw [if_neg hsame]
      simp only [List.mem_cons, hsame, false_or]
      omega

theorem sum_fails {entries : List (String × ℕ)} {files : List String} (p : String → Bool)
    (hfiles : files.Nodup) (hkeys : (entries.map Prod.fst).Nodup)
    (hknown : ∀ entry ∈ entries, entry.1 ∈ files) :
    ((entries.filter fun entry => p entry.1).map Prod.snd).sum =
      ((files.filter p).map (failsOf entries)).sum := by
  induction entries with
  | nil =>
    have hzero : failsOf [] = fun _ => 0 := rfl
    simp [hzero]
  | cons entry entries ih =>
    rw [List.map_cons, List.nodup_cons] at hkeys
    rw [sum_failsOf_cons (hfiles.filter p) hkeys.1, List.filter_cons,
      ← ih hkeys.2 fun e he => hknown e (List.mem_cons_of_mem _ he)]
    have hfile := hknown entry List.mem_cons_self
    by_cases hp : p entry.1
    · simp [hp, hfile]
    · simp [hp]

/-- What a folder shows is the sum over the files in it. -/
theorem folderFails_eq (hfiles : o.files.Nodup) (hkeys : (o.failsByFile.map Prod.fst).Nodup)
    (hknown : ∀ entry ∈ o.failsByFile, entry.1 ∈ o.files) (folder : String) :
    o.folderFails folder =
      ((o.files.filter fun file => Inside folder file).map (failsOf o.failsByFile)).sum := by
  rw [Options.folderFails, foldl_folderFails, Nat.zero_add]
  exact sum_fails (fun file => Inside folder file) hfiles hkeys hknown

/-! ## The walk, apart from fuel -/

/-- What a walk below `parent` shows: its folders, each with what is in it, and its files. -/
inductive Walks (o : Options) : String → ℕ → List TreeRow → Prop
  | intro {parent : String} {depth : ℕ} {folders files : List String}
      {inner : String → List TreeRow} :
      folders.Perm (groupByParent o.folders parent) →
      files.Perm (groupByParent o.files parent) →
      (∀ folder ∈ folders, folder ∈ o.collapsed → inner folder = []) →
      (∀ folder ∈ folders, folder ∉ o.collapsed → Walks o folder (depth + 1) (inner folder)) →
      Walks o parent depth
        ((folders.flatMap fun folder => o.folderRow depth folder :: inner folder) ++
          files.map (Options.fileRow depth))

theorem toSorted_perm (paths : List String) : (toSorted localeCompare paths).Perm paths :=
  List.mergeSort_perm _ _

theorem collect_eq_some {blocks : List (Option (List TreeRow))} (h : collect blocks = some rows) :
    rows = blocks.flatMap (·.getD []) ∧ ∀ block ∈ blocks, block.isSome := by
  induction blocks generalizing rows with
  | nil =>
    obtain rfl := Option.some.inj h
    exact ⟨rfl, fun _ hmem => nomatch hmem⟩
  | cons block blocks ih =>
    obtain ⟨first, rfl, hrest⟩ := Option.bind_eq_some_iff.mp h
    obtain ⟨rest, hcollect, rfl⟩ := Option.map_eq_some_iff.mp hrest
    obtain ⟨rfl, hsome⟩ := ih hcollect
    exact ⟨rfl, List.forall_mem_cons.mpr ⟨rfl, hsome⟩⟩

theorem collect_of_isSome {blocks : List (Option (List TreeRow))}
    (h : ∀ block ∈ blocks, block.isSome) : ∃ rows, collect blocks = some rows := by
  induction blocks with
  | nil => exact ⟨[], rfl⟩
  | cons block blocks ih =>
    obtain ⟨hfirst, hrest⟩ := List.forall_mem_cons.mp h
    obtain ⟨first, rfl⟩ := Option.isSome_iff_exists.mp hfirst
    obtain ⟨rest, hcollect⟩ := ih hrest
    exact ⟨first ++ rest, by rw [collect, Option.bind_some, hcollect]; rfl⟩

/-- What a walk collects, folder by folder. -/
theorem walk_succ (h : walk localeCompare o (fuel + 1) path depth = some rows) :
    (∀ folder ∈ toSorted localeCompare (groupByParent o.folders path), folder ∉ o.collapsed →
      ∃ inner, walk localeCompare o fuel folder (depth + 1) = some inner) ∧
    rows = ((toSorted localeCompare (groupByParent o.folders path)).flatMap fun folder =>
        o.folderRow depth folder ::
          if folder ∈ o.collapsed then []
          else (walk localeCompare o fuel folder (depth + 1)).getD []) ++
      (toSorted localeCompare (groupByParent o.files path)).map (Options.fileRow depth) := by
  rw [walk] at h
  obtain ⟨shown, hcollect, rfl⟩ := Option.map_eq_some_iff.mp h
  obtain ⟨rfl, hsome⟩ := collect_eq_some hcollect
  have hinner : ∀ folder ∈ toSorted localeCompare (groupByParent o.folders path),
      folder ∉ o.collapsed →
        ∃ inner, walk localeCompare o fuel folder (depth + 1) = some inner := by
    intro folder hfolder hopen
    have hblock := hsome _ (List.mem_map_of_mem hfolder)
    rw [if_neg hopen, Option.isSome_map] at hblock
    exact Option.isSome_iff_exists.mp hblock
  refine ⟨hinner, congrArg (· ++ _) ?_⟩
  rw [List.flatMap_map]
  refine List.flatMap_congr fun folder hfolder => ?_
  split_ifs with hcollapsed
  · rfl
  · obtain ⟨inner, hwalk⟩ := hinner folder hfolder hcollapsed
    rw [hwalk]
    rfl

theorem walks_of_walk (h : walk localeCompare o fuel path depth = some rows) :
    Walks o path depth rows := by
  induction fuel generalizing path depth rows with
  | zero => cases h
  | succ fuel ih =>
    obtain ⟨hinner, rfl⟩ := walk_succ h
    refine .intro (toSorted_perm _) (toSorted_perm _) (fun folder _ hcollapsed => ?_)
      fun folder hfolder hopen => ?_
    · exact if_pos hcollapsed
    · obtain ⟨inner, hwalk⟩ := hinner folder hfolder hopen
      rw [if_neg hopen, hwalk]
      exact ih hwalk

theorem walk_succ_eq (h : walk localeCompare o fuel path depth = some rows) :
    walk localeCompare o (fuel + 1) path depth = some rows := by
  induction fuel generalizing path depth rows with
  | zero => cases h
  | succ fuel ih =>
    have hinner := (walk_succ h).1
    rw [walk] at h ⊢
    rw [← h]
    congr 2
    refine List.map_congr_left fun folder hfolder => ?_
    split_ifs with hcollapsed
    · rfl
    · obtain ⟨inner, hwalk⟩ := hinner folder hfolder hcollapsed
      rw [hwalk, ih hwalk]

theorem walk_mono {more : ℕ} (hle : fuel ≤ more)
    (h : walk localeCompare o fuel path depth = some rows) :
    walk localeCompare o more path depth = some rows := by
  induction more, hle using Nat.le_induction with
  | base => exact h
  | succ more _ ih => exact walk_succ_eq ih

/-! ## Termination -/

/-- Not empty, and no slash in front. -/
structure Proper (path : String) : Prop where
  ne_empty : path ≠ ""
  relative : ¬Inside "" path

theorem Proper.of_inside (h : Proper path) (hinside : Inside folder path) : Proper folder :=
  ⟨fun hempty => h.relative (hempty ▸ hinside), fun hroot => h.relative (hroot.trans hinside)⟩

/-- Below a proper path's parent there is no other level. -/
theorem Proper.parentOf_eq_iff (h : Proper path) : parentOf path = "" ↔ '/' ∉ path.toList := by
  constructor
  · intro hroot hmem
    exact (h.of_inside (inside_parentOf hmem)).ne_empty hroot
  · exact parentOf_of_notMem

structure ProperOptions (o : Options) : Prop where
  files : ∀ file ∈ o.files, Proper file
  pending : ∀ folder ∈ o.pendingFolders, Proper folder

theorem ProperOptions.folders (h : ProperOptions o) (hmem : folder ∈ o.folders) :
    Proper folder := by
  rcases mem_folders.mp hmem with ⟨file, hfile, hinside⟩ | ⟨pending, hpending, rfl | hinside⟩
  · exact (h.files file hfile).of_inside hinside
  · exact h.pending _ hpending
  · exact (h.pending pending hpending).of_inside hinside

/-- At this depth stand the children of this folder. -/
def Level (parent : String) (depth : ℕ) : Prop :=
  (parent = "" ∧ depth = 0) ∨ (parent ≠ "" ∧ depth = slashes parent + 1)

theorem Level.slashes_eq (h : Level (parentOf path) depth) (hproper : Proper path) :
    slashes path = depth := by
  rcases h with ⟨hroot, rfl⟩ | ⟨hne, rfl⟩
  · exact List.count_eq_zero_of_not_mem (hproper.parentOf_eq_iff.mp hroot)
  · have hmem : '/' ∈ path.toList := by
      by_contra hnot
      exact hne (parentOf_of_notMem hnot)
    exact slashes_parentOf hmem

theorem Level.child (h : Level (parentOf folder) depth) (hproper : Proper folder) :
    Level folder (depth + 1) :=
  Or.inr ⟨hproper.ne_empty, by rw [h.slashes_eq hproper]⟩

theorem mem_groupByParent {paths : List String} :
    path ∈ groupByParent paths folder ↔ path ∈ paths ∧ parentOf path = folder := by
  rw [groupByParent_eq, List.mem_filter, decide_eq_true_eq]

theorem walk_total (h : ProperOptions o) {deepest : ℕ}
    (hdeepest : ∀ folder ∈ o.folders, slashes folder ≤ deepest) (hlevel : Level path depth)
    (hfuel : deepest + 2 ≤ fuel + depth) (hdepth : depth ≤ deepest + 1) :
    ∃ rows, walk localeCompare o fuel path depth = some rows := by
  induction fuel generalizing path depth with
  | zero => omega
  | succ fuel ih =>
    have hsome : ∀ block ∈ (toSorted localeCompare (groupByParent o.folders path)).map fun folder =>
        if folder ∈ o.collapsed then some [o.folderRow depth folder]
        else (walk localeCompare o fuel folder (depth + 1)).map (o.folderRow depth folder :: ·),
        block.isSome := by
      intro block hblock
      obtain ⟨folder, hfolder, rfl⟩ := List.mem_map.mp hblock
      obtain ⟨hmem, rfl⟩ := mem_groupByParent.mp ((toSorted_perm _).mem_iff.mp hfolder)
      have hproper := h.folders hmem
      split_ifs with hcollapsed
      · rfl
      · have := hdeepest folder hmem
        rw [hlevel.slashes_eq hproper] at this
        obtain ⟨inner, hwalk⟩ := ih (hlevel.child hproper) (by omega) (by omega)
        rw [hwalk]
        rfl
    obtain ⟨rows, hrows⟩ := collect_of_isSome hsome
    exact ⟨_, by rw [walk, hrows]; rfl⟩

/-! ## What a level shows -/

/-- Inside this folder, or anywhere below the top. -/
def Within (parent path : String) : Prop := parent = "" ∨ Inside parent path

theorem Within.trans (h : Within outer folder) (hinside : Inside folder path) :
    Within outer path :=
  h.imp_right fun houter => houter.trans hinside

theorem within_parentOf (path : String) : Within (parentOf path) path := by
  by_cases h : '/' ∈ path.toList
  · exact Or.inr (inside_parentOf h)
  · exact Or.inl (parentOf_of_notMem h)

/-- Between a folder and its parent stands nothing. -/
theorem Proper.not_between (h : Proper folder) (houter : Within (parentOf folder) outer) :
    ¬Inside outer folder := by
  intro hinside
  have hmem := hinside.sep_mem
  have hne : parentOf folder ≠ "" := fun hroot => h.parentOf_eq_iff.mp hroot hmem
  have hbelow := houter.resolve_left hne
  rcases (inside_iff hmem).mp hinside with rfl | habove
  · exact Below.irrefl hbelow
  · exact hbelow.asymm habove

/-- A path inside a folder, but not right in it, is in one of its children. -/
theorem exists_child (hwithin : Within outer path) (hne : parentOf path ≠ outer) :
    ∃ child, parentOf child = outer ∧ Inside child path := by
  have hmem : '/' ∈ path.toList := by
    by_contra hnot
    rcases hwithin with rfl | hinside
    · exact hne (parentOf_of_notMem hnot)
    · exact hnot hinside.sep_mem
  generalize hcount : slashes path = count
  induction count generalizing path with
  | zero => exact absurd (List.count_eq_zero.mp hcount) (not_not.mpr hmem)
  | succ count ih =>
    have hinside := inside_parentOf hmem
    by_cases hchild : parentOf (parentOf path) = outer
    · exact ⟨parentOf path, hchild, hinside⟩
    · have hup : Within outer (parentOf path) := by
        refine hwithin.imp_right fun houter => ?_
        exact ((inside_iff hmem).mp houter).resolve_left fun hsame => hne hsame.symm
      have hmem' : '/' ∈ (parentOf path).toList := by
        by_contra hnot
        rcases hup with rfl | houter
        · exact hchild (parentOf_of_notMem hnot)
        · exact hnot houter.sep_mem
      have hless := slashes_parentOf hmem
      obtain ⟨child, hparent, hchild⟩ := ih hup hchild hmem' (by omega)
      exact ⟨child, hparent, hchild.trans hinside⟩

/-- The path itself or one inside it. -/
def AtOrIn (folder path : String) : Prop := path = folder ∨ Inside folder path

theorem Proper.not_atOrIn_parentOf (h : Proper folder) : ¬AtOrIn folder (parentOf folder) := by
  have hlength : (parentOf folder).toList.length < folder.toList.length := by
    by_cases hmem : '/' ∈ folder.toList
    · exact (inside_parentOf hmem).length_lt
    · rw [parentOf_of_notMem hmem]
      exact List.length_pos_iff.mpr fun hnil => h.ne_empty (String.toList_eq_nil_iff.mp hnil)
  rintro (hsame | hinside)
  · rw [hsame] at hlength
    exact Nat.lt_irrefl _ hlength
  · exact absurd (hlength.trans hinside.length_lt) (Nat.lt_irrefl _)

/-- Two folders of one level have nothing in common. -/
theorem Proper.eq_of_shared (hfolder : Proper folder) (houter : Proper outer)
    (hlevel : parentOf folder = parentOf outer) (h : AtOrIn folder path) (h' : AtOrIn outer path) :
    folder = outer := by
  have hnot : ¬Inside folder outer := houter.not_between (hlevel ▸ within_parentOf folder)
  have hnot' : ¬Inside outer folder := hfolder.not_between (hlevel ▸ within_parentOf outer)
  rcases h with rfl | hinside
  · rcases h' with rfl | hinside'
    · rfl
    · exact absurd hinside' hnot'
  · rcases h' with rfl | hinside'
    · exact absurd hinside hnot
    · rcases hinside.trichotomy hinside' with hsame | hbelow | hbelow
      · exact String.toList_inj.mp hsame
      · exact absurd hbelow hnot
      · exact absurd hbelow hnot'

theorem mem_level {row : TreeRow} {folders files : List String} {inner : String → List TreeRow} :
    row ∈ (folders.flatMap fun folder => o.folderRow depth folder :: inner folder) ++
        files.map (Options.fileRow depth) ↔
      (∃ folder ∈ folders, row = o.folderRow depth folder ∨ row ∈ inner folder) ∨
        ∃ file ∈ files, row = Options.fileRow depth file := by
  simp only [List.mem_append, List.mem_flatMap, List.mem_cons, List.mem_map, eq_comm]

/-- The row of a folder or a file inside the one walked below. -/
def Placed (o : Options) (parent : String) (row : TreeRow) : Prop :=
  Within parent row.path ∧
    ((row.path ∈ o.folders ∧ row = o.folderRow (slashes row.path) row.path) ∨
      row.path ∈ o.files ∧ row = Options.fileRow (slashes row.path) row.path)

theorem Walks.placed (hproper : ProperOptions o) {parent : String} (h : Walks o parent depth rows)
    (hlevel : Level parent depth) : ∀ row ∈ rows, Placed o parent row := by
  induction h with
  | @intro parent depth folders files inner hfolders hfiles hcollapsed _ ih =>
    intro row hrow
    rcases mem_level.mp hrow with ⟨folder, hfolder, rfl | hinner⟩ | ⟨file, hfile, rfl⟩
    · obtain ⟨hmem, rfl⟩ := mem_groupByParent.mp (hfolders.mem_iff.mp hfolder)
      refine ⟨within_parentOf folder, Or.inl ⟨hmem, ?_⟩⟩
      exact congrArg (o.folderRow · folder) (hlevel.slashes_eq (hproper.folders hmem)).symm
    · obtain ⟨hmem, rfl⟩ := mem_groupByParent.mp (hfolders.mem_iff.mp hfolder)
      have hopen : folder ∉ o.collapsed := fun hin => by
        rw [hcollapsed folder hfolder hin] at hinner
        cases hinner
      obtain ⟨hwithin, hplace⟩ :=
        ih folder hfolder hopen (hlevel.child (hproper.folders hmem)) row hinner
      have hinside := hwithin.resolve_left (hproper.folders hmem).ne_empty
      exact ⟨(within_parentOf folder).trans hinside, hplace⟩
    · obtain ⟨hmem, rfl⟩ := mem_groupByParent.mp (hfiles.mem_iff.mp hfile)
      refine ⟨within_parentOf file, Or.inr ⟨hmem, ?_⟩⟩
      exact congrArg (Options.fileRow · file) (hlevel.slashes_eq (hproper.files file hmem)).symm

/-- The folders or the files. -/
def listed (o : Options) (isFolder : Bool) : List String := if isFolder then o.folders else o.files

theorem ProperOptions.listed (h : ProperOptions o) {isFolder : Bool}
    (hmem : path ∈ listed o isFolder) : Proper path := by
  cases isFolder with
  | true => exact h.folders hmem
  | false => exact h.files path hmem

theorem folder_of_listed {isFolder : Bool} (hmem : path ∈ listed o isFolder)
    (hinside : Inside folder path) : folder ∈ o.folders := by
  refine mem_folders.mpr ?_
  cases isFolder with
  | true =>
    rcases mem_folders.mp hmem with ⟨file, hfile, hin⟩ | ⟨pending, hpending, rfl | hin⟩
    · exact Or.inl ⟨file, hfile, hinside.trans hin⟩
    · exact Or.inr ⟨_, hpending, Or.inr hinside⟩
    · exact Or.inr ⟨pending, hpending, Or.inr (hinside.trans hin)⟩
  | false => exact Or.inl ⟨path, hmem, hinside⟩

/-- No folder between this one and the path is collapsed. -/
def Seen (o : Options) (parent path : String) : Prop :=
  Within parent path ∧ ∀ folder, Within parent folder → Inside folder path → folder ∉ o.collapsed

theorem Proper.seen_of_child (h : Proper path) : Seen o (parentOf path) path :=
  ⟨within_parentOf path, fun _ hwithin hinside => absurd hinside (h.not_between hwithin)⟩

theorem seen_child_iff (hproper : Proper folder) (hopen : folder ∉ o.collapsed)
    (hinside : Inside folder path) : Seen o folder path ↔ Seen o (parentOf folder) path := by
  constructor
  · rintro ⟨-, hbelow⟩
    refine ⟨(within_parentOf folder).trans hinside, fun outer hwithin houter => ?_⟩
    rcases houter.trichotomy hinside with hsame | habove | hbetween
    · rwa [String.toList_inj.mp hsame]
    · exact absurd habove (hproper.not_between hwithin)
    · exact hbelow outer (Or.inr hbetween) houter
  · rintro ⟨-, hbelow⟩
    refine ⟨Or.inr hinside, fun inner hwithin hinner => hbelow inner ?_ hinner⟩
    exact (within_parentOf folder).trans (hwithin.resolve_left hproper.ne_empty)

/-- What is not hidden is shown, and nothing else. -/
theorem Walks.shown_iff (hproper : ProperOptions o) {parent : String} (h : Walks o parent depth rows)
    (hlevel : Level parent depth) (isFolder : Bool) (path : String) :
    (∃ row ∈ rows, row.isFolder = isFolder ∧ row.path = path) ↔
      path ∈ listed o isFolder ∧ Seen o parent path := by
  induction h with
  | @intro parent depth folders files inner hfolders hfiles hcollapsed hwalks ih =>
    constructor
    · rintro ⟨row, hrow, rfl, rfl⟩
      rcases mem_level.mp hrow with ⟨folder, hfolder, rfl | hinner⟩ | ⟨file, hfile, rfl⟩
      · obtain ⟨hmem, rfl⟩ := mem_groupByParent.mp (hfolders.mem_iff.mp hfolder)
        exact ⟨hmem, (hproper.folders hmem).seen_of_child⟩
      · obtain ⟨hmem, rfl⟩ := mem_groupByParent.mp (hfolders.mem_iff.mp hfolder)
        have hopen : folder ∉ o.collapsed := fun hin => by
          rw [hcollapsed folder hfolder hin] at hinner
          cases hinner
        have hfolder' := hproper.folders hmem
        obtain ⟨hlisted, hseen⟩ :=
          (ih folder hfolder hopen (hlevel.child hfolder')).mp ⟨row, hinner, rfl, rfl⟩
        exact ⟨hlisted, (seen_child_iff hfolder' hopen
          (hseen.1.resolve_left hfolder'.ne_empty)).mp hseen⟩
      · obtain ⟨hmem, rfl⟩ := mem_groupByParent.mp (hfiles.mem_iff.mp hfile)
        exact ⟨hmem, (hproper.files file hmem).seen_of_child⟩
    · rintro ⟨hlisted, hseen⟩
      by_cases hchild : parentOf path = parent
      · cases isFolder with
        | true =>
          have hmem := hfolders.mem_iff.mpr (mem_groupByParent.mpr ⟨hlisted, hchild⟩)
          exact ⟨_, mem_level.mpr (Or.inl ⟨path, hmem, Or.inl rfl⟩), rfl, rfl⟩
        | false =>
          have hmem := hfiles.mem_iff.mpr (mem_groupByParent.mpr ⟨hlisted, hchild⟩)
          exact ⟨_, mem_level.mpr (Or.inr ⟨path, hmem, rfl⟩), rfl, rfl⟩
      · obtain ⟨folder, rfl, hinside⟩ := exists_child hseen.1 hchild
        have hmem := folder_of_listed hlisted hinside
        have hfolder := hfolders.mem_iff.mpr (mem_groupByParent.mpr ⟨hmem, rfl⟩)
        have hopen := hseen.2 folder (within_parentOf folder) hinside
        have hfolder' := hproper.folders hmem
        obtain ⟨row, hrow, hkind, hpath⟩ :=
          (ih folder hfolder hopen (hlevel.child hfolder')).mpr
            ⟨hlisted, (seen_child_iff hfolder' hopen hinside).mpr hseen⟩
        exact ⟨row, mem_level.mpr (Or.inl ⟨folder, hfolder, Or.inr hrow⟩), hkind, hpath⟩

/-- A row is told by its kind and its path. -/
def TreeRow.rowId (row : TreeRow) : Bool × String := (row.isFolder, row.path)

/-- A row in the block of a folder is its own or one inside it. -/
theorem atOrIn_of_block (hproper : ProperOptions o) {row : TreeRow} {inner : List TreeRow}
    (hfolder : folder ∈ o.folders) (hlevel : Level (parentOf folder) depth)
    (hcollapsed : folder ∈ o.collapsed → inner = [])
    (hwalks : folder ∉ o.collapsed → Walks o folder (depth + 1) inner)
    (hrow : row ∈ o.folderRow depth folder :: inner) :
    row = o.folderRow depth folder ∨ row ∈ inner ∧ Inside folder row.path := by
  rcases List.mem_cons.mp hrow with rfl | hinner
  · exact Or.inl rfl
  · have hopen : folder ∉ o.collapsed := fun hin => by
      rw [hcollapsed hin] at hinner
      cases hinner
    have hfolder' := hproper.folders hfolder
    have hwithin := ((hwalks hopen).placed hproper (hlevel.child hfolder') row hinner).1
    exact Or.inr ⟨hinner, hwithin.resolve_left hfolder'.ne_empty⟩

theorem atOrIn_path {row : TreeRow} {inner : List TreeRow}
    (h : row = o.folderRow depth folder ∨ row ∈ inner ∧ Inside folder row.path) :
    AtOrIn folder row.path := by
  rcases h with rfl | ⟨-, hinside⟩
  · exact Or.inl rfl
  · exact Or.inr hinside

theorem groupByParent_nodup {paths : List String} (h : paths.Nodup) (parent : String) :
    (groupByParent paths parent).Nodup := by
  rw [groupByParent_eq]
  exact h.filter _

theorem Walks.nodup (hproper : ProperOptions o) (hdistinct : o.files.Nodup) {parent : String}
    (h : Walks o parent depth rows) (hlevel : Level parent depth) :
    (rows.map TreeRow.rowId).Nodup := by
  induction h with
  | @intro parent depth folders files inner hfolders hfiles hcollapsed hwalks ih =>
    have hblock : ∀ folder ∈ folders, parentOf folder = parent ∧ folder ∈ o.folders ∧
        ∀ row ∈ o.folderRow depth folder :: inner folder,
          row = o.folderRow depth folder ∨ row ∈ inner folder ∧ Inside folder row.path := by
      intro folder hfolder
      obtain ⟨hmem, rfl⟩ := mem_groupByParent.mp (hfolders.mem_iff.mp hfolder)
      exact ⟨rfl, hmem, fun row => atOrIn_of_block hproper hmem hlevel (hcollapsed folder hfolder)
        (hwalks folder hfolder)⟩
    rw [List.map_append, List.map_flatMap, List.nodup_append, List.nodup_flatMap]
    refine ⟨⟨fun folder hfolder => ?_, ?_⟩, ?_, ?_⟩
    · obtain ⟨rfl, hmem, hrows⟩ := hblock folder hfolder
      have hfolder' := hproper.folders hmem
      rw [List.map_cons, List.nodup_cons]
      constructor
      · intro hrepeated
        obtain ⟨row, hrow, hid⟩ := List.mem_map.mp hrepeated
        have hopen : folder ∉ o.collapsed := fun hin => by
          rw [hcollapsed folder hfolder hin] at hrow
          cases hrow
        have hwithin :=
          ((hwalks folder hfolder hopen).placed hproper (hlevel.child hfolder') row hrow).1
        have hinside := hwithin.resolve_left hfolder'.ne_empty
        rw [(Prod.mk.inj hid).2] at hinside
        exact Below.irrefl hinside
      · by_cases hin : folder ∈ o.collapsed
        · rw [hcollapsed folder hfolder hin]
          exact List.nodup_nil
        · exact ih folder hfolder hin (hlevel.child hfolder')
    · have hfolderNodup := (hfolders.nodup_iff.mpr (groupByParent_nodup (folders_nodup o) parent))
      refine hfolderNodup.imp_of_mem fun {folder outer} hfolder houter hne => ?_
      intro id hid hid'
      obtain ⟨row, hrow, rfl⟩ := List.mem_map.mp hid
      obtain ⟨row', hrow', hsame⟩ := List.mem_map.mp hid'
      obtain ⟨hparent, hmem, hrows⟩ := hblock folder hfolder
      obtain ⟨hparent', hmem', hrows'⟩ := hblock outer houter
      have hat := atOrIn_path (hrows row hrow)
      have hat' := atOrIn_path (hrows' row' hrow')
      rw [show row'.path = row.path from (Prod.mk.inj hsame).2] at hat'
      exact hne ((hproper.folders hmem).eq_of_shared (hproper.folders hmem')
        (hparent.trans hparent'.symm) hat hat')
    · rw [List.map_map]
      refine (hfiles.nodup_iff.mpr (groupByParent_nodup hdistinct parent)).map ?_
      exact fun file file' hid => (Prod.mk.inj hid).2
    · intro id hid id' hid' hsame
      obtain ⟨folder, hfolder, hid⟩ := List.mem_flatMap.mp hid
      obtain ⟨row, hrow, rfl⟩ := List.mem_map.mp hid
      rw [List.map_map] at hid'
      obtain ⟨file, hfile, rfl⟩ := List.mem_map.mp hid'
      obtain ⟨hparent, hmem, hrows⟩ := hblock folder hfolder
      obtain ⟨hlisted, hparent'⟩ := mem_groupByParent.mp (hfiles.mem_iff.mp hfile)
      rcases hrows row hrow with rfl | ⟨-, hinside⟩
      · exact absurd (Prod.mk.inj hsame).1 Bool.noConfusion
      · rw [(Prod.mk.inj hsame).2] at hinside
        refine (hproper.files file hlisted).not_between ?_ hinside
        rw [hparent', ← hparent]
        exact within_parentOf folder

/-! ## The order of the rows -/

/-- Between a row and its folder's stand rows of that folder only. -/
def FollowsFolder (rows : List TreeRow) (row : TreeRow) : Prop :=
  ∃ front folderRow between back, rows = front ++ folderRow :: between ++ row :: back ∧
    folderRow.isFolder = true ∧ folderRow.path = parentOf row.path ∧
    ∀ other ∈ between, Inside folderRow.path other.path

theorem FollowsFolder.extend {row : TreeRow} (h : FollowsFolder rows row)
    (front back : List TreeRow) : FollowsFolder (front ++ rows ++ back) row := by
  obtain ⟨first, folderRow, between, last, rfl, hkind, hpath, hbetween⟩ := h
  exact ⟨front ++ first, folderRow, between, last ++ back, by simp, hkind, hpath, hbetween⟩

theorem Walks.follows (hproper : ProperOptions o) {parent : String} (h : Walks o parent depth rows)
    (hlevel : Level parent depth) :
    ∀ row ∈ rows, parentOf row.path = parent ∨ FollowsFolder rows row := by
  induction h with
  | @intro parent depth folders files inner hfolders hfiles hcollapsed hwalks ih =>
    intro row hrow
    rcases mem_level.mp hrow with ⟨folder, hfolder, rfl | hinner⟩ | ⟨file, hfile, rfl⟩
    · exact Or.inl (mem_groupByParent.mp (hfolders.mem_iff.mp hfolder)).2
    · right
      obtain ⟨hmem, rfl⟩ := mem_groupByParent.mp (hfolders.mem_iff.mp hfolder)
      have hopen : folder ∉ o.collapsed := fun hin => by
        rw [hcollapsed folder hfolder hin] at hinner
        cases hinner
      have hfolder' := hproper.folders hmem
      have hchild := hlevel.child hfolder'
      have hblock : FollowsFolder (o.folderRow depth folder :: inner folder) row := by
        rcases ih folder hfolder hopen hchild row hinner with hdirect | hdeeper
        · obtain ⟨between, back, hsplit⟩ := List.append_of_mem hinner
          refine ⟨[], o.folderRow depth folder, between, back, by rw [hsplit]; rfl, rfl,
            hdirect.symm, fun other hother => ?_⟩
          have hmem' : other ∈ inner folder := hsplit ▸ List.mem_append_left _ hother
          have hwithin := ((hwalks folder hfolder hopen).placed hproper hchild other hmem').1
          exact hwithin.resolve_left hfolder'.ne_empty
        · simpa using hdeeper.extend [o.folderRow depth folder] []
      obtain ⟨before, after, rfl⟩ := List.append_of_mem hfolder
      rw [List.flatMap_append, List.flatMap_cons, List.append_assoc, List.append_assoc,
        ← List.append_assoc]
      exact hblock.extend _ _
    · exact Or.inl (mem_groupByParent.mp (hfiles.mem_iff.mp hfile)).2

/-- Among the rows of one folder its folders come first. -/
theorem Walks.foldersFirst (hproper : ProperOptions o) {parent : String}
    (h : Walks o parent depth rows) (hlevel : Level parent depth) :
    rows.Pairwise fun row later => parentOf row.path = parentOf later.path →
      later.isFolder = true → row.isFolder = true := by
  induction h with
  | @intro parent depth folders files inner hfolders hfiles hcollapsed hwalks ih =>
    rw [List.pairwise_append, List.pairwise_flatMap]
    refine ⟨⟨fun folder hfolder => ?_, ?_⟩, ?_, ?_⟩
    · obtain ⟨hmem, rfl⟩ := mem_groupByParent.mp (hfolders.mem_iff.mp hfolder)
      refine List.pairwise_cons.mpr ⟨fun _ _ _ _ => rfl, ?_⟩
      by_cases hin : folder ∈ o.collapsed
      · rw [hcollapsed folder hfolder hin]
        exact List.Pairwise.nil
      · exact ih folder hfolder hin (hlevel.child (hproper.folders hmem))
    · have hfolderNodup := (hfolders.nodup_iff.mpr (groupByParent_nodup (folders_nodup o) parent))
      refine hfolderNodup.imp_of_mem fun {folder outer} hfolder houter hne => ?_
      intro row hrow later hlater hparents _
      obtain ⟨hmem, rfl⟩ := mem_groupByParent.mp (hfolders.mem_iff.mp hfolder)
      obtain ⟨hmem', hlevel'⟩ := mem_groupByParent.mp (hfolders.mem_iff.mp houter)
      have hrow := atOrIn_of_block hproper hmem hlevel (hcollapsed folder hfolder)
        (hwalks folder hfolder) hrow
      have hlater := atOrIn_of_block hproper hmem' (hlevel' ▸ hlevel) (hcollapsed outer houter)
        (hwalks outer houter) hlater
      rcases hrow with rfl | ⟨-, hinside⟩
      · rfl
      · have hat : AtOrIn folder (parentOf row.path) :=
          ((inside_iff hinside.sep_mem).mp hinside).imp_left Eq.symm
        rw [hparents] at hat
        rcases hlater with rfl | ⟨-, hinside'⟩
        · rw [show parentOf (o.folderRow depth outer).path = parentOf folder from hlevel'] at hat
          exact absurd hat (hproper.folders hmem).not_atOrIn_parentOf
        · have hat' : AtOrIn outer (parentOf later.path) :=
            ((inside_iff hinside'.sep_mem).mp hinside').imp_left Eq.symm
          exact absurd ((hproper.folders hmem).eq_of_shared (hproper.folders hmem') hlevel'.symm hat
            hat') hne
    · rw [List.pairwise_map]
      exact List.pairwise_of_forall fun _ _ _ => id
    · intro row _ later hlater _ hkind
      obtain ⟨file, -, rfl⟩ := List.mem_map.mp hlater
      cases hkind

/-! ## The whole tree -/

/-- How often a path has a row of this kind. -/
def shown (rows : List TreeRow) (isFolder : Bool) (path : String) : ℕ :=
  rows.countP fun row => row.isFolder = isFolder ∧ row.path = path

def Hidden (o : Options) (path : String) : Prop := ∃ folder ∈ o.collapsed, Inside folder path

instance : DecidablePred (Hidden o) :=
  fun path => inferInstanceAs (Decidable (∃ folder ∈ o.collapsed, Inside folder path))

/-- An ancestor of a file or of a pending folder, or a pending folder. -/
def IsFolder (o : Options) (folder : String) : Prop :=
  (∃ file ∈ o.files, Inside folder file) ∨
    ∃ pending ∈ o.pendingFolders, folder = pending ∨ Inside folder pending

structure ShowsTree (o : Options) (rows : List TreeRow) : Prop where
  files : ∀ file ∈ o.files, shown rows false file = if Hidden o file then 0 else 1
  folders : ∀ folder, IsFolder o folder → shown rows true folder = if Hidden o folder then 0 else 1
  only : ∀ row ∈ rows, if row.isFolder then IsFolder o row.path else row.path ∈ o.files
  depth : ∀ row ∈ rows, row.depth = slashes row.path
  follows : ∀ row ∈ rows, parentOf row.path = "" ∨ FollowsFolder rows row
  foldersFirst : rows.Pairwise fun row later => parentOf row.path = parentOf later.path →
    later.isFolder = true → row.isFolder = true
  fails : ∀ folder name depth collapsed fails pending,
    .folder folder name depth collapsed fails pending ∈ rows →
      fails = ((o.files.filter fun file => Inside folder file).map (failsOf o.failsByFile)).sum

/-- What the callers hand over: checked paths, and a map over the files. -/
structure ValidOptions (o : Options) : Prop where
  files : ∀ file ∈ o.files, ClientUri.isValidProjectPath file = true
  distinct : o.files.Nodup
  pending : ∀ folder ∈ o.pendingFolders, ClientUri.isValidProjectPath folder = true
  keys : (o.failsByFile.map Prod.fst).Nodup
  known : ∀ entry ∈ o.failsByFile, entry.1 ∈ o.files

theorem proper_of_valid (h : ClientUri.isValidProjectPath path = true) : Proper path := by
  simp only [ClientUri.isValidProjectPath, Bool.and_eq_true, Bool.not_eq_true',
    Bool.or_eq_false_iff, decide_eq_false_iff_not] at h
  obtain ⟨⟨⟨⟨⟨⟨hempty, hslash⟩, -⟩, -⟩, -⟩, -⟩, -⟩ := h
  refine ⟨hempty, ?_⟩
  rintro ⟨rest, hrest⟩
  exact hslash (by rw [← hrest]; rfl)

theorem ValidOptions.proper (h : ValidOptions o) : ProperOptions o :=
  ⟨fun file hfile => proper_of_valid (h.files file hfile),
    fun folder hfolder => proper_of_valid (h.pending folder hfolder)⟩

theorem shown_eq (hnodup : (rows.map TreeRow.rowId).Nodup) {isFolder : Bool} {P : Prop}
    [Decidable P] (h : (∃ row ∈ rows, row.isFolder = isFolder ∧ row.path = path) ↔ ¬P) :
    shown rows isFolder path = if P then 0 else 1 := by
  have hcount : shown rows isFolder path = (rows.map TreeRow.rowId).count (isFolder, path) := by
    rw [List.count_eq_countP, List.countP_map, shown]
    refine List.countP_congr fun row _ => ?_
    rw [decide_eq_true_eq, Function.comp_apply, beq_iff_eq]
    exact Prod.mk_inj.symm
  have hmem : (isFolder, path) ∈ rows.map TreeRow.rowId ↔ ¬P := by
    rw [← h, List.mem_map]
    exact exists_congr fun row => and_congr_right fun _ => Prod.mk_inj
  rw [hcount, hnodup.count]
  by_cases hP : P
  · rw [if_pos hP, if_neg fun hin => hmem.mp hin hP]
  · rw [if_neg hP, if_pos (hmem.mpr hP)]

theorem seen_top_iff : Seen o "" path ↔ ¬Hidden o path := by
  constructor
  · rintro ⟨-, hseen⟩ ⟨folder, hcollapsed, hinside⟩
    exact hseen folder (Or.inl rfl) hinside hcollapsed
  · exact fun hhidden => ⟨Or.inl rfl, fun folder _ hinside hcollapsed =>
      hhidden ⟨folder, hcollapsed, hinside⟩⟩

theorem Walks.showsTree (h : ValidOptions o) (hwalks : Walks o "" 0 rows) : ShowsTree o rows := by
  have hlevel : Level "" 0 := Or.inl ⟨rfl, rfl⟩
  have hplaced := hwalks.placed h.proper hlevel
  have hnodup := hwalks.nodup h.proper h.distinct hlevel
  have hiff := hwalks.shown_iff h.proper hlevel
  refine ⟨fun file hfile => shown_eq hnodup ?_, fun folder hfolder => shown_eq hnodup ?_, ?_, ?_,
    hwalks.follows h.proper hlevel, hwalks.foldersFirst h.proper hlevel, ?_⟩
  · rw [hiff, seen_top_iff]
    exact and_iff_right hfile
  · rw [hiff, seen_top_iff]
    exact and_iff_right (mem_folders.mpr hfolder)
  · intro row hrow
    rcases (hplaced row hrow).2 with ⟨hmem, hform⟩ | ⟨hmem, hform⟩
    · rw [hform]
      exact mem_folders.mp hmem
    · rw [hform]
      exact hmem
  · intro row hrow
    rcases (hplaced row hrow).2 with ⟨-, hform⟩ | ⟨-, hform⟩
    · exact congrArg TreeRow.depth hform
    · exact congrArg TreeRow.depth hform
  · intro folder name depth collapsed fails pending hrow
    rcases (hplaced _ hrow).2 with ⟨-, hform⟩ | ⟨-, hform⟩
    · rw [(TreeRow.folder.inj hform).2.2.2.2.1]
      exact folderFails_eq h.distinct h.keys h.known folder
    · cases hform

/-- The tree is built, and shows every file and folder once, where it belongs. -/
theorem buildTreeRows_shows (localeCompare : String → String → Ordering) (h : ValidOptions o) :
    ∃ rows enough, (∀ fuel, enough ≤ fuel → buildTreeRows localeCompare o fuel = some rows) ∧
      ShowsTree o rows := by
  have hdeepest : ∀ folder ∈ o.folders, slashes folder ≤ (o.folders.map slashes).sum :=
    fun folder hfolder => List.le_sum_of_mem (List.mem_map_of_mem hfolder)
  obtain ⟨rows, hrows⟩ := @walk_total localeCompare o "" 0 ((o.folders.map slashes).sum + 2) h.proper
    _ hdeepest (Or.inl ⟨rfl, rfl⟩) le_rfl (Nat.zero_le _)
  exact ⟨rows, _, fun fuel hfuel => walk_mono hfuel hrows, (walks_of_walk hrows).showsTree h⟩

def project : Options where
  files := ["main.zig", "utils/helper.zig", "utils/deep/x.zig"]
  collapsed := ["utils/deep"]
  pendingFolders := ["aoc/day1"]
  failsByFile := [("utils/deep/x.zig", 2), ("utils/helper.zig", 1)]

theorem project_valid : ValidOptions project := by
  refine ⟨?_, by decide, ?_, by decide, by decide⟩
  · decide +kernel
  · decide +kernel

theorem buildTreeRows_shows_project :
    ∃ rows enough, (∀ fuel, enough ≤ fuel →
        buildTreeRows (fun a b => compare a b) project fuel = some rows) ∧
      ShowsTree project rows :=
  buildTreeRows_shows (fun a b => compare a b) project_valid

end Atomis.TreeRows
