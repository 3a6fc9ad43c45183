import Atomis.ClientUri
import Atomis.Lib.Machine
import Atomis.StoreDisk
import Atomis.StoreListing
import Mathlib.Algebra.Order.BigOperators.Group.List
import Mathlib.Algebra.Order.Group.Nat

/-!
# File operations of the page

`useProjectFiles.ts` and the edits of `App.tsx`. The page changes its own list of files at once
and sends a message; the session's store checks the message, works on the disk and commits. The
collation of the page is a parameter, and so is the revision a message is built on, which the
store does not read. No disk operation fails by itself.
-/

namespace Atomis.ClientFiles
open Protocol ClientUri Tree

structure Client where
  files : List ProjectFile
  version : ℕ

inductive Op
  | create (path : String)
  | rename (path newPath : String)
  | delete (path : String)
  | edit (path source : String)

/-- The page, for one session. -/
structure Page where
  other : List Char → Option (List Char)
  caret : Bool
  collate : String → String → Ordering
  base : Option ℕ
  session : Session

namespace Page

variable (page : Page) (c : Client)

/-- What `new URL(path, base).href` is, if it is not an error. -/
def uriOf (path : String) : Option String :=
  (clientUri page.other page.caret (documentUri page.session) path).map String.ofList

def createFileNamed (path : String) : Option (Client × Option RuntimeClientMessage) :=
  if !isValidProjectPath path then none
  else if c.files.any fun file => file.path = path then none
  else if c.files.length ≥ maxProjectFiles then none
  else (page.uriOf path).map fun uri =>
    let file : ProjectFile := ⟨path, uri, ""⟩
    let nextFiles := (c.files ++ [file]).insertionSort fun left right =>
      (page.collate left.path right.path).isLE = true
    let version := c.version + 1
    (⟨nextFiles, version⟩, some (.fileCreate version path "" page.base))

def renameFileTo (path newPath : String) : Option (Client × Option RuntimeClientMessage) :=
  if path = page.session.entryPath then none
  else if newPath = "" ∨ newPath = path then none
  else if !isValidProjectPath newPath then none
  else if c.files.any fun file => file.path = newPath then none
  else
    match c.files.find? fun file => file.path = path with
    | none => none
    | some current => (page.uriOf newPath).map fun uri =>
      let renamed := { current with path := newPath, uri := uri }
      let version := c.version + 1
      (⟨c.files.map fun file => if file.path = path then renamed else file, version⟩,
        some (.fileRename version path newPath page.base))

/-- The deletion is confirmed. -/
def deleteFile (path : String) : Option (Client × Option RuntimeClientMessage) :=
  if path = page.session.entryPath then none
  else if !c.files.any fun file => file.path = path then none
  else
    let version := c.version + 1
    some (⟨c.files.filter fun file => file.path ≠ path, version⟩,
      some (.fileDelete version path page.base))

/-- An edit that is too long stays local. -/
def onChange (path source : String) : Option (Client × Option RuntimeClientMessage) :=
  match c.files.find? fun file => file.path = path with
  | none => none
  | some current =>
    if source = current.source then none
    else
      let nextFiles := c.files.map fun file =>
        if file.path = path then { file with source := source } else file
      let version := c.version + 1
      some (⟨nextFiles, version⟩, if source.utf8ByteSize > maxSourceBytes then none
        else some (.documentUpdate version path source page.base))

def apply : Op → Option (Client × Option RuntimeClientMessage)
  | .create path => page.createFileNamed c path
  | .rename path newPath => page.renameFileTo c path newPath
  | .delete path => page.deleteFile c path
  | .edit path source => page.onChange c path source

end Page

/-! ## The store's side -/

structure System where
  client : Client
  store : Store

/-- What the session's store does with a message. -/
def take (session : Session) (temporary : String) (s : Store) (message : RuntimeClientMessage) :
    Except StoreError Snapshot × Store :=
  match validate message with
  | .error error => (.error (.refused error), s)
  | .ok _ =>
    match message with
    | .documentUpdate version path source _ => s.update session .none temporary version path source
    | .fileCreate version path source _ => s.createFile session .none temporary version path source
    | .fileRename version path newPath _ => s.renameFile session .none version path newPath
    | .fileDelete version path _ => s.deleteFile session .none version path
    | _ => (.ok s.snapshot, s)

/-- An operation, with the name its temporary file would get. -/
structure Action where
  op : Op
  temporary : String

def written : Op → Option String
  | .create path => some path
  | .edit path _ => some path
  | _ => none

/-- The name drawn for the temporary file is new. -/
def enabled (page : Page) (s : System) (a : Action) : Prop :=
  ∀ path, written a.op = some path → page.session.Fresh s.store.disk a.temporary path

def next (page : Page) (s : System) (a : Action) : System :=
  match page.apply s.client a.op with
  | none => s
  | some (client, none) => { s with client := client }
  | some (client, some message) => ⟨client, (take page.session a.temporary s.store message).2⟩

def machine (page : Page) : Machine System Action := ⟨enabled page, next page⟩

/-- The files as a recovery sends them. -/
def sources (files : List ProjectFile) : List SourceFile :=
  files.map fun file => ⟨file.path, file.source⟩

def total (files : List SourceFile) : ℕ := (files.map fun file => file.source.utf8ByteSize).sum

/-- A new path has no file above it and never was a directory; an edited project fits. -/
def Fits (page : Page) (s : System) (a : Action) : Prop :=
  match a.op with
  | .create path => Free s.store.disk (page.session.location path)
  | .rename _ newPath => Free s.store.disk (page.session.location newPath)
  | .delete _ => True
  | .edit path source => source.utf8ByteSize ≤ maxSourceBytes ∧
      total (sources (s.client.files.map fun file =>
        if file.path = path then { file with source := source } else file)) ≤ maxProjectBytes

/-! ## The disk under a listing -/

/-- Every listed file is a file on the disk, under directories. -/
structure Stands (session : Session) (disk : Disk) (files : List ProjectFile) : Prop where
  proper : ∀ f ∈ files, properPath f.path = true
  file : ∀ f ∈ files, ∃ content, disk (session.location f.path) = some (.file content)
  above : ∀ f ∈ files, ∀ d, Above d (session.location f.path) → disk d = some .dir

section Disk

variable {session : Session} {disk disk' : Disk} {files files' : List ProjectFile} {path : String}

theorem Stands.free (h : Stands session disk files) {f : ProjectFile} (hf : f ∈ files) :
    Free disk (session.location f.path) :=
  ⟨fun d hd => Or.inr (h.above f hf d hd), Or.inr (h.file f hf)⟩

/-- One file is new on the disk, the directories stay, and so do the other files. -/
theorem Stands.written (h : Stands session disk files) (hproper : properPath path = true)
    (hdirs : ∀ q, disk q = some .dir → disk' q = some .dir)
    (hat : ∃ content, disk' (session.location path) = some (.file content))
    (habove : ∀ d, Above d (session.location path) → disk' d = some .dir)
    (hfiles : ∀ f ∈ files', f.path = path ∨
      ∃ g ∈ files, g.path = f.path ∧ disk' (session.location g.path) = disk (session.location g.path)) :
    Stands session disk' files' := by
  refine ⟨fun f hf => ?_, fun f hf => ?_, fun f hf => ?_⟩
  · rcases hfiles f hf with heq | ⟨g, hg, heq, -⟩
    · rw [heq]
      exact hproper
    · rw [← heq]
      exact h.proper g hg
  · rcases hfiles f hf with heq | ⟨g, hg, heq, hsame⟩
    · rw [heq]
      exact hat
    · rw [← heq, hsame]
      exact h.file g hg
  · rcases hfiles f hf with heq | ⟨g, hg, heq, -⟩
    · rw [heq]
      exact habove
    · rw [← heq]
      exact fun d hd => hdirs d (h.above g hg d hd)

/-- The disk with the parents of a free place made. -/
theorem withParents_free (hproper : properPath path = true)
    (hfree : Free disk (session.location path)) :
    (session.withParents .none path disk).1 = true ∧
      (∀ d, Above d (session.location path) →
        (session.withParents .none path disk).2 d = some .dir) ∧
      (session.withParents .none path disk).2 (session.location path) =
        disk (session.location path) := by
  obtain ⟨d, n, hloc⟩ := session.location_eq path
  have hdest : (session.destination path).dropLast = d.map .name := by
    rw [Session.destination_of_proper hproper, hloc, List.map_append, List.map_singleton,
      List.dropLast_concat]
  rw [hloc] at hfree ⊢
  have hway : ∀ pre, pre ≠ [] → pre <+: d → disk ([] ++ pre) = none ∨ disk ([] ++ pre) = some .dir :=
    fun pre hne hpre => hfree.above pre (above_concat.mpr ⟨hne, hpre⟩)
  obtain ⟨hok, hout⟩ := mkdirs_free hway
  have hlink : ∀ pre, pre ≠ [] → pre <+: d → (disk ([] ++ pre)).any Node.isLink = false :=
    fun pre hne hpre => by rcases hway pre hne hpre with h | h <;> rw [h] <;> rfl
  rw [Session.withParents, hdest]
  refine ⟨hok, fun pre habove => ?_, ?_⟩
  · obtain ⟨hne, hpre⟩ := above_concat.mp habove
    exact mkdirs_names hlink hok pre hne hpre
  · refine hout _ fun pre hne hpre heq => ?_
    exact (above_concat.mpr ⟨hne, hpre⟩).2.2 heq.symm

theorem parent_ne_nil {d : List String} {n : String} (h : session.location path = d ++ [n])
    (hpath : names path ≠ []) : d ≠ [] := by
  rintro rfl
  have hlength := congrArg List.length h
  have hnames := List.length_pos_iff.mpr hpath
  simp only [Session.location, Session.sourceRoot, List.length_append, List.length_singleton,
    List.nil_append] at hlength
  omega

theorem names_ne_nil (path : String) : names path ≠ [] := by
  simp [names, parts, List.splitOn_ne_nil]

theorem place_location {disk : Disk} (hproper : properPath path = true)
    (h : ∀ d, Above d (session.location path) → disk d = some .dir) :
    place disk (session.destination path) = some (session.location path) := by
  obtain ⟨d, n, hloc⟩ := session.location_eq path
  rw [Session.destination_of_proper hproper, hloc]
  rw [hloc] at h
  have hway : ∀ pre, pre ≠ [] → pre <+: d → disk pre = some .dir :=
    fun pre hne hpre => h pre (above_concat.mpr ⟨hne, hpre⟩)
  exact place_dirs (any_isDir_iff.mpr (hway d (parent_ne_nil hloc (names_ne_nil path)) List.prefix_rfl))
    hway n

/-- Beside a free place, under directories. -/
theorem place_beside {d : List String} {n : String} {disk : Disk} (hd : d ≠ [])
    (hway : ∀ pre, pre ≠ [] → pre <+: d → disk pre = some .dir) {content : Content} (m : String) :
    place (disk.set (d ++ [m]) (some (.file content))) ((d ++ [n]).map .name) = some (d ++ [n]) := by
  have hset : ∀ pre, pre ≠ [] → pre <+: d →
      (disk.set (d ++ [m]) (some (.file content))) pre = some .dir := by
    intro pre hne hpre
    rw [Table.set_get, if_neg (above_concat.mpr ⟨hne, hpre⟩).2.2]
    exact hway pre hne hpre
  exact place_dirs (any_isDir_iff.mpr (hset d hd List.prefix_rfl)) hset n

/-- Where a file may be, one is written. -/
theorem atomicWrite_free (source : String) {temporary : String} (hproper : properPath path = true)
    (hfresh : session.Fresh disk temporary path) (hfree : Free disk (session.location path)) :
    ∃ disk', session.atomicWrite .none temporary path source disk = (.ok (), disk') ∧
      (∀ q node, disk q = some node → q ≠ session.location path → disk' q = some node) ∧
      disk' (session.location path) = some (.file (.text source)) ∧
      ∀ d, Above d (session.location path) → disk' d = some .dir := by
  obtain ⟨hmade, hdirs, hat⟩ := withParents_free hproper hfree
  obtain ⟨d, n, hloc⟩ := session.location_eq path
  have hd := parent_ne_nil hloc (names_ne_nil path)
  have hn : temporary ≠ n := by
    rintro rfl
    exact hfresh.2 (by rw [Session.destination_of_proper hproper, hloc]; simp)
  have htemp : session.temporaryPath temporary path = (d ++ [temporary]).map .name := by
    rw [Session.temporaryPath_of_proper hproper, hloc, List.dropLast_concat]
  have hdest : session.destination path = (d ++ [n]).map .name := by
    rw [Session.destination_of_proper hproper, hloc]
  have hnone := hfresh.withParents Faults.none d
  have hkeep : Keeps disk (session.withParents Faults.none path disk).2 :=
    Session.withParents_keeps Faults.none path
  rw [hloc] at hdirs hat hfree ⊢
  generalize hdisk : (session.withParents Faults.none path disk).2 = made at *
  have hway : ∀ pre, pre ≠ [] → pre <+: d → made pre = some .dir :=
    fun pre hne hpre => hdirs pre (above_concat.mpr ⟨hne, hpre⟩)
  have hmadeEq : session.withParents Faults.none path disk = (true, made) := Prod.ext hmade hdisk
  have hlocate : locate made ((d ++ [temporary]).map .name) = some (d ++ [temporary]) := by
    rw [List.map_append, List.map_singleton]
    exact resolve_append_dir (hway d hd List.prefix_rfl) (by rw [hnone]; rfl) (locate_dirs hway)
  have hwrite : made.write none ((d ++ [temporary]).map .name) (.text source) =
      (true, made.set (d ++ [temporary]) (some (.file (.text source)))) :=
    write_vacant hlocate (Or.inl hnone) none _
  have hvacant : Vacant (made.set (d ++ [temporary]) (some (.file (.text source)))) (d ++ [n]) := by
    rw [Vacant, Table.set_get, if_neg (by simpa using hn.symm), hat]
    exact hfree.vacant
  have hrename : Tree.rename false (made.set (d ++ [temporary]) (some (.file (.text source))))
      ((d ++ [temporary]).map .name) ((d ++ [n]).map .name) = (true,
        ((made.set (d ++ [temporary]) (some (.file (.text source)))).set (d ++ [temporary]) none).set
          (d ++ [n]) (some (.file (.text source)))) :=
    rename_free (place_beside hd hway temporary) (place_beside hd hway temporary)
      (by simpa using hn) (by simp) hvacant
  refine ⟨((made.set (d ++ [temporary]) (some (.file (.text source)))).set (d ++ [temporary]) none).set
    (d ++ [n]) (some (.file (.text source))), ?_, ?_, by simp, ?_⟩
  · rw [Session.atomicWrite_eq]
    simp only [Session.lastRename, hmadeEq, htemp, hdest]
    simp only [Faults.none, hwrite, hrename]
    rfl
  · intro q node hq hne
    have hother : q ≠ d ++ [temporary] := by
      rintro rfl
      rw [hfresh.1 _ (by simp)] at hq
      contradiction
    simp only [Table.set_get, hne, hother, if_false]
    exact hkeep q node hq
  · intro pre hpre
    have hother : pre ≠ d ++ [temporary] := (above_concat.mpr (above_concat.mp hpre)).2.2
    simp only [Table.set_get, hpre.2.2, hother, if_false]
    exact hdirs pre hpre

/-- One file is written where it may be, and the other files stay. -/
theorem Stands.wrote (h : Stands session disk files) (hproper : properPath path = true)
    (hfree : Free disk (session.location path))
    (hkeep : ∀ q node, disk q = some node → q ≠ session.location path → disk' q = some node)
    (hat : ∃ content, disk' (session.location path) = some (.file content))
    (habove : ∀ d, Above d (session.location path) → disk' d = some .dir)
    (hfiles : ∀ f ∈ files', f.path = path ∨ f ∈ files ∧ f.path ≠ path) :
    Stands session disk' files' := by
  refine h.written hproper (fun q hq => hkeep q _ hq ?_) hat habove fun f hf => ?_
  · rintro rfl
    exact (vacant_iff.mp hfree.vacant).1 hq
  · rcases hfiles f hf with hpath | ⟨hf, hpath⟩
    · exact Or.inl hpath
    · obtain ⟨content, hcontent⟩ := h.file f hf
      have hother : session.location f.path ≠ session.location path := fun heq =>
        hpath (session.location_injective heq)
      exact Or.inr ⟨f, hf, rfl, by rw [hkeep _ _ hcontent hother, hcontent]⟩

/-- To where a file may be, one is moved. -/
theorem renameOnDisk_free {newPath : String} {content : Content} (hproper : properPath path = true)
    (hproper' : properPath newPath = true) (hne : path ≠ newPath)
    (hfile : disk (session.location path) = some (.file content))
    (habove : ∀ d, Above d (session.location path) → disk d = some .dir)
    (hfree : Free disk (session.location newPath)) :
    ∃ disk', session.renameOnDisk .none path newPath disk = (.ok (), disk') ∧
      (∀ q node, disk q = some node → q ≠ session.location path → q ≠ session.location newPath →
        disk' q = some node) ∧
      disk' (session.location newPath) = some (.file content) ∧
      ∀ d, Above d (session.location newPath) → disk' d = some .dir := by
  obtain ⟨hmade, hdirs, hat⟩ := withParents_free hproper' hfree
  have hkeep : Keeps disk (session.withParents Faults.none newPath disk).2 :=
    Session.withParents_keeps Faults.none newPath
  generalize hdisk : (session.withParents Faults.none newPath disk).2 = made at *
  have hmadeEq : session.withParents Faults.none newPath disk = (true, made) := Prod.ext hmade hdisk
  have hends : session.location path ≠ session.location newPath := fun h =>
    hne (session.location_injective h)
  have hmoved := hkeep _ _ hfile
  have hsource := place_location hproper fun d hd => hkeep _ _ (habove d hd)
  have htarget := place_location hproper' hdirs
  have hvacant : Vacant made (session.location newPath) := by
    rw [Vacant, hat]
    exact hfree.vacant
  have hrename := rename_free hsource htarget hends hmoved hvacant
  refine ⟨(made.set (session.location path) none).set (session.location newPath)
    (some (.file content)), ?_, ?_, by simp, ?_⟩
  · rw [Session.renameOnDisk_eq]
    simp only [hmadeEq]
    simp only [Faults.none, hrename]
    rfl
  · intro q node hq hne hne'
    simp only [Table.set_get, hne, hne', if_false]
    exact hkeep q node hq
  · intro d hd
    have hother : d ≠ session.location path := by
      rintro rfl
      rw [hdirs _ hd] at hmoved
      cases hmoved
    simp only [Table.set_get, hd.2.2, hother, if_false]
    exact hdirs d hd

theorem names_nested {path other : String} (h : (path ++ "/").toList <+: other.toList) :
    ∃ rest, rest ≠ [] ∧ names other = names path ++ rest := by
  obtain ⟨behind, hbehind⟩ := h
  rw [String.toList_append, List.append_assoc] at hbehind
  refine ⟨(behind.splitOn '/').map String.ofList, by simp [List.splitOn_ne_nil], ?_⟩
  rw [names, parts, ← hbehind, show "/".toList = ['/'] by decide, List.singleton_append,
    List.splitOn_append_cons_self, List.map_append]
  rfl

/-- No listed file is a directory of another. -/
theorem Stands.apart (h : Stands session disk files) {f g : ProjectFile} (hf : f ∈ files)
    (hg : g ∈ files) : ¬ (f.path ++ "/").toList <+: g.path.toList := by
  intro hnested
  obtain ⟨rest, hne, hnames⟩ := names_nested hnested
  have habove : Above (session.location f.path) (session.location g.path) := by
    rw [Session.location, Session.location, hnames, ← List.append_assoc]
    exact ⟨session.location_ne_nil f.path, List.prefix_append _ rest, by simpa using hne⟩
  obtain ⟨content, hcontent⟩ := h.file f hf
  rw [h.above g hg _ habove] at hcontent
  cases hcontent

end Disk

/-! ## The checks of the store -/

section Checks

variable {session : Session} {snapshot : Snapshot} {files : List ProjectFile} {version : ℕ}
  {path newPath source : String}

theorem assertVersion_of (h : snapshot.version < version) :
    Session.assertVersion snapshot version = .ok () := by
  rw [Session.assertVersion, if_neg (by omega)]

theorem assertProjectSize_of (h : total (sources files) ≤ maxProjectBytes) :
    Session.assertProjectSize files = .ok () := by
  have hsum : (files.map fun f => f.source.utf8ByteSize).sum = total (sources files) := by
    rw [total, sources, List.map_map]
    rfl
  rw [Session.assertProjectSize, hsum, if_neg (by omega)]

theorem createFiles_of (hversion : snapshot.version < version)
    (hcount : snapshot.files.length < maxProjectFiles) (hnew : ∀ f ∈ snapshot.files, f.path ≠ path)
    (hsize : total (sources (snapshot.files ++ [session.projectFile path source])) ≤ maxProjectBytes) :
    session.createFiles snapshot version path source =
      .ok (snapshot.files ++ [session.projectFile path source]) := by
  have hany : ¬ (snapshot.files.any fun f => f.path = path) = true := by simpa using hnew
  rw [Session.createFiles, assertVersion_of hversion]
  simp only [not_le.mpr hcount, hany, assertProjectSize_of hsize, bind, Except.bind, pure,
    Except.pure, Bool.false_eq_true, if_false]

theorem updateFiles_of (hversion : snapshot.version < version)
    (hlisted : ∃ f ∈ snapshot.files, f.path = path)
    (hsize : total (sources (snapshot.files.map fun f =>
      if f.path = path then session.projectFile path source else f)) ≤ maxProjectBytes) :
    session.updateFiles snapshot version path source = .ok (snapshot.files.map fun f =>
      if f.path = path then session.projectFile path source else f) := by
  have hany : (snapshot.files.any fun f => f.path = path) = true := by simpa using hlisted
  rw [Session.updateFiles, assertVersion_of hversion]
  simp only [hany, assertProjectSize_of hsize, bind, Except.bind, pure, Except.pure]
  rfl

theorem renameFiles_of (hversion : snapshot.version < version) (hentry : session.entryPath ≠ path)
    {current : ProjectFile} (hcurrent : snapshot.files.find? (fun f => f.path = path) = some current)
    (hnew : ∀ f ∈ snapshot.files, f.path ≠ newPath) :
    session.renameFiles snapshot version path newPath = .ok (snapshot.files.map fun f =>
      if f.path = path then session.projectFile newPath current.source else f) := by
  have hany : ¬ (snapshot.files.any fun f => f.path = newPath) = true := by simpa using hnew
  rw [Session.renameFiles, assertVersion_of hversion]
  simp only [hentry, hcurrent, hany, bind, Except.bind, pure, Except.pure, if_false]
  rfl

theorem deleteFiles_of (hversion : snapshot.version < version) (hentry : session.entryPath ≠ path)
    (hlisted : ∃ f ∈ snapshot.files, f.path = path) :
    session.deleteFiles snapshot version path = .ok (snapshot.files.filter fun f => f.path ≠ path) := by
  have hany : (snapshot.files.any fun f => f.path = path) = true := by simpa using hlisted
  rw [Session.deleteFiles, assertVersion_of hversion]
  simp only [hentry, hany, bind, Except.bind, pure, Except.pure, if_false]
  rfl

theorem run_of (version : ℕ) {s : Store} {disk : Disk} {checked : Except String (List ProjectFile)}
    {work : Disk → Except StoreError Unit × Disk} (hchecked : checked = .ok files)
    (hlisted : session.Listed files) (hwork : work s.disk = (.ok (), disk)) :
    ∃ snapshot, s.run session version checked work = (.ok snapshot, ⟨snapshot, disk⟩) ∧
      snapshot.version = version ∧ snapshot.files.Perm files := by
  obtain ⟨snapshot, hcommit⟩ := hlisted.commit_isOk version
  obtain ⟨hversion, hfiles, -⟩ := Session.commit_ok hcommit
  refine ⟨snapshot, ?_, hversion, ?_⟩
  · simp only [Store.run, hchecked, hwork, hcommit]
  · rw [hfiles]
    exact List.perm_insertionSort _ _

end Checks

/-! ## The page in step with the store -/

/-- The page's files are the store's, whatever their order and URIs. -/
structure InStep (page : Page) (s : System) : Prop where
  mirror : (sources s.client.files).Perm (sources s.store.snapshot.files)
  version : s.store.snapshot.version ≤ s.client.version
  listed : page.session.Listed s.store.snapshot.files
  recoverable : Session.Recoverable (sources s.store.snapshot.files)
  stands : Stands page.session s.store.disk s.store.snapshot.files

section Sources

variable {files left right : List ProjectFile} {path : String}

theorem exists_source {p : SourceFile → Prop} :
    (∃ file ∈ sources files, p file) ↔ ∃ f ∈ files, p ⟨f.path, f.source⟩ := by
  simp [sources]

theorem forall_source {p : SourceFile → Prop} :
    (∀ file ∈ sources files, p file) ↔ ∀ f ∈ files, p ⟨f.path, f.source⟩ := by
  simp [sources]

theorem paths_sources (files : List ProjectFile) :
    (sources files).map SourceFile.path = files.map ProjectFile.path := by
  rw [sources, List.map_map]
  rfl

theorem length_sources (files : List ProjectFile) : (sources files).length = files.length :=
  List.length_map _

theorem mem_path_iff (h : (sources left).Perm (sources right)) :
    (∃ f ∈ left, f.path = path) ↔ ∃ f ∈ right, f.path = path := by
  have hmem := fun file => h.mem_iff (a := file)
  rw [← exists_source (p := fun file => file.path = path),
    ← exists_source (p := fun file => file.path = path)]
  simp only [hmem]

theorem total_perm {left right : List SourceFile} (h : left.Perm right) : total left = total right :=
  (h.map _).sum_nat

/-- A list of files on the disk, with its counts and sizes, is recoverable. -/
theorem recoverable_of {session : Session} {disk : Disk} (hstands : Stands session disk files)
    (hlisted : session.Listed files) (hcount : files.length ≤ maxProjectFiles)
    (hfiles : ∀ f ∈ files, projectPathOk f.path = true ∧ f.source.utf8ByteSize ≤ maxSourceBytes)
    (htotal : total (sources files) ≤ maxProjectBytes) : Session.Recoverable (sources files) := by
  refine ⟨?_, by rwa [length_sources], forall_source.mpr fun f hf => (hfiles f hf).1, ?_,
    forall_source.mpr fun f hf => (hfiles f hf).2, htotal, ?_⟩
  · obtain ⟨f, hf, -⟩ := hlisted.entry
    exact List.ne_nil_of_mem (List.mem_map_of_mem hf)
  · rw [paths_sources]
    exact hlisted.nodup
  · intro file hfile other hother
    obtain ⟨f, hf, rfl⟩ := List.mem_map.mp hfile
    obtain ⟨g, hg, rfl⟩ := List.mem_map.mp hother
    exact hstands.apart hf hg

end Sources

section Step

variable {page : Page} {s : System} {client : Client} {temporary path newPath source : String}

/-- The store takes the message of an operation, and page and store are in step again. -/
def Taken (page : Page) (s : System) (temporary : String) (client : Client)
    (message : RuntimeClientMessage) : Prop :=
  ∃ snapshot disk, take page.session temporary s.store message = (.ok snapshot, ⟨snapshot, disk⟩) ∧
    InStep page ⟨client, ⟨snapshot, disk⟩⟩

theorem inStep_of_run {checked : Except String (List ProjectFile)}
    {work : Disk → Except StoreError Unit × Disk} {files mine : List ProjectFile} {disk : Disk}
    {version : ℕ} (hchecked : checked = .ok files) (hlisted : page.session.Listed files)
    (hwork : work s.store.disk = (.ok (), disk)) (hmirror : (sources mine).Perm (sources files))
    (hrecoverable : Session.Recoverable (sources files)) (hstands : Stands page.session disk files) :
    ∃ snapshot disk', s.store.run page.session version checked work =
      (.ok snapshot, ⟨snapshot, disk'⟩) ∧ InStep page ⟨⟨mine, version⟩, ⟨snapshot, disk'⟩⟩ := by
  obtain ⟨snapshot, hrun, hversion, hperm⟩ := run_of version hchecked hlisted hwork
  refine ⟨snapshot, disk, hrun, ?_, hversion.le, hlisted.perm hperm, ?_, ?_⟩
  · exact hmirror.trans (hperm.map _).symm
  · exact hrecoverable.perm (hperm.map _)
  · exact ⟨fun f hf => hstands.proper f (hperm.mem_iff.mp hf),
      fun f hf => hstands.file f (hperm.mem_iff.mp hf),
      fun f hf => hstands.above f (hperm.mem_iff.mp hf)⟩

theorem InStep.mem_server (h : InStep page s) :
    (∃ f ∈ s.client.files, f.path = path) ↔ ∃ f ∈ s.store.snapshot.files, f.path = path :=
  mem_path_iff h.mirror

theorem InStep.new_server (h : InStep page s) (hnew : ∀ f ∈ s.client.files, f.path ≠ path) :
    ∀ f ∈ s.store.snapshot.files, f.path ≠ path := by
  intro f hf heq
  obtain ⟨g, hg, hpath⟩ := h.mem_server.mpr ⟨f, hf, heq⟩
  exact hnew g hg hpath

theorem InStep.length_eq (h : InStep page s) :
    s.client.files.length = s.store.snapshot.files.length := by
  have hlength := h.mirror.length_eq
  rwa [length_sources, length_sources] at hlength

theorem checkVersion_succ (version : ℕ) : checkVersion (version + 1) = .ok () := by
  rw [checkVersion, if_neg (Nat.succ_ne_zero version)]

theorem sources_append (left right : List ProjectFile) :
    sources (left ++ right) = sources left ++ sources right := List.map_append

theorem InStep.source_ok (h : InStep page s) {f : ProjectFile} (hf : f ∈ s.store.snapshot.files) :
    projectPathOk f.path = true ∧ f.source.utf8ByteSize ≤ maxSourceBytes :=
  ⟨forall_source.mp h.recoverable.paths f hf, forall_source.mp h.recoverable.sizes f hf⟩

theorem createFileNamed_taken (h : InStep page s) {message : Option RuntimeClientMessage}
    (happly : page.createFileNamed s.client path = some (client, message))
    (hfresh : page.session.Fresh s.store.disk temporary path)
    (hfree : Free s.store.disk (page.session.location path)) :
    ∃ sent, message = some sent ∧ Taken page s temporary client sent := by
  rw [Page.createFileNamed] at happly
  split_ifs at happly with hvalid hexists hcount
  obtain ⟨uri, -, hresult⟩ := Option.map_eq_some_iff.mp happly
  obtain ⟨rfl, rfl⟩ := Prod.mk.inj hresult
  refine ⟨_, rfl, ?_⟩
  rw [Bool.not_eq_true', Bool.not_eq_false] at hvalid
  have hok := isValidProjectPath_server hvalid
  have hproper := projectPathOk_proper hok
  have hnew : ∀ f ∈ s.store.snapshot.files, f.path ≠ path :=
    h.new_server (by simpa using hexists)
  have hserver : ∀ f ∈ s.store.snapshot.files ++ [page.session.projectFile path ""],
      f = page.session.projectFile path "" ∨ f ∈ s.store.snapshot.files ∧ f.path ≠ path := by
    intro f hf
    rcases List.mem_append.mp hf with hf | hf
    · exact Or.inr ⟨hf, hnew f hf⟩
    · exact Or.inl (List.mem_singleton.mp hf)
  have hmirror : (sources (s.client.files ++ [(⟨path, uri, ""⟩ : ProjectFile)])).Perm
      (sources (s.store.snapshot.files ++ [page.session.projectFile path ""])) := by
    rw [sources_append, sources_append]
    exact h.mirror.append_right _
  have htotal : total (sources (s.store.snapshot.files ++ [page.session.projectFile path ""])) ≤
      maxProjectBytes := by
    have hsize : total (sources s.store.snapshot.files) ≤ maxProjectBytes := h.recoverable.total
    rw [total] at hsize
    rw [total, sources_append, List.map_append, List.sum_append]
    exact hsize
  have hversion : s.store.snapshot.version < s.client.version + 1 := Nat.lt_succ_of_le h.version
  have hchecked := createFiles_of hversion (by rw [← h.length_eq]; omega) hnew htotal
  have hlisted := h.listed.createFiles hchecked
  obtain ⟨disk, hwork, hkeep, hat, habove⟩ := atomicWrite_free "" hproper hfresh hfree
  have hstands : Stands page.session disk
      (s.store.snapshot.files ++ [page.session.projectFile path ""]) := by
    refine h.stands.wrote hproper hfree hkeep ⟨_, hat⟩ habove fun f hf => ?_
    rcases hserver f hf with rfl | hf
    · exact Or.inl rfl
    · exact Or.inr hf
  have hrecoverable : Session.Recoverable
      (sources (s.store.snapshot.files ++ [page.session.projectFile path ""])) := by
    refine recoverable_of hstands hlisted ?_ (fun f hf => ?_) htotal
    · rw [List.length_append, ← h.length_eq, List.length_singleton]
      omega
    · rcases hserver f hf with rfl | ⟨hf, -⟩
      · exact ⟨hok, Nat.zero_le _⟩
      · exact h.source_ok hf
  have hvalidate : validate (.fileCreate (s.client.version + 1) path "" page.base) = .ok () := by
    simp only [validate, Session.bind_unit_iff, checkVersion_succ, true_and]
    exact ⟨Session.validProjectPath_iff.mpr hok, rfl⟩
  simp only [Taken, take, hvalidate]
  refine inStep_of_run hchecked hlisted hwork ?_ hrecoverable hstands
  exact ((List.perm_insertionSort _ _).map _).trans hmirror

theorem InStep.find_server (h : InStep page s) {current : ProjectFile}
    (hcurrent : s.client.files.find? (fun file => file.path = path) = some current) :
    ∃ f, s.store.snapshot.files.find? (fun f => f.path = path) = some f ∧ f ∈ s.store.snapshot.files ∧
      f.path = path ∧ f.source = current.source := by
  have hpath : current.path = path := by simpa using List.find?_some hcurrent
  have hmem : (⟨path, current.source⟩ : SourceFile) ∈ sources s.store.snapshot.files := by
    rw [← h.mirror.mem_iff, ← hpath]
    exact List.mem_map_of_mem (List.mem_of_find?_eq_some hcurrent)
  obtain ⟨f, hf, heq⟩ := List.mem_map.mp hmem
  obtain ⟨hfpath, hfsource⟩ := SourceFile.mk.inj heq
  refine ⟨f, ?_, hf, hfpath, hfsource⟩
  cases hfind : s.store.snapshot.files.find? (fun f => f.path = path) with
  | none =>
    rw [List.find?_eq_none] at hfind
    exact absurd hfpath (by simpa using hfind f hf)
  | some g =>
    have hgpath : g.path = path := by simpa using List.find?_some hfind
    have hsame := List.inj_on_of_nodup_map h.listed.nodup (List.mem_of_find?_eq_some hfind) hf
      (hgpath.trans hfpath.symm)
    rw [hsame]

/-- A file replaced by another, in a list of files. -/
def replaced (path : String) (new : SourceFile) (files : List SourceFile) : List SourceFile :=
  files.map fun file => if file.path = path then new else file

theorem mem_replaced {files : List ProjectFile} {new g : ProjectFile}
    (hg : g ∈ files.map fun g => if g.path = path then new else g) :
    g = new ∨ g ∈ files ∧ g.path ≠ path := by
  obtain ⟨f, hf, rfl⟩ := List.mem_map.mp hg
  split_ifs with hpath
  · exact Or.inl rfl
  · exact Or.inr ⟨hf, hpath⟩

theorem sources_replaced {files : List ProjectFile} {newPath source : String}
    (new : ProjectFile → ProjectFile) (hnew : ∀ f, f.path = path → (new f).path = newPath ∧ (new f).source = source) :
    sources (files.map fun f => if f.path = path then new f else f) =
      replaced path ⟨newPath, source⟩ (sources files) := by
  rw [sources, sources, replaced, List.map_map, List.map_map]
  refine List.map_congr_left fun f _ => ?_
  simp only [Function.comp_apply]
  split_ifs with hpath
  · rw [(hnew f hpath).1, (hnew f hpath).2]
  · rfl

theorem renameFileTo_taken (h : InStep page s) {message : Option RuntimeClientMessage}
    (happly : page.renameFileTo s.client path newPath = some (client, message))
    (hfree : Free s.store.disk (page.session.location newPath)) :
    ∃ sent, message = some sent ∧ Taken page s temporary client sent := by
  rw [Page.renameFileTo] at happly
  split_ifs at happly with hentry hsame hvalid hexists
  split at happly
  · contradiction
  next current hcurrent =>
  obtain ⟨uri, -, hresult⟩ := Option.map_eq_some_iff.mp happly
  obtain ⟨rfl, rfl⟩ := Prod.mk.inj hresult
  refine ⟨_, rfl, ?_⟩
  rw [Bool.not_eq_true', Bool.not_eq_false] at hvalid
  rw [not_or] at hsame
  have hok := isValidProjectPath_server hvalid
  have hproper := projectPathOk_proper hok
  have hnew : ∀ f ∈ s.store.snapshot.files, f.path ≠ newPath :=
    h.new_server (by simpa using hexists)
  obtain ⟨f, hfind, hf, rfl, hsource⟩ := h.find_server hcurrent
  have hversion : s.store.snapshot.version < s.client.version + 1 := Nat.lt_succ_of_le h.version
  have hchecked := renameFiles_of hversion (Ne.symm hentry) hfind hnew
  have hlisted := h.listed.renameFiles hchecked
  obtain ⟨content, hcontent⟩ := h.stands.file f hf
  obtain ⟨disk, hwork, hkeep, hat, habove⟩ := renameOnDisk_free (h.stands.proper f hf) hproper
    (hnew f hf) hcontent (h.stands.above f hf) hfree
  have hstands : Stands page.session disk (s.store.snapshot.files.map fun g =>
      if g.path = f.path then page.session.projectFile newPath f.source else g) := by
    refine h.stands.written hproper (fun q hq => hkeep q _ hq ?_ ?_) ⟨_, hat⟩ habove fun g hg => ?_
    · rintro rfl
      rw [hcontent] at hq
      cases hq
    · rintro rfl
      exact (vacant_iff.mp hfree.vacant).1 hq
    · rcases mem_replaced hg with rfl | ⟨hg, hpath⟩
      · exact Or.inl rfl
      · obtain ⟨content', hcontent'⟩ := h.stands.file g hg
        have hother : page.session.location g.path ≠ page.session.location f.path := fun heq =>
          hpath (page.session.location_injective heq)
        have hother' : page.session.location g.path ≠ page.session.location newPath := fun heq =>
          hnew g hg (page.session.location_injective heq)
        exact Or.inr ⟨g, hg, rfl, by rw [hkeep _ _ hcontent' hother hother', hcontent']⟩
  have htotal : total (sources (s.store.snapshot.files.map fun g =>
      if g.path = f.path then page.session.projectFile newPath f.source else g)) ≤ maxProjectBytes := by
    have hsize : total (sources s.store.snapshot.files) ≤ maxProjectBytes := h.recoverable.total
    have hsame : ∀ g ∈ s.store.snapshot.files,
        (if g.path = f.path then page.session.projectFile newPath f.source else g).source = g.source := by
      intro g hg
      split_ifs with hpath
      · rw [List.inj_on_of_nodup_map h.listed.nodup hg hf hpath]
        rfl
      · rfl
    rw [total, sources, List.map_map, List.map_map]
    rw [total, sources, List.map_map] at hsize
    refine le_of_eq_of_le (congrArg List.sum (List.map_congr_left fun g hg => ?_)) hsize
    simp only [Function.comp_apply, hsame g hg]
  have hrecoverable := recoverable_of hstands hlisted
    (by rw [List.length_map, ← length_sources]; exact h.recoverable.count) (fun g hg => by
      rcases mem_replaced hg with rfl | ⟨hg, -⟩
      · exact ⟨hok, (h.source_ok hf).2⟩
      · exact h.source_ok hg) htotal
  have hvalidate : validate (.fileRename (s.client.version + 1) f.path newPath page.base) = .ok () := by
    simp only [validate, Session.bind_unit_iff, checkVersion_succ, true_and]
    exact ⟨Session.validProjectPath_iff.mpr (h.source_ok hf).1, Session.validProjectPath_iff.mpr hok⟩
  simp only [Taken, take, hvalidate]
  refine inStep_of_run hchecked hlisted hwork ?_ hrecoverable hstands
  rw [sources_replaced (fun _ => ⟨newPath, uri, current.source⟩) fun _ _ => ⟨rfl, hsource.symm⟩,
    sources_replaced (fun _ => page.session.projectFile newPath f.source) fun _ _ => ⟨rfl, rfl⟩]
  exact h.mirror.map _

theorem Stands.clear {session : Session} {disk : Disk} {files : List ProjectFile} {f : ProjectFile}
    (h : Stands session disk files) (hf : f ∈ files) : Clear disk (session.location f.path) := by
  intro pre hne hpre
  by_cases hend : pre = session.location f.path
  · obtain ⟨content, hcontent⟩ := h.file f hf
    rw [hend, hcontent]
    rfl
  · rw [h.above f hf pre ⟨hne, hpre, hend⟩]
    rfl

theorem Stands.deleted {session : Session} {disk : Disk} {files : List ProjectFile} {f : ProjectFile}
    (h : Stands session disk files) (hf : f ∈ files) :
    Stands session (session.deleteOnDisk .none f.path disk).2
      (files.filter fun g => g.path ≠ f.path) := by
  obtain ⟨content, hcontent⟩ := h.file f hf
  have honly := Session.deleteOnDisk_spec .none (h.proper f hf) (h.clear hf) hcontent
  refine ⟨fun g hg => h.proper g (List.mem_of_mem_filter hg), fun g hg => ?_, fun g hg d hd => ?_⟩
  · obtain ⟨hg, hpath⟩ := List.mem_filter.mp hg
    obtain ⟨content', hcontent'⟩ := h.file g hg
    refine ⟨content', honly.others _ _ hcontent' fun heq => ?_⟩
    exact (of_decide_eq_true hpath) (session.location_injective heq)
  · refine honly.others _ _ (h.above g (List.mem_of_mem_filter hg) d hd) ?_
    rintro rfl
    rw [h.above g (List.mem_of_mem_filter hg) _ hd] at hcontent
    cases hcontent

theorem deleteFile_taken (h : InStep page s) {message : Option RuntimeClientMessage}
    (happly : page.deleteFile s.client path = some (client, message)) :
    ∃ sent, message = some sent ∧ Taken page s temporary client sent := by
  rw [Page.deleteFile] at happly
  split_ifs at happly with hentry hexists
  obtain ⟨rfl, rfl⟩ := Prod.mk.inj (Option.some.inj happly)
  refine ⟨_, rfl, ?_⟩
  obtain ⟨f, hf, rfl⟩ := h.mem_server.mp (by simpa using hexists : ∃ f ∈ s.client.files, f.path = path)
  have hversion : s.store.snapshot.version < s.client.version + 1 := Nat.lt_succ_of_le h.version
  have hchecked := deleteFiles_of hversion (Ne.symm hentry) ⟨f, hf, rfl⟩
  have hlisted := h.listed.deleteFiles hchecked
  have hstands := h.stands.deleted hf
  have hsub : (sources (s.store.snapshot.files.filter fun g => g.path ≠ f.path)).Sublist
      (sources s.store.snapshot.files) := List.filter_sublist.map _
  have htotal : total (sources (s.store.snapshot.files.filter fun g => g.path ≠ f.path)) ≤
      maxProjectBytes :=
    ((hsub.map _).sum_le_sum fun _ _ => Nat.zero_le _).trans h.recoverable.total
  have hrecoverable := recoverable_of hstands hlisted
    (by rw [← length_sources]; exact hsub.length_le.trans h.recoverable.count)
    (fun g hg => h.source_ok (List.mem_of_mem_filter hg)) htotal
  have hvalidate : validate (.fileDelete (s.client.version + 1) f.path page.base) = .ok () := by
    simp only [validate, Session.bind_unit_iff, checkVersion_succ, true_and]
    exact Session.validProjectPath_iff.mpr (h.source_ok hf).1
  simp only [Taken, take, hvalidate]
  refine inStep_of_run hchecked hlisted rfl ?_ hrecoverable hstands
  have hfilter (files : List ProjectFile) : sources (files.filter fun g => g.path ≠ f.path) =
      (sources files).filter fun file => file.path ≠ f.path := by
    rw [sources, sources, List.filter_map]
    rfl
  rw [hfilter, hfilter]
  exact h.mirror.filter _

theorem onChange_taken (h : InStep page s) {message : Option RuntimeClientMessage}
    (happly : page.onChange s.client path source = some (client, message))
    (hfresh : page.session.Fresh s.store.disk temporary path)
    (hsize : source.utf8ByteSize ≤ maxSourceBytes)
    (hfits : total (sources (s.client.files.map fun file =>
      if file.path = path then { file with source := source } else file)) ≤ maxProjectBytes) :
    ∃ sent, message = some sent ∧ Taken page s temporary client sent := by
  rw [Page.onChange] at happly
  split at happly
  · contradiction
  next current hcurrent =>
  split_ifs at happly with hsame hlarge
  · omega
  obtain ⟨rfl, rfl⟩ := Prod.mk.inj (Option.some.inj happly)
  refine ⟨_, rfl, ?_⟩
  obtain ⟨f, -, hf, rfl, -⟩ := h.find_server hcurrent
  have hok := (h.source_ok hf).1
  have hfree := h.stands.free hf
  have hversion : s.store.snapshot.version < s.client.version + 1 := Nat.lt_succ_of_le h.version
  have hmirror : (sources (s.client.files.map fun file =>
      if file.path = f.path then { file with source := source } else file)).Perm
      (sources (s.store.snapshot.files.map fun g =>
        if g.path = f.path then page.session.projectFile f.path source else g)) := by
    rw [sources_replaced (fun file => { file with source := source }) fun _ hpath => ⟨hpath, rfl⟩,
      sources_replaced (fun _ => page.session.projectFile f.path source) fun _ _ => ⟨rfl, rfl⟩]
    exact h.mirror.map _
  rw [total_perm hmirror] at hfits
  have hchecked := updateFiles_of hversion ⟨f, hf, rfl⟩ hfits
  have hlisted := h.listed.updateFiles hchecked
  obtain ⟨disk, hwork, hkeep, hat, habove⟩ :=
    atomicWrite_free source (h.stands.proper f hf) hfresh hfree
  have hstands : Stands page.session disk (s.store.snapshot.files.map fun g =>
      if g.path = f.path then page.session.projectFile f.path source else g) := by
    refine h.stands.wrote (h.stands.proper f hf) hfree hkeep ⟨_, hat⟩ habove fun g hg => ?_
    rcases mem_replaced hg with rfl | hg
    · exact Or.inl rfl
    · exact Or.inr hg
  have hrecoverable := recoverable_of hstands hlisted
    (by rw [List.length_map, ← length_sources]; exact h.recoverable.count) (fun g hg => by
      rcases mem_replaced hg with rfl | ⟨hg, -⟩
      · exact ⟨hok, hsize⟩
      · exact h.source_ok hg) hfits
  have hvalidate : validate (.documentUpdate (s.client.version + 1) f.path source page.base) =
      .ok () := by
    simp only [validate, Session.bind_unit_iff, checkVersion_succ, true_and]
    exact ⟨Session.validProjectPath_iff.mpr hok, by rw [checkSize, if_neg hlarge]⟩
  simp only [Taken, take, hvalidate]
  exact inStep_of_run hchecked hlisted hwork hmirror hrecoverable hstands

theorem op_taken {a : Action} (h : InStep page s) (henabled : enabled page s a)
    (hfits : Fits page s a) {message : Option RuntimeClientMessage}
    (happly : page.apply s.client a.op = some (client, message)) :
    ∃ sent, message = some sent ∧ Taken page s a.temporary client sent := by
  obtain ⟨op, temporary⟩ := a
  cases op with
  | create path => exact createFileNamed_taken h happly (henabled path rfl) hfits
  | rename path newPath => exact renameFileTo_taken h happly hfits
  | delete path => exact deleteFile_taken h happly
  | edit path source => exact onChange_taken h happly (henabled path rfl) hfits.1 hfits.2

theorem inStep_next {a : Action} (h : InStep page s)
    (ha : ((machine page).restrict (Fits page)).enabled s a) : InStep page (next page s a) := by
  rw [next]
  split
  · exact h
  · next client happly =>
    obtain ⟨sent, hsent, -⟩ := op_taken h ha.1 ha.2 happly
    contradiction
  · next client message happly =>
    obtain ⟨sent, hsent, snapshot, disk, htake, hstep⟩ := op_taken h ha.1 ha.2 happly
    rw [Option.some.inj hsent, htake]
    exact hstep

theorem InStep.recovers (h : InStep page s) {session : Session} {snapshot : Snapshot} {version : ℕ}
    (hlanguage : session.language = page.session.language) (hversion : snapshot.version ≤ version) :
    (session.replacedFiles snapshot version (sources s.client.files)).isOk = true := by
  have hvalid := Session.validateSourceFiles_iff.mpr (h.recoverable.perm h.mirror)
  obtain ⟨f, hf, hentry⟩ := h.mem_server.mpr h.listed.entry
  have hany : ((sources s.client.files).any fun file =>
      file.path = (Packs.pack session.language).entryFile) = true := by
    refine List.any_eq_true.mpr ⟨⟨f.path, f.source⟩, List.mem_map_of_mem hf, ?_⟩
    rw [decide_eq_true_eq, hentry, hlanguage]
    rfl
  rw [Session.replacedFiles, hvalid]
  simp only [hany, not_lt.mpr hversion, bind, Except.bind, pure, Except.pure]
  rfl

/-- While new paths are free and the project fits, the store takes whatever the page applies, and
the page's files can be recovered. -/
theorem page_applies_what_store_takes {t : System} (hstart : InStep page s)
    (hrun : ((machine page).restrict (Fits page)).Reaches s t) :
    validateSourceFiles (sources t.client.files) = .ok () ∧
      (∀ (session : Session) (snapshot : Snapshot) (version : ℕ),
        session.language = page.session.language → snapshot.version ≤ version →
          (session.replacedFiles snapshot version (sources t.client.files)).isOk = true) ∧
      ∀ a client message, enabled page t a → Fits page t a →
        page.apply t.client a.op = some (client, message) →
          ∃ sent, message = some sent ∧
            (take page.session a.temporary t.store sent).1.isOk = true := by
  have h : InStep page t := hrun.invariant (fun s a hs ha => inStep_next hs ha) hstart
  refine ⟨Session.validateSourceFiles_iff.mpr (h.recoverable.perm h.mirror),
    fun session snapshot version hlanguage hversion => h.recovers hlanguage hversion, ?_⟩
  intro a client message henabled hfits happly
  obtain ⟨sent, hsent, snapshot, disk, htake, -⟩ := op_taken h henabled hfits happly
  exact ⟨sent, hsent, by rw [htake]; rfl⟩

end Step

/-! ## Concrete operations -/

section Concrete

def zigPage : Page := ⟨opaqueUrl, true, localeCompare, none, ClientUri.zigSession⟩

def zigStore : Store :=
  ⟨ClientUri.zigSession.opening id [("main.zig", "")],
    ⟨[(["tmp", "s1", "src", "main.zig"], some (.file (.text ""))), (["tmp", "s1", "src"], some .dir),
      (["tmp", "s1"], some .dir), (["tmp"], some .dir)]⟩⟩

def zigSystem : System := ⟨⟨zigStore.snapshot.files, 1⟩, zigStore⟩

instance (d p : List String) : Decidable (Above d p) := inferInstanceAs (Decidable (_ ∧ _ ∧ _))

theorem free_iff {disk : Disk} {p : List String} :
    Free disk p ↔ (∀ d ∈ p.inits, Above d p → disk d = none ∨ disk d = some .dir) ∧
      disk p ≠ some .dir ∧ (disk p).any Node.isLink = false := by
  rw [← vacant_iff]
  constructor
  · exact fun h => ⟨fun d _ hd => h.above d hd, h.vacant⟩
  · exact fun ⟨habove, hvacant⟩ =>
      ⟨fun d hd => habove d ((List.mem_inits d p).mpr hd.2.1) hd, hvacant⟩

instance (disk : Disk) (p : List String) : Decidable (Free disk p) := decidable_of_iff _ free_iff.symm

instance (page : Page) : DecidableRel (Fits page)
  | s, ⟨.create path, _⟩ =>
    inferInstanceAs (Decidable (Free s.store.disk (page.session.location path)))
  | s, ⟨.rename _ newPath, _⟩ =>
    inferInstanceAs (Decidable (Free s.store.disk (page.session.location newPath)))
  | _, ⟨.delete _, _⟩ => inferInstanceAs (Decidable True)
  | _, ⟨.edit _ _, _⟩ => inferInstanceAs (Decidable (_ ∧ _))

instance (page : Page) : DecidableRel (machine page).enabled := fun s a =>
  decidable_of_iff (∀ path ∈ written a.op, page.session.Fresh s.store.disk a.temporary path) Iff.rfl

theorem zigSystem_inStep : InStep zigPage zigSystem := by
  have hfiles : zigStore.snapshot.files = [ClientUri.zigSession.projectFile "main.zig" ""] := rfl
  have hlisted : ClientUri.zigSession.Listing zigStore.snapshot :=
    Session.opening_listing (by decide) (by decide)
  have hstands : Stands ClientUri.zigSession zigStore.disk zigStore.snapshot.files := by
    refine ⟨fun f hf => ?_, fun f hf => ?_, fun f hf => ?_⟩ <;>
      (rw [hfiles, List.mem_singleton] at hf; subst hf)
    · decide
    · exact ⟨.text "", by decide⟩
    · intro d hd
      have hall : ∀ d ∈ (ClientUri.zigSession.location "main.zig").inits,
          Above d (ClientUri.zigSession.location "main.zig") → zigStore.disk d = some .dir := by
        decide +kernel
      exact hall d ((List.mem_inits _ _).mpr hd.2.1) hd
  refine ⟨List.Perm.refl _, by decide, hlisted.listed, ?_, hstands⟩
  exact Session.validateSourceFiles_iff.mp (by decide +kernel)

def edits : List Action :=
  [⟨.create "lib/a.zig", ".t1"⟩, ⟨.edit "lib/a.zig" "const a", ".t2"⟩,
    ⟨.rename "lib/a.zig" "lib/b.zig", ".t3"⟩, ⟨.delete "lib/b.zig", ".t4"⟩,
    ⟨.create "b.zig", ".t5"⟩]

theorem page_applies_what_store_takes_edits :
    ∃ t, ((machine zigPage).restrict (Fits zigPage)).Reaches zigSystem t ∧
      t.client.files.length = 2 ∧ validateSourceFiles (sources t.client.files) = .ok () := by
  obtain ⟨t, ht, hp⟩ := Machine.exists_reaches_of_exec
    (M := (machine zigPage).restrict (Fits zigPage)) (s := zigSystem) (l := edits)
    (p := fun t => t.client.files.length = 2) (by decide +kernel)
  exact ⟨t, ht, by simpa using hp, (page_applies_what_store_takes zigSystem_inStep ht).1⟩

/-- A file is created where another has its directory: the page applies it, the store refuses it,
and no session can be recovered with the page's files. -/
theorem store_refuses_directory :
    InStep zigPage zigSystem ∧ ∃ t : System, (machine zigPage).Reaches zigSystem t ∧
      enabled zigPage t ⟨.create "lib", ".t2"⟩ ∧
      ∃ client message, zigPage.apply t.client (.create "lib") = some (client, some message) ∧
        (take zigPage.session ".t2" t.store message).1.isOk = false ∧
        (validateSourceFiles (sources client.files)).isOk = false := by
  refine ⟨zigSystem_inStep, ?_⟩
  obtain ⟨t, ht, hp⟩ := Machine.exists_reaches_of_exec
    (M := machine zigPage) (s := zigSystem) (l := [⟨.create "lib/a.zig", ".t1"⟩])
    (p := fun t => decide ((machine zigPage).enabled t ⟨.create "lib", ".t2"⟩) &&
      (zigPage.apply t.client (.create "lib")).any fun applied =>
        applied.2.any fun message => !(take zigPage.session ".t2" t.store message).1.isOk &&
          !(validateSourceFiles (sources applied.1.files)).isOk) (by decide +kernel)
  rw [Bool.and_eq_true, decide_eq_true_eq, Option.any_eq_true] at hp
  obtain ⟨henabled, ⟨client, message⟩, happly, hp⟩ := hp
  obtain ⟨message, rfl, hrefused⟩ := (Option.any_eq_true _ _).mp hp
  rw [Bool.and_eq_true, Bool.not_eq_true', Bool.not_eq_true'] at hrefused
  exact ⟨t, ht, henabled, client, message, happly, hrefused.1, hrefused.2⟩

end Concrete

end Atomis.ClientFiles
