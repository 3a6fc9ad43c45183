import Atomis.Store

/-!
# What a commit lists

A file list that contains the entry file once and every path once is committed
without fail, and the checks of every operation hand on such a list when the
snapshot they start from has one.
-/

namespace Atomis.Session
open Protocol

structure Listed (session : Session) (files : List ProjectFile) : Prop where
  nodup : (files.map ProjectFile.path).Nodup
  uris : ∀ f ∈ files, f.uri = pathToFileUrl (session.sourcePath f.path)
  entry : ∃ f ∈ files, f.path = session.entryPath

structure Listing (session : Session) (snapshot : Snapshot) : Prop where
  listed : session.Listed snapshot.files
  sorted : snapshot.files.Pairwise before
  main : ∃ f ∈ snapshot.files, f.path = session.entryPath ∧ snapshot.uri = f.uri ∧
    snapshot.source = f.source

variable {session : Session} {snapshot : Snapshot} {files : List ProjectFile}

theorem Listed.perm (h : session.Listed files) {files' : List ProjectFile}
    (hperm : files'.Perm files) : session.Listed files' where
  nodup := ((hperm.map _).nodup_iff).mpr h.nodup
  uris f hf := h.uris f (hperm.mem_iff.mp hf)
  entry := by
    obtain ⟨f, hf, hentry⟩ := h.entry
    exact ⟨f, hperm.mem_iff.mpr hf, hentry⟩

theorem commit_ok {version : ℕ} (h : session.commit version files = .ok snapshot) :
    snapshot.version = version ∧ snapshot.files = files.insertionSort before ∧
      ∃ f ∈ snapshot.files, f.path = session.entryPath ∧ snapshot.uri = f.uri ∧
        snapshot.source = f.source := by
  simp only [commit] at h
  split at h
  · cases h
  next main hmain =>
    cases h
    have hpath : main.path = session.entryPath := by simpa using List.find?_some hmain
    exact ⟨rfl, rfl, main, List.mem_of_find?_eq_some hmain, hpath, rfl, rfl⟩

theorem Listed.commit_isOk (h : session.Listed files) (version : ℕ) :
    ∃ snapshot, session.commit version files = .ok snapshot := by
  obtain ⟨f, hf, hentry⟩ := h.entry
  simp only [commit]
  split
  next hnone =>
    rw [List.find?_eq_none] at hnone
    exact absurd hentry (by simpa using hnone f ((List.mem_insertionSort _).mpr hf))
  next main hmain => exact ⟨_, rfl⟩

theorem Listed.listing (h : session.Listed files) {version : ℕ}
    (hcommit : session.commit version files = .ok snapshot) : session.Listing snapshot := by
  obtain ⟨-, hfiles, hmain⟩ := commit_ok hcommit
  refine ⟨?_, ?_, hmain⟩
  · rw [hfiles]
    exact h.perm (List.perm_insertionSort before files)
  · rw [hfiles]
    exact List.pairwise_insertionSort before files

/-- `commit` checks for the entry file itself, so a list from disk needs no more. -/
theorem listing_of_commit {version : ℕ} (hnodup : (files.map ProjectFile.path).Nodup)
    (huris : ∀ f ∈ files, f.uri = pathToFileUrl (session.sourcePath f.path))
    (hcommit : session.commit version files = .ok snapshot) : session.Listing snapshot := by
  obtain ⟨-, hfiles, f, hf, hpath, -, -⟩ := commit_ok hcommit
  rw [hfiles, List.mem_insertionSort] at hf
  exact Listed.listing ⟨hnodup, huris, f, hf, hpath⟩ hcommit

theorem opening_listing {texts : String → String} {sources : List (String × String)}
    (hnodup : (sources.map Prod.fst).Nodup) (hentry : session.entryPath ∈ sources.map Prod.fst) :
    session.Listing (session.opening texts sources) := by
  obtain ⟨main, hmain⟩ : ∃ main, (sources.find? fun source => source.1 = session.entryPath) =
      some main := by
    rw [← Option.isSome_iff_exists, List.find?_isSome]
    obtain ⟨main, hmem, heq⟩ := List.mem_map.mp hentry
    exact ⟨main, hmem, by simpa using heq⟩
  have hpath : main.1 = session.entryPath := by simpa using List.find?_some hmain
  have hlisted : session.Listed
      (sources.map fun source => session.projectFile source.1 source.2) := by
    refine ⟨by simpa [Function.comp_def, projectFile] using hnodup, fun f hf => ?_, ?_⟩
    · obtain ⟨source, -, rfl⟩ := List.mem_map.mp hf
      rfl
    · exact ⟨_, List.mem_map_of_mem (List.mem_of_find?_eq_some hmain), hpath⟩
  refine ⟨hlisted.perm (List.perm_insertionSort before _), List.pairwise_insertionSort before _,
    session.projectFile main.1 main.2, ?_, hpath, ?_, ?_⟩
  · exact (List.mem_insertionSort _).mpr (List.mem_map_of_mem (List.mem_of_find?_eq_some hmain))
  · rw [hpath]
    rfl
  · change ((sources.find? fun source => source.1 = session.entryPath).map Prod.snd).getD
      (texts "main.zig") = main.2
    rw [hmain]
    rfl

theorem assertVersion_ok {version : ℕ} (h : assertVersion snapshot version = .ok ()) :
    snapshot.version < version := by
  simp only [assertVersion] at h
  split_ifs at h with hle
  omega

/-! ## The checks of each operation -/

theorem bind_eq_ok {ε α β : Type} {x : Except ε α} {f : α → Except ε β} {b : β}
    (h : (x >>= f) = .ok b) : ∃ a, x = .ok a ∧ f a = .ok b := by
  cases x with
  | error e => cases h
  | ok a => exact ⟨a, rfl, h⟩

theorem updateFiles_ok {version : ℕ} {path source : String}
    (h : session.updateFiles snapshot version path source = .ok files) :
    snapshot.version < version ∧ (∃ f ∈ snapshot.files, f.path = path) ∧
      files = snapshot.files.map fun f =>
        if f.path = path then session.projectFile path source else f := by
  simp only [updateFiles] at h
  obtain ⟨⟨⟩, hversion, h⟩ := bind_eq_ok h
  split at h
  · cases h
  next hlisted =>
    obtain ⟨⟨⟩, -, h⟩ := bind_eq_ok h
    cases h
    exact ⟨assertVersion_ok hversion, by simpa using hlisted, rfl⟩

theorem createFiles_ok {version : ℕ} {path source : String}
    (h : session.createFiles snapshot version path source = .ok files) :
    snapshot.version < version ∧ (∀ f ∈ snapshot.files, f.path ≠ path) ∧
      files = snapshot.files ++ [session.projectFile path source] := by
  simp only [createFiles] at h
  obtain ⟨⟨⟩, hversion, h⟩ := bind_eq_ok h
  split at h
  · cases h
  split at h
  · cases h
  next hnew =>
    obtain ⟨⟨⟩, -, h⟩ := bind_eq_ok h
    cases h
    exact ⟨assertVersion_ok hversion, by simpa using hnew, rfl⟩

theorem renameFiles_ok {version : ℕ} {path newPath : String}
    (h : session.renameFiles snapshot version path newPath = .ok files) :
    snapshot.version < version ∧ path ≠ session.entryPath ∧
      (∀ f ∈ snapshot.files, f.path ≠ newPath) ∧
      ∃ current ∈ snapshot.files, current.path = path ∧
        files = snapshot.files.map fun f =>
          if f.path = path then session.projectFile newPath current.source else f := by
  simp only [renameFiles] at h
  obtain ⟨⟨⟩, hversion, h⟩ := bind_eq_ok h
  split at h
  · cases h
  next hentry =>
    split at h
    · cases h
    next current hfind =>
      split at h
      · cases h
      next hnew =>
        cases h
        have hpath : current.path = path := by simpa using List.find?_some hfind
        exact ⟨assertVersion_ok hversion, fun heq => hentry heq.symm, by simpa using hnew,
          current, List.mem_of_find?_eq_some hfind, hpath, rfl⟩

theorem deleteFiles_ok {version : ℕ} {path : String}
    (h : session.deleteFiles snapshot version path = .ok files) :
    snapshot.version < version ∧ path ≠ session.entryPath ∧ (∃ f ∈ snapshot.files, f.path = path) ∧
      files = snapshot.files.filter fun f => f.path ≠ path := by
  simp only [deleteFiles] at h
  obtain ⟨⟨⟩, hversion, h⟩ := bind_eq_ok h
  split at h
  · cases h
  next hentry =>
    split at h
    · cases h
    next hlisted =>
      cases h
      exact ⟨assertVersion_ok hversion, fun heq => hentry heq.symm, by simpa using hlisted, rfl⟩

/-! ## What a validated list of files is -/

theorem validProjectPath_iff {path : String} :
    validProjectPath path = .ok () ↔ projectPathOk path = true := by
  simp [validProjectPath]

theorem bind_unit_iff {ε α : Type} {check : Except ε Unit} {rest : Except ε α} {a : α} :
    (check >>= fun _ => rest) = .ok a ↔ check = .ok () ∧ rest = .ok a := by
  cases check <;> simp [bind, Except.bind]

theorem throw_if_iff {ε : Type} {p : Prop} [Decidable p] {error : ε} :
    (if p then throw error else pure () : Except ε Unit) = .ok () ↔ ¬p := by
  split_ifs with hp <;> simp [hp, pure, Except.pure]

theorem checkSource_iff {seen : List String} {file : SourceFile} :
    checkSource seen file = .ok () ↔ projectPathOk file.path = true ∧ file.path ∉ seen ∧
      file.source.utf8ByteSize ≤ maxSourceBytes := by
  rw [checkSource, bind_unit_iff, validProjectPath_iff]
  by_cases hseen : file.path ∈ seen
  · simp [hseen, bind, Except.bind, throw, throwThe, MonadExceptOf.throw]
  · simp [hseen, throw_if_iff]

theorem checkSources_iff {seen : List String} {sources : List SourceFile} :
    checkSources seen sources = .ok () ↔
      (∀ file ∈ sources, projectPathOk file.path = true ∧ file.path ∉ seen ∧
        file.source.utf8ByteSize ≤ maxSourceBytes) ∧ (sources.map SourceFile.path).Nodup := by
  induction sources generalizing seen with
  | nil => simp [checkSources]
  | cons file sources ih =>
    rw [checkSources, bind_unit_iff, checkSource_iff, ih, List.map_cons, List.nodup_cons,
      List.forall_mem_cons]
    constructor
    · rintro ⟨hfile, hrest, hnodup⟩
      refine ⟨⟨hfile, fun other hother => ?_⟩, fun hmem => ?_, hnodup⟩
      · obtain ⟨hpath, hnew, hsize⟩ := hrest other hother
        exact ⟨hpath, fun hseen => hnew (List.mem_cons_of_mem _ hseen), hsize⟩
      · obtain ⟨other, hother, heq⟩ := List.mem_map.mp hmem
        exact (hrest other hother).2.1 (by simp [heq])
    · rintro ⟨⟨hfile, hrest⟩, hnew, hnodup⟩
      refine ⟨hfile, fun other hother => ?_, hnodup⟩
      obtain ⟨hpath, hseen, hsize⟩ := hrest other hother
      refine ⟨hpath, fun hmem => ?_, hsize⟩
      rcases List.mem_cons.mp hmem with heq | hmem
      · exact hnew (List.mem_map.mpr ⟨other, hother, heq⟩)
      · exact hseen hmem

/-- What the check of a whole project asks for. -/
structure Recoverable (sources : List SourceFile) : Prop where
  ne_nil : sources ≠ []
  count : sources.length ≤ maxProjectFiles
  paths : ∀ file ∈ sources, projectPathOk file.path = true
  nodup : (sources.map SourceFile.path).Nodup
  sizes : ∀ file ∈ sources, file.source.utf8ByteSize ≤ maxSourceBytes
  total : (sources.map fun file => file.source.utf8ByteSize).sum ≤ maxProjectBytes
  apart : ∀ file ∈ sources, ∀ other ∈ sources, ¬ (file.path ++ "/").toList <+: other.path.toList

theorem Recoverable.perm {sources sources' : List SourceFile} (h : Recoverable sources)
    (hperm : sources'.Perm sources) : Recoverable sources' where
  ne_nil hnil := h.ne_nil (List.nil_perm.mp (hnil ▸ hperm))
  count := hperm.length_eq.trans_le h.count
  paths file hfile := h.paths file (hperm.mem_iff.mp hfile)
  nodup := (hperm.map _).nodup_iff.mpr h.nodup
  sizes file hfile := h.sizes file (hperm.mem_iff.mp hfile)
  total := (hperm.map _).sum_nat.trans_le h.total
  apart file hfile other hother :=
    h.apart file (hperm.mem_iff.mp hfile) other (hperm.mem_iff.mp hother)

theorem validateSourceFiles_iff {sources : List SourceFile} :
    validateSourceFiles sources = .ok () ↔ Recoverable sources := by
  have hnested : ¬ (sources.any fun file => sources.any fun other =>
      (file.path ++ "/").toList.isPrefixOf other.path.toList) = true ↔
      ∀ file ∈ sources, ∀ other ∈ sources, ¬ (file.path ++ "/").toList <+: other.path.toList := by
    simp
  have hcount : ¬ (sources.isEmpty || decide (sources.length > maxProjectFiles)) = true ↔
      sources ≠ [] ∧ sources.length ≤ maxProjectFiles := by
    simp
  simp only [validateSourceFiles]
  split
  next hbad =>
    refine iff_of_false (by simp [bind, Except.bind, throw, throwThe, MonadExceptOf.throw]) ?_
    exact fun h => hcount.mpr ⟨h.ne_nil, h.count⟩ hbad
  next hgood =>
    rw [bind_unit_iff, checkSources_iff]
    obtain ⟨hne, hlength⟩ := hcount.mp hgood
    split
    next hlarge =>
      refine iff_of_false (fun h => ?_) fun h => absurd h.total (by omega)
      exact absurd h.2 (by simp [bind, Except.bind, throw, throwThe, MonadExceptOf.throw])
    next htotal =>
      rw [throw_if_iff, hnested]
      constructor
      · rintro ⟨⟨hfiles, hnodup⟩, hapart⟩
        exact ⟨hne, hlength, fun file hfile => (hfiles file hfile).1, hnodup,
          fun file hfile => (hfiles file hfile).2.2, by omega, hapart⟩
      · intro h
        exact ⟨⟨fun file hfile => ⟨h.paths file hfile, List.not_mem_nil, h.sizes file hfile⟩,
          h.nodup⟩, h.apart⟩

theorem validateSourceFiles_ok {sources : List SourceFile}
    (h : validateSourceFiles sources = .ok ()) :
    (∀ file ∈ sources, projectPathOk file.path = true) ∧
      (sources.map SourceFile.path).Nodup ∧
      ∀ file ∈ sources, ∀ other ∈ sources,
        ¬ (file.path ++ "/").toList <+: other.path.toList := by
  have hsound := validateSourceFiles_iff.mp h
  exact ⟨hsound.paths, hsound.nodup, hsound.apart⟩

theorem replacedFiles_ok {version : ℕ} {sources : List SourceFile}
    (h : session.replacedFiles snapshot version sources = .ok files) :
    snapshot.version ≤ version ∧ validateSourceFiles sources = .ok () ∧
      (∃ file ∈ sources, file.path = session.entryPath) ∧
      files = sources.map fun file => session.projectFile file.path file.source := by
  simp only [replacedFiles] at h
  obtain ⟨⟨⟩, hvalid, h⟩ := bind_eq_ok h
  split at h
  · cases h
  next hentry =>
    split at h
    · cases h
    · cases h
      exact ⟨by omega, hvalid, by simpa [entryPath] using hentry, rfl⟩

theorem resetFilesList_ok {texts : String → String} {version : ℕ} {scaffold : WorkspaceScaffold}
    (h : session.resetFilesList texts snapshot version scaffold = .ok files) :
    snapshot.version < version ∧
      session.replacedFiles snapshot version (session.scaffoldSources texts scaffold) =
        .ok files := by
  obtain ⟨⟨⟩, hversion, h⟩ := bind_eq_ok h
  exact ⟨assertVersion_ok hversion, h⟩

/-! ## Every operation hands on a list that commits -/

theorem Listed.updateFiles (hl : session.Listed snapshot.files) {version : ℕ}
    {path source : String} (h : session.updateFiles snapshot version path source = .ok files) :
    session.Listed files := by
  obtain ⟨-, -, rfl⟩ := updateFiles_ok h
  have hpaths : ∀ f : ProjectFile,
      (if f.path = path then session.projectFile path source else f).path = f.path := by
    intro f
    split_ifs with hf
    · exact hf.symm
    · rfl
  constructor
  · simpa [Function.comp_def, hpaths] using hl.nodup
  · intro f hf
    obtain ⟨g, hg, rfl⟩ := List.mem_map.mp hf
    split_ifs
    · rfl
    · exact hl.uris g hg
  · obtain ⟨f, hf, hentry⟩ := hl.entry
    exact ⟨_, List.mem_map_of_mem hf, (hpaths f).trans hentry⟩

theorem Listed.createFiles (hl : session.Listed snapshot.files) {version : ℕ}
    {path source : String} (h : session.createFiles snapshot version path source = .ok files) :
    session.Listed files := by
  obtain ⟨-, hnew, rfl⟩ := createFiles_ok h
  constructor
  · rw [List.map_append, List.nodup_append]
    refine ⟨hl.nodup, by simp, ?_⟩
    intro p hp q hq heq
    obtain ⟨f, hf, rfl⟩ := List.mem_map.mp hp
    obtain rfl : q = path := by simpa [projectFile] using hq
    exact hnew f hf heq
  · intro f hf
    rcases List.mem_append.mp hf with hf | hf
    · exact hl.uris f hf
    · rw [List.mem_singleton.mp hf]
      rfl
  · obtain ⟨f, hf, hentry⟩ := hl.entry
    exact ⟨f, List.mem_append_left _ hf, hentry⟩

theorem Listed.renameFiles (hl : session.Listed snapshot.files) {version : ℕ}
    {path newPath : String} (h : session.renameFiles snapshot version path newPath = .ok files) :
    session.Listed files := by
  obtain ⟨-, hentry, hnew, current, -, -, rfl⟩ := renameFiles_ok h
  constructor
  · rw [List.map_map]
    refine hl.nodup.of_map _ |>.map_on ?_
    intro f hf g hg heq
    simp only [Function.comp_apply] at heq
    split_ifs at heq with hfp hgp hgp
    · exact List.inj_on_of_nodup_map hl.nodup hf hg (hfp.trans hgp.symm)
    · exact absurd heq.symm (hnew g hg)
    · exact absurd heq (hnew f hf)
    · exact List.inj_on_of_nodup_map hl.nodup hf hg heq
  · intro f hf
    obtain ⟨g, hg, rfl⟩ := List.mem_map.mp hf
    split_ifs
    · rfl
    · exact hl.uris g hg
  · obtain ⟨f, hf, hfe⟩ := hl.entry
    refine ⟨f, List.mem_map.mpr ⟨f, hf, ?_⟩, hfe⟩
    rw [if_neg]
    rw [hfe]
    exact hentry.symm

theorem Listed.deleteFiles (hl : session.Listed snapshot.files) {version : ℕ} {path : String}
    (h : session.deleteFiles snapshot version path = .ok files) : session.Listed files := by
  obtain ⟨-, hentry, -, rfl⟩ := deleteFiles_ok h
  constructor
  · exact hl.nodup.sublist (List.filter_sublist.map _)
  · intro f hf
    exact hl.uris f (List.mem_of_mem_filter hf)
  · obtain ⟨f, hf, hfe⟩ := hl.entry
    refine ⟨f, List.mem_filter.mpr ⟨hf, ?_⟩, hfe⟩
    rw [hfe]
    simpa using hentry.symm

theorem listed_replacedFiles {version : ℕ} {sources : List SourceFile}
    (h : session.replacedFiles snapshot version sources = .ok files) : session.Listed files := by
  obtain ⟨-, hvalid, ⟨file, hfile, hentry⟩, rfl⟩ := replacedFiles_ok h
  constructor
  · simpa [Function.comp_def, projectFile] using (validateSourceFiles_ok hvalid).2.1
  · intro f hf
    obtain ⟨g, -, rfl⟩ := List.mem_map.mp hf
    rfl
  · exact ⟨_, List.mem_map_of_mem hfile, hentry⟩

/-- When only lists that commit are handed on, an operation is refused by its
checks or fails on the disk, and otherwise commits. -/
theorem run_cases {s : Store} {version : ℕ} {checked : Except String (List ProjectFile)}
    {work : Disk → Except StoreError Unit × Disk}
    (hl : ∀ files, checked = .ok files → session.Listed files) :
    (∃ message, checked = .error message ∧
      s.run session version checked work = (.error (.refused message), s)) ∨
    ∃ files, checked = .ok files ∧
      ((∃ error, (work s.disk).1 = .error error ∧
          s.run session version checked work = (.error error, { s with disk := (work s.disk).2 })) ∨
        ∃ snapshot, (work s.disk).1 = .ok () ∧ session.commit version files = .ok snapshot ∧
          s.run session version checked work = (.ok snapshot, ⟨snapshot, (work s.disk).2⟩)) := by
  simp only [Store.run]
  cases hc : checked with
  | error message => exact .inl ⟨message, rfl, rfl⟩
  | ok files =>
    refine .inr ⟨files, rfl, ?_⟩
    rcases hw : work s.disk with ⟨result, disk⟩
    cases result with
    | error error => exact .inl ⟨error, rfl, rfl⟩
    | ok _ =>
      obtain ⟨snapshot, hcommit⟩ := (hl files hc).commit_isOk version
      exact .inr ⟨snapshot, rfl, hcommit, by simp [hcommit]⟩

end Atomis.Session
