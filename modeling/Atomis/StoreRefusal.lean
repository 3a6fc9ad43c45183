import Atomis.StoreCall

/-!
# What a refused call leaves behind

A call that answers an error leaves the snapshot, and it leaves the files under
the source root unless it strands its temporary file there or, having moved the
source tree away, can neither put the new tree nor the old one in its place.
-/

namespace Atomis
open Protocol Atomis.Tree

namespace StoreRefusal
variable {session : Session} {faults : Faults} {texts : String → String}

def contentAt (disk : Disk) (p : List String) : Option Content := (disk p).bind Node.content?

/-- The files under the source root, and what they hold. -/
def SameSources (session : Session) (disk disk' : Disk) : Prop :=
  ∀ p, session.sourceRoot <+: p → contentAt disk' p = contentAt disk p

/-- The temporary file is written under the source root, in part at least, and
is not renamed: the write or the rename fails. -/
def StrandsTemporary (session : Session) (faults : Faults) (temporary path source : String)
    (disk : Disk) : Prop :=
  (session.withParents faults path disk).1 = true ∧ ∃ d,
    locate (session.withParents faults path disk).2 (session.temporaryPath temporary path) =
      some (d ++ [temporary]) ∧
    session.sourceRoot <+: d ++ [temporary] ∧
    ((∃ part, faults.write (session.temporaryPath temporary path) = some (some part)) ∨
      faults.write (session.temporaryPath temporary path) = none ∧
        (session.lastRename faults temporary path
          (session.withTemporary faults temporary path disk d (.text source))).1 = false)

/-- The source tree, with some file in it, is moved away, and both renames that
would put a tree in its place fail. -/
def LosesTree (session : Session) (faults : Faults) (staging backup : String)
    (sources : List SourceFile) (disk : Disk) : Prop :=
  (∃ staged away, session.staged faults staging sources disk = (true, staged) ∧
    session.renameInRoot faults "src" backup staged = (true, away)) ∧
  faults.rename (session.inRoot staging) (session.inRoot "src") = true ∧
  faults.rename (session.inRoot backup) (session.inRoot "src") = true ∧
  ∃ p, session.sourceRoot <+: p ∧ (contentAt disk p).isSome = true

def LeavesTrace (session : Session) (faults : Faults) (texts : String → String) (s : Store) (c : Call) :
    Prop :=
  (∃ files, c.checked session texts s.snapshot = .ok files) ∧
  match c with
  | .update temporary _ path source | .createFile temporary _ path source =>
    StrandsTemporary session faults temporary path source s.disk
  | .resetFiles staging backup _ scaffold =>
    LosesTree session faults staging backup (session.scaffoldSources texts scaffold) s.disk
  | .replaceFiles staging backup _ sources =>
    LosesTree session faults staging backup sources s.disk
  | .renameFile .. | .deleteFile .. => False

variable {disk : Disk}

theorem contentAt_of_made {disk' : Disk} {p : List String}
    (h : disk' p = disk p ∨ disk p = none ∧ disk' p = some .dir) :
    contentAt disk' p = contentAt disk p := by
  rcases h with h | ⟨hnone, hdir⟩
  · rw [contentAt, contentAt, h]
  · rw [contentAt, contentAt, hnone, hdir]
    rfl

theorem withParents_contentAt (path : String) (p : List String) :
    contentAt (session.withParents faults path disk).2 p = contentAt disk p :=
  contentAt_of_made (mkdirs_get _ _ _ _ _)

theorem withTemporary_contentAt {temporary path : String} {content : Content} {d p : List String}
    (hp : p ≠ d ++ [temporary]) :
    contentAt (session.withTemporary faults temporary path disk d content) p = contentAt disk p := by
  have hparents : contentAt (session.withParents faults path disk).2 p = contentAt disk p :=
    withParents_contentAt path p
  rw [← hparents]
  simp [contentAt, Session.withTemporary, hp]

/-- The temporary file is new, so leaving it under the source root is a change. -/
theorem withTemporary_sameSources_iff {temporary path : String} {content : Content}
    {d : List String} (hfresh : session.Fresh disk temporary path) :
    SameSources session disk (session.withTemporary faults temporary path disk d content) ↔
      ¬ session.sourceRoot <+: d ++ [temporary] := by
  constructor
  · intro h hunder
    have := h _ hunder
    simp [contentAt, Session.withTemporary, hfresh.1 _ (by simp : temporary ∈ d ++ [temporary]),
      Node.content?] at this
  · intro hout p hp
    refine withTemporary_contentAt ?_
    rintro rfl
    exact hout hp

theorem atomicWrite_of_strands {temporary path source : String}
    (hfresh : session.Fresh disk temporary path)
    (h : StrandsTemporary session faults temporary path source disk) :
    ∃ d content, session.sourceRoot <+: d ++ [temporary] ∧
      session.atomicWrite faults temporary path source disk =
        (.error .io, session.withTemporary faults temporary path disk d content) := by
  obtain ⟨hmade, d, hfound, hunder, hend⟩ := h
  have hwrite := write_vacant hfound (.inl (hfresh.withParents faults d))
  rw [Session.atomicWrite_eq]
  simp only [hmade, Bool.true_eq_false, ↓reduceIte, hwrite]
  rcases hend with ⟨part, hfault⟩ | ⟨hfault, hrename⟩
  · rw [hfault]
    exact ⟨d, part, hunder, rfl⟩
  · rw [hfault]
    refine ⟨d, .text source, hunder, ?_⟩
    have hsame : (session.lastRename faults temporary path
        (session.withTemporary faults temporary path disk d (.text source))).2 =
        session.withTemporary faults temporary path disk d (.text source) :=
      rename_failed (Prod.ext hrename rfl)
    simp only [Session.withTemporary] at hrename hsame ⊢
    simp [hrename, hsame]

theorem atomicWrite_error_iff {temporary path source : String}
    (hfresh : session.Fresh disk temporary path) :
    ((session.atomicWrite faults temporary path source disk).1 ≠ .ok () →
      SameSources session disk (session.atomicWrite faults temporary path source disk).2) ↔
      ¬ StrandsTemporary session faults temporary path source disk := by
  constructor
  · intro hsame hstrands
    obtain ⟨d, content, hunder, heq⟩ := atomicWrite_of_strands hfresh hstrands
    rw [heq] at hsame
    exact (withTemporary_sameSources_iff hfresh).mp (hsame (by simp)) hunder
  · intro hstrands herr
    cases Session.writeEnd_atomicWrite faults source hfresh with
    | unwritten h =>
      rw [h]
      exact fun p _ => withParents_contentAt path p
    | partly d part made found fault h =>
      rw [h]
      exact (withTemporary_sameSources_iff hfresh).mpr fun hunder =>
        hstrands ⟨made, d, found, hunder, .inl ⟨part, fault⟩⟩
    | wholly d renamed made found fault hrenamed h =>
      rw [h] at herr ⊢
      obtain ⟨ok, after⟩ := renamed
      cases ok with
      | true => exact absurd rfl herr
      | false =>
        obtain rfl := rename_failed hrenamed
        exact (withTemporary_sameSources_iff hfresh).mpr fun hunder =>
          hstrands ⟨made, d, found, hunder, .inr ⟨fault, by rw [hrenamed]⟩⟩

/-! ## Renaming and replacing -/

theorem renameOnDisk_error {path newPath : String}
    (h : (session.renameOnDisk faults path newPath disk).1 ≠ .ok ()) :
    SameSources session disk (session.renameOnDisk faults path newPath disk).2 := by
  intro p _
  rw [Session.renameOnDisk_eq] at h ⊢
  simp only at h ⊢
  split_ifs at h ⊢ with hmade hrenamed
  · exact withParents_contentAt newPath p
  · exact absurd rfl h
  · rw [Bool.not_eq_true] at hrenamed
    have hsame := rename_failed (Prod.ext hrenamed rfl)
    simp only [hsame]
    exact withParents_contentAt newPath p

/-- A source tree that could be moved away was moved as a whole. -/
theorem away_eq_move {backup : String} {staged away : Disk}
    (hclear : Clear staged session.root) (hbackup : backup ≠ "src")
    (hsrc : staged session.sourceRoot = some .dir)
    (h : session.renameInRoot faults "src" backup staged = (true, away)) :
    away = move staged session.sourceRoot (session.root ++ [backup]) := by
  rw [Session.renameInRoot, Session.inRoot_eq, Session.inRoot_eq] at h
  rcases rename_cases _ staged ((session.root ++ ["src"]).map Component.name)
    ((session.root ++ [backup]).map Component.name) with hf | ⟨a, b, node, ha, hb, hnode, hcases⟩
  · rw [hf] at h
    cases h
  · obtain ⟨rfl, -⟩ := place_names hclear ha
    obtain ⟨rfl, -⟩ := place_names hclear hb
    have hnodedir : node = .dir := Option.some.inj (hnode.symm.trans hsrc)
    rcases hcases with ⟨heq, -⟩ | ⟨-, -, -, hr⟩ | ⟨-, hne, -⟩
    · have hname : "src" = backup := by simpa using heq
      exact absurd hname.symm hbackup
    · exact (congrArg Prod.snd (hr.symm.trans h)).symm
    · exact absurd hnodedir hne

/-- What becomes of the sources once their tree is moved away: they are gone, and
come back exactly when the rename back does not fail. -/
theorem away_sources {staging backup : String} {sources : List SourceFile} {staged away : Disk}
    (hproper : ∀ file ∈ sources, properPath file.path = true)
    (hnodup : (sources.map SourceFile.path).Nodup) (hclear : Clear disk session.root)
    (hsrc : disk session.sourceRoot = some .dir) (hnames : Session.SwapNames disk staging backup)
    (hstaged : session.staged faults staging sources disk = (true, staged))
    (haway : session.renameInRoot faults "src" backup staged = (true, away)) :
    (∀ p, session.sourceRoot <+: p → contentAt away p = none) ∧
      if faults.rename (session.inRoot backup) (session.inRoot "src") then
        session.renameInRoot faults backup "src" away = (false, away)
      else SameSources session disk (session.renameInRoot faults backup "src" away).2 := by
  obtain ⟨hext, hout, hdone⟩ := Session.staged_spec hproper hnodup hclear hnames.1.1 hstaged
  have hclear' : Clear staged session.root := hclear.of_extends hext
  have hmove := away_eq_move hclear' hnames.2.2.2 (hext.dir _ hsrc) haway
  obtain ⟨hgone, -, -, hplace⟩ := Session.away_spec hnames hclear' (hdone rfl).1 haway
  have hback : ∀ r, away (session.root ++ [backup] ++ r) = staged (session.sourceRoot ++ r) :=
    fun r => by rw [hmove, move_get, if_pos (List.prefix_append _ r), List.drop_left]
  have hdir : away (session.root ++ [backup]) = some .dir := by
    have := hback []
    rw [List.append_nil, List.append_nil] at this
    rw [this]
    exact hext.dir _ hsrc
  have hnot : ∀ r, ¬ session.root ++ [backup] <+: session.sourceRoot ++ r := fun r => by
    rw [Session.sourceRoot, Session.prefix_append_singleton_iff]
    exact hnames.2.2.2
  have hreturn : session.renameInRoot faults backup "src" away =
      if faults.rename (session.inRoot backup) (session.inRoot "src") then (false, away)
      else (true, move away (session.root ++ [backup]) session.sourceRoot) :=
    rename_dir (hplace backup) (hplace "src") hdir hgone (by simpa using hnot [])
  refine ⟨?_, ?_⟩
  · rintro _ ⟨r, rfl⟩
    rw [contentAt, hmove, move_get, if_neg (hnot r), if_pos (List.prefix_append _ r)]
    rfl
  · split_ifs with hfault
    · rw [if_pos hfault] at hreturn
      exact hreturn
    · rw [if_neg hfault] at hreturn
      rw [hreturn]
      rintro _ ⟨r, rfl⟩
      have hunder : (move away (session.root ++ [backup]) session.sourceRoot)
          (session.sourceRoot ++ r) = staged (session.sourceRoot ++ r) := by
        rw [move_get, if_pos (List.prefix_append _ r), List.drop_left, hback]
      refine contentAt_of_made ?_
      rw [hunder]
      refine hout _ ?_
      rw [Session.sourceRoot, Session.prefix_append_singleton_iff]
      exact hnames.2.2.1

theorem replaceOnDisk_error_iff {staging backup : String} {sources : List SourceFile}
    (hproper : ∀ file ∈ sources, properPath file.path = true)
    (hnodup : (sources.map SourceFile.path).Nodup) (hclear : Clear disk session.root)
    (hsrc : disk session.sourceRoot = some .dir)
    (hnames : Session.SwapNames disk staging backup) :
    ((session.replaceOnDisk faults staging backup sources disk).1 ≠ .ok () →
      SameSources session disk (session.replaceOnDisk faults staging backup sources disk).2) ↔
      ¬ LosesTree session faults staging backup sources disk := by
  constructor
  · rintro hsame ⟨⟨staged, away, hstaged, haway⟩, hfault, hback, p, hp, hcontent⟩
    obtain ⟨hgone, hreturn⟩ := away_sources hproper hnodup hclear hsrc hnames hstaged haway
    rw [if_pos hback] at hreturn
    rcases Session.replaceOnDisk_cases faults hproper hnodup hclear hnames with
      ⟨disk', -, -, -, hnever⟩ | ⟨staged', away', hstaged', haway', ⟨hok, -⟩ | ⟨-, hr⟩⟩
    · exact absurd haway (hnever staged away hstaged)
    · rw [hfault] at hok
      cases hok
    · obtain rfl : staged = staged' := congrArg Prod.snd (hstaged.symm.trans hstaged')
      obtain rfl : away = away' := congrArg Prod.snd (haway.symm.trans haway')
      rw [hr, hreturn] at hsame
      rw [← hsame (by simp) p hp, hgone p hp] at hcontent
      cases hcontent
  · intro hlost herr
    rcases Session.replaceOnDisk_cases faults hproper hnodup hclear hnames with
      ⟨disk', hr, -, hout, -⟩ | ⟨staged, away, hstaged, haway, ⟨-, hr⟩ | ⟨hfault, hr⟩⟩
    · rw [hr]
      rintro _ ⟨r, rfl⟩
      refine contentAt_of_made (hout _ ?_)
      rw [Session.sourceRoot, Session.prefix_append_singleton_iff]
      exact hnames.2.2.1
    · exact absurd (by rw [hr]) herr
    · rw [hr]
      obtain ⟨hgone, hreturn⟩ := away_sources hproper hnodup hclear hsrc hnames hstaged haway
      split_ifs at hreturn with hback
      · rw [hreturn]
        intro p hp
        rw [hgone p hp]
        by_contra hne
        refine hlost ⟨⟨staged, away, hstaged, haway⟩, hfault, hback, p, hp, ?_⟩
        exact Option.isSome_iff_ne_none.mpr fun hnone => hne hnone.symm
      · exact hreturn

/-! ## Every call -/

theorem replaced_error_iff {snapshot : Snapshot} {staging backup : String} {version : ℕ}
    {sources : List SourceFile} {files : List ProjectFile}
    (hc : session.replacedFiles snapshot version sources = .ok files)
    (hclear : Clear disk session.root) (hsrc : disk session.sourceRoot = some .dir)
    (hnames : Session.SwapNames disk staging backup) :
    ((session.replaceOnDisk faults staging backup sources disk).1 ≠ .ok () →
      SameSources session disk (session.replaceOnDisk faults staging backup sources disk).2) ↔
      ¬ LosesTree session faults staging backup sources disk := by
  obtain ⟨-, hvalid, -, -⟩ := Session.replacedFiles_ok hc
  obtain ⟨hpaths, hnodup, -⟩ := Session.validateSourceFiles_ok hvalid
  exact replaceOnDisk_error_iff (fun file hfile => projectPathOk_proper (hpaths file hfile)) hnodup
    hclear hsrc hnames

theorem work_error_iff {s : Store} {c : Call} {files : List ProjectFile}
    (hc : c.checked session texts s.snapshot = .ok files) (hclear : Clear s.disk session.root)
    (hsrc : s.disk session.sourceRoot = some .dir) (hfresh : c.Fresh session s.disk) :
    ((c.work session faults texts s.disk).1 ≠ .ok () →
      SameSources session s.disk (c.work session faults texts s.disk).2) ↔
      ¬ LeavesTrace session faults texts s c := by
  rw [LeavesTrace.eq_def, and_iff_right ⟨files, hc⟩]
  cases c with
  | update temporary version path source => exact atomicWrite_error_iff hfresh
  | createFile temporary version path source => exact atomicWrite_error_iff hfresh
  | renameFile version path newPath => exact iff_of_true renameOnDisk_error not_false
  | deleteFile version path => exact iff_of_true (fun herr => absurd rfl herr) not_false
  | resetFiles staging backup version scaffold =>
    exact replaced_error_iff (Session.resetFilesList_ok hc).2 hclear hsrc hfresh
  | replaceFiles staging backup version sources =>
    exact replaced_error_iff hc hclear hsrc hfresh

theorem refusal_changes_nothing_iff {s : Store} (hlisting : session.Listing s.snapshot)
    (hclear : Clear s.disk session.root) (hsrc : s.disk session.sourceRoot = some .dir) {c : Call}
    (hfresh : c.Fresh session s.disk) :
    ((c.answer session faults texts s).1.isOk = false →
      (c.answer session faults texts s).2.snapshot = s.snapshot ∧
        SameSources session s.disk (c.answer session faults texts s).2.disk) ↔
      ¬ LeavesTrace session faults texts s c := by
  rcases Call.answer_cases faults hlisting.listed c with
    ⟨message, hc, hr⟩ | ⟨files, hc, ⟨error, hw, hr⟩ | ⟨snapshot, hw, -, hr⟩⟩
  · rw [hr]
    refine iff_of_true (fun _ => ⟨rfl, fun _ _ => rfl⟩) ?_
    rintro ⟨⟨files, hok⟩, -⟩
    rw [hc] at hok
    cases hok
  · rw [← work_error_iff hc hclear hsrc hfresh, hr, hw]
    simp [Except.isOk, Except.toBool]
  · rw [← work_error_iff hc hclear hsrc hfresh, hr, hw]
    simp [Except.isOk, Except.toBool]

/-! ## Concrete calls -/

def twoFiles : List (String × String) := [("a.zig", "const a"), ("main.zig", "pub fn main")]

/-- Two listed files beside a directory. -/
def withUtils : Store :=
  ⟨zigSession.opening id twoFiles,
    ⟨[(["w", "src", "utils"], some .dir), (["w", "src", "a.zig"], some (.file (.text "const a"))),
      (["w", "src", "main.zig"], some (.file (.text "pub fn main"))),
      (["w", "src"], some .dir), (["w"], some .dir)]⟩⟩

theorem refusal_changes_nothing_rename :
    ((Call.renameFile 2 "a.zig" "utils").answer zigSession .none id withUtils).1.isOk = false ∧
      ((Call.renameFile 2 "a.zig" "utils").answer zigSession .none id withUtils).2.snapshot =
        withUtils.snapshot ∧
      SameSources zigSession withUtils.disk
        ((Call.renameFile 2 "a.zig" "utils").answer zigSession .none id withUtils).2.disk := by
  have herr : ((Call.renameFile 2 "a.zig" "utils").answer zigSession .none id
    withUtils).1.isOk = false := by decide +kernel
  have hfresh : (Call.renameFile 2 "a.zig" "utils").Fresh zigSession withUtils.disk := trivial
  have hlisting : zigSession.Listing withUtils.snapshot :=
    Session.opening_listing (by decide) (by decide)
  exact ⟨herr, (refusal_changes_nothing_iff hlisting (by decide) (by decide) hfresh).mpr
    (fun h => h.2) herr⟩

/-- A file is created where a directory stands: the call fails, and its
temporary file stays among the sources. -/
theorem refusal_leaves_temporary :
    projectPathOk "utils" = true ∧
      ((Call.createFile ".t" 2 "utils" "x").answer zigSession .none id withUtils).1.isOk = false ∧
      contentAt withUtils.disk ["w", "src", ".t"] = none ∧
      contentAt ((Call.createFile ".t" 2 "utils" "x").answer zigSession .none id withUtils).2.disk
        ["w", "src", ".t"] = some (.text "x") := by
  decide +kernel

end StoreRefusal
end Atomis
