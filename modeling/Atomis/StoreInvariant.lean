import Atomis.Lib.Machine
import Atomis.StoreCall

/-!
# The invariant of the document store

Any sequence of calls on a session's store, with other writers changing the
tree in between. `agreed` says that since the session last read or replaced its
tree nobody else has written to it, no link stood on the way and every path it
was asked to create was a proper one.
-/

namespace Atomis
open Atomis.Tree

namespace StoreInvariant
variable {session : Session} {texts : String → String}

/-- No link stands at, above or below this place. -/
def Plain (disk : Disk) (root : List String) : Prop := ∀ ns, Clear disk (root ++ ns)

theorem plain_iff {disk : Disk} {root : List String} :
    Plain disk root ↔ ∀ p, p ≠ [] ∧ (p <+: root ∨ root <+: p) →
      (disk p).any Node.isLink = false := by
  constructor
  · rintro h p ⟨hne, hp | ⟨ns, rfl⟩⟩
    · exact h [] p hne (by simpa using hp)
    · exact h ns _ hne List.prefix_rfl
  · intro h ns pre hne hpre
    exact h pre ⟨hne, List.prefix_or_prefix_of_prefix hpre (List.prefix_append root ns)⟩

instance (disk : Disk) (root : List String) : Decidable (Plain disk root) :=
  decidable_of_iff _ ((disk.forall_get_iff
    (p := fun k v => k ≠ [] ∧ (k <+: root ∨ root <+: k) → v.any Node.isLink = false)
    fun _ _ => rfl).symm.trans plain_iff.symm)

structure State where
  store : Store
  agreed : Bool

inductive Action
  | call (c : Call)
  | refresh (order : List (List String))
  | outside (disk : Disk)

def enabled (session : Session) (s : State) : Action → Prop
  | .call c => c.Fresh session s.store.disk
  | .refresh order => order.Nodup ∧ ∀ p ∈ order, ∀ n ∈ p, plainName n = true
  | .outside _ => True

/-- What a step answers; another writer answers nothing. -/
def answer (session : Session) (texts : String → String) (s : Store) :
    Action → Except StoreError Snapshot × Store
  | .call c => c.answer session .none texts s
  | .refresh order => s.refreshFiles session order
  | .outside disk => (.ok s.snapshot, { s with disk := disk })

def agreedAfter (session : Session) (s : State) (result : Except StoreError Snapshot × Store) :
    Action → Bool
  | .call c =>
    if c.replaces && result.1.isOk then decide (Clear s.store.disk session.root)
    else s.agreed && c.proper
  | .refresh _ =>
    if session.workspaceId.isSome && result.1.isOk then decide (Plain s.store.disk session.sourceRoot)
    else s.agreed
  | .outside _ => false

def next (session : Session) (texts : String → String) (s : State) (a : Action) : State :=
  let result := answer session texts s.store a
  ⟨result.2, agreedAfter session s result a⟩

def machine (session : Session) (texts : String → String) : Machine State Action :=
  ⟨enabled session, next session texts⟩

/-! ## The listing agrees with the disk -/

structure Agrees (session : Session) (disk : Disk) (files : List ProjectFile) : Prop where
  plain : Plain disk session.sourceRoot
  proper : ∀ f ∈ files, properPath f.path = true
  content : ∀ f ∈ files, disk (session.location f.path) = some (.file (.text f.source))

variable {disk : Disk} {snapshot : Snapshot} {files : List ProjectFile}

theorem Plain.of_extends {disk' : Disk} {root : List String} (h : Plain disk root)
    (he : Extends disk disk') : Plain disk' root :=
  fun ns => (h ns).of_extends he

theorem Plain.location (h : Plain disk session.sourceRoot) (path : String) :
    Clear disk (session.location path) :=
  h (names path)

theorem Agrees.of_subset (h : Agrees session disk files) {files' : List ProjectFile}
    (hsub : ∀ f ∈ files', f ∈ files) : Agrees session disk files' :=
  ⟨h.plain, fun f hf => h.proper f (hsub f hf), fun f hf => h.content f (hsub f hf)⟩

theorem Agrees.commit (h : Agrees session disk files) {version : ℕ}
    (hcommit : session.commit version files = .ok snapshot) :
    Agrees session disk snapshot.files := by
  obtain ⟨-, hfiles, -⟩ := Session.commit_ok hcommit
  refine h.of_subset fun f hf => ?_
  rwa [hfiles, List.mem_insertionSort] at hf

theorem Agrees.of_keeps (h : Agrees session disk files) {disk' : Disk} (hext : Extends disk disk')
    (hkeep : Keeps disk disk') : Agrees session disk' files :=
  ⟨h.plain.of_extends hext, h.proper, fun f hf => hkeep _ _ (h.content f hf)⟩

/-- A file that was written, next to the others. -/
theorem Agrees.written (h : Agrees session disk files) {path source : String}
    {result : Except StoreError Unit × Disk} (honly : OnlyAt disk (session.location path) result)
    (hproper : properPath path = true)
    (hat : result.2 (session.location path) = some (.file (.text source)))
    {files' : List ProjectFile}
    (hfiles : ∀ f ∈ files', f = session.projectFile path source ∨ f ∈ files ∧ f.path ≠ path) :
    Agrees session result.2 files' := by
  refine ⟨h.plain.of_extends honly.extended, fun f hf => ?_, fun f hf => ?_⟩
  · rcases hfiles f hf with rfl | ⟨hf, -⟩
    · exact hproper
    · exact h.proper f hf
  · rcases hfiles f hf with rfl | ⟨hf, hne⟩
    · exact hat
    · exact honly.others _ _ (h.content f hf) fun heq => hne (session.location_injective heq)

theorem Agrees.update (h : Agrees session disk snapshot.files) {temporary path source : String}
    {version : ℕ} (hcheck : session.updateFiles snapshot version path source = .ok files)
    (hfresh : session.Fresh disk temporary path) {result : Except StoreError Unit × Disk}
    (hwork : session.atomicWrite .none temporary path source disk = result)
    (hok : result.1 = .ok ()) : Agrees session result.2 files := by
  obtain ⟨-, ⟨f, hf, rfl⟩, rfl⟩ := Session.updateFiles_ok hcheck
  obtain ⟨honly, hat⟩ := Session.atomicWrite_spec (h.proper f hf) (h.plain.location _) hfresh hwork
  refine h.written honly (h.proper f hf) (hat hok) fun g hg => ?_
  obtain ⟨g', hg', rfl⟩ := List.mem_map.mp hg
  split_ifs with heq
  · exact .inl rfl
  · exact .inr ⟨hg', heq⟩

theorem Agrees.createFile (h : Agrees session disk snapshot.files)
    {temporary path source : String} {version : ℕ} (hproper : properPath path = true)
    (hcheck : session.createFiles snapshot version path source = .ok files)
    (hfresh : session.Fresh disk temporary path) {result : Except StoreError Unit × Disk}
    (hwork : session.atomicWrite .none temporary path source disk = result)
    (hok : result.1 = .ok ()) : Agrees session result.2 files := by
  obtain ⟨-, hnew, rfl⟩ := Session.createFiles_ok hcheck
  obtain ⟨honly, hat⟩ := Session.atomicWrite_spec hproper (h.plain.location _) hfresh hwork
  refine h.written honly hproper (hat hok) fun g hg => ?_
  rcases List.mem_append.mp hg with hg | hg
  · exact .inr ⟨hg, hnew g hg⟩
  · exact .inl (List.mem_singleton.mp hg)

theorem Agrees.renameFile (h : Agrees session disk snapshot.files)
    {path newPath : String} {version : ℕ} (hproper : properPath newPath = true)
    (hcheck : session.renameFiles snapshot version path newPath = .ok files)
    {result : Except StoreError Unit × Disk}
    (hwork : session.renameOnDisk .none path newPath disk = result) :
    Extends disk result.2 ∧ (result.1 ≠ .ok () → Keeps disk result.2) ∧
      (result.1 = .ok () → Agrees session result.2 files) := by
  obtain ⟨-, -, hnew, current, hcurrent, rfl, rfl⟩ := Session.renameFiles_ok hcheck
  obtain ⟨hext, hundone, hdone⟩ := Session.renameOnDisk_spec (h.proper current hcurrent) hproper
    (h.plain.location _) (h.plain.location _) (hnew current hcurrent) (h.content current hcurrent)
    hwork
  refine ⟨hext, hundone, fun hok => ?_⟩
  obtain ⟨hat, hothers⟩ := hdone hok
  refine ⟨h.plain.of_extends hext, fun g hg => ?_, fun g hg => ?_⟩ <;>
    obtain ⟨g', hg', rfl⟩ := List.mem_map.mp hg
  · split_ifs with heq
    · exact hproper
    · exact h.proper g' hg'
  · split_ifs with heq
    · exact hat
    · exact hothers _ _ (h.content g' hg') (fun hl => heq (session.location_injective hl))
        fun hl => hnew g' hg' (session.location_injective hl)

theorem Agrees.deleteFile (h : Agrees session disk snapshot.files) {path : String} {version : ℕ}
    (hcheck : session.deleteFiles snapshot version path = .ok files) :
    Agrees session (session.deleteOnDisk .none path disk).2 files := by
  obtain ⟨-, -, ⟨f, hf, rfl⟩, rfl⟩ := Session.deleteFiles_ok hcheck
  have honly := Session.deleteOnDisk_spec .none (h.proper f hf) (h.plain.location _) (h.content f hf)
  refine ⟨h.plain.of_extends honly.extended, fun g hg => ?_, fun g hg => ?_⟩ <;>
    obtain ⟨hg, hne⟩ := List.mem_filter.mp hg
  · exact h.proper g hg
  · refine honly.others _ _ (h.content g hg) fun hl => ?_
    exact absurd (session.location_injective hl) (by simpa using hne)

theorem agrees_swapped {staging backup : String} {sources : List SourceFile}
    {staged away : Disk} (hproper : ∀ file ∈ sources, properPath file.path = true)
    (hnodup : (sources.map SourceFile.path).Nodup) (hclear : Clear disk session.root)
    (hnames : Session.SwapNames disk staging backup)
    (hstaged : session.staged .none staging sources disk = (true, staged))
    (haway : session.renameInRoot .none "src" backup staged = (true, away)) :
    Agrees session (move away (session.root ++ [staging]) session.sourceRoot)
      (sources.map fun file => session.projectFile file.path file.source) := by
  obtain ⟨hext, -, hdone⟩ := Session.staged_spec hproper hnodup hclear hnames.1.1 hstaged
  obtain ⟨hdirs, hfiles⟩ := hdone rfl
  obtain ⟨-, hkept, hroot, -⟩ := Session.away_spec hnames (hclear.of_extends hext) hdirs haway
  have hunder : ∀ r, (move away (session.root ++ [staging]) session.sourceRoot)
      (session.sourceRoot ++ r) = staged (session.root ++ [staging] ++ r) := fun r => by
    rw [move_get, if_pos (List.prefix_append _ r), List.drop_left]
    exact hkept staging hnames.2.2.1 hnames.2.1 r
  have hunder' : ∀ r, ((move away (session.root ++ [staging]) session.sourceRoot)
      (session.sourceRoot ++ r)).any Node.isLink = false := fun r => by
    rw [hunder, hext.isLink, hnames.1.1 _ (by simp)]
    rfl
  have habove : ∀ p, p ≠ [] → p <+: session.root →
      ((move away (session.root ++ [staging]) session.sourceRoot) p).any Node.isLink = false :=
    fun p hne hp => by
      have hshort : ∀ n : String, ¬ session.root ++ [n] <+: p := fun n hn => by
        have := (hn.trans hp).length_le
        rw [List.length_append, List.length_singleton] at this
        omega
      rw [move_get, Session.sourceRoot, if_neg (hshort "src"), if_neg (hshort staging), hroot p hp,
        hext.isLink]
      exact hclear p hne hp
  refine ⟨plain_iff.mpr ?_, fun f hf => ?_, fun f hf => ?_⟩
  · rintro p ⟨hne, hp | ⟨r, rfl⟩⟩
    · rcases List.prefix_concat_iff.mp hp with rfl | hp
      · have hsrc := hunder' []
        rw [List.append_nil] at hsrc
        exact hsrc
      · exact habove p hne hp
    · exact hunder' r
  · obtain ⟨file, hfile, rfl⟩ := List.mem_map.mp hf
    exact hproper file hfile
  · obtain ⟨file, hfile, rfl⟩ := List.mem_map.mp hf
    exact (hunder _).trans (hfiles file hfile)

/-- Whatever the tree was, a replaced one is as the new listing says. -/
theorem agrees_replaced {staging backup : String} {sources : List SourceFile} {version : ℕ}
    (hcheck : session.replacedFiles snapshot version sources = .ok files)
    (hclear : Clear disk session.root) (hnames : Session.SwapNames disk staging backup)
    (hok : (session.replaceOnDisk .none staging backup sources disk).1 = .ok ()) :
    Agrees session (session.replaceOnDisk .none staging backup sources disk).2 files := by
  obtain ⟨-, hvalid, -, rfl⟩ := Session.replacedFiles_ok hcheck
  obtain ⟨hpaths, hnodup, -⟩ := Session.validateSourceFiles_ok hvalid
  have hproper : ∀ file ∈ sources, properPath file.path = true := fun file hfile =>
    projectPathOk_proper (hpaths file hfile)
  rcases Session.replaceOnDisk_cases .none hproper hnodup hclear hnames with
    ⟨disk', hr, -⟩ | ⟨staged, away, hstaged, haway, ⟨-, hr⟩ | ⟨-, hr⟩⟩
  · rw [hr] at hok
    cases hok
  · rw [hr]
    exact agrees_swapped hproper hnodup hclear hnames hstaged haway
  · rw [hr] at hok
    cases hok

theorem Agrees.not_replaced (h : Agrees session disk snapshot.files) {staging backup : String}
    {sources : List SourceFile} {version : ℕ}
    (hcheck : session.replacedFiles snapshot version sources = .ok files)
    (hnames : Session.SwapNames disk staging backup)
    (hfail : (session.replaceOnDisk .none staging backup sources disk).1 ≠ .ok ()) :
    Agrees session (session.replaceOnDisk .none staging backup sources disk).2 snapshot.files := by
  obtain ⟨-, hvalid, -, rfl⟩ := Session.replacedFiles_ok hcheck
  obtain ⟨hpaths, hnodup, -⟩ := Session.validateSourceFiles_ok hvalid
  have hproper : ∀ file ∈ sources, properPath file.path = true := fun file hfile =>
    projectPathOk_proper (hpaths file hfile)
  have hclear : Clear disk session.root := (h.plain []).mono (by simp [Session.sourceRoot])
  rcases Session.replaceOnDisk_cases .none hproper hnodup hclear hnames with
    ⟨disk', hr, hext, hout, -⟩ | ⟨staged, away, -, -, ⟨-, hr⟩ | ⟨hfault, -⟩⟩
  · rw [hr]
    refine ⟨h.plain.of_extends hext, h.proper, fun f hf => ?_⟩
    have hnot : ¬ session.root ++ [staging] <+: session.location f.path := by
      rw [Session.location, Session.sourceRoot, Session.prefix_append_singleton_iff]
      exact hnames.2.2.1
    have hfile := h.content f hf
    rcases hout _ hnot with hsame | ⟨hnone, -⟩
    · rw [hsame, hfile]
    · rw [hfile] at hnone
      cases hnone
  · exact absurd (by rw [hr]) hfail
  · cases hfault

/-- What was just read from a tree agrees with it. -/
theorem agrees_read {order : List (List String)} (hplain : Plain disk session.sourceRoot)
    (horder : order.Nodup) (hnames : ∀ p ∈ order, ∀ n ∈ p, plainName n = true) :
    Agrees session disk ((readSources order disk session.sourceRoot).map fun (path, source) =>
      session.projectFile path source) := by
  refine ⟨hplain, fun f hf => ?_, fun f hf => ?_⟩ <;>
    obtain ⟨⟨path, source⟩, hmem, rfl⟩ := List.mem_map.mp hf
  · exact (mem_readSources horder hnames hmem).1
  · exact (mem_readSources horder hnames hmem).2

/-! ## The invariant -/

structure Inv (session : Session) (s : State) : Prop where
  listing : session.Listing s.store.snapshot
  agrees : s.agreed = true → Agrees session s.store.disk s.store.snapshot.files

/-- A call that fails on the disk leaves every listed file. -/
theorem Agrees.call_failed (h : Agrees session disk snapshot.files) {c : Call}
    (hc : c.checked session texts snapshot = .ok files) (hfresh : c.Fresh session disk)
    (hproper : c.proper = true) (hfail : (c.work session .none texts disk).1 ≠ .ok ()) :
    Agrees session (c.work session .none texts disk).2 snapshot.files := by
  cases c with
  | update temporary version path source =>
    obtain ⟨-, ⟨f, hf, rfl⟩, -⟩ := Session.updateFiles_ok hc
    obtain ⟨honly, -⟩ := Session.atomicWrite_spec (h.proper f hf) (h.plain.location _) hfresh
      (rfl : session.atomicWrite .none temporary f.path source disk = _)
    exact h.of_keeps honly.extended (honly.undone hfail)
  | createFile temporary version path source =>
    obtain ⟨honly, -⟩ := Session.atomicWrite_spec hproper (h.plain.location _) hfresh rfl
    exact h.of_keeps honly.extended (honly.undone hfail)
  | renameFile version path newPath =>
    obtain ⟨hext, hundone, -⟩ := h.renameFile hproper hc rfl
    exact h.of_keeps hext (hundone hfail)
  | deleteFile version path => exact absurd rfl hfail
  | resetFiles staging backup version scaffold =>
    exact h.not_replaced (Session.resetFilesList_ok hc).2 hfresh hfail
  | replaceFiles staging backup version sources => exact h.not_replaced hc hfresh hfail

/-- The files a call commits are those on the disk it leaves. -/
theorem Agrees.call_done {c : Call} (hc : c.checked session texts snapshot = .ok files)
    (hfresh : c.Fresh session disk) (hok : (c.work session .none texts disk).1 = .ok ())
    (h : c.replaces = true ∧ Clear disk session.root ∨
      c.replaces = false ∧ c.proper = true ∧ Agrees session disk snapshot.files) :
    Agrees session (c.work session .none texts disk).2 files := by
  cases c with
  | update temporary version path source =>
    obtain ⟨h, -⟩ | ⟨-, -, h⟩ := h
    · cases h
    · exact h.update hc hfresh rfl hok
  | createFile temporary version path source =>
    obtain ⟨h, -⟩ | ⟨-, hproper, h⟩ := h
    · cases h
    · exact h.createFile hproper hc hfresh rfl hok
  | renameFile version path newPath =>
    obtain ⟨h, -⟩ | ⟨-, hproper, h⟩ := h
    · cases h
    · exact (h.renameFile hproper hc rfl).2.2 hok
  | deleteFile version path =>
    obtain ⟨h, -⟩ | ⟨-, -, h⟩ := h
    · cases h
    · exact h.deleteFile hc
  | resetFiles staging backup version scaffold =>
    obtain ⟨-, hclear⟩ | ⟨h, -⟩ := h
    · exact agrees_replaced (Session.resetFilesList_ok hc).2 hclear hfresh hok
    · cases h
  | replaceFiles staging backup version sources =>
    obtain ⟨-, hclear⟩ | ⟨h, -⟩ := h
    · exact agrees_replaced hc hclear hfresh hok
    · cases h

theorem refreshFiles_cases {s : Store} {order : List (List String)} (horder : order.Nodup)
    (hnames : ∀ p ∈ order, ∀ n ∈ p, plainName n = true) :
    (session.workspaceId.isSome = false ∧ s.refreshFiles session order = (.ok s.snapshot, s)) ∨
      (∃ message, s.refreshFiles session order = (.error (.refused message), s)) ∨
      ∃ snapshot, session.workspaceId.isSome = true ∧
        s.refreshFiles session order = (.ok snapshot, { s with snapshot := snapshot }) ∧
        snapshot.version = s.snapshot.version ∧ session.Listing snapshot ∧
        (Plain s.disk session.sourceRoot → Agrees session s.disk snapshot.files) := by
  simp only [Store.refreshFiles]
  split_ifs with hid
  · exact .inl ⟨by simpa using hid, rfl⟩
  · cases hcommit : session.commit s.snapshot.version
      ((readSources order s.disk session.sourceRoot).map fun (path, source) =>
        session.projectFile path source) with
    | error message => exact .inr (.inl ⟨message, rfl⟩)
    | ok snapshot =>
      refine .inr (.inr ⟨snapshot, Option.isSome_iff_ne_none.mpr (by simpa using hid), rfl,
        (Session.commit_ok hcommit).1, ?_,
        fun hplain => (agrees_read hplain horder hnames).commit hcommit⟩)
      refine Session.listing_of_commit ?_ (fun f hf => ?_) hcommit
      · simpa [Function.comp_def, Session.projectFile] using readSources_nodup horder hnames
      · obtain ⟨⟨path, source⟩, -, rfl⟩ := List.mem_map.mp hf
        rfl

theorem Inv.call {s : State} (h : Inv session s) {c : Call}
    (hfresh : c.Fresh session s.store.disk) : Inv session (next session texts s (.call c)) := by
  have hl : ∀ files, c.checked session texts s.store.snapshot = .ok files → session.Listed files :=
    fun files hc => Call.listed h.listing.listed hc
  simp only [next, answer, agreedAfter, Call.answer_eq]
  rcases Session.run_cases hl with ⟨message, -, hr⟩ | ⟨files, hc, ⟨error, hw, hr⟩ | ⟨snapshot, hw, hcommit, hr⟩⟩
  · rw [hr]
    refine ⟨h.listing, fun hagreed => ?_⟩
    have hsplit : s.agreed = true ∧ c.proper = true := by simpa [Except.isOk, Except.toBool] using hagreed
    exact h.agrees hsplit.1
  · rw [hr]
    refine ⟨h.listing, fun hagreed => ?_⟩
    have hsplit : s.agreed = true ∧ c.proper = true := by simpa [Except.isOk, Except.toBool] using hagreed
    exact (h.agrees hsplit.1).call_failed hc hfresh hsplit.2 (by rw [hw]; simp)
  · rw [hr]
    refine ⟨(hl files hc).listing hcommit, fun hagreed => ?_⟩
    refine (Agrees.call_done hc hfresh hw ?_).commit hcommit
    cases hrep : c.replaces with
    | true => exact .inl ⟨rfl, by simpa [hrep, Except.isOk, Except.toBool] using hagreed⟩
    | false =>
      have hsplit : s.agreed = true ∧ c.proper = true := by simpa [hrep] using hagreed
      exact .inr ⟨rfl, hsplit.2, h.agrees hsplit.1⟩

theorem inv_step (s : State) (a : Action) (h : Inv session s)
    (ha : (machine session texts).enabled s a) : Inv session ((machine session texts).next s a) := by
  cases a with
  | call c => exact h.call ha
  | refresh order =>
    have hanswer : answer session texts s.store (.refresh order) =
        s.store.refreshFiles session order := rfl
    simp only [machine, next, agreedAfter]
    rcases refreshFiles_cases ha.1 ha.2 with
      ⟨hid, hr⟩ | ⟨message, hr⟩ | ⟨snapshot, hid, hr, -, hlisting, hagrees⟩
    · rw [hanswer, hr]
      exact ⟨h.listing, fun hagreed => h.agrees (by simpa [hid] using hagreed)⟩
    · rw [hanswer, hr]
      exact ⟨h.listing, fun hagreed =>
        h.agrees (by simpa [Except.isOk, Except.toBool] using hagreed)⟩
    · rw [hanswer, hr]
      exact ⟨hlisting, fun hagreed =>
        hagrees (by simpa [hid, Except.isOk, Except.toBool] using hagreed)⟩
  | outside disk => exact ⟨h.listing, fun hagreed => by cases hagreed⟩

/-! ## Every run -/

/-- The session as it opens, on a disk that may or may not hold its sources. -/
def start (session : Session) (texts : String → String) (sources : List (String × String))
    (disk : Disk) : State :=
  ⟨⟨session.opening texts sources, disk⟩, decide (Plain disk session.sourceRoot ∧
    ∀ f ∈ sources, properPath f.1 = true ∧ disk (session.location f.1) = some (.file (.text f.2)))⟩

theorem inv_start {sources : List (String × String)} (hnodup : (sources.map Prod.fst).Nodup)
    (hentry : session.entryPath ∈ sources.map Prod.fst) (disk : Disk) :
    Inv session (start session texts sources disk) := by
  refine ⟨Session.opening_listing hnodup hentry, fun hagreed => ?_⟩
  obtain ⟨hplain, hsources⟩ := of_decide_eq_true hagreed
  refine ⟨hplain, fun f hf => ?_, fun f hf => ?_⟩ <;>
    obtain ⟨⟨path, source⟩, hmem, rfl⟩ := List.mem_map.mp ((List.mem_insertionSort _).mp hf)
  · exact (hsources _ hmem).1
  · exact (hsources _ hmem).2

/-- What a step does to the version, what a refusal leaves, and that a call whose
checks pass has a list that commits, whatever happens on the disk in between. -/
structure Orderly (session : Session) (texts : String → String) (s : Store) (a : Action) :
    Prop where
  grows : s.snapshot.version ≤ (answer session texts s a).2.snapshot.version
  advances : ∀ c, a = .call c → c.advances = true → (answer session texts s a).1.isOk = true →
    s.snapshot.version < (answer session texts s a).2.snapshot.version
  refused : (answer session texts s a).1.isOk = false →
    (answer session texts s a).2.snapshot = s.snapshot
  refreshed : ∀ order, a = .refresh order →
    (answer session texts s a).2.snapshot.version = s.snapshot.version
  commits : ∀ c, a = .call c → ∀ files, c.checked session texts s.snapshot = .ok files →
    ∃ snapshot, session.commit c.version files = .ok snapshot

/-- A step that leaves the version alone is no accepted call. -/
theorem orderly_of_version {s : Store} {a : Action}
    (hversion : (answer session texts s a).2.snapshot.version = s.snapshot.version)
    (hcall : ∀ c, a = .call c → (answer session texts s a).1.isOk = false)
    (hrefused : (answer session texts s a).1.isOk = false →
      (answer session texts s a).2.snapshot = s.snapshot)
    (hcommits : ∀ c, a = .call c → ∀ files, c.checked session texts s.snapshot = .ok files →
      ∃ snapshot, session.commit c.version files = .ok snapshot) : Orderly session texts s a where
  grows := hversion.ge
  advances c ha _ hok := by
    rw [hcall c ha] at hok
    cases hok
  refused := hrefused
  refreshed _ _ := hversion
  commits := hcommits

theorem orderly_call {s : Store} (h : session.Listing s.snapshot) (c : Call) :
    Orderly session texts s (.call c) := by
  have hl : ∀ files, c.checked session texts s.snapshot = .ok files → session.Listed files :=
    fun files hc => Call.listed h.listed hc
  have hcommits : ∀ c', Action.call c = .call c' → ∀ files,
      c'.checked session texts s.snapshot = .ok files →
      ∃ snapshot, session.commit c'.version files = .ok snapshot := by
    rintro c' ⟨⟩ files hc
    exact (hl files hc).commit_isOk c.version
  have hanswer : answer session texts s (.call c) =
      s.run session c.version (c.checked session texts s.snapshot) (c.work session .none texts) :=
    c.answer_eq s
  rcases Session.run_cases hl with
    ⟨message, -, hr⟩ | ⟨files, hc, ⟨error, hw, hr⟩ | ⟨snapshot, hw, hcommit, hr⟩⟩
  · rw [← hanswer] at hr
    apply orderly_of_version _ _ _ hcommits <;> simp [hr, Except.isOk, Except.toBool]
  · rw [← hanswer] at hr
    apply orderly_of_version _ _ _ hcommits <;> simp [hr, Except.isOk, Except.toBool]
  · rw [← hanswer] at hr
    have hversion : snapshot.version = c.version := (Session.commit_ok hcommit).1
    constructor
    · rw [hr, hversion]
      exact (Call.version_le hc).1
    · rintro c' ⟨⟩ hadv -
      rw [hr, hversion]
      exact (Call.version_le hc).2 hadv
    · intro hok
      rw [hr] at hok
      cases hok
    · intro order ha
      cases ha
    · exact hcommits

theorem orderly {s : Store} (h : session.Listing s.snapshot) {a : Action} {agreed : Bool}
    (ha : enabled session ⟨s, agreed⟩ a) : Orderly session texts s a := by
  cases a with
  | call c => exact orderly_call h c
  | refresh order =>
    have hanswer : answer session texts s (.refresh order) = s.refreshFiles session order := rfl
    rcases refreshFiles_cases ha.1 ha.2 with
      ⟨-, hr⟩ | ⟨message, hr⟩ | ⟨snapshot, -, hr, hversion, -⟩ <;> rw [← hanswer] at hr
    · apply orderly_of_version <;> simp [hr]
    · apply orderly_of_version <;> simp [hr]
    · apply orderly_of_version <;> simp [hr, hversion, Except.isOk, Except.toBool]
  | outside disk => apply orderly_of_version <;> simp [answer]

theorem store_invariant {sources : List (String × String)}
    (hnodup : (sources.map Prod.fst).Nodup) (hentry : session.entryPath ∈ sources.map Prod.fst)
    {disk : Disk} {s : State}
    (h : (machine session texts).Reaches (start session texts sources disk) s) :
    session.Listing s.store.snapshot ∧
      (s.agreed = true → ∀ f ∈ s.store.snapshot.files,
        s.store.disk (session.location f.path) = some (.file (.text f.source))) ∧
      ∀ a, enabled session s a → Orderly session texts s.store a := by
  have hinv := h.invariant inv_step (inv_start hnodup hentry disk)
  exact ⟨hinv.listing, fun hagreed => (hinv.agrees hagreed).content,
    fun a ha => orderly hinv.listing ha⟩

instance (s : State) (a : Action) : Decidable (enabled session s a) := by
  cases a with
  | call c => cases c <;> simp only [enabled, Call.Fresh] <;> infer_instance
  | refresh order => simp only [enabled]; infer_instance
  | outside disk => simp only [enabled]; infer_instance

instance : DecidableRel (machine session texts).enabled :=
  fun s a => inferInstanceAs (Decidable (enabled session s a))

/-! ## Concrete runs -/

def zigDisk (entries : List (List String × Option (Node String Content))) : Disk :=
  ⟨entries ++ [(["w", "src", "main.zig"], some (.file (.text "pub fn main"))),
    (["w", "src"], some .dir), (["w"], some .dir)]⟩

def zigStart (entries : List (List String × Option (Node String Content))) : State :=
  start zigSession id [("main.zig", "pub fn main")] (zigDisk entries)

/-- What opening a listed file would read is not what the listing says. -/
def stale (s : State) : Bool :=
  s.store.snapshot.files.any fun f =>
    (locate s.store.disk (zigSession.destination f.path)).bind s.store.disk ≠
      some (.file (.text f.source))

def editRun : List Action :=
  [.call (.createFile ".t1" 2 "lib/a.zig" "const a"), .call (.update ".t2" 5 "main.zig" "import a"),
    .call (.renameFile 6 "lib/a.zig" "b.zig"), .call (.deleteFile 6 "b.zig"),
    .refresh [["w", "src", "b.zig"], ["w", "src", "lib"], ["w", "src", "main.zig"]]]

theorem store_invariant_edits :
    ∃ s, (machine zigSession id).Reaches (zigStart []) s ∧
      (s.agreed = true ∧ s.store.snapshot.version = 6 ∧ s.store.snapshot.files.length = 2) ∧
      zigSession.Listing s.store.snapshot ∧
      (∀ f ∈ s.store.snapshot.files,
        s.store.disk (zigSession.location f.path) = some (.file (.text f.source))) ∧
      ∀ a, enabled zigSession s a → Orderly zigSession id s.store a := by
  obtain ⟨s, hs, hp⟩ := Machine.exists_reaches_of_exec
    (M := machine zigSession id) (s := zigStart []) (l := editRun)
    (p := fun s => s.agreed = true ∧ s.store.snapshot.version = 6 ∧
      s.store.snapshot.files.length = 2) (by decide +kernel)
  rw [decide_eq_true_eq] at hp
  obtain ⟨hlisting, hdisk, horderly⟩ := store_invariant (by decide) (by decide) hs
  exact ⟨s, hs, hp, hlisting, hdisk hp.1, horderly⟩

/-- A path that is not proper, a link to a directory and another writer each
part the listing from the disk. -/
theorem listing_goes_stale :
    ((machine zigSession id).exec (zigStart [])
      [.call (.createFile ".t" 2 "./main.zig" "other")]).any stale = true ∧
    ((machine zigSession id).exec
      (zigStart [(["w", "src", "d"], some (.link false [.name "e"]))])
      [.call (.createFile ".t1" 2 "e/x.zig" "one"),
        .call (.createFile ".t2" 3 "d/x.zig" "two")]).any stale = true ∧
    ((machine zigSession id).exec (zigStart [])
      [.outside (zigDisk [(["w", "src", "main.zig"], some (.file (.text "theirs")))])]).any stale =
        true := by
  decide +kernel

end StoreInvariant
end Atomis
