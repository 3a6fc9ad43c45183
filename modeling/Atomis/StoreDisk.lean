import Atomis.ReadSources

/-!
# What the store does to the disk

The disk operations of a session by their possible ends. The names drawn at
random are assumed to be new to the disk and to the paths they serve.
-/

namespace Atomis
open Atomis.Tree

/-- Nothing on the disk bears this name. -/
def Unused (disk : Disk) (name : String) : Prop := ∀ p, name ∈ p → disk p = none

instance (disk : Disk) (name : String) : Decidable (Unused disk name) :=
  decidable_of_iff _ (disk.forall_get_iff (p := fun k v => name ∈ k → v = none) fun _ _ => rfl).symm

theorem clear_iff {disk : Disk} {names : List String} :
    Clear disk names ↔ ∀ p, p ≠ [] ∧ p <+: names → (disk p).any Node.isLink = false := by
  simp [Clear]

instance (disk : Disk) (names : List String) : Decidable (Clear disk names) :=
  decidable_of_iff _ ((disk.forall_get_iff
    (p := fun k v => k ≠ [] ∧ k <+: names → v.any Node.isLink = false) fun _ _ => rfl).symm.trans
    clear_iff.symm)

/-- What stood on the disk still does. -/
def Keeps (disk disk' : Disk) : Prop := ∀ q node, disk q = some node → disk' q = some node

/-- What stands at `p` alone may go, and only when the operation succeeds. -/
structure OnlyAt (disk : Disk) (p : List String) (result : Except StoreError Unit × Disk) :
    Prop where
  extended : Extends disk result.2
  others : ∀ q node, disk q = some node → q ≠ p → result.2 q = some node
  undone : result.1 ≠ .ok () → Keeps disk result.2

theorem OnlyAt.of_keeps {disk : Disk} {p : List String} {result : Except StoreError Unit × Disk}
    (hext : Extends disk result.2) (hkeep : Keeps disk result.2) : OnlyAt disk p result :=
  ⟨hext, fun q node hq _ => hkeep q node hq, fun _ => hkeep⟩

namespace Session
variable {session : Session} {faults : Faults} {disk : Disk}

def location (session : Session) (path : String) : List String := session.sourceRoot ++ names path

theorem destination_of_proper {path : String} (h : properPath path = true) :
    session.destination path = (session.location path).map .name := by
  rw [destination, if_neg (head_of_proper h), components_of_proper h, location, List.map_append]

theorem location_ne_nil (session : Session) (path : String) : session.location path ≠ [] := by
  simp [location, sourceRoot]

theorem location_eq (session : Session) (path : String) :
    ∃ d n, session.location path = d ++ [n] := by
  obtain ⟨d, n, h⟩ := (List.eq_nil_or_concat _).resolve_left (session.location_ne_nil path)
  exact ⟨d, n, by rw [h, List.concat_eq_append]⟩

theorem place_location {path : String} {p : List String} (hproper : properPath path = true)
    (hclear : Clear disk (session.location path))
    (h : place disk (session.destination path) = some p) : p = session.location path := by
  obtain ⟨d, n, hloc⟩ := session.location_eq path
  rw [destination_of_proper hproper, hloc] at h
  rw [hloc] at hclear ⊢
  exact (place_names (hclear.mono (by simp)) h).1

theorem location_injective (session : Session) : Function.Injective session.location := by
  intro a b hab
  exact names_injective (List.append_cancel_left hab)

theorem inRoot_eq (session : Session) (name : String) :
    session.inRoot name = (session.root ++ [name]).map .name := by
  simp [inRoot]

/-! ## Writing one file -/

/-- The path of the temporary file that `atomicWrite` renames over `path`. -/
def temporaryPath (session : Session) (temporary path : String) : List (Component String) :=
  (session.destination path).dropLast ++ [.name temporary]

/-- The disk once the parents of `path` are made, and whether they could be. -/
def withParents (session : Session) (faults : Faults) (path : String) (disk : Disk) : Bool × Disk :=
  disk.mkdirs faults.createDir [] (session.destination path).dropLast

/-- The rename that ends `atomicWrite`, from the disk with the temporary file on it. -/
def lastRename (session : Session) (faults : Faults) (temporary path : String) (disk : Disk) :
    Bool × Disk :=
  disk.rename (faults.rename (session.temporaryPath temporary path) (session.destination path))
    (session.temporaryPath temporary path) (session.destination path)

def Fresh (session : Session) (disk : Disk) (temporary path : String) : Prop :=
  Unused disk temporary ∧ Component.name temporary ∉ session.destination path

instance (temporary path : String) : Decidable (session.Fresh disk temporary path) :=
  inferInstanceAs (Decidable (_ ∧ _))

theorem Fresh.withParents {temporary path : String} (h : session.Fresh disk temporary path)
    (faults : Faults) (q : List String) : (session.withParents faults path disk).2 (q ++ [temporary]) = none :=
  mkdirs_unused (fun hmem => h.2 (List.mem_of_mem_dropLast hmem)) (fun q => h.1 _ (by simp)) q

/-- The disk with the temporary file in `d`. -/
def withTemporary (session : Session) (faults : Faults) (temporary path : String) (disk : Disk)
    (d : List String) (content : Content) : Disk :=
  (session.withParents faults path disk).2.set (d ++ [temporary]) (some (.file content))

theorem atomicWrite_eq (temporary path source : String) :
    session.atomicWrite faults temporary path source disk =
      let made := session.withParents faults path disk
      let written := made.2.write (faults.write (session.temporaryPath temporary path))
        (session.temporaryPath temporary path) (.text source)
      let renamed := session.lastRename faults temporary path written.2
      if made.1 = false then (.error .io, made.2)
      else if written.1 = false then (.error .io, written.2)
      else (if renamed.1 then .ok () else .error .io, renamed.2) := by
  simp only [atomicWrite, withParents, temporaryPath, lastRename]
  split
  next hmade => simp [hmade]
  next parents hmade =>
    simp only [hmade, Bool.true_eq_false, ↓reduceIte]
    split
    next hwritten => simp [hwritten]
    next written hwritten =>
      simp only [hwritten, Bool.true_eq_false, ↓reduceIte]
      split
      next hrenamed => simp [hrenamed]
      next hrenamed => simp [hrenamed]

/-- How a write ends: before, while or after the temporary file is written. -/
inductive WriteEnd (session : Session) (faults : Faults) (temporary path source : String)
    (disk : Disk) (result : Except StoreError Unit × Disk) : Prop
  | unwritten (h : result = (.error .io, (session.withParents faults path disk).2))
  | partly (d : List String) (part : Content)
      (made : (session.withParents faults path disk).1 = true)
      (found : locate (session.withParents faults path disk).2
        (session.temporaryPath temporary path) = some (d ++ [temporary]))
      (fault : faults.write (session.temporaryPath temporary path) = some (some part))
      (h : result = (.error .io, session.withTemporary faults temporary path disk d part))
  | wholly (d : List String) (renamed : Bool × Disk)
      (made : (session.withParents faults path disk).1 = true)
      (found : locate (session.withParents faults path disk).2
        (session.temporaryPath temporary path) = some (d ++ [temporary]))
      (fault : faults.write (session.temporaryPath temporary path) = none)
      (hrenamed : session.lastRename faults temporary path
        (session.withTemporary faults temporary path disk d (.text source)) = renamed)
      (h : result = (if renamed.1 then .ok () else .error .io, renamed.2))

theorem writeEnd_atomicWrite (faults : Faults) {temporary path : String} (source : String)
    (hfresh : session.Fresh disk temporary path) :
    WriteEnd session faults temporary path source disk
      (session.atomicWrite faults temporary path source disk) := by
  rw [atomicWrite_eq]
  by_cases hmade : (session.withParents faults path disk).1 = false
  · exact .unwritten (if_pos hmade)
  rw [Bool.not_eq_false] at hmade
  simp only [hmade, Bool.true_eq_false, ↓reduceIte]
  rcases write_cases (faults.write (session.temporaryPath temporary path))
    (session.withParents faults path disk).2 (session.temporaryPath temporary path)
    (.text source) with hw | ⟨p, hp, -, hw⟩
  · rw [hw]
    exact .unwritten rfl
  · obtain ⟨d, -, rfl⟩ := resolve_append_name (hfresh.withParents faults) hp
    rcases hw with ⟨hfault, hw⟩ | ⟨part, hfault, hw⟩
    · rw [hw]
      exact .wholly d _ hmade hp hfault rfl rfl
    · rw [hw]
      exact .partly d part hmade hp hfault rfl

theorem withParents_extends (faults : Faults) (path : String) :
    Extends disk (session.withParents faults path disk).2 :=
  mkdirs_extends _ _ _ _

theorem withParents_keeps (faults : Faults) (path : String) :
    Keeps disk (session.withParents faults path disk).2 :=
  fun _ _ hq => mkdirs_eq_of_some _ _ _ _ hq

theorem Fresh.withTemporary {temporary path : String} (h : session.Fresh disk temporary path)
    (faults : Faults) (d : List String) (content : Content) :
    Extends disk (session.withTemporary faults temporary path disk d content) ∧
      Keeps disk (session.withTemporary faults temporary path disk d content) := by
  have hnone : (session.withParents faults path disk).2 (d ++ [temporary]) = none :=
    h.withParents faults d
  refine ⟨(withParents_extends faults path).trans (Vacant.extends (.inl hnone) content), ?_⟩
  intro q node hq
  rw [Session.withTemporary, Table.set_get, if_neg]
  · exact withParents_keeps faults path q node hq
  · rintro rfl
    rw [h.1 _ (by simp)] at hq
    cases hq

theorem temporaryPath_of_proper {temporary path : String} (h : properPath path = true) :
    session.temporaryPath temporary path =
      ((session.location path).dropLast ++ [temporary]).map .name := by
  simp [temporaryPath, destination_of_proper h, List.map_dropLast]

/-- Through no link, a write changes nothing but what stands at its path. -/
theorem atomicWrite_spec {temporary path source : String} (hproper : properPath path = true)
    (hclear : Clear disk (session.location path)) (hfresh : session.Fresh disk temporary path)
    {result : Except StoreError Unit × Disk}
    (h : session.atomicWrite faults temporary path source disk = result) :
    OnlyAt disk (session.location path) result ∧
      (result.1 = .ok () → result.2 (session.location path) = some (.file (.text source))) := by
  have hend := writeEnd_atomicWrite faults source hfresh
  rw [h] at hend
  cases hend with
  | unwritten h =>
    subst h
    exact ⟨.of_keeps (withParents_extends _ _) (withParents_keeps _ _), fun hok => by cases hok⟩
  | partly d part made found fault h =>
    subst h
    obtain ⟨hext, hkeep⟩ := hfresh.withTemporary faults d part
    exact ⟨.of_keeps hext hkeep, fun hok => by cases hok⟩
  | wholly d renamed made found fault hrenamed h =>
    subst h
    obtain ⟨hext, hkeep⟩ := hfresh.withTemporary faults d (.text source)
    obtain ⟨parent, n, hloc⟩ := session.location_eq path
    have hparent : Clear disk parent := hclear.mono (by simp [hloc])
    have htemp : session.temporaryPath temporary path = (parent ++ [temporary]).map .name := by
      simp [temporaryPath_of_proper hproper, hloc]
    have hdest : session.destination path = (parent ++ [n]).map .name := by
      rw [destination_of_proper hproper, hloc]
    have hn : temporary ≠ n := by
      rintro rfl
      exact hfresh.2 (by simp [hdest])
    -- the temporary file was written beside the destination
    obtain rfl : d = parent := by
      have hclear' := (hparent.of_extends (withParents_extends faults path)).append
        (hfresh.withParents faults parent)
      have := locate_names hclear' (by rw [← htemp]; exact found)
      exact List.append_inj_left' this rfl
    have hfile : session.withTemporary faults temporary path disk d (.text source)
        (d ++ [temporary]) = some (.file (.text source)) := by
      simp [withTemporary]
    have hgone : ∀ q node, disk q = some node → q ≠ d ++ [temporary] := by
      rintro q node hq rfl
      rw [hfresh.1 _ (by simp)] at hq
      cases hq
    rw [lastRename, htemp, hdest] at hrenamed
    rcases rename_beside (hparent.of_extends hext) hfile hn with hfail | ⟨htarget, hmoved⟩
    · rw [hfail] at hrenamed
      subst hrenamed
      exact ⟨.of_keeps hext hkeep, fun hok => by cases hok⟩
    · rw [hmoved] at hrenamed
      subst hrenamed
      rw [hloc]
      refine ⟨⟨?_, fun q node hq hqn => ?_, fun hok => absurd rfl hok⟩, fun _ => by simp⟩
      · have hnone : disk (d ++ [temporary]) = none := hfresh.1 _ (by simp)
        have hlink := hclear _ (session.location_ne_nil path) List.prefix_rfl
        rw [hloc] at hlink
        refine (hext.set (by simp [hnone]) (by simp [hnone]) rfl).set (fun hdir => ?_) hlink rfl
        exact htarget (hext.dir _ hdir)
      · simpa [hqn, hgone q node hq] using hkeep q node hq

/-! ## Moving and deleting one file -/

theorem renameOnDisk_eq (path newPath : String) :
    session.renameOnDisk faults path newPath disk =
      let made := session.withParents faults newPath disk
      let renamed := made.2.rename
        (faults.rename (session.destination path) (session.destination newPath))
        (session.destination path) (session.destination newPath)
      if made.1 = false then (.error .io, made.2)
      else (if renamed.1 then .ok () else .error .io, renamed.2) := by
  simp only [renameOnDisk, withParents]
  split
  next hmade => simp [hmade]
  next parents hmade =>
    simp only [hmade, Bool.true_eq_false, ↓reduceIte]
    split
    next hrenamed => simp [hrenamed]
    next hrenamed => simp [hrenamed]

theorem renameOnDisk_spec {path newPath : String} {content : Content}
    (hproper : properPath path = true) (hproper' : properPath newPath = true)
    (hclear : Clear disk (session.location path)) (hclear' : Clear disk (session.location newPath))
    (hne : path ≠ newPath) (hfile : disk (session.location path) = some (.file content))
    {result : Except StoreError Unit × Disk}
    (h : session.renameOnDisk faults path newPath disk = result) :
    Extends disk result.2 ∧ (result.1 ≠ .ok () → Keeps disk result.2) ∧
      (result.1 = .ok () → result.2 (session.location newPath) = some (.file content) ∧
        ∀ q node, disk q = some node → q ≠ session.location path →
          q ≠ session.location newPath → result.2 q = some node) := by
  have hext : Extends disk (session.withParents faults newPath disk).2 :=
    withParents_extends faults newPath
  have hkeep : Keeps disk (session.withParents faults newPath disk).2 :=
    withParents_keeps faults newPath
  rw [renameOnDisk_eq] at h
  by_cases hmade : (session.withParents faults newPath disk).1 = false
  · rw [if_pos hmade] at h
    subst h
    exact ⟨hext, fun _ => hkeep, fun hok => by cases hok⟩
  simp only [if_neg hmade] at h
  rcases rename_cases (faults.rename (session.destination path) (session.destination newPath))
    (session.withParents faults newPath disk).2 (session.destination path)
    (session.destination newPath) with hfail | ⟨a, b, node, ha, hb, hnode, hcases⟩
  · rw [hfail] at h
    subst h
    exact ⟨hext, fun _ => hkeep, fun hok => by cases hok⟩
  · obtain rfl := place_location hproper (hclear.of_extends hext) ha
    obtain rfl := place_location hproper' (hclear'.of_extends hext) hb
    obtain rfl : .file content = node := Option.some.inj ((hkeep _ _ hfile).symm.trans hnode)
    rcases hcases with ⟨heq, -⟩ | ⟨hdir, -⟩ | ⟨-, -, htarget, hr⟩
    · exact absurd (session.location_injective heq) hne
    · cases hdir
    · rw [hr] at h
      subst h
      have hlink := hclear' _ (session.location_ne_nil newPath) List.prefix_rfl
      refine ⟨(hext.set (by simp [hfile]) (by simp [hfile, Node.isLink]) rfl).set
        (fun hdir => htarget (hext.dir _ hdir)) hlink rfl, fun hok => absurd rfl hok, fun _ => ?_⟩
      refine ⟨by simp, fun q node hq hqp hqn => ?_⟩
      simpa [hqp, hqn] using hkeep q node hq

theorem deleteOnDisk_spec (faults : Faults) {path : String} {content : Content} (hproper : properPath path = true)
    (hclear : Clear disk (session.location path))
    (hfile : disk (session.location path) = some (.file content)) :
    OnlyAt disk (session.location path) (session.deleteOnDisk faults path disk) := by
  simp only [deleteOnDisk]
  rcases remove_cases (faults.remove (session.destination path)) disk (session.destination path)
    with hfail | ⟨p, node, hp, hnode, hdir, hr⟩
  · rw [hfail]
    exact .of_keeps (.refl disk) fun q node hq => hq
  · rw [hr]
    obtain rfl := place_location hproper hclear hp
    refine ⟨(Extends.refl disk).set (by simp [hfile]) (by simp [hfile, Node.isLink]) rfl,
      fun q node hq hqp => ?_, fun hok => absurd rfl hok⟩
    simpa [hqp] using hq

/-! ## Staging a tree and swapping it in -/

/-- Outside `stage`, only directories were made. -/
def OutsideOf (stage : List String) (disk disk' : Disk) : Prop :=
  ∀ q, ¬ stage <+: q → disk' q = disk q ∨ disk q = none ∧ disk' q = some .dir

theorem OutsideOf.trans {stage : List String} {disk disk' disk'' : Disk}
    (h₁ : OutsideOf stage disk disk') (h₂ : OutsideOf stage disk' disk'') :
    OutsideOf stage disk disk'' := by
  intro q hq
  rcases h₁ q hq with h₁ | ⟨hnone, hdir⟩
  · rw [← h₁]
    exact h₂ q hq
  · rcases h₂ q hq with h₂ | ⟨hnone', -⟩
    · exact .inr ⟨hnone, h₂.trans hdir⟩
    · rw [hdir] at hnone'
      cases hnone'

theorem outsideOf_mkdirs (stage : List String) (disk : Disk) (fault : List String → Bool)
    (cur : List String) (path : List (Component String)) :
    OutsideOf stage disk (disk.mkdirs fault cur path).2 :=
  fun q _ => mkdirs_get fault disk cur path q

theorem OutsideOf.set {stage : List String} {disk disk' : Disk} (h : OutsideOf stage disk disk')
    (ns : List String) (node : Option (Node String Content)) :
    OutsideOf stage disk (disk'.set (stage ++ ns) node) := by
  intro q hq
  rw [Table.set_get, if_neg]
  · exact h q hq
  · rintro rfl
    exact hq (List.prefix_append stage ns)

/-- What the loop that writes the staged tree has done when it ends. -/
structure StageEnd (stage : List String) (sources : List SourceFile) (disk : Disk)
    (result : Bool × Disk) : Prop where
  extended : Extends disk result.2
  outside : OutsideOf stage disk result.2
  kept : ∀ ns, (∀ file ∈ sources, names file.path ≠ ns) →
    ∀ node, disk (stage ++ ns) = some node → result.2 (stage ++ ns) = some node
  written : result.1 = true → ∀ file ∈ sources,
    result.2 (stage ++ names file.path) = some (.file (.text file.source))

theorem StageEnd.of_failed {stage : List String} {sources : List SourceFile} {disk disk' : Disk}
    (hext : Extends disk disk') (hout : OutsideOf stage disk disk')
    (hkept : ∀ ns, (∀ file ∈ sources, names file.path ≠ ns) →
      ∀ node, disk (stage ++ ns) = some node → disk' (stage ++ ns) = some node) :
    StageEnd stage sources disk (false, disk') :=
  ⟨hext, hout, hkept, fun hok => by cases hok⟩

theorem stageEnd_stageFiles (faults : Faults) {stage : List String} {sources : List SourceFile} {disk : Disk}
    (hproper : ∀ file ∈ sources, properPath file.path = true)
    (hnodup : (sources.map SourceFile.path).Nodup) (hclear : ∀ ns, Clear disk (stage ++ ns)) :
    StageEnd stage sources disk (stageFiles faults (stage.map .name) sources disk) := by
  induction sources generalizing disk with
  | nil => exact ⟨.refl disk, fun q _ => .inl rfl, fun ns _ node hq => hq, fun _ => by simp⟩
  | cons file sources ih =>
    have hdest : stage.map Component.name ++ components file.path =
        (stage ++ names file.path).map .name := by
      rw [components_of_proper (hproper file List.mem_cons_self), List.map_append]
    simp only [stageFiles, hdest]
    rcases hmade : disk.mkdirs faults.createDir []
      ((stage ++ names file.path).map Component.name).dropLast with ⟨made, parents⟩
    have hparents : parents = (disk.mkdirs faults.createDir []
      ((stage ++ names file.path).map Component.name).dropLast).2 := by rw [hmade]
    have hext : Extends disk parents := hparents ▸ mkdirs_extends _ _ _ _
    have hout : OutsideOf stage disk parents := hparents ▸ outsideOf_mkdirs stage disk _ _ _
    have hkeep : Keeps disk parents := fun q node hq =>
      hparents ▸ mkdirs_eq_of_some _ _ _ _ hq
    cases made with
    | false => exact .of_failed hext hout fun ns _ node hq => hkeep _ _ hq
    | true =>
      simp only
      rcases write_cases (faults.write ((stage ++ names file.path).map .name)) parents
        ((stage ++ names file.path).map .name) (.text file.source) with
        hw | ⟨p, hp, hvacant, hw⟩
      · rw [hw]
        exact .of_failed hext hout fun ns _ node hq => hkeep _ _ hq
      · obtain rfl := locate_names ((hclear (names file.path)).of_extends hext) hp
        have hset : ∀ content ns, names file.path ≠ ns → ∀ node, disk (stage ++ ns) = some node →
            (parents.set (stage ++ names file.path) (some (.file content))) (stage ++ ns) =
              some node := fun content ns hne node hq => by
          rw [Table.set_get, if_neg fun heq => hne (List.append_cancel_left heq).symm]
          exact hkeep _ _ hq
        rcases hw with ⟨-, hw⟩ | ⟨part, -, hw⟩
        · rw [hw]
          have hwritten := hext.trans (hvacant.extends (.text file.source))
          rw [List.map_cons, List.nodup_cons] at hnodup
          have hrest := ih (fun other hother => hproper other (List.mem_cons_of_mem _ hother))
            hnodup.2 (fun ns => (hclear ns).of_extends hwritten)
          refine ⟨hwritten.trans hrest.extended, (hout.set _ _).trans hrest.outside,
            fun ns hns node hq => ?_, fun hok other hother => ?_⟩
          · exact hrest.kept ns (fun other hother => hns other (List.mem_cons_of_mem _ hother)) node
              (hset _ ns (hns file List.mem_cons_self) node hq)
          · rcases List.mem_cons.mp hother with rfl | hother
            · refine hrest.kept _ (fun third hthird heq => ?_) _ (by simp)
              exact hnodup.1 (names_injective heq ▸ List.mem_map_of_mem hthird)
            · exact hrest.written hok other hother
        · rw [hw]
          exact .of_failed (hext.trans (hvacant.extends part)) (hout.set _ _)
            fun ns hns node hq => hset _ ns (hns file List.mem_cons_self) node hq

/-- The names drawn for a swap are new, and differ. -/
def SwapNames (disk : Disk) (staging backup : String) : Prop :=
  (Unused disk staging ∧ Unused disk backup) ∧ staging ≠ backup ∧ staging ≠ "src" ∧ backup ≠ "src"

instance (staging backup : String) : Decidable (SwapNames disk staging backup) :=
  inferInstanceAs (Decidable ((_ ∧ _) ∧ _ ∧ _ ∧ _))

theorem prefix_append_singleton_iff {root r : List String} {n m : String} :
    root ++ [n] <+: root ++ [m] ++ r ↔ n = m := by
  rw [List.append_assoc, List.prefix_append_right_inj, List.singleton_append,
    List.cons_prefix_cons]
  simp

/-- The disk with the staged tree on it, and whether it could be staged. -/
def staged (session : Session) (faults : Faults) (staging : String) (sources : List SourceFile)
    (disk : Disk) : Bool × Disk :=
  let made := disk.mkdirs faults.createDir [] (session.inRoot staging)
  if made.1 then stageFiles faults (session.inRoot staging) sources made.2 else made

/-- The rename of one tree in the session's directory. -/
def renameInRoot (session : Session) (faults : Faults) (source target : String) (disk : Disk) :
    Bool × Disk :=
  disk.rename (faults.rename (session.inRoot source) (session.inRoot target))
    (session.inRoot source) (session.inRoot target)

theorem replaceOnDisk_eq (staging backup : String) (sources : List SourceFile) :
    session.replaceOnDisk faults staging backup sources disk =
      let staged := session.staged faults staging sources disk
      let away := session.renameInRoot faults "src" backup staged.2
      let back := session.renameInRoot faults staging "src" away.2
      if staged.1 = false then (.error .io, staged.2)
      else if away.1 = false then (.error .io, away.2)
      else if back.1 then (.ok (), back.2)
      else (.error .io, (session.renameInRoot faults backup "src" back.2).2) := by
  simp only [replaceOnDisk, staged, renameInRoot]
  split
  next hmade => simp [hmade]
  next made hmade =>
    simp only [hmade, ↓reduceIte]
    split
    next hstaged => simp [hstaged]
    next staged hstaged =>
      simp only [hstaged, Bool.true_eq_false, ↓reduceIte]
      split
      next haway => simp [haway]
      next away haway =>
        simp only [haway, Bool.true_eq_false, ↓reduceIte]
        split
        next hback => simp [hback]
        next hback => simp [hback]

theorem staged_spec {staging : String} {sources : List SourceFile}
    (hproper : ∀ file ∈ sources, properPath file.path = true)
    (hnodup : (sources.map SourceFile.path).Nodup) (hclear : Clear disk session.root)
    (hunused : Unused disk staging) {result : Bool × Disk}
    (h : session.staged faults staging sources disk = result) :
    Extends disk result.2 ∧ OutsideOf (session.root ++ [staging]) disk result.2 ∧
      (result.1 = true →
        (∀ pre, pre ≠ [] → pre <+: session.root ++ [staging] → result.2 pre = some .dir) ∧
        ∀ file ∈ sources, result.2 (session.root ++ [staging] ++ names file.path) =
          some (.file (.text file.source))) := by
  have hstage : ∀ ns, Clear disk (session.root ++ [staging] ++ ns) := by
    intro ns pre hne hpre
    have hnone : staging ∈ pre → (disk pre).any Node.isLink = false := fun hmem => by
      rw [hunused pre hmem]
      rfl
    rcases List.prefix_or_prefix_of_prefix hpre (List.prefix_append _ ns) with hpre | hpre
    · rcases List.prefix_concat_iff.mp hpre with rfl | hpre
      · exact hnone (by simp)
      · exact hclear pre hne hpre
    · exact hnone (hpre.subset (by simp))
  have hmade : Extends disk (disk.mkdirs faults.createDir [] (session.inRoot staging)).2 :=
    mkdirs_extends _ _ _ _
  have hout : OutsideOf (session.root ++ [staging]) disk
      (disk.mkdirs faults.createDir [] (session.inRoot staging)).2 :=
    outsideOf_mkdirs _ _ _ _ _
  simp only [staged] at h
  split_ifs at h with hok
  · have hend := stageEnd_stageFiles faults hproper hnodup
      fun ns => (hstage ns).of_extends hmade
    rw [← inRoot_eq, h] at hend
    refine ⟨hmade.trans hend.extended, hout.trans hend.outside, fun hdone => ?_⟩
    refine ⟨fun pre hne hpre => ?_, hend.written hdone⟩
    have hlink : ∀ pre, pre ≠ [] → pre <+: session.root ++ [staging] →
        (disk ([] ++ pre)).any Node.isLink = false := fun pre hne hpre =>
      hstage [] pre hne (by simpa using hpre)
    rw [inRoot_eq] at hok hend
    exact hend.extended.dir pre (mkdirs_names hlink hok pre hne hpre)
  · subst h
    exact ⟨hmade, hout, fun hdone => absurd hdone hok⟩

/-- Once the source tree is moved away, the staged tree stands where it stood. -/
theorem away_spec {staging backup : String} {staged away : Disk}
    (hnames : SwapNames disk staging backup) (hclear : Clear staged session.root)
    (hdirs : ∀ pre, pre ≠ [] → pre <+: session.root ++ [staging] → staged pre = some .dir)
    (h : session.renameInRoot faults "src" backup staged = (true, away)) :
    away session.sourceRoot = none ∧
      (∀ n, n ≠ "src" → n ≠ backup → ∀ r, away (session.root ++ [n] ++ r) =
        staged (session.root ++ [n] ++ r)) ∧
      (∀ pre, pre <+: session.root → away pre = staged pre) ∧
      ∀ n, place away (session.inRoot n) = some (session.root ++ [n]) := by
  obtain ⟨-, hne, hsrc, hbackup⟩ := hnames
  have hplaces : ∀ n, (staged session.root).any Node.isDir = true →
      place staged ((session.root ++ [n]).map .name) = some (session.root ++ [n]) := fun n hd =>
    place_dirs hd (fun pre hne hpre => hdirs pre hne (hpre.trans (List.prefix_append _ _))) n
  have hroot : (staged session.root).any Node.isDir = true := by
    rw [renameInRoot, inRoot_eq, inRoot_eq] at h
    rcases rename_cases _ staged ((session.root ++ ["src"]).map Component.name)
      ((session.root ++ [backup]).map Component.name) with hf | ⟨a, b, node, ha, -⟩
    · rw [hf] at h
      cases h
    · exact (place_names hclear ha).2
  rw [renameInRoot, inRoot_eq, inRoot_eq] at h
  obtain ⟨hgone, hrest⟩ := rename_away (hplaces "src" hroot) (hplaces backup hroot)
    (by simpa using hbackup.symm) (by simpa using hbackup) h
  have hpres : ∀ pre, pre <+: session.root → away pre = staged pre := fun pre hpre => by
    have hshort : ∀ n : String, ¬ session.root ++ [n] <+: pre := fun n hn => by
      have := (hn.trans hpre).length_le
      rw [List.length_append, List.length_singleton] at this
      omega
    exact hrest pre (hshort "src") (hshort backup)
  refine ⟨hgone, fun n hns hnb r => hrest _ ?_ ?_, hpres, fun n => ?_⟩
  · rw [prefix_append_singleton_iff]
    exact hns.symm
  · rw [prefix_append_singleton_iff]
    exact hnb.symm
  · rw [inRoot_eq]
    refine place_dirs (by rwa [hpres _ List.prefix_rfl]) (fun pre hne hpre => ?_) n
    rw [hpres pre hpre]
    exact hdirs pre hne (hpre.trans (List.prefix_append _ _))

/-- How replacing the files ends: before the source tree is moved, or after. -/
theorem replaceOnDisk_cases (faults : Faults) {staging backup : String} {sources : List SourceFile}
    (hproper : ∀ file ∈ sources, properPath file.path = true)
    (hnodup : (sources.map SourceFile.path).Nodup) (hclear : Clear disk session.root)
    (hnames : SwapNames disk staging backup) :
    (∃ disk', session.replaceOnDisk faults staging backup sources disk = (.error .io, disk') ∧
      Extends disk disk' ∧ OutsideOf (session.root ++ [staging]) disk disk' ∧
      ∀ staged away, session.staged faults staging sources disk = (true, staged) →
        session.renameInRoot faults "src" backup staged ≠ (true, away)) ∨
    ∃ staged away, session.staged faults staging sources disk = (true, staged) ∧
      session.renameInRoot faults "src" backup staged = (true, away) ∧
      ((faults.rename (session.inRoot staging) (session.inRoot "src") = false ∧
          session.replaceOnDisk faults staging backup sources disk =
            (.ok (), move away (session.root ++ [staging]) session.sourceRoot)) ∨
        (faults.rename (session.inRoot staging) (session.inRoot "src") = true ∧
          session.replaceOnDisk faults staging backup sources disk =
            (.error .io, (session.renameInRoot faults backup "src" away).2))) := by
  rw [replaceOnDisk_eq]
  rcases hstaged : session.staged faults staging sources disk with ⟨ok, staged⟩
  obtain ⟨hext, hout, hdone⟩ := staged_spec hproper hnodup hclear hnames.1.1 hstaged
  cases ok with
  | false => exact .inl ⟨staged, rfl, hext, hout, fun _ _ hs => by cases hs⟩
  | true =>
    obtain ⟨hdirs, hfiles⟩ := hdone rfl
    simp only [Bool.true_eq_false, ↓reduceIte]
    rcases haway : session.renameInRoot faults "src" backup staged with ⟨ok, away⟩
    cases ok with
    | false =>
      obtain rfl := rename_failed haway
      refine .inl ⟨away, rfl, hext, hout, ?_⟩
      rintro _ away' ⟨⟩ haway'
      rw [haway] at haway'
      cases haway'
    | true =>
      refine .inr ⟨staged, away, rfl, haway, ?_⟩
      obtain ⟨hgone, hkept, -, hplace⟩ := away_spec hnames (hclear.of_extends hext) hdirs haway
      have hdir : away (session.root ++ [staging]) = some .dir := by
        have := hkept staging hnames.2.2.1 hnames.2.1 []
        rw [List.append_nil] at this
        rw [this]
        exact hdirs _ (by simp) List.prefix_rfl
      have hback : session.renameInRoot faults staging "src" away =
          if faults.rename (session.inRoot staging) (session.inRoot "src") then (false, away)
          else (true, move away (session.root ++ [staging]) session.sourceRoot) := by
        refine rename_dir (hplace staging) (hplace "src") hdir hgone ?_
        simpa [sourceRoot] using hnames.2.2.1
      simp only [Bool.true_eq_false, ↓reduceIte, hback]
      cases hfault : faults.rename (session.inRoot staging) (session.inRoot "src") with
      | false => exact .inl ⟨rfl, rfl⟩
      | true => exact .inr ⟨rfl, rfl⟩

end Session
end Atomis
