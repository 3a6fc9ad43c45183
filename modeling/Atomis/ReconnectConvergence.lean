import Atomis.Reconnect

/-!
# When a client and its session converge

What is on screen is what the session will have once everything still to be
handled is handled, but for the stale paths. An operation, a handled message and
a reconnect each carry this along.
-/

namespace Atomis.Reconnect
open Protocol RuntimeSocket Collab PeerUpdate OfflineQueue KeyedEdit

/-! ## Files as texts by their paths -/

section
variable {files files' : List ProjectFile} {path newPath : String}

theorem contentOf_cons (f : ProjectFile) (files : List ProjectFile) (x : String) :
    contentOf (f :: files) x = if f.path = x then some f.source else contentOf files x := by
  by_cases h : f.path = x <;> simp [contentOf, h]

theorem contentOf_eq_some (hnodup : (files.map ProjectFile.path).Nodup) {source : String} :
    contentOf files path = some source ↔ ∃ f ∈ files, f.path = path ∧ f.source = source := by
  induction files with
  | nil => simp [contentOf]
  | cons f files ih =>
    obtain ⟨hf, hnodup⟩ := List.nodup_cons.mp hnodup
    rw [contentOf_cons]
    by_cases hpath : f.path = path
    · subst hpath
      simp only [↓reduceIte, Option.some.injEq, List.mem_cons]
      refine ⟨fun h => ⟨f, .inl rfl, rfl, h⟩, ?_⟩
      rintro ⟨g, rfl | hg, hgp, hgs⟩
      · exact hgs
      · exact absurd (List.mem_map.mpr ⟨g, hg, hgp⟩) hf
    · simp [hpath, ih hnodup]

theorem contentOf_perm (hnodup : (files.map ProjectFile.path).Nodup) (hperm : files'.Perm files) :
    contentOf files' = contentOf files := by
  funext x
  have hnodup' : (files'.map ProjectFile.path).Nodup :=
    ((hperm.map ProjectFile.path).nodup_iff).mpr hnodup
  ext source
  rw [contentOf_eq_some hnodup', contentOf_eq_some hnodup]
  simp only [hperm.mem_iff]

theorem contentOf_sorted (hnodup : (files.map ProjectFile.path).Nodup) :
    contentOf (files.insertionSort Session.before) = contentOf files :=
  contentOf_perm hnodup (List.perm_insertionSort _ _)

theorem contentOf_append_singleton (f : ProjectFile) (h : ∀ g ∈ files, g.path ≠ f.path) :
    contentOf (files ++ [f]) = (insert f.path f.source).apply (contentOf files) := by
  funext x
  induction files with
  | nil =>
    rw [List.nil_append, contentOf_cons]
    by_cases hx : f.path = x
    · simp [KeyedEdit.apply, hx]
    · simp [KeyedEdit.apply, contentOf, hx, Ne.symm hx]
  | cons g files ih =>
    have hg := h g List.mem_cons_self
    rw [List.cons_append, contentOf_cons, ih fun g hg => h g (List.mem_cons_of_mem _ hg)]
    by_cases hx : g.path = x
    · subst hx
      simp [KeyedEdit.apply, contentOf_cons, hg]
    · simp [KeyedEdit.apply, contentOf_cons, hx]

theorem contentOf_filter_ne : contentOf (files.filter fun f => f.path ≠ path) =
    (erase path).apply (contentOf files) := by
  funext x
  induction files with
  | nil => simp [contentOf, KeyedEdit.apply]
  | cons f files ih =>
    rw [List.filter_cons]
    by_cases hf : f.path = path
    · subst hf
      rw [if_neg (by simp), ih]
      simp only [KeyedEdit.apply, contentOf_cons]
      split_ifs with h₁ h₂ <;> first | rfl | (subst h₂; exact absurd rfl h₁)
    · rw [if_pos (by simpa using hf), contentOf_cons, ih]
      simp only [KeyedEdit.apply, contentOf_cons]
      by_cases hx : f.path = x
      · subst hx
        simp [hf]
      · simp [hx]

/-- Every file at the path gets one text. -/
theorem contentOf_overwritten {g : ProjectFile → ProjectFile} {source : String}
    (hg : ∀ f, f.path = path → (g f).path = path ∧ (g f).source = source) :
    contentOf (files.map fun f => if f.path = path then g f else f) =
      (overwrite path source).apply (contentOf files) := by
  funext x
  induction files with
  | nil => simp [contentOf, KeyedEdit.apply]
  | cons f files ih =>
    rw [List.map_cons, contentOf_cons, ih]
    by_cases hf : f.path = path
    · obtain ⟨hp, hs⟩ := hg f hf
      simp only [if_pos hf, hp, hs, KeyedEdit.apply, contentOf_cons]
      by_cases hx : path = x
      · subst hx
        simp
      · simp [hx, Ne.symm hx, hf]
    · simp only [if_neg hf, KeyedEdit.apply, contentOf_cons]
      by_cases hx : f.path = x
      · subst hx
        simp [hf]
      · by_cases hxp : x = path
        · subst hxp
          simp [hf]
        · simp [hx, hxp]

theorem contentOf_renamed {g : ProjectFile → ProjectFile} (hnew : ∀ f ∈ files, f.path ≠ newPath)
    (hg : ∀ f ∈ files, f.path = path → (g f).path = newPath ∧ (g f).source = f.source) :
    contentOf (files.map fun f => if f.path = path then g f else f) =
      (KeyedEdit.rename path newPath).apply (contentOf files) := by
  funext x
  induction files with
  | nil => simp [contentOf, KeyedEdit.apply]
  | cons f files ih =>
    have hf := hnew f List.mem_cons_self
    rw [List.map_cons, contentOf_cons, ih (fun f hf => hnew f (List.mem_cons_of_mem _ hf))
      fun f hf => hg f (List.mem_cons_of_mem _ hf)]
    by_cases hp : f.path = path
    · obtain ⟨hgp, hgs⟩ := hg f List.mem_cons_self hp
      simp only [if_pos hp, hgp, hgs, KeyedEdit.apply, contentOf_cons]
      by_cases hx : newPath = x
      · subst hx
        simp
      · by_cases hxp : x = path
        · subst hxp
          simp [hx, Ne.symm hx]
        · simp [hx, Ne.symm hx, hxp, Ne.symm hxp, hp]
    · simp only [if_neg hp, KeyedEdit.apply, contentOf_cons]
      by_cases hx : f.path = x
      · subst hx
        simp [hf, hp]
      · by_cases hxn : x = newPath
        · subst hxn
          simp [hf]
        · simp [hx, hxn]

end

/-! ## What messages and operations do -/

section
variable {session : Session} {texts : String → String} {s t : Snapshot} {m : RuntimeClientMessage}

theorem contentOf_commit (hnodup : (s.files.map ProjectFile.path).Nodup) {version : ℕ}
    (h : session.commit version s.files = .ok t) : contentOf t.files = contentOf s.files := by
  obtain ⟨-, hfiles, -⟩ := Session.commit_ok h
  rw [hfiles, contentOf_sorted hnodup]

theorem committed {version : ℕ} {files : List ProjectFile} (hl : session.Listed files)
    (h : session.commit version files = .ok t) :
    t.version = version ∧ contentOf t.files = contentOf files := by
  obtain ⟨hv, hfiles, -⟩ := Session.commit_ok h
  exact ⟨hv, by rw [hfiles, contentOf_sorted hl.nodup]⟩

/-- What the store makes of the texts, when it takes a message. -/
theorem contentOf_taken (hl : session.Listing s)
    (h : handleMessageInner texts session s m = .ok t) (hm : isReset m = false) :
    contentOf t.files = (editOf m).apply (contentOf s.files) := by
  cases m with
  | documentUpdate version path source base =>
    obtain ⟨files, hchecked, hcommit⟩ := Session.bind_eq_ok h
    rw [(committed (hl.listed.updateFiles hchecked) hcommit).2,
      (Session.updateFiles_ok hchecked).2.2]
    exact contentOf_overwritten fun f _ => ⟨rfl, rfl⟩
  | fileCreate version path source base =>
    obtain ⟨files, hchecked, hcommit⟩ := Session.bind_eq_ok h
    obtain ⟨-, hnew, hfiles⟩ := Session.createFiles_ok hchecked
    rw [(committed (hl.listed.createFiles hchecked) hcommit).2, hfiles]
    exact contentOf_append_singleton (session.projectFile path source) hnew
  | fileRename version path newPath base =>
    obtain ⟨files, hchecked, hcommit⟩ := Session.bind_eq_ok h
    obtain ⟨-, -, hnew, current, hcurrent, hpath, hfiles⟩ := Session.renameFiles_ok hchecked
    rw [(committed (hl.listed.renameFiles hchecked) hcommit).2, hfiles]
    refine contentOf_renamed hnew fun f hf hfp => ⟨rfl, ?_⟩
    have hsame : f = current :=
      List.inj_on_of_nodup_map hl.listed.nodup hf hcurrent (hfp.trans hpath.symm)
    rw [hsame]
    rfl
  | fileDelete version path base =>
    obtain ⟨files, hchecked, hcommit⟩ := Session.bind_eq_ok h
    rw [(committed (hl.listed.deleteFiles hchecked) hcommit).2,
      (Session.deleteFiles_ok hchecked).2.2.2]
    exact contentOf_filter_ne
  | workspaceReset => cases hm
  | _ => cases h

theorem version_taken (h : handleMessageInner texts session s m = .ok t) :
    versionOf m = some t.version := by
  cases m with
  | documentUpdate | fileCreate | fileRename | fileDelete | workspaceReset =>
    obtain ⟨files, hchecked, hcommit⟩ := Session.bind_eq_ok h
    rw [(Session.commit_ok hcommit).1]
    rfl
  | _ => cases h

/-- A listing of the mirror: every path once, the entry file among them. -/
structure Mirrored (session : Session) (files : List ProjectFile) : Prop where
  nodup : (files.map ProjectFile.path).Nodup
  entry : ∃ f ∈ files, f.path = session.entryPath

theorem mirrored_of_listing (h : session.Listing s) : Mirrored session s.files :=
  ⟨h.listed.nodup, h.listed.entry⟩

variable {c : Client} {op : Operation} {i : Intent}

theorem mapped_paths {g : ProjectFile → ProjectFile} {path : String} (files : List ProjectFile)
    (hg : ∀ f, f.path = path → (g f).path = path) :
    (files.map fun f => if f.path = path then g f else f).map ProjectFile.path =
      files.map ProjectFile.path := by
  rw [List.map_map]
  refine List.map_congr_left fun f _ => ?_
  simp only [Function.comp_apply]
  split_ifs with hf
  · rw [hg f hf, hf]
  · rfl

theorem has_eq_false {path : String} (h : c.has path = false) : ∀ f ∈ c.files, f.path ≠ path := by
  simpa [Client.has] using h

theorem nodup_renamed {files : List ProjectFile} {path newPath : String}
    {g : ProjectFile → ProjectFile} (hnodup : (files.map ProjectFile.path).Nodup)
    (hnew : ∀ f ∈ files, f.path ≠ newPath) (hg : ∀ f, (g f).path = newPath) :
    ((files.map fun f => if f.path = path then g f else f).map ProjectFile.path).Nodup := by
  have heq : (files.map fun f => if f.path = path then g f else f).map ProjectFile.path =
      (files.map ProjectFile.path).map fun p => if p = path then newPath else p := by
    rw [List.map_map, List.map_map]
    refine List.map_congr_left fun f _ => ?_
    simp only [Function.comp_apply]
    split_ifs
    · exact hg f
    · rfl
  rw [heq]
  refine List.Nodup.map_on (fun p hp q hq hpq => ?_) hnodup
  obtain ⟨f, hf, rfl⟩ := List.mem_map.mp hp
  obtain ⟨f', hf', rfl⟩ := List.mem_map.mp hq
  split_ifs at hpq with h₁ h₂ h₂
  · exact h₁.trans h₂.symm
  · exact absurd hpq.symm (hnew f' hf')
  · exact absurd hpq (hnew f hf)
  · exact hpq

/-- The mirror after an operation, and the message for it. -/
structure Intended (session : Session) (c : Client) (i : Intent) : Prop where
  content : ∀ v, contentOf i.files = (editOf (i.message v)).apply (contentOf c.files)
  mirrored : Mirrored session i.files
  versioned : ∀ v, versionOf (i.message v) = some v
  queueable : ∀ v, queueable (i.message v) = true

theorem intended (hc : Mirrored session c.files) (h : intent session c op = some i) :
    Intended session c i := by
  cases op with
  | change source =>
    simp only [intent] at h
    split at h
    · cases h
    next current hcurrent =>
      split_ifs at h
      cases h
      have hpaths : (c.replace c.activePath source).map ProjectFile.path =
          c.files.map ProjectFile.path := mapped_paths c.files fun f hf => hf
      obtain ⟨f, hf, hentry⟩ := hc.entry
      refine ⟨fun v => contentOf_overwritten fun f hf => ⟨hf, rfl⟩, ⟨hpaths ▸ hc.nodup, ?_⟩,
        fun _ => rfl, fun _ => rfl⟩
      obtain ⟨g, hg, hgp⟩ := List.mem_map.mp (hpaths ▸ List.mem_map_of_mem hf :
        f.path ∈ (c.replace c.activePath source).map ProjectFile.path)
      exact ⟨g, hg, hgp.trans hentry⟩
  | create path =>
    simp only [intent] at h
    split_ifs at h with hguard
    cases h
    simp only [Bool.or_eq_true, not_or, Bool.not_eq_true] at hguard
    have hnew := has_eq_false hguard.1.2
    have hnodup : ((c.files ++ [session.projectFile path ""]).map ProjectFile.path).Nodup := by
      rw [List.map_append, List.map_singleton, List.nodup_append]
      refine ⟨hc.nodup, List.nodup_singleton _, ?_⟩
      rintro p hp q hq rfl
      obtain ⟨f, hf, rfl⟩ := List.mem_map.mp hp
      exact hnew f hf (List.mem_singleton.mp hq)
    obtain ⟨f, hf, hentry⟩ := hc.entry
    refine ⟨fun v => ?_, ⟨?_, f, ?_, hentry⟩, fun _ => rfl, fun _ => rfl⟩
    · rw [contentOf_sorted hnodup]
      exact contentOf_append_singleton _ hnew
    · exact (((List.perm_insertionSort Session.before _).map _).nodup_iff).mpr hnodup
    · rw [List.mem_insertionSort]
      exact List.mem_append_left _ hf
  | rename path newPath =>
    simp only [intent] at h
    split_ifs at h with hguard
    cases h
    simp only [Bool.or_eq_true, not_or, Bool.not_eq_true, decide_eq_true_eq] at hguard
    obtain ⟨⟨⟨⟨⟨hentryne, -⟩, -⟩, -⟩, hhas⟩, -⟩ := hguard
    have hnew := has_eq_false hhas
    obtain ⟨f, hf, hentry⟩ := hc.entry
    refine ⟨fun v => contentOf_renamed hnew fun f _ _ => ⟨rfl, rfl⟩,
      ⟨nodup_renamed hc.nodup hnew fun _ => rfl, f, ?_, hentry⟩, fun _ => rfl, fun _ => rfl⟩
    have hne : f.path ≠ path := fun heq => hentryne (heq.symm.trans hentry)
    exact List.mem_map.mpr ⟨f, hf, if_neg hne⟩
  | remove path =>
    simp only [intent] at h
    split_ifs at h with hguard
    cases h
    simp only [Bool.or_eq_true, not_or, Bool.not_eq_true, decide_eq_true_eq] at hguard
    obtain ⟨f, hf, hentry⟩ := hc.entry
    refine ⟨fun v => contentOf_filter_ne, ⟨?_, f, ?_, hentry⟩, fun _ => rfl, fun _ => rfl⟩
    · exact hc.nodup.sublist (List.Sublist.map _ List.filter_sublist)
    · exact List.mem_filter.mpr ⟨hf, by
        simpa using fun heq => hguard.1 (heq.symm.trans hentry)⟩
  | reset scaffold =>
    cases h
    exact ⟨fun _ => rfl, hc, fun _ => rfl, fun _ => rfl⟩

/-- A path the message does not name keeps its text. -/
theorem apply_editOf {p : String} (hp : p ∉ pathsOf m) (f : String → Option String) :
    (editOf m).apply f p = f p := by
  cases m with
  | documentUpdate | fileCreate | fileDelete =>
    simp only [pathsOf, List.mem_singleton] at hp
    simp [editOf, KeyedEdit.apply, hp]
  | fileRename version path newPath base =>
    simp only [pathsOf, List.mem_cons, List.not_mem_nil, or_false, not_or] at hp
    simp [editOf, KeyedEdit.apply, hp.1, hp.2]
  | _ => rfl

theorem applyAll_editOf {p : String} {l : List RuntimeClientMessage}
    (hp : ∀ m ∈ l, p ∉ pathsOf m) (f : String → Option String) :
    applyAll (l.map editOf) f p = f p := by
  induction l generalizing f with
  | nil => rfl
  | cons m l ih =>
    rw [List.map_cons, applyAll_cons, ih fun m hm => hp m (List.mem_cons_of_mem _ hm)]
    exact apply_editOf (hp m List.mem_cons_self) f

theorem editOf_withBase (revision : Option ℕ) (m : RuntimeClientMessage) :
    editOf (withBase revision m) = editOf m := by
  cases m <;> rfl

theorem versionOf_withBase (revision : Option ℕ) (m : RuntimeClientMessage) :
    versionOf (withBase revision m) = versionOf m := by
  cases m <;> rfl

theorem isReset_withBase (revision : Option ℕ) (m : RuntimeClientMessage) :
    isReset (withBase revision m) = isReset m := by
  cases m <;> rfl

theorem queueable_withBase (revision : Option ℕ) (m : RuntimeClientMessage) :
    RuntimeSocket.queueable (withBase revision m) = RuntimeSocket.queueable m := by
  cases m <;> rfl

theorem oversized_withBase (revision : Option ℕ) (m : RuntimeClientMessage) :
    oversized (withBase revision m) = oversized m := by
  cases m <;> rfl

end

/-! ## The socket -/

section
variable {u : Unacknowledged} {m x : RuntimeClientMessage} {v w : ℕ}

theorem mem_set_of_ne (hx : (w, x) ∈ u) (hw : w ≠ v) : (w, x) ∈ u.set v m := by
  simp only [Unacknowledged.set]
  split_ifs
  · exact List.mem_map.mpr ⟨(w, x), hx, if_neg hw⟩
  · exact List.mem_append_left _ hx

theorem mem_set_self (u : Unacknowledged) (v : ℕ) (m : RuntimeClientMessage) :
    (v, m) ∈ u.set v m := by
  simp only [Unacknowledged.set]
  split_ifs with h
  · obtain ⟨entry, hentry, heq⟩ := List.any_eq_true.mp h
    exact List.mem_map.mpr ⟨entry, hentry, if_pos (by simpa using heq)⟩
  · exact List.mem_append_right _ (List.mem_singleton_self _)

theorem mem_of_mem_set (hx : (w, x) ∈ u.set v m) : (w, x) = (v, m) ∨ (w, x) ∈ u := by
  simp only [Unacknowledged.set] at hx
  split_ifs at hx
  · obtain ⟨entry, hentry, heq⟩ := List.mem_map.mp hx
    split_ifs at heq
    · exact .inl heq.symm
    · exact .inr (heq ▸ hentry)
  · rcases List.mem_append.mp hx with hx | hx
    · exact .inr hx
    · exact .inl (List.mem_singleton.mp hx)

theorem mem_saved {socket : Socket} (hx : (w, x) ∈ socket.unacknowledged) (hw : v < w) :
    (w, x) ∈ (socket.saved v).unacknowledged := by
  refine List.mem_filter.mpr ⟨hx, ?_⟩
  have h₁ : ¬ w = v := by omega
  have h₂ : ¬ w < v := by omega
  simp [h₁, h₂]

theorem dirty_of_mem {socket : Socket} (hx : (w, x) ∈ socket.unacknowledged) {p : String}
    (hp : p ∈ pathsOf x) : socket.dirty p = true :=
  List.any_eq_true.mpr ⟨(w, x), hx, by simpa using hp⟩

/-- Coalescing takes at most one message out of the queue and out of the map. -/
theorem takeQueued_perm (path : String) (l : List RuntimeClientMessage) :
    (takeQueued path l = (none, l)) ∨ ∃ queued, (takeQueued path l).1 = some queued ∧
      l.Perm (queued :: (takeQueued path l).2) := by
  induction l with
  | nil => exact .inl rfl
  | cons a l ih =>
    simp only [takeQueued]
    split
    · exact .inl rfl
    · split_ifs
      · exact .inr ⟨a, rfl, List.Perm.refl _⟩
      · rcases ih with heq | ⟨queued, hsome, hperm⟩
        · exact .inl (by rw [heq])
        · exact .inr ⟨queued, hsome, (hperm.cons a).trans (List.Perm.swap queued a _)⟩

theorem coalesce_spec (socket : Socket) (m : RuntimeClientMessage) :
    socket.coalesce m = socket ∨ ∃ queued,
      socket.pending.Perm (queued :: (socket.coalesce m).pending) ∧
      (∀ w x, (w, x) ∈ socket.unacknowledged → some w ≠ versionOf queued →
        (w, x) ∈ (socket.coalesce m).unacknowledged) ∧
      ∀ w x, (w, x) ∈ (socket.coalesce m).unacknowledged → (w, x) ∈ socket.unacknowledged := by
  simp only [Socket.coalesce]
  split
  · exact .inl rfl
  next path hpath =>
    rcases takeQueued_perm path socket.pending.reverse with heq | ⟨queued, hsome, hperm⟩
    · exact .inl (by simp [heq])
    · refine .inr ⟨queued, ?_, fun w x hx hne => ?_, fun w x hx => ?_⟩
      · exact (List.reverse_perm _).symm.trans (hperm.trans ((List.reverse_perm _).symm.cons queued))
      · simp only [hsome, Option.bind_some]
        cases hv : versionOf queued with
        | none => exact hx
        | some v =>
          refine List.mem_filter.mpr ⟨hx, ?_⟩
          rw [hv] at hne
          simpa using hne
      · simp only [hsome, Option.bind_some] at hx
        cases hv : versionOf queued with
        | none =>
          rw [hv] at hx
          exact hx
        | some v =>
          rw [hv] at hx
          exact (List.mem_filter.mp hx).1

theorem remember_eq (socket : Socket) (hv : versionOf m = some v)
    (hq : RuntimeSocket.queueable m = true) :
    socket.remember m = { socket with unacknowledged := socket.unacknowledged.set v m } := by
  simp [Socket.remember, hv, hq]

theorem key_editOf (m : RuntimeClientMessage) : key (editOf m) = updatedPath m := by
  cases m <;> rfl

/-- The queue without what the new message replaces. -/
def spared (m : RuntimeClientMessage) (pending : List RuntimeClientMessage) :
    List RuntimeClientMessage :=
  match updatedPath m with
  | none => pending
  | some path => Coalesce.removeLast updatedPath path pending

theorem coalesce_spared (socket : Socket) (m : RuntimeClientMessage) :
    (socket.coalesce m).pending = spared m socket.pending := coalesce_pending socket m

theorem spared_sublist (m : RuntimeClientMessage) (pending : List RuntimeClientMessage) :
    (spared m pending).Sublist pending := by
  simp only [spared]
  split
  · exact List.Sublist.refl _
  · exact Coalesce.removeLast_sublist _ _

theorem applyAll_spared (m : RuntimeClientMessage) (pending : List RuntimeClientMessage)
    (f : String → Option String) :
    (editOf m).apply (applyAll ((spared m pending).map editOf) f) =
      (editOf m).apply (applyAll (pending.map editOf) f) := by
  cases hpath : updatedPath m with
  | none => simp [spared, hpath]
  | some path =>
    obtain ⟨version, source, base, rfl⟩ := documentUpdate_of_updatedPath hpath
    have hmap : (spared (.documentUpdate version path source base) pending).map editOf =
        Coalesce.removeLast key path (pending.map editOf) :=
      Coalesce.removeLast_map key_editOf path pending
    rw [hmap]
    have := applyAll_removeLast (pending.map editOf) f path source
    rwa [applyAll_append, applyAll_append] at this

end

/-! ## The invariant -/

section
variable {session : Session} {texts : String → String} {initialSource : String} {s t : State}
  {m : RuntimeClientMessage}

/-- Everything the server is still to handle, in order. -/
def todo (s : State) : List RuntimeClientMessage := s.inbox ++ s.client.socket.pending

/-- What the session's files will be, a reset left aside. -/
def expected (s : State) : String → Option String :=
  applyAll ((todo s).map editOf) (contentOf s.snapshot.files)

def isCatalog : ServerEvent → Bool
  | .projectChanged .. => true
  | _ => false

def settles : ServerEvent → Bool
  | .documentSaved _ | .projectFiles .. => true
  | _ => false

def EventOk (session : Session) (s : State) : ServerEvent → Prop
  | .documentSaved v => v ≤ s.client.version ∧ ∀ m ∈ todo s, ∀ w ∈ versionOf m, v < w
  | .projectFiles v files => Mirrored session files ∧ v ≤ s.client.version ∧
      (v = s.client.version → todo s = [] ∧ contentOf files = contentOf s.snapshot.files)
  | .projectChanged files _ => Mirrored session files ∧ (s.reset ≠ .answered →
      ∀ p, s.client.socket.dirty p = false → contentOf files p = expected s p)
  | _ => True

structure Inv (session : Session) (s : State) : Prop where
  listing : session.Listing s.snapshot
  mirrored : Mirrored session s.client.files
  online : s.online = true → s.client.socket.pending = [] ∧ s.stale = []
  offline : s.online = false → s.outbox = [] ∧ s.reset ≠ .answered ∧
    ∀ m ∈ s.inbox, isReset m = false
  ascending : (todo s).Pairwise fun m m' => ∀ v ∈ versionOf m, ∀ v' ∈ versionOf m', v < v'
  versioned : ∀ m ∈ todo s, ∃ v ≤ s.client.version, versionOf m = some v ∧
    (v, m) ∈ s.client.socket.unacknowledged
  bounded : ∀ v m, (v, m) ∈ s.client.socket.unacknowledged → v ≤ s.client.version
  last : ∀ before m after, todo s = before ++ m :: after → isReset m = true →
    after = [] ∧ s.reset = .sent ∧ versionOf m = some s.client.version
  agree : s.reset ≠ .answered → AgreeOff s.stale (contentOf s.client.files) (expected s)
  answered : s.reset = .answered →
    todo s = [] ∧ ∃ files, .projectFiles s.client.version files ∈ s.outbox
  events : ∀ event ∈ s.outbox, EventOk session s event
  ordered : s.outbox.Pairwise fun a b => isCatalog b = true → settles a = false

theorem inv_init {snapshot : Snapshot} (h : session.Listing snapshot) :
    Inv session (init session snapshot) where
  listing := h
  mirrored := mirrored_of_listing h
  online := nofun
  offline _ := ⟨rfl, nofun, nofun⟩
  ascending := List.Pairwise.nil
  versioned := nofun
  bounded := nofun
  last before m after heq := by
    have hnil : ([] : List RuntimeClientMessage) = before ++ m :: after := heq
    simp at hnil
  agree _ := AgreeOff.refl [] _
  answered := nofun
  events := nofun
  ordered := List.Pairwise.nil

theorem Inv.converged (h : Inv session s) : Converged s := by
  intro honline hinbox houtbox
  obtain ⟨hpending, hstale⟩ := h.online honline
  have htodo : todo s = [] := by simp [todo, hinbox, hpending]
  have hreset : s.reset ≠ .answered := fun hanswered => by
    obtain ⟨-, files, hfiles⟩ := h.answered hanswered
    rw [houtbox] at hfiles
    cases hfiles
  have hagree := h.agree hreset
  rw [hstale, agreeOff_nil_iff, expected, htodo] at hagree
  exact hagree.symm

theorem Inv.no_reset (h : Inv session s) (hreset : s.reset ≠ .sent) :
    ∀ m ∈ todo s, isReset m = false := by
  intro m hm
  obtain ⟨before, after, heq⟩ := List.append_of_mem hm
  by_contra hne
  exact hreset (h.last before m after heq (by simpa using hne)).2.1

/-! ## One more message -/

def appended (s : State) (c : Client) (inbox : List RuntimeClientMessage)
    (m : RuntimeClientMessage) : State :=
  { s with
    client := c
    inbox := inbox
    stale := (editOf m).staleAfter s.stale
    reset := if isReset m then .sent else s.reset }

/-- The client has one more message for the server; `kept` is what is left of the others. -/
structure Appended (session : Session) (s : State) (c : Client)
    (inbox kept : List RuntimeClientMessage) (m : RuntimeClientMessage) : Prop where
  version : s.client.version < c.version
  versioned : versionOf m = some c.version
  queue : inbox ++ c.socket.pending = kept ++ [m]
  sublist : kept.Sublist (todo s)
  same : ∀ f, (editOf m).apply (applyAll (kept.map editOf) f) =
    (editOf m).apply (applyAll ((todo s).map editOf) f)
  noted : (c.version, m) ∈ c.socket.unacknowledged
  stays : ∀ x ∈ kept, ∀ w, versionOf x = some w → (w, x) ∈ s.client.socket.unacknowledged →
    (w, x) ∈ c.socket.unacknowledged
  only : ∀ w x, (w, x) ∈ c.socket.unacknowledged →
    (w, x) = (c.version, m) ∨ (w, x) ∈ s.client.socket.unacknowledged
  content : contentOf c.files = (editOf m).apply (contentOf s.client.files)
  mirrored : Mirrored session c.files
  online : s.online = true → c.socket.pending = [] ∧
    ∀ w x, (w, x) ∈ s.client.socket.unacknowledged → (w, x) ∈ c.socket.unacknowledged
  offline : s.online = false → inbox = s.inbox

theorem Inv.bound (h : Inv session s) (hm : m ∈ todo s) {v : ℕ} (hv : versionOf m = some v) :
    v ≤ s.client.version := by
  obtain ⟨w, hw, heq, -⟩ := h.versioned m hm
  obtain rfl := Option.some.inj (hv.symm.trans heq)
  exact hw

theorem dirty_of_subset {socket socket' : Socket}
    (hsub : ∀ w x, (w, x) ∈ socket.unacknowledged → (w, x) ∈ socket'.unacknowledged) {p : String}
    (hp : socket'.dirty p = false) : socket.dirty p = false := by
  by_contra hdirty
  obtain ⟨⟨w, x⟩, hx, hpx⟩ := List.any_eq_true.mp (Bool.not_eq_false _ ▸ hdirty)
  have := dirty_of_mem (hsub w x hx) (p := p) (by simpa using hpx)
  rw [hp] at this
  cases this

theorem Inv.append (h : Inv session s) (hsettled : s.reset = .settled) {c : Client}
    {inbox kept : List RuntimeClientMessage} (ha : Appended session s c inbox kept m) :
    Inv session (appended s c inbox m) := by
  have htodo : todo (appended s c inbox m) = kept ++ [m] := ha.queue
  have hkept : ∀ x ∈ kept, x ∈ todo s := fun x hx => ha.sublist.subset hx
  have hbelow : ∀ x ∈ kept, ∀ v ∈ versionOf x, v < c.version := fun x hx v hv =>
    (h.bound (hkept x hx) hv).trans_lt ha.version
  have hnoreset : ∀ x ∈ kept, isReset x = false := fun x hx =>
    h.no_reset (by simp [hsettled]) x (hkept x hx)
  have hphase : (appended s c inbox m).reset ≠ .answered := by
    simp only [appended, hsettled]
    split_ifs <;> simp
  have hexpected : expected (appended s c inbox m) = (editOf m).apply (expected s) := by
    simp only [expected, htodo, List.map_append, List.map_singleton, applyAll_append]
    exact ha.same _
  have hnamed : ∀ p, c.socket.dirty p = false → p ∉ pathsOf m := by
    intro p hp hpm
    rw [dirty_of_mem ha.noted hpm] at hp
    cases hp
  refine ⟨h.listing, ha.mirrored, fun honline => ⟨(ha.online honline).1, ?_⟩,
    fun hoff => ⟨(h.offline hoff).1, hphase, ?_⟩, ?_, ?_, ?_, ?_, fun _ => ?_,
    fun h' => absurd h' hphase, ?_, h.ordered⟩
  · change (editOf m).staleAfter s.stale = []
    rw [(h.online honline).2]
    exact staleAfter_nil _
  · change ∀ x ∈ inbox, _
    rw [ha.offline hoff]
    exact (h.offline hoff).2.2
  · rw [htodo, List.pairwise_append]
    refine ⟨h.ascending.sublist ha.sublist, List.pairwise_singleton _ _, fun x hx y hy v hv v' hv' => ?_⟩
    rw [List.mem_singleton.mp hy, ha.versioned] at hv'
    obtain rfl := Option.some.inj hv'
    exact hbelow x hx v hv
  · intro x hx
    rw [htodo] at hx
    rcases List.mem_append.mp hx with hx | hx
    · obtain ⟨v, hle, hv, hmem⟩ := h.versioned x (hkept x hx)
      exact ⟨v, hle.trans ha.version.le, hv, ha.stays x hx v hv hmem⟩
    · rw [List.mem_singleton.mp hx]
      exact ⟨c.version, le_refl _, ha.versioned, ha.noted⟩
  · intro w x hx
    rcases ha.only w x hx with heq | hx
    · exact (Prod.ext_iff.mp heq).1.le
    · exact (h.bounded w x hx).trans ha.version.le
  · intro before x after heq hx
    rw [htodo] at heq
    rcases List.eq_nil_or_concat after with rfl | ⟨after, y, rfl⟩
    · obtain ⟨-, hlast⟩ := List.append_inj' heq rfl
      obtain rfl := (List.cons.inj hlast).1
      exact ⟨rfl, if_pos hx, ha.versioned⟩
    · have hmem : x ∈ kept := by
        rw [List.concat_eq_append, ← List.cons_append, ← List.append_assoc] at heq
        rw [(List.append_inj' heq rfl).1]
        simp
      rw [hnoreset x hmem] at hx
      cases hx
  · rw [hexpected]
    change AgreeOff _ (contentOf c.files) _
    rw [ha.content]
    exact (h.agree (by simp [hsettled])).apply (editOf m)
  · intro event (hevent : event ∈ s.outbox)
    have honline : s.online = true := by
      by_contra hoff
      rw [(h.offline (by simpa using hoff)).1] at hevent
      cases hevent
    have hok := h.events event hevent
    cases event with
    | documentSaved v =>
      refine ⟨hok.1.trans ha.version.le, fun x hx w hw => ?_⟩
      rw [htodo] at hx
      rcases List.mem_append.mp hx with hx | hx
      · exact hok.2 x (hkept x hx) w hw
      · rw [List.mem_singleton.mp hx, ha.versioned] at hw
        obtain rfl := Option.some.inj hw
        exact hok.1.trans_lt ha.version
    | projectFiles v files =>
      exact ⟨hok.1, hok.2.1.trans ha.version.le,
        fun hv => absurd hv (hok.2.1.trans_lt ha.version).ne⟩
    | projectChanged files revision =>
      refine ⟨hok.1, fun _ p hp => ?_⟩
      rw [hexpected, apply_editOf (hnamed p hp)]
      exact hok.2 (by simp [hsettled]) p (dirty_of_subset (ha.online honline).2 hp)
    | _ => trivial

theorem sendRuntime_open (socket : Socket) (revision : Option ℕ) {v : ℕ}
    (hv : versionOf m = some v) (hq : RuntimeSocket.queueable m = true)
    (hsize : oversized m = false) :
    socket.sendRuntime revision true m = (some (withBase revision m),
      { socket with unacknowledged := socket.unacknowledged.set v (withBase revision m) }) := by
  have hremember := remember_eq socket ((versionOf_withBase revision m).trans hv)
    ((queueable_withBase revision m).trans hq)
  simp [Socket.sendRuntime, oversized_withBase, hsize, hremember]

theorem sendRuntime_oversized (socket : Socket) (revision : Option ℕ) {v : ℕ}
    (hv : versionOf m = some v) (hq : RuntimeSocket.queueable m = true)
    (hsize : oversized m = true) :
    socket.sendRuntime revision true m = (none,
      { socket with unacknowledged := socket.unacknowledged.set v (withBase revision m) }) := by
  have hremember := remember_eq socket ((versionOf_withBase revision m).trans hv)
    ((queueable_withBase revision m).trans hq)
  simp [Socket.sendRuntime, oversized_withBase, hsize, hremember]

theorem sendRuntime_away (socket : Socket) (revision : Option ℕ) {v : ℕ}
    (hv : versionOf m = some v) (hq : RuntimeSocket.queueable m = true)
    (hsize : oversized m = false) :
    socket.sendRuntime revision false m = (none, Socket.enqueue
      { socket with unacknowledged := socket.unacknowledged.set v (withBase revision m) }
      (withBase revision m)) := by
  have hremember := remember_eq socket ((versionOf_withBase revision m).trans hv)
    ((queueable_withBase revision m).trans hq)
  simp [Socket.sendRuntime, oversized_withBase, queueable_withBase, hsize, hq, hremember]

theorem spared_withBase (revision : Option ℕ) (pending : List RuntimeClientMessage) :
    spared (withBase revision m) pending = spared m pending := by
  cases m <;> rfl

theorem enqueue_eq {socket : Socket} (hroom : (spared m socket.pending).length < queueLimit) :
    socket.enqueue m = { socket.coalesce m with pending := spared m socket.pending ++ [m] } := by
  simp only [Socket.enqueue, coalesce_spared]
  rw [if_neg (by omega)]

theorem Inv.fresh (h : Inv session s) {w : ℕ} {x : RuntimeClientMessage}
    (hx : (w, x) ∈ s.client.socket.unacknowledged) : w ≠ s.client.version + 1 := by
  have := h.bounded w x hx
  omega

theorem appended_online (h : Inv session s) (honline : s.online = true) {i : Intent}
    (hi : Intended session s.client i) :
    let m := withBase s.client.revisionRef (i.message (s.client.version + 1))
    Appended session s { s.client with
      version := s.client.version + 1
      files := i.files
      socket := { s.client.socket with
        unacknowledged := s.client.socket.unacknowledged.set (s.client.version + 1) m } }
      (s.inbox ++ [m]) (todo s) m := by
  have hpending := (h.online honline).1
  refine ⟨Nat.lt_succ_self _, ?_, ?_, List.Sublist.refl _, fun _ => rfl, mem_set_self _ _ _,
    fun x _ w _ hx => mem_set_of_ne hx (h.fresh hx), fun w x hx => mem_of_mem_set hx, ?_,
    hi.mirrored, fun _ => ⟨hpending, fun w x hx => mem_set_of_ne hx (h.fresh hx)⟩, ?_⟩
  · rw [versionOf_withBase]
    exact hi.versioned _
  · simp [todo, hpending]
  · rw [editOf_withBase]
    exact hi.content _
  · intro hoff
    rw [honline] at hoff
    cases hoff

theorem Inv.versions_nodup (h : Inv session s) : ((todo s).map versionOf).Nodup := by
  refine List.pairwise_map.mpr (h.ascending.imp_of_mem fun {x y} hx hy hlt heq => ?_)
  obtain ⟨v, -, hv, -⟩ := h.versioned x hx
  exact lt_irrefl v (hlt v hv v (heq ▸ hv))

theorem appended_away (h : Inv session s) (honline : s.online = false) {i : Intent}
    (hi : Intended session s.client i) :
    let m := withBase s.client.revisionRef (i.message (s.client.version + 1))
    (spared m s.client.socket.pending).length < queueLimit →
    Appended session s { s.client with
      version := s.client.version + 1
      files := i.files
      socket := Socket.enqueue { s.client.socket with
        unacknowledged := s.client.socket.unacknowledged.set (s.client.version + 1) m } m }
      s.inbox (s.inbox ++ spared m s.client.socket.pending) m := by
  intro m hroom
  have hversion : versionOf m = some (s.client.version + 1) :=
    (versionOf_withBase _ _).trans (hi.versioned _)
  set noted : Socket := { s.client.socket with
    unacknowledged := s.client.socket.unacknowledged.set (s.client.version + 1) m } with hnoted
  have hsocket : noted.enqueue m =
      { noted.coalesce m with pending := spared m s.client.socket.pending ++ [m] } :=
    enqueue_eq hroom
  have hcoalesce := coalesce_spec noted m
  have hdistinct : ∀ queued, noted.pending.Perm (queued :: (noted.coalesce m).pending) →
      queued ∈ todo s ∧
        ∀ x ∈ s.inbox ++ spared m s.client.socket.pending, versionOf x ≠ versionOf queued := by
    intro queued hperm
    rw [coalesce_spared] at hperm
    have hall : (todo s).Perm (queued :: (s.inbox ++ spared m s.client.socket.pending)) :=
      (hperm.append_left s.inbox).trans List.perm_middle
    refine ⟨hall.symm.subset List.mem_cons_self, fun x hx heq => ?_⟩
    have hnodup := ((hall.map versionOf).nodup_iff).mp h.versions_nodup
    exact (List.nodup_cons.mp hnodup).1 (heq ▸ List.mem_map_of_mem hx)
  refine ⟨Nat.lt_succ_self _, hversion, ?_, ?_, fun f => ?_, ?_, ?_, ?_, ?_, hi.mirrored, ?_,
    fun _ => rfl⟩
  · simp [hsocket]
  · exact List.Sublist.append_left (spared_sublist m _) _
  · simp only [todo, List.map_append, applyAll_append]
    exact applyAll_spared m _ _
  · simp only [hsocket]
    rcases hcoalesce with heq | ⟨queued, hperm, hkeep, -⟩
    · rw [heq]
      exact mem_set_self _ _ _
    · refine hkeep _ _ (mem_set_self _ _ _) fun heq => ?_
      have := h.bound (hdistinct queued hperm).1 heq.symm
      omega
  · intro x hx w hw hmem
    simp only [hsocket]
    rcases hcoalesce with heq | ⟨queued, hperm, hkeep, -⟩
    · rw [heq]
      exact mem_set_of_ne hmem (h.fresh hmem)
    · exact hkeep _ _ (mem_set_of_ne hmem (h.fresh hmem)) fun heq =>
        (hdistinct queued hperm).2 x hx (hw.trans heq)
  · intro w x hx
    simp only [hsocket] at hx
    rcases hcoalesce with heq | ⟨queued, -, -, hsub⟩
    · rw [heq] at hx
      exact mem_of_mem_set hx
    · exact mem_of_mem_set (hsub w x hx)
  · rw [editOf_withBase]
    exact hi.content _
  · intro hon
    rw [honline] at hon
    cases hon

theorem inv_operate (h : Inv session s) {op : Operation}
    (hsmooth : Smooth session texts initialSource s (.operate op)) :
    Inv session (stepOperate session s op) := by
  simp only [stepOperate]
  cases hintent : intent session s.client op with
  | none => exact h
  | some i =>
    obtain ⟨hsettled, hsize, hroom⟩ := hsmooth i hintent
    have hi := intended h.mirrored hintent
    have hv := hi.versioned (s.client.version + 1)
    have hq := hi.queueable (s.client.version + 1)
    cases honline : s.online with
    | true =>
      have hnext := h.append hsettled (appended_online h honline hi)
      simp only [appended, editOf_withBase, isReset_withBase] at hnext
      simpa [sendWhile, sendRuntime_open _ _ hv hq hsize, honline] using hnext
    | false =>
      rw [coalesce_spared] at hroom
      have hnext := h.append hsettled (appended_away h honline hi (by
        rw [spared_withBase]
        exact hroom.resolve_left (by simp [honline])))
      simp only [appended, editOf_withBase, isReset_withBase] at hnext
      simpa [sendWhile, sendRuntime_away _ _ hv hq hsize, honline] using hnext

/-! ## What is handled and delivered -/

theorem refreshed_ok (hl : session.Listing s.snapshot) {snapshot : Snapshot}
    (h : refreshed session s.snapshot = .ok snapshot) :
    session.Listing snapshot ∧ contentOf snapshot.files = contentOf s.snapshot.files := by
  simp only [refreshed] at h
  split_ifs at h
  · cases h
    exact ⟨hl, rfl⟩
  · exact ⟨hl.listed.listing h, contentOf_commit hl.listed.nodup h⟩

theorem performed (hl : session.Listing s.snapshot) {snapshot : Snapshot}
    (h : perform session texts s.snapshot m = .ok snapshot) :
    session.Listing snapshot ∧ versionOf m = some snapshot.version ∧
      (isReset m = false →
        contentOf snapshot.files = (editOf m).apply (contentOf s.snapshot.files)) := by
  obtain ⟨read, hread, htaken⟩ := Session.bind_eq_ok h
  obtain ⟨hlread, hcontent⟩ := refreshed_ok hl hread
  refine ⟨listing_of_taken hlread htaken, version_taken htaken, fun hm => ?_⟩
  rw [contentOf_taken hlread htaken hm, hcontent]

theorem handleMessage_of_takes {fails : Bool} (htakes : Takes session texts s m fails) :
    ∃ snapshot, perform session texts s.snapshot m = .ok snapshot ∧
      handleMessage session texts s m fails = accept session s m snapshot := by
  obtain ⟨hvalid, hbase, hperform, rfl⟩ := htakes
  cases hv : validate m with
  | error e =>
    rw [hv] at hvalid
    cases hvalid
  | ok _ =>
    cases hb : checkBase session s m with
    | error e =>
      rw [hb] at hbase
      cases hbase
    | ok _ =>
      cases hp : perform session texts s.snapshot m with
      | error e =>
        rw [hp] at hperform
        cases hperform
      | ok snapshot => exact ⟨snapshot, rfl, by simp [handleMessage, hv, hb, hp]⟩

/-- What the sender of a message is told. -/
def answers (session : Session) (s : State) (m : RuntimeClientMessage) (snapshot : Snapshot) :
    List ServerEvent := catalogFor snapshot m ++ (acknowledge session s m).1

theorem mem_answers {snapshot : Snapshot} {event : ServerEvent}
    (h : event ∈ answers session s m snapshot) :
    (event = .projectFiles snapshot.version snapshot.files) ∨
      (event = .documentSaved ((versionOf m).getD 0)) ∨
      (isCatalog event = false ∧ ∀ t, EventOk session t event) := by
  rcases List.mem_append.mp h with hcatalog | hack
  · cases m <;> simp only [catalogFor, List.not_mem_nil, List.mem_singleton] at hcatalog <;>
      exact .inl hcatalog
  · simp only [acknowledge] at hack
    split at hack
    · exact .inr (.inl (List.mem_singleton.mp hack))
    · split at hack
      · rcases List.mem_cons.mp hack with rfl | hack
        · exact .inr (.inr ⟨rfl, fun _ => trivial⟩)
        · exact .inr (.inl (List.mem_singleton.mp hack))
      · rw [List.mem_singleton.mp hack]
        exact .inr (.inr ⟨rfl, fun _ => trivial⟩)

theorem isCatalog_answers {snapshot : Snapshot} {event : ServerEvent}
    (h : event ∈ answers session s m snapshot) : isCatalog event = false := by
  rcases mem_answers h with rfl | rfl | ⟨hevent, -⟩
  · rfl
  · rfl
  · exact hevent

theorem mem_catalogFor (snapshot : Snapshot) (hm : isReset m = true) :
    .projectFiles snapshot.version snapshot.files ∈ answers session s m snapshot := by
  cases m with
  | workspaceReset => exact List.mem_append_left _ (List.mem_singleton_self _)
  | _ => cases hm

theorem accept_eq (s : State) (m : RuntimeClientMessage) (snapshot : Snapshot) :
    accept session s m snapshot = { s with
      snapshot := snapshot
      collab := (acknowledge session s m).2
      reset := if isReset m then .answered else s.reset
      outbox := if s.online then s.outbox ++ answers session s m snapshot else s.outbox } := by
  simp only [accept, State.say, answers]
  split_ifs <;> rfl

theorem Inv.mem_outbox (h : Inv session s) {event : ServerEvent} (hevent : event ∈ s.outbox) :
    s.online = true := by
  by_contra hoff
  rw [(h.offline (by simpa using hoff)).1] at hevent
  cases hevent

/-- A message that is taken leaves what is expected as it is. -/
theorem inv_accept (h : Inv session s) {rest : List RuntimeClientMessage}
    (hinbox : s.inbox = m :: rest) {snapshot : Snapshot}
    (hperform : perform session texts s.snapshot m = .ok snapshot) :
    Inv session (accept session { s with inbox := rest } m snapshot) := by
  obtain ⟨hl, hversion, hcontent⟩ := performed h.listing hperform
  rw [accept_eq]
  set t : State := { s with
    inbox := rest
    snapshot := snapshot
    collab := (acknowledge session { s with inbox := rest } m).2
    reset := if isReset m then .answered else s.reset
    outbox := if s.online then s.outbox ++ answers session { s with inbox := rest } m snapshot
      else s.outbox } with ht
  have htodo : todo s = m :: todo t := by simp [todo, hinbox, ht]
  have hmem : m ∈ todo s := htodo ▸ List.mem_cons_self
  have hsub : ∀ x ∈ todo t, x ∈ todo s := fun x hx => htodo ▸ List.mem_cons_of_mem _ hx
  have hascending := h.ascending
  rw [htodo] at hascending
  obtain ⟨hafter, hascending⟩ := List.pairwise_cons.mp hascending
  have hbound : snapshot.version ≤ s.client.version := h.bound hmem hversion
  have hreset : isReset m = true → todo t = [] ∧ snapshot.version = s.client.version := by
    intro hm
    obtain ⟨hnil, -, hlast⟩ := h.last [] m (todo t) htodo hm
    exact ⟨hnil, Option.some.inj (hversion.symm.trans hlast)⟩
  have hunanswered : s.reset ≠ .answered := fun hanswered => by
    rw [(h.answered hanswered).1] at hmem
    cases hmem
  have hexpected : isReset m = false → expected t = expected s := by
    intro hm
    simp only [expected, htodo, List.map_cons, applyAll_cons, ← hcontent hm]
    rfl
  have houtbox : ∀ event ∈ t.outbox, event ∈ s.outbox ∨
      event ∈ answers session { s with inbox := rest } m snapshot := by
    intro event hevent
    simp only [ht] at hevent
    split_ifs at hevent
    · exact List.mem_append.mp hevent
    · exact .inl hevent
  refine ⟨hl, h.mirrored, h.online, fun hoff => ?_, hascending, fun x hx => h.versioned x (hsub x hx),
    h.bounded, fun before x after heq hx => ?_, fun hphase => ?_, fun hphase => ?_,
    fun event hevent => ?_, ?_⟩
  · obtain ⟨hempty, -, hnoreset⟩ := h.offline hoff
    rw [hinbox] at hnoreset
    have hoff' : s.online = false := hoff
    refine ⟨by simp [ht, hoff', hempty], ?_, fun x hx => hnoreset x (List.mem_cons_of_mem _ hx)⟩
    rw [ht]
    simpa [hnoreset m List.mem_cons_self] using hunanswered
  · obtain ⟨hnil, hsent, hlast⟩ := h.last (m :: before) x after (by rw [htodo, heq]; rfl) hx
    refine ⟨hnil, ?_, hlast⟩
    have hm : isReset m = false := by
      by_contra hm
      rw [(hreset (by simpa using hm)).1] at heq
      simp at heq
    simpa [ht, hm] using hsent
  · have hm : isReset m = false := by
      by_contra hm
      exact hphase (by simp [ht, hm])
    rw [hexpected hm]
    exact h.agree hunanswered
  · have hm : isReset m = true := by
      by_contra hm
      exact hunanswered (by simpa [ht, hm] using hphase)
    have honline : s.online = true := by
      by_contra hoff
      have := (h.offline (by simpa using hoff)).2.2 m (hinbox ▸ List.mem_cons_self)
      rw [hm] at this
      cases this
    obtain ⟨hnil, heq⟩ := hreset hm
    refine ⟨hnil, snapshot.files, ?_⟩
    simp only [ht, honline, if_true]
    exact List.mem_append_right _ (heq ▸ mem_catalogFor snapshot hm)
  · rcases houtbox event hevent with hold | hnew
    · have hok := h.events event hold
      cases event with
      | documentSaved v => exact ⟨hok.1, fun x hx => hok.2 x (hsub x hx)⟩
      | projectFiles v files =>
        refine ⟨hok.1, hok.2.1, fun hv => ?_⟩
        rw [(hok.2.2 hv).1] at hmem
        cases hmem
      | projectChanged files revision =>
        refine ⟨hok.1, fun hphase => ?_⟩
        have hm : isReset m = false := by
          by_contra hm
          exact hphase (by simp [ht, hm])
        rw [hexpected hm]
        exact hok.2 hunanswered
      | _ => trivial
    · rcases mem_answers hnew with rfl | rfl | ⟨-, hok⟩
      · refine ⟨mirrored_of_listing hl, hbound, fun heq => ⟨?_, rfl⟩⟩
        refine List.eq_nil_iff_forall_not_mem.mpr fun x hx => ?_
        obtain ⟨v, hle, hv, -⟩ := h.versioned x (hsub x hx)
        have hlt := hafter x hx snapshot.version hversion v hv
        have heq' : snapshot.version = s.client.version := heq
        omega
      · refine ⟨?_, fun x hx w hw => ?_⟩
        · rw [hversion]
          exact hbound
        · rw [hversion]
          exact hafter x hx _ hversion w hw
      · exact hok t
  · simp only [ht]
    split_ifs
    · refine List.pairwise_append.mpr ⟨h.ordered, ?_, ?_⟩
      · exact List.pairwise_of_forall_mem_list fun a _ b hb hcatalog => by
          rw [isCatalog_answers hb] at hcatalog
          cases hcatalog
      · intro a _ b hb hcatalog
        rw [isCatalog_answers hb] at hcatalog
        cases hcatalog
    · exact h.ordered

theorem inv_handle (h : Inv session s) {fails : Bool}
    (hsmooth : Smooth session texts initialSource s (.handle fails)) :
    Inv session (next session texts initialSource s (.handle fails)) := by
  simp only [next]
  split
  · exact h
  next m rest hinbox =>
    obtain ⟨snapshot, hperform, heq⟩ :=
      handleMessage_of_takes (s := { s with inbox := rest }) (hsmooth m (by simp [hinbox]))
    rw [heq]
    exact inv_accept h hinbox hperform

theorem contentOf_filter (p : String → Bool) (files : List ProjectFile) (x : String) :
    contentOf (files.filter fun f => p f.path) x = if p x then contentOf files x else none := by
  induction files with
  | nil => simp [contentOf]
  | cons f files ih =>
    rw [List.filter_cons, contentOf_cons]
    by_cases hx : f.path = x
    · subst hx
      by_cases hp : p f.path = true
      · simp [hp, contentOf_cons]
      · simp [hp, ih]
    · by_cases hp : p f.path = true
      · simp [hp, contentOf_cons, hx, ih]
      · simp [hp, ih, hx]

theorem contentOf_append (left right : List ProjectFile) (x : String) :
    contentOf (left ++ right) x = (contentOf left x).or (contentOf right x) := by
  simp only [contentOf, List.find?_append]
  cases left.find? fun f => f.path = x <;> rfl

/-- A catalog from the server is taken where no work is unsaved. -/
theorem contentOf_keepLocal (socket : Socket) (mirror files : List ProjectFile) (x : String) :
    contentOf (socket.keepLocal mirror files) x =
      if socket.dirty x then contentOf mirror x else contentOf files x := by
  simp only [Socket.keepLocal]
  split_ifs with hempty hdirty hdirty
  · obtain ⟨entry, hentry, -⟩ := List.any_eq_true.mp hdirty
    rw [List.isEmpty_iff.mp hempty] at hentry
    cases hentry
  · rfl
  · rw [contentOf_append, contentOf_filter (fun p => !socket.dirty p), contentOf_filter]
    simp [hdirty]
  · rw [contentOf_append, contentOf_filter (fun p => !socket.dirty p), contentOf_filter]
    simp [hdirty]

theorem mirrored_keepLocal {socket : Socket} {mirror files : List ProjectFile}
    (hmirror : Mirrored session mirror) (hfiles : Mirrored session files) :
    Mirrored session (socket.keepLocal mirror files) := by
  simp only [Socket.keepLocal]
  split_ifs
  · exact hfiles
  · refine ⟨?_, ?_⟩
    · rw [List.map_append, List.nodup_append]
      refine ⟨hfiles.nodup.sublist (List.Sublist.map _ List.filter_sublist),
        hmirror.nodup.sublist (List.Sublist.map _ List.filter_sublist), ?_⟩
      rintro p hp q hq rfl
      obtain ⟨f, hf, rfl⟩ := List.mem_map.mp hp
      obtain ⟨g, hg, hgp⟩ := List.mem_map.mp hq
      have hclean := (List.mem_filter.mp hf).2
      have hdirty := (List.mem_filter.mp hg).2
      rw [hgp] at hdirty
      simp [hdirty] at hclean
    · by_cases hdirty : socket.dirty session.entryPath = true
      · obtain ⟨f, hf, hpath⟩ := hmirror.entry
        exact ⟨f, List.mem_append_right _ (List.mem_filter.mpr ⟨hf, by rw [hpath, hdirty]⟩), hpath⟩
      · obtain ⟨f, hf, hpath⟩ := hfiles.entry
        exact ⟨f, List.mem_append_left _ (List.mem_filter.mpr ⟨hf, by simp [hpath, hdirty]⟩), hpath⟩

/-- An event that leaves the mirror and the socket alone. -/
theorem Inv.drop (h : Inv session s) {event : ServerEvent} {events : List ServerEvent}
    (houtbox : s.outbox = event :: events) {c : Client} (hfiles : c.files = s.client.files)
    (hversion : c.version = s.client.version) (hsocket : c.socket = s.client.socket)
    (hother : s.reset = .answered → ∀ files, event ≠ .projectFiles s.client.version files) :
    Inv session { s with client := c, outbox := events } := by
  have honline : s.online = true := h.mem_outbox (houtbox ▸ List.mem_cons_self)
  have hordered := h.ordered
  rw [houtbox] at hordered
  refine ⟨h.listing, hfiles ▸ h.mirrored, ?_, fun hoff => ?_, ?_, ?_, ?_, ?_, ?_, ?_, ?_,
    (List.pairwise_cons.mp hordered).2⟩
  · simpa only [hsocket] using h.online
  · simp [honline] at hoff
  · simpa only [todo, hsocket] using h.ascending
  · simpa only [todo, hsocket, hversion] using h.versioned
  · simpa only [hsocket, hversion] using h.bounded
  · simpa only [todo, hsocket, hversion] using h.last
  · simpa only [expected, todo, hsocket, hfiles] using h.agree
  · intro hphase
    obtain ⟨hnil, files, hmem⟩ := h.answered hphase
    rw [houtbox] at hmem
    refine ⟨by simpa only [todo, hsocket] using hnil, files, ?_⟩
    rw [hversion]
    exact (List.mem_cons.mp hmem).resolve_left fun heq => hother hphase files heq.symm
  · intro x hx
    have hok := h.events x (houtbox ▸ List.mem_cons_of_mem _ hx)
    cases x with
    | documentSaved | projectFiles | projectChanged =>
      simpa only [EventOk, expected, todo, hsocket, hversion] using hok
    | _ => trivial

theorem Inv.no_catalog (h : Inv session s) {event : ServerEvent} {events : List ServerEvent}
    (houtbox : s.outbox = event :: events) (hsettles : settles event = true) :
    ∀ x ∈ events, isCatalog x = false := by
  intro x hx
  have hordered := h.ordered
  rw [houtbox] at hordered
  by_contra hcatalog
  have := (List.pairwise_cons.mp hordered).1 x hx (by simpa using hcatalog)
  rw [hsettles] at this
  cases this

theorem inv_saved (h : Inv session s) {v : ℕ} {events : List ServerEvent}
    (houtbox : s.outbox = .documentSaved v :: events) :
    Inv session { s with
      client := { s.client with socket := s.client.socket.saved v }
      outbox := events } := by
  have honline : s.online = true := h.mem_outbox (houtbox ▸ List.mem_cons_self)
  have hsaved := h.events _ (houtbox ▸ List.mem_cons_self)
  have hordered := h.ordered
  rw [houtbox] at hordered
  refine ⟨h.listing, h.mirrored, h.online, fun hoff => ?_, h.ascending, ?_, ?_, h.last, h.agree,
    fun hphase => ?_, fun x hx => ?_, (List.pairwise_cons.mp hordered).2⟩
  · simp [honline] at hoff
  · intro x hx
    obtain ⟨w, hle, hw, hmem⟩ := h.versioned x hx
    exact ⟨w, hle, hw, mem_saved hmem (hsaved.2 x hx w hw)⟩
  · exact fun w x hx => h.bounded w x (List.mem_of_mem_filter hx)
  · obtain ⟨hnil, files, hmem⟩ := h.answered hphase
    rw [houtbox] at hmem
    exact ⟨hnil, files, (List.mem_cons.mp hmem).resolve_left (by simp)⟩
  · have hok := h.events x (houtbox ▸ List.mem_cons_of_mem _ hx)
    cases x with
    | projectChanged files revision =>
      have := h.no_catalog houtbox rfl _ hx
      cases this
    | documentSaved | projectFiles => exact hok
    | _ => trivial

theorem inv_projectChanged (h : Inv session s) {files : List ProjectFile} {revision : ℕ}
    {events : List ServerEvent} (houtbox : s.outbox = .projectChanged files revision :: events)
    {c : Client} (hfiles : c.files = s.client.socket.keepLocal s.client.files files)
    (hversion : c.version = s.client.version) (hsocket : c.socket = s.client.socket) :
    Inv session { s with client := c, outbox := events } := by
  have honline : s.online = true := h.mem_outbox (houtbox ▸ List.mem_cons_self)
  obtain ⟨hmirrored, hclean⟩ := h.events _ (houtbox ▸ List.mem_cons_self)
  have hdrop := h.drop houtbox (c := { c with files := s.client.files }) rfl hversion hsocket
    fun _ _ => by simp
  refine ⟨h.listing, hfiles ▸ mirrored_keepLocal h.mirrored hmirrored, hdrop.online, hdrop.offline,
    hdrop.ascending, hdrop.versioned, hdrop.bounded, hdrop.last, fun hphase => ?_, hdrop.answered,
    hdrop.events, hdrop.ordered⟩
  have hagree := hdrop.agree hphase
  have hstale : s.stale = [] := (h.online honline).2
  simp only [hstale, agreeOff_nil_iff] at hagree ⊢
  funext p
  rw [hfiles, contentOf_keepLocal]
  split_ifs with hdirty
  · exact congrFun hagree p
  · have := hclean hphase p (by simpa using hdirty)
    simpa only [expected, todo, hsocket] using this

theorem inv_projectFiles (h : Inv session s) {files : List ProjectFile} {events : List ServerEvent}
    (houtbox : s.outbox = .projectFiles s.client.version files :: events) :
    Inv session { s with
      client := { s.client with files := files }
      outbox := events
      reset := if s.reset = .answered then .settled else s.reset } := by
  have honline : s.online = true := h.mem_outbox (houtbox ▸ List.mem_cons_self)
  obtain ⟨hmirrored, -, hcurrent⟩ := h.events _ (houtbox ▸ List.mem_cons_self)
  obtain ⟨hnil, hcontent⟩ := hcurrent rfl
  have hordered := h.ordered
  rw [houtbox] at hordered
  have hphase : (if s.reset = .answered then ResetPhase.settled else s.reset) ≠ .answered := by
    split_ifs with hphase
    · simp
    · exact hphase
  refine ⟨h.listing, hmirrored, h.online, fun hoff => ?_, h.ascending, h.versioned, h.bounded,
    fun before x after heq => ?_, fun _ => ?_, fun h' => absurd h' hphase, fun x hx => ?_,
    (List.pairwise_cons.mp hordered).2⟩
  · simp [honline] at hoff
  · have heq' : todo s = before ++ x :: after := heq
    rw [hnil] at heq'
    simp at heq'
  · have hstale : s.stale = [] := (h.online honline).2
    simp only [hstale, agreeOff_nil_iff, hcontent, expected]
    change _ = applyAll ((todo s).map editOf) _
    rw [hnil]
    rfl
  · have hok := h.events x (houtbox ▸ List.mem_cons_of_mem _ hx)
    cases x with
    | projectChanged files revision =>
      have := h.no_catalog houtbox rfl _ hx
      cases this
    | documentSaved | projectFiles => exact hok
    | _ => trivial

theorem inv_deliver (h : Inv session s) : Inv session (stepDeliver s) := by
  simp only [stepDeliver]
  split
  · exact h
  next event events houtbox =>
    cases event with
    | documentSaved v => simpa [Client.onMessage] using inv_saved h houtbox
    | projectChanged files revision =>
      simp only [Client.onMessage, Client.handleRuntimeEvent, Bool.false_and, Bool.false_eq_true,
        if_false]
      split_ifs
      · exact h.drop houtbox rfl rfl rfl fun _ _ => by simp
      · exact inv_projectChanged h houtbox rfl rfl rfl
    | projectFiles v files =>
      by_cases hv : v = s.client.version
      · subst hv
        simpa [Client.onMessage, Client.handleRuntimeEvent] using inv_projectFiles h houtbox
      · have hdrop := h.drop houtbox (c := s.client) rfl rfl rfl fun _ _ heq =>
          hv (ServerEvent.projectFiles.inj heq).1
        simpa [Client.onMessage, Client.handleRuntimeEvent, hv, Ne.symm hv] using hdrop
    | documentChanged path source revision =>
      simp only [Client.onMessage, Client.handleRuntimeEvent, Bool.false_and, Bool.false_eq_true,
        if_false]
      split_ifs
      · exact h.drop houtbox rfl rfl rfl fun _ _ => by simp
      · exact h.drop houtbox rfl rfl rfl fun _ _ => by simp
      · exact h.drop houtbox rfl rfl rfl fun _ _ => by simp
    | _ =>
      simp only [Bool.false_and, Bool.false_eq_true, if_false]
      exact h.drop houtbox rfl rfl rfl fun _ _ => by simp

/-! ## The socket dies and comes back -/

theorem inv_cut (h : Inv session s) (honline : s.online = true) {kept : ℕ}
    (hsmooth : Smooth session texts initialSource s (.cut kept)) :
    Inv session (stepCut session s kept) := by
  obtain ⟨hunanswered, hnoreset, hlost⟩ := hsmooth
  obtain ⟨hpending, hstale⟩ := h.online honline
  have htodo : todo (stepCut session s kept) = s.inbox.take kept := by
    simp [todo, stepCut, hpending]
  have hall : todo s = s.inbox.take kept ++ s.inbox.drop kept := by simp [todo, hpending]
  have hsub : ∀ x ∈ todo (stepCut session s kept), x ∈ todo s := fun x hx =>
    hall ▸ List.mem_append_left _ (htodo ▸ hx)
  have hphase : (stepCut session s kept).reset ≠ .answered := by
    simp only [stepCut]
    split_ifs
    · simp
    · exact hunanswered
  refine ⟨h.listing, h.mirrored, nofun, fun _ => ⟨rfl, hphase, hnoreset⟩, ?_,
    fun x hx => h.versioned x (hsub x hx), h.bounded, fun before x after heq hx => ?_, fun _ => ?_,
    fun h' => absurd h' hphase, nofun, List.Pairwise.nil⟩
  · have hascending := h.ascending
    rw [hall] at hascending
    rw [htodo]
    exact (List.pairwise_append.mp hascending).1
  · have hmem : x ∈ s.inbox.take kept := by
      rw [← htodo, heq]
      simp
    rw [hnoreset x hmem] at hx
    cases hx
  · have hagree := h.agree hunanswered
    rw [hstale, agreeOff_nil_iff, expected, hall, List.map_append, applyAll_append] at hagree
    change AgreeOff _ (contentOf s.client.files) _
    rw [hagree, expected, htodo]
    refine agreeOff_of_overwrites (fun e he => ?_) _
    obtain ⟨x, hx, rfl⟩ := List.mem_map.mp he
    rcases hlost x hx with hupdate | hreset
    · obtain ⟨path, hpath⟩ := Option.isSome_iff_exists.mp hupdate
      obtain ⟨version, source, base, rfl⟩ := documentUpdate_of_updatedPath hpath
      exact .inr ⟨path, List.mem_filterMap.mpr ⟨_, hx, rfl⟩, source, rfl⟩
    · cases x with
      | workspaceReset => exact .inl rfl
      | _ => cases hreset

/-- A file that is on screen is pushed as it is there. -/
theorem pushed_content (h : Mirrored session s.client.files) (version : ℕ) (base : Option ℕ) :
    (editOf (.documentUpdate version session.entryPath
      (mainSource session initialSource s.client) base)).apply (contentOf s.client.files) =
      contentOf s.client.files := by
  obtain ⟨f, hf, hpath⟩ := h.entry
  funext p
  simp only [editOf, KeyedEdit.apply]
  split_ifs with hp
  · subst hp
    have hsome := (contentOf_eq_some h.nodup).mpr ⟨f, hf, hpath, rfl⟩
    have hmain : mainSource session initialSource s.client = f.source := by
      simp only [contentOf] at hsome
      simp only [mainSource, hsome, Option.getD_some]
    rw [hsome, hmain]
    rfl
  · rfl

/-- What the `open` handler makes of the client, before the queue goes out. -/
def entryUpdate (session : Session) (initialSource : String) (s : State) : RuntimeClientMessage :=
  withBase s.client.revisionRef (.documentUpdate (max (s.client.version + 1) 2) session.entryPath
    (mainSource session initialSource s.client) s.client.revisionRef)

def entryClient (session : Session) (initialSource : String) (s : State) : Client :=
  { s.client with
    version := max (s.client.version + 1) 2
    socket := { s.client.socket with
      unacknowledged := s.client.socket.unacknowledged.set (max (s.client.version + 1) 2)
        (entryUpdate session initialSource s) } }

theorem flush_eq (session : Session) (initialSource : String) (s : State) :
    flush session initialSource s =
      if pushes session initialSource s then
        (s.client.socket.pending ++ (if oversized (entryUpdate session initialSource s) then []
          else [entryUpdate session initialSource s]),
          { entryClient session initialSource s with socket :=
            { (entryClient session initialSource s).socket with pending := [] } })
      else (s.client.socket.pending,
        { s.client with socket := { s.client.socket with pending := [] } }) := by
  by_cases hpush : pushes session initialSource s = true
  · simp only [flush, hpush, if_true]
    set m := RuntimeClientMessage.documentUpdate (max (s.client.version + 1) 2) session.entryPath
      (mainSource session initialSource s.client) s.client.revisionRef with hm
    have hsame : oversized (entryUpdate session initialSource s) = oversized m :=
      oversized_withBase _ _
    have hmain : mainSource session initialSource
        { s.client with socket := { s.client.socket with pending := [] } } =
        mainSource session initialSource s.client := rfl
    rw [hmain, ← hm, hsame]
    cases hsize : oversized m with
    | true =>
      rw [sendRuntime_oversized _ _ rfl rfl hsize]
      rfl
    | false =>
      rw [sendRuntime_open _ _ rfl rfl hsize]
      rfl
  · simp [flush, hpush]

theorem Inv.entry_fresh (h : Inv session s) {w : ℕ} {x : RuntimeClientMessage}
    (hx : (w, x) ∈ s.client.socket.unacknowledged) : w ≠ max (s.client.version + 1) 2 := by
  have := h.bounded w x hx
  omega

variable (initialSource) in
/-- An entry file too large to be sent is only noted. -/
theorem inv_noted (h : Inv session s) (hoff : s.online = false) (hsettled : s.reset = .settled) :
    Inv session { s with client := entryClient session initialSource s } := by
  have hversion : s.client.version ≤ (entryClient session initialSource s).version := by
    simp only [entryClient]
    omega
  refine ⟨h.listing, h.mirrored, fun honline => ?_, h.offline, h.ascending, fun x hx => ?_,
    fun w x hx => ?_, fun before x after heq hx => ?_, h.agree, fun hphase => ?_, ?_, h.ordered⟩
  · simp [hoff] at honline
  · obtain ⟨w, hle, hw, hmem⟩ := h.versioned x hx
    exact ⟨w, hle.trans hversion, hw, mem_set_of_ne hmem (h.entry_fresh hmem)⟩
  · rcases mem_of_mem_set hx with heq | hx
    · exact (Prod.ext_iff.mp heq).1.le
    · exact (h.bounded w x hx).trans hversion
  · have := h.no_reset (by simp [hsettled]) x (by
      rw [show todo s = before ++ x :: after from heq]
      simp)
    rw [hx] at this
    cases this
  · simp [hsettled] at hphase
  · simp [(h.offline hoff).1]

variable (initialSource) in
theorem appended_entry (h : Inv session s) (hoff : s.online = false) (hinbox : s.inbox = []) :
    Appended session s { entryClient session initialSource s with
      socket := { (entryClient session initialSource s).socket with
        pending := s.client.socket.pending ++ [entryUpdate session initialSource s] } }
      [] (todo s) (entryUpdate session initialSource s) := by
  refine ⟨?_, rfl, ?_, List.Sublist.refl _, fun _ => rfl, mem_set_self _ _ _,
    fun x _ w _ hx => mem_set_of_ne hx (h.entry_fresh hx), fun w x hx => mem_of_mem_set hx, ?_,
    h.mirrored, fun honline => ?_, fun _ => hinbox.symm⟩
  · simp only [entryClient]
    omega
  · simp [todo, hinbox]
  · exact (pushed_content h.mirrored _ _).symm
  · rw [hoff] at honline
    cases honline

theorem mem_attach {fails : Bool} {event : ServerEvent}
    (h : event ∈ (attach session s fails).1) :
    settles event = false ∧ ((∀ t, EventOk session t event) ∨
      ∃ snapshot revision, refreshed session s.snapshot = .ok snapshot ∧
        event = .projectChanged snapshot.files revision) := by
  simp only [attach] at h
  split at h
  · cases h
  · rcases List.mem_append.mp h with h | h
    · simp only [List.mem_cons, List.not_mem_nil, or_false] at h
      rcases h with rfl | rfl
      · exact ⟨rfl, .inl fun _ => trivial⟩
      · exact ⟨rfl, .inl fun _ => trivial⟩
    · split at h
      next snapshot hread h =>
        rw [List.mem_singleton.mp h]
        exact ⟨rfl, .inr ⟨snapshot, _, hread, rfl⟩⟩
      · cases h

/-- The queue goes out on a socket that hears nothing of before. -/
theorem inv_online (h : Inv session t) (hoff : t.online = false) (hinbox : t.inbox = [])
    (hstale : t.stale = []) (hsnapshot : t.snapshot = s.snapshot) (fails : Bool) :
    Inv session { t with
      client := { t.client with socket := { t.client.socket with pending := [] } }
      retry := 0
      online := true
      inbox := t.client.socket.pending
      outbox := (attach session s fails).1
      collab := (attach session s fails).2
      stale := [] } := by
  set u : State := { t with
    client := { t.client with socket := { t.client.socket with pending := [] } }
    retry := 0
    online := true
    inbox := t.client.socket.pending
    outbox := (attach session s fails).1
    collab := (attach session s fails).2
    stale := [] } with hu
  have htodo : todo u = todo t := by simp [hu, todo, hinbox]
  have hphase := (h.offline hoff).2.1
  have hexpected : expected u = expected t := by
    rw [expected, htodo]
    rfl
  refine ⟨h.listing, h.mirrored, fun _ => ⟨rfl, rfl⟩, nofun, htodo ▸ h.ascending,
    fun x hx => h.versioned x (htodo ▸ hx), h.bounded,
    fun before x after heq => h.last before x after (htodo ▸ heq), fun _ => ?_,
    fun h' => absurd h' hphase, fun event hevent => ?_, ?_⟩
  · rw [hexpected]
    have hagree := h.agree hphase
    rwa [hstale] at hagree
  · rcases (mem_attach hevent).2 with hok | ⟨snapshot, revision, hread, rfl⟩
    · exact hok u
    · rw [← hsnapshot] at hread
      obtain ⟨hl, hcontent⟩ := refreshed_ok h.listing hread
      refine ⟨mirrored_of_listing hl, fun _ p hp => ?_⟩
      rw [hexpected, expected, applyAll_editOf (fun x hx hpx => ?_), hcontent]
      obtain ⟨w, -, -, hmem⟩ := h.versioned x hx
      have hdirty : t.client.socket.dirty p = true := dirty_of_mem hmem hpx
      have hclean : t.client.socket.dirty p = false := hp
      rw [hdirty] at hclean
      cases hclean
  · exact List.pairwise_of_forall_mem_list fun a ha b _ _ => (mem_attach ha).1

theorem inv_open (h : Inv session s) (hoff : s.online = false) (hinbox : s.inbox = [])
    {fails : Bool} (hsmooth : Smooth session texts initialSource s (.open fails)) :
    Inv session (stepOpen session initialSource s fails) := by
  obtain ⟨hstale, hnopush⟩ := hsmooth
  by_cases hpush : pushes session initialSource s = true
  · have hsettled : s.reset = .settled := by
      have hunanswered := (h.offline hoff).2.1
      cases hphase : s.reset with
      | settled => rfl
      | sent =>
        rw [hnopush hphase] at hpush
        cases hpush
      | answered => exact absurd hphase hunanswered
    cases hsize : oversized (entryUpdate session initialSource s) with
    | true =>
      have hnext := inv_online (s := s) (inv_noted initialSource h hoff hsettled)
        hoff hinbox (by simpa [pushed, flush_eq, hpush, hsize] using hstale) rfl fails
      simpa [stepOpen, flush_eq, hpush, hsize, entryClient] using hnext
    | false =>
      have hfresh : (editOf (entryUpdate session initialSource s)).staleAfter s.stale = [] := by
        simpa [pushed, flush_eq, hpush, hsize] using hstale
      have hnext := inv_online (s := s)
        (h.append hsettled (appended_entry initialSource h hoff hinbox))
        hoff rfl hfresh rfl fails
      have hreset : isReset (entryUpdate session initialSource s) = false := rfl
      simpa [stepOpen, flush_eq, hpush, hsize, entryClient, appended, hreset] using hnext
  · have hnext := inv_online (s := s) h hoff hinbox
      (by simpa [pushed, flush_eq, hpush] using hstale) rfl fails
    simpa [stepOpen, flush_eq, hpush] using hnext

theorem inv_step (s : State) (a : Action) (h : Inv session s)
    (ha : ((machine session texts initialSource).restrict
      (Smooth session texts initialSource)).enabled s a) :
    Inv session ((machine session texts initialSource).next s a) := by
  obtain ⟨henabled, hsmooth⟩ := ha
  cases a with
  | operate op => exact inv_operate h hsmooth
  | look path focused =>
    exact ⟨h.listing, h.mirrored, h.online, h.offline, h.ascending, h.versioned, h.bounded, h.last,
      h.agree, h.answered, h.events, h.ordered⟩
  | handle fails => exact inv_handle h hsmooth
  | deliver => exact inv_deliver h
  | cut kept => exact inv_cut h henabled hsmooth
  | connectFails =>
    exact ⟨h.listing, h.mirrored, h.online, h.offline, h.ascending, h.versioned, h.bounded, h.last,
      h.agree, h.answered, h.events, h.ordered⟩
  | «open» fails => exact inv_open h henabled.1 henabled.2 hsmooth

end

/-- In every run whose steps are smooth, client and server agree whenever the socket is open
and nothing is in flight. -/
theorem reconnect_converges {session : Session} {texts : String → String} {initialSource : String}
    {snapshot : Snapshot} (hl : session.Listing snapshot) {s : State}
    (hrun : ((machine session texts initialSource).restrict
      (Smooth session texts initialSource)).Reaches (init session snapshot) s) :
    Converged s :=
  (hrun.invariant inv_step (inv_init hl)).converged

def twoFiles : List (String × String) := [("lib.zig", "old"), ("main.zig", "main")]

def scratchSession : Session := { zigSession with workspaceId := none }

theorem twoFiles_listing : zigSession.Listing (zigFiles twoFiles) :=
  zigFiles_listing (by decide) (by decide +kernel) "main" (by decide) (by decide)

theorem twoFiles_scratch : scratchSession.Listing (zigFiles twoFiles) where
  listed := ⟨twoFiles_listing.listed.nodup, twoFiles_listing.listed.uris,
    twoFiles_listing.listed.entry⟩
  sorted := twoFiles_listing.sorted
  main := twoFiles_listing.main

/-- The edit of the entry file is lost with the socket, and pushed when the next one opens. -/
theorem reconnect_converges_healing : ∃ s,
    ((machine scratchSession (fun _ => "") "main").restrict
      (Smooth scratchSession (fun _ => "") "main")).Reaches
        (init scratchSession (zigFiles twoFiles)) s ∧
    s.online = true ∧ s.inbox = [] ∧ s.outbox = [] ∧
    contentOf s.client.files "main.zig" = some "new" ∧
    contentOf s.snapshot.files = contentOf s.client.files := by
  obtain ⟨s, hrun, hs⟩ := Machine.exists_reaches_of_exec
    (M := (machine scratchSession (fun _ => "") "main").restrict
      (Smooth scratchSession (fun _ => "") "main"))
    (s := init scratchSession (zigFiles twoFiles))
    (l := [.open false, .operate (.change "new"), .cut 0, .operate (.create "new.zig"),
      .open false, .handle false, .handle false, .deliver, .deliver, .deliver])
    (p := fun s => decide (s.online = true ∧ s.inbox = [] ∧ s.outbox = [] ∧
      contentOf s.client.files "main.zig" = some "new"))
    (by decide +kernel)
  obtain ⟨honline, hinbox, houtbox, hnew⟩ := of_decide_eq_true hs
  exact ⟨s, hrun, honline, hinbox, houtbox, hnew,
    reconnect_converges twoFiles_scratch hrun honline hinbox houtbox⟩

/-- On a workspace nothing sends a lost edit again: it stays on screen, and nowhere else. -/
theorem reconnect_diverges : zigSession.Listing (zigFiles twoFiles) ∧ ∃ s,
    (machine zigSession (fun _ => "") "main").Reaches (init zigSession (zigFiles twoFiles)) s ∧
    s.online = true ∧ s.inbox = [] ∧ s.outbox = [] ∧ s.client.socket.pending = [] ∧
    contentOf s.snapshot.files ≠ contentOf s.client.files := by
  obtain ⟨s, hrun, hs⟩ := Machine.exists_reaches_of_exec
    (M := machine zigSession (fun _ => "") "main") (s := init zigSession (zigFiles twoFiles))
    (l := [.open false, .deliver, .deliver, .deliver, .operate (.change "new"), .cut 0,
      .open false, .deliver, .deliver, .deliver])
    (p := fun s => decide (s.online = true ∧ s.inbox = [] ∧ s.outbox = [] ∧
      s.client.socket.pending = [] ∧
      contentOf s.snapshot.files "main.zig" ≠ contentOf s.client.files "main.zig"))
    (by decide +kernel)
  obtain ⟨honline, hinbox, houtbox, hpending, hne⟩ := of_decide_eq_true hs
  exact ⟨twoFiles_listing, s, hrun, honline, hinbox, houtbox, hpending,
    fun heq => hne (congrFun heq "main.zig")⟩

end Atomis.Reconnect
