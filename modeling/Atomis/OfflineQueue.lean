import Atomis.Lib.Coalesce
import Atomis.PeerUpdate
import Atomis.StoreCall

/-!
# The offline queue

What a socket that is away has queued (`sendRuntime` of `useRuntimeSocket.ts`), and
what its replay makes of the files of a session. The disk does what it is asked:
the store is its snapshot. A message the store refuses leaves the snapshot alone.
-/

namespace Atomis.OfflineQueue
open Protocol RuntimeSocket Coalesce PeerUpdate

/-- The messages sent while the socket is away, each with the revision known then. -/
abbrev Sends := List (Option ℕ × RuntimeClientMessage)

def typed (sends : Sends) : List RuntimeClientMessage := sends.map fun e => withBase e.1 e.2

def away (s : Socket) (sends : Sends) : Socket :=
  sends.foldl (fun s e => (s.sendRuntime e.1 false e.2).2) s

/-! ## What is queued -/

def Others (path : String) (l : List RuntimeClientMessage) : Prop :=
  ∀ x ∈ l, updatedPath x ≠ none ∧ updatedPath x ≠ some path

theorem takeQueued_of_others {path : String} {l : List RuntimeClientMessage} (h : Others path l)
    (rest : List RuntimeClientMessage) :
    takeQueued path (l ++ rest) = ((takeQueued path rest).1, l ++ (takeQueued path rest).2) := by
  induction l with
  | nil => rfl
  | cons x l ih =>
    have hx := h x List.mem_cons_self
    rw [List.cons_append, takeQueued, ih fun y hy => h y (List.mem_cons_of_mem _ hy)]
    cases hp : updatedPath x with
    | none => exact absurd hp hx.1
    | some p => simp [show p ≠ path from fun heq => hx.2 (hp.trans (congrArg some heq))]

theorem takeQueued_of_not_others {path : String} {l : List RuntimeClientMessage}
    (h : ¬ Others path l) (rest : List RuntimeClientMessage) :
    takeQueued path (l ++ rest) = ((takeQueued path l).1, (takeQueued path l).2 ++ rest) := by
  induction l with
  | nil => exact absurd (fun x hx => by cases hx) h
  | cons x l ih =>
    rw [List.cons_append, takeQueued, takeQueued]
    cases hp : updatedPath x with
    | none => rfl
    | some p =>
      by_cases hpath : p = path
      · simp [hpath]
      · have hrest : ¬ Others path l := by
          intro hothers
          refine h fun y hy => ?_
          rcases List.mem_cons.mp hy with rfl | hy
          · simp [hp, hpath]
          · exact hothers y hy
        simp [hpath, ih hrest]

theorem takeQueued_reverse (path : String) (l : List RuntimeClientMessage) :
    (takeQueued path l.reverse).2.reverse = removeLast updatedPath path l := by
  induction l with
  | nil => rfl
  | cons m l ih =>
    rw [List.reverse_cons, removeLast]
    by_cases hothers : Others path l
    · have hreverse : Others path l.reverse := fun x hx => hothers x (List.mem_reverse.mp hx)
      rw [takeQueued_of_others hreverse, removeLast_eq_self fun x hx => (hothers x hx).2]
      cases hp : updatedPath m with
      | none => simp [takeQueued, hp]
      | some p =>
        by_cases hpath : p = path
        · simp only [takeQueued, hp, hpath, if_true, List.append_nil, List.reverse_reverse]
          rw [if_pos ⟨trivial, hothers⟩]
        · simp [takeQueued, hp, hpath]
    · have hreverse : ¬ Others path l.reverse := fun h =>
        hothers fun x hx => h x (List.mem_reverse.mpr hx)
      rw [takeQueued_of_not_others hreverse, if_neg fun h => hothers h.2, ← ih]
      simp

theorem coalesce_pending (s : Socket) (m : RuntimeClientMessage) :
    (s.coalesce m).pending = match updatedPath m with
      | none => s.pending
      | some path => removeLast updatedPath path s.pending := by
  cases hp : updatedPath m with
  | none => simp [Socket.coalesce, hp]
  | some path => simp [Socket.coalesce, hp, takeQueued_reverse]

/-- A message that is worth keeping and not too large to send. -/
def Kept (m : RuntimeClientMessage) : Prop := queueable m = true ∧ oversized m = false

instance : DecidablePred Kept := fun _ => inferInstanceAs (Decidable (_ ∧ _))

theorem away_append (s : Socket) (sends : Sends) (e : Option ℕ × RuntimeClientMessage) :
    away s (sends ++ [e]) = ((away s sends).sendRuntime e.1 false e.2).2 := by
  simp [away]

theorem remember_pending (s : Socket) (m : RuntimeClientMessage) :
    (s.remember m).pending = s.pending := by
  simp only [Socket.remember]
  split
  · split_ifs <;> rfl
  · rfl

theorem sendRuntime_pending {s : Socket} {revision : Option ℕ} {m : RuntimeClientMessage}
    (hm : Kept (withBase revision m)) :
    (s.sendRuntime revision false m).2.pending =
      ((s.remember (withBase revision m)).enqueue (withBase revision m)).pending := by
  simp [Socket.sendRuntime, hm.1, hm.2]

theorem length_removeLast (path : String) (l : List RuntimeClientMessage) :
    l.length ≤ (removeLast updatedPath path l).length + 1 := by
  induction l with
  | nil => exact Nat.zero_le _
  | cons m l ih =>
    rw [removeLast]
    split_ifs
    · exact Nat.le_refl _
    · simpa using ih

theorem away_pending {u : Unacknowledged} {sends : Sends} (hkept : ∀ m ∈ typed sends, Kept m)
    (hlimit : (keepLast updatedPath (typed sends)).length ≤ queueLimit) :
    (away ⟨[], u⟩ sends).pending = keepLast updatedPath (typed sends) := by
  induction sends using List.reverseRecOn with
  | nil => rfl
  | append_singleton sends e ih =>
    have htyped : typed (sends ++ [e]) = typed sends ++ [withBase e.1 e.2] := by simp [typed]
    rw [htyped] at hkept hlimit ⊢
    have hm : Kept (withBase e.1 e.2) := hkept _ (by simp)
    rw [away_append, sendRuntime_pending hm]
    simp only [Socket.enqueue, coalesce_pending, remember_pending]
    cases hp : updatedPath (withBase e.1 e.2) with
    | none =>
      rw [keepLast_append_barrier hp] at hlimit ⊢
      rw [List.length_append, List.length_singleton] at hlimit
      rw [ih (fun m hm => hkept m (List.mem_append_left _ hm)) (by omega)]
      simp only
      rw [if_neg (by omega)]
    | some path =>
      rw [keepLast_append_write hp] at hlimit ⊢
      rw [List.length_append, List.length_singleton] at hlimit
      have hlength := length_removeLast path (keepLast updatedPath (typed sends))
      rw [ih (fun m hm => hkept m (List.mem_append_left _ hm)) (by omega)]
      simp only
      rw [if_neg (by omega)]

/-! ## Replaying it -/

section
variable (texts : String → String) (session : Session)

/-- The store takes the messages one after another, and the first refusal ends it. -/
def replay (snapshot : Snapshot) (messages : List RuntimeClientMessage) : Except String Snapshot :=
  messages.foldlM (handleMessageInner texts session) snapshot

/-- What the messages leave, each refusal leaving the snapshot as it was. -/
def serve (snapshot : Snapshot) (messages : List RuntimeClientMessage) : Snapshot :=
  messages.foldl (fun snapshot m => (handleMessageInner texts session snapshot m).toOption.getD
    snapshot) snapshot

end

def replaced (session : Session) (files : List ProjectFile) (path source : String) :
    List ProjectFile :=
  files.map fun f => if f.path = path then session.projectFile path source else f

def size (files : List ProjectFile) : ℕ := (files.map fun f => f.source.utf8ByteSize).sum

/-- Where an update is replayed, the project has room for it. -/
def Fits (session : Session) (snapshot : Snapshot) : RuntimeClientMessage → Prop
  | .documentUpdate _ path source _ =>
    size (replaced session snapshot.files path source) ≤ maxProjectBytes
  | _ => True

variable {texts : String → String} {session : Session} {s t t' : Snapshot}
  {m : RuntimeClientMessage}

theorem replay_cons {messages : List RuntimeClientMessage}
    (h : handleMessageInner texts session s m = .ok t) :
    replay texts session s (m :: messages) = replay texts session t messages := by
  rw [replay, List.foldlM_cons, h]
  rfl

theorem replaced_sorted {files : List ProjectFile} (h : files.Pairwise Session.before)
    (path source : String) : (replaced session files path source).Pairwise Session.before := by
  refine List.pairwise_map.mpr (h.imp fun {f g} hfg => ?_)
  have hpath : ∀ f : ProjectFile,
      (if f.path = path then session.projectFile path source else f).path = f.path := by
    intro f
    split_ifs with hf
    · exact hf.symm
    · rfl
  simpa only [Session.before, hpath] using hfg

/-- An update the store takes. -/
theorem update_ok {version : ℕ} {path source : String} {base : Option ℕ}
    (hl : session.Listing t)
    (h : handleMessageInner texts session t (.documentUpdate version path source base) = .ok t') :
    t.version < version ∧ (∃ f ∈ t.files, f.path = path) ∧ Fits session t
        (.documentUpdate version path source base) ∧
      t'.version = version ∧ t'.files = replaced session t.files path source ∧
      session.Listing t' := by
  obtain ⟨files, hchecked, hcommit⟩ := Session.bind_eq_ok h
  obtain ⟨hversion, hexists, rfl⟩ := Session.updateFiles_ok hchecked
  obtain ⟨hv, hfiles, -⟩ := Session.commit_ok hcommit
  refine ⟨hversion, hexists, ?_, hv, ?_, (hl.listed.updateFiles hchecked).listing hcommit⟩
  · simp only [Session.updateFiles] at hchecked
    obtain ⟨⟨⟩, -, hchecked⟩ := Session.bind_eq_ok hchecked
    split at hchecked
    · cases hchecked
    obtain ⟨⟨⟩, hsize, -⟩ := Session.bind_eq_ok hchecked
    simp only [Session.assertProjectSize] at hsize
    split_ifs at hsize with hlarge
    exact Nat.not_lt.mp hlarge
  · exact hfiles.trans (replaced_sorted hl.sorted path source).insertionSort_eq

/-- An update with everything an update needs is taken. -/
theorem update_taken (texts : String → String) {version : ℕ} {path source : String}
    (base : Option ℕ) (hl : session.Listing s) (hversion : s.version < version)
    (hexists : ∃ f ∈ s.files, f.path = path)
    (hfits : Fits session s (.documentUpdate version path source base)) :
    ∃ s', handleMessageInner texts session s (.documentUpdate version path source base) = .ok s' := by
  have hassert : Session.assertVersion s version = .ok () := by
    simp [Session.assertVersion, hversion]
  have hsize : Session.assertProjectSize (replaced session s.files path source) = .ok () := by
    simp only [Session.assertProjectSize]
    exact if_neg (Nat.not_lt.mpr hfits)
  have hchecked : session.updateFiles s version path source =
      .ok (replaced session s.files path source) := by
    have hany : (s.files.any fun f => f.path = path) = true := by simpa using hexists
    have hrest : (Session.assertProjectSize (replaced session s.files path source) >>=
        fun _ => Except.ok (replaced session s.files path source)) =
        .ok (replaced session s.files path source) := by
      rw [hsize]
      rfl
    rw [Session.updateFiles, hassert, hany]
    exact hrest
  obtain ⟨s', hs'⟩ := (hl.listed.updateFiles hchecked).commit_isOk version
  refine ⟨s', ?_⟩
  rw [handleMessageInner, hchecked]
  exact hs'

/-- The checks look at the version and the files of the snapshot, and a version newer than
one is newer than an older one. -/
theorem handleMessageInner_congr (hfiles : s.files = t.files) (hversion : s.version ≤ t.version)
    (h : handleMessageInner texts session t m = .ok t') :
    handleMessageInner texts session s m = .ok t' := by
  have hassert : ∀ v, Session.assertVersion t v = .ok () → Session.assertVersion s v = .ok () := by
    intro v hv
    have := Session.assertVersion_ok hv
    simp only [Session.assertVersion]
    exact if_neg (by omega)
  have hchecks : ∀ {α : Type} (v : ℕ) (rest : Except String α) (a : α),
      (Session.assertVersion t v >>= fun _ => rest) = .ok a →
      (Session.assertVersion s v >>= fun _ => rest) = .ok a := by
    intro α v rest a hrest
    obtain ⟨⟨⟩, hv, hrest⟩ := Session.bind_eq_ok hrest
    rw [hassert v hv]
    exact hrest
  cases m with
  | documentUpdate version path source base =>
    obtain ⟨files, hchecked, hcommit⟩ := Session.bind_eq_ok h
    simp only [handleMessageInner]
    rw [Session.updateFiles, hfiles, hchecks version _ files hchecked]
    exact hcommit
  | fileCreate version path source base =>
    obtain ⟨files, hchecked, hcommit⟩ := Session.bind_eq_ok h
    simp only [handleMessageInner]
    rw [Session.createFiles, hfiles, hchecks version _ files hchecked]
    exact hcommit
  | fileRename version path newPath base =>
    obtain ⟨files, hchecked, hcommit⟩ := Session.bind_eq_ok h
    simp only [handleMessageInner]
    rw [Session.renameFiles, hfiles, hchecks version _ files hchecked]
    exact hcommit
  | fileDelete version path base =>
    obtain ⟨files, hchecked, hcommit⟩ := Session.bind_eq_ok h
    simp only [handleMessageInner]
    rw [Session.deleteFiles, hfiles, hchecks version _ files hchecked]
    exact hcommit
  | workspaceReset version scaffold base =>
    obtain ⟨files, hchecked, hcommit⟩ := Session.bind_eq_ok h
    obtain ⟨hnewer, hreplaced⟩ := Session.resetFilesList_ok hchecked
    have holder : ¬ version < s.version := by omega
    have hold : ¬ version < t.version := by omega
    have hs : session.replacedFiles s version (session.scaffoldSources texts scaffold) =
        .ok files := by
      simpa only [Session.replacedFiles, if_neg holder, if_neg hold] using hreplaced
    have hreset : session.resetFilesList texts s version scaffold = .ok files := by
      rw [Session.resetFilesList, hassert version (by simp [Session.assertVersion, hnewer])]
      exact hs
    simp only [handleMessageInner]
    rw [hreset]
    exact hcommit
  | _ => cases h

theorem listing_of_taken (hl : session.Listing t)
    (h : handleMessageInner texts session t m = .ok t') : session.Listing t' := by
  cases m with
  | documentUpdate version path source base =>
    obtain ⟨files, hchecked, hcommit⟩ := Session.bind_eq_ok h
    exact (hl.listed.updateFiles hchecked).listing hcommit
  | fileCreate version path source base =>
    obtain ⟨files, hchecked, hcommit⟩ := Session.bind_eq_ok h
    exact (hl.listed.createFiles hchecked).listing hcommit
  | fileRename version path newPath base =>
    obtain ⟨files, hchecked, hcommit⟩ := Session.bind_eq_ok h
    exact (hl.listed.renameFiles hchecked).listing hcommit
  | fileDelete version path base =>
    obtain ⟨files, hchecked, hcommit⟩ := Session.bind_eq_ok h
    exact (hl.listed.deleteFiles hchecked).listing hcommit
  | workspaceReset version scaffold base =>
    obtain ⟨files, hchecked, hcommit⟩ := Session.bind_eq_ok h
    exact (Session.listed_replacedFiles (Session.resetFilesList_ok hchecked).2).listing hcommit
  | _ => cases h

/-- Two snapshots that list the same files, and have the same text but where `P` holds. -/
structure Same (session : Session) (P : String → Prop) (s t : Snapshot) : Prop where
  version : s.version ≤ t.version
  left : session.Listing s
  right : session.Listing t
  files : List.Forall₂ (fun f g => f.path = g.path ∧ (P f.path ∨ f = g)) s.files t.files

theorem Same.mono {P Q : String → Prop} (hPQ : ∀ p, P p → Q p) (h : Same session P s t) :
    Same session Q s t :=
  ⟨h.version, h.left, h.right, h.files.imp fun _ _ hfg => ⟨hfg.1, hfg.2.imp_left (hPQ _)⟩⟩

theorem Same.files_eq (h : Same session (fun _ => False) s t) : s.files = t.files := by
  have heq : List.Forall₂ (fun f g : ProjectFile => f = g) s.files t.files :=
    h.files.imp fun _ _ hfg => hfg.2.resolve_left id
  rwa [List.forall₂_eq_eq_eq] at heq

theorem Same.exists_path {P : String → Prop} (h : Same session P s t) {path : String}
    (ht : ∃ f ∈ t.files, f.path = path) : ∃ f ∈ s.files, f.path = path := by
  obtain ⟨g, hg, rfl⟩ := ht
  have hpaths : s.files.map ProjectFile.path = t.files.map ProjectFile.path := by
    rw [← List.forall₂_eq_eq_eq, List.forall₂_map_left_iff, List.forall₂_map_right_iff]
    exact h.files.imp fun _ _ hfg => hfg.1
  have hmem : g.path ∈ s.files.map ProjectFile.path := hpaths ▸ List.mem_map_of_mem hg
  obtain ⟨f, hf, hfg⟩ := List.mem_map.mp hmem
  exact ⟨f, hf, hfg⟩

theorem documentUpdate_of_updatedPath {path : String} (h : updatedPath m = some path) :
    ∃ version source base, m = .documentUpdate version path source base := by
  cases m with
  | documentUpdate version p source base =>
    obtain rfl := Option.some.inj h
    exact ⟨version, source, base, rfl⟩
  | _ => cases h

theorem Same.drop {P : String → Prop} {path : String} (hm : updatedPath m = some path)
    (h : Same session P s t) (ht : handleMessageInner texts session t m = .ok t') :
    Same session (fun p => P p ∨ p = path) s t' := by
  obtain ⟨version, source, base, rfl⟩ := documentUpdate_of_updatedPath hm
  obtain ⟨hversion, -, -, hv, hfiles, hl⟩ := update_ok h.right ht
  refine ⟨by rw [hv]; exact h.version.trans hversion.le, h.left, hl, ?_⟩
  rw [hfiles, replaced, List.forall₂_map_right_iff]
  refine h.files.imp fun f g hfg => ?_
  split_ifs with hg
  · exact ⟨hfg.1.trans hg, .inl (.inr (hfg.1.trans hg))⟩
  · exact ⟨hfg.1, hfg.2.imp_left .inl⟩

theorem Same.keep {P : String → Prop} {path : String} (hm : updatedPath m = some path)
    (h : Same session P s t) (ht : handleMessageInner texts session t m = .ok t')
    (hfits : Fits session s m) : ∃ s', handleMessageInner texts session s m = .ok s' ∧
      Same session (fun p => P p ∧ p ≠ path) s' t' := by
  obtain ⟨version, source, base, rfl⟩ := documentUpdate_of_updatedPath hm
  obtain ⟨hversion, hexists, -, hv, hfiles, hl⟩ := update_ok h.right ht
  obtain ⟨s', hs'⟩ := update_taken texts base h.left
    (lt_of_le_of_lt h.version hversion) (h.exists_path hexists) hfits
  obtain ⟨-, -, -, hv', hfiles', hl'⟩ := update_ok h.left hs'
  refine ⟨s', hs', by rw [hv, hv'], hl', hl, ?_⟩
  rw [hfiles, hfiles', replaced, replaced, List.forall₂_map_left_iff, List.forall₂_map_right_iff]
  refine h.files.imp fun f g hfg => ?_
  by_cases hg : g.path = path
  · rw [if_pos (hfg.1.trans hg), if_pos hg]
    exact ⟨rfl, .inr rfl⟩
  · have hf : f.path ≠ path := fun hf => hg (hfg.1.symm.trans hf)
    rw [if_neg hf, if_neg hg]
    exact ⟨hfg.1, hfg.2.imp_left fun hp => ⟨hp, hf⟩⟩

theorem Same.barrier (h : Same session (fun _ => False) s t)
    (ht : handleMessageInner texts session t m = .ok t') :
    ∃ s', handleMessageInner texts session s m = .ok s' ∧ Same session (fun _ => False) s' t' := by
  have hl := listing_of_taken h.right ht
  refine ⟨t', handleMessageInner_congr h.files_eq h.version ht, le_rfl, hl, hl, ?_⟩
  exact List.forall₂_same.mpr fun f _ => ⟨rfl, .inr rfl⟩

theorem listing_of_replay {messages : List RuntimeClientMessage} (hl : session.Listing s)
    (h : replay texts session s messages = .ok t) : session.Listing t := by
  induction messages generalizing s with
  | nil => exact Except.ok.inj h ▸ hl
  | cons m messages ih =>
    rw [replay, List.foldlM_cons] at h
    obtain ⟨s₁, hs₁, h⟩ := Session.bind_eq_ok h
    exact ih (listing_of_taken hl hs₁) h

theorem replay_split {before after : List RuntimeClientMessage} {s₁ : Snapshot}
    (h : replay texts session s (before ++ m :: after) = .ok t)
    (hs₁ : replay texts session s before = .ok s₁) :
    ∃ s₂, handleMessageInner texts session s₁ m = .ok s₂ := by
  rw [replay, List.foldlM_append] at h
  obtain ⟨s₁', hs₁', h⟩ := Session.bind_eq_ok h
  obtain rfl := Except.ok.inj (hs₁.symm.trans hs₁')
  rw [List.foldlM_cons] at h
  obtain ⟨s₂, hs₂, -⟩ := Session.bind_eq_ok h
  exact ⟨s₂, hs₂⟩

/-- Every update has room in the project where its turn comes. -/
def Room (texts : String → String) (session : Session) (snapshot : Snapshot)
    (messages : List RuntimeClientMessage) : Prop :=
  ∀ before m after, messages = before ++ m :: after →
    ∀ s₁, replay texts session snapshot before = .ok s₁ → Fits session s₁ m

theorem room_of_replay {messages : List RuntimeClientMessage} (hl : session.Listing s)
    (h : replay texts session s messages = .ok t) : Room texts session s messages := by
  rintro before m after rfl s₁ hs₁
  obtain ⟨s₂, hs₂⟩ := replay_split h hs₁
  cases m with
  | documentUpdate version path source base =>
    exact (update_ok (listing_of_replay hl hs₁) hs₂).2.2.1
  | _ => trivial

theorem replay_of_room {messages : List RuntimeClientMessage} (hl : session.Listing s)
    (h : replay texts session s messages = .ok t)
    (hroom : Room texts session s (keepLast updatedPath messages)) :
    ∃ t', replay texts session s (keepLast updatedPath messages) = .ok t' ∧
      t'.files = t.files := by
  have hsame : Same session (fun _ => False) s s :=
    ⟨le_rfl, hl, hl, List.forall₂_same.mpr fun f _ => ⟨rfl, .inr rfl⟩⟩
  obtain ⟨t', ht', hend⟩ := replay_keepLast (handleMessageInner texts session)
    (Same session) (Fits session) (fun hPQ hst => hst.mono hPQ)
    (fun hm hst ht => hst.drop hm ht) (fun hm hst ht hf => hst.keep hm ht hf)
    (fun _ hst ht => hst.barrier ht) hsame (fun _ hj => hj.elim) h
    fun before m after heq _ s₁ hs₁ => hroom before m after heq s₁ hs₁
  exact ⟨t', ht', hend.files_eq⟩

theorem offline_queue_replays (texts : String → String) (session : Session)
    (snapshot final : Snapshot) (u : Unacknowledged) (sends : Sends)
    (hl : session.Listing snapshot) (hkept : ∀ m ∈ typed sends, Kept m)
    (hversions : ((typed sends).filterMap versionOf).Pairwise (· < ·))
    (hlimit : (keepLast updatedPath (typed sends)).length ≤ queueLimit)
    (haccepted : replay texts session snapshot (typed sends) = .ok final) :
    let queue := (away ⟨[], u⟩ sends).pending
    (queue.filterMap versionOf).Pairwise (· < ·) ∧ queue.Sublist (typed sends) ∧
      queue.filter (fun m => (updatedPath m).isNone) =
        (typed sends).filter (fun m => (updatedPath m).isNone) ∧
      (∀ before m after, typed sends = before ++ m :: after → m ∉ queue →
        ∃ path, updatedPath m = some path ∧ ∃ mid m' rest, after = mid ++ m' :: rest ∧
          updatedPath m' = some path ∧ ∀ x ∈ mid, updatedPath x ≠ none) ∧
      (Room texts session snapshot queue ↔
        ∃ final', replay texts session snapshot queue = .ok final' ∧
          final'.files = final.files) := by
  intro queue
  have hqueue : queue = keepLast updatedPath (typed sends) := away_pending hkept hlimit
  rw [hqueue]
  have hsub : (keepLast updatedPath (typed sends)).Sublist (typed sends) := keepLast_sublist _
  refine ⟨hversions.sublist (hsub.filterMap versionOf), hsub, filter_keepLast _, ?_, ?_, ?_⟩
  · intro before m after heq hm
    rw [heq] at hm
    obtain ⟨path, hpath, hagain⟩ := rewritten_of_notMem hm
    exact ⟨path, hpath, rewritten_iff.mp hagain⟩
  · exact replay_of_room hl haccepted
  · rintro ⟨final', hfinal', -⟩
    exact room_of_replay hl hfinal'

/-! ## Two offline sequences -/

/-- Two files edited in turns around the making of a third. -/
def editing : Sends :=
  [(none, .documentUpdate 2 "a.zig" "1" none), (none, .documentUpdate 3 "main.zig" "1" none),
    (none, .documentUpdate 4 "a.zig" "2" none), (none, .fileCreate 5 "b.zig" "" none),
    (none, .documentUpdate 6 "a.zig" "3" none)]

def zigFiles (sources : List (String × String)) : Snapshot where
  version := 1
  uri := pathToFileUrl (zigSession.sourcePath "main.zig")
  source := (sources.lookup "main.zig").getD ""
  files := sources.map fun (path, source) => zigSession.projectFile path source

theorem zigFiles_listing {sources : List (String × String)}
    (hnodup : (sources.map Prod.fst).Nodup)
    (hsorted : (sources.map Prod.fst).Pairwise fun l r => (localeCompare l r).isLE = true)
    (main : String) (hmain : ("main.zig", main) ∈ sources)
    (hlookup : sources.lookup "main.zig" = some main) : zigSession.Listing (zigFiles sources) where
  listed := by
    refine ⟨?_, ?_, ?_⟩
    · simpa [zigFiles, Session.projectFile, Function.comp_def] using hnodup
    · intro f hf
      obtain ⟨e, -, rfl⟩ := List.mem_map.mp hf
      rfl
    · exact ⟨_, List.mem_map_of_mem hmain, rfl⟩
  sorted := by
    rw [List.pairwise_map] at hsorted
    exact List.pairwise_map.mpr hsorted
  main := ⟨_, List.mem_map_of_mem hmain, rfl, rfl, by simp [zigFiles, hlookup, Session.projectFile]⟩

theorem ok_of_isSome {x : Except String Snapshot} (h : x.toOption.isSome = true) :
    ∃ a, x = .ok a := by
  cases x with
  | error e => cases h
  | ok a => exact ⟨a, rfl⟩

theorem offline_queue_replays_editing :
    ∃ final, replay (fun _ => "") zigSession (zigFiles [("a.zig", ""), ("main.zig", "")])
        (typed editing) = .ok final ∧
      (away ⟨[], []⟩ editing).pending.length = 4 ∧
      Room (fun _ => "") zigSession (zigFiles [("a.zig", ""), ("main.zig", "")])
        (away ⟨[], []⟩ editing).pending := by
  obtain ⟨final, hfinal⟩ := ok_of_isSome (x := replay (fun _ => "") zigSession
    (zigFiles [("a.zig", ""), ("main.zig", "")]) (typed editing)) (by decide +kernel)
  obtain ⟨final', hfinal'⟩ := ok_of_isSome (x := replay (fun _ => "") zigSession
    (zigFiles [("a.zig", ""), ("main.zig", "")]) (away ⟨[], []⟩ editing).pending)
    (by decide +kernel)
  have hsame : (replay (fun _ => "") zigSession (zigFiles [("a.zig", ""), ("main.zig", "")])
      (away ⟨[], []⟩ editing).pending).toOption.map Snapshot.files =
      (replay (fun _ => "") zigSession (zigFiles [("a.zig", ""), ("main.zig", "")])
        (typed editing)).toOption.map Snapshot.files := by decide +kernel
  rw [hfinal, hfinal'] at hsame
  obtain ⟨-, -, -, -, hroom⟩ := offline_queue_replays (fun _ => "") zigSession
    (zigFiles [("a.zig", ""), ("main.zig", "")]) final [] editing
    (zigFiles_listing (by decide) (by decide +kernel) "" (by decide) (by decide))
    (by decide) (by decide) (by decide) hfinal
  exact ⟨final, hfinal, by decide, hroom.mpr ⟨final', hfinal', Option.some.inj hsame⟩⟩

/-! ## A project that is nearly full -/

def filler : ℕ → String
  | 0 => ""
  | n + 1 => (filler n).push ' '

def fillers (sizes : List (String × ℕ)) : List (String × String) :=
  sizes.map fun e => (e.1, filler e.2)

/-- The updates of a file to be shortened, of one to be filled and of the first again. -/
def shuffling : Sends :=
  [(none, .documentUpdate 2 "a.zig" (filler 0) none),
    (none, .documentUpdate 3 "b.zig" (filler (maxSourceBytes - 1)) none),
    (none, .documentUpdate 4 "a.zig" (filler 1) none)]

def nearlyFull : List (String × ℕ) :=
  [("a.zig", maxSourceBytes), ("b.zig", 0), ("c.zig", maxSourceBytes), ("d.zig", maxSourceBytes),
    ("e.zig", maxSourceBytes), ("f.zig", maxSourceBytes), ("g.zig", maxSourceBytes),
    ("h.zig", maxSourceBytes), ("main.zig", maxSourceBytes)]

theorem utf8ByteSize_filler (n : ℕ) : (filler n).utf8ByteSize = n := by
  induction n with
  | zero => rfl
  | succ n ih =>
    rw [filler, String.utf8ByteSize_push, ih]
    rfl

def catalog (sizes : List (String × ℕ)) : List ProjectFile :=
  (fillers sizes).map fun (path, source) => zigSession.projectFile path source

def resize (sizes : List (String × ℕ)) (path : String) (n : ℕ) : List (String × ℕ) :=
  sizes.map fun e => if e.1 = path then (path, n) else e

theorem size_catalog (sizes : List (String × ℕ)) :
    size (catalog sizes) = (sizes.map Prod.snd).sum := by
  simp [size, catalog, fillers, Session.projectFile, Function.comp_def, utf8ByteSize_filler]

theorem replaced_catalog (sizes : List (String × ℕ)) (path : String) (n : ℕ) :
    replaced zigSession (catalog sizes) path (filler n) = catalog (resize sizes path n) := by
  simp only [replaced, catalog, fillers, resize, List.map_map]
  refine List.map_congr_left fun e _ => ?_
  by_cases he : e.1 = path
  · simp [Session.projectFile, he]
  · simp [Session.projectFile, he]

theorem resized (texts : String → String) {sizes : List (String × ℕ)} (version : ℕ) (path : String)
    (n : ℕ) (hl : zigSession.Listing s) (hfiles : s.files = catalog sizes) (hversion : s.version < version)
    (hpath : path ∈ sizes.map Prod.fst)
    (hroom : ((resize sizes path n).map Prod.snd).sum ≤ maxProjectBytes) :
    ∃ s', handleMessageInner texts zigSession s (.documentUpdate version path (filler n) none) =
        .ok s' ∧ s'.version = version ∧ s'.files = catalog (resize sizes path n) ∧
      zigSession.Listing s' := by
  have hexists : ∃ f ∈ s.files, f.path = path := by
    obtain ⟨e, he, rfl⟩ := List.mem_map.mp hpath
    rw [hfiles]
    exact ⟨_, List.mem_map_of_mem (List.mem_map_of_mem he), rfl⟩
  obtain ⟨s', hs'⟩ := update_taken texts none hl hversion hexists
    (by rw [Fits, hfiles, replaced_catalog, size_catalog]; exact hroom)
  obtain ⟨-, -, -, hv, hfiles', hl'⟩ := update_ok hl hs'
  exact ⟨s', hs', hv, by rw [hfiles', hfiles, replaced_catalog], hl'⟩

theorem not_resized (texts : String → String) {sizes : List (String × ℕ)} (version : ℕ)
    (path : String) (n : ℕ) (hl : zigSession.Listing s) (hfiles : s.files = catalog sizes)
    (hfull : maxProjectBytes < ((resize sizes path n).map Prod.snd).sum) :
    (handleMessageInner texts zigSession s
      (.documentUpdate version path (filler n) none)).toOption = none := by
  cases h : handleMessageInner texts zigSession s (.documentUpdate version path (filler n) none) with
  | error e => rfl
  | ok s' =>
    obtain ⟨-, -, hfits, -⟩ := update_ok hl h
    rw [Fits, hfiles, replaced_catalog, size_catalog] at hfits
    omega

/-- The queue drops the first update, and on its replay the second finds no room: the file it
fills stays empty. -/
theorem offline_queue_diverges :
    zigSession.Listing (zigFiles (fillers nearlyFull)) ∧ (∀ m ∈ typed shuffling, Kept m) ∧
      ((typed shuffling).filterMap versionOf).Pairwise (· < ·) ∧
      ∃ final, replay (fun _ => "") zigSession (zigFiles (fillers nearlyFull)) (typed shuffling) =
          .ok final ∧
        (serve (fun _ => "") zigSession (zigFiles (fillers nearlyFull))
          (away ⟨[], []⟩ shuffling).pending).files ≠ final.files := by
  have hl : zigSession.Listing (zigFiles (fillers nearlyFull)) :=
    zigFiles_listing (by decide) (by decide +kernel) (filler maxSourceBytes)
      (by simp [fillers, nearlyFull]) (by simp [fillers, nearlyFull, List.lookup])
  have hkept : ∀ m ∈ typed shuffling, Kept m := by
    simp [typed, shuffling, Kept, withBase, queueable, oversized, utf8ByteSize_filler,
      maxSourceBytes]
  refine ⟨hl, hkept, by decide, ?_⟩
  obtain ⟨s₁, hs₁, hv₁, hf₁, hl₁⟩ := resized (fun _ => "") 2 "a.zig" 0 hl rfl
    (by decide) (by decide) (by decide)
  obtain ⟨s₂, hs₂, hv₂, hf₂, hl₂⟩ := resized (fun _ => "") 3 "b.zig" (maxSourceBytes - 1) hl₁ hf₁
    (by omega) (by decide) (by decide)
  obtain ⟨s₃, hs₃, hv₃, hf₃, hl₃⟩ := resized (fun _ => "") 4 "a.zig" 1 hl₂ hf₂
    (by omega) (by decide) (by decide)
  have hrefused := not_resized (fun _ => "") 3 "b.zig" (maxSourceBytes - 1) hl rfl (by decide)
  obtain ⟨s₄, hs₄, -, hf₄, -⟩ := resized (fun _ => "") 4 "a.zig" 1 hl rfl
    (by decide) (by decide) (by decide)
  refine ⟨s₃, ?_, ?_⟩
  · have htyped : typed shuffling = [.documentUpdate 2 "a.zig" (filler 0) none,
        .documentUpdate 3 "b.zig" (filler (maxSourceBytes - 1)) none,
        .documentUpdate 4 "a.zig" (filler 1) none] := rfl
    rw [htyped, replay_cons hs₁, replay_cons hs₂, replay_cons hs₃]
    rfl
  · have hqueue : (away ⟨[], []⟩ shuffling).pending =
        [.documentUpdate 3 "b.zig" (filler (maxSourceBytes - 1)) none,
          .documentUpdate 4 "a.zig" (filler 1) none] :=
      (away_pending hkept (by decide)).trans rfl
    have hserved : serve (fun _ => "") zigSession (zigFiles (fillers nearlyFull))
        (away ⟨[], []⟩ shuffling).pending = s₄ := by
      rw [hqueue]
      simp only [serve, List.foldl_cons, List.foldl_nil, hrefused, Option.getD_none, hs₄]
      rfl
    rw [hserved, hf₄, hf₃]
    intro heq
    have hsizes := congrArg (List.map fun f : ProjectFile => f.source.utf8ByteSize) heq
    simp [catalog, fillers, Session.projectFile, utf8ByteSize_filler, resize, nearlyFull,
      maxSourceBytes] at hsizes

end Atomis.OfflineQueue
