import Atomis.CollabRevision
import Atomis.Lib.CatchUp
import Atomis.PeerUpdate
import Atomis.StoreListing

/-!
# No update replaces a peer's unseen change

What a client still has to hear is a list of notices of the log of accepted
changes. A careful run keeps it such that the client never adopts a revision
whose changes its mirror lacks, and the base a message carries vouches for the
source it was built on.
-/

namespace Atomis.PeerUpdate
open Protocol RuntimeSocket Collab CatchUp

abbrev Log := List (String × RuntimeClientMessage)

def peerWrote (log : Log) (id : String) (k : ℕ) : Bool :=
  0 < k && log[k - 1]?.any fun e => e.1 ≠ id

def peerChanged (log : Log) (id path : String) (k : ℕ) : Bool :=
  0 < k && log[k - 1]?.any fun e => e.1 ≠ id && touches e.2 path

/-- The state of a path as of revision `n` has every peer's change of it up to `last`. -/
def UpToDate (log : Log) (id path : String) (n last : ℕ) : Prop :=
  ∀ k ≤ last, peerChanged log id path k = true → k ≤ n

instance (log : Log) (id path : String) (n last : ℕ) : Decidable (UpToDate log id path n last) :=
  inferInstanceAs (Decidable (∀ k ≤ last, _))

/-- A change of this workspace by another session. -/
def concerns (w id : String) : WorkspaceChange → Bool
  | .files workspace origin | .document workspace origin _ _ _ => workspace = w && origin ≠ id
  | .peers _ _ => false

section
variable (sessions : String → Session) (texts : String → String) (w : String)

/-- What the client does with an event leaves nothing of its peers behind. -/
def Hears (log : Log) (id : String) (c : Client) : ServerEvent → Prop
  | .projectChanged _ revision =>
    revision < c.revisionRef.getD 0 ∨
      ((∀ entry ∈ c.socket.unacknowledged, ∀ path ∈ pathsOf entry.2,
        (c.remoteEdit.any fun edit => edit.path = path) = true ∨
          UpToDate log id path (c.builtOn path) revision) ∧
      ∀ edit ∈ c.remoteEdit, UpToDate log id edit.path edit.revision revision)
  | .documentChanged path _ revision =>
    path = "" ∨ revision < c.revisionRef.getD 0 ∨ ∀ edit ∈ c.remoteEdit, edit.path = path
  | .documentConflict _ revision => c.revisionRef = some revision
  | _ => True

instance (log : Log) (id : String) (c : Client) (event : ServerEvent) :
    Decidable (Hears log id c event) := by
  cases event <;> simp only [Hears] <;> infer_instance

/-- No step loses sight of a peer's change: catalogs are read, no forwarder falls
behind one, an edit that came is applied before the next one or a key is typed in
its file, unsaved files kept over a catalog have it, a refusal is heard only when
every change before it was, and nobody types before the first catalog. -/
def Careful (s : State) : Action → Prop
  | .attach id fails | .refresh id fails =>
    fails = false ∧ (refreshFiles sessions id s).isOk = true
  | .lag id =>
    ((s.collab.changes.drop (s.cursor id)).take (behind s id - backlog)).all
      (fun change => !concerns w id change) = true
  | .deliver id => ∀ event ∈ (s.outbox id).head?, Hears s.log id (s.client id) event
  | .effect id => ∀ edit ∈ (s.client id).remoteEdit,
      (s.client id).has edit.path = true ∧ (s.client id).editing edit.path = false
  | .operate id op =>
    (s.client id).loaded = true ∧
      match op with
      | .change _ => ∀ edit ∈ (s.client id).remoteEdit, edit.path ≠ (s.client id).activePath
      | _ => True
  | _ => True

instance : DecidableRel (Careful sessions w) := fun s a =>
  match a with
  | .attach id fails | .refresh id fails =>
    inferInstanceAs (Decidable (fails = false ∧ (refreshFiles sessions id s).isOk = true))
  | .lag _ => inferInstanceAs (Decidable (List.all _ _ = true))
  | .deliver id =>
    inferInstanceAs (Decidable (∀ event ∈ (s.outbox id).head?, Hears s.log id (s.client id) event))
  | .effect id => inferInstanceAs (Decidable (∀ edit ∈ (s.client id).remoteEdit,
      (s.client id).has edit.path = true ∧ (s.client id).editing edit.path = false))
  | .operate id (.change _) => inferInstanceAs (Decidable ((s.client id).loaded = true ∧
      ∀ edit ∈ (s.client id).remoteEdit, edit.path ≠ (s.client id).activePath))
  | .operate id (.create _) | .operate id (.rename ..) | .operate id (.remove _)
  | .operate id (.reset _) => inferInstanceAs (Decidable ((s.client id).loaded = true ∧ True))
  | .openSession _ | .subscribe _ | .receive _ | .look .. | .handle .. | .elsewhere _ =>
    .isTrue trivial

/-- The message a session's handler takes next is recorded as a change. -/
def Accepts (s : State) (id : String) (fails : Bool) (sent : Sent) : Prop :=
  (s.inbox id).head? = some sent ∧
    (next sessions texts w s (.handle id fails)).log = s.log ++ [(id, sent.message)]

/-! ## What a client still has to hear -/

def notice : ServerEvent → Option Notice
  | .documentChanged path _ revision => if path = "" then some (.mark revision)
      else some (.entry revision)
  | .projectChanged _ revision => some (.all revision)
  | _ => none

def ahead (id : String) (change : WorkspaceChange) : List Notice :=
  (forward w id change).filterMap notice ++ if rereads w id change then [.reading] else []

/-- What one session has and hears. -/
structure View where
  phase : Phase
  client : Client
  inbox : List Sent
  outbox : List ServerEvent
  cursor : ℕ
  waiting : Bool

def State.view (s : State) (id : String) : View :=
  ⟨s.phase id, s.client id, s.inbox id, s.outbox id, s.cursor id, s.waiting id⟩

def View.rest (id : String) (changes : List WorkspaceChange) (v : View) : List Notice :=
  (if v.waiting then [.reading] else []) ++ (changes.drop v.cursor).flatMap (ahead w id)

def Sent.Sound (log : Log) (id : String) (revision : ℕ) (sent : Sent) : Prop :=
  ∃ base ≤ revision, baseRevision sent.message = some base ∧
    ∀ path, updatedPath sent.message = some path →
      UpToDate log id path (sent.builtOn path) base

/-- A client that has heard of nothing it could have missed. -/
structure Unheard (v : View) : Prop where
  inbox : v.inbox = []
  saved : v.client.socket.unacknowledged = []
  remoteEdit : v.client.remoteEdit = none
  loaded : v.client.loaded = false

structure Idle (v : View) : Prop extends Unheard v where
  outbox : v.outbox = []
  waiting : v.waiting = false
  revisionRef : v.client.revisionRef = none

/-- What comes before the first catalog does not matter. -/
def Early (revision : ℕ) : ServerEvent → Prop
  | .documentChanged path _ r => path = "" ∧ r ≤ revision
  | .workspacePeers _ => True
  | _ => False

structure Joining (log : Log) (changes : List WorkspaceChange) (id : String) (v : View) : Prop
    extends Unheard v where
  catalog : ∃ early files revision events, v.outbox = early ++ .projectChanged files revision ::
    events ∧ (∀ e ∈ early, Early revision e) ∧ v.client.revisionRef.getD 0 ≤ revision ∧
    revision ≤ log.length ∧ CatchesUp (fun k => peerWrote log id k = true) log.length revision
      (events.filterMap notice ++ v.rest w id changes)

structure Working (log : Log) (changes : List WorkspaceChange) (id : String) (revision : ℕ)
    (v : View) : Prop where
  revisionRef : v.client.revisionRef = some revision
  le_last : revision ≤ log.length
  catches : CatchesUp (fun k => peerWrote log id k = true) log.length revision
    (v.outbox.filterMap notice ++ v.rest w id changes)
  mirror : ∀ path, (∀ edit ∈ v.client.remoteEdit, edit.path ≠ path) →
    UpToDate log id path (v.client.builtOn path) revision
  slot : ∀ edit ∈ v.client.remoteEdit, UpToDate log id edit.path edit.revision revision
  sent : ∀ x ∈ v.inbox, x.Sound log id revision

inductive Standing (log : Log) (changes : List WorkspaceChange) (id : String) (v : View) : Prop
  | idle (hphase : v.phase ≠ .attached) (h : Idle v)
  | joining (hphase : v.phase = .attached) (h : Joining w log changes id v)
  | working (hphase : v.phase = .attached) (revision : ℕ) (h : Working w log changes id revision v)

/-- An edit is announced with the one path it changed. -/
def Announces (log : Log) (path : String) (revision : ℕ) : Prop :=
  0 < revision ∧ revision ≤ log.length ∧
    ∀ e ∈ log[revision - 1]?, ∀ p, touches e.2 p = true → p = path

def Truthful (log : Log) : ServerEvent → Prop
  | .documentChanged path _ revision => path ≠ "" → Announces log path revision
  | _ => True

def TruthfulChange (log : Log) : WorkspaceChange → Prop
  | .document workspace _ path _ revision => workspace = w → path ≠ "" ∧ Announces log path revision
  | _ => True

structure Inv (s : State) : Prop where
  tracks : ∃ h, Tracks s.collab h ∧ h w = s.log.map Prod.fst
  changes : ∀ change ∈ s.collab.changes, TruthfulChange w s.log change
  cursor : ∀ id, s.cursor id ≤ s.collab.changes.length
  outbox : ∀ id, ∀ event ∈ s.outbox id, Truthful s.log event
  standing : ∀ id, Standing w s.log s.collab.changes id (s.view id)

end

variable {sessions : String → Session} {texts : String → String} {w id path : String} {log : Log}
  {changes : List WorkspaceChange} {v : View} {k n last : ℕ}

/-! ## The log -/

theorem peerWrote_of_changed (h : peerChanged log id path k = true) : peerWrote log id k = true := by
  simp only [peerChanged, peerWrote, Bool.and_eq_true, decide_eq_true_eq] at h ⊢
  refine ⟨h.1, ?_⟩
  cases hk : log[k - 1]? with
  | none => simp [hk] at h
  | some e =>
    rw [hk] at h
    simp only [Option.any_some, Bool.and_eq_true] at h ⊢
    exact h.2.1

theorem le_length_of_wrote (h : peerWrote log id k = true) : k ≤ log.length := by
  simp only [peerWrote, Bool.and_eq_true, decide_eq_true_eq] at h
  by_contra hlt
  rw [List.getElem?_eq_none (by omega)] at h
  simp at h

theorem peerWrote_append (e : String × RuntimeClientMessage) :
    peerWrote (log ++ [e]) id k = true ↔
      peerWrote log id k = true ∨ (k = log.length + 1 ∧ e.1 ≠ id) := by
  rcases Nat.lt_trichotomy k (log.length + 1) with hk | rfl | hk
  · cases k with
    | zero => simp [peerWrote]
    | succ k =>
      have hlt : k < log.length := by omega
      simp [peerWrote, List.getElem?_append_left hlt, hlt.ne]
  · simp [peerWrote]
  · have hnone : (log ++ [e])[k - 1]? = none := List.getElem?_eq_none (by simp; omega)
    have hnone' : log[k - 1]? = none := List.getElem?_eq_none (by omega)
    simp [peerWrote, hnone, hnone', hk.ne']

theorem peerChanged_append (e : String × RuntimeClientMessage) (hk : k ≤ log.length) :
    peerChanged (log ++ [e]) id path k = peerChanged log id path k := by
  cases k with
  | zero => simp [peerChanged]
  | succ k => simp [peerChanged, List.getElem?_append_left (show k < log.length from hk)]

theorem UpToDate.append (e : String × RuntimeClientMessage) (hlast : last ≤ log.length)
    (h : UpToDate log id path n last) : UpToDate (log ++ [e]) id path n last := by
  intro k hk hc
  rw [peerChanged_append e (hk.trans hlast)] at hc
  exact h k hk hc

theorem Announces.append (e : String × RuntimeClientMessage) (h : Announces log path n) :
    Announces (log ++ [e]) path n := by
  obtain ⟨hpos, hle, honly⟩ := h
  refine ⟨hpos, hle.trans (by simp), fun x hx => ?_⟩
  rw [List.getElem?_append_left (by omega)] at hx
  exact honly x hx

theorem Announces.not_changed (h : Announces log path n) {p : String} (hp : p ≠ path) :
    peerChanged log id p n = false := by
  obtain ⟨-, -, honly⟩ := h
  by_contra hc
  rw [Bool.not_eq_false] at hc
  simp only [peerChanged, Bool.and_eq_true, Option.any_eq_true] at hc
  obtain ⟨-, e, he, -, htouch⟩ := hc
  exact hp (honly e he p htouch)

/-! ## What is on its way -/

theorem rest_append (w id : String) (change : WorkspaceChange) (hcursor : v.cursor ≤ changes.length) :
    v.rest w id (changes ++ [change]) = v.rest w id changes ++ ahead w id change := by
  simp [View.rest, List.drop_append_of_le_length hcursor]

theorem ahead_peers (workspace : String) (count : ℕ) :
    ahead w id (.peers workspace count) = [] := by
  by_cases hw : workspace = w
  · simp [ahead, forward, rereads, hw, notice]
  · simp [ahead, forward, rereads, hw]

theorem number_le_of_truthful {change : WorkspaceChange} (h : TruthfulChange w log change) :
    ∀ x ∈ ahead w id change, x.number ≤ log.length := by
  intro x hx
  cases change with
  | files workspace origin =>
    simp only [ahead, forward, List.filterMap_nil, List.nil_append] at hx
    split_ifs at hx
    · obtain rfl := List.mem_singleton.mp hx
      exact Nat.zero_le _
    · cases hx
  | peers workspace count =>
    rw [ahead_peers] at hx
    cases hx
  | document workspace origin path source revision =>
    simp only [ahead, forward, rereads, List.append_nil, Bool.false_eq_true, if_false] at hx
    split_ifs at hx with hmine
    · obtain ⟨hpath, -, hle, -⟩ := h hmine.1
      simp only [List.filterMap_cons, notice, if_neg hpath, List.filterMap_nil,
        List.mem_singleton] at hx
      rw [hx]
      exact hle
    · cases hx

theorem rest_number_le (h : ∀ change ∈ changes, TruthfulChange w log change) :
    ∀ x ∈ v.rest w id changes, x.number ≤ log.length := by
  intro x hx
  rcases List.mem_append.mp hx with hx | hx
  · split_ifs at hx
    · obtain rfl := List.mem_singleton.mp hx
      exact Nat.zero_le _
    · cases hx
  · obtain ⟨change, hmem, hx⟩ := List.mem_flatMap.mp hx
    exact number_le_of_truthful (h change (List.mem_of_mem_drop hmem)) x hx

/-- A change of a peer is announced to a session behind everything else. -/
theorem catchesUp_append {revision : ℕ} {l : List Notice} {e : String × RuntimeClientMessage}
    {x : Notice} (h : CatchesUp (fun k => peerWrote log id k = true) log.length revision l)
    (hx : x = .entry (log.length + 1) ∨ x = .reading) :
    CatchesUp (fun k => peerWrote (log ++ [e]) id k = true) (log ++ [e]).length revision
      (l ++ [x]) := by
  have hlast : (log ++ [e]).length = log.length + 1 := by simp
  have hnew : ∀ k, peerWrote (log ++ [e]) id k = true →
      peerWrote log id k = true ∨ k = log.length + 1 := fun k hk =>
    ((peerWrote_append e).mp hk).imp_right And.left
  refine h.extend (by omega) (fun k hk => (hnew k hk).imp_right (by omega)) fun n hn => ?_
  have hend : ∀ k, peerWrote (log ++ [e]) id k = true → k ≤ max n (log.length + 1) := by
    intro k hk
    rcases hnew k hk with hk | rfl
    · exact le_max_of_le_left (hn k hk)
    · exact le_max_right _ _
  rcases hx with rfl | rfl
  · refine ⟨hlast.ge, fun k hk hlt => ?_, hend⟩
    rcases hnew k hk with hk | rfl
    · have := hn k hk
      omega
    · exact le_rfl
  · exact ⟨log.length + 1, hlast.ge, hend⟩

theorem Sent.Sound.append {revision : ℕ} {sent : Sent} (h : sent.Sound log id revision)
    (e : String × RuntimeClientMessage) (hle : revision ≤ log.length) :
    sent.Sound (log ++ [e]) id revision := by
  obtain ⟨base, hbase, hsome, hup⟩ := h
  exact ⟨base, hbase, hsome, fun path hpath => (hup path hpath).append e (hbase.trans hle)⟩

/-- What another session changes is announced to this one. -/
theorem Standing.append (h : Standing w log changes id v) (hcursor : v.cursor ≤ changes.length)
    {e : String × RuntimeClientMessage} {change : WorkspaceChange} {x : Notice}
    (hx : x = .entry (log.length + 1) ∨ x = .reading) (hahead : ahead w id change = [x]) :
    Standing w (log ++ [e]) (changes ++ [change]) id v := by
  have hrest := rest_append w id change hcursor
  rw [hahead] at hrest
  cases h with
  | idle hphase h => exact .idle hphase h
  | joining hphase h =>
    obtain ⟨early, files, revision, events, hout, hearly, hrev, hle, hcatch⟩ := h.catalog
    refine .joining hphase ⟨h.toUnheard, early, files, revision, events, hout, hearly, hrev,
      hle.trans (by simp), ?_⟩
    rw [hrest, ← List.append_assoc]
    exact catchesUp_append hcatch hx
  | working hphase revision h =>
    refine .working hphase revision ⟨h.revisionRef, h.le_last.trans (by simp), ?_,
      fun path hpath => (h.mirror path hpath).append e h.le_last,
      fun edit hedit => (h.slot edit hedit).append e h.le_last,
      fun y hy => (h.sent y hy).append e h.le_last⟩
    rw [hrest, ← List.append_assoc]
    exact catchesUp_append h.catches hx

/-- What concerns nobody here changes nothing. -/
theorem Standing.append_nil (h : Standing w log changes id v)
    (hcursor : v.cursor ≤ changes.length) {change : WorkspaceChange}
    (hahead : ahead w id change = []) : Standing w log (changes ++ [change]) id v := by
  have hrest : v.rest w id (changes ++ [change]) = v.rest w id changes := by
    rw [rest_append w id change hcursor, hahead, List.append_nil]
  cases h with
  | idle hphase h => exact .idle hphase h
  | joining hphase h =>
    obtain ⟨early, files, revision, events, hout, hearly, hrev, hle, hcatch⟩ := h.catalog
    exact .joining hphase ⟨h.toUnheard, early, files, revision, events, hout, hearly, hrev, hle,
      hrest ▸ hcatch⟩
  | working hphase revision h =>
    exact .working hphase revision ⟨h.revisionRef, h.le_last, hrest ▸ h.catches, h.mirror, h.slot, h.sent⟩

/-! ## What the client does -/

theorem dirty_iff {socket : Socket} {p : String} :
    socket.dirty p = true ↔ ∃ entry ∈ socket.unacknowledged, p ∈ pathsOf entry.2 := by
  simp [Socket.dirty]

/-- A catalog brings every path up to its revision, save those kept. -/
theorem Working.catalog {revision r : ℕ} {c : Client} {events : List ServerEvent}
    (h : Working w log changes id revision v) (files : List ProjectFile)
    (hcatch : CatchesUp (fun k => peerWrote log id k = true) log.length (max revision r)
      (events.filterMap notice ++ v.rest w id changes)) (hr : r ≤ log.length)
    (hears : Hears log id v.client (.projectChanged files r))
    (hc : c = v.client.handleRuntimeEvent (.projectChanged files r)) :
    Working w log changes id (max revision r) { v with client := c, outbox := events } := by
  have hrev : v.client.revisionRef.getD 0 = revision := by rw [h.revisionRef]; rfl
  subst hc
  by_cases hold : r < revision
  · rw [max_eq_left hold.le] at hcatch ⊢
    simp only [Client.handleRuntimeEvent, hrev, if_pos hold]
    exact ⟨h.revisionRef, h.le_last, hcatch, h.mirror, h.slot, h.sent⟩
  · have hle : revision ≤ r := not_lt.mp hold
    obtain ⟨hkept, hslot⟩ := hears.resolve_left (by rw [hrev]; exact hold)
    rw [max_eq_right hle] at hcatch ⊢
    simp only [Client.handleRuntimeEvent, hrev, if_neg hold]
    refine ⟨rfl, hr, hcatch, fun path hpath => ?_, hslot, fun x hx => ?_⟩
    · by_cases hdirty : v.client.socket.dirty path = true
      · obtain ⟨entry, hentry, hmem⟩ := dirty_iff.mp hdirty
        simp only [Client.take, hdirty, Bool.not_true, Bool.false_eq_true, if_false]
        refine (hkept entry hentry path hmem).resolve_left fun hany => ?_
        obtain ⟨edit, hedit, heq⟩ := (Option.any_eq_true _ _).mp hany
        exact hpath edit hedit (by simpa using heq)
      · simp only [Client.take, hdirty, Bool.not_false, if_true]
        exact fun k hk _ => hk
    · obtain ⟨base, hbase, hsound⟩ := h.sent x hx
      exact ⟨base, hbase.trans hle, hsound⟩

/-- A change that is heard in turn goes into the slot, over an older one of its path only. -/
theorem Working.document {revision r : ℕ} {path source : String} {events : List ServerEvent}
    (h : Working w log changes id revision v) (hpath : path ≠ "")
    (hcatch : CatchesUp (fun k => peerWrote log id k = true) log.length (max revision r)
      (events.filterMap notice ++ v.rest w id changes)) (hr : Announces log path r)
    (hnext : ∀ k, peerWrote log id k = true → revision < k → r ≤ k)
    (hears : Hears log id v.client (.documentChanged path source r)) :
    Working w log changes id (max revision r)
      { v with
        client := v.client.handleRuntimeEvent (.documentChanged path source r)
        outbox := events } := by
  have hrev : v.client.revisionRef.getD 0 = revision := by rw [h.revisionRef]; rfl
  by_cases hold : r < revision
  · rw [max_eq_left hold.le] at hcatch ⊢
    simp only [Client.handleRuntimeEvent, hrev, if_pos hold]
    exact ⟨h.revisionRef, h.le_last, hcatch, h.mirror, h.slot, h.sent⟩
  · have hle : revision ≤ r := not_lt.mp hold
    have hsame := (hears.resolve_left hpath).resolve_left (by rw [hrev]; exact hold)
    rw [max_eq_right hle] at hcatch ⊢
    simp only [Client.handleRuntimeEvent, hrev, if_neg hold, if_neg hpath]
    refine ⟨rfl, hr.2.1, hcatch, fun p hp k hk hc => ?_, fun edit hedit => ?_, fun x hx => ?_⟩
    · have hne : p ≠ path := fun heq => hp _ rfl heq.symm
      -- the one new change up to `r` is `r` itself, and it is of another path
      have hkr : k ≤ revision := by
        by_contra hlt
        have hrk := hnext k (peerWrote_of_changed hc) (by omega)
        obtain rfl : k = r := le_antisymm hk hrk
        rw [hr.not_changed hne] at hc
        cases hc
      exact h.mirror p (fun edit hedit => by rw [hsame edit hedit]; exact hne.symm) k hkr hc
    · obtain rfl : _ = edit := Option.some.inj hedit
      exact fun k hk _ => hk
    · obtain ⟨base, hbase, hsound⟩ := h.sent x hx
      exact ⟨base, hbase.trans hle, hsound⟩

/-- The number of an own write may be adopted when no peer's change lies before it. -/
theorem Working.mark {revision r : ℕ} {source : String} {events : List ServerEvent}
    (h : Working w log changes id revision v)
    (hcatch : CatchesUp (fun k => peerWrote log id k = true) log.length (max revision r)
      (events.filterMap notice ++ v.rest w id changes)) (hr : r ≤ log.length)
    (hnone : ∀ k, peerWrote log id k = true → k ≤ r → k ≤ revision) :
    Working w log changes id (max revision r)
      { v with
        client := v.client.handleRuntimeEvent (.documentChanged "" source r)
        outbox := events } := by
  have hrev : v.client.revisionRef.getD 0 = revision := by rw [h.revisionRef]; rfl
  by_cases hold : r < revision
  · rw [max_eq_left hold.le] at hcatch ⊢
    simp only [Client.handleRuntimeEvent, hrev, if_pos hold]
    exact ⟨h.revisionRef, h.le_last, hcatch, h.mirror, h.slot, h.sent⟩
  · have hle : revision ≤ r := not_lt.mp hold
    rw [max_eq_right hle] at hcatch ⊢
    simp only [Client.handleRuntimeEvent, hrev, if_neg hold, if_true]
    refine ⟨rfl, hr, hcatch, fun p hp k hk hc => ?_, fun edit hedit k hk hc => ?_, fun x hx => ?_⟩
    · exact h.mirror p hp k (hnone k (peerWrote_of_changed hc) hk) hc
    · exact h.slot edit hedit k (hnone k (peerWrote_of_changed hc) hk) hc
    · obtain ⟨base, hbase, hsound⟩ := h.sent x hx
      exact ⟨base, hbase.trans hle, hsound⟩

theorem Working.deliver {revision : ℕ} {event : ServerEvent} {events : List ServerEvent}
    (h : Working w log changes id revision v) (hout : v.outbox = event :: events)
    (htrue : Truthful log event) (hears : Hears log id v.client event) :
    ∃ r, Working w log changes id r
      { v with client := v.client.onMessage event, outbox := events } := by
  have hcatch := h.catches
  rw [hout] at hcatch
  cases event with
  | projectChanged files r =>
    obtain ⟨hr, hcatch⟩ := hcatch
    exact ⟨_, h.catalog (v.client.socket.keepLocal v.client.files files) hcatch hr hears rfl⟩
  | documentChanged path source r =>
    by_cases hpath : path = ""
    · subst hpath
      obtain ⟨hr, hnone, hcatch⟩ := hcatch
      exact ⟨_, h.mark hcatch hr hnone⟩
    · rw [List.filterMap_cons_some (by simp [notice, hpath] : _ = some (Notice.entry r))] at hcatch
      obtain ⟨-, hnext, hcatch⟩ := hcatch
      exact ⟨_, h.document hpath hcatch (htrue hpath) hnext hears⟩
  | documentConflict path r =>
    obtain rfl : revision = r := Option.some.inj (h.revisionRef.symm.trans hears)
    exact ⟨revision, rfl, h.le_last, hcatch, h.mirror, h.slot, h.sent⟩
  | projectFiles version files =>
    refine ⟨revision, ?_⟩
    simp only [Client.onMessage, Client.handleRuntimeEvent]
    split_ifs <;> exact ⟨h.revisionRef, h.le_last, hcatch, h.mirror, h.slot, h.sent⟩
  | documentSaved version =>
    exact ⟨revision, h.revisionRef, h.le_last, hcatch, h.mirror, h.slot, h.sent⟩
  | runState | workspacePeers | serverError =>
    exact ⟨revision, h.revisionRef, h.le_last, hcatch, h.mirror, h.slot, h.sent⟩

/-- Before the catalog only the revision moves, and the catalog brings everything. -/
theorem Joining.deliver {event : ServerEvent} {events : List ServerEvent}
    (h : Joining w log changes id v) (hout : v.outbox = event :: events) :
    Joining w log changes id { v with client := v.client.onMessage event, outbox := events } ∨
      ∃ r, Working w log changes id r
        { v with client := v.client.onMessage event, outbox := events } := by
  obtain ⟨early, files, r, rest, heq, hearly, hrev, hle, hcatch⟩ := h.catalog
  rw [hout] at heq
  cases early with
  | nil =>
    obtain ⟨rfl, rfl⟩ : event = .projectChanged files r ∧ events = rest := by simpa using heq
    have hnone : v.client.socket.dirty = fun _ => false := by
      funext p
      simp [Socket.dirty, h.saved]
    refine .inr ⟨r, ?_⟩
    simp only [Client.onMessage, Client.handleRuntimeEvent, if_neg (not_lt.mpr hrev)]
    refine ⟨rfl, hle, hcatch, fun path _ => ?_, fun edit hedit => ?_, fun x hx => ?_⟩
    · simp only [Client.take, hnone, Bool.not_false, if_true]
      exact fun k hk _ => hk
    · have hslot : v.client.remoteEdit = some edit := hedit
      rw [h.remoteEdit] at hslot
      cases hslot
    · have hx : x ∈ v.inbox := hx
      rw [h.inbox] at hx
      cases hx
  | cons e early =>
    obtain ⟨rfl, rfl⟩ : event = e ∧ events = early ++ .projectChanged files r :: rest := by
      simpa using heq
    rw [List.forall_mem_cons] at hearly
    refine .inl ?_
    cases event with
    | documentChanged path source n =>
      obtain ⟨rfl, hn⟩ := hearly.1
      by_cases hold : n < v.client.revisionRef.getD 0
      · simp only [Client.onMessage, Client.handleRuntimeEvent, if_pos hold]
        exact ⟨⟨h.inbox, h.saved, h.remoteEdit, h.loaded⟩, early, files, r, rest, rfl, hearly.2,
          hrev, hle, hcatch⟩
      · simp only [Client.onMessage, Client.handleRuntimeEvent, if_neg hold, if_true]
        exact ⟨⟨h.inbox, h.saved, h.remoteEdit, h.loaded⟩, early, files, r, rest, rfl, hearly.2,
          hn, hle, hcatch⟩
    | workspacePeers count =>
      exact ⟨⟨h.inbox, h.saved, h.remoteEdit, h.loaded⟩, early, files, r, rest, rfl, hearly.2,
        hrev, hle, hcatch⟩
    | _ => exact absurd hearly.1 (by simp [Early])

/-- The shell puts the edit that came into its file. -/
theorem Working.effect {revision : ℕ} (h : Working w log changes id revision v)
    (hsafe : ∀ edit ∈ v.client.remoteEdit,
      v.client.has edit.path = true ∧ v.client.editing edit.path = false) :
    Working w log changes id revision { v with client := v.client.applyRemoteEdit } := by
  cases hslot : v.client.remoteEdit with
  | none =>
    simp only [Client.applyRemoteEdit, hslot]
    exact h
  | some edit =>
    obtain ⟨hhas, hediting⟩ := hsafe edit hslot
    simp only [Client.applyRemoteEdit, hslot, hediting, Bool.false_eq_true, if_false]
    refine ⟨h.revisionRef, h.le_last, h.catches, fun path _ => ?_, fun _ he => ?_, h.sent⟩
    · by_cases hp : path = edit.path
      · subst hp
        simp only [Client.take, hhas, decide_true, Bool.and_self, if_true]
        exact h.slot edit hslot
      · simp only [Client.take, hp, decide_false, Bool.and_false, Bool.false_eq_true, if_false]
        refine h.mirror path fun other hother => ?_
        obtain rfl : edit = other := Option.some.inj (hslot.symm.trans hother)
        exact fun heq => hp heq.symm
    · cases he

theorem baseRevision_withBase {m : RuntimeClientMessage} {revision : ℕ} (hq : queueable m = true)
    (hm : baseRevision m = none ∨ baseRevision m = some revision) :
    baseRevision (withBase (some revision) m) = some revision := by
  cases m with
  | documentUpdate version path source base | fileCreate version path source base
  | fileRename version path source base | fileDelete version path base
  | workspaceReset version scaffold base =>
    rcases hm with hm | hm <;>
      · simp only [baseRevision] at hm
        subst hm
        rfl
  | _ => cases hq

theorem updatedPath_withBase (revision : Option ℕ) (m : RuntimeClientMessage) :
    updatedPath (withBase revision m) = updatedPath m := by
  cases m <;> rfl

theorem withBase_of_sent {socket socket' : Socket} {revision : Option ℕ} {isOpen : Bool}
    {m sent : RuntimeClientMessage}
    (h : socket.sendRuntime revision isOpen m = (some sent, socket')) :
    sent = withBase revision m := by
  simp only [Socket.sendRuntime] at h
  split_ifs at h
  · cases h
  · exact (Option.some.inj (congrArg Prod.fst h)).symm
  · cases h
  · cases h

/-- What an operation of the user leaves of the client, and what it sends. -/
structure Operated (c : Client) (op : Operation) (result : Option RuntimeClientMessage × Client) :
    Prop where
  revisionRef : result.2.revisionRef = c.revisionRef
  remoteEdit : result.2.remoteEdit = c.remoteEdit
  builtOn : result.2.builtOn = c.builtOn
  base : ∀ m ∈ result.1, ∀ revision, c.revisionRef = some revision →
    baseRevision m = some revision
  path : ∀ m ∈ result.1, ∀ path ∈ updatedPath m, path = c.activePath ∧ ∃ source, op = .change source

theorem operated_none (c : Client) (op : Operation) : Operated c op (none, c) :=
  ⟨rfl, rfl, rfl, (fun _ hm => by cases hm), fun _ hm => by cases hm⟩

theorem operated_send {c : Client} {op : Operation} {files : List ProjectFile}
    {m : ℕ → RuntimeClientMessage} (hq : ∀ n, queueable (m n) = true)
    (hbase : ∀ n, baseRevision (m n) = none ∨ baseRevision (m n) = c.revisionRef)
    (hpath : ∀ n, ∀ path ∈ updatedPath (m n), path = c.activePath ∧ ∃ source, op = .change source) :
    Operated c op (c.send files m) := by
  refine ⟨rfl, rfl, rfl, fun sent hsent revision hrev => ?_, fun sent hsent => ?_⟩
  all_goals
    have hwith : sent = withBase c.revisionRef (m (c.version + 1)) :=
      withBase_of_sent (Prod.ext hsent rfl)
  · rw [hwith, hrev]
    exact baseRevision_withBase (hq _) (hrev ▸ hbase _)
  · rw [hwith, updatedPath_withBase]
    exact hpath _

theorem operated (session : Session) (c : Client) (op : Operation) :
    Operated c op (op.run session c) := by
  cases op with
  | change source =>
    simp only [Operation.run, Client.onChange]
    cases c.files.find? fun f => f.path = c.activePath with
    | none => exact operated_none c _
    | some current =>
      by_cases hsame : source = current.source
      · simp only [if_pos hsame]
        exact operated_none c _
      · simp only [if_neg hsame]
        refine operated_send (fun _ => rfl) (fun _ => .inr rfl) fun n path hp => ?_
        exact ⟨(Option.some.inj hp).symm, source, rfl⟩
  | create path =>
    simp only [Operation.run, Client.createFileNamed]
    split_ifs
    · exact operated_none c _
    · exact operated_send (fun _ => rfl) (fun _ => .inl rfl) fun n path hp => by cases hp
  | rename path newPath =>
    simp only [Operation.run, Client.renameFileTo]
    split_ifs
    · exact operated_none c _
    · exact operated_send (fun _ => rfl) (fun _ => .inl rfl) fun n path hp => by cases hp
  | remove path =>
    simp only [Operation.run, Client.removeFile]
    split_ifs
    · exact operated_none c _
    · exact operated_send (fun _ => rfl) (fun _ => .inl rfl) fun n path hp => by cases hp
  | reset scaffold =>
    simp only [Operation.run, Client.resetWorkspace]
    exact operated_send (fun _ => rfl) (fun _ => .inl rfl) fun n path hp => by cases hp

theorem Working.operate {revision : ℕ} (h : Working w log changes id revision v)
    {op : Operation} {result : Option RuntimeClientMessage × Client}
    (hop : Operated v.client op result)
    (hslot : ∀ source, op = .change source →
      ∀ edit ∈ v.client.remoteEdit, edit.path ≠ v.client.activePath) :
    Working w log changes id revision
      { v with
        client := result.2
        inbox := v.inbox ++ (result.1.map fun m => (⟨m, v.client.builtOn⟩ : Sent)).toList } := by
  refine ⟨hop.revisionRef.trans h.revisionRef, h.le_last, h.catches, ?_, ?_, fun x hx => ?_⟩
  · simp only [hop.remoteEdit, hop.builtOn]
    exact h.mirror
  · simp only [hop.remoteEdit]
    exact h.slot
  · rcases List.mem_append.mp hx with hx | hx
    · exact h.sent x hx
    · obtain ⟨m, hm, rfl⟩ : ∃ m, result.1 = some m ∧ ⟨m, v.client.builtOn⟩ = x := by
        simpa using hx
      refine ⟨revision, le_rfl, hop.base m hm revision h.revisionRef, fun path hpath => ?_⟩
      obtain ⟨rfl, source, heq⟩ := hop.path m hm path hpath
      exact h.mirror _ (hslot source heq)

/-! ## What the forwarder and the server do -/

theorem Standing.notYet (h : Standing w log changes id v) (hphase : v.phase ≠ .attached) :
    Idle v := by
  cases h with
  | idle _ h => exact h
  | joining hatt _ => exact absurd hatt hphase
  | working hatt _ _ => exact absurd hatt hphase

theorem Working.congr {revision : ℕ} (h : Working w log changes id revision v) {v' : View}
    (hclient : v'.client = v.client) (hinbox : ∀ x ∈ v'.inbox, x ∈ v.inbox)
    (hcatch : CatchesUp (fun k => peerWrote log id k = true) log.length revision
      (v'.outbox.filterMap notice ++ v'.rest w id changes)) :
    Working w log changes id revision v' := by
  refine ⟨?_, h.le_last, hcatch, ?_, ?_, fun x hx => h.sent x (hinbox x hx)⟩
  all_goals rw [hclient]
  · exact h.revisionRef
  · exact h.mirror
  · exact h.slot

/-- The forwarder's part changes behind the outbox. -/
theorem Standing.forward (h : Standing w log changes id v) (hphase : v.phase = .attached)
    {v' : View} (sent : List ServerEvent) (hclient : v'.client = v.client)
    (hinbox : v'.inbox = v.inbox) (hphase' : v'.phase = v.phase)
    (hout : v'.outbox = v.outbox ++ sent)
    (hrest : ∀ n, CatchesUp (fun k => peerWrote log id k = true) log.length n
      (v.rest w id changes) → CatchesUp (fun k => peerWrote log id k = true) log.length n
        (sent.filterMap notice ++ v'.rest w id changes)) :
    Standing w log changes id v' := by
  cases h with
  | idle hidle _ => exact absurd hphase hidle
  | joining _ h =>
    obtain ⟨early, files, r, events, heq, hearly, hrev, hle, hcatch⟩ := h.catalog
    refine .joining (hphase'.trans hphase) ⟨⟨hinbox.trans h.inbox, hclient ▸ h.saved,
      hclient ▸ h.remoteEdit, hclient ▸ h.loaded⟩, early, files, r, events ++ sent, ?_, hearly,
      hclient ▸ hrev, hle, ?_⟩
    · rw [hout, heq, List.append_assoc, List.cons_append]
    · rw [List.filterMap_append, List.append_assoc]
      exact hcatch.congr_tail hrest
  | working _ revision h =>
    refine .working (hphase'.trans hphase) revision (h.congr hclient (fun x hx => hinbox ▸ hx) ?_)
    rw [hout, List.filterMap_append, List.append_assoc]
    exact h.catches.congr_tail hrest

theorem rest_receive {change : WorkspaceChange} (hwaiting : v.waiting = false)
    (hnext : changes[v.cursor]? = some change) :
    v.rest w id changes = (forward w id change).filterMap notice ++
      { v with cursor := v.cursor + 1, waiting := rereads w id change }.rest w id changes := by
  have hdrop : changes.drop v.cursor = change :: changes.drop (v.cursor + 1) := by
    obtain ⟨hlt, rfl⟩ := List.getElem?_eq_some_iff.mp hnext
    exact List.drop_eq_getElem_cons hlt
  simp [View.rest, hwaiting, hdrop, ahead]

theorem rest_lag (w id : String) (v : View) {n : ℕ} (hn : v.cursor ≤ n)
    (hnone : ∀ change ∈ (changes.drop v.cursor).take (n - v.cursor), ahead w id change = []) :
    { v with cursor := n }.rest w id changes = v.rest w id changes := by
  have hsplit : changes.drop v.cursor = (changes.drop v.cursor).take (n - v.cursor) ++
      changes.drop n := by
    conv_lhs => rw [← List.take_append_drop (n - v.cursor) (changes.drop v.cursor)]
    rw [List.drop_drop]
    congr 2
    omega
  simp only [View.rest]
  rw [hsplit, List.flatMap_append, List.flatMap_eq_nil_iff.mpr hnone, List.nil_append]

theorem ahead_of_not_concerns {change : WorkspaceChange} (h : concerns w id change = false) :
    ahead w id change = [] := by
  cases change with
  | peers workspace count => exact ahead_peers workspace count
  | files workspace origin =>
    have hno : rereads w id (.files workspace origin) = false := h
    simp [ahead, PeerUpdate.forward, hno]
  | document workspace origin path source revision =>
    have hno : ¬ (workspace = w ∧ origin ≠ id) := by simpa [concerns] using h
    simp [ahead, PeerUpdate.forward, rereads, hno]

theorem rest_refresh (hwaiting : v.waiting = true) (files : List ProjectFile) :
    ∀ n, CatchesUp (fun k => peerWrote log id k = true) log.length n (v.rest w id changes) →
      CatchesUp (fun k => peerWrote log id k = true) log.length n
        ([ServerEvent.projectChanged files log.length].filterMap notice ++
          { v with waiting := false }.rest w id changes) := by
  intro n h
  simp only [View.rest, hwaiting, if_true, List.singleton_append] at h
  simpa [View.rest, notice] using h.read

/-- An own write is the only thing its session may hear of with others unheard. -/
theorem Working.accepted {revision : ℕ} (h : Working w log changes id revision v)
    (hchanges : ∀ change ∈ changes, TruthfulChange w log change)
    (hcursor : v.cursor ≤ changes.length) {m : RuntimeClientMessage} {change : WorkspaceChange}
    (hown : concerns w id change = false)
    (hpast : ∀ k, peerWrote log id k = true → k ≤ revision) {told : List ServerEvent}
    (htold : ∀ x ∈ told.filterMap notice, x = .mark (log.length + 1)) {inbox : List Sent}
    (hinbox : ∀ x ∈ inbox, x ∈ v.inbox) :
    Working w (log ++ [(id, m)]) (changes ++ [change]) id revision
      { v with outbox := v.outbox ++ told, inbox := inbox } := by
  have hlast : (log ++ [(id, m)]).length = log.length + 1 := by simp
  have hsame : ∀ k, peerWrote (log ++ [(id, m)]) id k = true → k ≤ revision := by
    intro k hk
    rcases (peerWrote_append (id, m)).mp hk with hk | ⟨-, hne⟩
    · exact hpast k hk
    · exact absurd rfl hne
  refine ⟨h.revisionRef, h.le_last.trans (by simp), ?_,
    fun path hpath => (h.mirror path hpath).append _ h.le_last,
    fun edit hedit => (h.slot edit hedit).append _ h.le_last,
    fun x hx => (h.sent x (hinbox x hx)).append _ h.le_last⟩
  refine catchesUp_of_past hsame fun x hx => ?_
  have hrest : View.rest w id (changes ++ [change])
      { v with outbox := v.outbox ++ told, inbox := inbox } = v.rest w id changes := by
    change v.rest w id (changes ++ [change]) = _
    rw [rest_append w id change hcursor, ahead_of_not_concerns hown, List.append_nil]
  rw [hrest, List.filterMap_append, List.mem_append, List.mem_append] at hx
  rcases hx with (hx | hx) | hx
  · have := h.catches.number_le x (List.mem_append_left _ hx)
    omega
  · rw [htold x hx]
    exact hlast.ge
  · have := rest_number_le hchanges x hx
    omega

/-- What an accepted change is broadcast as. -/
def announcement (w id : String) (m : RuntimeClientMessage) (revision : ℕ) : WorkspaceChange :=
  match m with
  | .documentUpdate _ path source _ => .document w id path source revision
  | _ => .files w id

theorem record_ok {c : Collab.State} {m : RuntimeClientMessage}
    (h : writerBaseOk c w id (baseRevision m) (revision c w) = true) :
    record w c id m = (.ok (revision c w + 1),
      Collab.send (advanced c w id) (announcement w id m (revision c w + 1))) := by
  cases m with
  | documentUpdate version path source base =>
    exact (recordEdit_eq c w id path source base).trans (if_pos h)
  | _ => exact (recordFiles_eq c w id _).trans (if_pos h)

theorem truthful_of_notice {event : ServerEvent} (h : notice event = none) :
    Truthful log event := by
  cases event with
  | documentChanged path source revision =>
    simp only [notice] at h
    split_ifs at h
  | _ => trivial

theorem queueable_of_performed {s : State} {m : RuntimeClientMessage} {snapshot : Snapshot}
    (h : perform sessions texts id s m = .ok snapshot) : queueable m = true := by
  obtain ⟨_, -, h⟩ := Session.bind_eq_ok h
  cases m with
  | documentUpdate | fileCreate | fileRename | fileDelete | workspaceReset => rfl
  | _ => cases h

/-- A message is refused with nothing changed, or its base was good and it is recorded. -/
theorem handleMessage_cases (sessions : String → Session) (texts : String → String) (w : String)
    (s : State) (id : String) (m : RuntimeClientMessage) (fails : Bool) :
    (∃ events, events.filterMap notice = [] ∧
      handleMessage sessions texts w s id m fails = s.send id events) ∨
    ∃ snapshot, validate m = .ok () ∧ queueable m = true ∧
      writerBaseOk s.collab w id (baseRevision m) (revision s.collab w) = true ∧
      handleMessage sessions texts w s id m fails = accept w s id m snapshot := by
  simp only [handleMessage]
  cases hvalid : validate m with
  | error details => exact .inl ⟨_, rfl, rfl⟩
  | ok _ =>
    cases hcheck : checkWriterBase s.collab w id (baseRevision m) with
    | error conflict => exact .inl ⟨_, rfl, rfl⟩
    | ok _ =>
      cases hperform : perform sessions texts id s m with
      | error error => exact .inl ⟨_, rfl, rfl⟩
      | ok snapshot =>
        cases fails with
        | true => exact .inl ⟨_, rfl, rfl⟩
        | false =>
          refine .inr ⟨snapshot, rfl, queueable_of_performed hperform, ?_, rfl⟩
          rw [← checkWriterBase_isOk, hcheck]
          rfl

theorem path_ne_empty {version : ℕ} {source : String} {base : Option ℕ}
    (h : validate (.documentUpdate version path source base) = .ok ()) : path ≠ "" := by
  obtain ⟨⟨⟩, -, h⟩ := Session.bind_eq_ok h
  obtain ⟨⟨⟩, h, -⟩ := Session.bind_eq_ok h
  rintro rfl
  revert h
  decide

theorem truthful_announcement {m : RuntimeClientMessage} (hvalid : validate m = .ok ()) :
    TruthfulChange w (log ++ [(id, m)]) (announcement w id m (log.length + 1)) := by
  cases m with
  | documentUpdate version path source base =>
    refine fun _ => ⟨path_ne_empty hvalid, Nat.succ_pos _, by simp, fun e he p hp => ?_⟩
    obtain rfl : (id, RuntimeClientMessage.documentUpdate version path source base) = e := by
      simpa using he
    exact (of_decide_eq_true hp).symm
  | _ => trivial

theorem ahead_announcement (w : String) {m : RuntimeClientMessage} (hvalid : validate m = .ok ())
    {origin : String} (hne : origin ≠ id) (n : ℕ) :
    ∃ x, (x = .entry n ∨ x = .reading) ∧ ahead w id (announcement w origin m n) = [x] := by
  cases m with
  | documentUpdate version path source base =>
    refine ⟨_, .inl rfl, ?_⟩
    simp [announcement, ahead, PeerUpdate.forward, rereads, hne, notice, path_ne_empty hvalid]
  | _ => exact ⟨_, .inr rfl, by simp [announcement, ahead, PeerUpdate.forward, rereads, hne]⟩

theorem not_concerns_announcement (m : RuntimeClientMessage) (n : ℕ) :
    concerns w id (announcement w id m n) = false := by
  cases m <;> simp [announcement, concerns]

theorem notice_catalogFor (snapshot : Snapshot) (m : RuntimeClientMessage) :
    (catalogFor snapshot m).filterMap notice = [] := by
  cases m <;> rfl

/-- The base that passed the check has nothing of a peer after it. -/
theorem le_base_of_ok {s : State} (h : Inv w s) {base : ℕ}
    (hok : writerBaseOk s.collab w id (some base) (revision s.collab w) = true) :
    ∀ k, peerWrote s.log id k = true → k ≤ base := by
  obtain ⟨authors, htracks, hauthors⟩ := h.tracks
  obtain ⟨-, howned⟩ := (writerBaseOk_iff_of_tracks htracks w id base).mp hok
  rw [TailRun.ownedFrom_iff_getElem?, hauthors] at howned
  intro k hk
  by_contra hlt
  have hle := le_length_of_wrote hk
  have hmine := howned k (by omega) (by simpa using hle)
  simp only [peerWrote, Bool.and_eq_true, Option.any_eq_true] at hk
  obtain ⟨-, e, he, hne⟩ := hk
  rw [List.getElem?_map, he] at hmine
  exact (of_decide_eq_true hne) (Option.some.inj hmine)

theorem revision_eq {s : State} (h : Inv w s) : revision s.collab w = s.log.length := by
  obtain ⟨authors, htracks, hauthors⟩ := h.tracks
  rw [htracks.length_eq, hauthors, List.length_map]

/-! ## One step -/

section
variable {s t : State}

theorem inv_init (files : List ProjectFile) : Inv w (init files) where
  tracks := ⟨fun _ => [], ⟨fun _ => rfl, fun _ => rfl⟩, rfl⟩
  changes _ h := by cases h
  cursor _ := le_rfl
  outbox _ _ h := by cases h
  standing _ := .idle (by simp [State.view, init]) ⟨⟨rfl, rfl, rfl, rfl⟩, rfl, rfl, rfl⟩

/-- A step that moves one session only. -/
theorem Inv.actor (h : Inv w s) (id : String) (hlog : t.log = s.log)
    (hcollab : t.collab = s.collab) (hview : ∀ j, j ≠ id → t.view j = s.view j)
    (hcursor : (t.view id).cursor ≤ s.collab.changes.length)
    (hout : ∀ event ∈ (t.view id).outbox, Truthful s.log event)
    (hstand : Standing w s.log s.collab.changes id (t.view id)) : Inv w t := by
  have hcase : ∀ {p : String → View → Prop}, (∀ j, p j (s.view j)) → p id (t.view id) →
      ∀ j, p j (t.view j) := by
    intro p hall hid j
    by_cases hj : j = id
    · rw [hj]; exact hid
    · rw [hview j hj]; exact hall j
  refine ⟨?_, ?_, fun j => ?_, fun j => ?_, fun j => ?_⟩
  · rw [hlog, hcollab]; exact h.tracks
  · rw [hlog, hcollab]; exact h.changes
  · rw [hcollab]
    exact hcase (p := fun _ v => v.cursor ≤ s.collab.changes.length) h.cursor hcursor j
  · rw [hlog]
    exact hcase (p := fun _ v => ∀ event ∈ v.outbox, Truthful s.log event) h.outbox hout j
  · rw [hlog, hcollab]
    exact hcase (p := fun j v => Standing w s.log s.collab.changes j v) h.standing hstand j

/-- A change that concerns nobody here goes by on the channel. -/
theorem Inv.announce (h : Inv w s) {c : Collab.State} {change : WorkspaceChange}
    (hchanges : c.changes = s.collab.changes ++ [change])
    (hrevision : ∀ v, revision c v = revision s.collab v) (hwriters : c.writers = s.collab.writers)
    (hnone : ∀ id, ahead w id change = []) (htrue : TruthfulChange w s.log change) :
    Inv w { s with collab := c } where
  tracks := by
    obtain ⟨authors, ht, heq⟩ := h.tracks
    refine ⟨authors, ⟨fun v => (hrevision v).trans (ht.length_eq v), fun v => ?_⟩, heq⟩
    rw [hwriters]
    exact ht.summarises v
  changes x hx := by
    rw [hchanges] at hx
    rcases List.mem_append.mp hx with hx | hx
    · exact h.changes x hx
    · obtain rfl := List.mem_singleton.mp hx
      exact htrue
  cursor id := by
    simp only [hchanges, List.length_append]
    exact (h.cursor id).trans (Nat.le_add_right _ _)
  outbox := h.outbox
  standing id := by
    simp only [hchanges]
    exact (h.standing id).append_nil (h.cursor id) (hnone id)

theorem view_setClient (s : State) (id : String) (c : Client) :
    (s.setClient id c).view id = { s.view id with client := c } := by
  simp [State.view, State.setClient]

theorem view_setClient_ne {j : String} (hj : j ≠ id) (s : State) (c : Client) :
    (s.setClient id c).view j = s.view j := by
  simp [State.view, State.setClient, hj]

theorem view_send (s : State) (id : String) (events : List ServerEvent) :
    (s.send id events).view id = { s.view id with outbox := s.outbox id ++ events } := by
  simp [State.view, State.send]

theorem view_send_ne {j : String} (hj : j ≠ id) (s : State) (events : List ServerEvent) :
    (s.send id events).view j = s.view j := by
  simp [State.view, State.send, hj]

theorem Inv.idle (h : Inv w s) (id : String) (hphase : s.phase id ≠ .attached) : Idle (s.view id) :=
  (h.standing id).notYet hphase

/-- A session that has something on its way to the server has heard its catalog. -/
theorem Inv.working (h : Inv w s) (id : String) (hheard : ¬ Unheard (s.view id)) :
    s.phase id = .attached ∧ ∃ revision, Working w s.log s.collab.changes id revision (s.view id) := by
  cases h.standing id with
  | idle _ hidle => exact absurd hidle.toUnheard hheard
  | joining _ hjoin => exact absurd hjoin.toUnheard hheard
  | working hphase revision hwork => exact ⟨hphase, revision, hwork⟩

theorem inv_open (h : Inv w s) (hphase : s.phase id = .absent) :
    Inv w (next sessions texts w s (.openSession id)) := by
  have hidle := h.idle id (by simp [hphase])
  refine h.actor id rfl rfl (fun j hj => by simp [State.view, next, hj]) ?_ ?_ ?_
  · simpa [State.view, next] using h.cursor id
  · simpa [State.view, next] using h.outbox id
  · refine .idle (by simp [State.view, next]) ?_
    exact ⟨⟨hidle.inbox, by simp [State.view, next, Client.opened, Socket.empty],
      by simp [State.view, next, Client.opened], by simp [State.view, next, Client.opened]⟩,
      hidle.outbox, hidle.waiting, by simp [State.view, next, Client.opened]⟩

theorem inv_subscribe (h : Inv w s) (hphase : s.phase id = .opened) :
    Inv w (next sessions texts w s (.subscribe id)) := by
  have hidle := h.idle id (by simp [hphase])
  refine h.actor id rfl rfl (fun j hj => by simp [State.view, next, hj]) ?_ ?_ ?_
  · simp [State.view, next]
  · simpa [State.view, next] using h.outbox id
  · refine .idle (by simp [State.view, next]) ?_
    exact ⟨⟨hidle.inbox, hidle.saved, hidle.remoteEdit, hidle.loaded⟩, hidle.outbox,
      hidle.waiting, hidle.revisionRef⟩

theorem catalog_eq {fails : Bool} {n : ℕ}
    (h : fails = false ∧ (refreshFiles sessions id s).isOk = true) :
    ∃ files, catalog sessions id s fails n = [.projectChanged files n] := by
  obtain ⟨rfl, hok⟩ := h
  simp only [catalog]
  cases hr : refreshFiles sessions id s with
  | ok snapshot => exact ⟨snapshot.files, rfl⟩
  | error e => simp [hr, Except.isOk, Except.toBool] at hok

theorem inv_attach (h : Inv w s) {fails : Bool} (hphase : s.phase id = .subscribed)
    (hcond : Careful sessions w s (.attach id fails)) :
    Inv w (next sessions texts w s (.attach id fails)) := by
  have hidle := h.idle id (by simp [hphase])
  obtain ⟨files, hcatalog⟩ := catalog_eq (n := s.log.length) hcond
  have hjoined : Inv w { s with collab := (join s.collab w id).2 } :=
    h.announce rfl (revision_join s.collab w id) (join_writers s.collab w id)
      (fun j => ahead_peers w _) trivial
  have hrevision : (join s.collab w id).1 = s.log.length := revision_eq h
  refine hjoined.actor id rfl rfl (fun j hj => by simp [State.view, next, State.send, hj]) ?_ ?_ ?_
  · simpa [State.view, next, State.send] using hjoined.cursor id
  · have hout : s.outbox id = [] := hidle.outbox
    simp [State.view, next, State.send, hrevision, hcatalog, hout, Truthful]
  · refine .joining (by simp [State.view, next, State.send])
      ⟨⟨hidle.inbox, hidle.saved, hidle.remoteEdit, hidle.loaded⟩, ?_⟩
    have hout : s.outbox id = [] := hidle.outbox
    have hnone : (s.client id).revisionRef = none := hidle.revisionRef
    refine ⟨[.documentChanged "" "" s.log.length, .workspacePeers (peerCount (join s.collab w id).2 w)],
      files, s.log.length, [], ?_, ?_, ?_, le_rfl, ?_⟩
    · simp [State.view, next, State.send, hcatalog, hout, hrevision]
    · simp [Early]
    · simp [State.view, next, State.send, hnone]
    · exact catchesUp_of_past (fun k hk => le_length_of_wrote hk)
        (rest_number_le hjoined.changes)

theorem inv_receive (h : Inv w s) (ha : enabled w s (.receive id)) :
    Inv w (next sessions texts w s (.receive id)) := by
  obtain ⟨hphase, hwaiting, hbehind, -⟩ := ha
  have hlt : s.cursor id < s.collab.changes.length := by
    simp only [behind] at hbehind
    omega
  have hnext : s.collab.changes[s.cursor id]? = some s.collab.changes[s.cursor id] :=
    List.getElem?_eq_getElem hlt
  generalize s.collab.changes[s.cursor id] = change at hnext
  simp only [next, hnext]
  refine h.actor id rfl rfl (fun j hj => by simp [State.view, State.send, hj]) ?_ ?_ ?_
  · simpa [State.view, State.send] using Nat.succ_le_of_lt hlt
  · intro event hevent
    simp only [view_send, List.mem_append] at hevent
    rcases hevent with hevent | hevent
    · exact h.outbox id event hevent
    · have htrue := h.changes change (List.mem_of_getElem? hnext)
      cases change with
      | files | peers =>
        refine truthful_of_notice ?_
        simp only [PeerUpdate.forward] at hevent
        try split_ifs at hevent
        all_goals simp at hevent
        try rw [hevent]; rfl
      | document workspace origin path source revision =>
        simp only [PeerUpdate.forward] at hevent
        split_ifs at hevent with hmine
        · obtain rfl := List.mem_singleton.mp hevent
          exact fun _ => (htrue hmine.1).2
        · cases hevent
  · refine (h.standing id).forward hphase (PeerUpdate.forward w id change)
      (by simp [State.view, State.send]) (by simp [State.view, State.send])
      (by simp [State.view, State.send]) (by simp [State.view, State.send]) fun n hn => ?_
    rw [rest_receive (v := s.view id) hwaiting hnext] at hn
    simpa [State.view, State.send, View.rest] using hn

theorem inv_lag (h : Inv w s) (ha : enabled w s (.lag id))
    (hcond : Careful sessions w s (.lag id)) : Inv w (next sessions texts w s (.lag id)) := by
  obtain ⟨hphase, hwaiting, hbehind⟩ := ha
  have hle : s.cursor id ≤ s.collab.changes.length - backlog := by
    simp only [behind] at hbehind
    omega
  refine h.actor id rfl rfl (fun j hj => by simp [State.view, next, hj]) ?_ ?_ ?_
  · simp [State.view, next]
  · simpa [State.view, next] using h.outbox id
  · have hdropped : behind s id - backlog =
        s.collab.changes.length - backlog - s.cursor id := by
      simp only [behind]
      omega
    have hall := List.all_eq_true.mp hcond
    rw [hdropped] at hall
    have hrest := rest_lag w id (s.view id) hle fun change hmem =>
      ahead_of_not_concerns (by simpa using hall change hmem)
    have hview : (next sessions texts w s (.lag id)).view id =
        { s.view id with cursor := s.collab.changes.length - backlog } := by
      simp [State.view, next]
    rw [hview]
    refine (h.standing id).forward hphase [] rfl rfl rfl (List.append_nil _).symm fun n hn => ?_
    rw [hrest]
    exact hn

theorem inv_refresh (h : Inv w s) {fails : Bool} (hwaiting : s.waiting id = true)
    (hcond : Careful sessions w s (.refresh id fails)) :
    Inv w (next sessions texts w s (.refresh id fails)) := by
  obtain ⟨files, hcatalog⟩ := catalog_eq (n := revision s.collab w) hcond
  have hphase : s.phase id = .attached := by
    by_contra hphase
    have hno : s.waiting id = false := (h.idle id hphase).waiting
    rw [hwaiting] at hno
    cases hno
  rw [revision_eq h] at hcatalog
  simp only [next, revision_eq h, hcatalog]
  refine h.actor id rfl rfl (fun j hj => by simp [State.view, State.send, hj]) ?_ ?_ ?_
  · simpa [State.view, State.send] using h.cursor id
  · simp only [view_send, List.mem_append]
    rintro event (hevent | hevent)
    · exact h.outbox id event hevent
    · obtain rfl := List.mem_singleton.mp hevent
      trivial
  · refine (h.standing id).forward hphase [.projectChanged files s.log.length]
      (by simp [State.view, State.send]) (by simp [State.view, State.send])
      (by simp [State.view, State.send]) (by simp [State.view, State.send]) fun n hn => ?_
    have := rest_refresh (v := s.view id) hwaiting files n hn
    simpa [State.view, State.send, View.rest] using this

theorem inv_deliver (h : Inv w s) (ha : s.outbox id ≠ [])
    (hcond : Careful sessions w s (.deliver id)) :
    Inv w (next sessions texts w s (.deliver id)) := by
  cases hout : s.outbox id with
  | nil => exact absurd hout ha
  | cons event events =>
    have htrue := h.outbox id
    rw [hout, List.forall_mem_cons] at htrue
    have hears : Hears s.log id (s.client id) event := hcond event (by simp [hout])
    simp only [next, hout]
    refine h.actor id rfl rfl (fun j hj => by simp [State.view, State.setClient, hj]) ?_ ?_ ?_
    · simpa [State.view, State.setClient] using h.cursor id
    · simpa [State.view, State.setClient] using htrue.2
    · have hview : (State.setClient { s with outbox := Function.update s.outbox id events } id
          ((s.client id).onMessage event)).view id =
          { s.view id with client := (s.client id).onMessage event, outbox := events } := by
        simp [State.view, State.setClient]
      rw [hview]
      cases h.standing id with
      | idle _ hidle =>
        have hnil : s.outbox id = [] := hidle.outbox
        exact absurd hnil ha
      | joining hphase hjoin =>
        rcases hjoin.deliver hout with hjoin | ⟨r, hwork⟩
        · exact .joining hphase hjoin
        · exact .working hphase r hwork
      | working hphase revision hwork =>
        obtain ⟨r, hwork⟩ := hwork.deliver hout htrue.1 hears
        exact .working hphase r hwork

theorem inv_effect (h : Inv w s) (ha : (s.client id).remoteEdit.isSome = true)
    (hcond : Careful sessions w s (.effect id)) :
    Inv w (next sessions texts w s (.effect id)) := by
  obtain ⟨hphase, revision, hwork⟩ := h.working id fun hun => by
    have hnone : (s.client id).remoteEdit = none := hun.remoteEdit
    rw [hnone] at ha
    cases ha
  refine h.actor id rfl rfl (fun j hj => view_setClient_ne hj _ _) ?_ ?_ ?_
  all_goals rw [next, view_setClient]
  · exact h.cursor id
  · exact h.outbox id
  · exact .working hphase revision (hwork.effect hcond)

theorem inv_look (h : Inv w s) (path : String) (focused : Bool) :
    Inv w (next sessions texts w s (.look id path focused)) := by
  refine h.actor id rfl rfl (fun j hj => view_setClient_ne hj _ _) ?_ ?_ ?_
  all_goals rw [next, view_setClient]
  · exact h.cursor id
  · exact h.outbox id
  · cases h.standing id with
    | idle hphase hidle =>
      exact .idle hphase ⟨⟨hidle.inbox, hidle.saved, hidle.remoteEdit, hidle.loaded⟩,
        hidle.outbox, hidle.waiting, hidle.revisionRef⟩
    | joining hphase hjoin =>
      exact .joining hphase ⟨⟨hjoin.inbox, hjoin.saved, hjoin.remoteEdit, hjoin.loaded⟩,
        hjoin.catalog⟩
    | working hphase revision hwork =>
      exact .working hphase revision ⟨hwork.revisionRef, hwork.le_last, hwork.catches,
        hwork.mirror, hwork.slot, hwork.sent⟩

theorem inv_operate (h : Inv w s) {op : Operation}
    (hcond : Careful sessions w s (.operate id op)) :
    Inv w (next sessions texts w s (.operate id op)) := by
  obtain ⟨hloaded, hslot⟩ := hcond
  obtain ⟨hphase, revision, hwork⟩ := h.working id fun hun => by
    have hno : (s.client id).loaded = false := hun.loaded
    rw [hloaded] at hno
    cases hno
  have hop := operated (sessions id) (s.client id) op
  have hwork := hwork.operate hop fun source hsource => by
    subst hsource
    exact hslot
  have hview : (next sessions texts w s (.operate id op)).view id =
      { s.view id with
        client := (op.run (sessions id) (s.client id)).2
        inbox := s.inbox id ++ ((op.run (sessions id) (s.client id)).1.map
          fun m => (⟨m, (s.client id).builtOn⟩ : Sent)).toList } := by
    simp only [next]
    rcases op.run (sessions id) (s.client id) with ⟨- | m, c⟩ <;>
      simp [State.view, State.setClient]
  have hothers : ∀ j, j ≠ id → (next sessions texts w s (.operate id op)).view j = s.view j := by
    intro j hj
    simp only [next]
    rcases op.run (sessions id) (s.client id) with ⟨- | m, c⟩ <;>
      simp [State.view, State.setClient, hj]
  have hsame : (next sessions texts w s (.operate id op)).log = s.log ∧
      (next sessions texts w s (.operate id op)).collab = s.collab := by
    simp only [next]
    rcases op.run (sessions id) (s.client id) with ⟨- | m, c⟩ <;> exact ⟨rfl, rfl⟩
  refine h.actor id hsame.1 hsame.2 hothers ?_ ?_ ?_
  all_goals rw [hview]
  · exact h.cursor id
  · exact h.outbox id
  · exact .working hphase revision hwork

/-- The server takes the next message of a session that has heard its catalog. -/
theorem inv_pop (h : Inv w s) {sent : Sent} {rest : List Sent} (hinbox : s.inbox id = sent :: rest) :
    Inv w { s with inbox := Function.update s.inbox id rest } ∧
      ∃ revision, sent.Sound s.log id revision ∧
        Working w s.log s.collab.changes id revision
          (State.view { s with inbox := Function.update s.inbox id rest } id) := by
  obtain ⟨hphase, revision, hwork⟩ := h.working id fun hun => by
    have hnil : s.inbox id = [] := hun.inbox
    rw [hinbox] at hnil
    cases hnil
  have hview : State.view { s with inbox := Function.update s.inbox id rest } id =
      { s.view id with inbox := rest } := by
    simp [State.view]
  have hpopped : Working w s.log s.collab.changes id revision { s.view id with inbox := rest } := by
    refine hwork.congr rfl (fun x hx => ?_) hwork.catches
    change x ∈ s.inbox id
    rw [hinbox]
    exact List.mem_cons_of_mem sent hx
  rw [hview]
  refine ⟨?_, revision, hwork.sent sent (by simp [State.view, hinbox]), hpopped⟩
  refine h.actor id rfl rfl (fun j hj => by simp [State.view, hj]) (h.cursor id) (h.outbox id) ?_
  rw [hview]
  exact .working hphase revision hpopped

theorem Inv.refused (h : Inv w s) (id : String) {events : List ServerEvent}
    (hphase : s.phase id = .attached) (hnone : events.filterMap notice = []) :
    Inv w (s.send id events) := by
  refine h.actor id rfl rfl (fun j hj => view_send_ne hj _ _) ?_ ?_ ?_
  all_goals rw [view_send]
  · exact h.cursor id
  · intro event hevent
    rcases List.mem_append.mp hevent with hevent | hevent
    · exact h.outbox id event hevent
    · exact truthful_of_notice (List.filterMap_eq_nil_iff.mp hnone event hevent)
  · refine (h.standing id).forward hphase events rfl rfl rfl rfl fun n hn => ?_
    rw [hnone]
    exact hn

theorem Inv.accepted (h : Inv w s) {m : RuntimeClientMessage} {snapshot : Snapshot}
    {revision : ℕ} (hphase : s.phase id = .attached)
    (hwork : Working w s.log s.collab.changes id revision (s.view id))
    (hvalid : validate m = .ok ())
    (hok : writerBaseOk s.collab w id (baseRevision m) (Collab.revision s.collab w) = true)
    (hpast : ∀ k, peerWrote s.log id k = true → k ≤ revision) :
    Inv w (accept w s id m snapshot) := by
  have hrevision := revision_eq h
  have heq := record_ok hok
  rw [hrevision] at heq
  have htold : ∀ x ∈ (catalogFor snapshot m ++
      [ServerEvent.documentChanged "" "" (s.log.length + 1),
        .documentSaved ((versionOf m).getD 0)]).filterMap notice,
      x = .mark (s.log.length + 1) := by
    rw [List.filterMap_append, notice_catalogFor]
    simp [notice]
  simp only [accept, heq]
  refine ⟨?_, fun change hchange => ?_, fun j => ?_, fun j event hevent => ?_, fun j => ?_⟩
  · obtain ⟨authors, htracks, hauthors⟩ := h.tracks
    refine ⟨_, tracks_send (tracks_advanced htracks w id) _, ?_⟩
    simp [State.send, hauthors]
  · rcases List.mem_append.mp hchange with hchange | hchange
    · have htrue := h.changes change hchange
      cases change with
      | document => exact fun hw => (htrue hw).imp_right (Announces.append _)
      | _ => trivial
    · obtain rfl := List.mem_singleton.mp hchange
      exact truthful_announcement hvalid
  · exact (h.cursor j).trans (by simp [State.send, Collab.send, advanced])
  · have hold : ∀ e ∈ s.outbox j, Truthful (s.log ++ [(id, m)]) e := by
      intro e he
      have htrue := h.outbox j e he
      cases e with
      | documentChanged => exact fun hpath => (htrue hpath).append _
      | _ => trivial
    by_cases hj : j = id
    · subst hj
      simp only [State.send, Function.update_self, List.mem_append] at hevent
      rcases hevent with hevent | hevent | hevent
      · exact hold event hevent
      · refine truthful_of_notice ?_
        exact List.filterMap_eq_nil_iff.mp (notice_catalogFor snapshot m) event hevent
      · simp only [List.mem_cons, List.not_mem_nil, or_false] at hevent
        rcases hevent with rfl | rfl
        · exact fun hpath => absurd rfl hpath
        · trivial
    · simp only [State.send, Function.update_of_ne hj] at hevent
      exact hold event hevent
  · by_cases hj : j = id
    · subst hj
      have := hwork.accepted h.changes (h.cursor j) (not_concerns_announcement m (s.log.length + 1))
        (m := m) hpast htold (fun x hx => hx)
      rw [view_send]
      exact .working hphase revision this
    · obtain ⟨x, hx, hahead⟩ := ahead_announcement w hvalid (Ne.symm hj)
        (s.log.length + 1)
      rw [view_send_ne hj]
      exact (h.standing j).append (h.cursor j) hx hahead

theorem inv_handle (h : Inv w s) {fails : Bool} (ha : enabled w s (.handle id fails)) :
    Inv w (next sessions texts w s (.handle id fails)) := by
  cases hinbox : s.inbox id with
  | nil => exact absurd hinbox ha.2
  | cons sent rest =>
    obtain ⟨hpop, revision, ⟨base, hbase, hsome, -⟩, hwork⟩ := inv_pop h hinbox
    simp only [next, hinbox]
    rcases handleMessage_cases sessions texts w
        { s with inbox := Function.update s.inbox id rest } id sent.message fails with
      ⟨events, hnone, heq⟩ | ⟨snapshot, hvalid, -, hok, heq⟩
    · rw [heq]
      exact hpop.refused id ha.1 hnone
    · rw [heq]
      rw [hsome] at hok
      have hpast : ∀ k, peerWrote s.log id k = true → k ≤ revision := fun k hk =>
        (le_base_of_ok h hok k hk).trans hbase
      exact hpop.accepted ha.1 hwork hvalid (hsome ▸ hok) hpast

theorem inv_step (s : State) (a : Action) (h : Inv w s)
    (ha : ((machine sessions texts w).restrict (Careful sessions w)).enabled s a) :
    Inv w (((machine sessions texts w).restrict (Careful sessions w)).next s a) := by
  obtain ⟨ha, hcond⟩ := ha
  change Inv w (next sessions texts w s a)
  cases a with
  | openSession id => exact inv_open h ha
  | subscribe id => exact inv_subscribe h ha
  | attach id fails => exact inv_attach h ha hcond
  | receive id => exact inv_receive h ha
  | lag id => exact inv_lag h ha hcond
  | refresh id fails => exact inv_refresh h ha hcond
  | deliver id => exact inv_deliver h ha hcond
  | effect id => exact inv_effect h ha hcond
  | look id path focused => exact inv_look h path focused
  | operate id op => exact inv_operate h hcond
  | handle id fails => exact inv_handle h ha
  | elsewhere change =>
    have hne : workspaceOf change ≠ w := ha
    refine h.announce rfl (fun v => rfl) rfl (fun id => ahead_of_not_concerns ?_) ?_
    · cases change <;> simp_all [concerns, workspaceOf]
    · cases change <;> simp_all [TruthfulChange, workspaceOf]

end

/-- In every careful run, an update the server accepts on a base was built on
every earlier change of its path by another session. -/
theorem no_lost_peer_update {files : List ProjectFile} {s : State}
    (h : ((machine sessions texts w).restrict (Careful sessions w)).Reaches (init files) s)
    {fails : Bool} {version base : ℕ} {source : String} {builtOn : String → ℕ}
    (haccepts : Accepts sessions texts w s id fails
      ⟨.documentUpdate version path source (some base), builtOn⟩) :
    ∀ k, peerChanged s.log id path k = true →
      k ≤ builtOn path ∨ k ≤ (s.client id).applied path := by
  have hinv : Inv w s := h.invariant inv_step (inv_init files)
  obtain ⟨hhead, hlog⟩ := haccepts
  obtain ⟨rest, hinbox⟩ : ∃ rest, s.inbox id =
      ⟨.documentUpdate version path source (some base), builtOn⟩ :: rest :=
    List.head?_eq_some_iff.mp hhead
  obtain ⟨-, revision, ⟨b, -, hbase, hsound⟩, -⟩ := inv_pop hinv hinbox
  obtain rfl : base = b := Option.some.inj hbase
  simp only [next, hinbox] at hlog
  intro k hk
  left
  rcases handleMessage_cases sessions texts w
      { s with inbox := Function.update s.inbox id rest } id
      (.documentUpdate version path source (some base)) fails with
    ⟨events, -, heq⟩ | ⟨snapshot, -, -, hok, -⟩
  · rw [heq] at hlog
    simp [State.send] at hlog
  · exact hsound path rfl k (le_base_of_ok hinv hok k (peerWrote_of_changed hk)) hk

/-! ## Two sessions on one file -/

def twoPeers (id : String) : Session := ⟨id, .zig, ["w"], some "w", fun _ => none⟩

def oneFile : State := init [(twoPeers "a").projectFile "main.zig" "start"]

def arrive (id : String) : List Action :=
  [.openSession id, .subscribe id, .attach id false, .deliver id, .deliver id, .deliver id]

/-- One session edits, and the other one hears of it. -/
def editHeard : List Action :=
  arrive "a" ++ arrive "b" ++ [.operate "b" (.change "from b"), .handle "b" false,
    .receive "a", .receive "a", .receive "a", .deliver "a", .deliver "a", .deliver "a"]

/-- The next message of `a` is an update that would be accepted on a base of 1. -/
def aboutToAccept (s : State) (source : String) (built : ℕ) : Bool :=
  match s.inbox "a" with
  | sent :: _ => sent.message = .documentUpdate 2 "main.zig" source (some 1) &&
      sent.builtOn "main.zig" = built && (s.client "a").applied "main.zig" = built &&
      (next twoPeers (fun _ => "") "w" s (.handle "a" false)).log = s.log ++ [("a", sent.message)] &&
      peerChanged s.log "a" "main.zig" 1
  | [] => false

theorem accepts_of_aboutToAccept {s : State} {source : String} {built : ℕ}
    (h : aboutToAccept s source built = true) :
    ∃ builtOn, Accepts twoPeers (fun _ => "") "w" s "a" false
        ⟨.documentUpdate 2 "main.zig" source (some 1), builtOn⟩ ∧
      builtOn "main.zig" = built ∧ (s.client "a").applied "main.zig" = built ∧
      peerChanged s.log "a" "main.zig" 1 = true := by
  simp only [aboutToAccept] at h
  split at h
  next sent rest hinbox =>
    obtain ⟨message, builtOn⟩ := sent
    simp only [Bool.and_eq_true, decide_eq_true_eq] at h
    obtain ⟨⟨⟨⟨rfl, hbuilt⟩, happlied⟩, hlog⟩, hpeer⟩ := h
    exact ⟨builtOn, ⟨by rw [hinbox]; rfl, hlog⟩, hbuilt, happlied, hpeer⟩
  next => cases h

theorem no_lost_peer_update_applied :
    ∃ s builtOn, Accepts twoPeers (fun _ => "") "w" s "a" false
        ⟨.documentUpdate 2 "main.zig" "from both" (some 1), builtOn⟩ ∧
      peerChanged s.log "a" "main.zig" 1 = true ∧
      ∀ k, peerChanged s.log "a" "main.zig" k = true →
        k ≤ builtOn "main.zig" ∨ k ≤ (s.client "a").applied "main.zig" := by
  obtain ⟨s, hs, hp⟩ := Machine.exists_reaches_of_exec
    (M := (machine twoPeers (fun _ => "") "w").restrict (Careful twoPeers "w")) (s := oneFile)
    (l := editHeard ++ [.effect "a", .operate "a" (.change "from both")])
    (p := fun s => aboutToAccept s "from both" 1) (by decide +kernel)
  obtain ⟨builtOn, haccepts, -, -, hpeer⟩ := accepts_of_aboutToAccept hp
  exact ⟨s, builtOn, haccepts, hpeer, no_lost_peer_update hs haccepts⟩

/-- The caret is in the file when the edit comes: its revision is adopted, its
text is not applied, and the next key replaces it. -/
theorem peer_update_lost :
    ∃ s, (machine twoPeers (fun _ => "") "w").Reaches oneFile s ∧
      ∃ builtOn, Accepts twoPeers (fun _ => "") "w" s "a" false
          ⟨.documentUpdate 2 "main.zig" "from a" (some 1), builtOn⟩ ∧
        ∃ k, peerChanged s.log "a" "main.zig" k = true ∧ builtOn "main.zig" < k ∧
          (s.client "a").applied "main.zig" < k := by
  obtain ⟨s, hs, hp⟩ := Machine.exists_reaches_of_exec
    (M := machine twoPeers (fun _ => "") "w") (s := oneFile)
    (l := editHeard ++ [.look "a" "main.zig" true, .effect "a", .operate "a" (.change "from a")])
    (p := fun s => aboutToAccept s "from a" 0) (by decide +kernel)
  obtain ⟨builtOn, haccepts, hbuilt, happlied, hpeer⟩ := accepts_of_aboutToAccept hp
  exact ⟨s, hs, builtOn, haccepts, 1, hpeer, by omega, by omega⟩

end Atomis.PeerUpdate
