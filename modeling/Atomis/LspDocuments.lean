import Mathlib.Data.List.Induction
import Mathlib.Data.Set.Insert
import Mathlib.Tactic.Common

/-!
# The documents a language client holds open

`LspClient.ts`: `connect`, `initialize`, `open`, `change` and `close`, with what
goes over the wire. A model is known by its uri, its text is the one it has at
the call, and a handshake that fails leaves the client as it is. What is open on
the wire is what was opened and not closed since, in every run in which the
constructor's model is not closed when the handshake completes.
-/

namespace Atomis.LspDocuments

variable {U T : Type*} [DecidableEq U]

/-- `handshake` is the request `initialize`. -/
inductive Message (U T : Type*)
  | handshake
  | initialized
  | didOpen (uri : U) (languageId : String) (version : ℕ) (text : T)
  | didChange (uri : U) (version : ℕ) (text : T)
  | didClose (uri : U)

inductive Phase
  | connecting
  | initializing (documentVersion : ℕ)
  | initialized
deriving DecidableEq

structure Client (U T : Type*) where
  model : U
  languageId : String
  phase : Phase
  openedModels : List U
  pendingOpens : List U
  lastVersion : ℕ
  sentVersion : ℕ
  sent : List (Message U T)

def Client.new (model : U) (languageId : String) : Client U T :=
  ⟨model, languageId, .connecting, [], [], 0, 0, []⟩

/-- A message reaches the wire once the socket is open. -/
def Client.notify (c : Client U T) (m : Message U T) : Client U T :=
  if c.phase = .connecting then c else { c with sent := c.sent ++ [m] }

/-- `Map.set`: a key that is there keeps its place. -/
def put (keys : List U) (uri : U) : List U := if uri ∈ keys then keys else keys ++ [uri]

def delete (keys : List U) (uri : U) : List U := keys.filter (· ≠ uri)

def Client.see (c : Client U T) (version : ℕ) : Client U T :=
  { c with
    lastVersion := max c.lastVersion version
    sentVersion := max c.sentVersion version }

def Client.open (c : Client U T) (uri : U) (version : ℕ) (text : T) : Client U T :=
  let c := c.see version
  if c.phase ≠ .initialized then
    if uri ∈ c.openedModels then c else { c with pendingOpens := put c.pendingOpens uri }
  else if uri ∈ c.openedModels then c
  else
    { c with openedModels := put c.openedModels uri }.notify
      (.didOpen uri c.languageId version text)

def Client.change (c : Client U T) (uri : U) (version : ℕ) (text source : T) : Client U T :=
  let c := c.open uri version text
  if c.phase ≠ .initialized then c
  else
    let version := max version (c.sentVersion + 1)
    { c with sentVersion := version }.notify (.didChange uri version source)

def Client.close (c : Client U T) (uri : U) : Client U T :=
  let c := { c with pendingOpens := delete c.pendingOpens uri }
  if uri ∈ c.openedModels then
    { c with openedModels := delete c.openedModels uri }.notify (.didClose uri)
  else c

/-- The socket opens, and `initialize` is asked. -/
def Client.socketOpens (c : Client U T) (documentVersion : ℕ) : Client U T :=
  match c.phase with
  | .connecting => { c with phase := .initializing documentVersion }.notify .handshake
  | _ => c

/-- `initialize` is answered; `text` is what each model reads then. -/
def Client.answered (c : Client U T) (text : U → T) : Client U T :=
  match c.phase with
  | .initializing documentVersion =>
    let c := { c.notify .initialized with phase := .initialized }
    let c := c.open c.model documentVersion (text c.model)
    let queued := c.pendingOpens
    queued.foldl (fun c uri => c.open uri c.lastVersion (text uri)) { c with pendingOpens := [] }
  | _ => c

inductive Call (U T : Type*)
  | open (uri : U) (version : ℕ) (text : T)
  | change (uri : U) (version : ℕ) (text source : T)
  | close (uri : U)
  | socketOpens (documentVersion : ℕ)
  | answered (text : U → T)

def Client.step (c : Client U T) : Call U T → Client U T
  | .open uri version text => c.open uri version text
  | .change uri version text source => c.change uri version text source
  | .close uri => c.close uri
  | .socketOpens documentVersion => c.socketOpens documentVersion
  | .answered text => c.answered text

def run (model : U) (languageId : String) (calls : List (Call U T)) : Client U T :=
  calls.foldl Client.step (.new model languageId)

/-! ## What the server sees of one document -/

/-- The version a document is open at, after one more message; `none` when the
message is out of turn. -/
def Message.follow (u : U) (life : Option ℕ) : Message U T → Option (Option ℕ)
  | .didOpen uri _ version _ =>
    if uri = u then if life = none then some (some version) else none else some life
  | .didChange uri version _ =>
    if uri = u then if life.any (· < version) then some (some version) else none else some life
  | .didClose uri => if uri = u then if life ≠ none then some none else none else some life
  | _ => some life

/-- A document's messages are repetitions of didOpen, didChanges and didClose with growing
versions as far as this is `some`, and end with the document open at that version. -/
def life (u : U) (sent : List (Message U T)) : Option (Option ℕ) :=
  sent.foldlM (fun life m => m.follow u life) none

def Call.touch : Call U T → Set U → Set U
  | .open uri _ _, W | .change uri _ _ _, W => insert uri W
  | .close uri, W => W \ {uri}
  | _, W => W

/-- The models opened and not closed since. -/
def wanted (model : U) (calls : List (Call U T)) : Set U :=
  calls.foldl (fun W call => call.touch W) {model}

structure Lifecycle (c : Client U T) (W : Set U) : Prop where
  silent : c.phase ≠ .initialized → ∀ m ∈ c.sent, m = .handshake
  inTurn : ∀ u, (life u c.sent).isSome = true
  inStep : c.phase = .initialized → ∀ u, (∃ v, life u c.sent = some (some v)) ↔ u ∈ W

/-- After every call of a run. -/
def Kept (model : U) (languageId : String) (calls : List (Call U T)) : Prop :=
  ∀ before, before <+: calls → Lifecycle (run model languageId before) (wanted model before)

theorem life_snoc (u : U) (sent : List (Message U T)) (m : Message U T) :
    life u (sent ++ [m]) = (life u sent).bind fun v => m.follow u v := by
  simp only [life, List.foldlM_append]
  cases sent.foldlM (fun life m => Message.follow u life m) (none : Option ℕ) with
  | none => rfl
  | some v => simp

theorem run_snoc (model : U) (languageId : String) (calls : List (Call U T)) (call : Call U T) :
    run model languageId (calls ++ [call]) = (run model languageId calls).step call := by
  simp [run]

omit [DecidableEq U] in
theorem wanted_snoc (model : U) (calls : List (Call U T)) (call : Call U T) :
    wanted model (calls ++ [call]) = call.touch (wanted model calls) := by
  simp [wanted]

theorem mem_put {keys : List U} {uri u : U} : u ∈ put keys uri ↔ u ∈ keys ∨ u = uri := by
  simp only [put]
  split_ifs with h
  · exact ⟨.inl, fun hu => hu.elim id fun heq => heq ▸ h⟩
  · simp

theorem mem_delete {keys : List U} {uri u : U} : u ∈ delete keys uri ↔ u ∈ keys ∧ u ≠ uri := by
  simp [delete]

/-! ## What every run keeps -/

variable {c : Client U T} {W : Set U}

/-- The server has a document open exactly while the client has its model, at a version
no later than the last one sent. -/
def Agrees (c : Client U T) : Prop :=
  ∀ u, if u ∈ c.openedModels then ∃ v ≤ c.sentVersion, life u c.sent = some (some v)
    else life u c.sent = some none

theorem Agrees.isSome (h : Agrees c) (u : U) : (life u c.sent).isSome = true := by
  have hu := h u
  split_ifs at hu
  · obtain ⟨v, -, hv⟩ := hu
    rw [hv]
    rfl
  · rw [hu]
    rfl

theorem Agrees.open_iff (h : Agrees c) (u : U) :
    (∃ v, life u c.sent = some (some v)) ↔ u ∈ c.openedModels := by
  have hu := h u
  split_ifs at hu with hmem
  · obtain ⟨v, -, hv⟩ := hu
    exact ⟨fun _ => hmem, fun _ => ⟨v, hv⟩⟩
  · simp [hu, hmem]

theorem Agrees.see (h : Agrees c) (version : ℕ) : Agrees (c.see version) := by
  intro u
  have hu := h u
  split_ifs at hu ⊢ with hmem hmem'
  · obtain ⟨v, hle, hv⟩ := hu
    exact ⟨v, hle.trans (Nat.le_max_left ..), hv⟩
  · exact (hmem' hmem).elim
  · exact (hmem (by assumption)).elim
  · exact hu

/-- A message about one document leaves the others as they are. -/
theorem follow_other {u uri : U} (hu : u ≠ uri) (v : Option ℕ) (languageId : String) (version : ℕ)
    (text : T) :
    (Message.didOpen uri languageId version text).follow u v = some v ∧
      (Message.didChange uri version text).follow u v = some v ∧
      (Message.didClose uri : Message U T).follow u v = some v := by
  simp [Message.follow, Ne.symm hu]

theorem Agrees.didOpen (h : Agrees c) {uri : U} (hnew : uri ∉ c.openedModels) {version : ℕ}
    (hle : version ≤ c.sentVersion) (text : T) :
    Agrees { c with
      openedModels := put c.openedModels uri
      sent := c.sent ++ [.didOpen uri c.languageId version text] } := by
  intro u
  have hu := h u
  simp only [mem_put, life_snoc]
  by_cases heq : u = uri
  · subst heq
    rw [if_neg hnew] at hu
    rw [if_pos (.inr rfl), hu]
    exact ⟨version, hle, by simp [Message.follow]⟩
  · simp only [heq, or_false]
    split_ifs at hu ⊢
    · obtain ⟨v, hv, hlife⟩ := hu
      exact ⟨v, hv, by rw [hlife]; exact (follow_other heq _ c.languageId version text).1⟩
    · rw [hu]
      exact (follow_other heq _ c.languageId version text).1

theorem Agrees.didChange (h : Agrees c) {uri : U} (hopen : uri ∈ c.openedModels) {version : ℕ}
    (hlt : c.sentVersion < version) (source : T) :
    Agrees { c with
      sentVersion := version
      sent := c.sent ++ [.didChange uri version source] } := by
  intro u
  have hu := h u
  simp only [life_snoc]
  by_cases heq : u = uri
  · subst heq
    rw [if_pos hopen] at hu ⊢
    obtain ⟨v, hle, hlife⟩ := hu
    refine ⟨version, le_rfl, ?_⟩
    rw [hlife]
    simp [Message.follow, show v < version by omega]
  · split_ifs at hu ⊢
    · obtain ⟨v, hv, hlife⟩ := hu
      exact ⟨v, hv.trans hlt.le, by rw [hlife]; exact (follow_other heq _ "" version source).2.1⟩
    · rw [hu]
      exact (follow_other heq _ "" version source).2.1

theorem Agrees.didClose (h : Agrees c) {uri : U} (hopen : uri ∈ c.openedModels) :
    Agrees { c with
      openedModels := delete c.openedModels uri
      sent := c.sent ++ [.didClose uri] } := by
  intro u
  have hu := h u
  simp only [mem_delete, life_snoc]
  by_cases heq : u = uri
  · subst heq
    rw [if_pos hopen] at hu
    obtain ⟨v, -, hlife⟩ := hu
    simp [hlife, Message.follow]
  · have hother : ∀ v, (Message.didClose uri : Message U T).follow u v = some v := fun v => by
      simp [Message.follow, Ne.symm heq]
    simp only [ne_eq, heq, not_false_eq_true, and_true]
    split_ifs at hu ⊢
    · obtain ⟨v, hv, hlife⟩ := hu
      exact ⟨v, hv, by rw [hlife]; exact hother _⟩
    · rw [hu]
      exact hother _

omit [DecidableEq U] in
theorem notify_of_initialized (h : c.phase = .initialized) (m : Message U T) :
    c.notify m = { c with sent := c.sent ++ [m] } := by
  simp [Client.notify, h]

/-- `open` after the handshake. -/
theorem open_initialized (hphase : c.phase = .initialized) (h : Agrees c) (uri : U) (version : ℕ)
    (text : T) :
    (c.open uri version text).phase = .initialized ∧ Agrees (c.open uri version text) ∧
      (∀ u, u ∈ (c.open uri version text).openedModels ↔ u ∈ c.openedModels ∨ u = uri) ∧
      version ≤ (c.open uri version text).sentVersion := by
  have hsee : (c.see version).phase = .initialized := hphase
  have hle : version ≤ (c.see version).sentVersion := Nat.le_max_right ..
  simp only [Client.open, hsee, ne_eq, not_true_eq_false, ↓reduceIte]
  split_ifs with hopen
  · exact ⟨hphase, h.see version, fun u => ⟨.inl, fun hu => hu.elim id fun heq => heq ▸ hopen⟩, hle⟩
  · rw [notify_of_initialized rfl]
    exact ⟨rfl, (h.see version).didOpen hopen hle text, fun u => mem_put, hle⟩

theorem change_initialized (hphase : c.phase = .initialized) (h : Agrees c) (uri : U) (version : ℕ)
    (text source : T) :
    (c.change uri version text source).phase = .initialized ∧
      Agrees (c.change uri version text source) ∧
      ∀ u, u ∈ (c.change uri version text source).openedModels ↔ u ∈ c.openedModels ∨ u = uri := by
  obtain ⟨hp, ha, hmem, -⟩ := open_initialized hphase h uri version text
  simp only [Client.change, hp, ne_eq, not_true_eq_false, ↓reduceIte]
  rw [notify_of_initialized rfl]
  refine ⟨rfl, ha.didChange ((hmem uri).mpr (.inr rfl)) ?_ source, hmem⟩
  exact Nat.lt_of_lt_of_le (Nat.lt_succ_self _) (Nat.le_max_right ..)

theorem close_initialized (hphase : c.phase = .initialized) (h : Agrees c) (uri : U) :
    (c.close uri).phase = .initialized ∧ Agrees (c.close uri) ∧
      ∀ u, u ∈ (c.close uri).openedModels ↔ u ∈ c.openedModels ∧ u ≠ uri := by
  simp only [Client.close]
  split_ifs with hopen
  · rw [notify_of_initialized (c := { c with
      openedModels := delete c.openedModels uri
      pendingOpens := delete c.pendingOpens uri }) hphase]
    exact ⟨hphase, h.didClose hopen, fun u => mem_delete⟩
  · refine ⟨hphase, h, fun u => ⟨fun hu => ⟨hu, ?_⟩, And.left⟩⟩
    rintro rfl
    exact hopen hu

/-- Before the handshake nothing but `initialize` is sent, and the queue holds what is
wanted, the constructor's model apart. -/
structure Early (c : Client U T) (W : Set U) : Prop where
  unopened : c.openedModels = []
  silent : ∀ m ∈ c.sent, m = .handshake
  queued : ∀ u ∈ c.pendingOpens, u ∈ W
  waiting : ∀ u ∈ W, u ∈ c.pendingOpens ∨ u = c.model

structure Inv (model : U) (c : Client U T) (W : Set U) : Prop where
  model : c.model = model
  early : c.phase ≠ .initialized → Early c W
  agrees : c.phase = .initialized → Agrees c

theorem life_of_silent {sent : List (Message U T)} (h : ∀ m ∈ sent, m = .handshake) (u : U) :
    life u sent = some none := by
  induction sent using List.reverseRecOn with
  | nil => rfl
  | append_singleton sent m ih =>
    rw [life_snoc, ih fun m hm => h m (by simp [hm]), h m (by simp)]
    rfl

theorem Early.agrees (h : Early c W) : Agrees c := by
  intro u
  rw [h.unopened, if_neg (List.not_mem_nil)]
  exact life_of_silent h.silent u

theorem open_early (hphase : c.phase ≠ .initialized) (h : Early c W) (uri : U) (version : ℕ)
    (text : T) :
    (c.open uri version text).phase = c.phase ∧ (c.open uri version text).model = c.model ∧
      Early (c.open uri version text) (insert uri W) := by
  have hsee : (c.see version).phase ≠ .initialized := hphase
  have hnew : uri ∉ (c.see version).openedModels := by simp [Client.see, h.unopened]
  simp only [Client.open, if_pos hsee, if_neg hnew]
  refine ⟨rfl, rfl, h.unopened, h.silent, fun u hu => ?_, fun u hu => ?_⟩
  · rcases mem_put.mp hu with hu | rfl
    · exact .inr (h.queued u hu)
    · exact .inl rfl
  · rcases hu with rfl | hu
    · exact .inl (mem_put.mpr (.inr rfl))
    · exact (h.waiting u hu).imp_left fun hq => mem_put.mpr (.inl hq)

theorem close_early (h : Early c W) (uri : U) :
    (c.close uri).phase = c.phase ∧ (c.close uri).model = c.model ∧
      Early (c.close uri) (W \ {uri}) := by
  have hnew : uri ∉ c.openedModels := by simp [h.unopened]
  have hclose : c.close uri = { c with pendingOpens := delete c.pendingOpens uri } := if_neg hnew
  rw [hclose]
  refine ⟨rfl, rfl, h.unopened, h.silent, fun u hu => ?_, fun u ⟨hu, hne⟩ => ?_⟩
  · obtain ⟨hq, hne⟩ := mem_delete.mp hu
    exact ⟨h.queued u hq, hne⟩
  · exact (h.waiting u hu).imp_left fun hq => mem_delete.mpr ⟨hq, hne⟩

theorem change_early (hphase : c.phase ≠ .initialized) (h : Early c W) (uri : U) (version : ℕ)
    (text source : T) :
    (c.change uri version text source).phase = c.phase ∧
      (c.change uri version text source).model = c.model ∧
      Early (c.change uri version text source) (insert uri W) := by
  obtain ⟨hp, hm, he⟩ := open_early hphase h uri version text
  have hchange : c.change uri version text source = c.open uri version text :=
    if_pos (hp.trans_ne hphase)
  rw [hchange]
  exact ⟨hp, hm, he⟩

theorem open_model (c : Client U T) (uri : U) (version : ℕ) (text : T) :
    (c.open uri version text).model = c.model := by
  simp only [Client.open, Client.notify]
  split_ifs <;> rfl

theorem open_pendingOpens (hphase : c.phase = .initialized) (uri : U) (version : ℕ) (text : T) :
    (c.open uri version text).pendingOpens = c.pendingOpens := by
  have hsee : (c.see version).phase = .initialized := hphase
  simp only [Client.open, hsee, ne_eq, not_true_eq_false, ↓reduceIte]
  split_ifs
  · rfl
  · rw [notify_of_initialized rfl]
    rfl

/-- The queue is sent after the handshake. -/
theorem openAll_initialized (text : U → T) (queued : List U) (hphase : c.phase = .initialized)
    (h : Agrees c) :
    let c' := queued.foldl (fun c uri => c.open uri c.lastVersion (text uri)) c
    c'.phase = .initialized ∧ c'.model = c.model ∧ Agrees c' ∧
      ∀ u, u ∈ c'.openedModels ↔ u ∈ c.openedModels ∨ u ∈ queued := by
  induction queued generalizing c with
  | nil => exact ⟨hphase, rfl, h, by simp⟩
  | cons uri queued ih =>
    obtain ⟨hp, ha, hmem, -⟩ := open_initialized hphase h uri c.lastVersion (text uri)
    obtain ⟨hp', hm', ha', hmem'⟩ := ih hp ha
    refine ⟨hp', hm'.trans (open_model ..), ha', fun u => ?_⟩
    rw [List.foldl_cons, hmem', hmem, List.mem_cons, or_assoc]

/-- After the handshake the constructor's model and the queue are open. -/
theorem answered_initializing {documentVersion : ℕ} (hphase : c.phase = .initializing documentVersion)
    (h : Early c W) (text : U → T) :
    (c.answered text).phase = .initialized ∧ (c.answered text).model = c.model ∧
      Agrees (c.answered text) ∧
      ∀ u, u ∈ (c.answered text).openedModels ↔ u = c.model ∨ u ∈ c.pendingOpens := by
  have hnotify : c.notify .initialized = { c with sent := c.sent ++ [.initialized] } := by
    simp [Client.notify, hphase]
  let c₁ : Client U T := { c with sent := c.sent ++ [.initialized], phase := .initialized }
  have hagrees : Agrees c₁ := by
    intro u
    rw [show c₁.openedModels = [] from h.unopened, if_neg (List.not_mem_nil)]
    exact (life_snoc u c.sent .initialized).trans (by rw [life_of_silent h.silent]; rfl)
  obtain ⟨hp, ha, hmem, -⟩ :=
    open_initialized (c := c₁) rfl hagrees c.model documentVersion (text c.model)
  let c₂ := c₁.open c.model documentVersion (text c.model)
  have hpending : c₂.pendingOpens = c.pendingOpens := open_pendingOpens rfl ..
  obtain ⟨hp', hm', ha', hmem'⟩ := openAll_initialized (c := { c₂ with pendingOpens := [] }) text
    c₂.pendingOpens hp ha
  have hanswered : c.answered text = c₂.pendingOpens.foldl
      (fun c uri => c.open uri c.lastVersion (text uri)) { c₂ with pendingOpens := [] } := by
    simp only [Client.answered, hphase, hnotify]
    rfl
  rw [hanswered]
  refine ⟨hp', hm'.trans (open_model ..), ha', fun u => ?_⟩
  rw [hmem', hpending]
  change (u ∈ c₂.openedModels ∨ _) ↔ _
  rw [hmem, show c₁.openedModels = [] from h.unopened]
  simp

theorem change_model (c : Client U T) (uri : U) (version : ℕ) (text source : T) :
    (c.change uri version text source).model = c.model := by
  refine Eq.trans ?_ (open_model c uri version text)
  simp only [Client.change, Client.notify]
  split_ifs <;> rfl

theorem close_model (c : Client U T) (uri : U) : (c.close uri).model = c.model := by
  simp only [Client.close, Client.notify]
  split_ifs <;> rfl

/-- The handshake completes with this call. -/
def Client.completes (c : Client U T) : Call U T → Prop
  | .answered _ => ∃ documentVersion, c.phase = .initializing documentVersion
  | _ => False

/-- What is open is what is wanted, once the handshake is done. -/
def Synced (c : Client U T) (W : Set U) : Prop :=
  c.phase = .initialized → ∀ u, u ∈ c.openedModels ↔ u ∈ W

variable {model : U}

theorem inv_step (h : Inv model c W) (call : Call U T) : Inv model (c.step call) (call.touch W) := by
  by_cases hphase : c.phase = .initialized
  · have hagrees := h.agrees hphase
    cases call with
    | «open» uri version text =>
      obtain ⟨hp, ha, -⟩ := open_initialized hphase hagrees uri version text
      exact ⟨(open_model ..).trans h.model, fun hne => (hne hp).elim, fun _ => ha⟩
    | change uri version text source =>
      obtain ⟨hp, ha, -⟩ := change_initialized hphase hagrees uri version text source
      exact ⟨(change_model ..).trans h.model, fun hne => (hne hp).elim, fun _ => ha⟩
    | close uri =>
      obtain ⟨hp, ha, -⟩ := close_initialized hphase hagrees uri
      exact ⟨(close_model ..).trans h.model, fun hne => (hne hp).elim, fun _ => ha⟩
    | socketOpens documentVersion => simpa only [Client.step, Client.socketOpens, hphase, Call.touch] using h
    | answered text => simpa only [Client.step, Client.answered, hphase, Call.touch] using h
  · have hearly := h.early hphase
    cases call with
    | «open» uri version text =>
      obtain ⟨hp, hm, he⟩ := open_early hphase hearly uri version text
      exact ⟨hm.trans h.model, fun _ => he, fun hdone => (hphase (hp.symm.trans hdone)).elim⟩
    | change uri version text source =>
      obtain ⟨hp, hm, he⟩ := change_early hphase hearly uri version text source
      exact ⟨hm.trans h.model, fun _ => he, fun hdone => (hphase (hp.symm.trans hdone)).elim⟩
    | close uri =>
      obtain ⟨hp, hm, he⟩ := close_early hearly uri
      exact ⟨hm.trans h.model, fun _ => he, fun hdone => (hphase (hp.symm.trans hdone)).elim⟩
    | socketOpens documentVersion =>
      cases hc : c.phase with
      | connecting =>
        have hstep : c.step (.socketOpens documentVersion) = { c with
            phase := .initializing documentVersion
            sent := c.sent ++ [.handshake] } := by
          simp [Client.step, Client.socketOpens, hc, Client.notify]
        rw [hstep]
        refine ⟨h.model, fun _ => ⟨hearly.unopened, fun m hm => ?_, hearly.queued, hearly.waiting⟩,
          fun hdone => by cases hdone⟩
        rcases List.mem_append.mp hm with hm | hm
        · exact hearly.silent m hm
        · exact List.mem_singleton.mp hm
      | _ => simpa only [Client.step, Client.socketOpens, hc, Call.touch] using h
    | answered text =>
      cases hc : c.phase with
      | initializing documentVersion =>
        obtain ⟨hp, hm, ha, -⟩ := answered_initializing hc hearly text
        exact ⟨hm.trans h.model, fun hne => (hne hp).elim, fun _ => ha⟩
      | _ => simpa only [Client.step, Client.answered, hc, Call.touch] using h

theorem phase_of_not_completes {call : Call U T} (h : Inv model c W) (hnot : ¬ c.completes call)
    (hdone : (c.step call).phase = .initialized) : c.phase = .initialized := by
  by_contra hphase
  have hearly := h.early hphase
  cases call with
  | «open» uri version text =>
    exact hphase ((open_early hphase hearly uri version text).1.symm.trans hdone)
  | change uri version text source =>
    exact hphase ((change_early hphase hearly uri version text source).1.symm.trans hdone)
  | close uri => exact hphase ((close_early hearly uri).1.symm.trans hdone)
  | socketOpens documentVersion =>
    cases hc : c.phase with
    | connecting => simp [Client.step, Client.socketOpens, hc, Client.notify] at hdone
    | initializing => simp [Client.step, Client.socketOpens, hc] at hdone
    | initialized => exact hphase hc
  | answered text =>
    cases hc : c.phase with
    | connecting => simp [Client.step, Client.answered, hc] at hdone
    | initializing documentVersion => exact hnot ⟨documentVersion, hc⟩
    | initialized => exact hphase hc

/-- Where the handshake does not complete, what is open stays in step with what is wanted. -/
theorem synced_step (h : Inv model c W) (hs : Synced c W) {call : Call U T}
    (hnot : ¬ c.completes call) : Synced (c.step call) (call.touch W) := by
  intro hdone u
  have hphase := phase_of_not_completes h hnot hdone
  have hagrees := h.agrees hphase
  have hold := hs hphase u
  cases call with
  | «open» uri version text =>
    rw [show (c.step (.open uri version text)) = c.open uri version text from rfl,
      (open_initialized hphase hagrees uri version text).2.2.1, hold, or_comm]
    rfl
  | change uri version text source =>
    rw [show (c.step (.change uri version text source)) = c.change uri version text source from rfl,
      (change_initialized hphase hagrees uri version text source).2.2, hold, or_comm]
    rfl
  | close uri =>
    rw [show (c.step (.close uri)) = c.close uri from rfl,
      (close_initialized hphase hagrees uri).2.2, hold]
    rfl
  | socketOpens documentVersion => simpa only [Client.step, Client.socketOpens, hphase, Call.touch] using hold
  | answered text => simpa only [Client.step, Client.answered, hphase, Call.touch] using hold

/-- The handshake brings the two in step exactly when the constructor's model is wanted. -/
theorem synced_completes_iff (h : Inv model c W) {call : Call U T} (hc : c.completes call) :
    Synced (c.step call) (call.touch W) ↔ model ∈ W := by
  cases call with
  | answered text =>
    obtain ⟨documentVersion, hphase⟩ := hc
    have hearly := h.early (by rw [hphase]; simp)
    obtain ⟨hp, -, -, hmem⟩ := answered_initializing hphase hearly text
    constructor
    · intro hs
      exact (hs hp model).mp ((hmem model).mpr (.inl h.model.symm))
    · intro hmodel _ u
      refine (hmem u).trans ⟨fun hu => ?_, fun hu => (hearly.waiting u hu).symm⟩
      rcases hu with rfl | hu
      · rw [h.model]
        exact hmodel
      · exact hearly.queued u hu
  | _ => exact hc.elim

theorem inv_run (model : U) (languageId : String) (calls : List (Call U T)) :
    Inv model (run model languageId calls) (wanted model calls) := by
  induction calls using List.reverseRecOn with
  | nil =>
    exact ⟨rfl, fun _ => ⟨rfl, fun m hm => (by cases hm), fun u hu => (by cases hu),
      fun u hu => .inr hu⟩, fun hdone => by cases hdone⟩
  | append_singleton calls call ih =>
    rw [run_snoc, wanted_snoc]
    exact inv_step ih call

theorem lifecycle_iff (h : Inv model c W) : Lifecycle c W ↔ Synced c W := by
  constructor
  · intro hl hphase u
    rw [← (h.agrees hphase).open_iff u]
    exact hl.inStep hphase u
  · intro hs
    refine ⟨fun hne => (h.early hne).silent, fun u => ?_, fun hphase u => ?_⟩
    · by_cases hphase : c.phase = .initialized
      · exact (h.agrees hphase).isSome u
      · exact (h.early hphase).agrees.isSome u
    · rw [(h.agrees hphase).open_iff u]
      exact hs hphase u

/-- The constructor's model is not closed, or open again, when the handshake completes. -/
def ModelWanted (model : U) (languageId : String) (calls : List (Call U T)) : Prop :=
  ∀ before call, before ++ [call] <+: calls →
    (run model languageId before).completes call → model ∈ wanted model before

theorem kept_iff (model : U) (languageId : String) (calls : List (Call U T)) :
    Kept model languageId calls ↔ ModelWanted model languageId calls := by
  constructor
  · intro hkept before call hpre hc
    have hlife := hkept _ hpre
    rw [run_snoc, wanted_snoc, lifecycle_iff (inv_step (inv_run ..) call)] at hlife
    exact (synced_completes_iff (inv_run ..) hc).mp hlife
  · intro hwanted before hpre
    rw [lifecycle_iff (inv_run ..)]
    induction before using List.reverseRecOn with
    | nil => exact fun hdone => by cases hdone
    | append_singleton before call ih =>
      have hs := ih ((List.prefix_append before [call]).trans hpre)
      rw [run_snoc, wanted_snoc]
      by_cases hc : (run model languageId before).completes call
      · exact (synced_completes_iff (inv_run ..) hc).mpr (hwanted before call hpre hc)
      · exact synced_step (inv_run ..) hs hc

/-- The constructor's model is closed while the handshake is under way: it is sent as open. -/
theorem closed_model_opened :
    ¬ Kept (T := String) "file:///main.zig" "zig"
      [.socketOpens 1, .close "file:///main.zig", .answered fun _ => ""] := by
  intro hkept
  have hlife := (hkept _ List.prefix_rfl).inStep (by decide) "file:///main.zig"
  have hopen : "file:///main.zig" ∈ wanted (T := String) "file:///main.zig"
      [.socketOpens 1, .close "file:///main.zig", .answered fun _ => ""] :=
    hlife.mp ⟨1, by decide⟩
  simp [wanted, Call.touch] at hopen

end Atomis.LspDocuments
