import Atomis.RuntimeView
import Atomis.RustProbes
import Atomis.ZigProbes

/-!
# From a probe to the value beside its line

The reader's callback counts the events of each probe, the scheduler stamps them with the version
and the run, and the client keeps one value for each probe. After a run every probe that was hit
shows its last value, how often it was hit and its last twenty values in that run; the others
show what they did before.
-/

namespace Atomis.ProbeValues
open Ndjson RuntimeView

/-! ## The server -/

structure ProbeDescriptor where
  probeId : String
  path : Option String

structure ProbeForwarder where
  counts : String → ℕ := fun _ => 0
  paths : String → Option String

/-- `RunnerEvent::Probe` -/
structure ProbeEvent where
  raw : RawProbeEvent
  path : Option String
  count : ℕ

namespace ProbeForwarder

/-- A later descriptor replaces an earlier one of the same probe. -/
def new (probes : List ProbeDescriptor) : ProbeForwarder where
  paths probeId := (probes.reverse.find? fun p => p.probeId = probeId).bind ProbeDescriptor.path

def forward (f : ProbeForwarder) (raw : RawProbeEvent) : ProbeForwarder × ProbeEvent :=
  let count := f.counts raw.probeId + 1
  ({ f with counts := Function.update f.counts raw.probeId count },
    { raw, path := f.paths raw.probeId, count })

def forwardAll (f : ProbeForwarder) : List RawProbeEvent → List ProbeEvent
  | [] => []
  | raw :: raws => (f.forward raw).2 :: (f.forward raw).1.forwardAll raws

end ProbeForwarder

/-- The payloads of which only the layout of fields is looked at. -/
def payloads (Probe Diagnostic Dependency : Type) : Payloads where
  Probe
  Diagnostic
  Dependency
  FieldLayout := ProbeFieldLayout

section Values

variable {Probe Diagnostic Dependency : Type}

/-- `translate`, as the client reads it. -/
def translate (version : ℕ) (runId : String) (event : ProbeEvent) :
    ProbeValueEvent (payloads Probe Diagnostic Dependency) where
  documentVersion := version
  runId
  probeId := event.raw.probeId
  name := event.raw.name
  line := event.raw.line
  column := event.raw.column
  typeName := event.raw.typeName
  preview := event.raw.preview
  count := event.count
  sequence := event.raw.sequence
  bits := event.raw.bits
  sizeBytes := event.raw.sizeBytes
  alignBytes := event.raw.alignBytes
  fields := event.raw.fields

/-- The value beside a line whose probe had these events, the last one last. -/
def expected (runId : String) (raws : List RawProbeEvent) :
    Option (InlineValue (payloads Probe Diagnostic Dependency)) :=
  raws.getLast?.map fun raw =>
    { probeId := raw.probeId, runId, name := raw.name, line := raw.line, column := raw.column,
      typeName := raw.typeName, preview := raw.preview, count := raws.length,
      sequence := raw.sequence, history := lastOf 20 (raws.map RawProbeEvent.preview),
      bits := raw.bits, sizeBytes := raw.sizeBytes, alignBytes := raw.alignBytes,
      fields := raw.fields }

def ofProbe (probeId : String) (raws : List RawProbeEvent) : List RawProbeEvent :=
  raws.filter fun raw => raw.probeId = probeId

/-! ## What the server sends of one probe -/

def hit (path : Option String) (counted : RawProbeEvent × ℕ) : ProbeEvent :=
  { raw := counted.1, path, count := counted.2 }

theorem ofProbe_cons (probeId : String) (raw : RawProbeEvent) (raws : List RawProbeEvent) :
    ofProbe probeId (raw :: raws) =
      if raw.probeId = probeId then raw :: ofProbe probeId raws else ofProbe probeId raws := by
  simp [ofProbe, List.filter_cons]

theorem forwardAll_ofProbe (f : ProbeForwarder) (raws : List RawProbeEvent) (probeId : String) :
    (f.forwardAll raws).filter (fun e => e.raw.probeId = probeId) =
      ((ofProbe probeId raws).zipIdx (f.counts probeId + 1)).map (hit (f.paths probeId)) := by
  induction raws generalizing f with
  | nil => rfl
  | cons raw raws ih =>
    have hrest := ih (f.forward raw).1
    rw [ProbeForwarder.forwardAll, List.filter_cons, hrest, ofProbe_cons]
    by_cases hid : raw.probeId = probeId
    · subst hid
      simp [ProbeForwarder.forward, hit]
    · simp [ProbeForwarder.forward, hid, Function.update_of_ne (Ne.symm hid)]

/-- The events a client is sent. -/
def sent (version : ℕ) (runId : String) (probes : List ProbeDescriptor)
    (raws : List RawProbeEvent) : List (ProbeValueEvent (payloads Probe Diagnostic Dependency)) :=
  ((ProbeForwarder.new probes).forwardAll raws).map (translate version runId)

/-- Those of one probe, the newest first. -/
def hits (version : ℕ) (runId : String) (path : Option String) (raws : List RawProbeEvent) :
    List (ProbeValueEvent (payloads Probe Diagnostic Dependency)) :=
  (((raws.zipIdx 1).map (hit path)).map (translate version runId)).reverse

theorem sent_ofProbe (version : ℕ) (runId : String) (probes : List ProbeDescriptor)
    (raws : List RawProbeEvent) (probeId : String) :
    (sent version runId probes raws :
      List (ProbeValueEvent (payloads Probe Diagnostic Dependency))).reverse.filter
        (fun e => e.probeId = probeId) =
      hits version runId ((ProbeForwarder.new probes).paths probeId) (ofProbe probeId raws) := by
  have hforward := forwardAll_ofProbe (ProbeForwarder.new probes) raws probeId
  rw [List.filter_reverse, sent, List.filter_map, hits]
  exact congrArg List.reverse (congrArg (List.map _) hforward)

/-! ## What the client makes of it -/

section Client

variable {P : Payloads}

theorem inlineValue_append {event : ProbeValueEvent P} {rest older : List (ProbeValueEvent P)}
    (hrest : ∀ e ∈ rest, e.runId = event.runId)
    (holder : ∀ e ∈ older.head?, e.runId ≠ event.runId) :
    inlineValue (event :: (rest ++ older)) = inlineValue (event :: rest) := by
  have hnone : older.takeWhile (fun e => decide (e.runId = event.runId)) = [] := by
    cases older with
    | nil => rfl
    | cons e older => simp [holder e rfl]
  have hpos : ∀ e ∈ rest, (fun e : ProbeValueEvent P => decide (e.runId = event.runId)) e = true :=
    fun e he => decide_eq_true (hrest e he)
  simp only [inlineValue, List.takeWhile_append_of_pos hpos, hnone, List.append_nil,
    List.takeWhile_eq_self_iff.mpr hpos]

theorem inlineValue_run {event : ProbeValueEvent P} {rest : List (ProbeValueEvent P)}
    (hrest : ∀ e ∈ rest, e.runId = event.runId) :
    inlineValue (event :: rest) = some {
      probeId := event.probeId, runId := event.runId, name := event.name, line := event.line,
      column := event.column, typeName := event.typeName, preview := event.preview,
      count := event.count, sequence := event.sequence
      history := (((event :: rest).map ProbeValueEvent.preview).take 20).reverse
      bits := event.bits, sizeBytes := event.sizeBytes, alignBytes := event.alignBytes,
      fields := event.fields } := by
  have hall : rest.takeWhile (fun e => decide (e.runId = event.runId)) = rest :=
    List.takeWhile_eq_self_iff.mpr fun e he => decide_eq_true (hrest e he)
  rw [inlineValue, hall]

theorem head_of_inlineValue {older : List (ProbeValueEvent P)} {runId : String}
    (h : ∀ v, inlineValue older = some v → v.runId ≠ runId) :
    ∀ e ∈ older.head?, e.runId ≠ runId := by
  intro e he
  cases older with
  | nil => cases he
  | cons e' older =>
    cases he
    exact h _ rfl

end Client

theorem runId_of_mem_hits {version : ℕ} {runId : String} {path : Option String}
    {raws : List RawProbeEvent} {event : ProbeValueEvent (payloads Probe Diagnostic Dependency)}
    (h : event ∈ hits version runId path raws) : event.runId = runId := by
  obtain ⟨e, -, rfl⟩ := List.mem_map.mp (List.mem_reverse.mp h)
  rfl

theorem previews_hits (version : ℕ) (runId : String) (path : Option String)
    (raws : List RawProbeEvent) :
    (hits version runId path raws :
      List (ProbeValueEvent (payloads Probe Diagnostic Dependency))).map ProbeValueEvent.preview =
      (raws.map RawProbeEvent.preview).reverse := by
  rw [hits, List.map_reverse, List.map_map, List.map_map]
  congr 1
  have hfst := List.zipIdx_map_fst 1 raws
  calc _ = ((raws.zipIdx 1).map Prod.fst).map RawProbeEvent.preview := by
        rw [List.map_map]
        rfl
    _ = _ := by rw [hfst]

theorem hits_concat (version : ℕ) (runId : String) (path : Option String)
    (init : List RawProbeEvent) (last : RawProbeEvent) :
    (hits version runId path (init ++ [last]) :
      List (ProbeValueEvent (payloads Probe Diagnostic Dependency))) =
      translate version runId (hit path (last, 1 + init.length)) ::
        hits version runId path init := by
  simp [hits, List.zipIdx_append]

theorem inlineValue_last {version : ℕ} {runId : String} {path : Option String}
    (init : List RawProbeEvent) (last : RawProbeEvent) :
    inlineValue (hits version runId path (init ++ [last])) =
      (expected runId (init ++ [last]) :
        Option (InlineValue (payloads Probe Diagnostic Dependency))) := by
  have hpreviews : (hits version runId path (init ++ [last]) :
      List (ProbeValueEvent (payloads Probe Diagnostic Dependency))).map
        ProbeValueEvent.preview = _ := previews_hits version runId path (init ++ [last])
  have hcount : 1 + init.length = (init ++ [last]).length := by
    rw [List.length_append, Nat.add_comm]
    rfl
  rw [hits_concat] at hpreviews ⊢
  have hrest : ∀ e ∈ (hits version runId path init :
      List (ProbeValueEvent (payloads Probe Diagnostic Dependency))), e.runId = runId :=
    fun e he => runId_of_mem_hits he
  have hrun := @inlineValue_run _ (translate version runId (hit path (last, 1 + init.length))) _
    hrest
  rw [hrun, hpreviews, expected, List.getLast?_concat, Option.map_some, lastOf,
    List.rtake_eq_reverse_take_reverse, ← hcount]
  rfl

/-- The events of one probe of a run that is new to the client. -/
theorem inlineValue_hits {version : ℕ} {runId : String} {path : Option String}
    {raws : List RawProbeEvent}
    {older : List (ProbeValueEvent (payloads Probe Diagnostic Dependency))}
    (hfresh : ∀ v, inlineValue older = some v → v.runId ≠ runId) :
    inlineValue (hits version runId path raws ++ older) =
      (expected runId raws).or (inlineValue older) := by
  rcases List.eq_nil_or_concat raws with rfl | ⟨init, last, rfl⟩
  · rfl
  · rw [List.concat_eq_append]
    have hlast : inlineValue (hits version runId path (init ++ [last])) =
        (expected runId (init ++ [last]) :
          Option (InlineValue (payloads Probe Diagnostic Dependency))) :=
      inlineValue_last init last
    rw [hits_concat] at hlast ⊢
    have hrest : ∀ e ∈ (hits version runId path init :
        List (ProbeValueEvent (payloads Probe Diagnostic Dependency))), e.runId = runId :=
      fun e he => runId_of_mem_hits he
    have hfirst := @inlineValue_append _ (translate version runId
      (hit path (last, 1 + init.length))) _ _ hrest (head_of_inlineValue hfresh)
    rw [List.cons_append, hfirst, hlast, expected, List.getLast?_concat]
    rfl

/-! ## A run that the client is sent -/

/-- The client stays at its version and keeps what it shows. -/
def Stays {P : Payloads} : Action P → Prop
  | .edit _ | .setVersion _ | .reset => False
  | _ => True

def received {P : Payloads} : Action P → Option (ProbeValueEvent P)
  | .receive (.probeValue event) => some event
  | _ => none

theorem version_next {P : Payloads} {s : RuntimeView.State P} {action : Action P}
    (h : Stays action) : (next s action).version = s.version := by
  cases action
  case edit => cases h
  case setVersion => cases h
  case reset => cases h
  all_goals rfl

/-- What an action that is not a probe's leaves in the log is not a probe's. -/
theorem probes_next_none {P : Payloads} {s : RuntimeView.State P} {action : Action P}
    (h : Stays action) (hreceived : received action = none) :
    (next s action).log.filterMap Entry.probe = s.log.filterMap Entry.probe := by
  cases action with
  | receive event =>
    have hprobe : Entry.probe (.server event) = none := by
      cases event with
      | probeValue event => cases hreceived
      | _ => rfl
    rw [next]
    dsimp only
    split_ifs
    · exact List.filterMap_cons_none hprobe
    · rfl
  | edit version => cases h
  | setVersion version => cases h
  | reset => cases h
  | _ => rfl

theorem probes_next_some {P : Payloads} {s : RuntimeView.State P} {event : ProbeValueEvent P}
    (h : event.documentVersion = s.version) :
    (next s (.receive (.probeValue event))).log.filterMap Entry.probe =
      event :: s.log.filterMap Entry.probe := by
  have htaken : taken s (.probeValue event) = true := by
    simp [taken, ServerEvent.gate, acceptsVersion, View.outdates, h]
  rw [next]
  dsimp only
  rw [if_pos htaken]
  exact List.filterMap_cons_some rfl

theorem eq_of_received {P : Payloads} {action : Action P} {event : ProbeValueEvent P}
    (h : received action = some event) : action = .receive (.probeValue event) := by
  cases action with
  | receive e =>
    cases e with
    | probeValue e =>
      cases h
      rfl
    | _ => cases h
  | _ => cases h

theorem probes_foldl {P : Payloads} {actions : List (Action P)} {s : RuntimeView.State P}
    (hstays : ∀ action ∈ actions, Stays action)
    (hversion : ∀ event ∈ actions.filterMap received, event.documentVersion = s.version) :
    (actions.foldl next s).log.filterMap Entry.probe =
      (actions.filterMap received).reverse ++ s.log.filterMap Entry.probe := by
  have hstep : ∀ (t : RuntimeView.State P) (action : Action P), t.version = s.version →
      (Stays action ∧ ∀ event ∈ received action, event.documentVersion = s.version) →
      (next t action).version = s.version ∧ (next t action).log.filterMap Entry.probe =
        (received action).toList ++ t.log.filterMap Entry.probe := by
    rintro t action hsame ⟨hstay, hevents⟩
    refine ⟨(version_next hstay).trans hsame, ?_⟩
    rcases hreceived : received action with _ | event
    · exact probes_next_none hstay hreceived
    · obtain rfl := eq_of_received hreceived
      exact probes_next_some ((hevents event hreceived).trans hsame.symm)
  exact (@seen_foldl P _ _ _ (List.filterMap Entry.probe) received hstep s rfl actions
    fun action haction => ⟨hstays action haction, fun event hevent =>
      hversion event (List.mem_filterMap.mpr ⟨action, haction, hevent⟩)⟩).2

theorem version_sent {version : ℕ} {runId : String} {probes : List ProbeDescriptor}
    {raws : List RawProbeEvent} {event : ProbeValueEvent (payloads Probe Diagnostic Dependency)}
    (h : event ∈ sent version runId probes raws) : event.documentVersion = version := by
  obtain ⟨e, -, rfl⟩ := List.mem_map.mp h
  rfl

/-- The values after a run that is new to the client. -/
theorem values_sent {s : RuntimeView.State (payloads Probe Diagnostic Dependency)}
    (hs : (RuntimeView.machine _).Reaches {} s) {runId : String} {probes : List ProbeDescriptor}
    {raws : List RawProbeEvent} {actions : List (Action (payloads Probe Diagnostic Dependency))}
    (hstays : ∀ action ∈ actions, Stays action)
    (hsent : actions.filterMap received = sent s.version runId probes raws)
    (hfresh : ∀ probeId, ∀ value ∈ s.view.values probeId, value.runId ≠ runId)
    (probeId : String) :
    (actions.foldl next s).view.values probeId =
      (expected runId (ofProbe probeId raws)).or (s.view.values probeId) := by
  have hshown := shows_of_reaches (hs.trans (reaches_foldl s actions))
  have hlog := probes_foldl hstays fun event hevent => by
    rw [hsent] at hevent
    exact version_sent hevent
  rw [hshown.values, probeEvents, hlog, List.filter_append, hsent, sent_ofProbe]
  have hold := (shows_of_reaches hs).values probeId
  rw [probeEvents] at hold
  rw [hold]
  exact inlineValue_hits fun value hvalue =>
    hfresh probeId value (hold.trans hvalue)

/-- What a process wrote shows, of its first events, beside the line of each probe. -/
theorem values_of_arrives {Call : Type} {event : Call → UInt64 → RawProbeEvent}
    {p : ProbeRecords.State Call} {r : Reader RawProbeEvent}
    (hr : ProbeRecords.Arrives event 10000 p r)
    {s : RuntimeView.State (payloads Probe Diagnostic Dependency)}
    (hs : (RuntimeView.machine _).Reaches {} s) {runId : String} {probes : List ProbeDescriptor}
    {actions : List (Action (payloads Probe Diagnostic Dependency))}
    (hstays : ∀ action ∈ actions, Stays action)
    (hsent : actions.filterMap received = sent s.version runId probes r.delivered)
    (hfresh : ∀ probeId, ∀ value ∈ s.view.values probeId, value.runId ≠ runId)
    (probeId : String) :
    (actions.foldl next s).view.values probeId =
      (expected runId (ofProbe probeId
        ((p.written.take 10000).map fun e => event e.call e.sequence))).or
          (s.view.values probeId) := by
  rw [values_sent hs hstays hsent hfresh, hr.delivered]

theorem rust_values_shown {serde : List Char → Except String RawProbeEvent}
    (hserde : RuntimeJson.ReadsJson RuntimeJson.rawProbeEvent serde)
    {p : ProbeRecords.State RustProbes.Call}
    (hp : (ProbeRecords.machine RustProbes.runtime).Reaches {} p)
    (hfits : ∀ e ∈ p.written, RustProbes.Fits e.call)
    {chunks : List (List UInt8)} (hchunks : chunks.flatten = p.channel)
    {s : RuntimeView.State (payloads Probe Diagnostic Dependency)}
    (hs : (RuntimeView.machine _).Reaches {} s) {runId : String} {probes : List ProbeDescriptor}
    {actions : List (Action (payloads Probe Diagnostic Dependency))}
    (hstays : ∀ action ∈ actions, Stays action)
    (hsent : actions.filterMap received = sent s.version runId probes
      (Reader.read (probeChannel serde) 10000 chunks).delivered)
    (hfresh : ∀ probeId, ∀ value ∈ s.view.values probeId, value.runId ≠ runId)
    (probeId : String) :
    (actions.foldl next s).view.values probeId =
      (expected runId (ofProbe probeId
        ((p.written.take 10000).map fun e => RustProbes.event e.call e.sequence))).or
          (s.view.values probeId) :=
  values_of_arrives (RustProbes.speaks.arrives hserde hp hfits 10000 hchunks) hs hstays hsent
    hfresh probeId

theorem zig_values_shown {serde : List Char → Except String RawProbeEvent}
    (hserde : RuntimeJson.ReadsJson RuntimeJson.rawProbeEvent serde)
    {p : ProbeRecords.State ZigProbes.Call}
    (hp : (ProbeRecords.machine ZigProbes.runtime).Reaches {} p)
    (hfits : ∀ e ∈ p.written, ZigProbes.Fits e.call)
    {chunks : List (List UInt8)} (hchunks : chunks.flatten = p.channel)
    {s : RuntimeView.State (payloads Probe Diagnostic Dependency)}
    (hs : (RuntimeView.machine _).Reaches {} s) {runId : String} {probes : List ProbeDescriptor}
    {actions : List (Action (payloads Probe Diagnostic Dependency))}
    (hstays : ∀ action ∈ actions, Stays action)
    (hsent : actions.filterMap received = sent s.version runId probes
      (Reader.read (probeChannel serde) 10000 chunks).delivered)
    (hfresh : ∀ probeId, ∀ value ∈ s.view.values probeId, value.runId ≠ runId)
    (probeId : String) :
    (actions.foldl next s).view.values probeId =
      (expected runId (ofProbe probeId
        ((p.written.take 10000).map fun e => ZigProbes.event e.call e.sequence))).or
          (s.view.values probeId) :=
  values_of_arrives (ZigProbes.speaks.arrives hserde hp hfits 10000 hchunks) hs hstays hsent
    hfresh probeId

/-- The client reads nothing else of the run. -/
def deliver (events : List (ProbeValueEvent (payloads Probe Diagnostic Dependency))) :
    List (Action (payloads Probe Diagnostic Dependency)) :=
  events.map fun event => .receive (.probeValue event)

theorem received_deliver
    (events : List (ProbeValueEvent (payloads Probe Diagnostic Dependency))) :
    (deliver events).filterMap received = events := by
  rw [deliver, List.filterMap_map]
  exact List.filterMap_some

theorem stays_deliver {events : List (ProbeValueEvent (payloads Probe Diagnostic Dependency))} :
    ∀ action ∈ deliver events, Stays action := by
  intro action haction
  obtain ⟨event, -, rfl⟩ := List.mem_map.mp haction
  trivial

end Values

/-! ## Two threads that cross -/

def quickChunks : List (List UInt8) := RustProbes.crossed.channel.map fun b => [b]

def quickReader : Reader RawProbeEvent :=
  Reader.read (probeChannel (RuntimeJson.fromStr RuntimeJson.rawProbeEvent)) 10000 quickChunks

def quickActions : List (Action (payloads Unit Unit Unit)) :=
  deliver (sent 1 "r1" [⟨"p", some "src/main.rs"⟩] quickReader.delivered)

theorem flatten_quickChunks : quickChunks.flatten = RustProbes.crossed.channel := by
  rw [quickChunks, ← List.flatMap_def, List.flatMap_singleton']

theorem received_quickActions :
    quickActions.filterMap received = sent 1 "r1" [⟨"p", some "src/main.rs"⟩]
      (Reader.read (probeChannel (RuntimeJson.fromStr RuntimeJson.rawProbeEvent)) 10000
        quickChunks).delivered :=
  received_deliver _

theorem rust_values_shown_crossed :
    (quickActions.foldl next {}).view.values "p" =
      (expected "r1" (ofProbe "p" ((RustProbes.crossed.written.take 10000).map fun e =>
        RustProbes.event e.call e.sequence))).or
          (({} : RuntimeView.State (payloads Unit Unit Unit)).view.values "p") :=
  @rust_values_shown Unit Unit Unit _ (RuntimeJson.readsJson_fromStr _) _
    RustProbes.reaches_crossed RustProbes.fits_crossed _ flatten_quickChunks {} (.refl _) "r1"
    [⟨"p", some "src/main.rs"⟩] quickActions stays_deliver received_quickActions
    (fun _ _ h => nomatch h) "p"

end Atomis.ProbeValues
