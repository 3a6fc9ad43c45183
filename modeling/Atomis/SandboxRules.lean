import Atomis.Lib.Confinement
import Atomis.Sandbox

/-!
# What a session's processes may do

A policy is widened by what the settings ask for and by the program that is about to run, and
becomes a ruleset: an access that is handled and has no rule is denied. The kernel keeps the
ruleset on the process and on whatever it starts. This is for a kernel that enforces files and
TCP ports.
-/

namespace Atomis.Sandbox
open Confinement

/-! ## Widening a policy -/

def resolverPaths : List String :=
  ["/run/systemd/resolve", "/run/resolvconf", "/run/nscd", "/run/dbus/system_bus_socket"]

def withResolver (policy : SandboxPolicy) : SandboxPolicy :=
  { policy with readWrite := policy.readWrite ++ resolverPaths.map components }

def fetchPorts : List UInt16 := [443, 80]

def withFetchNetwork (policy : SandboxPolicy) : SandboxPolicy :=
  withResolver { policy with network := .ports fetchPorts }

def withOutboundNetwork (policy : SandboxPolicy) : SandboxPolicy :=
  withResolver { policy with network := .outbound }

def withListenPort (policy : SandboxPolicy) (port : UInt16) : SandboxPolicy :=
  { policy with listen := some port }

/-- What a session's policy is made from. -/
structure Session where
  root : PathBuf
  projectRoot : PathBuf
  home : Option PathBuf
  cache : Option PathBuf
  httpPort : UInt16

structure Settings where
  sandbox : Bool
  network : Bool
  serve : Bool

def Session.sandboxPolicy (session : Session) : SandboxPolicy :=
  policyFor session.root session.projectRoot session.home session.cache

def Session.sandbox (session : Session) (settings : Settings) : Option SandboxPolicy :=
  if settings.sandbox then
    let policy := session.sandboxPolicy
    let policy := if settings.network then withOutboundNetwork policy else policy
    some (if settings.serve then withListenPort policy session.httpPort else policy)
  else none

/-- The policy of a command on the dependencies. -/
def Session.depsSandbox (session : Session) (settings : Settings) (installing : Bool) :
    Option SandboxPolicy :=
  match session.sandbox settings with
  | some policy => if installing then some (withFetchNetwork policy) else some policy
  | none => none

/-! ## Rulesets -/

inductive AccessFs
  | execute
  | writeFile
  | readFile
  | readDir
  | removeDir
  | removeFile
  | makeChar
  | makeDir
  | makeReg
  | makeSock
  | makeFifo
  | makeBlock
  | makeSym
  | refer
  | truncate
deriving DecidableEq

def AccessFs.fromRead : AccessFs → Bool
  | .execute | .readFile | .readDir => true
  | _ => false

/-- What makes sense on a file that is no directory. -/
def AccessFs.onFile : AccessFs → Bool
  | .execute | .writeFile | .readFile | .truncate => true
  | _ => false

def AccessFs.onDevice : AccessFs → Bool
  | .readFile | .writeFile | .truncate => true
  | _ => false

structure PathBeneath where
  root : PathBuf
  access : AccessFs → Bool

/-- Every access to files and binding a port are handled. -/
structure Ruleset where
  paths : List PathBeneath
  handlesConnect : Bool
  connectPorts : List UInt16
  bindPorts : List UInt16

inductive Operation
  | file (access : AccessFs) (path : PathBuf)
  | connect (port : UInt16)
  | bind (port : UInt16)

/-- The kernel's decision for a path that is resolved. -/
def Ruleset.permits (ruleset : Ruleset) : Operation → Prop
  | .file access path => ∃ rule ∈ ruleset.paths, rule.access access ∧ rule.root <+: path
  | .connect port => ruleset.handlesConnect → port ∈ ruleset.connectPorts
  | .bind port => port ∈ ruleset.bindPorts

structure Files extends Host where
  isDir : PathBuf → Bool

/-- A path that cannot be opened has no rule. -/
def pathBeneathRules (files : Files) (paths : List PathBuf) (access : AccessFs → Bool) :
    List PathBeneath :=
  paths.filterMap fun path => (files.canonicalize path).map fun real =>
    ⟨real, fun a => access a && (files.isDir real || a.onFile)⟩

def prepare (files : Files) (policy : SandboxPolicy) : Ruleset where
  paths := pathBeneathRules files policy.readWrite (fun _ => true) ++
    pathBeneathRules files policy.readOnly AccessFs.fromRead ++
    pathBeneathRules files policy.devices AccessFs.onDevice
  handlesConnect := policy.network ≠ .outbound
  connectPorts := match policy.network with
    | .ports ports => ports
    | _ => []
  bindPorts := policy.listen.toList

/-! ## Processes -/

/-- What the server starts a process for. -/
structure Spawn where
  session : Session
  settings : Settings
  installing : Bool
  program : String

def Spawn.policy (spawn : Spawn) : Option SandboxPolicy :=
  spawn.session.depsSandbox spawn.settings spawn.installing

def confine (files : Files) (spawn : Spawn) : List Ruleset :=
  (spawn.policy.map fun policy =>
    prepare files (withProgram files.toHost policy spawn.program)).toList

/-- The processes the server starts and theirs, which may restrict themselves further. -/
def processes (files : Files) :
    Machine (State Spawn Ruleset Operation) (Action Spawn Ruleset Operation) :=
  Confinement.machine (confine files) Ruleset.permits

/-! ## What is granted -/

/-- At or beneath where one of the paths leads. -/
def Beneath (files : Files) (paths : List PathBuf) (access : AccessFs) (path : PathBuf) : Prop :=
  ∃ allowed ∈ paths, ∃ real, files.canonicalize allowed = some real ∧ real <+: path ∧
    (files.isDir real = true ∨ access.onFile = true)

namespace Spawn

variable (spawn : Spawn)

def opensNetwork : Bool := spawn.settings.network || spawn.installing

/-- The workspace, the compilers' cache and, with the network, what resolves names. -/
def writable : List PathBuf :=
  spawn.session.root :: spawn.session.cache.toList ++
    if spawn.opensNetwork then resolverPaths.map components else []

/-- The system, the project's own files and the toolchains of the home. -/
def toolchains : List PathBuf :=
  systemReadOnly.map components ++ spawn.session.projectRoot ::
    spawn.session.home.toList.flatMap fun home =>
      homeReadOnly.map fun entry => home.join (components entry)

/-- Where the program lies, if that is not readable anyway. -/
def programRoot (files : Files) : List PathBuf :=
  (files.programDir spawn.program).toList.flatMap fun directory =>
    let grant := grantFor spawn.session.sandboxPolicy directory
    if spawn.toolchains.any grant.startsWith then [] else [grant]

end Spawn

inductive Granted (files : Files) (spawn : Spawn) : Operation → Prop
  | written {access : AccessFs} {path : PathBuf}
      (h : Beneath files spawn.writable access path) : Granted files spawn (.file access path)
  | read {access : AccessFs} {path : PathBuf} (hread : access.fromRead = true)
      (h : Beneath files (spawn.toolchains ++ spawn.programRoot files) access path) :
      Granted files spawn (.file access path)
  | device {access : AccessFs} {path : PathBuf} (hdevice : access.onDevice = true)
      (h : Beneath files (devices.map components) access path) :
      Granted files spawn (.file access path)
  | fetch {port : UInt16} (hinstalling : spawn.installing = true) (hport : port ∈ fetchPorts) :
      Granted files spawn (.connect port)
  | outbound {port : UInt16} (hinstalling : spawn.installing = false)
      (hnetwork : spawn.settings.network = true) : Granted files spawn (.connect port)
  | listen (hserve : spawn.settings.serve = true) :
      Granted files spawn (.bind spawn.session.httpPort)

/-! ## What a ruleset permits -/

section Rules

variable {files : Files}

theorem exists_rule_iff {paths : List PathBuf} {rights : AccessFs → Bool} {access : AccessFs}
    {path : PathBuf} :
    (∃ rule ∈ pathBeneathRules files paths rights, rule.access access ∧ rule.root <+: path) ↔
      rights access = true ∧ Beneath files paths access path := by
  constructor
  · rintro ⟨rule, hrule, haccess, hroot⟩
    obtain ⟨allowed, hallowed, hopened⟩ := List.mem_filterMap.mp hrule
    obtain ⟨real, hreal, rfl⟩ := Option.map_eq_some_iff.mp hopened
    simp only [Bool.and_eq_true, Bool.or_eq_true] at haccess
    exact ⟨haccess.1, allowed, hallowed, real, hreal, hroot, haccess.2⟩
  · rintro ⟨hrights, allowed, hallowed, real, hreal, hroot, hkind⟩
    refine ⟨_, List.mem_filterMap.mpr ⟨allowed, hallowed, by rw [hreal]; rfl⟩, ?_, hroot⟩
    simp only [Bool.and_eq_true, Bool.or_eq_true]
    exact ⟨hrights, hkind⟩

theorem permits_file_iff {policy : SandboxPolicy} {access : AccessFs} {path : PathBuf} :
    (prepare files policy).permits (.file access path) ↔
      Beneath files policy.readWrite access path ∨
        access.fromRead = true ∧ Beneath files policy.readOnly access path ∨
        access.onDevice = true ∧ Beneath files policy.devices access path := by
  simp only [Ruleset.permits, prepare, List.mem_append, or_and_right, exists_or, exists_rule_iff,
    true_and, or_assoc]

/-! ## What widening does to each part -/

variable {spawn : Spawn} {policy : SandboxPolicy}

theorem policy_eq_none_iff : spawn.policy = none ↔ spawn.settings.sandbox = false := by
  cases hsandbox : spawn.settings.sandbox <;> cases hinstalling : spawn.installing <;>
    simp [Spawn.policy, Session.depsSandbox, Session.sandbox, hsandbox, hinstalling]

/-- What every widening leaves as it was, and what it makes of the rest. -/
structure Widened (spawn : Spawn) (policy : SandboxPolicy) : Prop where
  readOnly : policy.readOnly = spawn.session.sandboxPolicy.readOnly
  devices : policy.devices = spawn.session.sandboxPolicy.devices
  home : policy.home = spawn.session.sandboxPolicy.home
  readWrite : ∀ path, path ∈ policy.readWrite ↔ path ∈ spawn.writable
  network : policy.network =
    if spawn.installing then .ports fetchPorts
    else if spawn.settings.network then .outbound else .none
  listen : policy.listen = if spawn.settings.serve then some spawn.session.httpPort else none

theorem widened_policy (h : spawn.policy = some policy) : Widened spawn policy := by
  have hsandbox : spawn.settings.sandbox = true := by
    rw [← Bool.not_eq_false, ← policy_eq_none_iff, h]
    exact Option.some_ne_none _
  rw [Spawn.policy, Session.depsSandbox, Session.sandbox, if_pos hsandbox] at h
  obtain ⟨session, ⟨sandbox, network, serve⟩, installing, program⟩ := spawn
  cases network <;> cases serve <;> cases installing <;> cases h <;>
    refine ⟨rfl, rfl, rfl, fun path => ?_, rfl, rfl⟩ <;>
    simp [Spawn.writable, Spawn.opensNetwork, Session.sandboxPolicy, policyFor, withListenPort,
      withOutboundNetwork, withFetchNetwork, withResolver]

theorem readOnly_sandboxPolicy : spawn.session.sandboxPolicy.readOnly = spawn.toolchains := rfl

theorem grantFor_eq (h : Widened spawn policy) (directory : PathBuf) :
    grantFor policy directory = grantFor spawn.session.sandboxPolicy directory := by
  rw [grantFor, grantFor, h.home]

/-- The program adds the directory it lies in, to what may be read. -/
theorem withProgram_eq (files : Files) (h : Widened spawn policy) :
    withProgram files.toHost policy spawn.program =
      { policy with readOnly := spawn.toolchains ++ spawn.programRoot files } := by
  rw [withProgram, Spawn.programRoot]
  rcases files.programDir spawn.program with _ | directory
  · simp only [Option.toList_none, List.flatMap_nil, List.append_nil, ← readOnly_sandboxPolicy,
      ← h.readOnly]
  · simp only [grantFor_eq h, h.readOnly, readOnly_sandboxPolicy, Option.toList_some,
      List.flatMap_singleton]
    split_ifs
    · rw [List.append_nil, ← readOnly_sandboxPolicy, ← h.readOnly]
    · rfl

theorem beneath_congr {paths paths' : List PathBuf} (h : ∀ path, path ∈ paths ↔ path ∈ paths')
    (access : AccessFs) (path : PathBuf) :
    Beneath files paths access path ↔ Beneath files paths' access path := by
  simp only [Beneath, h]

theorem permits_connect_iff (h : Widened spawn policy) {port : UInt16} :
    (prepare files policy).permits (.connect port) ↔ Granted files spawn (.connect port) := by
  have hnetwork := h.network
  constructor
  · intro hpermits
    rw [Ruleset.permits, prepare] at hpermits
    by_cases hinstalling : spawn.installing
    · rw [if_pos hinstalling] at hnetwork
      rw [hnetwork] at hpermits
      exact .fetch hinstalling (hpermits rfl)
    · rw [if_neg hinstalling] at hnetwork
      rw [Bool.not_eq_true] at hinstalling
      by_cases hopen : spawn.settings.network
      · exact .outbound hinstalling hopen
      · rw [if_neg hopen] at hnetwork
        rw [hnetwork] at hpermits
        exact absurd (hpermits rfl) List.not_mem_nil
  · rintro (⟨⟩ | ⟨⟩ | ⟨⟩ | ⟨hinstalling, hport⟩ | ⟨hinstalling, hopen⟩ | ⟨⟩)
    · rw [if_pos hinstalling] at hnetwork
      rw [Ruleset.permits, prepare, hnetwork]
      exact fun _ => hport
    · rw [if_neg (by simp [hinstalling]), if_pos hopen] at hnetwork
      rw [Ruleset.permits, prepare, hnetwork]
      exact fun hhandled => absurd hhandled Bool.false_ne_true

theorem permits_bind_iff (h : Widened spawn policy) {port : UInt16} :
    (prepare files policy).permits (.bind port) ↔ Granted files spawn (.bind port) := by
  rw [Ruleset.permits, prepare, h.listen]
  constructor
  · intro hport
    split_ifs at hport with hserve
    · obtain rfl := List.mem_singleton.mp hport
      exact .listen hserve
    · cases hport
  · intro hgranted
    cases hgranted with
    | listen hserve => simp [hserve]

theorem granted_file_iff {access : AccessFs} {path : PathBuf} :
    Granted files spawn (.file access path) ↔
      Beneath files spawn.writable access path ∨
        access.fromRead = true ∧
          Beneath files (spawn.toolchains ++ spawn.programRoot files) access path ∨
        access.onDevice = true ∧ Beneath files (Sandbox.devices.map components) access path := by
  constructor
  · intro h
    cases h with
    | written h => exact .inl h
    | read hread h => exact .inr (.inl ⟨hread, h⟩)
    | device hdevice h => exact .inr (.inr ⟨hdevice, h⟩)
  · rintro (h | ⟨hread, h⟩ | ⟨hdevice, h⟩)
    · exact .written h
    · exact .read hread h
    · exact .device hdevice h

/-- The ruleset of a process is exactly what it is granted. -/
theorem permits_iff (h : spawn.policy = some policy) (op : Operation) :
    (prepare files (withProgram files.toHost policy spawn.program)).permits op ↔
      Granted files spawn op := by
  have hwidened := widened_policy h
  rw [withProgram_eq files hwidened]
  cases op with
  | file access path =>
    rw [permits_file_iff, granted_file_iff, beneath_congr hwidened.readWrite,
      show policy.devices = Sandbox.devices.map components from hwidened.devices]
  | connect port => exact permits_connect_iff hwidened
  | bind port => exact permits_bind_iff hwidened

theorem permits_confine_iff (hsandbox : spawn.settings.sandbox = true) (op : Operation) :
    (∀ ruleset ∈ confine files spawn, ruleset.permits op) ↔ Granted files spawn op := by
  rcases hpolicy : spawn.policy with _ | policy
  · rw [policy_eq_none_iff, hsandbox] at hpolicy
    cases hpolicy
  · rw [confine, hpolicy, Option.map_some, Option.toList_some, List.forall_mem_singleton]
    exact permits_iff hpolicy op

/-! ## Every run of the processes -/

/-- What the processes of a sandboxed session have done, and what they may do. -/
structure Confined (files : Files) (s : State Spawn Ruleset Operation) : Prop where
  performed : ∀ done ∈ s.performed, done.1.settings.sandbox = true → Granted files done.1 done.2
  allowed : ∀ pid p, s.processes pid = some p → p.origin.settings.sandbox = true →
    p.layers = confine files p.origin →
      ∀ op, (processes files).enabled s (.perform pid op) ↔ Granted files p.origin op

end Rules

/-! ## A server and a child of it -/

/-- Only the workspace exists. -/
def quickFiles : Files where
  toHost := hostOf ["tmp", "atomis", "a"]
  isDir _ := true

def quickSpawn : Spawn where
  session := ⟨components "/tmp/atomis/a", components "/srv/atomis", none, none, 20000⟩
  settings := ⟨true, false, true⟩
  installing := false
  program := "node"

def quickWrite : Operation := .file .writeFile (components "/tmp/atomis/a/log")

/-- The child writes a file, gives up everything and ends; its parent listens. -/
def quickRun : List (Action Spawn Ruleset Operation) :=
  [.start 1 quickSpawn, .fork 1 2, .perform 2 quickWrite, .restrict 2 ⟨[], true, [], []⟩, .exit 2,
    .perform 1 (.bind 20000)]

def quickState (n : ℕ) : State Spawn Ruleset Operation :=
  (quickRun.take n).foldl (processes quickFiles).next {}

theorem quick_step {n : ℕ} {action : Action Spawn Ruleset Operation}
    (haction : quickRun[n]? = some action) (h : (processes quickFiles).Reaches {} (quickState n))
    (henabled : (processes quickFiles).enabled (quickState n) action) :
    (processes quickFiles).Reaches {} (quickState (n + 1)) := by
  have hnext : quickState (n + 1) = (processes quickFiles).next (quickState n) action := by
    rw [quickState, List.take_succ, haction, List.foldl_append]
    rfl
  rw [hnext]
  exact h.tail henabled

theorem quick_granted {op : Operation} (h : Granted quickFiles quickSpawn op) :
    ∀ ruleset ∈ confine quickFiles quickSpawn, ruleset.permits op :=
  (permits_confine_iff rfl op).mpr h

theorem reaches_quick : (processes quickFiles).Reaches {} (quickState 6) := by
  have h₁ := quick_step (n := 0) rfl (.refl _) (show ({} : State _ _ _).processes 1 = none from rfl)
  have h₂ := quick_step (n := 1) rfl h₁ ⟨Option.some_ne_none _, rfl⟩
  have h₃ := quick_step (n := 2) rfl h₂ ⟨_, rfl, quick_granted (.written
    ⟨components "/tmp/atomis/a", by decide, _, rfl, by decide, .inl rfl⟩)⟩
  have h₄ := quick_step (n := 3) rfl h₃ (Option.some_ne_none _)
  have h₅ := quick_step (n := 4) rfl h₄ (Option.some_ne_none _)
  exact quick_step (n := 5) rfl h₅ ⟨_, rfl, quick_granted (.listen rfl)⟩

end Atomis.Sandbox
