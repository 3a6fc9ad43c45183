import Mathlib.Data.List.Basic
import Mathlib.Data.List.Infix
import Mathlib.Data.Nat.Notation

/-!
# What a sandboxed process may read

A policy is an allowlist. A program that is about to run is granted with the directory it lies in,
or with the prefix above a `bin` directory. `canonicalize` and the directories of `PATH` are
parameters; a path is the list of its components.
-/

namespace Atomis.Sandbox

inductive PathComponent
  | rootDir
  | curDir
  | parentDir
  | normal (name : String)
deriving DecidableEq

abbrev PathBuf := List PathComponent

/-- `Path::components`: repeated slashes and inner dots are dropped. -/
def components (text : String) : PathBuf :=
  let segments := text.toList.splitOn '/'
  let start : PathBuf :=
    if text.toList.head? = some '/' then [.rootDir]
    else if segments.head? = some ['.'] then [.curDir]
    else []
  start ++ segments.filterMap fun segment =>
    if segment = [] ∨ segment = ['.'] then none
    else if segment = ['.', '.'] then some .parentDir
    else some (.normal (String.ofList segment))

namespace PathBuf

def join (dir path : PathBuf) : PathBuf :=
  if path.head? = some .rootDir ∨ dir = [] then path else dir ++ path.filter (· ≠ .curDir)

def parent (path : PathBuf) : Option PathBuf :=
  match path.getLast? with
  | none | some .rootDir => none
  | some _ => some path.dropLast

def fileName (path : PathBuf) : Option String :=
  match path.getLast? with
  | some (.normal name) => some name
  | _ => none

def startsWith (path base : PathBuf) : Bool := base.isPrefixOf path

end PathBuf

inductive NetworkAccess
  | none
  | ports (ports : List UInt16)
  | outbound
deriving DecidableEq

structure SandboxPolicy where
  workspace : PathBuf
  readWrite : List PathBuf
  readOnly : List PathBuf
  devices : List PathBuf
  home : Option PathBuf
  network : NetworkAccess
  listen : Option UInt16
deriving DecidableEq

def systemReadOnly : List String :=
  ["/usr", "/bin", "/sbin", "/lib", "/lib64", "/opt", "/etc", "/nix", "/var/lib", "/proc", "/sys"]

def devices : List String :=
  ["/dev/null", "/dev/zero", "/dev/full", "/dev/random", "/dev/urandom", "/dev/tty"]

def homeReadOnly : List String :=
  [".cargo", ".rustup", ".zvm", ".zig", "go", ".local", ".pyenv", ".nvm", ".volta", ".asdf",
    ".cache"]

/-- The compiler cache is granted where its directory could be made. -/
def policyFor (workspace projectRoot : PathBuf) (home cache : Option PathBuf) : SandboxPolicy where
  workspace := workspace
  readWrite := workspace :: cache.toList
  readOnly := systemReadOnly.map components ++ projectRoot ::
    home.toList.flatMap fun home => homeReadOnly.map fun entry => home.join (components entry)
  devices := devices.map components
  home := home
  network := .none
  listen := none

/-- What the process that makes the policies has around it. -/
structure Host where
  canonicalize : PathBuf → Option PathBuf
  canonical : ∀ path real, canonicalize path = some real →
    ∃ names : List String, real = .rootDir :: names.map .normal
  path : Option (List PathBuf)

def Host.resolveProgram (host : Host) (program : String) : Option PathBuf :=
  let direct := components program
  if 1 < direct.length then host.canonicalize direct
  else host.path.bind fun dirs => (dirs.map (·.join direct)).findSome? host.canonicalize

/-- The directory of the program. -/
def Host.programDir (host : Host) (program : String) : Option PathBuf :=
  (host.resolveProgram program).bind PathBuf.parent

def grantFor (policy : SandboxPolicy) (directory : PathBuf) : PathBuf :=
  match directory.fileName with
  | some "bin" =>
    match directory.parent with
    | some above => if above.parent.isSome ∧ policy.home ≠ some above then above else directory
    | none => directory
  | _ => directory

def withProgram (host : Host) (policy : SandboxPolicy) (program : String) : SandboxPolicy :=
  match host.programDir program with
  | none => policy
  | some directory =>
    let grant := grantFor policy directory
    if policy.readOnly.any grant.startsWith then policy
    else { policy with readOnly := policy.readOnly ++ [grant] }

/-! ## Home -/

/-- The names of the home: as it is given and as it resolves. -/
def homes (host : Host) (policy : SandboxPolicy) : List PathBuf :=
  policy.home.toList ++ (policy.home.bind host.canonicalize).toList

/-- The root, the home, or a directory above the home. -/
def HandsOverHome (host : Host) (policy : SandboxPolicy) (path : PathBuf) : Prop :=
  path = [.rootDir] ∨ ∃ home ∈ homes host policy, path <+: home

/-- At most one path is added, to what may be read, and it leaves the home alone. -/
def KeepsHome (host : Host) (policy next : SandboxPolicy) : Prop :=
  ∃ added : List PathBuf, next = { policy with readOnly := policy.readOnly ++ added } ∧
    added.length ≤ 1 ∧ ∀ path ∈ added, ¬HandsOverHome host policy path

def Covered (policy : SandboxPolicy) (path : PathBuf) : Prop :=
  ∃ allowed ∈ policy.readOnly, allowed <+: path

/-- A directory is the `bin` of an installation where the one above it is neither the root nor
the home. -/
def BinOf (policy : SandboxPolicy) (above directory : PathBuf) : Prop :=
  directory = above ++ [.normal "bin"] ∧ above ≠ [.rootDir] ∧ policy.home ≠ some above

/-- Where the program of a directory leaves the home alone: an installation is not above the home,
any other directory is not the root, the home or above it, or both may be read anyway. -/
structure Harmless (host : Host) (policy : SandboxPolicy) (directory : PathBuf) : Prop where
  installed : ∀ above, BinOf policy above directory →
    Covered policy above ∨ ∀ home ∈ homes host policy, ¬above <+: home
  elsewhere : (∀ above, ¬BinOf policy above directory) →
    Covered policy directory ∨ ¬HandsOverHome host policy directory

theorem programDir_canonical {host : Host} {program : String} {directory : PathBuf}
    (h : host.programDir program = some directory) :
    ∃ names : List String, directory = .rootDir :: names.map .normal := by
  obtain ⟨real, hreal, hparent⟩ := Option.bind_eq_some_iff.mp h
  have hcanonical : ∃ names : List String, real = .rootDir :: names.map .normal := by
    unfold Host.resolveProgram at hreal
    extract_lets direct at hreal
    split_ifs at hreal
    · exact host.canonical _ _ hreal
    · obtain ⟨dirs, -, hfound⟩ := Option.bind_eq_some_iff.mp hreal
      obtain ⟨candidate, -, hcandidate⟩ := List.exists_of_findSome?_eq_some hfound
      exact host.canonical _ _ hcandidate
  obtain ⟨names, rfl⟩ := hcanonical
  cases names using List.reverseRecOn with
  | nil => simp [PathBuf.parent] at hparent
  | append_singleton names name =>
    refine ⟨names, ?_⟩
    simpa [PathBuf.parent, List.getLast?_cons, List.dropLast_cons_of_ne_nil] using hparent.symm

@[simp] theorem PathBuf.parent_append (path : PathBuf) (name : String) :
    PathBuf.parent (path ++ [.normal name]) = some path := by
  simp [PathBuf.parent]

@[simp] theorem PathBuf.fileName_append (path : PathBuf) (name : String) :
    PathBuf.fileName (path ++ [.normal name]) = some name := by
  simp [PathBuf.fileName]

theorem parent_isSome_iff (names : List String) :
    (PathBuf.parent (.rootDir :: names.map .normal)).isSome = true ↔
      (.rootDir :: names.map .normal : PathBuf) ≠ [.rootDir] := by
  cases names using List.reverseRecOn with
  | nil => simp [PathBuf.parent]
  | append_singleton names name =>
    have h := PathBuf.parent_append (.rootDir :: names.map .normal) name
    rw [List.map_append, List.map_singleton, ← List.cons_append, h]
    simp

theorem grantFor_cases {policy : SandboxPolicy} {directory : PathBuf} {names : List String}
    (h : directory = .rootDir :: names.map .normal) :
    BinOf policy (grantFor policy directory) directory ∨
      (∀ above, ¬BinOf policy above directory) ∧ grantFor policy directory = directory := by
  cases names using List.reverseRecOn with
  | nil =>
    subst h
    refine Or.inr ⟨fun above hbin => ?_, rfl⟩
    have hlast := congrArg List.getLast? hbin.1
    simp at hlast
  | append_singleton names name =>
    rw [List.map_append, List.map_singleton, ← List.cons_append] at h
    subst h
    by_cases hname : name = "bin"
    · subst hname
      -- what stands above is granted unless it is the root or the home
      by_cases habove : (PathBuf.parent (.rootDir :: names.map .normal)).isSome ∧
          policy.home ≠ some (.rootDir :: names.map .normal)
      · refine Or.inl ?_
        have hgrant : grantFor policy (.rootDir :: names.map .normal ++ [.normal "bin"]) =
            .rootDir :: names.map .normal := by
          rw [grantFor, PathBuf.fileName_append, PathBuf.parent_append]
          exact if_pos habove
        rw [hgrant]
        exact ⟨rfl, (parent_isSome_iff names).mp habove.1, habove.2⟩
      · refine Or.inr ⟨fun above hbin => habove ?_, ?_⟩
        · obtain ⟨hdir, hroot, hhome⟩ := hbin
          obtain rfl := List.append_cancel_right hdir
          exact ⟨(parent_isSome_iff names).mpr hroot, hhome⟩
        · rw [grantFor, PathBuf.fileName_append, PathBuf.parent_append]
          exact if_neg habove
    · refine Or.inr ⟨fun above hbin => ?_, ?_⟩
      · have hlast := congrArg List.getLast? hbin.1
        rw [List.getLast?_concat, List.getLast?_concat] at hlast
        simp [hname] at hlast
      · rw [grantFor, PathBuf.fileName_append]
        split
        · next hbin => exact absurd (Option.some.inj hbin) hname
        · rfl

theorem covered_iff {policy : SandboxPolicy} {path : PathBuf} :
    policy.readOnly.any path.startsWith = true ↔ Covered policy path := by
  simp [Covered, PathBuf.startsWith, List.any_eq_true]

theorem keepsHome_self (host : Host) (policy : SandboxPolicy) : KeepsHome host policy policy :=
  ⟨[], by simp, by simp, by simp⟩

theorem keepsHome_add {host : Host} {policy : SandboxPolicy} {grant : PathBuf} :
    KeepsHome host policy { policy with readOnly := policy.readOnly ++ [grant] } ↔
      ¬HandsOverHome host policy grant := by
  constructor
  · rintro ⟨added, hnext, -, hclear⟩
    have hadded : policy.readOnly ++ [grant] = policy.readOnly ++ added :=
      congrArg SandboxPolicy.readOnly hnext
    exact hclear grant (by simp [← List.append_cancel_left hadded])
  · intro h
    exact ⟨[grant], rfl, by simp, by simpa using h⟩

theorem keepsHome_grant {host : Host} {policy : SandboxPolicy} {grant : PathBuf} :
    KeepsHome host policy (if policy.readOnly.any grant.startsWith then policy
      else { policy with readOnly := policy.readOnly ++ [grant] }) ↔
      Covered policy grant ∨ ¬HandsOverHome host policy grant := by
  by_cases hcovered : policy.readOnly.any grant.startsWith
  · rw [if_pos hcovered]
    exact iff_of_true (keepsHome_self host policy) (Or.inl (covered_iff.mp hcovered))
  · rw [if_neg hcovered, keepsHome_add, or_iff_right (mt covered_iff.mpr hcovered)]

theorem harmless_iff {host : Host} {policy : SandboxPolicy} {directory : PathBuf}
    {names : List String} (h : directory = .rootDir :: names.map .normal) :
    Harmless host policy directory ↔
      Covered policy (grantFor policy directory) ∨
        ¬HandsOverHome host policy (grantFor policy directory) := by
  have hcases : BinOf policy (grantFor policy directory) directory ∨
      (∀ above, ¬BinOf policy above directory) ∧ grantFor policy directory = directory :=
    grantFor_cases h
  rcases hcases with hbin | ⟨hnone, hgrant⟩
  · have honly : ∀ above, BinOf policy above directory → above = grantFor policy directory :=
      fun above habove => List.append_cancel_right (habove.1.symm.trans hbin.1)
    have hhands : HandsOverHome host policy (grantFor policy directory) ↔
        ∃ home ∈ homes host policy, grantFor policy directory <+: home :=
      or_iff_right hbin.2.1
    rw [hhands, not_exists]
    simp only [not_and]
    constructor
    · exact fun hharmless => hharmless.installed _ hbin
    · intro hclear
      refine ⟨fun above habove => ?_, fun hnone => absurd hbin (hnone _)⟩
      rw [honly above habove]
      exact hclear
  · rw [hgrant]
    constructor
    · exact fun hharmless => hharmless.elsewhere hnone
    · exact fun hclear => ⟨fun above habove => absurd habove (hnone above), fun _ => hclear⟩

theorem withProgram_keepsHome_iff (host : Host) (policy : SandboxPolicy) (program : String) :
    KeepsHome host policy (withProgram host policy program) ↔
      ∀ directory, host.programDir program = some directory →
        Harmless host policy directory := by
  cases hdir : host.programDir program with
  | none => simp [withProgram, hdir, keepsHome_self]
  | some directory =>
    obtain ⟨names, hnames⟩ := programDir_canonical hdir
    simp only [withProgram, hdir, Option.some.injEq, forall_eq']
    rw [keepsHome_grant, harmless_iff hnames]

/-- A host whose only file is `file`. -/
def hostOf (file : List String) : Host where
  canonicalize path :=
    if path = .rootDir :: file.map .normal then some (.rootDir :: file.map .normal) else none
  canonical path real h := by
    split_ifs at h
    exact ⟨file, (Option.some.inj h).symm⟩
  path := none

def devPolicy : SandboxPolicy :=
  policyFor (components "/tmp/atomis/a") (components "/srv/atomis") (some (components "/home/dev"))
    none

theorem hands_over_devHome {host : Host} {path : PathBuf}
    (h : path <+: components "/home/dev") : HandsOverHome host devPolicy path :=
  Or.inr ⟨components "/home/dev", by simp [homes, devPolicy, policyFor], h⟩

/-- A program that lies in the home, and one in a `bin` beside it. -/
theorem withProgram_hands_over_home :
    (withProgram (hostOf ["home", "dev", "zig"]) devPolicy "/home/dev/zig").readOnly =
        devPolicy.readOnly ++ [components "/home/dev"] ∧
      ¬KeepsHome (hostOf ["home", "dev", "zig"]) devPolicy
        (withProgram (hostOf ["home", "dev", "zig"]) devPolicy "/home/dev/zig") ∧
      (withProgram (hostOf ["home", "bin", "zig"]) devPolicy "/home/bin/zig").readOnly =
        devPolicy.readOnly ++ [components "/home"] ∧
      ¬KeepsHome (hostOf ["home", "bin", "zig"]) devPolicy
        (withProgram (hostOf ["home", "bin", "zig"]) devPolicy "/home/bin/zig") := by
  have hhome : withProgram (hostOf ["home", "dev", "zig"]) devPolicy "/home/dev/zig" =
      { devPolicy with readOnly := devPolicy.readOnly ++ [components "/home/dev"] } := by decide
  have hbeside : withProgram (hostOf ["home", "bin", "zig"]) devPolicy "/home/bin/zig" =
      { devPolicy with readOnly := devPolicy.readOnly ++ [components "/home"] } := by decide
  rw [hhome, hbeside, keepsHome_add, keepsHome_add, not_not, not_not]
  exact ⟨rfl, hands_over_devHome (by decide), rfl, hands_over_devHome (by decide)⟩

end Atomis.Sandbox
