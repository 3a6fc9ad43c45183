import Atomis.StoreCall

/-!
# Persistent workspaces

`domain/workspace.rs`: the ids and names of workspaces, the meta file beside
`src/`, and the end of `remove_dir_all`. How a meta is printed as JSON and read
back is a parameter.
-/

namespace Atomis.Workspace
open Protocol Tree

def metaFile : String := "atomis.json"

def maxNameChars : ℕ := 64

structure WorkspaceMeta where
  id : String
  name : String
  language : Language
  createdAt : ℕ
  updatedAt : ℕ
deriving DecidableEq

def validId (id : String) : Bool :=
  id.utf8ByteSize = 32 && id.toList.all fun c => c.isDigit || ('a' ≤ c && c ≤ 'f')

def isControl (c : Char) : Bool := c.toNat < 0x20 || (0x7f ≤ c.toNat && c.toNat < 0xa0)

def isWhitespace (c : Char) : Bool :=
  (9 ≤ c.toNat && c.toNat ≤ 13) || (0x2000 ≤ c.toNat && c.toNat ≤ 0x200a) ||
    [0x20, 0x85, 0xa0, 0x1680, 0x2028, 0x2029, 0x202f, 0x205f, 0x3000].contains c.toNat

def trim (text : List Char) : List Char :=
  ((text.dropWhile isWhitespace).reverse.dropWhile isWhitespace).reverse

def sanitizeName (raw : String) : Option String :=
  let name := (trim (raw.toList.filter fun c => !isControl c)).take maxNameChars
  if name = [] then none else some (String.ofList name)

def workspaceDir (workspacesRoot : List String) (id : String) : Option (List String) :=
  if validId id then some (workspacesRoot ++ [id]) else none

/-- The JSON text of a meta, and what a text reads as. -/
structure MetaText where
  print : WorkspaceMeta → String
  parse : String → Option WorkspaceMeta

def inDir (dir : List String) (name : String) : List (Component String) :=
  dir.map .name ++ [.name name]

def metaPath (dir : List String) : List (Component String) := inDir dir metaFile

/-- `write_meta` writes here, then renames. -/
def metaTemporary (dir : List String) : List (Component String) := inDir dir (metaFile ++ ".tmp")

def readMeta (format : MetaText) (dir : List String) (disk : Disk) : Option WorkspaceMeta :=
  match (locate disk (metaPath dir)).bind disk with
  | some (.file (.text raw)) => format.parse raw
  | _ => none

/-- The end of `remove_dir_all`: a directory goes once it is empty, a link goes itself, and an
entry that has gone already counts as removed. -/
def removeDir (disk : Disk) (dir : List String) : Bool × Disk :=
  match place disk (dir.map .name) with
  | none => (false, disk)
  | some p =>
    match disk p with
    | some (.file _) => (false, disk)
    | some .dir => if isEmptyDir disk p then (true, disk.set p none) else (false, disk)
    | _ => (true, disk.set p none)

/-- An entry below the directory that the removal may unlink now. -/
def Unlinkable (disk : Disk) (dir p : List String) : Prop :=
  ∃ w ∈ place disk (dir.map .name), disk w = some .dir ∧ w <+: p ∧ w ≠ p ∧
    ∃ node ∈ disk p, node = .dir → isEmptyDir disk p = true

instance (disk : Disk) (dir p : List String) : Decidable (Unlinkable disk dir p) :=
  inferInstanceAs (Decidable (∃ w ∈ place disk (dir.map .name), disk w = some .dir ∧ w <+: p ∧
    w ≠ p ∧ ∃ node ∈ disk p, node = .dir → isEmptyDir disk p = true))

theorem sanitizeName_length {raw name : String} (h : sanitizeName raw = some name) :
    name ≠ "" ∧ name.length ≤ maxNameChars := by
  simp only [sanitizeName, Option.ite_none_left_eq_some, Option.some.injEq] at h
  obtain ⟨hne, rfl⟩ := h
  refine ⟨fun hempty => hne ?_, ?_⟩
  · simpa using congrArg String.toList hempty
  · simp

theorem removeDir_gone {disk disk' : Disk} {dir : List String}
    (h : removeDir disk dir = (true, disk')) : Gone disk' (dir.map .name) := by
  simp only [removeDir] at h
  split at h
  · cases h
  next p hp =>
    split at h
    · cases h
    · split_ifs at h with hempty
      · cases h
        exact gone_of_removed hp
      · cases h
    · cases h
      exact gone_of_removed hp

end Atomis.Workspace
