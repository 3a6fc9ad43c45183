import Atomis.Packs
import Mathlib.Data.List.Sort
import Mathlib.Data.Prod.Basic

/-!
# What a session holds

`domain/session.rs`: the versioned snapshot of a session's files and the pure
part of its store, with the two functions of `util.rs` it uses: the order files
are listed in and the URI of a path. `updated_at` is read by nothing here.
-/

namespace Atomis
open Protocol

structure LanguageSupport where
  present : Bool
  run : Bool
  lsp : Bool

structure Snapshot where
  version : ℕ
  uri : String
  source : String
  files : List ProjectFile
deriving DecidableEq

/-- `entry_path` and `source_root` are functions of the fields kept here. -/
structure Session where
  id : String
  language : Language
  root : List String
  workspaceId : Option String
  support : Language → Option LanguageSupport

namespace LocaleCompare

def primary (c : Char) : ℕ × ℕ :=
  if c = ' ' then (0, 0)
  else if c = '_' then (0, 1)
  else if c = '-' then (0, 2)
  else if c = '.' then (0, 3)
  else if c = '/' then (0, 4)
  else if '0' ≤ c ∧ c ≤ '9' then (1, c.toNat)
  else if 'a' ≤ c ∧ c ≤ 'z' then (2, c.toNat - 'a'.toNat)
  else if 'A' ≤ c ∧ c ≤ 'Z' then (2, c.toNat - 'A'.toNat)
  else (3, c.toNat)

def tertiary (c : Char) : ℕ := if 'A' ≤ c ∧ c ≤ 'Z' then 1 else 0

def comparePair : ℕ × ℕ → ℕ × ℕ → Ordering := compareLex (compareOn Prod.fst) (compareOn Prod.snd)

instance : Std.TransCmp comparePair :=
  inferInstanceAs (Std.TransCmp (compareLex (compareOn Prod.fst) (compareOn Prod.snd)))

end LocaleCompare

open LocaleCompare in
def localeCompare (left right : String) : Ordering :=
  (List.compareLex comparePair (left.toList.map primary) (right.toList.map primary)).then
    (List.compareLex compare (left.toList.map tertiary) (right.toList.map tertiary))

def urlByte (b : UInt8) : Bool :=
  let c := Char.ofNat b.toNat
  b.toNat < 128 && (c.isAlphanum || "/-._~!$&'()*+,;=:@".toList.contains c)

def hexDigit (n : ℕ) : Char := Nat.digitChar n |>.toUpper

def pathToFileUrl (path : String) : String :=
  String.ofList <| "file://".toList ++ path.toUTF8.data.toList.flatMap fun b =>
    if urlByte b then [Char.ofNat b.toNat]
    else ['%', hexDigit (b.toNat / 16), hexDigit (b.toNat % 16)]

namespace Session

def entryPath (session : Session) : String := (Packs.pack session.language).entryFile

def sourceRoot (session : Session) : List String := session.root ++ ["src"]

/-- `source_root.join(path)`, as text. -/
def sourcePath (session : Session) (path : String) : String :=
  if path.toList.head? = some '/' then path
  else "/" ++ "/".intercalate session.sourceRoot ++ "/" ++ path

def projectFile (session : Session) (path source : String) : ProjectFile :=
  ⟨path, pathToFileUrl (session.sourcePath path), source⟩

def assertVersion (snapshot : Snapshot) (version : ℕ) : Except String Unit :=
  if version ≤ snapshot.version then
    .error ("Regressive document version " ++ toString version ++ "; current is " ++
      toString snapshot.version)
  else .ok ()

def assertProjectSize (files : List ProjectFile) : Except String Unit :=
  if (files.map fun f => f.source.utf8ByteSize).sum > maxProjectBytes then
    .error ("Project source exceeds " ++ toString maxProjectBytes ++ " bytes")
  else .ok ()

def before (l r : ProjectFile) : Prop := (localeCompare l.path r.path).isLE = true

instance : DecidableRel before := fun _ _ => inferInstanceAs (Decidable (_ = true))

def commit (session : Session) (version : ℕ) (files : List ProjectFile) : Except String Snapshot :=
  let files := files.insertionSort before
  match files.find? fun f => f.path = session.entryPath with
  | none => .error ("Project entry point " ++ session.entryPath ++ " is missing")
  | some main => .ok ⟨version, main.uri, main.source, files⟩

/-- The snapshot a session opens with, from the sources found or scaffolded. -/
def opening (session : Session) (texts : String → String) (sources : List (String × String)) :
    Snapshot where
  version := 1
  uri := pathToFileUrl (session.sourcePath session.entryPath)
  source := ((sources.find? fun (path, _) => path = session.entryPath).map Prod.snd).getD
    (texts "main.zig")
  files := (sources.map fun (path, source) => session.projectFile path source).insertionSort before

end Session

/-! ## The order of files -/

theorem localeCompare_eq : localeCompare = compareLex
    (fun l r => List.compareLex LocaleCompare.comparePair (l.toList.map LocaleCompare.primary)
      (r.toList.map LocaleCompare.primary))
    (fun l r => List.compareLex compare (l.toList.map LocaleCompare.tertiary)
      (r.toList.map LocaleCompare.tertiary)) := rfl

theorem transCmp_comap {α β : Type*} {cmp : β → β → Ordering} [Std.TransCmp cmp] (f : α → β) :
    Std.TransCmp fun a b => cmp (f a) (f b) where
  eq_swap := Std.OrientedCmp.eq_swap
  isLE_trans := Std.TransCmp.isLE_trans

instance : Std.TransCmp localeCompare := by
  have h₁ : Std.TransCmp fun l r : String =>
      List.compareLex LocaleCompare.comparePair (l.toList.map LocaleCompare.primary)
        (r.toList.map LocaleCompare.primary) :=
    transCmp_comap fun s : String => s.toList.map LocaleCompare.primary
  have h₂ : Std.TransCmp fun l r : String =>
      List.compareLex compare (l.toList.map LocaleCompare.tertiary)
        (r.toList.map LocaleCompare.tertiary) :=
    transCmp_comap fun s : String => s.toList.map LocaleCompare.tertiary
  rw [localeCompare_eq]
  infer_instance

instance : Std.Total Session.before where
  total l r := by
    have hswap : localeCompare r.path l.path = (localeCompare l.path r.path).swap :=
      Std.OrientedCmp.eq_swap
    simp only [Session.before, hswap]
    cases localeCompare l.path r.path <;> simp

instance : IsTrans ProjectFile Session.before where
  trans l m r h₁ h₂ := by
    have h : (localeCompare l.path r.path).isLE = true := Std.TransCmp.isLE_trans h₁ h₂
    exact h

end Atomis
