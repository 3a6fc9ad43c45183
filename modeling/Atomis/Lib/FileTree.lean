import Atomis.Lib.Table
import Mathlib.Data.List.Infix
import Mathlib.Tactic.SplitIfs

/-!
# File trees

A tree of files, directories and symbolic links by their locations, with the
operations of a POSIX file system that move whole files: paths are resolved
through links up to a budget, a write truncates or creates, a rename replaces a
file but never a directory by a file. An operation answers whether it succeeded
and leaves a tree. A fault makes one fail that could have succeeded; a failed
write may leave a file behind.
-/

namespace Atomis

/-- One component of a path. -/
inductive Component (ν : Type*)
  | up
  | name (n : ν)
deriving DecidableEq

inductive Node (ν α : Type*)
  | file (content : α)
  | dir
  | link (absolute : Bool) (target : List (Component ν))
deriving DecidableEq

abbrev Tree (ν α : Type*) := Table (List ν) (Option (Node ν α))

namespace Node
variable {ν α : Type*}

def isLink : Node ν α → Bool
  | .link .. => true
  | _ => false

def isDir : Node ν α → Bool
  | .dir => true
  | _ => false

def content? : Node ν α → Option α
  | .file content => some content
  | _ => none

end Node

namespace Tree
variable {ν α : Type*} [DecidableEq ν]

/-- How many symbolic links one path may go through. -/
def linkBudget : ℕ := 40

/-- Follows a path from a directory; `jump` continues behind a symbolic link. -/
def walk (t : Tree ν α) (jump : List ν → List (Component ν) → Option (List ν)) :
    List ν → List (Component ν) → Option (List ν)
  | cur, [] => some cur
  | cur, .up :: rest => walk t jump cur.dropLast rest
  | cur, .name n :: rest =>
    match t (cur ++ [n]) with
    | some (.link absolute target) => jump (if absolute then [] else cur) (target ++ rest)
    | some .dir => walk t jump (cur ++ [n]) rest
    | _ => if rest.isEmpty then some (cur ++ [n]) else none

def resolve (t : Tree ν α) : ℕ → List ν → List (Component ν) → Option (List ν)
  | 0 => walk t fun _ _ => none
  | budget + 1 => walk t (resolve t budget)

/-- Where a path leads, through any link at its end. -/
def locate (t : Tree ν α) (path : List (Component ν)) : Option (List ν) :=
  resolve t linkBudget [] path

/-- The entry a path names: a link at its end is not followed. -/
def place (t : Tree ν α) (path : List (Component ν)) : Option (List ν) :=
  match path.getLast? with
  | some (.name n) =>
    (locate t path.dropLast).bind fun dir => if (t dir).any Node.isDir then some (dir ++ [n]) else none
  | _ => none

/-- `mkdir -p`, from a directory down. -/
def mkdirs (fault : List ν → Bool) (t : Tree ν α) :
    List ν → List (Component ν) → Bool × Tree ν α
  | _, [] => (true, t)
  | cur, .up :: rest => mkdirs fault t cur.dropLast rest
  | cur, .name n :: rest =>
    match resolve t linkBudget cur [.name n] with
    | none => (false, t)
    | some p =>
      match t p with
      | some .dir => mkdirs fault t p rest
      | some _ => (false, t)
      | none =>
        if p = cur ++ [n] ∧ fault p = false then mkdirs fault (t.set p (some .dir)) p rest
        else (false, t)

/-- Opens for writing with truncation, and writes. A fault may leave part of the content. -/
def write (fault : Option (Option α)) (t : Tree ν α) (path : List (Component ν)) (content : α) :
    Bool × Tree ν α :=
  match locate t path with
  | none => (false, t)
  | some p =>
    match t p with
    | some .dir | some (.link ..) => (false, t)
    | _ =>
      match fault with
      | none => (true, t.set p (some (.file content)))
      | some none => (false, t)
      | some (some part) => (false, t.set p (some (.file part)))

def relocate (a b p : List ν) : Option (List ν) :=
  if a <+: p then some (b ++ p.drop a.length) else if b <+: p then none else some p

/-- Everything at or below `a` now stands at `b`, in place of what stood there. -/
def move (t : Tree ν α) (a b : List ν) : Tree ν α := t.rekey (relocate a b)

def isEmptyDir (t : Tree ν α) (p : List ν) : Bool :=
  t.writes.all fun e => !(decide (p <+: e.1) && decide (e.1 ≠ p) && (t e.1).isSome)

def rename (fault : Bool) (t : Tree ν α) (source target : List (Component ν)) :
    Bool × Tree ν α :=
  match place t source, place t target with
  | some a, some b =>
    if fault then (false, t)
    else if a = b then ((t a).isSome, t)
    else
      match t a, t b with
      | none, _ => (false, t)
      | some .dir, none => if a <+: b then (false, t) else (true, move t a b)
      | some .dir, some .dir =>
        if a <+: b || !isEmptyDir t b then (false, t) else (true, move t a b)
      | some .dir, some _ => (false, t)
      | some _, some .dir => (false, t)
      | some node, _ => (true, (t.set a none).set b (some node))
  | _, _ => (false, t)

def remove (fault : Bool) (t : Tree ν α) (path : List (Component ν)) : Bool × Tree ν α :=
  match place t path with
  | none => (false, t)
  | some p =>
    match t p with
    | none | some .dir => (false, t)
    | _ => if fault then (false, t) else (true, t.set p none)

/-! ## What each operation does -/

theorem walk_names {t : Tree ν α} {jump : List ν → List (Component ν) → Option (List ν)}
    {cur p : List ν} {names : List ν}
    (hlink : ∀ pre, pre ≠ [] → pre <+: names → (t (cur ++ pre)).any Node.isLink = false)
    (h : walk t jump cur (names.map .name) = some p) : p = cur ++ names := by
  induction names generalizing cur with
  | nil => simpa [walk, eq_comm] using h
  | cons n names ih =>
    have hn := hlink [n] (by simp) (by simp)
    simp only [List.map_cons, walk] at h
    cases ht : t (cur ++ [n]) with
    | none =>
      simp only [ht] at h
      split_ifs at h with hrest
      obtain rfl : names = [] := by simpa using hrest
      simpa [eq_comm] using h
    | some node =>
      cases node with
      | file content =>
        simp only [ht] at h
        split_ifs at h with hrest
        obtain rfl : names = [] := by simpa using hrest
        simpa [eq_comm] using h
      | dir =>
        simp only [ht] at h
        have hlink' : ∀ pre, pre ≠ [] → pre <+: names →
            (t (cur ++ [n] ++ pre)).any Node.isLink = false := fun pre hne hpre => by
          rw [List.append_assoc]
          exact hlink ([n] ++ pre) (by simp) (by simpa using hpre)
        simpa using ih hlink' h
      | link absolute target =>
        rw [ht] at hn
        cases hn

/-- A path of plain names that goes through no link leads where it says. -/
theorem resolve_names {t : Tree ν α} {budget : ℕ} {cur p names : List ν}
    (hlink : ∀ pre, pre ≠ [] → pre <+: names → (t (cur ++ pre)).any Node.isLink = false)
    (h : resolve t budget cur (names.map .name) = some p) : p = cur ++ names := by
  cases budget with
  | zero => exact walk_names hlink h
  | succ budget => exact walk_names hlink h

theorem place_append_name (t : Tree ν α) (path : List (Component ν)) (n : ν) :
    place t (path ++ [.name n]) =
      (locate t path).bind fun dir => if (t dir).any Node.isDir then some (dir ++ [n]) else none := by
  simp [place]

theorem place_eq_some {t : Tree ν α} {path : List (Component ν)} {p : List ν}
    (h : place t path = some p) :
    ∃ d n, path.getLast? = some (.name n) ∧ locate t path.dropLast = some d ∧
      (t d).any Node.isDir = true ∧ p = d ++ [n] := by
  simp only [place] at h
  split at h
  next n hn =>
    obtain ⟨d, hd, h⟩ := Option.bind_eq_some_iff.mp h
    split_ifs at h with hdir
    exact ⟨d, n, hn, hd, hdir, (Option.some.inj h).symm⟩
  · cases h

/-- Directories are made where nothing stood, and nothing else changes. -/
theorem mkdirs_get (fault : List ν → Bool) (t : Tree ν α) (cur : List ν)
    (path : List (Component ν)) (q : List ν) :
    (mkdirs fault t cur path).2 q = t q ∨
      (t q = none ∧ (mkdirs fault t cur path).2 q = some .dir) := by
  induction path generalizing t cur with
  | nil => exact .inl rfl
  | cons step rest ih =>
    cases step with
    | up => exact ih t cur.dropLast
    | name n =>
      simp only [mkdirs]
      cases hr : resolve t linkBudget cur [.name n] with
      | none => exact .inl rfl
      | some p =>
        simp only
        cases hp : t p with
        | some node =>
          cases node with
          | dir => exact ih t p
          | file content => exact .inl rfl
          | link absolute target => exact .inl rfl
        | none =>
          simp only
          split_ifs
          · have := ih (t.set p (some .dir)) p
            by_cases hq : q = p
            · subst hq
              refine .inr ⟨hp, ?_⟩
              simpa using this
            · simpa [hq] using this
          · exact .inl rfl

theorem mkdirs_eq_of_some (fault : List ν → Bool) (t : Tree ν α) (cur : List ν)
    (path : List (Component ν)) {q : List ν} {node : Node ν α} (hq : t q = some node) :
    (mkdirs fault t cur path).2 q = some node := by
  rcases mkdirs_get fault t cur path q with h | ⟨hnone, -⟩
  · rw [h, hq]
  · rw [hq] at hnone
    cases hnone

/-- No directory is made under a name the path does not have. -/
theorem mkdirs_unused {fault : List ν → Bool} {t : Tree ν α} {cur : List ν}
    {path : List (Component ν)} {n : ν} (hn : Component.name n ∉ path)
    (h : ∀ q, t (q ++ [n]) = none) (q : List ν) :
    (mkdirs fault t cur path).2 (q ++ [n]) = none := by
  induction path generalizing t cur with
  | nil => exact h q
  | cons step rest ih =>
    rw [List.mem_cons, not_or] at hn
    cases step with
    | up => exact ih hn.2 h
    | name m =>
      simp only [mkdirs]
      split
      · exact h q
      · split
        · exact ih hn.2 h
        · exact h q
        · split_ifs with hmake
          · refine ih hn.2 fun q => ?_
            rw [Table.set_get, if_neg, h q]
            rintro heq
            rw [hmake.1] at heq
            exact hn.1 (by simpa using (List.append_inj_right' heq rfl))
          · exact h q

theorem relocate_eq_some_iff (a b k q : List ν) :
    relocate a b k = some q ↔
      (∃ r, k = a ++ r ∧ q = b ++ r) ∨ (¬ a <+: k ∧ ¬ b <+: k ∧ k = q) := by
  simp only [relocate]
  by_cases hak : a <+: k
  · obtain ⟨r, rfl⟩ := hak
    simp [eq_comm]
  · by_cases hbk : b <+: k
    · simp only [hak, hbk, ↓reduceIte, reduceCtorEq, not_true_eq_false, false_and, and_false,
        or_false, false_iff, not_exists, not_and]
      rintro r rfl
      exact absurd (List.prefix_append a r) hak
    · simp only [hak, hbk, ↓reduceIte, Option.some.injEq, not_false_eq_true, true_and]
      refine ⟨.inr, fun h => h.resolve_left ?_⟩
      rintro ⟨r, rfl, -⟩
      exact hak (List.prefix_append a r)

theorem move_get (t : Tree ν α) (a b q : List ν) :
    (move t a b).get q =
      if b <+: q then t.get (a ++ q.drop b.length) else if a <+: q then none else t.get q := by
  by_cases hbq : b <+: q
  · obtain ⟨r, rfl⟩ := hbq
    rw [if_pos (List.prefix_append b r), List.drop_left]
    refine Table.rekey_get_of_iff fun k => ?_
    rw [relocate_eq_some_iff]
    constructor
    · rintro (⟨r', rfl, hr⟩ | ⟨-, hbk, rfl⟩)
      · rw [List.append_cancel_left hr]
      · exact absurd (List.prefix_append b r) hbk
    · rintro rfl
      exact .inl ⟨r, rfl, rfl⟩
  · rw [if_neg hbq]
    split_ifs with haq
    · refine Table.rekey_get_of_ne fun k hk => ?_
      rcases (relocate_eq_some_iff a b k q).mp hk with ⟨r, -, rfl⟩ | ⟨hak, -, rfl⟩
      · exact hbq (List.prefix_append b r)
      · exact hak haq
    · refine Table.rekey_get_of_iff fun k => ?_
      rw [relocate_eq_some_iff]
      constructor
      · rintro (⟨r, -, rfl⟩ | ⟨-, -, hk⟩)
        · exact absurd (List.prefix_append b r) hbq
        · exact hk
      · rintro rfl
        exact .inr ⟨haq, hbq, rfl⟩

/-- A file may be written here: nothing stands in the way. -/
def Vacant (t : Tree ν α) (p : List ν) : Prop := t p = none ∨ ∃ content, t p = some (.file content)

theorem write_cases (fault : Option (Option α)) (t : Tree ν α) (path : List (Component ν))
    (content : α) :
    write fault t path content = (false, t) ∨
      ∃ p, locate t path = some p ∧ Vacant t p ∧
        ((fault = none ∧ write fault t path content = (true, t.set p (some (.file content)))) ∨
          ∃ part, fault = some (some part) ∧
            write fault t path content = (false, t.set p (some (.file part)))) := by
  simp only [write]
  split
  · exact .inl rfl
  next p hp =>
    split
    · exact .inl rfl
    · exact .inl rfl
    next hdir hlink =>
      have hvacant : Vacant t p := by
        cases hnode : t p with
        | none => exact .inl hnode
        | some node =>
          cases node with
          | file old => exact .inr ⟨old, hnode⟩
          | dir => exact absurd hnode hdir
          | link absolute target => exact absurd hnode (hlink absolute target)
      split
      · exact .inr ⟨p, hp, hvacant, .inl ⟨rfl, rfl⟩⟩
      · exact .inl rfl
      next part => exact .inr ⟨p, hp, hvacant, .inr ⟨part, rfl, rfl⟩⟩

theorem write_vacant {t : Tree ν α} {path : List (Component ν)} {p : List ν}
    (hp : locate t path = some p) (hvacant : Vacant t p) (fault : Option (Option α)) (content : α) :
    write fault t path content = match fault with
      | none => (true, t.set p (some (.file content)))
      | some none => (false, t)
      | some (some part) => (false, t.set p (some (.file part))) := by
  rcases hvacant with hnone | ⟨old, hold⟩
  · simp only [write, hp, hnone]
  · simp only [write, hp, hold]

theorem rename_cases (fault : Bool) (t : Tree ν α) (source target : List (Component ν)) :
    rename fault t source target = (false, t) ∨
      ∃ a b node, place t source = some a ∧ place t target = some b ∧ t a = some node ∧
        ((a = b ∧ rename fault t source target = (true, t)) ∨
          (node = .dir ∧ (t b = none ∨ t b = some .dir ∧ isEmptyDir t b = true) ∧ ¬ a <+: b ∧
            rename fault t source target = (true, move t a b)) ∨
          (a ≠ b ∧ node ≠ .dir ∧ t b ≠ some .dir ∧
            rename fault t source target = (true, (t.set a none).set b (some node)))) := by
  simp only [rename]
  split
  next a b ha hb =>
    by_cases hfault : fault = true
    · exact .inl (if_pos hfault)
    rw [if_neg hfault]
    by_cases hab : a = b
    · rw [if_pos hab]
      cases hnode : t a with
      | none => exact .inl rfl
      | some node => exact .inr ⟨a, b, node, ha, hb, hnode, .inl ⟨hab, rfl⟩⟩
    rw [if_neg hab]
    split
    · exact .inl rfl
    next hnode htarget =>
      by_cases hpre : a <+: b
      · exact .inl (if_pos hpre)
      · exact .inr ⟨a, b, _, ha, hb, hnode, .inr (.inl ⟨rfl, .inl htarget, hpre, if_neg hpre⟩)⟩
    next hnode htarget =>
      by_cases hpre : (decide (a <+: b) || !isEmptyDir t b) = true
      · exact .inl (if_pos hpre)
      · refine .inr ⟨a, b, _, ha, hb, hnode, .inr (.inl ⟨rfl, .inr ⟨htarget, ?_⟩, ?_, if_neg hpre⟩)⟩
        · simp_all
        · simp_all
    · exact .inl rfl
    · exact .inl rfl
    next node hnode hnew _ hover htarget =>
      refine .inr ⟨a, b, node, ha, hb, hnode, .inr (.inr ⟨hab, ?_, htarget, rfl⟩)⟩
      rintro rfl
      cases hold : t b with
      | none => exact hnew hold rfl
      | some old => exact hover old hold rfl
  · exact .inl rfl

theorem isEmptyDir_get {t : Tree ν α} {p q : List ν} (h : isEmptyDir t p = true) (hpq : p <+: q)
    (hne : q ≠ p) : t q = none := by
  by_contra hsome
  obtain ⟨e, he, rfl⟩ : ∃ e ∈ t.writes, e.1 = q := by
    by_contra hno
    exact hsome (Table.get_of_notMem t fun e he heq => hno ⟨e, he, heq⟩)
  have hempty := List.all_eq_true.mp h e he
  have hissome : (t e.1).isSome = true := Option.isSome_iff_ne_none.mpr hsome
  simp [hpq, hne, hissome] at hempty

/-- A file or a link takes the place of a file. -/
theorem rename_over {t : Tree ν α} {source target : List (Component ν)} {a b : List ν}
    {node : Node ν α} {old : α} (ha : place t source = some a) (hb : place t target = some b)
    (hne : a ≠ b) (hnode : t a = some node) (hdir : node ≠ .dir) (hold : t b = some (.file old)) :
    rename false t source target = (true, (t.set a none).set b (some node)) := by
  cases node with
  | dir => exact absurd rfl hdir
  | file content => simp [rename, ha, hb, hne, hnode, hold]
  | link absolute path => simp [rename, ha, hb, hne, hnode, hold]

theorem rename_fault (t : Tree ν α) (source target : List (Component ν)) :
    rename true t source target = (false, t) := by
  simp only [rename]
  split <;> rfl

theorem rename_failed {fault : Bool} {t t' : Tree ν α} {source target : List (Component ν)}
    (h : rename fault t source target = (false, t')) : t' = t := by
  rcases rename_cases fault t source target with hf | ⟨a, b, node, -, -, -, hcases⟩
  · exact congrArg Prod.snd (h.symm.trans hf)
  · rcases hcases with ⟨-, hr⟩ | ⟨-, -, -, hr⟩ | ⟨-, -, -, hr⟩ <;>
      · rw [hr] at h
        cases h

theorem remove_cases (fault : Bool) (t : Tree ν α) (path : List (Component ν)) :
    remove fault t path = (false, t) ∨
      ∃ p node, place t path = some p ∧ t p = some node ∧ node ≠ .dir ∧
        remove fault t path = (true, t.set p none) := by
  simp only [remove]
  split
  · exact .inl rfl
  next p hp =>
    split
    · exact .inl rfl
    · exact .inl rfl
    next hnone hdir =>
      split_ifs
      · exact .inl rfl
      · obtain ⟨node, hnode⟩ := Option.ne_none_iff_exists'.mp hnone
        exact .inr ⟨p, node, hp, hnode, by rintro rfl; exact hdir hnode, rfl⟩

/-! ## Trees that agree on where paths lead -/

/-- The directories of `t` are in `t'`, and the links are the same. -/
structure Extends (t t' : Tree ν α) : Prop where
  dir : ∀ q, t q = some .dir → t' q = some .dir
  link : ∀ q absolute target, t' q = some (.link absolute target) ↔ t q = some (.link absolute target)

theorem Extends.refl (t : Tree ν α) : Extends t t := ⟨fun _ h => h, fun _ _ _ => Iff.rfl⟩

theorem Extends.trans {t u v : Tree ν α} (h₁ : Extends t u) (h₂ : Extends u v) : Extends t v :=
  ⟨fun q hq => h₂.dir q (h₁.dir q hq), fun q a p => (h₂.link q a p).trans (h₁.link q a p)⟩

omit [DecidableEq ν] in
theorem any_isDir_iff {node : Option (Node ν α)} :
    node.any Node.isDir = true ↔ node = some .dir := by
  cases node with
  | none => simp
  | some node => cases node <;> simp [Node.isDir]

omit [DecidableEq ν] in
theorem any_isLink_iff {node : Option (Node ν α)} :
    node.any Node.isLink = true ↔ ∃ absolute target, node = some (.link absolute target) := by
  cases node with
  | none => simp
  | some node => cases node <;> simp [Node.isLink]

theorem Extends.isLink {t t' : Tree ν α} (h : Extends t t') (q : List ν) :
    (t' q).any Node.isLink = (t q).any Node.isLink := by
  rw [Bool.eq_iff_iff, any_isLink_iff, any_isLink_iff]
  simp only [h.link q]

theorem Extends.set {t t' : Tree ν α} (h : Extends t t') {p : List ν} {node : Option (Node ν α)}
    (hdir : t p ≠ some .dir) (hlink : (t p).any Node.isLink = false)
    (hnode : node.any Node.isLink = false) : Extends t (t'.set p node) := by
  refine ⟨fun q hq => ?_, fun q absolute target => ?_⟩
  · rw [Table.set_get, if_neg]
    · exact h.dir q hq
    · rintro rfl
      exact hdir hq
  · rw [Table.set_get]
    split_ifs with hqp
    · subst hqp
      constructor
      · rintro rfl
        simp [Node.isLink] at hnode
      · intro hq
        simp [hq, Node.isLink] at hlink
    · exact h.link q absolute target

theorem walk_of_extends {t t' : Tree ν α} (h : Extends t t')
    {jump jump' : List ν → List (Component ν) → Option (List ν)}
    (hjump : ∀ cur path p, jump cur path = some p → jump' cur path = some p)
    {cur p : List ν} {path : List (Component ν)} (hw : walk t jump cur path = some p) :
    walk t' jump' cur path = some p := by
  induction path generalizing cur with
  | nil => exact hw
  | cons step rest ih =>
    cases step with
    | up => exact ih hw
    | name n =>
      simp only [walk] at hw ⊢
      -- at the end of the path, only a link leads elsewhere
      have hlast : rest = [] → (t (cur ++ [n])).any Node.isLink = false → cur ++ [n] = p →
          (match t' (cur ++ [n]) with
            | some (.link absolute target) =>
              jump' (if absolute then [] else cur) (target ++ rest)
            | some .dir => walk t' jump' (cur ++ [n]) rest
            | _ => if rest.isEmpty then some (cur ++ [n]) else none) = some p := by
        rintro rfl hlink rfl
        rw [← h.isLink] at hlink
        split
        next hl => simp [hl, Node.isLink] at hlink
        · rfl
        · rfl
      split at hw
      next absolute target hl =>
        rw [(h.link _ absolute target).mpr hl]
        exact hjump _ _ _ hw
      next hdir =>
        rw [h.dir _ hdir]
        exact ih hw
      next hdir hlink =>
        split_ifs at hw with hrest
        refine hlast (by simpa using hrest) ?_ (by simpa using hw)
        cases hn : t (cur ++ [n]) with
        | none => rfl
        | some node => cases node <;> simp_all [Node.isLink]

theorem resolve_of_extends {t t' : Tree ν α} (h : Extends t t') {budget : ℕ} {cur p : List ν}
    {path : List (Component ν)} (hr : resolve t budget cur path = some p) :
    resolve t' budget cur path = some p := by
  induction budget generalizing cur path p with
  | zero => exact walk_of_extends h (fun _ _ _ hj => by cases hj) hr
  | succ budget ih => exact walk_of_extends h (fun _ _ _ hj => ih hj) hr

theorem walk_append_name {t : Tree ν α} {jump : List ν → List (Component ν) → Option (List ν)}
    {n : ν} (hfree : ∀ q, t (q ++ [n]) = none)
    (hjump : ∀ cur path p, jump cur (path ++ [.name n]) = some p →
      ∃ d, jump cur path = some d ∧ p = d ++ [n])
    {cur p : List ν} {path : List (Component ν)}
    (h : walk t jump cur (path ++ [.name n]) = some p) :
    ∃ d, walk t jump cur path = some d ∧ p = d ++ [n] := by
  induction path generalizing cur with
  | nil =>
    simp only [List.nil_append, walk, hfree] at h
    exact ⟨cur, rfl, by simpa [eq_comm] using h⟩
  | cons step rest ih =>
    cases step with
    | up => exact ih h
    | name m =>
      simp only [List.cons_append, walk] at h ⊢
      split at h
      · rw [← List.append_assoc] at h
        exact hjump _ _ _ h
      · exact ih h
      · simp at h

/-- An unused name leads below wherever the rest of the path leads. -/
theorem resolve_append_name {t : Tree ν α} {n : ν} (hfree : ∀ q, t (q ++ [n]) = none)
    {budget : ℕ} {cur p : List ν} {path : List (Component ν)}
    (h : resolve t budget cur (path ++ [.name n]) = some p) :
    ∃ d, resolve t budget cur path = some d ∧ p = d ++ [n] := by
  induction budget generalizing cur path p with
  | zero => exact walk_append_name hfree (fun _ _ _ hj => by cases hj) h
  | succ budget ih => exact walk_append_name hfree (fun _ _ _ => ih) h

theorem walk_append_dir {t : Tree ν α} {jump : List ν → List (Component ν) → Option (List ν)}
    {d : List ν} {n : ν} (hdir : t d = some .dir)
    (hlink : (t (d ++ [n])).any Node.isLink = false)
    (hjump : ∀ cur path, jump cur path = some d → jump cur (path ++ [.name n]) = some (d ++ [n]))
    {cur : List ν} {path : List (Component ν)} (h : walk t jump cur path = some d) :
    walk t jump cur (path ++ [.name n]) = some (d ++ [n]) := by
  induction path generalizing cur with
  | nil =>
    obtain rfl : cur = d := by simpa [walk] using h
    cases hnode : t (cur ++ [n]) with
    | none => simp [walk, hnode]
    | some node =>
      cases node with
      | link absolute target =>
        rw [hnode] at hlink
        cases hlink
      | dir | file => simp [walk, hnode]
  | cons step rest ih =>
    cases step with
    | up => exact ih h
    | name m =>
      simp only [List.cons_append, walk] at h ⊢
      split at h
      · rw [← List.append_assoc]
        exact hjump _ _ h
      · exact ih h
      next _ hnodir =>
        split_ifs at h
        obtain rfl := Option.some.inj h
        exact absurd hdir hnodir

theorem resolve_append_dir {t : Tree ν α} {d : List ν} {n : ν} (hdir : t d = some .dir)
    (hlink : (t (d ++ [n])).any Node.isLink = false) {budget : ℕ} {cur : List ν}
    {path : List (Component ν)} (h : resolve t budget cur path = some d) :
    resolve t budget cur (path ++ [.name n]) = some (d ++ [n]) := by
  induction budget generalizing cur path with
  | zero => exact walk_append_dir hdir hlink (fun _ _ hj => by cases hj) h
  | succ budget ih => exact walk_append_dir hdir hlink (fun _ _ => ih) h

theorem locate_of_place {t : Tree ν α} {path : List (Component ν)} {p : List ν}
    (h : place t path = some p) (hlink : (t p).any Node.isLink = false) :
    locate t path = some p := by
  obtain ⟨d, n, hlast, hd, hdir, rfl⟩ := place_eq_some h
  rw [← List.dropLast_append_getLast? _ hlast]
  exact resolve_append_dir (any_isDir_iff.mp hdir) hlink hd

theorem mkdirs_extends (fault : List ν → Bool) (t : Tree ν α) (cur : List ν)
    (path : List (Component ν)) : Extends t (mkdirs fault t cur path).2 := by
  refine ⟨fun q hq => mkdirs_eq_of_some fault t cur path hq, fun q absolute target => ?_⟩
  rcases mkdirs_get fault t cur path q with h | ⟨hnone, hdir⟩
  · rw [h]
  · simp [hnone, hdir]

theorem Vacant.extends {t : Tree ν α} {p : List ν} (h : Vacant t p) (content : α) :
    Extends t (t.set p (some (.file content))) := by
  refine ⟨fun q hq => ?_, fun q absolute target => ?_⟩
  · rw [Table.set_get, if_neg]
    · exact hq
    · rintro rfl
      rcases h with h | ⟨old, h⟩ <;> simp [h] at hq
  · rw [Table.set_get]
    split_ifs with hqp
    · subst hqp
      rcases h with h | ⟨old, h⟩ <;> simp [h]
    · rfl

/-- The same directories and the same links: paths lead to the same places. -/
def Alike (t t' : Tree ν α) : Prop := Extends t t' ∧ Extends t' t

theorem Alike.isDir {t t' : Tree ν α} (h : Alike t t') (p : List ν) :
    t' p = some .dir ↔ t p = some .dir :=
  ⟨h.2.dir p, h.1.dir p⟩

theorem Alike.locate_eq {t t' : Tree ν α} (h : Alike t t') (path : List (Component ν)) :
    locate t' path = locate t path := by
  cases ht : locate t path with
  | some p => exact resolve_of_extends h.1 ht
  | none =>
    rw [Option.eq_none_iff_forall_ne_some]
    intro p hp
    have hback : locate t path = some p := resolve_of_extends h.2 hp
    rw [hback] at ht
    cases ht

theorem Alike.place_eq {t t' : Tree ν α} (h : Alike t t') (path : List (Component ν)) :
    place t' path = place t path := by
  have hdir : ∀ p, (t' p).any Node.isDir = (t p).any Node.isDir := fun p => by
    rw [Bool.eq_iff_iff, any_isDir_iff, any_isDir_iff, h.isDir]
  simp only [place, h.locate_eq, hdir]

theorem Alike.trans {t u v : Tree ν α} (h₁ : Alike t u) (h₂ : Alike u v) : Alike t v :=
  ⟨h₁.1.trans h₂.1, h₂.2.trans h₁.2⟩

theorem vacant_iff {t : Tree ν α} {p : List ν} :
    Vacant t p ↔ t p ≠ some .dir ∧ (t p).any Node.isLink = false := by
  cases hp : t p with
  | none => simp [Vacant, hp]
  | some node => cases node <;> simp [Vacant, hp, Node.isLink]

theorem Vacant.alike {t : Tree ν α} {p : List ν} (h : Vacant t p) (content : α) :
    Alike t (t.set p (some (.file content))) := by
  refine ⟨h.extends content, fun q hq => ?_, fun q absolute target => ?_⟩
  · rw [Table.set_get] at hq
    split_ifs at hq
    · cases hq
    · exact hq
  · exact ((h.extends content).link q absolute target).symm

/-! ## Paths of plain names -/

/-- No prefix of these names is a link. -/
def Clear (t : Tree ν α) (names : List ν) : Prop :=
  ∀ pre, pre ≠ [] → pre <+: names → (t pre).any Node.isLink = false

theorem Clear.mono {t : Tree ν α} {names pre : List ν} (h : Clear t names)
    (hpre : pre <+: names) : Clear t pre :=
  fun q hne hq => h q hne (hq.trans hpre)

theorem Clear.of_extends {t t' : Tree ν α} {names : List ν} (h : Clear t names)
    (he : Extends t t') : Clear t' names :=
  fun q hne hq => (he.isLink q).trans (h q hne hq)

theorem Clear.append {t : Tree ν α} {names : List ν} (h : Clear t names) {n : ν}
    (hn : t (names ++ [n]) = none) : Clear t (names ++ [n]) := by
  intro pre hne hpre
  rcases List.prefix_concat_iff.mp hpre with rfl | hpre
  · simp [hn]
  · exact h pre hne hpre

theorem locate_names {t : Tree ν α} {names p : List ν} (h : Clear t names)
    (hl : locate t (names.map .name) = some p) : p = names := by
  have := resolve_names (by simpa [Clear] using h) hl
  simpa using this

theorem place_names {t : Tree ν α} {d p : List ν} {n : ν} (h : Clear t d)
    (hp : place t ((d ++ [n]).map .name) = some p) : p = d ++ [n] ∧ (t d).any Node.isDir = true := by
  rw [List.map_append, List.map_singleton, place_append_name] at hp
  obtain ⟨dir, hdir, hp'⟩ := Option.bind_eq_some_iff.mp hp
  obtain rfl := locate_names h hdir
  split_ifs at hp' with hisdir
  exact ⟨(Option.some.inj hp').symm, hisdir⟩

theorem walk_dirs {t : Tree ν α} {jump : List ν → List (Component ν) → Option (List ν)}
    {cur names : List ν} (h : ∀ pre, pre ≠ [] → pre <+: names → t (cur ++ pre) = some .dir) :
    walk t jump cur (names.map .name) = some (cur ++ names) := by
  induction names generalizing cur with
  | nil => simp [walk]
  | cons n names ih =>
    have hn := h [n] (by simp) (by simp)
    simp only [List.map_cons, walk, hn]
    rw [ih fun pre hne hpre => ?_, List.append_assoc, List.singleton_append]
    rw [List.append_assoc]
    exact h ([n] ++ pre) (by simp) (by simpa using hpre)

theorem locate_dirs {t : Tree ν α} {names : List ν}
    (h : ∀ pre, pre ≠ [] → pre <+: names → t pre = some .dir) :
    locate t (names.map .name) = some names :=
  walk_dirs (by simpa using h)

theorem place_dirs {t : Tree ν α} {d : List ν} (hd : (t d).any Node.isDir = true)
    (h : ∀ pre, pre ≠ [] → pre <+: d → t pre = some .dir) (n : ν) :
    place t ((d ++ [n]).map .name) = some (d ++ [n]) := by
  rw [List.map_append, List.map_singleton, place_append_name, locate_dirs h, Option.bind_some,
    if_pos hd]

theorem mkdirs_names {fault : List ν → Bool} {t : Tree ν α} {cur names : List ν}
    (hlink : ∀ pre, pre ≠ [] → pre <+: names → (t (cur ++ pre)).any Node.isLink = false)
    (h : (mkdirs fault t cur (names.map .name)).1 = true) :
    ∀ pre, pre ≠ [] → pre <+: names →
      (mkdirs fault t cur (names.map .name)).2 (cur ++ pre) = some .dir := by
  induction names generalizing t cur with
  | nil => exact fun pre hne hpre => absurd (List.prefix_nil.mp hpre) hne
  | cons n names ih =>
    simp only [List.map_cons, mkdirs] at h ⊢
    cases hr : resolve t linkBudget cur [.name n] with
    | none => simp [hr] at h
    | some p =>
      obtain rfl : p = cur ++ [n] := by
        refine resolve_names (fun pre hne hpre => hlink pre hne (hpre.trans ?_)) hr
        simp
      have hrest : ∀ t' : Tree ν α, t' (cur ++ [n]) = some .dir →
          (∀ q, (t' q).any Node.isLink = (t q).any Node.isLink) →
          (mkdirs fault t' (cur ++ [n]) (names.map .name)).1 = true →
          ∀ pre, pre ≠ [] → pre <+: n :: names →
            (mkdirs fault t' (cur ++ [n]) (names.map .name)).2 (cur ++ pre) = some .dir := by
        intro t' hdir hlinks hok pre hne hpre
        cases pre with
        | nil => exact absurd rfl hne
        | cons m pre =>
          obtain ⟨rfl, hpre'⟩ := List.cons_prefix_cons.mp hpre
          have hassoc : cur ++ m :: pre = cur ++ [m] ++ pre := by simp
          rw [hassoc]
          by_cases hpne : pre = []
          · subst hpne
            rw [List.append_nil]
            exact mkdirs_eq_of_some _ _ _ _ hdir
          · refine ih (fun q hqne hq => ?_) hok pre hpne hpre'
            rw [hlinks, List.append_assoc]
            exact hlink ([m] ++ q) (by simp) (by simpa using hq)
      simp only [hr] at h ⊢
      split at h
      next hdir => exact hrest t hdir (fun _ => rfl) h
      · cases h
      next hnone =>
        split_ifs at h with hmake
        rw [if_pos hmake]
        refine hrest _ (by simp) (fun q => ?_) h
        rw [Table.set_get]
        split_ifs with hq
        · simp [hq, hnone, Node.isLink]
        · rfl

/-- Strictly above, below the root. -/
def Above (d p : List ν) : Prop := d ≠ [] ∧ d <+: p ∧ d ≠ p

omit [DecidableEq ν] in
theorem above_concat {pre d : List ν} {n : ν} : Above pre (d ++ [n]) ↔ pre ≠ [] ∧ pre <+: d := by
  constructor
  · rintro ⟨hne, hpre, hend⟩
    exact ⟨hne, (List.prefix_concat_iff.mp hpre).resolve_left hend⟩
  · rintro ⟨hne, hpre⟩
    refine ⟨hne, hpre.trans (List.prefix_append d [n]), ?_⟩
    rintro rfl
    have hlength := hpre.length_le
    rw [List.length_append, List.length_singleton] at hlength
    omega

/-- Nothing but directories, and no link or file, stands on the way to a place where a file may
be. -/
structure Free (t : Tree ν α) (p : List ν) : Prop where
  above : ∀ d, Above d p → t d = none ∨ t d = some .dir
  vacant : Vacant t p

theorem resolve_name {t : Tree ν α} {cur : List ν} {n : ν}
    (h : (t (cur ++ [n])).any Node.isLink = false) :
    resolve t linkBudget cur [.name n] = some (cur ++ [n]) := by
  simp only [resolve, linkBudget, walk]
  cases hn : t (cur ++ [n]) with
  | none => rfl
  | some node =>
    cases node with
    | file content => rfl
    | dir => rfl
    | link absolute target => simp [hn, Node.isLink] at h

/-- Where nothing but directories stands, `mkdir -p` succeeds and makes only the directories on
the way. -/
theorem mkdirs_free {t : Tree ν α} {cur names : List ν}
    (h : ∀ pre, pre ≠ [] → pre <+: names → t (cur ++ pre) = none ∨ t (cur ++ pre) = some .dir) :
    (mkdirs (fun _ => false) t cur (names.map .name)).1 = true ∧
      ∀ q, (∀ pre, pre ≠ [] → pre <+: names → q ≠ cur ++ pre) →
        (mkdirs (fun _ => false) t cur (names.map .name)).2 q = t q := by
  induction names generalizing t cur with
  | nil => exact ⟨rfl, fun _ _ => rfl⟩
  | cons n names ih =>
    have hn := h [n] (by simp) (by simp)
    have hresolve : resolve t linkBudget cur [.name n] = some (cur ++ [n]) := by
      refine resolve_name ?_
      rcases hn with hn | hn <;> simp [hn, Node.isLink]
    have hrest : ∀ t' : Tree ν α, (∀ q, q ≠ cur ++ [n] → t' q = t q) →
        (mkdirs (fun _ => false) t' (cur ++ [n]) (names.map .name)).1 = true ∧
          ∀ q, (∀ pre, pre ≠ [] → pre <+: n :: names → q ≠ cur ++ pre) →
            (mkdirs (fun _ => false) t' (cur ++ [n]) (names.map .name)).2 q = t q := by
      intro t' hsame
      have hfree (pre : List ν) (hne : pre ≠ []) (hpre : pre <+: names) :
          t' (cur ++ [n] ++ pre) = none ∨ t' (cur ++ [n] ++ pre) = some .dir := by
        rw [List.append_assoc, hsame _ (by simp [hne])]
        exact h ([n] ++ pre) (by simp) (by simpa using hpre)
      obtain ⟨hok, hout⟩ := ih hfree
      refine ⟨hok, fun q hq => ?_⟩
      rw [hout q fun pre hne hpre => ?_, hsame q (hq [n] (by simp) (by simp))]
      rw [List.append_assoc]
      exact hq ([n] ++ pre) (by simp) (by simpa using hpre)
    rw [List.map_cons, mkdirs, hresolve]
    rcases hn with hn | hn
    · simp only [hn, and_self, if_true]
      exact hrest _ fun q hq => by rw [Table.set_get, if_neg hq]
    · simp only [hn]
      exact hrest t fun _ _ => rfl

/-- A file moves to a place where a file may be. -/
theorem rename_free {t : Tree ν α} {source target : List (Component ν)} {a b : List ν} {content : α}
    (ha : place t source = some a) (hb : place t target = some b) (hne : a ≠ b)
    (hfile : t a = some (.file content)) (hvacant : Vacant t b) :
    rename false t source target = (true, (t.set a none).set b (some (.file content))) := by
  rcases hvacant with hnone | ⟨old, hold⟩
  · simp [rename, ha, hb, hne, hfile, hnone]
  · exact rename_over ha hb hne hfile (by simp) hold

theorem rename_dir {fault : Bool} {t : Tree ν α} {source target : List (Component ν)} {a b : List ν}
    (ha : place t source = some a) (hb : place t target = some b) (hdir : t a = some .dir)
    (hfree : t b = none) (hpre : ¬ a <+: b) :
    rename fault t source target = if fault then (false, t) else (true, move t a b) := by
  have hab : a ≠ b := by
    rintro rfl
    exact hpre List.prefix_rfl
  simp only [rename, ha, hb, if_neg hab, hdir, hfree, if_neg hpre]

/-- What a rename to a place with nothing at or below it takes away. -/
theorem rename_away {fault : Bool} {t t' : Tree ν α} {source target : List (Component ν)}
    {a b : List ν} (ha : place t source = some a) (hb : place t target = some b)
    (hne : a ≠ b) (hpre : ¬ b <+: a) (h : rename fault t source target = (true, t')) :
    t' a = none ∧ ∀ q, ¬ a <+: q → ¬ b <+: q → t' q = t q := by
  rcases rename_cases fault t source target with hf | ⟨a', b', node, ha', hb', hnode, hcases⟩
  · rw [hf] at h
    cases h
  · obtain rfl : a = a' := Option.some.inj (ha.symm.trans ha')
    obtain rfl : b = b' := Option.some.inj (hb.symm.trans hb')
    rcases hcases with ⟨hab, -⟩ | ⟨-, -, -, hr⟩ | ⟨-, -, -, hr⟩
    · exact absurd hab hne
    · obtain rfl : move t a b = t' := congrArg Prod.snd (hr.symm.trans h)
      refine ⟨?_, fun q hqa hqb => ?_⟩
      · rw [move_get, if_neg hpre, if_pos List.prefix_rfl]
      · rw [move_get, if_neg hqb, if_neg hqa]
    · obtain rfl : (t.set a none).set b (some node) = t' := congrArg Prod.snd (hr.symm.trans h)
      refine ⟨by simp [hne], fun q hqa hqb => ?_⟩
      have hqa' : q ≠ a := fun hq => hqa (hq ▸ List.prefix_rfl)
      have hqb' : q ≠ b := fun hq => hqb (hq ▸ List.prefix_rfl)
      simp [hqa', hqb']

theorem rename_beside {fault : Bool} {t : Tree ν α} {d : List ν} {n m : ν} {content : α}
    (hclear : Clear t d) (hfile : t (d ++ [n]) = some (.file content)) (hne : n ≠ m) :
    rename fault t ((d ++ [n]).map .name) ((d ++ [m]).map .name) = (false, t) ∨
      t (d ++ [m]) ≠ some .dir ∧
        rename fault t ((d ++ [n]).map .name) ((d ++ [m]).map .name) =
          (true, (t.set (d ++ [n]) none).set (d ++ [m]) (some (.file content))) := by
  rcases rename_cases fault t ((d ++ [n]).map .name) ((d ++ [m]).map .name) with
    hfail | ⟨a, b, node, ha, hb, hnode, hcases⟩
  · exact .inl hfail
  · obtain ⟨rfl, -⟩ := place_names hclear ha
    obtain ⟨rfl, -⟩ := place_names hclear hb
    obtain rfl : .file content = node := Option.some.inj (hfile.symm.trans hnode)
    rcases hcases with ⟨heq, -⟩ | ⟨hdir, -⟩ | ⟨-, -, htarget, hr⟩
    · exact absurd (List.append_cancel_left heq) (by simpa using hne)
    · cases hdir
    · exact .inr ⟨htarget, hr⟩

/-! ## What lies behind a removed entry -/

theorem walk_removed {t : Tree ν α} {d : List ν} {n : ν}
    {jump jump' : List ν → List (Component ν) → Option (List ν)} {rest : List (Component ν)}
    (hjump : ∀ cur path p, jump cur path = some d →
      jump' cur (path ++ .name n :: rest) = some p → rest = [] ∧ p = d ++ [n])
    {cur p : List ν} {path : List (Component ν)} (h : walk t jump cur path = some d)
    (hp : walk (t.set (d ++ [n]) none) jump' cur (path ++ .name n :: rest) = some p) :
    rest = [] ∧ p = d ++ [n] := by
  induction path generalizing cur with
  | nil =>
    obtain rfl : cur = d := by simpa [walk] using h
    simp only [List.nil_append, walk, Table.set_get, ↓reduceIte] at hp
    split_ifs at hp with hrest
    exact ⟨by simpa using hrest, (Option.some.inj hp).symm⟩
  | cons step path ih =>
    cases step with
    | up => exact ih h hp
    | name m =>
      simp only [List.cons_append, walk, Table.set_get] at h hp
      by_cases hm : cur ++ [m] = d ++ [n]
      · simp [hm] at hp
      · rw [if_neg hm] at hp
        cases hnode : t (cur ++ [m]) with
        | none => simp [hnode] at hp
        | some node =>
          cases node with
          | file content => simp [hnode] at hp
          | dir =>
            simp only [hnode] at h hp
            exact ih h hp
          | link absolute target =>
            simp only [hnode] at h hp
            exact hjump _ _ _ h (by simpa using hp)

theorem resolve_removed {t : Tree ν α} {d : List ν} {n : ν} {rest : List (Component ν)}
    {budget : ℕ} {cur p : List ν} {path : List (Component ν)}
    (h : resolve t budget cur path = some d)
    (hp : resolve (t.set (d ++ [n]) none) budget cur (path ++ .name n :: rest) = some p) :
    rest = [] ∧ p = d ++ [n] := by
  induction budget generalizing cur p path with
  | zero => exact walk_removed (fun _ _ _ hj => by cases hj) h hp
  | succ budget ih =>
    have hwalk : walk t (resolve t budget) cur path = some d := h
    refine walk_removed ?_ hwalk hp
    exact fun _ _ _ hj hj' => ih hj hj'

/-- Nothing stands where the path leads, and no longer path leads anywhere. -/
structure Gone (t : Tree ν α) (path : List (Component ν)) : Prop where
  at_end : ∀ p, locate t path = some p → t p = none
  below : ∀ rest, rest ≠ [] → locate t (path ++ rest) = none

theorem gone_of_removed {t : Tree ν α} {path : List (Component ν)} {p : List ν}
    (h : place t path = some p) : Gone (t.set p none) path := by
  obtain ⟨d, n, hlast, hd, -, rfl⟩ := place_eq_some h
  have hpath : path = path.dropLast ++ [.name n] :=
    (List.dropLast_append_getLast? _ hlast).symm
  refine ⟨fun q hq => ?_, fun rest hrest => ?_⟩
  · rw [hpath] at hq
    rw [(resolve_removed hd hq).2, Table.set_get, if_pos rfl]
  · cases hq : locate (t.set (d ++ [n]) none) (path ++ rest) with
    | none => rfl
    | some q =>
      rw [hpath, List.append_assoc] at hq
      exact absurd (resolve_removed hd hq).1 hrest

theorem Gone.absent {t : Tree ν α} {path : List (Component ν)} (h : Gone t path)
    (rest : List (Component ν)) : (locate t (path ++ rest)).bind t = none := by
  cases rest with
  | nil =>
    rw [List.append_nil]
    cases hp : locate t path with
    | none => rfl
    | some p => exact h.at_end p hp
  | cons step rest => rw [h.below _ (by simp), Option.bind_none]

theorem Gone.place_eq_none {t : Tree ν α} {path rest : List (Component ν)} (h : Gone t path)
    (hrest : rest ≠ []) : place t (path ++ rest) = none := by
  rw [Option.eq_none_iff_forall_ne_some]
  intro p hp
  obtain ⟨d, n, -, hd, hdir, rfl⟩ := place_eq_some hp
  rw [any_isDir_iff] at hdir
  rw [List.dropLast_append_of_ne_nil hrest] at hd
  by_cases hnil : rest.dropLast = []
  · rw [hnil, List.append_nil] at hd
    rw [h.at_end d hd] at hdir
    cases hdir
  · rw [h.below _ hnil] at hd
    cases hd

theorem Gone.write_eq {t : Tree ν α} {path rest : List (Component ν)} (h : Gone t path)
    (hrest : rest ≠ []) (fault : Option (Option α)) (content : α) :
    write fault t (path ++ rest) content = (false, t) := by
  simp [write, h.below rest hrest]

theorem Gone.rename_eq {t : Tree ν α} {path rest : List (Component ν)} (h : Gone t path)
    (hrest : rest ≠ []) (fault : Bool) (target : List (Component ν)) :
    rename fault t (path ++ rest) target = (false, t) := by
  simp [rename, h.place_eq_none hrest]

theorem Gone.remove_eq {t : Tree ν α} {path rest : List (Component ν)} (h : Gone t path)
    (hrest : rest ≠ []) (fault : Bool) : remove fault t (path ++ rest) = (false, t) := by
  simp [remove, h.place_eq_none hrest]

end Tree

end Atomis
