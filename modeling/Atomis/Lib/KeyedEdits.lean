import Atomis.Lib.Coalesce

/-!
# Edits of a keyed store

Two copies of a store of values by their keys, one of which has missed some
overwrites. `AgreeOff stale` says that they hold the same keys and differ at most
in the values at the stale ones. Every edit carries the agreement along, and an
overwrite makes its key fresh again.
-/

namespace Atomis
open Coalesce

/-- `overwrite` only changes the value of a key that is there; `keep` does nothing. -/
inductive KeyedEdit (κ υ : Type*)
  | overwrite (k : κ) (v : υ)
  | insert (k : κ) (v : υ)
  | rename (k l : κ)
  | erase (k : κ)
  | keep

namespace KeyedEdit
variable {κ υ : Type*}

structure AgreeOff (stale : List κ) (f g : κ → Option υ) : Prop where
  value : ∀ k ∉ stale, f k = g k
  keys : ∀ k, f k = none ↔ g k = none

variable {stale : List κ} {f g : κ → Option υ}

theorem AgreeOff.refl (stale : List κ) (f : κ → Option υ) : AgreeOff stale f f :=
  ⟨fun _ _ => rfl, fun _ => Iff.rfl⟩

theorem AgreeOff.mono (h : AgreeOff stale f g) {stale' : List κ} (hsub : ∀ k ∈ stale, k ∈ stale') :
    AgreeOff stale' f g := ⟨fun k hk => h.value k fun hmem => hk (hsub k hmem), h.keys⟩

theorem AgreeOff.trans {h : κ → Option υ} (hfg : AgreeOff stale f g) (hgh : AgreeOff stale g h) :
    AgreeOff stale f h :=
  ⟨fun k hk => (hfg.value k hk).trans (hgh.value k hk), fun k => (hfg.keys k).trans (hgh.keys k)⟩

theorem agreeOff_nil_iff : AgreeOff [] f g ↔ f = g :=
  ⟨fun h => funext fun k => h.value k (List.not_mem_nil), fun h => h ▸ .refl [] f⟩

variable [DecidableEq κ]

def apply (f : κ → Option υ) : KeyedEdit κ υ → κ → Option υ
  | overwrite k v, x => if x = k then (f k).map fun _ => v else f x
  | insert k v, x => if x = k then some v else f x
  | rename k l, x => if x = l then f k else if x = k then none else f x
  | erase k, x => if x = k then none else f x
  | keep, x => f x

def applyAll (edits : List (KeyedEdit κ υ)) (f : κ → Option υ) : κ → Option υ :=
  edits.foldl apply f

def key : KeyedEdit κ υ → Option κ
  | overwrite k _ => some k
  | _ => none

/-- The keys that are stale after an edit, from those stale before it. -/
def staleAfter (stale : List κ) : KeyedEdit κ υ → List κ
  | overwrite k _ | insert k _ | erase k => stale.filter (· ≠ k)
  | rename k l =>
    if k ∈ stale then l :: stale.filter (fun x => x ≠ k ∧ x ≠ l)
    else stale.filter fun x => x ≠ k ∧ x ≠ l
  | keep => stale

variable {edits : List (KeyedEdit κ υ)} {k : κ} {v : υ}

theorem agreeOff_overwrite (f : κ → Option υ) (k : κ) (v : υ) :
    AgreeOff [k] ((overwrite k v).apply f) f := by
  refine ⟨fun x hx => if_neg (by simpa using hx), fun x => ?_⟩
  by_cases hx : x = k
  · subst hx
    simp [apply]
  · simp [apply, hx]

/-- One edit of both copies. -/
theorem AgreeOff.apply (h : AgreeOff stale f g) (e : KeyedEdit κ υ) :
    AgreeOff (e.staleAfter stale) (e.apply f) (e.apply g) := by
  cases e with
  | overwrite k v =>
    refine ⟨fun x hx => ?_, fun x => ?_⟩
    · by_cases hxk : x = k
      · subst hxk
        have hkeys := h.keys x
        cases hf : f x <;> cases hg : g x <;> simp_all [KeyedEdit.apply]
      · have hx' : x ∉ stale := fun hmem => hx (by simp [staleAfter, hmem, hxk])
        simpa [KeyedEdit.apply, hxk] using h.value x hx'
    · by_cases hxk : x = k
      · subst hxk
        simpa [KeyedEdit.apply] using h.keys x
      · simpa [KeyedEdit.apply, hxk] using h.keys x
  | insert k v =>
    refine ⟨fun x hx => ?_, fun x => ?_⟩
    · by_cases hxk : x = k
      · simp [KeyedEdit.apply, hxk]
      · have hx' : x ∉ stale := fun hmem => hx (by simp [staleAfter, hmem, hxk])
        simpa [KeyedEdit.apply, hxk] using h.value x hx'
    · by_cases hxk : x = k
      · simp [KeyedEdit.apply, hxk]
      · simpa [KeyedEdit.apply, hxk] using h.keys x
  | erase k =>
    refine ⟨fun x hx => ?_, fun x => ?_⟩
    · by_cases hxk : x = k
      · simp [KeyedEdit.apply, hxk]
      · have hx' : x ∉ stale := fun hmem => hx (by simp [staleAfter, hmem, hxk])
        simpa [KeyedEdit.apply, hxk] using h.value x hx'
    · by_cases hxk : x = k
      · simp [KeyedEdit.apply, hxk]
      · simpa [KeyedEdit.apply, hxk] using h.keys x
  | rename k l =>
    refine ⟨fun x hx => ?_, fun x => ?_⟩
    · by_cases hxl : x = l
      · have hk : k ∉ stale := fun hmem => hx (by simp [staleAfter, hmem, hxl])
        simpa [KeyedEdit.apply, hxl] using h.value k hk
      · by_cases hxk : x = k
        · have hkl : k ≠ l := hxk ▸ hxl
          simp [KeyedEdit.apply, hxk, hkl]
        · have hx' : x ∉ stale := fun hmem => hx (by
            simp only [staleAfter]
            split_ifs <;> simp [hmem, hxk, hxl])
          simpa [KeyedEdit.apply, hxl, hxk] using h.value x hx'
    · by_cases hxl : x = l
      · simpa [KeyedEdit.apply, hxl] using h.keys k
      · by_cases hxk : x = k
        · have hkl : k ≠ l := hxk ▸ hxl
          simp [KeyedEdit.apply, hxk, hkl]
        · simpa [KeyedEdit.apply, hxl, hxk] using h.keys x
  | keep => exact h

@[simp] theorem staleAfter_nil (e : KeyedEdit κ υ) : e.staleAfter [] = [] := by
  cases e <;> rfl

theorem applyAll_cons (e : KeyedEdit κ υ) (edits : List (KeyedEdit κ υ)) (f : κ → Option υ) :
    applyAll (e :: edits) f = applyAll edits (e.apply f) := rfl

theorem applyAll_append (first rest : List (KeyedEdit κ υ)) (f : κ → Option υ) :
    applyAll (first ++ rest) f = applyAll rest (applyAll first f) := List.foldl_append

/-- What is missed when overwrites are lost. -/
theorem agreeOff_of_overwrites (h : ∀ e ∈ edits, e = keep ∨ ∃ k ∈ stale, ∃ v, e = overwrite k v)
    (f : κ → Option υ) : AgreeOff stale (KeyedEdit.applyAll edits f) f := by
  induction edits generalizing f with
  | nil => exact .refl stale f
  | cons e edits ih =>
    refine (ih (fun e he => h e (List.mem_cons_of_mem _ he)) _).trans ?_
    rcases h e List.mem_cons_self with rfl | ⟨k, hk, v, rfl⟩
    · exact .refl stale f
    · exact (agreeOff_overwrite f k v).mono fun x hx => by
        rw [List.mem_singleton.mp hx]
        exact hk

theorem staleAfter_overwrite_subset (hsub : ∀ x ∈ stale, x = k) (e : KeyedEdit κ υ)
    (he : key e ≠ none) : ∀ x ∈ e.staleAfter stale, x = k := by
  cases e with
  | overwrite j w => exact fun x hx => hsub x (List.mem_filter.mp hx).1
  | _ => exact absurd rfl he

/-- An overwrite makes up for what overwrites before it did to its key. -/
theorem applyAll_overwritten (h : AgreeOff stale f g) (hsub : ∀ x ∈ stale, x = k)
    (hedits : ∀ e ∈ edits, key e ≠ none) :
    applyAll (edits ++ [overwrite k v]) f = applyAll (edits ++ [overwrite k v]) g := by
  induction edits generalizing stale f g with
  | nil =>
    refine agreeOff_nil_iff.mp ((h.apply (overwrite k v)).mono fun x hx => ?_)
    obtain ⟨hx, hne⟩ := List.mem_filter.mp hx
    simp [hsub x hx] at hne
  | cons e edits ih =>
    exact ih (h.apply e)
      (staleAfter_overwrite_subset hsub e (hedits e List.mem_cons_self))
      fun e he => hedits e (List.mem_cons_of_mem _ he)

/-- Coalescing an overwrite into the queue leaves the same values. -/
theorem applyAll_removeLast (edits : List (KeyedEdit κ υ)) (f : κ → Option υ) (k : κ) (v : υ) :
    applyAll (removeLast key k edits ++ [overwrite k v]) f =
      applyAll (edits ++ [overwrite k v]) f := by
  induction edits generalizing f with
  | nil => rfl
  | cons e edits ih =>
    rw [removeLast]
    split_ifs with hlast
    · obtain ⟨hkey, hrest⟩ := hlast
      cases e with
      | overwrite j w =>
        obtain rfl := Option.some.inj hkey
        refine (applyAll_overwritten (agreeOff_overwrite f j w) ?_ ?_).symm
        · simp
        · exact fun e he => (hrest e he).1
      | _ => cases hkey
    · exact ih _

end KeyedEdit

end Atomis
