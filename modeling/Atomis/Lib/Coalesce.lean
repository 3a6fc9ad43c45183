import Mathlib.Data.List.Basic
import Mathlib.Tactic.Common

/-!
# Coalescing the writes of a log

A message writes one key, or is a barrier. `keepLast` leaves out every write whose
key is written again before the next barrier. `removeLast` is what a queue that is
coalesced as it grows takes out for a new write. A state that is rebuilt from what
is kept differs, at any point, only at the keys still to be written again.
-/

namespace Atomis.Coalesce
variable {μ κ σ ε : Type*} [DecidableEq κ] (key : μ → Option κ)

def rewritten (k : κ) : List μ → Bool
  | [] => false
  | m :: l =>
    match key m with
    | none => false
    | some j => j = k || rewritten k l

def keepLast : List μ → List μ
  | [] => []
  | m :: l => if (key m).any fun k => rewritten key k l then keepLast l else m :: keepLast l

def removeLast (k : κ) : List μ → List μ
  | [] => []
  | m :: l =>
    if key m = some k ∧ ∀ x ∈ l, key x ≠ none ∧ key x ≠ some k then l else m :: removeLast k l

variable {key} {k : κ} {l : List μ} {m : μ}

theorem rewritten_cons_of_barrier (hm : key m = none) : rewritten key k (m :: l) = false := by
  simp [rewritten, hm]

theorem rewritten_cons_of_write {j : κ} (hm : key m = some j) :
    rewritten key k (m :: l) = (decide (j = k) || rewritten key k l) := by
  simp [rewritten, hm]

theorem rewritten_iff : rewritten key k l = true ↔
    ∃ before m after, l = before ++ m :: after ∧ key m = some k ∧ ∀ x ∈ before, key x ≠ none := by
  induction l with
  | nil => simp [rewritten]
  | cons a l ih =>
    cases ha : key a with
    | none =>
      rw [rewritten_cons_of_barrier ha]
      refine ⟨nofun, ?_⟩
      rintro ⟨before, m, after, heq, hm, hbefore⟩
      cases before with
      | nil =>
        obtain ⟨rfl, -⟩ := List.cons.inj heq
        rw [ha] at hm
        cases hm
      | cons b before =>
        obtain ⟨rfl, -⟩ := List.cons.inj heq
        exact absurd ha (hbefore a List.mem_cons_self)
    | some j =>
      rw [rewritten_cons_of_write ha, Bool.or_eq_true, decide_eq_true_eq, ih]
      constructor
      · rintro (rfl | ⟨before, m, after, rfl, hm, hbefore⟩)
        · exact ⟨[], a, l, rfl, ha, by simp⟩
        · refine ⟨a :: before, m, after, rfl, hm, fun x hx => ?_⟩
          rcases List.mem_cons.mp hx with rfl | hx
          · simp [ha]
          · exact hbefore x hx
      · rintro ⟨before, m, after, heq, hm, hbefore⟩
        cases before with
        | nil =>
          obtain ⟨rfl, -⟩ := List.cons.inj heq
          exact .inl (Option.some.inj (ha.symm.trans hm))
        | cons b before =>
          obtain ⟨rfl, rfl⟩ := List.cons.inj heq
          exact .inr ⟨before, m, after, rfl, hm, fun x hx => hbefore x (List.mem_cons_of_mem _ hx)⟩

theorem keepLast_cons_of_barrier (hm : key m = none) :
    keepLast key (m :: l) = m :: keepLast key l := by
  simp [keepLast, hm]

theorem keepLast_cons_of_write (hm : key m = some k) :
    keepLast key (m :: l) =
      if rewritten key k l = true then keepLast key l else m :: keepLast key l := by
  simp [keepLast, hm]

theorem keepLast_sublist (l : List μ) : (keepLast key l).Sublist l := by
  induction l with
  | nil => exact List.Sublist.refl _
  | cons a l ih =>
    simp only [keepLast]
    split_ifs
    · exact ih.cons a
    · exact ih.cons_cons a

/-- Every barrier is kept, in its place. -/
theorem filter_keepLast (l : List μ) :
    (keepLast key l).filter (fun m => (key m).isNone) = l.filter fun m => (key m).isNone := by
  induction l with
  | nil => rfl
  | cons a l ih =>
    cases ha : key a with
    | none => simp [keepLast_cons_of_barrier ha, ha, ih]
    | some j =>
      rw [keepLast_cons_of_write ha]
      split_ifs
      · simp [ha, ih]
      · simp [ha, ih]

/-- What is left out is written again before the next barrier. -/
theorem rewritten_of_notMem {before after : List μ}
    (h : m ∉ keepLast key (before ++ m :: after)) :
    ∃ k, key m = some k ∧ rewritten key k after = true := by
  have hafter : m ∉ keepLast key (m :: after) := by
    induction before with
    | nil => exact h
    | cons a before ih =>
      refine ih fun hmem => h ?_
      simp only [List.cons_append, keepLast]
      split_ifs
      · exact hmem
      · exact List.mem_cons_of_mem _ hmem
  cases hm : key m with
  | none => simp [keepLast_cons_of_barrier hm] at hafter
  | some k =>
    refine ⟨k, rfl, ?_⟩
    rw [keepLast_cons_of_write hm] at hafter
    by_contra hnot
    rw [if_neg hnot] at hafter
    exact hafter List.mem_cons_self

theorem removeLast_eq_self (h : ∀ x ∈ l, key x ≠ some k) : removeLast key k l = l := by
  induction l with
  | nil => rfl
  | cons a l ih =>
    rw [removeLast, if_neg fun hk => h a List.mem_cons_self hk.1,
      ih fun x hx => h x (List.mem_cons_of_mem _ hx)]

theorem removeLast_sublist (k : κ) (l : List μ) : (removeLast key k l).Sublist l := by
  induction l with
  | nil => exact List.Sublist.refl _
  | cons m l ih =>
    rw [removeLast]
    split_ifs
    · exact List.sublist_cons_self m l
    · exact ih.cons_cons m

theorem removeLast_map {ν : Type*} {key' : ν → Option κ} {g : μ → ν} (hg : ∀ m, key' (g m) = key m)
    (k : κ) (l : List μ) : (removeLast key k l).map g = removeLast key' k (l.map g) := by
  induction l with
  | nil => rfl
  | cons m l ih =>
    simp only [removeLast, List.map_cons, List.forall_mem_map, hg]
    split_ifs
    · rfl
    · rw [List.map_cons, ih]

theorem rewritten_append_singleton : rewritten key k (l ++ [m]) = true ↔
    rewritten key k l = true ∨ (∀ x ∈ l, key x ≠ none) ∧ key m = some k := by
  induction l with
  | nil => cases hm : key m <;> simp [rewritten, hm]
  | cons a l ih =>
    cases ha : key a with
    | none => simp [rewritten, ha]
    | some j =>
      rw [List.cons_append, rewritten_cons_of_write ha, rewritten_cons_of_write ha,
        Bool.or_eq_true, Bool.or_eq_true, ih]
      simp [ha, or_assoc]

theorem keepLast_append_barrier (hm : key m = none) :
    keepLast key (l ++ [m]) = keepLast key l ++ [m] := by
  induction l with
  | nil => simp [keepLast, hm]
  | cons a l ih =>
    cases ha : key a with
    | none => rw [List.cons_append, keepLast_cons_of_barrier ha, keepLast_cons_of_barrier ha, ih,
        List.cons_append]
    | some j =>
      have hsame : rewritten key j (l ++ [m]) = true ↔ rewritten key j l = true := by
        rw [rewritten_append_singleton, hm]
        simp
      rw [List.cons_append, keepLast_cons_of_write ha, keepLast_cons_of_write ha, ih]
      simp only [hsame]
      split_ifs <;> rfl

/-- A queue that is coalesced as it grows holds what `keepLast` leaves. -/
theorem keepLast_append_write (hm : key m = some k) :
    keepLast key (l ++ [m]) = removeLast key k (keepLast key l) ++ [m] := by
  induction l with
  | nil => simp [keepLast, hm, rewritten, removeLast]
  | cons a l ih =>
    cases ha : key a with
    | none =>
      rw [List.cons_append, keepLast_cons_of_barrier ha, keepLast_cons_of_barrier ha, ih, removeLast,
        if_neg (by simp [ha]), List.cons_append]
    | some j =>
      rw [List.cons_append, keepLast_cons_of_write ha, keepLast_cons_of_write ha, ih]
      by_cases hj : rewritten key j l = true
      · rw [if_pos (rewritten_append_singleton.mpr (.inl hj)), if_pos hj]
      rw [if_neg hj]
      by_cases hlast : (∀ x ∈ l, key x ≠ none) ∧ k = j
      · obtain ⟨hwrites, rfl⟩ := hlast
        have hother : ∀ x ∈ l, key x ≠ some k := by
          intro x hx hxk
          obtain ⟨before, after, rfl⟩ := List.append_of_mem hx
          exact hj (rewritten_iff.mpr ⟨before, x, after, rfl, hxk,
            fun y hy => hwrites y (List.mem_append_left _ hy)⟩)
        have hsub : ∀ x ∈ keepLast key l, x ∈ l := fun x hx => (keepLast_sublist l).subset hx
        rw [if_pos (rewritten_append_singleton.mpr (.inr ⟨hwrites, hm⟩)), removeLast,
          if_pos ⟨ha, fun x hx => ⟨hwrites x (hsub x hx), hother x (hsub x hx)⟩⟩,
          removeLast_eq_self fun x hx => hother x (hsub x hx)]
      · have hnot : ¬ rewritten key j (l ++ [m]) = true := by
          rw [rewritten_append_singleton, hm]
          rintro (h | ⟨hwrites, heq⟩)
          · exact hj h
          · exact hlast ⟨hwrites, Option.some.inj heq⟩
        rw [if_neg hnot, removeLast, if_neg, List.cons_append]
        rintro ⟨heq, hall⟩
        refine hlast ⟨fun x hx hnone => ?_, (Option.some.inj (ha.symm.trans heq)).symm⟩
        have hkept : x ∈ (keepLast key l).filter fun m => (key m).isNone := by
          rw [filter_keepLast]
          exact List.mem_filter.mpr ⟨hx, by simp [hnone]⟩
        exact (hall x (List.mem_of_mem_filter hkept)).1 hnone

/-! ## Replaying what is kept -/

section Replay
variable (step : σ → μ → Except ε σ) (Same : (κ → Prop) → σ → σ → Prop) (Fits : σ → μ → Prop)
  (hmono : ∀ {P Q : κ → Prop} {s t : σ}, (∀ j, P j → Q j) → Same P s t → Same Q s t)
  (hdrop : ∀ {P : κ → Prop} {s t t' : σ} {m : μ} {k : κ}, key m = some k → Same P s t →
    step t m = .ok t' → Same (fun j => P j ∨ j = k) s t')
  (hkeep : ∀ {P : κ → Prop} {s t t' : σ} {m : μ} {k : κ}, key m = some k → Same P s t →
    step t m = .ok t' → Fits s m → ∃ s', step s m = .ok s' ∧ Same (fun j => P j ∧ j ≠ k) s' t')
  (hbarrier : ∀ {s t t' : σ} {m : μ}, key m = none → Same (fun _ => False) s t →
    step t m = .ok t' → ∃ s', step s m = .ok s' ∧ Same (fun _ => False) s' t')
include hmono hdrop hkeep hbarrier

/-- A log that replays and what is kept of it, with every write that is kept fitting
where it is replayed, end alike. -/
theorem replay_keepLast {l : List μ} {P : κ → Prop} {s t t' : σ} (hst : Same P s t)
    (hP : ∀ j, P j → rewritten key j l = true) (ht : l.foldlM step t = .ok t')
    (hfits : ∀ before m after, keepLast key l = before ++ m :: after → key m ≠ none →
      ∀ s₁, before.foldlM step s = .ok s₁ → Fits s₁ m) :
    ∃ s', (keepLast key l).foldlM step s = .ok s' ∧ Same (fun _ => False) s' t' := by
  induction l generalizing P s t with
  | nil =>
    obtain rfl : t = t' := Except.ok.inj ht
    exact ⟨s, rfl, hmono (fun j hj => by simpa [rewritten] using hP j hj) hst⟩
  | cons m l ih =>
    rw [List.foldlM_cons] at ht
    cases hstep : step t m with
    | error e =>
      rw [hstep] at ht
      cases ht
    | ok t₁ =>
      rw [hstep] at ht
      cases hm : key m with
      | none =>
        have hnone : ∀ j, ¬ P j := fun j hj => by
          have := hP j hj
          rw [rewritten_cons_of_barrier hm] at this
          cases this
        obtain ⟨s₁, hs₁, hsame⟩ := hbarrier hm (hmono hnone hst) hstep
        rw [keepLast_cons_of_barrier hm] at hfits ⊢
        have hrest : ∃ s', (keepLast key l).foldlM step s₁ = .ok s' ∧
            Same (fun _ => False) s' t' := by
          refine ih hsame (fun j hj => hj.elim) ht fun before x after heq hx s₂ hs₂ => ?_
          refine hfits (m :: before) x after (by rw [heq]; rfl) hx s₂ ?_
          rw [List.foldlM_cons, hs₁]
          exact hs₂
        obtain ⟨s', hs', hend⟩ := hrest
        exact ⟨s', by rw [List.foldlM_cons, hs₁]; exact hs', hend⟩
      | some k =>
        have hlater : ∀ j, P j → j ≠ k → rewritten key j l = true := by
          intro j hj hne
          have := hP j hj
          rw [rewritten_cons_of_write hm, Bool.or_eq_true, decide_eq_true_eq] at this
          exact this.resolve_left (Ne.symm hne)
        rw [keepLast_cons_of_write hm] at hfits ⊢
        by_cases hagain : rewritten key k l = true
        · rw [if_pos hagain] at hfits ⊢
          refine ih (hdrop hm hst hstep) (fun j hj => ?_) ht hfits
          by_cases hjk : j = k
          · rw [hjk]
            exact hagain
          · exact hlater j (hj.resolve_right hjk) hjk
        · rw [if_neg hagain] at hfits ⊢
          obtain ⟨s₁, hs₁, hsame⟩ :=
            hkeep hm hst hstep (hfits [] m _ rfl (by simp [hm]) s rfl)
          have hrest : ∃ s', (keepLast key l).foldlM step s₁ = .ok s' ∧
              Same (fun _ => False) s' t' := by
            refine ih hsame (fun j hj => hlater j hj.1 hj.2) ht fun before x after heq hx s₂ hs₂ => ?_
            refine hfits (m :: before) x after (by rw [heq]; rfl) hx s₂ ?_
            rw [List.foldlM_cons, hs₁]
            exact hs₂
          obtain ⟨s', hs', hend⟩ := hrest
          exact ⟨s', by rw [List.foldlM_cons, hs₁]; exact hs', hend⟩

end Replay

end Atomis.Coalesce
