import Mathlib.Data.List.DropRight
import Mathlib.Data.List.Induction
import Mathlib.Tactic.Common

/-!
# Names below one another

A name is below another if that one and a separator stand in front of it. The names above one name
are a chain, and the last of them is its parent.
-/

namespace Atomis.Ancestry

variable {α : Type} {sep : α} {name above other : List α}

def Below (sep : α) (above name : List α) : Prop := above ++ [sep] <+: name

theorem Below.sep_mem (h : Below sep above name) : sep ∈ name :=
  h.subset (List.mem_append_right _ List.mem_cons_self)

theorem Below.length_lt (h : Below sep above name) : above.length < name.length := by
  have := h.length_le
  rw [List.length_append, List.length_singleton] at this
  exact this

theorem Below.irrefl : ¬Below sep name name := fun h => absurd h.length_lt (Nat.lt_irrefl _)

theorem Below.asymm (h : Below sep above name) : ¬Below sep name above :=
  fun h' => absurd (h.length_lt.trans h'.length_lt) (Nat.lt_irrefl _)

theorem Below.trans (h : Below sep other above) (h' : Below sep above name) :
    Below sep other name :=
  List.IsPrefix.trans h (List.IsPrefix.trans (List.prefix_append above [sep]) h')

/-- Two names above one name are above one another. -/
theorem Below.trichotomy (h : Below sep above name) (h' : Below sep other name) :
    above = other ∨ Below sep above other ∨ Below sep other above := by
  rcases List.prefix_or_prefix_of_prefix h h' with hprefix | hprefix
  · rcases List.prefix_concat_iff.mp hprefix with hsame | hbelow
    · exact Or.inl (List.append_inj_left' hsame rfl)
    · exact Or.inr (Or.inl hbelow)
  · rcases List.prefix_concat_iff.mp hprefix with hsame | hbelow
    · exact Or.inl (List.append_inj_left' hsame rfl).symm
    · exact Or.inr (Or.inr hbelow)

/-! ## Parents -/

variable [DecidableEq α]

/-- What is in front of the last separator, nothing where there is none. -/
def parent (sep : α) (name : List α) : List α := (name.rdropWhile (· ≠ sep)).dropLast

theorem Below.count_lt (h : Below sep above name) : above.count sep < name.count sep := by
  obtain ⟨rest, rfl⟩ := h
  rw [List.count_append, List.count_append, List.count_singleton_self]
  omega

theorem exists_last (h : sep ∈ name) : ∃ last, name = parent sep name ++ sep :: last ∧ sep ∉ last := by
  induction name using List.reverseRecOn with
  | nil => cases h
  | append_singleton name a ih =>
    by_cases ha : a = sep
    · subst ha
      refine ⟨[], ?_, List.not_mem_nil⟩
      rw [parent, List.rdropWhile_concat_neg _ _ _ (by simp), List.dropLast_concat]
    · have hmem : sep ∈ name := by simpa [Ne.symm ha] using h
      obtain ⟨last, hname, hlast⟩ := ih hmem
      refine ⟨last ++ [a], ?_, by simpa [Ne.symm ha] using hlast⟩
      rw [parent, List.rdropWhile_concat_pos _ _ _ (by simp [ha]), ← parent]
      conv_lhs => rw [hname]
      simp

theorem parent_of_notMem (h : sep ∉ name) : parent sep name = [] := by
  have hdrop : name.rdropWhile (· ≠ sep) = [] :=
    List.rdropWhile_eq_nil_iff.mpr fun a ha => by simpa using fun heq : a = sep => h (heq ▸ ha)
  rw [parent, hdrop]
  rfl

theorem below_parent (h : sep ∈ name) : Below sep (parent sep name) name := by
  obtain ⟨last, hname, -⟩ := exists_last h
  refine ⟨last, ?_⟩
  conv_rhs => rw [hname]
  rw [List.append_assoc, List.singleton_append]

theorem count_parent (h : sep ∈ name) : name.count sep = (parent sep name).count sep + 1 := by
  obtain ⟨last, hname, hlast⟩ := exists_last h
  conv_lhs => rw [hname]
  rw [List.count_append, List.count_cons_self, List.count_eq_zero_of_not_mem hlast]

/-- The names above a name are its parent and those above that. -/
theorem below_iff (h : sep ∈ name) :
    Below sep above name ↔ above = parent sep name ∨ Below sep above (parent sep name) := by
  have hparent := below_parent h
  constructor
  · intro habove
    rcases habove.trichotomy hparent with hsame | hbelow | hbelow
    · exact Or.inl hsame
    · exact Or.inr hbelow
    · have hlow := hbelow.count_lt
      have hhigh := habove.count_lt
      have := count_parent h
      omega
  · rintro (rfl | hbelow)
    · exact hparent
    · exact hbelow.trans hparent

end Atomis.Ancestry
