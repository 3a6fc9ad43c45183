import Mathlib.Data.Int.Basic
import Mathlib.Data.List.Basic

/-!
# Brackets

A word is balanced if it closes what it opens and nothing else. A scan with a counter finds the
first closing bracket whose partner it has not seen; read from behind with the two kinds swapped,
it finds the last opening bracket that is still open.
-/

namespace Atomis.Brackets

variable {α : Type*} (opening closing : α → Bool)

/-! ## Words -/

/-- How many brackets a word opens more than it closes. -/
def height : List α → ℤ
  | [] => 0
  | a :: word => (if opening a then 1 else 0) - (if closing a then 1 else 0) + height word

structure Balanced (word : List α) : Prop where
  level : height opening closing word = 0
  nonneg : ∀ front back, front ++ back = word → 0 ≤ height opening closing front

/-- The first of `down` that none of `up` before it pairs with, or how many of these are left. -/
def scan (up down : α → Bool) (depth : ℕ) : List α → α ⊕ ℕ
  | [] => .inr depth
  | a :: word =>
    if up a then scan up down (depth + 1) word
    else if down a then
      if depth = 0 then .inl a else scan up down (depth - 1) word
    else scan up down depth word

section
variable {opening closing} {up down : α → Bool} {a : α} {word left right : List α} {depth : ℕ}

theorem height_append : height opening closing (left ++ right) =
    height opening closing left + height opening closing right := by
  induction left with
  | nil => simp [height]
  | cons a left ih =>
    rw [List.cons_append, height, height, ih]
    omega

theorem height_reverse : height opening closing word.reverse = height opening closing word := by
  induction word with
  | nil => rfl
  | cons a word ih =>
    rw [List.reverse_cons, height_append, ih]
    simp only [height]
    omega

theorem height_swap (word : List α) :
    height closing opening word = -height opening closing word := by
  induction word with
  | nil => rfl
  | cons a word ih =>
    rw [height, height, ih]
    omega

theorem height_opening (ha : opening a = true) (hno : closing a = false) :
    height opening closing (a :: word) = 1 + height opening closing word := by
  simp [height, ha, hno]

theorem height_closing (ha : closing a = true) (hno : opening a = false) :
    height opening closing (a :: word) = -1 + height opening closing word := by
  simp [height, ha, hno]

theorem height_map {β : Type*} (f : β → α) (word : List β) :
    height opening closing (word.map f) =
      height (fun b => opening (f b)) (fun b => closing (f b)) word := by
  induction word with
  | nil => rfl
  | cons b word ih => rw [List.map_cons, height, height, ih]

theorem balanced_map {β : Type*} (f : β → α) (word : List β) :
    Balanced opening closing (word.map f) ↔
      Balanced (fun b => opening (f b)) (fun b => closing (f b)) word := by
  constructor
  · intro h
    refine ⟨by rw [← height_map, h.level], ?_⟩
    intro front back hsplit
    rw [← height_map]
    exact h.nonneg _ (back.map f) (by rw [← List.map_append, hsplit])
  · intro h
    refine ⟨by rw [height_map, h.level], ?_⟩
    intro front back hsplit
    obtain ⟨left, right, rfl, rfl, -⟩ := List.append_eq_map_iff.mp hsplit
    rw [height_map]
    exact h.nonneg left right rfl

theorem Balanced.append (hleft : Balanced opening closing left)
    (hright : Balanced opening closing right) : Balanced opening closing (left ++ right) where
  level := by rw [height_append, hleft.level, hright.level, Int.zero_add]
  nonneg := by
    intro front back hsplit
    rcases List.append_eq_append_iff.mp hsplit with ⟨rest, hrest, -⟩ | ⟨rest, rfl, hrest⟩
    · exact hleft.nonneg front rest hrest.symm
    · have := hright.nonneg rest back hrest.symm
      rw [height_append, hleft.level]
      omega

/-! ## The scan -/

theorem scan_append : scan up down depth (left ++ right) =
    match scan up down depth left with
    | .inl a => .inl a
    | .inr depth => scan up down depth right := by
  induction left generalizing depth with
  | nil => rfl
  | cons a left ih =>
    rw [List.cons_append, scan, scan]
    split_ifs
    · exact ih
    · rfl
    · exact ih
    · exact ih

/-- An element that is not counted might as well be absent. -/
theorem scan_filter {keep : α → Bool} (hno : ∀ a, up a = true → down a = false) (word : List α) :
    scan (fun a => up a && keep a) down depth word =
      scan up down depth (word.filter fun a => !(up a && !keep a)) := by
  induction word generalizing depth with
  | nil => rfl
  | cons a word ih =>
    cases hup : up a with
    | false =>
      rw [List.filter_cons_of_pos (by simp [hup]), scan, scan, ih, ih, ih]
      simp only [hup, Bool.false_and]
    | true =>
      cases hkeep : keep a with
      | true =>
        rw [List.filter_cons_of_pos (by simp [hkeep]), scan, scan, ih, ih, ih]
        simp only [hup, hkeep, Bool.true_and]
      | false =>
        rw [List.filter_cons_of_neg (by simp [hup, hkeep]), scan, hno a hup]
        simp only [hkeep, Bool.and_false, Bool.false_eq_true, if_false]
        exact ih

/-- What the counter is worth behind one more element. -/
theorem height_cons (hno : ∀ a, up a = true → down a = false) (a : α) (word : List α) :
    height up down (a :: word) =
      (if up a then 1 else if down a then -1 else 0) + height up down word := by
  rw [height]
  split_ifs with hup hdown
  · exact absurd hdown (by rw [hno a hup]; decide)
  · omega
  · omega
  · omega

theorem scan_word (hno : ∀ a, up a = true → down a = false)
    (h : ∀ front back, front ++ back = word → 0 ≤ depth + height up down front) :
    scan up down depth word = .inr (depth + height up down word).toNat := by
  induction word generalizing depth with
  | nil => simp [scan, height]
  | cons a word ih =>
    have hrest (front back : List α) (hsplit : front ++ back = word) :
        0 ≤ depth + height up down (a :: front) :=
      h (a :: front) back (by rw [List.cons_append, hsplit])
    have hfirst := hrest [] word rfl
    rw [height_cons hno] at hfirst ⊢
    simp only [height_cons hno] at hrest
    rw [scan]
    split_ifs at hfirst hrest ⊢ with hup hdown hdepth
    · rw [ih]
      · push_cast
        rw [Int.add_assoc]
      · intro front back hsplit
        have := hrest front back hsplit
        omega
    · simp only [height] at hfirst
      omega
    · rw [ih]
      · congr 2
        omega
      · intro front back hsplit
        have := hrest front back hsplit
        omega
    · rw [ih]
      · rw [Int.zero_add]
      · intro front back hsplit
        have := hrest front back hsplit
        omega

theorem scan_balanced (hno : ∀ a, up a = true → down a = false) (h : Balanced up down word) :
    scan up down depth word = .inr depth := by
  rw [scan_word hno, h.level]
  · simp
  · intro front back hsplit
    have := h.nonneg front back hsplit
    omega

/-- Where the scan finds nothing, nothing was closed that had not been opened. -/
theorem scan_inr (hno : ∀ a, up a = true → down a = false) {rest : ℕ}
    (h : scan up down depth word = .inr rest) :
    ∀ front back, front ++ back = word → 0 ≤ depth + height up down front := by
  induction word generalizing depth with
  | nil =>
    intro front back hsplit
    rw [(List.append_eq_nil_iff.mp hsplit).1]
    simp [height]
  | cons a word ih =>
    intro front back hsplit
    cases front with
    | nil => simp [height]
    | cons b front =>
      obtain ⟨rfl, hword⟩ := List.cons.inj hsplit
      rw [height_cons hno]
      rw [scan] at h
      split_ifs at h ⊢ with hup hdown hdepth
      all_goals
        have := ih h front back hword
        omega

theorem scan_inl (hno : ∀ a, up a = true → down a = false)
    (h : scan up down depth word = .inl a) :
    ∃ front back, word = front ++ a :: back ∧ down a = true ∧ depth + height up down front = 0 ∧
      ∀ left right, left ++ right = front → 0 ≤ depth + height up down left := by
  induction word generalizing depth with
  | nil => cases h
  | cons b word ih =>
    have hstep {next : ℕ} (hnext : (next : ℤ) = depth + height up down [b])
        (hscan : scan up down next word = .inl a) :
        ∃ front back, b :: word = front ++ a :: back ∧ down a = true ∧
          depth + height up down front = 0 ∧
            ∀ left right, left ++ right = front → 0 ≤ depth + height up down left := by
      obtain ⟨front, back, rfl, hdown, hlevel, hnonneg⟩ := ih hscan
      have hcons (left : List α) :
          depth + height up down (b :: left) = next + height up down left := by
        rw [hnext, height_cons hno, height_cons hno b []]
        simp only [height]
        omega
      refine ⟨b :: front, back, rfl, hdown, by rw [hcons, hlevel], ?_⟩
      intro left right hsplit
      cases left with
      | nil => simp [height]
      | cons c left =>
        obtain ⟨rfl, hfront⟩ := List.cons.inj hsplit
        rw [hcons]
        exact hnonneg left right hfront
    rw [scan] at h
    rw [height_cons hno b []] at hstep
    split_ifs at h hstep with hup hdown hdepth
    · exact hstep (by simp [height]) h
    · cases h
      refine ⟨[], word, rfl, hdown, by simp [height, hdepth], ?_⟩
      intro left right hsplit
      rw [(List.append_eq_nil_iff.mp hsplit).1]
      simp [height]
    · exact hstep (by simp only [height]; omega) h
    · exact hstep (by simp [height]) h

/-- A word is balanced if the scan finds nothing and nothing is left. -/
theorem scan_eq_zero_iff (hno : ∀ a, up a = true → down a = false) :
    scan up down 0 word = .inr 0 ↔ Balanced up down word := by
  refine ⟨fun h => ?_, scan_balanced hno⟩
  have hnonneg := scan_inr hno h
  have hword := hnonneg word [] (List.append_nil _)
  rw [scan_word hno hnonneg] at h
  have hlevel := Sum.inr.inj h
  exact ⟨by omega, fun front back hsplit => by simpa using hnonneg front back hsplit⟩

/-! ## Pairs across a cut -/

variable {o c o' c' : α} {before inside after before' inside' after' : List α}

/-- Read from behind, a word swaps the two kinds. -/
theorem scan_reverse_inl (hno : ∀ a, opening a = true → closing a = false)
    (h : scan closing opening 0 word.reverse = .inl o) :
    ∃ before inside, word = before ++ o :: inside ∧ opening o = true ∧
      Balanced opening closing inside := by
  have hswap (a : α) (hclosing : closing a = true) : opening a = false := by
    cases hopening : opening a with
    | false => rfl
    | true => exact absurd hclosing (by rw [hno a hopening]; decide)
  obtain ⟨front, back, hword, hopening, hlevel, hnonneg⟩ := scan_inl hswap h
  rw [height_swap] at hlevel
  have hlevel : height opening closing front.reverse = 0 := by
    rw [height_reverse]
    omega
  refine ⟨back.reverse, front.reverse, ?_, hopening, hlevel, ?_⟩
  · rw [← List.reverse_reverse word, hword]
    simp
  · intro left right hsplit
    have hright := hnonneg right.reverse left.reverse (by
      rw [← List.reverse_append, hsplit, List.reverse_reverse])
    rw [height_swap, height_reverse] at hright
    rw [← hsplit, height_append] at hlevel
    omega

/-- If the scan from behind finds nothing, no cut leaves more open than closed behind it. -/
theorem scan_reverse_inr (hno : ∀ a, opening a = true → closing a = false) {rest : ℕ}
    (h : scan closing opening 0 word.reverse = .inr rest) (hsplit : left ++ right = word) :
    height opening closing right ≤ 0 := by
  have hswap (a : α) (hclosing : closing a = true) : opening a = false := by
    cases hopening : opening a with
    | false => rfl
    | true => exact absurd hclosing (by rw [hno a hopening]; decide)
  have := scan_inr hswap h right.reverse left.reverse (by rw [← List.reverse_append, hsplit])
  rw [height_swap, height_reverse] at this
  omega

theorem Balanced.reverse (h : Balanced opening closing word) :
    Balanced closing opening word.reverse where
  level := by rw [height_swap, height_reverse, h.level, Int.neg_zero]
  nonneg := by
    intro front back hsplit
    have hword : back.reverse ++ front.reverse = word := by
      rw [← List.reverse_append, hsplit, List.reverse_reverse]
    have hlevel := h.level
    have hback := h.nonneg _ _ hword
    rw [← hword, height_append] at hlevel
    rw [height_swap, ← height_reverse]
    omega

/-- Where nothing is left open in front of a cut, what is there is balanced itself. -/
theorem balanced_front (hno : ∀ a, opening a = true → closing a = false) {rest : ℕ}
    (h : Balanced opening closing (left ++ right))
    (hscan : scan closing opening 0 left.reverse = .inr rest) : Balanced opening closing left where
  level := by
    have hnonneg := h.nonneg left right rfl
    have hnonpos := scan_reverse_inr hno hscan (List.nil_append left)
    omega
  nonneg := by
    intro front back hsplit
    exact h.nonneg front (back ++ right) (by rw [← List.append_assoc, hsplit])

/-- A pair across the cut is open in front of it. -/
theorem scan_reverse_isLeft (hno : ∀ a, opening a = true → closing a = false)
    (hword : word = before ++ o :: inside) (ho : opening o = true)
    (h : Balanced opening closing (inside ++ after)) :
    ∃ found, scan closing opening 0 word.reverse = .inl found := by
  cases hscan : scan closing opening 0 word.reverse with
  | inl found => exact ⟨found, rfl⟩
  | inr rest =>
    have hback := scan_reverse_inr hno hscan hword.symm
    have hinside := h.nonneg inside after rfl
    rw [height_opening ho (hno o ho)] at hback
    omega

/-- In a balanced word, what is open in front of a cut is closed behind it. -/
theorem scan_close (hno : ∀ a, opening a = true → closing a = false)
    (hword : Balanced opening closing (before ++ o :: inside ++ after)) (ho : opening o = true)
    (h : Balanced opening closing inside) :
    ∃ c inside' after', after = inside' ++ c :: after' ∧ closing c = true ∧
      Balanced opening closing (inside ++ inside') ∧
        scan opening closing 0 (inside ++ after) = .inl c := by
  cases hscan : scan opening closing 0 after with
  | inr rest =>
    have hafter := scan_inr hno hscan after [] (List.append_nil _)
    have hbefore := hword.nonneg before (o :: inside ++ after) (by simp)
    have hlevel := hword.level
    rw [height_append, height_append, height_opening ho (hno o ho), h.level] at hlevel
    omega
  | inl c =>
    obtain ⟨inside', after', rfl, hc, hlevel, hnonneg⟩ := scan_inl hno hscan
    refine ⟨c, inside', after', rfl, hc, ?_, ?_⟩
    · refine h.append ⟨by simpa using hlevel, ?_⟩
      intro left right hsplit
      simpa using hnonneg left right hsplit
    · rw [scan_append, scan_balanced hno h]
      exact hscan

/-- No pair across the cut opens behind the innermost one. -/
theorem inner_before (hno : ∀ a, opening a = true → closing a = false)
    (h : Balanced opening closing inside)
    (hsplit : before ++ o :: inside = before' ++ o' :: inside')
    (ho : opening o' = true) (h' : Balanced opening closing (inside' ++ after')) :
    o' = o ∨ o' ∈ before := by
  rcases List.append_eq_append_iff.mp hsplit with ⟨rest, -, hrest⟩ | ⟨rest, rfl, hrest⟩
  · cases rest with
    | nil => exact .inl (List.cons.inj hrest).1.symm
    | cons a rest =>
      have hinside : inside = rest ++ o' :: inside' := (List.cons.inj hrest).2
      have hlevel := h.level
      have hrest := h.nonneg rest _ hinside.symm
      have hnonneg := h'.nonneg inside' after' rfl
      rw [hinside, height_append, height_opening ho (hno o' ho)] at hlevel
      omega
  · cases rest with
    | nil => exact .inl (List.cons.inj hrest).1
    | cons a rest =>
      obtain ⟨rfl, -⟩ := List.cons.inj hrest
      exact .inr (by simp)

/-- No pair across the cut closes before the innermost one. -/
theorem inner_after (hno : ∀ a, opening a = true → closing a = false)
    (h : Balanced opening closing (before ++ inside)) (hbefore : Balanced opening closing before)
    (hsplit : inside ++ c :: after = inside' ++ c' :: after') (hc : closing c' = true)
    (h' : Balanced opening closing (before' ++ inside')) : c' = c ∨ c' ∈ after := by
  rcases List.append_eq_append_iff.mp hsplit with ⟨rest, -, hrest⟩ | ⟨rest, rfl, hrest⟩
  · cases rest with
    | nil => exact .inl (List.cons.inj hrest).1.symm
    | cons a rest =>
      have hafter : after = rest ++ c' :: after' := (List.cons.inj hrest).2
      exact .inr (by simp [hafter])
  · cases rest with
    | nil => exact .inl (List.cons.inj hrest).1
    | cons a rest =>
      obtain ⟨rfl, -⟩ := List.cons.inj hrest
      have hopening : opening c' = false := by
        cases hopening : opening c' with
        | false => rfl
        | true => exact absurd hc (by rw [hno c' hopening]; decide)
      have hclosed := h.nonneg (before ++ (inside' ++ [c'])) rest (by simp)
      have hlevel := h'.level
      have hnonneg := h'.nonneg before' inside' rfl
      rw [height_append, hbefore.level, height_append, height_closing hc hopening] at hclosed
      rw [height_append] at hlevel
      simp only [height] at hclosed
      omega

end

end Atomis.Brackets
