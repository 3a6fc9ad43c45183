import Atomis.Surround

/-!
# Wrapping and deleting

A wrapped range has its own brackets around it, and these are found from every place that no pair
inside it is around. Deleting them gives the text back.
-/

namespace Atomis.Surround

/-! ## What is found in a wrapped range -/

section
variable {cursor : Position} {opener closer : CodeUnit} {o c : Position}
  {lines : List (List CodeUnit)} {before inside after : List Token}

/-- If no nested pair is around the cursor, all that is opened in front of it is closed there. -/
theorem balanced_in_front (hne : opener ≠ closer) {m n : List Token}
    (htokens : tokens 1 lines = before ++ (o, opener) :: (m ++ n) ++ (c, closer) :: after)
    (h : Brackets.Balanced (isUnit opener) (isUnit closer) (m ++ n))
    (hm : ∀ t ∈ m, t.1 ≤ cursor) (hn : ∀ t ∈ n, isUnit closer t = true → cursor ≤ t.1)
    (hnested : ∀ pair, Matching opener closer lines pair → o < pair.openAt → pair.closeAt < c →
      ¬Encloses pair cursor) :
    Brackets.Balanced (isUnit opener) (isUnit closer) m := by
  have hno := disjoint opener closer hne
  cases hscan : Brackets.scan (isUnit closer) (isUnit opener) 0 m.reverse with
  | inr depth => exact Brackets.balanced_front hno h hscan
  | inl s =>
    exfalso
    obtain ⟨left, inside, rfl, hs, hinside⟩ := Brackets.scan_reverse_inl hno hscan
    obtain ⟨t, inside', right, rfl, ht, hbetween, -⟩ := Brackets.scan_close hno h hs hinside
    have hopener : s = (s.1, opener) := Prod.ext rfl (by simpa [isUnit] using hs)
    have hcloser : t = (t.1, closer) := Prod.ext rfl (by simpa [isUnit] using ht)
    have hsorted : (tokens 1 lines).Pairwise fun s t => s.1 < t.1 := pairwise_tokens
    rw [htokens] at hsorted
    obtain ⟨hfirst, -, hlast⟩ := List.pairwise_append.mp hsorted
    refine hnested ⟨s.1, t.1⟩ ⟨before ++ (o, opener) :: left, inside ++ inside',
      right ++ (c, closer) :: after, ?_, balanced_tokens.mpr hbetween⟩ ?_ ?_ ⟨?_, ?_⟩
    · rw [htokens, ← hopener, ← hcloser]
      simp
    · obtain ⟨-, hinner, -⟩ := List.pairwise_append.mp hfirst
      exact (List.pairwise_cons.mp hinner).1 s (by simp)
    · exact hlast t (by simp) (c, closer) List.mem_cons_self
    · exact hm s (by simp)
    · exact hn t (by simp) ht

/-- A pair is found from every place inside it that no nested pair encloses, whatever is around. -/
theorem find_inside (hne : opener ≠ closer)
    (htokens : tokens 1 lines = before ++ (o, opener) :: inside ++ (c, closer) :: after)
    (h : Brackets.Balanced (isUnit opener) (isUnit closer) inside) (ho : o ≤ cursor)
    (hc : cursor ≤ c)
    (hnested : ∀ pair, Matching opener closer lines pair → o < pair.openAt → pair.closeAt < c →
      ¬Encloses pair cursor) :
    findBracketPair lines cursor opener closer = some ⟨o, c⟩ := by
  have hno := disjoint opener closer hne
  have hsorted : (tokens 1 lines).Pairwise fun s t => s.1 < t.1 := pairwise_tokens
  rw [htokens] at hsorted
  obtain ⟨m, n, rfl, hfront, hback⟩ := split_inFront hne ho hc hsorted
  have hm : Brackets.Balanced (isUnit opener) (isUnit closer) m := by
    refine balanced_in_front hne htokens h ?_ ?_ hnested
    · intro t ht
      exact le_of_mem_front (by rw [hfront]; simp [ht])
    · intro t ht hcloser
      exact le_of_mem_back (by rw [hback]; simp [ht]) hcloser
  have hscan : Brackets.scan (isUnit closer) (isUnit opener) 0
      ((tokens 1 lines).filter (inFront closer cursor)).reverse = .inl (o, opener) := by
    rw [htokens, hfront, List.reverse_append, List.reverse_cons, List.append_assoc,
      Brackets.scan_append, Brackets.scan_balanced (disjoint closer opener hne.symm) hm.reverse]
    simp [Brackets.scan, isUnit, hne]
  have hbehind : (tokens 1 lines).filter (fun t => o < t.1) = m ++ n ++ (c, closer) :: after := by
    rw [List.append_assoc, List.cons_append] at hsorted htokens
    rw [htokens]
    exact filter_behind hsorted
  rw [findBracketPair_inl hne hscan, hbehind, Brackets.scan_append, Brackets.scan_balanced hno h]
  simp [Brackets.scan, isUnit, hne.symm]

end

/-! ## Edits -/

section
variable {lines front behind : List (List CodeUnit)} {left right text : List CodeUnit}
  {line : ℕ} {p : Position}

theorem lineAt_split : lineAt (front ++ text :: behind) (front.length + 1) = text := by
  simp [lineAt]

/-- An edit inside one line changes that line. -/
theorem applyEdit_line (startColumn endColumn : ℕ) (replacement : List CodeUnit) :
    applyEdit (front ++ text :: behind)
      ⟨front.length + 1, startColumn, front.length + 1, endColumn, replacement⟩ =
    front ++
      (text.take (startColumn - 1) ++ replacement ++ text.drop (endColumn - 1)) :: behind := by
  have hdrop : (front ++ text :: behind).drop (front.length + 1) = behind := by
    rw [← List.singleton_append, ← List.append_assoc]
    exact List.drop_left' (by simp)
  simp only [applyEdit, lineAt_split, Nat.add_sub_cancel, List.take_left, hdrop]
  simp

theorem applyEdit_insertAt (hline : p.line = front.length + 1)
    (hcolumn : p.column = left.length + 1) :
    applyEdit (front ++ (left ++ right) :: behind) (insertAt p text) =
      front ++ (left ++ text ++ right) :: behind := by
  rw [insertAt, hline, hcolumn, applyEdit_line, Nat.add_sub_cancel, List.take_left, List.drop_left]

theorem applyEdit_delete {char : CodeUnit} (hline : p.line = front.length + 1)
    (hcolumn : p.column = left.length + 1) :
    applyEdit (front ++ (left ++ char :: right) :: behind)
      ⟨p.line, p.column, p.line, p.column + 1, []⟩ = front ++ (left ++ right) :: behind := by
  have hdrop : (left ++ char :: right).drop (left.length + 1) = right := by
    rw [← List.singleton_append, ← List.append_assoc]
    exact List.drop_left' (by simp)
  rw [hline, hcolumn, applyEdit_line]
  simp [hdrop]

theorem inText_split (h : InText lines p) : ∃ front left right behind,
    lines = front ++ (left ++ right) :: behind ∧ p.line = front.length + 1 ∧
      p.column = left.length + 1 := by
  obtain ⟨hline, hlines, hcolumn, htext⟩ := h
  obtain ⟨line, hsucc⟩ := Nat.exists_eq_add_of_le' hline
  have hlt : line < lines.length := by omega
  have hat : lineAt lines p.line = lines[line] := by
    rw [hsucc, lineAt, List.getElem?_eq_getElem hlt, Option.getD_some]
  rw [hat] at htext
  refine ⟨lines.take line, lines[line].take (p.column - 1), lines[line].drop (p.column - 1),
    lines.drop (line + 1), ?_, ?_, ?_⟩
  · rw [List.take_append_drop, ← List.drop_eq_getElem_cons hlt, List.take_append_drop]
  · rw [hsucc, List.length_take]
    omega
  · rw [List.length_take]
    omega

theorem tokens_split : tokens line (front ++ text :: behind) = tokens line front ++
    (lineTokens (line + front.length) 1 text ++ tokens (line + front.length + 1) behind) := by
  rw [tokens_append, tokens]

end

/-! ## Wrapping a range -/

/-- Where a wrapped range stands, and that deleting its brackets restores the text. -/
def Wrapped (opener closer : CodeUnit) (lines : List (List CodeUnit)) (start stop : Position) :
    Prop :=
  let wrapped := applyEdits lines (wrapEdits start stop ⟨opener, closer, false⟩)
  (∃ before inside after, tokens 1 wrapped =
      before ++ (start, opener) :: inside ++ (wrappedStop start stop, closer) :: after ∧
    inside.map Prod.snd = rangeText lines start stop) ∧
  applyEdits wrapped (deletePairEdits ⟨start, wrappedStop start stop⟩) = lines

section
variable {opener closer : CodeUnit} {lines front between behind : List (List CodeUnit)}
  {left inside right first last : List CodeUnit} {start stop : Position}

/-- Of the tokens of a text, those from one place up to another are in the middle. -/
theorem filter_between {word before middle after : List Token}
    (h : word = before ++ middle ++ after) (hbefore : ∀ t ∈ before, t.1 < start)
    (hmiddle : ∀ t ∈ middle, start ≤ t.1 ∧ t.1 < stop)
    (hafter : ∀ t ∈ after, stop ≤ t.1) :
    word.filter (fun t => start ≤ t.1 ∧ t.1 < stop) = middle := by
  have hfirst : before.filter (fun t => start ≤ t.1 ∧ t.1 < stop) = [] :=
    List.filter_eq_nil_iff.mpr fun t ht => by simp [(hbefore t ht)]
  have hself : middle.filter (fun t => start ≤ t.1 ∧ t.1 < stop) = middle :=
    List.filter_eq_self.mpr fun t ht => decide_eq_true (hmiddle t ht)
  have hlast : after.filter (fun t => start ≤ t.1 ∧ t.1 < stop) = [] :=
    List.filter_eq_nil_iff.mpr fun t ht => by simp [hafter t ht]
  rw [h, List.filter_append, List.filter_append, hfirst, hself, hlast, List.nil_append,
    List.append_nil]

theorem rangeText_line : rangeText (front ++ (left ++ inside ++ right) :: behind)
    ⟨front.length + 1, left.length + 1⟩ ⟨front.length + 1, (left ++ inside).length + 1⟩ =
      inside := by
  have hword : tokens 1 (front ++ (left ++ inside ++ right) :: behind) =
      (tokens 1 front ++ lineTokens (front.length + 1) 1 left) ++
        lineTokens (front.length + 1) (left.length + 1) inside ++
          (lineTokens (front.length + 1) ((left ++ inside).length + 1) right ++
            tokens (front.length + 2) behind) := by
    rw [tokens_split, Nat.add_comm 1, lineTokens_append, lineTokens_append]
    simp [Nat.add_comm, Nat.add_left_comm]
  have hinside := @map_lineTokens (front.length + 1) (left.length + 1) inside
  rw [rangeText, filter_between hword, hinside]
  · intro t ht
    simp only [lt_iff]
    rcases List.mem_append.mp ht with ht | ht
    · have hline := mem_tokens ht
      omega
    · have hcolumn := mem_lineTokens ht
      omega
  · intro t ht
    have hcolumn := mem_lineTokens ht
    simp only [le_iff, lt_iff, List.length_append]
    omega
  · intro t ht
    simp only [le_iff]
    rcases List.mem_append.mp ht with ht | ht
    · have hcolumn := mem_lineTokens ht
      omega
    · have hline := mem_tokens ht
      omega

theorem rangeText_lines :
    rangeText (front ++ (left ++ first) :: between ++ (last ++ right) :: behind)
      ⟨front.length + 1, left.length + 1⟩
        ⟨(front ++ (left ++ first) :: between).length + 1, last.length + 1⟩ =
      first ++ between.flatten ++ last := by
  have hword : tokens 1 (front ++ (left ++ first) :: between ++ (last ++ right) :: behind) =
      (tokens 1 front ++ lineTokens (front.length + 1) 1 left) ++
        (lineTokens (front.length + 1) (left.length + 1) first ++
          tokens (front.length + 2) between ++
            lineTokens ((front ++ (left ++ first) :: between).length + 1) 1 last) ++
          (lineTokens ((front ++ (left ++ first) :: between).length + 1) (last.length + 1) right ++
            tokens ((front ++ (left ++ first) :: between).length + 2) behind) := by
    rw [tokens_split, tokens_split, Nat.add_comm 1, Nat.add_comm 1, lineTokens_append,
      lineTokens_append]
    simp [Nat.add_comm, Nat.add_left_comm]
    rfl
  rw [rangeText, filter_between hword]
  · rw [List.map_append, List.map_append, map_lineTokens, map_tokens, map_lineTokens]
  · intro t ht
    simp only [lt_iff]
    rcases List.mem_append.mp ht with ht | ht
    · have hline := mem_tokens ht
      omega
    · have hcolumn := mem_lineTokens ht
      omega
  · intro t ht
    simp only [le_iff, lt_iff, List.length_append, List.length_cons] at ht ⊢
    rcases List.mem_append.mp ht with ht | ht
    · rcases List.mem_append.mp ht with ht | ht
      · have hcolumn := mem_lineTokens ht
        omega
      · have hline := mem_tokens ht
        omega
    · have hcolumn := mem_lineTokens ht
      omega
  · intro t ht
    simp only [le_iff]
    rcases List.mem_append.mp ht with ht | ht
    · have hcolumn := mem_lineTokens ht
      omega
    · have hline := mem_tokens ht
      omega

theorem wrapped_line : Wrapped opener closer (front ++ (left ++ inside ++ right) :: behind)
    ⟨front.length + 1, left.length + 1⟩ ⟨front.length + 1, (left ++ inside).length + 1⟩ := by
  have hwrapped : applyEdits (front ++ (left ++ inside ++ right) :: behind)
      (wrapEdits ⟨front.length + 1, left.length + 1⟩
        ⟨front.length + 1, (left ++ inside).length + 1⟩ ⟨opener, closer, false⟩) =
          front ++ (left ++ opener :: (inside ++ closer :: right)) :: behind := by
    show applyEdit (applyEdit _ (insertAt _ [closer])) (insertAt _ [opener]) = _
    rw [applyEdit_insertAt rfl rfl, List.append_assoc, List.append_assoc left,
      applyEdit_insertAt rfl rfl]
    simp
  have hstop : wrappedStop ⟨front.length + 1, left.length + 1⟩
      ⟨front.length + 1, (left ++ inside).length + 1⟩ =
        ⟨front.length + 1, (left ++ opener :: inside).length + 1⟩ := by
    simp [wrappedStop, Nat.add_assoc]
  rw [Wrapped, hwrapped, hstop]
  refine ⟨⟨tokens 1 front ++ lineTokens (front.length + 1) 1 left,
    lineTokens (front.length + 1) (left.length + 2) inside,
    lineTokens (front.length + 1) ((left ++ opener :: inside).length + 2) right ++
      tokens (front.length + 2) behind, ?_, ?_⟩, ?_⟩
  · rw [tokens_split, Nat.add_comm 1, lineTokens_append, lineTokens, lineTokens_append, lineTokens]
    simp [Nat.add_comm, Nat.add_left_comm]
    rfl
  · rw [map_lineTokens, rangeText_line]
  · have hword : left ++ opener :: (inside ++ closer :: right) =
        left ++ opener :: inside ++ closer :: right := by simp
    rw [hword]
    show applyEdit (applyEdit _ _) _ = _
    rw [applyEdit_delete rfl rfl, List.append_assoc, List.cons_append, applyEdit_delete rfl rfl,
      ← List.append_assoc]

theorem wrapped_lines :
    Wrapped opener closer (front ++ (left ++ first) :: between ++ (last ++ right) :: behind)
      ⟨front.length + 1, left.length + 1⟩
        ⟨(front ++ (left ++ first) :: between).length + 1, last.length + 1⟩ := by
  have hwrapped : applyEdits (front ++ (left ++ first) :: between ++ (last ++ right) :: behind)
      (wrapEdits ⟨front.length + 1, left.length + 1⟩
        ⟨(front ++ (left ++ first) :: between).length + 1, last.length + 1⟩
          ⟨opener, closer, false⟩) =
        front ++ (left ++ opener :: first) :: between ++ (last ++ closer :: right) :: behind := by
    show applyEdit (applyEdit _ (insertAt _ [closer])) (insertAt _ [opener]) = _
    rw [applyEdit_insertAt rfl rfl, List.append_assoc, List.cons_append, applyEdit_insertAt rfl rfl]
    simp
  have hstop : wrappedStop ⟨front.length + 1, left.length + 1⟩
      ⟨(front ++ (left ++ first) :: between).length + 1, last.length + 1⟩ =
        ⟨(front ++ (left ++ opener :: first) :: between).length + 1, last.length + 1⟩ := by
    simp [wrappedStop]
  rw [Wrapped, hwrapped, hstop]
  refine ⟨⟨tokens 1 front ++ lineTokens (front.length + 1) 1 left,
    lineTokens (front.length + 1) (left.length + 2) first ++ tokens (front.length + 2) between ++
      lineTokens ((front ++ (left ++ opener :: first) :: between).length + 1) 1 last,
    lineTokens ((front ++ (left ++ opener :: first) :: between).length + 1)
      (last.length + 2) right ++
        tokens ((front ++ (left ++ opener :: first) :: between).length + 2) behind, ?_, ?_⟩, ?_⟩
  · rw [tokens_split, tokens_split, Nat.add_comm 1, Nat.add_comm 1, lineTokens_append, lineTokens,
      lineTokens_append, lineTokens]
    simp [Nat.add_comm, Nat.add_left_comm]
    rfl
  · rw [rangeText_lines, List.map_append, List.map_append, map_lineTokens, map_tokens,
      map_lineTokens]
  · show applyEdit (applyEdit _ _) _ = _
    rw [applyEdit_delete rfl rfl, List.append_assoc, List.cons_append, applyEdit_delete rfl rfl]
    simp

theorem wrapped_range (hstart : InText lines start) (hstop : InText lines stop) (h : start ≤ stop) :
    Wrapped opener closer lines start stop := by
  obtain ⟨front, left, rest, behind, rfl, hline, hcolumn⟩ := inText_split hstart
  obtain ⟨line, column⟩ := start
  obtain ⟨front', left', right', behind', hsplit, hline', hcolumn'⟩ := inText_split hstop
  obtain ⟨line', column'⟩ := stop
  dsimp only at hline hcolumn hline' hcolumn'
  subst hline hcolumn hline' hcolumn'
  rcases le_iff.mp h with hlt | ⟨heq, hle⟩
  · rcases List.append_eq_append_iff.mp hsplit with ⟨rest', rfl, hrest⟩ | ⟨rest', rfl, -⟩
    · cases rest' with
      | nil =>
        rw [List.append_nil] at hlt
        exact absurd hlt (Nat.lt_irrefl _)
      | cons text between =>
        obtain ⟨rfl, hbehind⟩ := List.cons.inj hrest
        rw [show behind = between ++ (left' ++ right') :: behind' from hbehind, ← List.cons_append,
          ← List.append_assoc]
        exact wrapped_lines
    · rw [List.length_append] at hlt
      dsimp only at hlt
      omega
  · obtain ⟨rfl, hrest⟩ := List.append_inj hsplit (Nat.succ.inj heq)
    obtain ⟨htext, rfl⟩ := List.cons.inj hrest
    rcases List.append_eq_append_iff.mp htext with ⟨inside, rfl, rfl⟩ | ⟨inside, rfl, rfl⟩
    · rw [← List.append_assoc]
      exact wrapped_line
    · have hnil : inside = [] := by
        rw [List.length_append] at hle
        dsimp only at hle
        exact List.eq_nil_of_length_eq_zero (by omega)
      subst hnil
      have hempty := @wrapped_line opener closer front behind left' [] rest
      rwa [List.append_nil] at hempty ⊢

end

/-! ## Finding and undoing -/

theorem brackets_ne {char opener closer : Char} (h : brackets char = some (opener, closer)) :
    unit opener ≠ unit closer := by
  rw [brackets.eq_def] at h
  split at h
  all_goals cases h
  all_goals decide

theorem findEnclosingPair_brackets {char opener closer : Char}
    (h : brackets char = some (opener, closer)) (lines : List (List CodeUnit)) (cursor : Position) :
    findEnclosingPair lines cursor char =
      findBracketPair lines cursor (unit opener) (unit closer) := by
  simp only [findEnclosingPair, surroundPairFor, h]
  exact if_neg (brackets_ne h)

/-- In balanced text the innermost pair is found; a wrapped range is unwrapped again. -/
theorem surround_pairs {char opener closer : Char} (hkind : brackets char = some (opener, closer)) :
    (∀ lines cursor, Balanced (unit opener) (unit closer) lines.flatten →
      (∀ found, findEnclosingPair lines cursor char = some found ↔
        Innermost (unit opener) (unit closer) lines cursor found) ∧
      (findEnclosingPair lines cursor char = none ↔
        ∀ pair, Matching (unit opener) (unit closer) lines pair → ¬Encloses pair cursor)) ∧
    (∀ lines start stop cursor, InText lines start → InText lines stop → start ≤ stop →
      Balanced (unit opener) (unit closer) (rangeText lines start stop) →
      start ≤ cursor → cursor ≤ wrappedStop start stop →
      let wrapped := applyEdits lines (wrapEdits start stop ⟨unit opener, unit closer, false⟩)
      (∀ pair, Matching (unit opener) (unit closer) wrapped pair → start < pair.openAt →
        pair.closeAt < wrappedStop start stop → ¬Encloses pair cursor) →
      ∃ found, findEnclosingPair wrapped cursor char = some found ∧
        applyEdits wrapped (deletePairEdits found) = lines) := by
  have hne := brackets_ne hkind
  constructor
  · intro lines cursor h
    rw [findEnclosingPair_brackets hkind]
    exact ⟨innermost_iff hne h, eq_none_iff hne h⟩
  · intro lines start stop cursor hstart hstop hle hbalanced hopen hclose wrapped hnested
    have hrange : Wrapped (unit opener) (unit closer) lines start stop :=
      wrapped_range hstart hstop hle
    obtain ⟨⟨before, inside, after, htokens, hinside⟩, hdelete⟩ := hrange
    rw [← hinside, balanced_tokens] at hbalanced
    refine ⟨⟨start, wrappedStop start stop⟩, ?_, hdelete⟩
    rw [findEnclosingPair_brackets hkind]
    exact find_inside hne htokens hbalanced hopen hclose hnested

/-- A letter is put in brackets, and these are found from it. -/
theorem surround_pairs_letter :
    Innermost (unit '(') (unit ')') [[unit '(', unit 'x', unit ')']] ⟨1, 2⟩ ⟨⟨1, 1⟩, ⟨1, 3⟩⟩ ∧
      ∃ found, findEnclosingPair [[unit '(', unit 'x', unit ')']] ⟨1, 2⟩ ')' = some found ∧
        applyEdits [[unit '(', unit 'x', unit ')']] (deletePairEdits found) = [[unit 'x']] := by
  obtain ⟨hfind, hundo⟩ := @surround_pairs ')' '(' ')' rfl
  have hno (char : CodeUnit) (h : (char == unit '(') = true) : (char == unit ')') = false := by
    rw [beq_iff_eq.mp h]
    decide
  constructor
  · exact ((hfind _ _ ((Brackets.scan_eq_zero_iff hno).mp (by decide))).1 _).mp (by decide)
  · refine hundo [[unit 'x']] ⟨1, 1⟩ ⟨1, 2⟩ ⟨1, 2⟩ ⟨by decide, by decide, by decide, by decide⟩
      ⟨by decide, by decide, by decide, by decide⟩ (by decide)
        ((Brackets.scan_eq_zero_iff hno).mp (by decide)) (by decide) (by decide) ?_
    rintro pair ⟨before, inside, after, htokens, -⟩ hlt -
    have hmem : (pair.openAt, unit '(') ∈ tokens 1 (applyEdits [[unit 'x']]
        (wrapEdits ⟨1, 1⟩ ⟨1, 2⟩ ⟨unit '(', unit ')', false⟩)) := by
      rw [htokens]
      simp
    have hlist : tokens 1 (applyEdits [[unit 'x']]
        (wrapEdits ⟨1, 1⟩ ⟨1, 2⟩ ⟨unit '(', unit ')', false⟩)) =
          [(⟨1, 1⟩, unit '('), (⟨1, 2⟩, unit 'x'), (⟨1, 3⟩, unit ')')] := by decide
    rw [hlist] at hmem
    rcases List.mem_cons.mp hmem with heq | hrest
    · rw [(Prod.mk.inj heq).1] at hlt
      exact absurd hlt (lt_irrefl _)
    · have hchar : unit '(' ∈ [unit 'x', unit ')'] := List.mem_map_of_mem (f := Prod.snd) hrest
      exact absurd hchar (by decide)

end Atomis.Surround
