import Atomis.ZonReaders
import Mathlib.Data.List.Nodup

/-!
# Removing a dependency from the Zig manifest

`zonWithout` drops whole lines: from one that begins with the opener of the entry on, until the
braces behind it come out even. An entry that stands on lines of its own is removed and nothing
else, and the manifest stays one.
-/

namespace Atomis.ZonManifest
open Ndjson Zon

/-! ## Lines of a text -/

/-- A text whose last line has ended. -/
def Whole (text : List Char) : Prop := (Lines.split '\n' [] text).2 = []

def joined (lines : List Line) : List Char := lines.flatMap (· ++ ['\n'])

section Lines

variable {text left : List Char} {line : Line}

theorem whole_newline (text : List Char) : Whole (text ++ ['\n']) := by
  rw [Whole, Lines.split_append]
  rfl

theorem whole_append (h : Whole left) (htext : Whole text) : Whole (left ++ text) := by
  rw [Whole] at h htext ⊢
  rw [Lines.split_append, h, htext]

theorem lines_append (h : Whole left) (right : List Char) :
    lines (left ++ right) = lines left ++ lines right := by
  rw [Whole] at h
  simp [lines, Lines.split_append, h]

theorem lines_ne_nil (h : text ≠ []) : lines text ≠ [] := by
  intro hnil
  obtain ⟨hwhole, hrest⟩ := List.append_eq_nil_iff.mp hnil
  have hjoin := @Lines.split_join _ _ '\n' [] text
  rw [List.map_eq_nil_iff.mp hwhole] at hjoin
  split_ifs at hrest with hlast
  rw [hlast] at hjoin
  exact h hjoin.symm

theorem joined_append (left right : List Line) :
    joined (left ++ right) = joined left ++ joined right := List.flatMap_append

/-- No line that has ended is stripped of a carriage return. -/
def NoReturn (text : List Char) : Prop :=
  ∀ line ∈ (Lines.split '\n' [] text).1, line.getLast? ≠ some '\r'

/-- The end that the last line of a text lacks. -/
def lastEnd (text : List Char) : List Char :=
  if (Lines.split '\n' [] text).2 = [] then [] else ['\n']

theorem length_stripReturn (line : Line) : (stripReturn line).length +
    (if line.getLast? = some '\r' then 1 else 0) = line.length := by
  rw [stripReturn]
  split_ifs with hlast
  · have hne : line ≠ [] := fun hnil => by simp [hnil] at hlast
    have hlength := List.length_pos_iff.mpr hne
    rw [List.length_dropLast]
    omega
  · rfl

/-- Stripped lines are shorter exactly if a line is stripped. -/
theorem length_joined_strip (lines : List Line) :
    (joined (lines.map stripReturn)).length ≤ (joined lines).length ∧
      ((joined (lines.map stripReturn)).length = (joined lines).length ↔
        ∀ line ∈ lines, line.getLast? ≠ some '\r') := by
  induction lines with
  | nil => simp [joined]
  | cons line lines ih =>
    have hline := length_stripReturn line
    simp only [joined, List.map_cons, List.flatMap_cons, List.length_append, List.length_cons,
      List.length_nil, List.forall_mem_cons] at ih ⊢
    rw [← ih.2]
    split_ifs at hline with hlast
    · exact ⟨by omega, iff_of_false (by omega) fun h => h.1 hlast⟩
    · exact ⟨by omega, ⟨fun h => ⟨hlast, by omega⟩, fun h => by omega⟩⟩

theorem joined_split (text : List Char) :
    joined (Lines.split '\n' [] text).1 ++ (Lines.split '\n' [] text).2 = text :=
  Lines.split_join [] text

theorem joined_lines_eq (text : List Char) : joined (lines text) =
    joined ((Lines.split '\n' [] text).1.map stripReturn) ++
      ((Lines.split '\n' [] text).2 ++ lastEnd text) := by
  rw [lines, joined_append, lastEnd]
  split_ifs with hrest
  · simp [joined, hrest]
  · simp [joined]

theorem length_joined_lines (text : List Char) :
    (joined (lines text)).length ≤ (text ++ lastEnd text).length ∧
      ((joined (lines text)).length = (text ++ lastEnd text).length ↔ NoReturn text) := by
  obtain ⟨hle, heq⟩ := length_joined_strip (Lines.split '\n' [] text).1
  have hsplit := congrArg List.length (joined_split text)
  rw [NoReturn, ← heq, joined_lines_eq]
  simp only [List.length_append] at hsplit ⊢
  omega

/-- What comes out of the lines of a text. -/
theorem joined_lines (h : NoReturn text) : joined (lines text) = text ++ lastEnd text := by
  have hstrip : (Lines.split '\n' [] text).1.map stripReturn =
      (Lines.split '\n' [] text).1.map id :=
    List.map_congr_left fun line hline => if_neg (h line hline)
  rw [joined_lines_eq, hstrip, List.map_id, ← List.append_assoc, joined_split]

theorem lastEnd_of_whole (h : Whole text) : lastEnd text = [] := if_pos h

/-- Two texts come out as they are exactly if no line of them is stripped. -/
theorem joined_lines_iff (hleft : Whole left) :
    joined (lines left) ++ joined (lines text) = left ++ text ++ lastEnd text ↔
      NoReturn left ∧ NoReturn text := by
  obtain ⟨hle, heq⟩ := length_joined_lines left
  obtain ⟨hle', heq'⟩ := length_joined_lines text
  rw [lastEnd_of_whole hleft, List.append_nil] at hle heq
  constructor
  · intro h
    have hlength := congrArg List.length h
    simp only [List.length_append] at hlength hle' heq'
    exact ⟨heq.mp (by omega), heq'.mp (by omega)⟩
  · rintro ⟨hno, hno'⟩
    rw [joined_lines hno, joined_lines hno', lastEnd_of_whole hleft, List.append_nil,
      List.append_assoc]

end Lines

/-! ## The edit -/

def nextDepth (depth : ℤ) (line : Line) : ℤ :=
  depth + (bracesOutsideStrings line).1 - (bracesOutsideStrings line).2

/-- From some depth on the braces come out even on the last line. Where they do so before, the
next line begins with the opener again. -/
def evensOut (opener : List Char) (depth : ℤ) : List Line → Prop
  | [] => False
  | [line] => nextDepth depth line ≤ 0
  | line :: next :: lines =>
    if 0 < nextDepth depth line then evensOut opener (nextDepth depth line) (next :: lines)
    else opener.isPrefixOf (trim next) ∧ evensOut opener 1 lines

instance decidableEvensOut (opener : List Char) :
    ∀ (depth : ℤ) (lines : List Line), Decidable (evensOut opener depth lines)
  | _, [] => isFalse id
  | depth, [line] => inferInstanceAs (Decidable (nextDepth depth line ≤ 0))
  | depth, line :: next :: lines =>
    have := decidableEvensOut opener (nextDepth depth line) (next :: lines)
    have := decidableEvensOut opener 1 lines
    inferInstanceAs (Decidable (if 0 < nextDepth depth line then
      evensOut opener (nextDepth depth line) (next :: lines)
      else opener.isPrefixOf (trim next) ∧ evensOut opener 1 lines))

/-- No line begins with the opener. -/
def Untouched (opener : List Char) (lines : List Line) : Prop :=
  ∀ line ∈ lines, opener.isPrefixOf (trim line) = false

/-- Which lines the edit puts out. -/
def keeps (opener : List Char) (edit : Edit) : List Line → List Bool
  | [] => []
  | line :: lines =>
    decide ((edit.next opener line).out ≠ edit.out) :: keeps opener (edit.next opener line) lines

section Edit

variable {opener text name : List Char} {edit : Edit} {line first : Line}
  {lines above own below : List Line}

theorem next_kept (hedit : edit.skipping = false) (h : opener.isPrefixOf (trim line) = false) :
    edit.next opener line = { edit with out := edit.out ++ line ++ ['\n'] } := by
  simp [Edit.next, hedit, h]

theorem next_opened (hedit : edit.skipping = false) (h : opener.isPrefixOf (trim line)) :
    edit.next opener line = { edit with skipping := true, removed := true, depth := 1 } := by
  simp [Edit.next, hedit, h]

theorem next_skipped (hedit : edit.skipping) : edit.next opener line = { edit with
    depth := nextDepth edit.depth line, skipping := 0 < nextDepth edit.depth line } := by
  simp [Edit.next, hedit, nextDepth]

theorem next_out_ne_iff : (edit.next opener line).out ≠ edit.out ↔
    edit.skipping = false ∧ opener.isPrefixOf (trim line) = false := by
  cases hedit : edit.skipping with
  | true => simp [next_skipped hedit]
  | false =>
    cases hline : opener.isPrefixOf (trim line) with
    | true => simp [next_opened hedit hline]
    | false => simp [next_kept hedit hline]

theorem keeps_append (edit : Edit) (lines more : List Line) :
    keeps opener edit (lines ++ more) =
      keeps opener edit lines ++ keeps opener (lines.foldl (Edit.next opener) edit) more := by
  induction lines generalizing edit with
  | nil => rfl
  | cons line lines ih => rw [List.cons_append, keeps, ih, keeps, List.cons_append, List.foldl_cons]

theorem length_keeps (edit : Edit) (lines : List Line) :
    (keeps opener edit lines).length = lines.length := by
  induction lines generalizing edit with
  | nil => rfl
  | cons line lines ih => rw [keeps, List.length_cons, ih, List.length_cons]

theorem Untouched.tail (h : Untouched opener (line :: lines)) : Untouched opener lines :=
  fun other hother => h other (List.mem_cons_of_mem _ hother)

theorem foldl_untouched (h : Untouched opener lines) (hedit : edit.skipping = false) :
    lines.foldl (Edit.next opener) edit = { edit with out := edit.out ++ joined lines } := by
  induction lines generalizing edit with
  | nil => simp [joined]
  | cons line lines ih =>
    have hgoes : ({ edit with out := edit.out ++ line ++ ['\n'] } : Edit).skipping = false := hedit
    rw [List.foldl_cons, next_kept hedit (h line List.mem_cons_self), ih h.tail hgoes]
    simp [joined]

/-- Lines outside a block are all kept exactly if none opens one. -/
theorem keeps_eq_true_iff (hedit : edit.skipping = false) :
    keeps opener edit lines = List.replicate lines.length true ↔ Untouched opener lines := by
  induction lines generalizing edit with
  | nil => exact iff_of_true rfl fun line hline => nomatch hline
  | cons line lines ih =>
    have hgoes : ({ edit with out := edit.out ++ line ++ ['\n'] } : Edit).skipping = false := hedit
    rw [keeps, List.length_cons, List.replicate_succ, List.cons_eq_cons, decide_eq_true_eq,
      next_out_ne_iff, Untouched, List.forall_mem_cons]
    constructor
    · rintro ⟨⟨-, hline⟩, hrest⟩
      rw [next_kept hedit hline] at hrest
      exact ⟨hline, (ih hgoes).mp hrest⟩
    · rintro ⟨hline, hrest⟩
      refine ⟨⟨hedit, hline⟩, ?_⟩
      rw [next_kept hedit hline]
      exact (ih hgoes).mpr hrest

/-- All lines are dropped, and no block is open after them. -/
def Drops (opener : List Char) (edit : Edit) (lines : List Line) : Prop :=
  keeps opener edit lines = List.replicate lines.length false ∧
    (lines.foldl (Edit.next opener) edit).skipping = false

theorem drops_cons_iff : Drops opener edit (line :: lines) ↔
    (edit.next opener line).out = edit.out ∧ Drops opener (edit.next opener line) lines := by
  rw [Drops, keeps, List.length_cons, List.replicate_succ, List.cons_eq_cons,
    decide_eq_false_iff_not, not_not, and_assoc]
  rfl

theorem drops_iff {depth : ℤ} (hedit : edit.skipping) (hdepth : edit.depth = depth) :
    Drops opener edit lines ↔ evensOut opener depth lines := by
  induction depth, lines using evensOut.induct generalizing edit with
  | case1 depth => simp [Drops, keeps, evensOut, hedit]
  | case2 depth line =>
    rw [drops_cons_iff, next_skipped hedit, hdepth, evensOut]
    simp [Drops, keeps]
  | case3 depth line next lines hgoes ih =>
    rw [drops_cons_iff, next_skipped hedit, hdepth, evensOut, if_pos hgoes]
    rw [ih (by simpa using hgoes) rfl]
    simp
  | case4 depth line next lines hends ih =>
    rw [drops_cons_iff, next_skipped hedit, hdepth, evensOut, if_neg hends, drops_cons_iff]
    simp only [hends, decide_false, true_and]
    cases hnext : opener.isPrefixOf (trim next) with
    | true =>
      rw [next_opened rfl hnext, ih rfl rfl]
      simp
    | false =>
      rw [next_kept rfl hnext]
      simp

/-- Nothing is put out where no line is kept. -/
theorem Drops.out (h : Drops opener edit lines) :
    (lines.foldl (Edit.next opener) edit).out = edit.out := by
  induction lines generalizing edit with
  | nil => rfl
  | cons line lines ih =>
    obtain ⟨hout, hrest⟩ := drops_cons_iff.mp h
    exact (ih hrest).trans hout

theorem foldl_removed (h : edit.removed) (lines : List Line) :
    (lines.foldl (Edit.next opener) edit).removed := by
  induction lines generalizing edit with
  | nil => exact h
  | cons line lines ih =>
    refine ih ?_
    rw [Edit.next]
    split_ifs
    · rfl
    · exact h
    · exact h

/-- The lines of a block from the one that opens it on. -/
def IsBlock (opener : List Char) : List Line → Prop
  | [] => False
  | first :: more => opener.isPrefixOf (trim first) ∧ evensOut opener 1 more

theorem drops_block_iff (hedit : edit.skipping = false) (hlines : lines ≠ []) :
    Drops opener edit lines ↔ IsBlock opener lines := by
  cases lines with
  | nil => exact absurd rfl hlines
  | cons first more =>
    rw [drops_cons_iff, IsBlock]
    cases hfirst : opener.isPrefixOf (trim first) with
    | true =>
      rw [next_opened hedit hfirst, drops_iff rfl rfl]
      simp
    | false =>
      rw [next_kept hedit hfirst]
      simp

theorem removed_of_isBlock (hedit : edit.skipping = false) (h : IsBlock opener lines) :
    (lines.foldl (Edit.next opener) edit).removed := by
  cases lines with
  | nil => exact h.elim
  | cons first more =>
    rw [List.foldl_cons, next_opened hedit h.1]
    exact foldl_removed rfl more

/-- The mask of what the edit cuts out. -/
def mask (above own below : List Line) : List Bool :=
  List.replicate above.length true ++ List.replicate own.length false ++
    List.replicate below.length true

theorem keeps_eq_mask_iff (hown : own ≠ []) (hbelow : below ≠ []) :
    keeps opener {} (above ++ own ++ below) = mask above own below ↔
      Untouched opener above ∧ IsBlock opener own ∧ Untouched opener below := by
  rw [keeps_append, keeps_append, List.foldl_append, mask]
  constructor
  · intro h
    obtain ⟨hfront, hlast⟩ := List.append_inj h (by simp [length_keeps])
    obtain ⟨hfirst, hmiddle⟩ := List.append_inj hfront (by simp [length_keeps])
    have habove := (keeps_eq_true_iff rfl).mp hfirst
    have hgoes : (above.foldl (Edit.next opener) {}).skipping = false := by
      rw [foldl_untouched habove rfl]
    have hends : (own.foldl (Edit.next opener) (above.foldl (Edit.next opener) {})).skipping =
        false := by
      obtain ⟨line, rest, rfl⟩ := List.exists_cons_of_ne_nil hbelow
      rw [keeps, List.length_cons, List.replicate_succ, List.cons_eq_cons, decide_eq_true_eq,
        next_out_ne_iff] at hlast
      exact hlast.1.1
    exact ⟨habove, (drops_block_iff hgoes hown).mp ⟨hmiddle, hends⟩,
      (keeps_eq_true_iff hends).mp hlast⟩
  · rintro ⟨habove, hblock, hlast⟩
    have hgoes : (above.foldl (Edit.next opener) {}).skipping = false := by
      rw [foldl_untouched habove rfl]
    obtain ⟨hmiddle, hends⟩ := (drops_block_iff hgoes hown).mpr hblock
    rw [(keeps_eq_true_iff rfl).mpr habove, hmiddle, (keeps_eq_true_iff hends).mpr hlast]

theorem zonWithout_cut (htext : ZonManifest.lines text = above ++ own ++ below)
    (habove : Untouched (openerText name) above) (hown : IsBlock (openerText name) own)
    (hbelow : Untouched (openerText name) below) :
    zonWithout text name = some (joined above ++ joined below) := by
  have hne : own ≠ [] := fun hnil => by rw [hnil] at hown; exact hown
  have hgoes : ({ out := joined above } : Edit).skipping = false := rfl
  have hdrops := (drops_block_iff hgoes hne).mpr hown
  have hremoved := removed_of_isBlock hgoes hown
  rw [zonWithout, htext, List.foldl_append, List.foldl_append, foldl_untouched habove rfl]
  simp only [List.nil_append]
  rw [foldl_untouched hbelow hdrops.2]
  simp only [hremoved, if_true, hdrops.out]

theorem foldl_touched (h : ¬Untouched opener lines) (hedit : edit.skipping = false) :
    (lines.foldl (Edit.next opener) edit).removed := by
  induction lines generalizing edit with
  | nil => exact absurd (fun line hline => nomatch hline) h
  | cons line lines ih =>
    rw [List.foldl_cons, Edit.next]
    by_cases hline : opener.isPrefixOf (trim line)
    · simp only [hedit, hline, Bool.not_false, and_self, if_true]
      exact foldl_removed rfl lines
    · simp only [hedit, hline, Bool.not_false, Bool.false_eq_true, and_false, if_false]
      refine ih (fun hrest => h fun other hother => ?_) rfl
      rcases List.mem_cons.mp hother with rfl | hother
      · exact Bool.eq_false_iff.mpr hline
      · exact hrest other hother

theorem zonWithout_eq_none_iff (text name : List Char) :
    zonWithout text name = none ↔ Untouched (openerText name) (ZonManifest.lines text) := by
  rw [zonWithout]
  refine ⟨fun hnone => ?_, fun h => by rw [foldl_untouched h rfl]; rfl⟩
  by_contra htouched
  have hremoved : ((ZonManifest.lines text).foldl (Edit.next (openerText name)) {}).removed :=
    foldl_touched htouched rfl
  simp [hremoved] at hnone

end Edit

/-! ## An entry in its block -/

/-- The gap before whatever follows an entry. -/
def nextGap (block : Block Entry) : List Entry → Gap
  | [] => block.close
  | entry :: _ => entry.before

/-- Where an entry stands in its block, with the gaps before and after it cut in two: `lead` and
`rest` stay, `indent` and `inline` go with the entry. -/
structure Spot (block : Block Entry) where
  front : List Entry
  entry : Entry
  back : List Entry
  items : block.items = front ++ entry :: back
  lead : Gap
  indent : Gap
  before : entry.before = lead ++ indent
  inline : Gap
  rest : Gap
  next : nextGap block back = inline ++ rest

namespace Spot

variable {block : Block Entry} (s : Spot block)

def without : Block Entry :=
  match s.back with
  | [] => { block with items := s.front, comma := true, close := s.lead ++ s.rest }
  | entry :: back =>
    { block with items := s.front ++ { entry with before := s.lead ++ s.rest } :: back }

def comma : List Char := if s.back = [] ∧ !block.comma then [] else [',']

/-- The entry with its comma and what goes with it. -/
def own : List Char :=
  s.indent.text ++ s.entry.core (Block.text (FieldInit.text Value.text)) ++ s.entry.after.text ++
    s.comma ++ s.inline.text

def above : List Char :=
  '.' :: block.dot.text ++ '{' :: s.front.flatMap (Entry.text · ++ [',']) ++ s.lead.text

def below : List Char :=
  s.rest.text ++ match s.back with
    | [] => ['}']
    | entry :: back => entry.core (Block.text (FieldInit.text Value.text)) ++ entry.after.text ++
        followersText Entry.text block.comma back ++ block.close.text ++ ['}']

theorem entry_text (entry : Entry) :
    entry.text = entry.before.text ++ entry.core (Block.text (FieldInit.text Value.text)) ++
      entry.after.text := FieldInit.text_core _ _

theorem text_eq : block.text Entry.text = s.above ++ s.own ++ s.below := by
  have hnext := s.next
  rw [Block.text, s.items, itemsText_append, itemsText_cons, entry_text, s.before]
  rw [above, own, below, comma]
  cases hback : s.back with
  | nil =>
    rw [hback] at hnext
    rw [show block.close = s.inline ++ s.rest from hnext]
    cases hcomma : block.comma <;> simp [followersText, Gap.text_append]
  | cons entry back =>
    rw [hback] at hnext
    have hbefore : entry.before = s.inline ++ s.rest := hnext
    simp [followersText, itemsText_cons, entry_text, hbefore, Gap.text_append]

theorem without_text : s.without.text Entry.text = s.above ++ s.below := by
  rw [without, above, below]
  cases s.back with
  | nil => simp [Block.text, itemsText_comma, Gap.text_append]
  | cons entry back =>
    simp [Block.text, itemsText_append, itemsText_cons, entry_text, Gap.text_append, FieldInit.core]

end Spot

/-! ## An entry in its manifest -/

/-- The tail with its last line ended. -/
def Tail.ended (tail : Tail) : Tail :=
  match tail.comment with
  | some line => { gap := tail.gap ++ [.comment line.val line.property], comment := none }
  | none => { gap := tail.gap ++ [.blank '\n' newLine_blank], comment := none }

theorem Tail.ended_text (tail : Tail) : tail.ended.text = tail.text ++ ['\n'] := by
  cases h : tail.comment <;> simp [Tail.ended, Tail.text, h, Gap.text, Piece.text]

structure Place (m : Manifest) (name : List Char) where
  front : List Top
  field : FieldInit (Block Entry)
  back : List Top
  items : m.root.items = front ++ .dependencies field :: back
  spot : Spot field.value
  named : spot.entry.name.spelling = name

namespace Place

variable {m : Manifest} {name : List Char} (p : Place m name)

def above : List Char :=
  m.head.text ++ '.' :: m.root.dot.text ++ '{' :: p.front.flatMap (Top.text · ++ [',']) ++
    p.field.before.text ++ '.' :: p.field.dot.text ++ p.field.name.spelling ++
    p.field.left.text ++ '=' :: p.field.right.text ++ p.spot.above

def below (tail : Tail) : List Char :=
  p.spot.below ++ p.field.after.text ++ followersText Top.text m.root.comma p.back ++
    m.root.close.text ++ '}' :: tail.text

theorem text_eq : m.text = p.above ++ p.spot.own ++ p.below m.tail := by
  rw [Manifest.text, Block.text, p.items, itemsText_append, itemsText_cons, Top.text,
    FieldInit.text_core, FieldInit.core, p.spot.text_eq]
  simp [above, below]

def withoutField : FieldInit (Block Entry) := { p.field with value := p.spot.without }

theorem without_sublist :
    (p.spot.without.items.map fun entry : Entry => entry.name.spelling).Sublist
      (p.field.value.items.map fun entry : Entry => entry.name.spelling) := by
  rw [p.spot.items, List.map_append, List.map_cons, Spot.without]
  cases p.spot.back with
  | nil => exact List.sublist_append_left _ _
  | cons entry back =>
    simp only [List.map_append, List.map_cons]
    exact List.Sublist.append_left (List.sublist_cons_self _ _) _

theorem without_fields {entry : Entry} (h : entry ∈ p.spot.without.items) :
    ∃ original ∈ p.field.value.items, original.value = entry.value := by
  rw [p.spot.items]
  rw [Spot.without] at h
  cases hback : p.spot.back with
  | nil =>
    rw [hback] at h
    exact ⟨entry, List.mem_append_left _ h, rfl⟩
  | cons next back =>
    rw [hback] at h
    rcases List.mem_append.mp h with h | h
    · exact ⟨entry, List.mem_append_left _ h, rfl⟩
    · rcases List.mem_cons.mp h with rfl | h
      · exact ⟨next, List.mem_append_right _ (by simp), rfl⟩
      · exact ⟨entry, List.mem_append_right _ (by simp [h]), rfl⟩

/-- The manifest without the entry. -/
def without (tail : Tail) : Manifest where
  head := m.head
  root := { m.root with items := p.front ++ .dependencies p.withoutField :: p.back }
  tail := tail
  distinct := by
    have hdistinct := m.distinct
    rw [p.items, List.map_append, List.map_cons] at hdistinct
    rwa [List.map_append, List.map_cons]
  proper := by
    have hproper := m.proper
    rw [p.items] at hproper
    intro item hitem
    rcases List.mem_append.mp hitem with hitem | hitem
    · exact hproper item (List.mem_append_left _ hitem)
    · rcases List.mem_cons.mp hitem with rfl | hitem
      · obtain ⟨hname, hnodup, hfields⟩ :=
          hproper (.dependencies p.field) (List.mem_append_right _ List.mem_cons_self)
        refine ⟨hname, p.without_sublist.nodup hnodup, fun entry hentry => ?_⟩
        obtain ⟨original, horiginal, hvalue⟩ := p.without_fields hentry
        rw [← hvalue]
        exact hfields original horiginal
      · exact hproper item (List.mem_append_right _ (List.mem_cons_of_mem _ hitem))

theorem without_text (tail : Tail) : (p.without tail).text = p.above ++ p.below tail := by
  rw [Manifest.text, Block.text, without, itemsText_append, itemsText_cons, Top.text,
    FieldInit.text_core, FieldInit.core]
  simp [above, below, withoutField, p.spot.without_text]

theorem below_ended (tail : Tail) : p.below tail.ended = p.below tail ++ ['\n'] := by
  simp [below, Tail.ended_text]

end Place

/-! ## What a manifest says -/

/-- The name of an entry and its fields, without their layout. -/
def Entry.content (entry : Entry) : List Char × List (List Char × List Char) :=
  (entry.name.spelling, entry.value.items.map fun f => (f.name.spelling, f.value.text))

abbrev Content := List Char × (List (List Char × List (List Char × List Char)) ⊕ List Char)

def Top.content : Top → Content
  | dependencies f => (f.name.spelling, .inl (f.value.items.map Entry.content))
  | other f => (f.name.spelling, .inr f.value.text)

def Manifest.content (m : Manifest) : List Content := m.root.items.map Top.content

def dropEntry (name : List Char) (content : Content) : Content :=
  (content.1, content.2.map (·.filter (·.1 ≠ name)) id)

namespace Place

variable {m : Manifest} {name : List Char} (p : Place m name)

/-- Nothing beside the field is called `dependencies`. -/
theorem dropEntry_other {item : Top} (h : item ∈ p.front ∨ item ∈ p.back) :
    dropEntry name item.content = item.content := by
  have hproper := m.proper
  have hdistinct := m.distinct
  rw [p.items] at hproper hdistinct
  cases item with
  | other f => rfl
  | dependencies f =>
    have hmem : Top.dependencies f ∈ p.front ++ .dependencies p.field :: p.back := by
      rcases h with h | h
      · exact List.mem_append_left _ h
      · exact List.mem_append_right _ (List.mem_cons_of_mem _ h)
    have hname := (hproper _ hmem).1.trans
      (hproper (.dependencies p.field) (List.mem_append_right _ List.mem_cons_self)).1.symm
    rw [List.map_append, List.map_cons, List.nodup_middle, List.nodup_cons, ← List.map_append]
      at hdistinct
    refine absurd (List.mem_map.mpr ⟨_, List.mem_append.mpr h, ?_⟩) hdistinct.1
    exact hname

theorem filter_entries :
    (p.field.value.items.map Entry.content).filter (·.1 ≠ name) =
      p.spot.without.items.map Entry.content := by
  obtain ⟨-, hnodup, -⟩ := m.proper (.dependencies p.field) (by rw [p.items]; simp)
  rw [p.spot.items, List.map_append, List.map_cons, List.nodup_middle, List.nodup_cons, p.named,
    ← List.map_append] at hnodup
  have hother : ∀ entry ∈ p.spot.front ++ p.spot.back, entry.name.spelling ≠ name :=
    fun entry hentry hname => hnodup.1 (List.mem_map.mpr ⟨entry, hentry, hname⟩)
  have hkeep : ∀ entries : List Entry, (∀ entry ∈ entries, entry.name.spelling ≠ name) →
      (entries.map Entry.content).filter (·.1 ≠ name) = entries.map Entry.content := by
    intro entries hentries
    rw [List.filter_eq_self]
    intro content hcontent
    obtain ⟨entry, hentry, rfl⟩ := List.mem_map.mp hcontent
    exact decide_eq_true (hentries entry hentry)
  have hdrop : ¬(p.spot.entry.content.1 ≠ name) := not_not.mpr p.named
  rw [p.spot.items, List.map_append, List.map_cons, List.filter_append,
    List.filter_cons_of_neg (by simpa using hdrop),
    hkeep _ fun entry hentry => hother entry (List.mem_append_left _ hentry),
    hkeep _ fun entry hentry => hother entry (List.mem_append_right _ hentry), Spot.without]
  cases p.spot.back with
  | nil => exact List.append_nil _
  | cons entry back =>
    rw [List.map_append]
    rfl

theorem without_content (tail : Tail) :
    (p.without tail).content = m.content.map (dropEntry name) := by
  have hsame : ∀ items : List Top, (∀ item ∈ items, item ∈ p.front ∨ item ∈ p.back) →
      (items.map Top.content).map (dropEntry name) = items.map Top.content := by
    intro items hitems
    rw [List.map_map]
    exact List.map_congr_left fun item hitem => p.dropEntry_other (hitems item hitem)
  rw [Manifest.content, Manifest.content, p.items, without]
  simp only [List.map_append, List.map_cons]
  rw [hsame _ fun item hitem => .inl hitem, hsame _ fun item hitem => .inr hitem]
  congr 2
  simp only [Top.content, dropEntry, Sum.map_inl, p.filter_entries]
  rfl

end Place

/-! ## An entry on lines of its own -/

/-- The entry and what goes with it are whole lines. -/
structure Place.WholeLines {m : Manifest} {name : List Char} (p : Place m name) : Prop where
  begins : ∃ text, p.spot.lead.text = text ++ ['\n']
  ends : ∃ text, p.spot.inline.text = text ++ ['\n']

/-- The lines of the entry begin with its opener and end where the braces come out even, no other
line begins so, and none ends in a carriage return. -/
structure Place.Separate {m : Manifest} {name : List Char} (p : Place m name) : Prop where
  whole : p.WholeLines
  block : IsBlock (openerText name) (lines p.spot.own)
  above : Untouched (openerText name) (lines p.above)
  below : Untouched (openerText name) (lines (p.below m.tail))
  returns : NoReturn p.above ∧ NoReturn (p.below m.tail)

/-- What comes out is a manifest with the same content but for the entry. The lines that are not
put out are those of the entry, and the text but for them is left as it is. -/
structure Removed (m : Manifest) (name out : List Char) : Prop where
  manifest : ∃ m' : Manifest, m'.text = out ∧ m'.content = m.content.map (dropEntry name)
  lines : ∃ p : Place m name, p.WholeLines ∧
    keeps (openerText name) {} (lines m.text) =
      mask (lines p.above) (lines p.spot.own) (lines (p.below m.tail)) ∧
    out = p.above ++ p.below m.tail ++ lastEnd (p.below m.tail)

namespace Place

variable {m : Manifest} {name : List Char} {p : Place m name}

theorem WholeLines.above (h : p.WholeLines) : Whole p.above := by
  obtain ⟨text, htext⟩ := h.begins
  rw [Place.above, Spot.above, htext]
  simp only [← List.append_assoc]
  exact whole_newline _

theorem WholeLines.own (h : p.WholeLines) : Whole p.spot.own := by
  obtain ⟨text, htext⟩ := h.ends
  rw [Spot.own, htext, ← List.append_assoc]
  exact whole_newline _

theorem WholeLines.lines_eq (h : p.WholeLines) :
    lines m.text = lines p.above ++ lines p.spot.own ++ lines (p.below m.tail) := by
  rw [p.text_eq, List.append_assoc, lines_append h.above, lines_append h.own, List.append_assoc]

theorem own_ne_nil (p : Place m name) : lines p.spot.own ≠ [] :=
  lines_ne_nil (by simp [Spot.own, FieldInit.core])

theorem below_ne_nil (p : Place m name) : lines (p.below m.tail) ≠ [] :=
  lines_ne_nil (by simp [below])

theorem mask_iff (h : p.WholeLines) :
    keeps (openerText name) {} (lines m.text) =
        mask (lines p.above) (lines p.spot.own) (lines (p.below m.tail)) ↔
      Untouched (openerText name) (lines p.above) ∧
        IsBlock (openerText name) (lines p.spot.own) ∧
        Untouched (openerText name) (lines (p.below m.tail)) := by
  rw [h.lines_eq, keeps_eq_mask_iff p.own_ne_nil p.below_ne_nil]

/-- The tail that the manifest is left with. -/
theorem exists_tail (p : Place m name) :
    ∃ tail : Tail, p.below tail = p.below m.tail ++ lastEnd (p.below m.tail) := by
  rw [lastEnd]
  split_ifs
  · exact ⟨m.tail, (List.append_nil _).symm⟩
  · exact ⟨m.tail.ended, p.below_ended m.tail⟩

theorem Separate.removed (h : p.Separate) :
    ∃ out, zonWithout m.text name = some out ∧ Removed m name out := by
  have hcut := zonWithout_cut h.whole.lines_eq h.above h.block h.below
  rw [(joined_lines_iff h.whole.above).mpr h.returns] at hcut
  obtain ⟨tail, htail⟩ := p.exists_tail
  refine ⟨_, hcut, ⟨p.without tail, ?_, p.without_content tail⟩, p, h.whole,
    (mask_iff h.whole).mpr ⟨h.above, h.block, h.below⟩, rfl⟩
  rw [p.without_text, htail, List.append_assoc]

theorem separate_of_removed {out : List Char} (hout : zonWithout m.text name = some out)
    (h : Removed m name out) : ∃ p : Place m name, p.Separate := by
  obtain ⟨p, hwhole, hkeeps, heq⟩ := h.lines
  obtain ⟨habove, hblock, hbelow⟩ := (mask_iff hwhole).mp hkeeps
  rw [zonWithout_cut hwhole.lines_eq habove hblock hbelow, Option.some.injEq, heq,
    joined_lines_iff hwhole.above] at hout
  exact ⟨p, hwhole, hblock, habove, hbelow, hout⟩

end Place

/-! ## Removing an entry -/

/-- What is asked of `zonWithout` for a name. -/
structure RemovesOnly (m : Manifest) (name : List Char) : Prop where
  entry : name ∈ m.names → ∃ out, zonWithout m.text name = some out ∧ Removed m name out
  other : name ∉ m.names → zonWithout m.text name = none

/-- How the manifest has to be laid out for that. -/
structure Separate (m : Manifest) (name : List Char) : Prop where
  entry : name ∈ m.names → ∃ p : Place m name, p.Separate
  other : name ∉ m.names → Untouched (openerText name) (lines m.text)

/-- One dependency, of one field. -/
def localPackage : Entry :=
  plainField 8 ⟨['a'], by decide⟩
    { dot := []
      items := [plainField 12 ⟨"path".toList, by decide⟩
        ⟨'"' :: ['.', '.', '/', 'a'] ++ ['"'], .scalar (.string (by decide))⟩]
      comma := true
      close := newLine 8 }

def localField : FieldInit (Block Entry) :=
  plainField 4 ⟨dependenciesName, dependenciesName_plain⟩ ⟨[], [localPackage], true, newLine 4⟩

def localManifest : Manifest where
  head := []
  root := ⟨[], [.dependencies localField], true, newLine 0⟩
  tail := ⟨newLine 0, none⟩
  distinct := by decide
  proper := by
    intro item hitem
    rw [List.mem_singleton.mp hitem]
    refine ⟨rfl, by decide, fun entry hentry => ?_⟩
    rw [List.mem_singleton.mp hentry]
    decide

def localPlace : Place localManifest ['a'] where
  front := []
  field := localField
  back := []
  items := rfl
  spot :=
    { front := []
      entry := localPackage
      back := []
      items := rfl
      lead := newLine 0
      indent := (newLine 8).tail
      before := rfl
      inline := newLine 0
      rest := (newLine 4).tail
      next := rfl }
  named := rfl

theorem localPlace_separate : localPlace.Separate where
  whole := ⟨⟨[], rfl⟩, ⟨[], rfl⟩⟩
  block := ⟨by decide, by decide⟩
  above := by unfold Untouched; decide
  below := by unfold Untouched; decide
  returns := ⟨by unfold NoReturn; decide, by unfold NoReturn; decide⟩

end Atomis.ZonManifest
