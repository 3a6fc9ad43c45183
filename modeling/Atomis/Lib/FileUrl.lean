import Mathlib

/-!
# References against a file URL

The part of the URL Standard that reads a relative reference when the base is a file URL: a path
of segments, percent-encoded, with dot segments taken out and the quirks of drive letters.
Whether the caret is percent-encoded in a path depends on the edition of the standard.
-/

namespace Atomis.FileUrl

abbrev Segment := List Char

def percent (b : UInt8) : List Char :=
  ['%', (Nat.digitChar (b.toNat / 16)).toUpper, (Nat.digitChar (b.toNat % 16)).toUpper]

def percentChar (c : Char) : List Char := (String.utf8EncodeChar c).flatMap percent

/-- The path percent-encode set. -/
def inPathSet (caret : Bool) (c : Char) : Bool :=
  c.toNat ≤ 0x1F || 0x7E < c.toNat ||
    [0x20, 0x22, 0x23, 0x3C, 0x3E, 0x3F, 0x60, 0x7B, 0x7D].contains c.toNat ||
    (caret && c = '^')

def encodeChar (caret : Bool) (c : Char) : List Char :=
  if inPathSet caret c then percentChar c else [c]

def encodeText (caret : Bool) (text : List Char) : List Char := text.flatMap (encodeChar caret)

/-! ## Segments -/

def lower (segment : Segment) : Segment := segment.map Char.toLower

def isSingleDot (segment : Segment) : Bool :=
  [".".toList, "%2e".toList].contains (lower segment)

def isDoubleDot (segment : Segment) : Bool :=
  ["..".toList, ".%2e".toList, "%2e.".toList, "%2e%2e".toList].contains (lower segment)

def isDot (segment : Segment) : Bool := isSingleDot segment || isDoubleDot segment

/-- A letter and a colon, or a bar in its place. -/
def isDrive : Segment → Bool
  | [a, b] => a.isAlpha && (b = ':' || b = '|')
  | _ => false

def isNormalDrive : Segment → Bool
  | [a, b] => a.isAlpha && b = ':'
  | _ => false

def normalDrive : Segment → Segment
  | [a, _] => [a, ':']
  | segment => segment

def startsWithDrive : List Char → Bool
  | a :: b :: text => a.isAlpha && (b = ':' || b = '|') &&
      text.head?.all fun c => c = '/' || c = '\\' || c = '?' || c = '#'
  | _ => false

/-- Shortening a path leaves a drive letter that stands alone. -/
def shorten (path : List Segment) : List Segment :=
  match path with
  | [segment] => if isNormalDrive segment then path else []
  | _ => path.dropLast

def isSlash (c : Char) : Bool := c = '/' || c = '\\'

/-- What the path state does with a segment; the last one has no slash behind it. -/
def pathStep (path : List Segment) (segment : Segment) (last : Bool) : List Segment :=
  if isDoubleDot segment then
    if last then shorten path ++ [[]] else shorten path
  else if isSingleDot segment then
    if last then path ++ [[]] else path
  else path ++ [if path = [] ∧ isDrive segment then normalDrive segment else segment]

def pathState (path : List Segment) : List Segment → List Segment
  | [] => path
  | [segment] => pathStep path segment true
  | segment :: segments => pathState (pathStep path segment false) segments

def readPath (caret : Bool) (path : List Segment) (text : List Char) : List Segment :=
  pathState path ((text.splitOnP isSlash).map (encodeText caret))

/-! ## References -/

def pathText (path : List Segment) : List Char := path.flatMap ('/' :: ·)

/-- The serialisation of a file URL with an empty host. -/
def href (path : List Segment) : List Char := "file://".toList ++ pathText path

def isSpaceOrControl (c : Char) : Bool := c.toNat ≤ 0x20

def isTabOrNewline (c : Char) : Bool := [0x09, 0x0A, 0x0D].contains c.toNat

def clean (text : List Char) : List Char :=
  ((text.dropWhile isSpaceOrControl).rdropWhile isSpaceOrControl).filter (!isTabOrNewline ·)

def schemeChar (c : Char) : Bool := c.isAlphanum || c = '+' || c = '-' || c = '.'

/-- A scheme, in lower case, and what is behind its colon. -/
def scheme (text : List Char) : Option (List Char × List Char) :=
  match text with
  | [] => none
  | c :: _ =>
    if c.isAlpha then
      match text.dropWhile schemeChar with
      | ':' :: rest => some (lower (text.takeWhile schemeChar), rest)
      | _ => none
    else none

section Resolve

variable (other : List Char → Option (List Char)) (caret : Bool) (base : List Segment)

def fileState (text : List Char) : Option (List Char) :=
  match text with
  | [] => some (href base)
  | c :: rest =>
    if isSlash c then
      if rest.head?.any isSlash then other text
      else
        let drive := if !startsWithDrive rest ∧ base.head?.any isNormalDrive then base.take 1 else []
        some (href (readPath caret drive rest))
    else if startsWithDrive text then some (href (readPath caret [] text))
    else some (href (readPath caret (shorten base) text))

/-- `other` is what becomes of a reference with a query, a fragment, a host, or a scheme of its
own. -/
def resolve (text : List Char) : Option (List Char) :=
  let text := clean text
  if text.any fun c => c = '?' || c = '#' then other text
  else
    match scheme text with
    | some (name, rest) =>
      if name = "file".toList then fileState other caret base rest else other text
    | none => fileState other caret base text

/-- `new URL(text, base).href`, where the base is a file URL with an empty host. -/
def newUrl (text base : List Char) : Option (List Char) :=
  if "file:///".toList.isPrefixOf base ∧ !base.any (fun c => c = '?' || c = '#') then
    resolve other caret (readPath caret [] (base.drop 8)) text
  else other text

end Resolve

/-! ## Lengths -/

@[simp] theorem pathText_append (left right : List Segment) :
    pathText (left ++ right) = pathText left ++ pathText right := List.flatMap_append

@[simp] theorem pathText_singleton (segment : Segment) : pathText [segment] = '/' :: segment := by
  simp [pathText]

theorem length_dropLast (path : List Segment) :
    (pathText path.dropLast).length ≤ (pathText path).length := by
  cases path using List.reverseRecOn with
  | nil => exact Nat.le_refl _
  | append_singleton path segment =>
    rw [List.dropLast_concat, pathText_append, List.length_append]
    exact Nat.le_add_right _ _

theorem length_shorten (path : List Segment) :
    (pathText (shorten path)).length ≤ (pathText path).length := by
  unfold shorten
  split
  · split_ifs
    · exact Nat.le_refl _
    · exact Nat.zero_le _
  · exact length_dropLast path

theorem length_normalDrive (segment : Segment) : (normalDrive segment).length = segment.length := by
  unfold normalDrive
  split <;> rfl

theorem length_of_isDot {segment : Segment} (h : isDot segment = true) : 0 < segment.length := by
  refine List.length_pos_iff.mpr fun hnil => ?_
  rw [hnil] at h
  exact absurd h (by decide)

/-- A step makes the path no longer than the text it reads, and shorter at a dot segment. -/
theorem length_pathStep (path : List Segment) (segment : Segment) (last : Bool) :
    (pathText (pathStep path segment last)).length + (if isDot segment then 1 else 0) ≤
      (pathText path).length + segment.length + 1 := by
  have hshort := length_shorten path
  by_cases hdouble : isDoubleDot segment
  · have hdot : isDot segment = true := by rw [isDot, hdouble, Bool.or_true]
    have hpos := length_of_isDot hdot
    rw [if_pos hdot]
    cases last with
    | false =>
      rw [pathStep, if_pos hdouble, if_neg Bool.false_ne_true]
      omega
    | true =>
      rw [pathStep, if_pos hdouble, if_pos rfl, pathText_append, pathText_singleton,
        List.length_append, List.length_singleton]
      omega
  by_cases hsingle : isSingleDot segment
  · have hdot : isDot segment = true := by rw [isDot, hsingle, Bool.true_or]
    have hpos := length_of_isDot hdot
    rw [if_pos hdot]
    cases last with
    | false =>
      rw [pathStep, if_neg hdouble, if_pos hsingle, if_neg Bool.false_ne_true]
      omega
    | true =>
      rw [pathStep, if_neg hdouble, if_pos hsingle, if_pos rfl, pathText_append,
        pathText_singleton, List.length_append, List.length_singleton]
      omega
  · have hdot : ¬isDot segment = true := by simp [isDot, hdouble, hsingle]
    have hlength : (if path = [] ∧ isDrive segment then normalDrive segment else segment).length =
        segment.length := by
      split_ifs
      · exact length_normalDrive segment
      · rfl
    rw [if_neg hdot, pathStep, if_neg hdouble, if_neg hsingle, pathText_append,
      pathText_singleton, List.length_append, List.length_cons, hlength]
    exact Nat.le_refl _

/-- How long the text of segments is, each with a slash. -/
def room (segments : List Segment) : ℕ := (segments.map fun segment => segment.length + 1).sum

theorem length_pathText (path : List Segment) : (pathText path).length = room path := by
  induction path with
  | nil => rfl
  | cons segment path ih =>
    rw [room, List.map_cons, List.sum_cons, ← room, ← ih, pathText, List.flatMap_cons,
      List.length_append, List.length_cons, pathText]

@[simp] theorem room_nil : room [] = 0 := rfl

@[simp] theorem room_cons (segment : Segment) (segments : List Segment) :
    room (segment :: segments) = segment.length + 1 + room segments := by
  rw [room, List.map_cons, List.sum_cons, room]

theorem room_pathStep (path : List Segment) (segment : Segment) (last : Bool) :
    room (pathStep path segment last) + (if isDot segment then 1 else 0) ≤
      room path + segment.length + 1 := by
  simpa only [length_pathText] using length_pathStep path segment last

theorem room_pathState (path segments : List Segment) :
    room (pathState path segments) + (if segments.any isDot then 1 else 0) ≤
      room path + room segments := by
  fun_induction pathState path segments with
  | case1 path => exact Nat.le_refl _
  | case2 path segment =>
    have hstep := room_pathStep path segment true
    rw [List.any_cons, List.any_nil, Bool.or_false, room_cons, room_nil]
    omega
  | case3 path segment segments hne ih =>
    have hstep := room_pathStep path segment false
    rw [List.any_cons, room_cons]
    cases hdot : isDot segment
    · rw [hdot, if_neg Bool.false_ne_true] at hstep
      rw [Bool.false_or]
      omega
    · rw [hdot, if_pos rfl] at hstep
      rw [Bool.true_or, if_pos rfl]
      omega

theorem normalDrive_self {segment : Segment} (hdrive : isDrive segment = true)
    (hbar : '|' ∉ segment) : normalDrive segment = segment := by
  unfold isDrive at hdrive
  split at hdrive
  · next a b =>
    simp only [Bool.and_eq_true, Bool.or_eq_true, decide_eq_true_eq] at hdrive
    rcases hdrive.2 with rfl | rfl
    · rfl
    · simp at hbar
  · contradiction

theorem pathStep_plain {path : List Segment} {segment : Segment} (last : Bool)
    (hdot : isDot segment = false) (hdrive : path ≠ [] ∨ '|' ∉ segment) :
    pathStep path segment last = path ++ [segment] := by
  rw [isDot, Bool.or_eq_false_iff] at hdot
  have hkeep : (if path = [] ∧ isDrive segment then normalDrive segment else segment) = segment := by
    split_ifs with h
    · exact normalDrive_self h.2 (hdrive.resolve_left (not_not.mpr h.1))
    · rfl
  rw [pathStep, if_neg (by simp [hdot.2]), if_neg (by simp [hdot.1]), hkeep]

/-- Without dot segments, and with no bar behind a letter at the start, every segment stays. -/
theorem pathState_plain {path segments : List Segment} (hdot : ∀ s ∈ segments, isDot s = false)
    (hdrive : path ≠ [] ∨ ∀ s ∈ segments, '|' ∉ s) :
    pathState path segments = path ++ segments := by
  fun_induction pathState path segments with
  | case1 path => simp
  | case2 path segment => exact pathStep_plain true (hdot segment (by simp)) (by simpa using hdrive)
  | case3 path segment segments hne ih =>
    have hstep := pathStep_plain false (hdot segment (by simp)) (hdrive.imp_right fun h => h segment (by simp))
    rw [hstep] at ih ⊢
    rw [ih (fun s hs => hdot s (List.mem_cons_of_mem _ hs)) (Or.inl (by simp))]
    simp

/-- Into one directory after the other. -/
def descend (path segments : List Segment) : List Segment :=
  segments.foldl (fun path segment => pathStep path segment false) path

theorem pathState_directory (path segments : List Segment) :
    pathState path (segments ++ [[]]) = descend path segments ++ [[]] := by
  induction segments generalizing path with
  | nil => exact pathStep_plain true (by decide) (Or.inr (by simp))
  | cons segment segments ih =>
    obtain ⟨next, rest, hrest⟩ := List.exists_cons_of_ne_nil
      (List.append_ne_nil_of_right_ne_nil segments (List.cons_ne_nil ([] : Segment) []))
    rw [List.cons_append, hrest, pathState, ← hrest, ih]
    · rfl
    · simp

theorem room_descend (segments : List Segment) :
    room (descend [] segments) + (if segments.any isDot then 1 else 0) ≤ room segments := by
  have h := room_pathState [] (segments ++ [[]])
  have hany : (segments ++ [[]]).any isDot = segments.any isDot := by
    rw [List.any_append, List.any_cons, show isDot [] = false by decide]
    simp
  rw [pathState_directory, hany] at h
  simp only [room, List.map_append, List.sum_append] at h ⊢
  simp only [List.map_nil, List.sum_nil, List.map_cons, List.length_nil] at h
  omega

theorem descend_plain {segments : List Segment} (hdot : ∀ s ∈ segments, isDot s = false)
    (hbar : ∀ s ∈ segments, '|' ∉ s) : descend [] segments = segments := by
  have hdot' : ∀ s ∈ segments ++ [[]], isDot s = false := by
    intro s hs
    rcases List.mem_append.mp hs with hs | hs
    · exact hdot s hs
    · rw [List.mem_singleton.mp hs]
      decide
  have hbar' : ∀ s ∈ segments ++ [[]], '|' ∉ s := by
    intro s hs
    rcases List.mem_append.mp hs with hs | hs
    · exact hbar s hs
    · simp [List.mem_singleton.mp hs]
  have h : pathState [] (segments ++ [[]]) = [] ++ (segments ++ [[]]) :=
    pathState_plain hdot' (Or.inr hbar')
  rw [pathState_directory, List.nil_append] at h
  exact List.append_cancel_right h

@[simp] theorem room_append (left right : List Segment) :
    room (left ++ right) = room left + room right := by
  simp [room]

theorem encodeChar_slash (caret : Bool) {c : Char} (h : isSlash c = true) :
    encodeChar caret c = [c] := by
  simp only [isSlash, Bool.or_eq_true, decide_eq_true_eq] at h
  rcases h with rfl | rfl <;> cases caret <;> decide

/-- Splitting takes out the slashes that are counted back in. -/
theorem room_splitOnP {f : Char → List Char} (hf : ∀ c, isSlash c = true → f c = [c])
    (text : List Char) :
    room ((text.splitOnP isSlash).map (List.flatMap f)) = (text.flatMap f).length + 1 := by
  induction text with
  | nil => rfl
  | cons c text ih =>
    rw [List.splitOnP_cons_eq_if_modifyHead, List.flatMap_cons, List.length_append]
    by_cases hc : isSlash c
    · rw [if_pos hc, List.map_cons, room_cons, ih, hf c hc]
      simp only [List.flatMap_nil, List.length_nil, List.length_singleton]
      omega
    · rw [if_neg hc]
      obtain ⟨first, rest, hsplit⟩ := List.exists_cons_of_ne_nil (List.splitOnP_ne_nil isSlash text)
      rw [hsplit, List.map_cons, room_cons] at ih
      rw [hsplit, List.modifyHead_cons, List.map_cons, room_cons, List.flatMap_cons,
        List.length_append]
      omega

theorem room_readPath (caret : Bool) (path : List Segment) (text : List Char) :
    room (readPath caret path text) ≤ room path + (encodeText caret text).length + 1 := by
  have hpath := room_pathState path ((text.splitOnP isSlash).map (encodeText caret))
  have hroom := room_splitOnP (fun c => encodeChar_slash caret) text
  change room ((text.splitOnP isSlash).map (encodeText caret)) = (encodeText caret text).length + 1
    at hroom
  rw [readPath]
  omega

section Directory

variable {other : List Char → Option (List Char)} {caret : Bool} {dir : List Segment}

theorem shorten_directory (dir : List Segment) : shorten (dir ++ [[]]) = dir := by
  unfold shorten
  split
  · next segment h =>
    cases dir with
    | nil =>
      obtain rfl : [] = segment := by simpa using h
      rfl
    | cons first dir => simp at h
  · rw [List.dropLast_concat]

theorem room_drive (dir : List Segment) (text : List Char) :
    room (if !startsWithDrive text ∧ (dir ++ [[]]).head?.any isNormalDrive then
      (dir ++ [[]]).take 1 else []) ≤ room dir := by
  cases dir with
  | nil => simp [isNormalDrive]
  | cons first dir => split_ifs <;> simp

/-- The URL of a reference in a directory has no more room than the directory and the text. -/
theorem fileState_room {text url : List Char}
    (hhost : ∀ c d rest, text = c :: d :: rest → isSlash c = true → isSlash d = false)
    (h : fileState other caret (dir ++ [[]]) text = some url) :
    ∃ path, url = href path ∧ room path ≤ room dir + (encodeText caret text).length + 1 := by
  cases text with
  | nil =>
    refine ⟨dir ++ [[]], (Option.some.inj h).symm, ?_⟩
    simp [encodeText]
  | cons c rest =>
    rw [fileState] at h
    by_cases hslash : isSlash c
    · have hboth : ¬rest.head?.any isSlash = true := by
        cases rest with
        | nil => simp
        | cons d rest => simp [hhost c d rest rfl hslash]
      rw [if_pos hslash, if_neg hboth] at h
      refine ⟨_, (Option.some.inj h).symm, ?_⟩
      have htext : (encodeText caret (c :: rest)).length = (encodeText caret rest).length + 1 := by
        rw [encodeText, List.flatMap_cons, encodeChar_slash caret hslash]
        rfl
      have hdrive := room_drive dir rest
      have hread := room_readPath caret
        (if !startsWithDrive rest ∧ (dir ++ [[]]).head?.any isNormalDrive then (dir ++ [[]]).take 1
          else []) rest
      omega
    · rw [if_neg hslash] at h
      split_ifs at h with hletter
      · refine ⟨_, (Option.some.inj h).symm, ?_⟩
        have hread := room_readPath caret [] (c :: rest)
        rw [room_nil] at hread
        omega
      · refine ⟨_, (Option.some.inj h).symm, ?_⟩
        rw [shorten_directory]
        exact room_readPath caret dir (c :: rest)

/-- A reference that begins with neither a slash nor a drive letter. -/
theorem fileState_relative {text : List Char} (hslash : ¬text.head?.any isSlash = true)
    (hdrive : startsWithDrive text = false) (hne : text ≠ []) :
    fileState other caret (dir ++ [[]]) text = some (href (readPath caret dir text)) := by
  cases text with
  | nil => contradiction
  | cons c rest =>
    rw [fileState, if_neg (by simpa using hslash), if_neg (by simp [hdrive]), shorten_directory]

end Directory

/-! ## What a reference is read without -/

theorem mem_of_mem_clean {text : List Char} {c : Char} (h : c ∈ clean text) : c ∈ text := by
  have hright := List.rdropWhile_prefix isSpaceOrControl (l := text.dropWhile isSpaceOrControl)
  have hleft := List.dropWhile_suffix (l := text) isSpaceOrControl
  exact hleft.subset (hright.subset (List.mem_of_mem_filter h))

theorem any_clean {text : List Char} {p : Char → Bool} (h : text.any p = false) :
    (clean text).any p = false := by
  rw [List.any_eq_false] at h ⊢
  exact fun c hc => h c (mem_of_mem_clean hc)

theorem clean_infix {text : List Char} (htab : ∀ c ∈ text, isTabOrNewline c = false) :
    ∃ front behind, text = front ++ clean text ++ behind := by
  obtain ⟨front, hfront⟩ := List.dropWhile_suffix (l := text) isSpaceOrControl
  obtain ⟨behind, hbehind⟩ := List.rdropWhile_prefix isSpaceOrControl
    (l := text.dropWhile isSpaceOrControl)
  have hclean : clean text = (text.dropWhile isSpaceOrControl).rdropWhile isSpaceOrControl := by
    refine List.filter_eq_self.mpr fun c hc => ?_
    have hmem : c ∈ text := by
      rw [← hfront, ← hbehind]
      exact List.mem_append_right _ (List.mem_append_left _ hc)
    rw [htab c hmem, Bool.not_false]
  refine ⟨front, behind, ?_⟩
  rw [hclean, List.append_assoc, hbehind, hfront]

theorem clean_eq_iff {text : List Char} (htab : ∀ c ∈ text, isTabOrNewline c = false) :
    clean text = text ↔
      text.head?.any isSpaceOrControl = false ∧ text.getLast?.any isSpaceOrControl = false := by
  constructor
  · intro h
    have hlength : text.length ≤ ((text.dropWhile isSpaceOrControl).rdropWhile isSpaceOrControl).length := by
      conv_lhs => rw [← h]
      exact List.length_filter_le _ _
    have hright := (List.rdropWhile_prefix isSpaceOrControl (l := text.dropWhile isSpaceOrControl))
    have hleft := List.dropWhile_suffix (l := text) isSpaceOrControl
    have hdrop : text.dropWhile isSpaceOrControl = text :=
      hleft.eq_of_length_le (hlength.trans hright.length_le)
    have hrdrop : text.rdropWhile isSpaceOrControl = text := by
      rw [hdrop] at hright hlength
      exact hright.eq_of_length_le hlength
    cases text using List.reverseRecOn with
    | nil => exact ⟨rfl, rfl⟩
    | append_singleton text c =>
      have hlast := List.rdropWhile_eq_self_iff.mp hrdrop (by simp)
      have hfirst := List.dropWhile_eq_self_iff.mp hdrop (by simp)
      rw [List.getLast_append_singleton] at hlast
      rw [← List.head_eq_getElem_zero (by simp)] at hfirst
      rw [List.head?_eq_some_head (by simp), List.getLast?_concat]
      exact ⟨Bool.eq_false_iff.mpr hfirst, Bool.eq_false_iff.mpr hlast⟩
  · rintro ⟨hfirst, hlast⟩
    have hdrop : text.dropWhile isSpaceOrControl = text := by
      cases text with
      | nil => rfl
      | cons c text => exact List.dropWhile_cons_of_neg (Bool.eq_false_iff.mp hfirst)
    have hrdrop : text.rdropWhile isSpaceOrControl = text := by
      cases text using List.reverseRecOn with
      | nil => rfl
      | append_singleton text c =>
        rw [List.getLast?_concat] at hlast
        exact List.rdropWhile_concat_neg _ _ _ (Bool.eq_false_iff.mp hlast)
    rw [clean, hdrop, hrdrop]
    exact List.filter_eq_self.mpr fun c hc => by rw [htab c hc, Bool.not_false]

theorem scheme_split {text name rest : List Char} (h : scheme text = some (name, rest)) :
    text = text.takeWhile schemeChar ++ ':' :: rest ∧ name = lower (text.takeWhile schemeChar) := by
  unfold scheme at h
  split at h
  · contradiction
  · next c text =>
    split_ifs at h
    split at h
    · next rest' hrest =>
      obtain ⟨rfl, rfl⟩ := Prod.mk.inj (Option.some.inj h)
      exact ⟨by rw [← hrest, List.takeWhile_append_dropWhile], rfl⟩
    · contradiction

theorem schemeChar_colon : schemeChar ':' = false := by decide

theorem scheme_none {text : List Char} (h : scheme text = none) (hbar : '|' ∉ text) :
    startsWithDrive text = false := by
  by_contra hdrive
  rw [Bool.not_eq_false] at hdrive
  unfold startsWithDrive at hdrive
  split at hdrive
  · next a b text =>
    simp only [Bool.and_eq_true, Bool.or_eq_true, decide_eq_true_eq] at hdrive
    obtain ⟨⟨halpha, hcolon | hbar'⟩, -⟩ := hdrive
    · have ha : schemeChar a = true := by simp [schemeChar, Char.isAlphanum, halpha]
      rw [hcolon, scheme, if_pos halpha, List.dropWhile_cons_of_pos ha,
        List.dropWhile_cons_of_neg (by simp [schemeChar_colon])] at h
      contradiction
    · exact hbar (by simp [hbar'])
  · contradiction

theorem percent_ne_nil (b : UInt8) : percent b ≠ [] := List.cons_ne_nil _ _

theorem encodeChar_pos (caret : Bool) (c : Char) : 0 < (encodeChar caret c).length := by
  refine List.length_pos_iff.mpr fun hnil => ?_
  rw [encodeChar] at hnil
  split_ifs at hnil
  have hbytes : String.utf8EncodeChar c ≠ [] := by
    intro h
    have hlength := congrArg List.length h
    have hsize := c.utf8Size_pos
    rw [String.length_utf8EncodeChar] at hlength
    simp only [List.length_nil] at hlength
    omega
  obtain ⟨b, bytes, hcons⟩ := List.exists_cons_of_ne_nil hbytes
  rw [percentChar, hcons, List.flatMap_cons] at hnil
  exact percent_ne_nil b (List.append_eq_nil_iff.mp hnil).1

theorem encodeText_append (caret : Bool) (left right : List Char) :
    encodeText caret (left ++ right) = encodeText caret left ++ encodeText caret right :=
  List.flatMap_append

theorem length_encodeText (caret : Bool) (text : List Char) :
    text.length ≤ (encodeText caret text).length := by
  induction text with
  | nil => exact Nat.le_refl _
  | cons c text ih =>
    have hpos := encodeChar_pos caret c
    rw [encodeText, List.flatMap_cons, ← encodeText, List.length_append, List.length_cons]
    omega

section Room

variable {other : List Char → Option (List Char)} {caret : Bool} {dir : List Segment}

/-- The URL has room to spare when spaces or a scheme are taken off the reference. -/
theorem resolve_room {text url : List Char}
    (hmark : text.any (fun c => c = '?' || c = '#') = false)
    (htab : ∀ c ∈ text, isTabOrNewline c = false)
    (hhost : ∀ c d front rest, text = front ++ c :: d :: rest → isSlash c = true → isSlash d = false)
    (hscheme : ∀ name rest, scheme (clean text) = some (name, rest) → name = "file".toList)
    (h : resolve other caret (dir ++ [[]]) text = some url) :
    ∃ path, url = href path ∧ room path + (if clean text = text ∧ scheme text = none then 0 else 1) ≤
      room dir + (encodeText caret text).length + 1 := by
  obtain ⟨front, behind, htext⟩ := clean_infix htab
  have hroom : (encodeText caret text).length = (encodeText caret front).length +
      (encodeText caret (clean text)).length + (encodeText caret behind).length := by
    conv_lhs => rw [htext]
    rw [encodeText_append, encodeText_append, List.length_append, List.length_append]
  have hcut : clean text ≠ text → 0 < front.length + behind.length := by
    intro hne
    by_contra hzero
    obtain rfl := List.length_eq_zero_iff.mp (show front.length = 0 by omega)
    obtain rfl := List.length_eq_zero_iff.mp (show behind.length = 0 by omega)
    rw [List.nil_append, List.append_nil] at htext
    exact hne htext.symm
  have hfront := length_encodeText caret front
  have hbehind := length_encodeText caret behind
  simp only [resolve] at h
  rw [if_neg (Bool.eq_false_iff.mp (any_clean hmark))] at h
  cases hread : scheme (clean text) with
  | none =>
    rw [hread] at h
    obtain ⟨path, hurl, hpath⟩ := fileState_room (fun c d rest hrest => hhost c d front (rest ++ behind)
      (by rw [htext, hrest]; simp)) h
    refine ⟨path, hurl, ?_⟩
    by_cases hclean : clean text = text
    · rw [hclean] at hread hpath
      rw [if_pos ⟨hclean, hread⟩]
      omega
    · have hspare := hcut hclean
      rw [if_neg fun hboth => hclean hboth.1]
      omega
  | some found =>
    obtain ⟨name, rest⟩ := found
    rw [hread] at h
    simp only [hscheme name rest hread, if_true] at h
    have hsplit := (scheme_split hread).1
    obtain ⟨path, hurl, hpath⟩ := fileState_room (fun c d rest' hrest =>
      hhost c d (front ++ ((clean text).takeWhile schemeChar ++ [':'])) (rest' ++ behind)
        (by
          conv_lhs => rw [htext, hsplit, hrest]
          simp)) h
    refine ⟨path, hurl, ?_⟩
    have hshort : (encodeText caret (clean text)).length =
        (encodeText caret ((clean text).takeWhile schemeChar ++ [':'])).length +
          (encodeText caret rest).length := by
      conv_lhs => rw [hsplit]
      rw [← List.length_append, ← encodeText_append, List.append_assoc]
      rfl
    have hpos := length_encodeText caret ((clean text).takeWhile schemeChar ++ [':'])
    rw [List.length_append, List.length_singleton] at hpos
    split_ifs <;> omega

end Room

end Atomis.FileUrl
