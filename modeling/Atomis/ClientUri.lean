import Atomis.Lib.FileUrl
import Atomis.Lib.Utf8
import Atomis.Session

/-!
# The URI of a file on both sides

The server percent-encodes the path of a file; the page resolves the path against the directory
of the entry file, as the URL Standard does it. Both checks of a project path are here, and what
a path must be like for the two URIs to be one.
-/

namespace Atomis.ClientUri
open Protocol FileUrl

/-! ## The page -/

def isValidProjectPath (path : String) : Bool :=
  let text := path.toList
  !(path = "" || text.head? = some '/' || text.contains '\\') &&
    !(text.contains '#' || text.contains '?') && text.all (fun c => 0x20 ≤ c.toNat) &&
    path.utf8ByteSize ≤ 240 &&
    !((parts path).any fun part => part = [] || part = ['.'] || part = ['.', '.'])

/-- The directory of the entry file. -/
def baseOf (documentUri : String) : List Char := documentUri.toList.rdropWhile (· ≠ '/')

/-- `new URL(path, base).href` -/
def clientUri (other : List Char → Option (List Char)) (caret : Bool) (documentUri path : String) :
    Option (List Char) :=
  newUrl other caret path.toList (baseOf documentUri)

theorem isValidProjectPath_server {path : String} (h : isValidProjectPath path = true) :
    projectPathOk path = true := by
  simp only [isValidProjectPath, Bool.and_eq_true, Bool.not_eq_true', Bool.or_eq_false_iff,
    decide_eq_false_iff_not, decide_eq_true_eq, List.all_eq_true, List.any_eq_false] at h
  obtain ⟨⟨⟨⟨⟨⟨hempty, hslash⟩, hback⟩, -⟩, hcontrol⟩, hsize⟩, hparts⟩ := h
  simp only [projectPathOk, Bool.and_eq_true, decide_eq_true_eq, Bool.not_eq_true', List.all_eq_true,
    List.any_eq_false, validPart]
  refine ⟨⟨⟨⟨⟨hempty, hsize⟩, hslash⟩, hback⟩, fun c hc => not_lt.mpr (hcontrol c hc)⟩, ?_⟩
  intro part hpart
  simpa [and_assoc] using hparts part hpart

/-! ## The server's encoding by characters -/

def urlChar (c : Char) : Bool :=
  c.toNat < 128 && (c.isAlphanum || "/-._~!$&'()*+,;=:@".toList.contains c)

def serverChar (c : Char) : List Char := if urlChar c then [c] else percentChar c

def serverText (text : List Char) : List Char := text.flatMap serverChar

theorem percent_eq (b : UInt8) :
    percent b = ['%', hexDigit (b.toNat / 16), hexDigit (b.toNat % 16)] := rfl

theorem toUTF8_toList (text : String) :
    text.toUTF8.data.toList = text.toList.flatMap String.utf8EncodeChar := by
  change text.toByteArray.data.toList = _
  rw [← String.utf8Encode_toList]
  exact List.toList_data_toByteArray

theorem utf8EncodeChar_high {c : Char} (hc : 128 ≤ c.toNat) :
    ∀ b ∈ String.utf8EncodeChar c, 128 ≤ b.toNat := by
  have hvalid := c.valid
  simp only [UInt32.isValidChar, Nat.isValidChar] at hvalid
  change 128 ≤ c.val.toNat at hc
  simp only [String.utf8EncodeChar]
  set v := c.val.toNat with hv
  intro b hb
  split_ifs at hb with h₁ h₂ h₃
  · omega
  all_goals
    simp only [List.mem_cons, List.not_mem_nil, or_false] at hb
    rcases hb with rfl | rfl | rfl | rfl <;> rw [Utf8.toNat_ofNat (by omega)] <;> omega

theorem ascii_cases {p : Char → Prop} (h : ∀ n < 128, p (Char.ofNat n)) {c : Char}
    (hc : c.toNat < 128) : p c := by
  simpa using h c.toNat hc

theorem urlByte_ascii {c : Char} (hc : c.toNat < 128) :
    urlByte (UInt8.ofNat c.toNat) = urlChar c := by
  have hnat : (UInt8.ofNat c.toNat).toNat = c.toNat := Utf8.toNat_ofNat (by omega)
  rw [urlByte, hnat, Char.ofNat_toNat, urlChar]

theorem serverBytes_char (c : Char) : ((String.utf8EncodeChar c).flatMap fun b =>
    if urlByte b then [Char.ofNat b.toNat]
    else ['%', hexDigit (b.toNat / 16), hexDigit (b.toNat % 16)]) = serverChar c := by
  by_cases hc : c.toNat < 128
  · have hnat : (UInt8.ofNat c.toNat).toNat = c.toNat := Utf8.toNat_ofNat (by omega)
    rw [serverChar, percentChar, Utf8.encodeChar_ascii hc, List.flatMap_singleton,
      List.flatMap_singleton, urlByte_ascii hc, hnat, Char.ofNat_toNat, percent_eq, hnat]
  · have hencoded : urlChar c = false := by simp [urlChar, hc]
    rw [serverChar, if_neg (by simp [hencoded]), percentChar]
    refine List.flatMap_congr fun b hb => ?_
    have hhigh := utf8EncodeChar_high (not_lt.mp hc) b hb
    have hbyte : urlByte b = false := by simp [urlByte, not_lt.mpr hhigh]
    rw [hbyte, percent_eq]
    rfl

theorem pathToFileUrl_toList (path : String) :
    (pathToFileUrl path).toList = "file://".toList ++ serverText path.toList := by
  have hbytes : (path.toUTF8.data.toList.flatMap fun b =>
      if urlByte b then [Char.ofNat b.toNat]
      else ['%', hexDigit (b.toNat / 16), hexDigit (b.toNat % 16)]) = serverText path.toList := by
    rw [toUTF8_toList, List.flatMap_assoc, serverText]
    exact congrArg (List.flatMap · path.toList) (funext serverBytes_char)
  unfold pathToFileUrl
  rw [hbytes]
  exact String.toList_ofList

/-- The characters that only the server encodes, in a path that both accept. -/
def leftRaw (caret : Bool) (c : Char) : Bool :=
  ['%', '[', ']', '|', '\\'].contains c || (!caret && c = '^')

theorem percentChar_high {c : Char} (hc : 128 ≤ c.toNat) (caret : Bool) :
    leftRaw caret c = false ∧ encodeChar caret c = percentChar c ∧ serverChar c = percentChar c := by
  have hne (d : Char) (hd : d.toNat < 128) : c ≠ d := fun h => by
    rw [h] at hc
    omega
  refine ⟨?_, ?_, ?_⟩
  · simp [leftRaw, hne '%' (by decide), hne '[' (by decide), hne ']' (by decide),
      hne '|' (by decide), hne '\\' (by decide), hne '^' (by decide)]
  · rw [encodeChar, if_pos]
    simp only [inPathSet, Bool.or_eq_true, decide_eq_true_eq]
    omega
  · rw [serverChar, if_neg]
    simp [urlChar, not_lt.mpr hc]

theorem encodeChar_server (caret : Bool) {c : Char} (h : leftRaw caret c = false) :
    encodeChar caret c = serverChar c := by
  by_cases hc : c.toNat < 128
  · refine ascii_cases (p := fun c => leftRaw caret c = false → encodeChar caret c = serverChar c)
      ?_ hc h
    cases caret <;> decide +kernel
  · obtain ⟨-, hpage, hserver⟩ := percentChar_high (not_lt.mp hc) caret
    rw [hpage, hserver]

theorem encodeChar_shorter (caret : Bool) {c : Char} (h : leftRaw caret c = true) :
    (encodeChar caret c).length < (serverChar c).length := by
  by_cases hc : c.toNat < 128
  · refine ascii_cases (p := fun c => leftRaw caret c = true →
      (encodeChar caret c).length < (serverChar c).length) ?_ hc h
    cases caret <;> decide +kernel
  · rw [(percentChar_high (not_lt.mp hc) caret).1] at h
    contradiction

/-! ## What the server's text is made of -/

theorem hexDigit_mem {n : ℕ} (h : n < 16) : hexDigit n ∈ "0123456789ABCDEF".toList := by
  have hall : ∀ n < 16, hexDigit n ∈ "0123456789ABCDEF".toList := by decide
  exact hall n h

theorem mem_serverChar {c d : Char} (h : d ∈ serverChar c) :
    d = c ∧ urlChar c = true ∨ d ∈ "%0123456789ABCDEF".toList := by
  rw [serverChar] at h
  split_ifs at h with hsafe
  · exact Or.inl ⟨List.mem_singleton.mp h, hsafe⟩
  · obtain ⟨b, -, hb⟩ := List.mem_flatMap.mp h
    rw [percent_eq] at hb
    have hhigh := hexDigit_mem (n := b.toNat / 16) (by have := b.toNat_lt; omega)
    have hlow := hexDigit_mem (n := b.toNat % 16) (by omega)
    refine Or.inr ?_
    simp only [List.mem_cons, List.not_mem_nil, or_false] at hb
    rcases hb with rfl | rfl | rfl
    · decide
    · exact List.mem_cons_of_mem _ hhigh
    · exact List.mem_cons_of_mem _ hlow

/-- What is never percent-encoded again, and is no bar, backslash, question mark or number sign. -/
def settled (c : Char) : Bool :=
  !inPathSet true c && !(['|', '\\', '?', '#', ' '].contains c)

theorem settled_of_mem {text : List Char} {d : Char} (h : d ∈ serverText text) :
    settled d = true := by
  obtain ⟨c, -, hd⟩ := List.mem_flatMap.mp h
  rcases mem_serverChar hd with ⟨rfl, hsafe⟩ | hhex
  · have hascii : d.toNat < 128 := by
      simp only [urlChar, Bool.and_eq_true, decide_eq_true_eq] at hsafe
      exact hsafe.1
    refine ascii_cases (p := fun c => urlChar c = true → settled c = true) ?_ hascii hsafe
    decide +kernel
  · exact List.all_eq_true.mp (show "%0123456789ABCDEF".toList.all settled = true by decide) d hhex

theorem encodeChar_settled (caret : Bool) {c : Char} (h : settled c = true) :
    encodeChar caret c = [c] := by
  rw [encodeChar, if_neg]
  simp only [settled, inPathSet, Bool.and_eq_true, Bool.not_eq_true', Bool.or_eq_false_iff] at h
  obtain ⟨⟨⟨⟨hlow, hhigh⟩, hset⟩, hcaret⟩, -⟩ := h
  rw [Bool.true_and] at hcaret
  simp only [inPathSet, hlow, hhigh, hset, hcaret, Bool.and_false, Bool.or_false]
  exact Bool.false_ne_true

theorem encodeText_serverText (caret : Bool) (text : List Char) :
    encodeText caret (serverText text) = serverText text := by
  rw [encodeText]
  conv_rhs => rw [← List.flatMap_singleton' (serverText text)]
  exact List.flatMap_congr fun c hc => encodeChar_settled caret (settled_of_mem hc)

theorem slash_mem_serverText {text : List Char} (h : '/' ∉ text) : '/' ∉ serverText text := by
  intro hmem
  obtain ⟨c, hc, hd⟩ := List.mem_flatMap.mp hmem
  rcases mem_serverChar hd with ⟨rfl, -⟩ | hhex
  · exact h hc
  · exact absurd hhex (by decide)

/-! ## Reading the server's text back -/

def serverByte (b : UInt8) : List Char := if urlByte b then [Char.ofNat b.toNat] else percent b

def utf8 (text : List Char) : List UInt8 := text.flatMap String.utf8EncodeChar

theorem serverText_bytes (text : List Char) : serverText text = (utf8 text).flatMap serverByte := by
  rw [utf8, List.flatMap_assoc, serverText]
  exact congrArg (List.flatMap · text) (funext fun c => (serverBytes_char c).symm)

theorem utf8_injective : Function.Injective utf8 := by
  intro left right h
  have hbytes (text : List Char) : text.utf8Encode = ⟨⟨utf8 text⟩⟩ := by
    have htext := toUTF8_toList (String.ofList text)
    rw [String.toList_ofList] at htext
    rw [utf8, ← htext]
    change _ = (String.ofList text).toByteArray
    rw [← String.utf8Encode_toList, String.toList_ofList]
  have hencode : left.utf8Encode = right.utf8Encode := by rw [hbytes, hbytes, h]
  exact String.ofList_injective (String.toByteArray_inj.mp hencode)

theorem hexDigit_inj {m n : ℕ} (hm : m < 16) (hn : n < 16) (h : hexDigit m = hexDigit n) :
    m = n := by
  have hall : ∀ m < 16, ∀ n < 16, hexDigit m = hexDigit n → m = n := by decide
  exact hall m hm n hn h

theorem urlByte_ne_percent {b : UInt8} (h : urlByte b = true) : Char.ofNat b.toNat ≠ '%' := by
  intro hpercent
  simp only [urlByte, hpercent, Bool.and_eq_true] at h
  exact absurd h.2 (by decide)

theorem toNat_ofNat_ascii {n : ℕ} (h : n < 128) : (Char.ofNat n).toNat = n := by
  have hall : ∀ n < 128, (Char.ofNat n).toNat = n := by decide
  exact hall n h

theorem urlByte_low {b : UInt8} (h : urlByte b = true) : b.toNat < 128 := by
  simp only [urlByte, Bool.and_eq_true, decide_eq_true_eq] at h
  exact h.1

theorem urlByte_inj {b d : UInt8} (hb : urlByte b = true) (hd : urlByte d = true)
    (h : Char.ofNat b.toNat = Char.ofNat d.toNat) : b = d := by
  have hnat := congrArg Char.toNat h
  rw [toNat_ofNat_ascii (urlByte_low hb), toNat_ofNat_ascii (urlByte_low hd)] at hnat
  exact UInt8.toNat_inj.mp hnat

theorem serverByte_append_injective {b d : UInt8} {left right : List Char}
    (h : serverByte b ++ left = serverByte d ++ right) : b = d ∧ left = right := by
  rw [serverByte, serverByte] at h
  split_ifs at h with hb hd hd
  · obtain ⟨hchar, htail⟩ := List.cons.inj h
    exact ⟨urlByte_inj hb hd hchar, htail⟩
  · exact absurd (List.cons.inj h).1 (urlByte_ne_percent hb)
  · exact absurd (List.cons.inj h).1.symm (urlByte_ne_percent hd)
  · rw [percent_eq, percent_eq] at h
    obtain ⟨-, h⟩ := List.cons.inj h
    obtain ⟨hhigh, h⟩ := List.cons.inj h
    obtain ⟨hlow, htail⟩ := List.cons.inj h
    have hsize := b.toNat_lt
    have hsize' := d.toNat_lt
    have hhigh' := hexDigit_inj (by omega) (by omega) hhigh
    have hlow' := hexDigit_inj (by omega) (by omega) hlow
    exact ⟨UInt8.toNat_inj.mp (by omega), htail⟩

theorem serverByte_ne_nil (b : UInt8) : serverByte b ≠ [] := by
  rw [serverByte]
  split_ifs <;> simp [percent]

theorem serverBytes_injective {left right : List UInt8}
    (h : left.flatMap serverByte = right.flatMap serverByte) : left = right := by
  induction left generalizing right with
  | nil =>
    cases right with
    | nil => rfl
    | cons d right =>
      rw [List.flatMap_nil, List.flatMap_cons] at h
      exact absurd (List.append_eq_nil_iff.mp h.symm).1 (serverByte_ne_nil d)
  | cons b left ih =>
    cases right with
    | nil =>
      rw [List.flatMap_nil, List.flatMap_cons] at h
      exact absurd (List.append_eq_nil_iff.mp h).1 (serverByte_ne_nil b)
    | cons d right =>
      rw [List.flatMap_cons, List.flatMap_cons] at h
      obtain ⟨hhead, htail⟩ := serverByte_append_injective h
      rw [hhead, ih htail]

theorem serverText_injective : Function.Injective serverText := by
  intro left right h
  rw [serverText_bytes, serverText_bytes] at h
  exact utf8_injective (serverBytes_injective h)

/-- A full stop is never encoded, and nothing else reads as one. -/
theorem lower_serverByte (b : UInt8) : ¬(lower (serverByte b)).isPrefixOf "%2e".toList = true ∧
    ((lower (serverByte b)).head? = some '.' → serverByte b = ['.'] ∧ b = 0x2E) := by
  have hall : ∀ n < 256, ¬(lower (serverByte (UInt8.ofNat n))).isPrefixOf "%2e".toList = true ∧
      ((lower (serverByte (UInt8.ofNat n))).head? = some '.' →
        serverByte (UInt8.ofNat n) = ['.'] ∧ UInt8.ofNat n = 0x2E) := by decide +kernel
  have h := hall b.toNat b.toNat_lt
  rwa [UInt8.ofNat_toNat] at h

theorem lower_append (left right : List Char) : lower (left ++ right) = lower left ++ lower right :=
  List.map_append

theorem serverBytes_stop {bytes : List UInt8} {t : List Char}
    (h : lower (bytes.flatMap serverByte) = '.' :: t) :
    ∃ rest, bytes = 0x2E :: rest ∧ lower (rest.flatMap serverByte) = t := by
  cases bytes with
  | nil => exact absurd h (List.cons_ne_nil _ _).symm
  | cons b rest =>
    rw [List.flatMap_cons, lower_append] at h
    have hne : lower (serverByte b) ≠ [] := fun hnil => serverByte_ne_nil b (List.map_eq_nil_iff.mp hnil)
    have hhead : (lower (serverByte b)).head? = some '.' := by
      rw [← List.head?_append_of_ne_nil _ hne, h, List.head?_cons]
    obtain ⟨hbyte, hb⟩ := (lower_serverByte b).2 hhead
    rw [hbyte, show lower ['.'] = ['.'] by decide] at h
    exact ⟨rest, by rw [hb], (List.cons.inj h).2⟩

theorem serverBytes_no_stop_escape (bytes : List UInt8) (text : List Char) :
    lower (bytes.flatMap serverByte) ≠ "%2e".toList ++ text := by
  intro h
  cases bytes with
  | nil => exact absurd (List.append_eq_nil_iff.mp h.symm).1 (by decide)
  | cons b rest =>
    rw [List.flatMap_cons, lower_append] at h
    have hlength : (lower (serverByte b)).length ≤ "%2e".toList.length := by
      rw [lower, List.length_map, serverByte]
      split_ifs
      · exact (by decide : 1 ≤ "%2e".toList.length)
      · exact (by decide : 3 ≤ "%2e".toList.length)
    have hboth : lower (serverByte b) <+: "%2e".toList ++ text := h ▸ List.prefix_append _ _
    have hprefix : lower (serverByte b) <+: "%2e".toList :=
      List.prefix_of_prefix_length_le hboth (List.prefix_append _ _) hlength
    exact (lower_serverByte b).1 (List.isPrefixOf_iff_prefix.mpr hprefix)

theorem serverBytes_nil {bytes : List UInt8} (h : lower (bytes.flatMap serverByte) = []) :
    bytes = [] :=
  serverBytes_injective (List.map_eq_nil_iff.mp h)

/-- A name reads as a dot segment only when it is one. -/
theorem isDot_serverText {text : List Char} (h : isDot (serverText text) = true) :
    text = ['.'] ∨ text = ['.', '.'] := by
  rw [serverText_bytes] at h
  simp only [isDot, isSingleDot, isDoubleDot, Bool.or_eq_true, List.contains_iff_mem,
    List.mem_cons, List.not_mem_nil, or_false] at h
  have hone : utf8 ['.'] = [0x2E] := by decide
  have htwo : utf8 ['.', '.'] = [0x2E, 0x2E] := by decide
  rcases h with (hstop | hescape) | hstops | hstop | hescape | hescape
  · obtain ⟨rest, hbytes, hrest⟩ := serverBytes_stop (t := []) hstop
    rw [serverBytes_nil hrest, ← hone] at hbytes
    exact Or.inl (utf8_injective hbytes)
  · exact absurd hescape (serverBytes_no_stop_escape _ [])
  · obtain ⟨rest, hbytes, hrest⟩ := serverBytes_stop (t := ['.']) hstops
    obtain ⟨rest', hbytes', hrest'⟩ := serverBytes_stop hrest
    rw [hbytes', serverBytes_nil hrest', ← htwo] at hbytes
    exact Or.inr (utf8_injective hbytes)
  · obtain ⟨rest, -, hrest⟩ := serverBytes_stop (t := "%2e".toList) hstop
    exact absurd hrest (serverBytes_no_stop_escape rest [])
  · exact absurd hescape (serverBytes_no_stop_escape _ ['.'])
  · exact absurd hescape (serverBytes_no_stop_escape _ "%2e".toList)

/-! ## The base -/

theorem splitOnP_slash {text : List Char} (h : '\\' ∉ text) :
    text.splitOnP isSlash = text.splitOn '/' := by
  induction text with
  | nil => rfl
  | cons c text ih =>
    have hc : isSlash c = (c == '/') := by
      have hne : c ≠ '\\' := fun heq => h (by simp [heq])
      simp [isSlash, hne, Bool.beq_eq_decide_eq]
    rw [List.splitOnP_cons_eq_if_modifyHead, List.splitOn_cons_eq_if_modifyHead,
      ih fun hmem => h (List.mem_cons_of_mem _ hmem), hc]

/-- The segments of a directory, behind its first slash. -/
def dirText (segments : List Segment) : List Char := (pathText segments ++ ['/']).drop 1

theorem pathText_intercalate {segments : List Segment} (hne : segments ≠ []) :
    pathText segments = '/' :: List.intercalate ['/'] segments := by
  induction segments with
  | nil => contradiction
  | cons segment segments ih =>
    cases segments with
    | nil => simp
    | cons next segments =>
      rw [List.intercalate_cons_cons, pathText, List.flatMap_cons, ← pathText, ih (by simp)]
      simp

theorem splitOn_dirText {segments : List Segment} (hslash : ∀ s ∈ segments, '/' ∉ s) :
    (dirText segments).splitOn '/' = segments ++ [[]] := by
  have htext : dirText segments = List.intercalate ['/'] (segments ++ [[]]) := by
    rw [dirText, show pathText segments ++ ['/'] = pathText (segments ++ [[]]) by simp,
      pathText_intercalate (by simp), List.drop_one, List.tail_cons]
  rw [htext]
  refine List.splitOn_intercalate '/' ?_ (by simp)
  intro s hs
  rcases List.mem_append.mp hs with hs | hs
  · exact hslash s hs
  · simp [List.mem_singleton.mp hs]

theorem sourceRoot_ne_nil (session : Session) : session.sourceRoot ≠ [] := by
  simp [Session.sourceRoot]

theorem toList_sourcePath {session : Session} {path : String} (h : path.toList.head? ≠ some '/') :
    (session.sourcePath path).toList =
      pathText (session.sourceRoot.map String.toList) ++ '/' :: path.toList := by
  rw [Session.sourcePath, if_neg h, pathText_intercalate (by simp [sourceRoot_ne_nil])]
  simp [String.toList_append, String.toList_intercalate]

theorem serverText_append (left right : List Char) :
    serverText (left ++ right) = serverText left ++ serverText right := List.flatMap_append

theorem serverText_slash (text : List Char) : serverText ('/' :: text) = '/' :: serverText text := by
  rw [serverText, List.flatMap_cons, show serverChar '/' = ['/'] by decide]
  rfl

theorem serverText_pathText (names : List (List Char)) :
    serverText (pathText names) = pathText (names.map serverText) := by
  induction names with
  | nil => rfl
  | cons name names ih =>
    rw [pathText, List.flatMap_cons, ← pathText, serverText_append, serverText_slash, ih]
    rfl

theorem entryFile_no_slash (session : Session) : '/' ∉ session.entryPath.toList := by
  rw [Session.entryPath]
  cases session.language <;> decide

def documentUri (session : Session) : String := pathToFileUrl (session.sourcePath session.entryPath)

/-- The directories above a session's files, as the server encodes them. -/
def rootSegments (session : Session) : List Segment :=
  session.sourceRoot.map fun name => serverText name.toList

theorem serverUri_toList {session : Session} {path : String} (h : path.toList.head? ≠ some '/') :
    (pathToFileUrl (session.sourcePath path)).toList =
      href (rootSegments session) ++ '/' :: serverText path.toList := by
  rw [pathToFileUrl_toList, toList_sourcePath h, serverText_append, serverText_slash,
    serverText_pathText, List.map_map, ← List.append_assoc]
  rfl

theorem rdropWhile_slash {front behind : List Char} (h : '/' ∉ behind) :
    (front ++ '/' :: behind).rdropWhile (· ≠ '/') = front ++ ['/'] := by
  induction behind using List.reverseRecOn with
  | nil => exact List.rdropWhile_concat_neg _ _ _ (by simp)
  | append_singleton behind c ih =>
    have hc : c ≠ '/' := fun hc => h (by simp [hc])
    rw [← List.cons_append, ← List.append_assoc, List.rdropWhile_concat_pos _ _ _ (by simpa using hc)]
    exact ih fun hmem => h (List.mem_append_left _ hmem)

theorem baseOf_documentUri (session : Session) :
    baseOf (documentUri session) = href (rootSegments session) ++ ['/'] := by
  have hentry := entryFile_no_slash session
  have hhead : session.entryPath.toList.head? ≠ some '/' := fun hhead =>
    hentry (List.mem_of_mem_head? hhead)
  rw [baseOf, documentUri, serverUri_toList hhead]
  exact rdropWhile_slash (slash_mem_serverText hentry)

/-! ## What the page makes of a path -/

section Page

variable {other : List Char → Option (List Char)} {caret : Bool} {session : Session} {path : String}

theorem mem_rootSegments {segment : Segment} (h : segment ∈ rootSegments session) :
    ∀ c ∈ segment, settled c = true := by
  obtain ⟨name, -, rfl⟩ := List.mem_map.mp h
  exact fun c hc => settled_of_mem hc

theorem slash_rootSegments (hroot : ∀ name ∈ session.root, '/' ∉ name.toList) :
    ∀ segment ∈ rootSegments session, '/' ∉ segment := by
  intro segment h
  obtain ⟨name, hname, rfl⟩ := List.mem_map.mp h
  refine slash_mem_serverText ?_
  rcases List.mem_append.mp hname with hname | hname
  · exact hroot name hname
  · rw [List.mem_singleton.mp hname]
    decide

theorem mem_pathText {segments : List Segment} {c : Char} (h : c ∈ pathText segments) :
    c = '/' ∨ ∃ segment ∈ segments, c ∈ segment := by
  obtain ⟨segment, hsegment, hc⟩ := List.mem_flatMap.mp h
  exact (List.mem_cons.mp hc).imp_right fun hc => ⟨segment, hsegment, hc⟩

theorem settled_or_slash {c : Char} (h : c ∈ pathText (rootSegments session) ++ ['/']) :
    c = '/' ∨ settled c = true := by
  rcases List.mem_append.mp h with h | h
  · exact (mem_pathText h).imp_right fun ⟨segment, hsegment, hc⟩ => mem_rootSegments hsegment c hc
  · exact Or.inl (List.mem_singleton.mp h)

/-- The directory of the session's files, as the page reads it. -/
def pageDirectory (session : Session) : List Segment := descend [] (rootSegments session)

theorem readPath_base (hroot : ∀ name ∈ session.root, '/' ∉ name.toList) :
    readPath caret [] (dirText (rootSegments session)) = pageDirectory session ++ [[]] := by
  have hback : '\\' ∉ dirText (rootSegments session) := fun h => by
    rcases settled_or_slash (List.mem_of_mem_drop h) with h | h
    · exact absurd h (by decide)
    · exact absurd h (by decide)
  have hencode : (rootSegments session ++ [[]]).map (encodeText caret) =
      rootSegments session ++ [[]] := by
    rw [List.map_append, rootSegments, List.map_map]
    simp only [Function.comp_def, encodeText_serverText]
    rfl
  rw [readPath, splitOnP_slash hback, splitOn_dirText (slash_rootSegments hroot), hencode,
    pathState_directory]
  rfl

theorem href_base (segments : List Segment) :
    href segments ++ ['/'] = "file://".toList ++ (pathText segments ++ ['/']) :=
  List.append_assoc _ _ _

theorem base_starts {segments : List Segment} (hne : segments ≠ []) :
    "file:///".toList.isPrefixOf (href segments ++ ['/']) = true := by
  have hthree : "file:///".toList = "file://".toList ++ ['/'] := by decide
  rw [href_base, pathText_intercalate hne, List.isPrefixOf_iff_prefix, hthree]
  exact ⟨List.intercalate ['/'] segments ++ ['/'], by simp only [List.append_assoc]; rfl⟩

theorem base_dirText (segments : List Segment) :
    (href segments ++ ['/']).drop 8 = dirText segments := by
  have hlength : "file://".toList.length = 7 := by decide
  have hdrop : ("file://".toList ++ (pathText segments ++ ['/'])).drop ("file://".toList.length + 1) =
      (pathText segments ++ ['/']).drop 1 := List.drop_length_add_append 1
  rw [hlength] at hdrop
  rw [href_base, dirText]
  exact hdrop

theorem base_plain (session : Session) :
    (href (rootSegments session) ++ ['/']).any (fun c => c = '?' || c = '#') = false := by
  rw [List.any_eq_false]
  intro c hc hmark
  rw [href_base] at hc
  simp only [Bool.or_eq_true, decide_eq_true_eq] at hmark
  rcases List.mem_append.mp hc with hc | hc
  · rcases hmark with rfl | rfl <;> exact absurd hc (by decide)
  · rcases settled_or_slash hc with rfl | hsettled
    · exact absurd hmark (by decide)
    · rcases hmark with rfl | rfl <;> exact absurd hsettled (by decide)

theorem clientUri_eq (hroot : ∀ name ∈ session.root, '/' ∉ name.toList) :
    clientUri other caret (documentUri session) path =
      resolve other caret (pageDirectory session ++ [[]]) path.toList := by
  have hne : rootSegments session ≠ [] := by simp [rootSegments, sourceRoot_ne_nil]
  have hread : newUrl other caret path.toList (href (rootSegments session) ++ ['/']) =
      resolve other caret (readPath caret [] ((href (rootSegments session) ++ ['/']).drop 8))
        path.toList := if_pos ⟨base_starts hne, by rw [base_plain, Bool.not_false]⟩
  rw [clientUri, baseOf_documentUri, hread, base_dirText, readPath_base hroot]

/-! ## One URI -/

/-- What a path must be like for both sides to give its file one URI. -/
structure OneUri (caret : Bool) (session : Session) (path : String) : Prop where
  root : ∀ name ∈ session.root, name.toList ≠ ['.'] ∧ name.toList ≠ ['.', '.']
  first : path.toList.head? ≠ some ' '
  last : path.toList.getLast? ≠ some ' '
  chars : ∀ c ∈ path.toList, leftRaw caret c = false
  scheme : scheme path.toList = none

theorem pageDirectory_eq (hroot : ∀ name ∈ session.root, name.toList ≠ ['.'] ∧ name.toList ≠ ['.', '.']) :
    pageDirectory session = rootSegments session := by
  refine descend_plain ?_ ?_
  · intro segment h
    obtain ⟨name, hname, rfl⟩ := List.mem_map.mp h
    by_contra hdot
    rcases List.mem_append.mp hname with hname | hname
    · rcases isDot_serverText (Bool.eq_true_of_not_eq_false hdot) with h | h
      · exact (hroot name hname).1 h
      · exact (hroot name hname).2 h
    · rw [List.mem_singleton.mp hname] at hdot
      exact hdot (by decide)
  · intro segment h hbar
    exact absurd (mem_rootSegments h _ hbar) (by decide)

theorem rootSegments_dot (hroot : ¬∀ name ∈ session.root, name.toList ≠ ['.'] ∧ name.toList ≠ ['.', '.']) :
    (rootSegments session).any isDot = true := by
  simp only [not_forall, not_and_or, not_not] at hroot
  obtain ⟨name, hname, hdot⟩ := hroot
  refine List.any_eq_true.mpr ⟨serverText name.toList, ?_, ?_⟩
  · exact List.mem_map.mpr ⟨name, List.mem_append_left _ hname, rfl⟩
  · rcases hdot with hdot | hdot <;> rw [hdot] <;> decide

/-- What the page has checked of a path. -/
structure Checked (text : List Char) : Prop where
  ne_nil : text ≠ []
  plain : ∀ c ∈ text, c ≠ '\\' ∧ c ≠ '#' ∧ c ≠ '?' ∧ 0x20 ≤ c.toNat
  parts : ∀ part ∈ text.splitOn '/', part ≠ [] ∧ part ≠ ['.'] ∧ part ≠ ['.', '.']

theorem checked_of_valid (h : isValidProjectPath path = true) : Checked path.toList := by
  simp only [isValidProjectPath, Bool.and_eq_true, Bool.not_eq_true', Bool.or_eq_false_iff,
    decide_eq_false_iff_not, decide_eq_true_eq, List.all_eq_true, List.any_eq_false] at h
  obtain ⟨⟨⟨⟨⟨⟨hempty, -⟩, hback⟩, hnumber, hquestion⟩, hcontrol⟩, -⟩, hparts⟩ := h
  have hne {d : Char} (hd : path.toList.contains d = false) : ∀ c ∈ path.toList, c ≠ d := by
    rintro c hc rfl
    rw [List.contains_iff_mem.mpr hc] at hd
    contradiction
  refine ⟨fun hnil => hempty (String.toList_eq_nil_iff.mp hnil), fun c hc => ?_, fun part hpart => ?_⟩
  · exact ⟨hne hback c hc, hne hnumber c hc, hne hquestion c hc, hcontrol c hc⟩
  · simpa [and_assoc] using hparts part hpart

namespace Checked

variable {text : List Char}

theorem no_double_slash (h : Checked text) (front rest : List Char) :
    text ≠ front ++ '/' :: '/' :: rest := by
  rintro rfl
  have hempty : ([] : List Char) ∈ (front ++ '/' :: '/' :: rest).splitOn '/' := by
    rw [List.splitOn_append_cons_self]
    refine List.mem_append_right _ ?_
    rw [List.splitOn_cons_eq_if_modifyHead, if_pos (beq_self_eq_true _)]
    exact List.mem_cons_self
  exact (h.parts [] hempty).1 rfl

theorem isSlash_iff (h : Checked text) {c : Char} (hc : c ∈ text) : isSlash c = true ↔ c = '/' := by
  simp [isSlash, (h.plain c hc).1]

theorem host (h : Checked text) (c d : Char) (front rest : List Char)
    (htext : text = front ++ c :: d :: rest) (hc : isSlash c = true) : isSlash d = false := by
  by_contra hd
  rw [Bool.not_eq_false, h.isSlash_iff (by simp [htext])] at hd
  rw [h.isSlash_iff (by simp [htext])] at hc
  rw [hc, hd] at htext
  exact h.no_double_slash front rest htext

theorem no_tab (h : Checked text) : ∀ c ∈ text, isTabOrNewline c = false := by
  intro c hc
  have hcontrol := (h.plain c hc).2.2.2
  simp only [isTabOrNewline, List.contains_eq_mem, List.mem_cons, List.not_mem_nil, or_false,
    decide_eq_false_iff_not]
  omega

theorem no_mark (h : Checked text) : text.any (fun c => c = '?' || c = '#') = false := by
  refine List.any_eq_false.mpr fun c hc => ?_
  obtain ⟨-, hnumber, hquestion, -⟩ := h.plain c hc
  simp [hnumber, hquestion]

theorem space_iff (h : Checked text) {c : Char} (hc : c ∈ text) :
    isSpaceOrControl c = true ↔ c = ' ' := by
  have hcontrol := (h.plain c hc).2.2.2
  rw [isSpaceOrControl, decide_eq_true_eq]
  constructor
  · intro hle
    exact Char.toNat_inj.mp (show c.toNat = 32 by omega)
  · rintro rfl
    exact (by decide : ' '.toNat ≤ 0x20)

theorem any_space (h : Checked text) {stop? : Option Char} (hend : ∀ c, stop? = some c → c ∈ text) :
    stop?.any isSpaceOrControl = false ↔ stop? ≠ some ' ' := by
  cases stop? with
  | none => simp
  | some c =>
    rw [Option.any_some, ← Bool.not_eq_true, h.space_iff (hend c rfl), ne_eq, Option.some.injEq]

theorem clean_iff (h : Checked text) :
    clean text = text ↔ text.head? ≠ some ' ' ∧ text.getLast? ≠ some ' ' := by
  rw [clean_eq_iff h.no_tab, h.any_space fun c hc => List.mem_of_mem_head? hc,
    h.any_space fun c hc => List.mem_of_getLast? hc]

end Checked

theorem length_encodeText_le (caret : Bool) (text : List Char) :
    (encodeText caret text).length + (if text.any (leftRaw caret) then 1 else 0) ≤
      (serverText text).length := by
  induction text with
  | nil => exact Nat.le_refl _
  | cons c text ih =>
    rw [encodeText, serverText, List.flatMap_cons, List.flatMap_cons, ← encodeText, ← serverText,
      List.length_append, List.length_append, List.any_cons]
    cases hc : leftRaw caret c
    · rw [encodeChar_server caret hc, Bool.false_or]
      omega
    · have hshort := encodeChar_shorter caret hc
      rw [Bool.true_or, if_pos rfl]
      omega

theorem encodeText_eq {caret : Bool} {text : List Char} (h : ∀ c ∈ text, leftRaw caret c = false) :
    encodeText caret text = serverText text :=
  List.flatMap_congr fun c hc => encodeChar_server caret (h c hc)

theorem href_append (front behind : List Segment) :
    href (front ++ behind) = href front ++ pathText behind :=
  (congrArg ("file://".toList ++ ·) (pathText_append front behind)).trans
    (List.append_assoc _ _ _).symm

theorem pathText_serverText (text : List Char) :
    pathText ((text.splitOn '/').map serverText) = '/' :: serverText text := by
  rw [← serverText_pathText, pathText_intercalate (List.splitOn_ne_nil '/' text),
    List.intercalate_splitOn, serverText_slash]

theorem length_href (segments : List Segment) : (href segments).length = 7 + room segments := by
  have hlength : "file://".toList.length = 7 := by decide
  exact List.length_append.trans (congrArg₂ (· + ·) hlength (length_pathText segments))

theorem mem_of_mem_splitOn {text part : List Char} {c : Char} (hpart : part ∈ text.splitOn '/')
    (hc : c ∈ part) : c ∈ text := by
  induction text generalizing part with
  | nil =>
    rw [List.splitOn_nil, List.mem_singleton] at hpart
    rwa [hpart] at hc
  | cons d text ih =>
    obtain ⟨first, rest, hsplit⟩ := List.exists_cons_of_ne_nil (List.splitOn_ne_nil '/' text)
    rw [List.splitOn_cons_eq_if_modifyHead, hsplit] at hpart
    rw [hsplit] at ih
    split_ifs at hpart
    · rcases List.mem_cons.mp hpart with rfl | hpart
      · simp at hc
      · exact List.mem_cons_of_mem _ (ih hpart hc)
    · rw [List.modifyHead_cons] at hpart
      rcases List.mem_cons.mp hpart with rfl | hpart
      · exact (List.mem_cons.mp hc).elim (fun h => h ▸ List.mem_cons_self)
          fun hc => List.mem_cons_of_mem _ (ih List.mem_cons_self hc)
      · exact List.mem_cons_of_mem _ (ih (List.mem_cons_of_mem _ hpart) hc)

theorem bar_of_leftRaw {text : List Char} (h : ∀ c ∈ text, leftRaw caret c = false) : '|' ∉ text := by
  intro hbar
  have hleft : leftRaw caret '|' = true := by cases caret <;> decide
  rw [h '|' hbar] at hleft
  contradiction

theorem clientUri_of_oneUri (hslash : ∀ name ∈ session.root, '/' ∉ name.toList)
    (hpath : Checked path.toList) (h : OneUri caret session path) :
    clientUri other caret (documentUri session) path =
      some (href (rootSegments session) ++ '/' :: serverText path.toList) := by
  have hclean : clean path.toList = path.toList := hpath.clean_iff.mpr ⟨h.first, h.last⟩
  have hbar := bar_of_leftRaw h.chars
  have hback : '\\' ∉ path.toList := fun hmem => (hpath.plain _ hmem).1 rfl
  have hhead : ¬path.toList.head?.any isSlash = true := by
    obtain ⟨c, text, htext⟩ := List.exists_cons_of_ne_nil hpath.ne_nil
    rw [htext, List.head?_cons, Option.any_some, hpath.isSlash_iff (by simp [htext])]
    rintro rfl
    refine (hpath.parts [] ?_).1 rfl
    rw [htext, List.splitOn_cons_eq_if_modifyHead, if_pos (beq_self_eq_true _)]
    exact List.mem_cons_self
  have hresolve : resolve other caret (pageDirectory session ++ [[]]) path.toList =
      fileState other caret (pageDirectory session ++ [[]]) path.toList := by
    simp only [resolve, hclean, hpath.no_mark, h.scheme, Bool.false_eq_true, if_false]
  have hsegments : (path.toList.splitOnP isSlash).map (encodeText caret) =
      (path.toList.splitOn '/').map serverText := by
    rw [splitOnP_slash hback]
    exact List.map_congr_left fun part hpart =>
      encodeText_eq fun c hc => h.chars c (mem_of_mem_splitOn hpart hc)
  have hread : readPath caret (pageDirectory session) path.toList =
      rootSegments session ++ (path.toList.splitOn '/').map serverText := by
    rw [readPath, hsegments, pageDirectory_eq h.root]
    refine pathState_plain ?_ (Or.inl (by simp [rootSegments, sourceRoot_ne_nil]))
    intro segment hsegment
    obtain ⟨part, hpart, rfl⟩ := List.mem_map.mp hsegment
    by_contra hdot
    obtain ⟨-, hone, htwo⟩ := hpath.parts part hpart
    exact (isDot_serverText (Bool.eq_true_of_not_eq_false hdot)).elim hone htwo
  rw [clientUri_eq hslash, hresolve, fileState_relative hhead (scheme_none h.scheme hbar)
    hpath.ne_nil, hread, href_append, pathText_serverText]

/-- A scheme of its own shows in front of the URL. -/
def KeepsScheme (other : List Char → Option (List Char)) : Prop :=
  ∀ text name rest url, scheme text = some (name, rest) → name ≠ "file".toList →
    other text = some url → name ++ [':'] <+: url

theorem colon_not_mem_scheme {text name rest : List Char} (h : FileUrl.scheme text = some (name, rest)) :
    ':' ∉ name := by
  intro hcolon
  rw [(scheme_split h).2, lower, List.mem_map] at hcolon
  obtain ⟨c, hc, hlower⟩ := hcolon
  have hname : schemeChar c = true := List.mem_takeWhile_imp hc
  have hascii : c.toNat < 128 := by
    by_contra hhigh
    have hne : ¬c.isAlphanum = true := by
      simp only [Char.isAlphanum, Char.isAlpha, Char.isUpper, Char.isLower, Char.isDigit,
        Bool.or_eq_true, Bool.and_eq_true, decide_eq_true_eq, UInt32.le_iff_toNat_le]
      change ¬c.val.toNat < 128 at hhigh
      have hupper : 'Z'.val.toNat < 128 := by decide
      have hlower : 'z'.val.toNat < 128 := by decide
      have hdigit : '9'.val.toNat < 128 := by decide
      omega
    simp only [schemeChar, hne, Bool.false_or, Bool.or_eq_true, decide_eq_true_eq] at hname
    rcases hname with (rfl | rfl) | rfl <;> exact hhigh (by decide)
  refine ascii_cases (p := fun c => schemeChar c = true → c.toLower ≠ ':') ?_ hascii hname hlower
  decide +kernel

theorem takeWhile_colon {front rest : List Char} (h : ':' ∉ front) :
    (front ++ ':' :: rest).takeWhile (· ≠ ':') = front := by
  have hall : ∀ c ∈ front, decide (c ≠ ':') = true := fun c hc =>
    decide_eq_true fun heq => h (heq ▸ hc)
  rw [List.takeWhile_append_of_pos hall, List.takeWhile_cons_of_neg (by simp), List.append_nil]

theorem takeWhile_href (segments : List Segment) (text : List Char) :
    (href segments ++ text).takeWhile (· ≠ ':') = "file".toList := by
  have hscheme : "file://".toList = "file".toList ++ ':' :: "//".toList := by decide
  have hsplit : href segments ++ text =
      "file".toList ++ ':' :: ("//".toList ++ (pathText segments ++ text)) :=
    calc href segments ++ text
      _ = "file://".toList ++ (pathText segments ++ text) := List.append_assoc _ _ _
      _ = "file".toList ++ ':' :: ("//".toList ++ (pathText segments ++ text)) := by
        rw [hscheme, List.append_assoc, List.cons_append]
  rw [hsplit]
  exact takeWhile_colon (by decide)

theorem oneUri_of_clientUri (hother : KeepsScheme other)
    (hslash : ∀ name ∈ session.root, '/' ∉ name.toList) (hpath : Checked path.toList)
    (h : clientUri other caret (documentUri session) path =
      some (href (rootSegments session) ++ '/' :: serverText path.toList)) :
    OneUri caret session path := by
  rw [clientUri_eq hslash] at h
  have hscheme : ∀ name rest, FileUrl.scheme (clean path.toList) = some (name, rest) →
      name = "file".toList := by
    intro name rest hread
    by_contra hname
    have hown : other (clean path.toList) =
        some (href (rootSegments session) ++ '/' :: serverText path.toList) := by
      simpa only [resolve, any_clean hpath.no_mark, hread, hname, if_false, Bool.false_eq_true]
        using h
    obtain ⟨tail, htail⟩ := hother _ _ _ _ hread hname hown
    have htake := congrArg (List.takeWhile (· ≠ ':')) htail
    rw [List.append_assoc, List.singleton_append, takeWhile_colon (colon_not_mem_scheme hread),
      takeWhile_href] at htake
    exact hname htake
  obtain ⟨path', hurl, hroom⟩ := resolve_room hpath.no_mark hpath.no_tab hpath.host hscheme h
  have hlength := congrArg List.length hurl
  rw [List.length_append, List.length_cons, length_href, length_href] at hlength
  have htext := length_encodeText_le caret path.toList
  have hroot := room_descend (rootSegments session)
  change room (pageDirectory session) + _ ≤ _ at hroot
  have hdots : ∀ name ∈ session.root, name.toList ≠ ['.'] ∧ name.toList ≠ ['.', '.'] := by
    by_contra hdot
    rw [rootSegments_dot hdot, if_pos rfl] at hroot
    omega
  have hraw : path.toList.any (leftRaw caret) = false := by
    by_contra hraw
    rw [if_pos (Bool.eq_true_of_not_eq_false hraw)] at htext
    omega
  have hboth : clean path.toList = path.toList ∧ FileUrl.scheme path.toList = none := by
    by_contra hboth
    rw [if_neg hboth] at hroom
    omega
  obtain ⟨hfirst, hlast⟩ := hpath.clean_iff.mp hboth.1
  exact ⟨hdots, hfirst, hlast, fun c hc => Bool.eq_false_iff.mpr (List.any_eq_false.mp hraw c hc), hboth.2⟩

theorem serverUri_eq (hpath : Checked path.toList) :
    (pathToFileUrl (session.sourcePath path)).toList =
      href (rootSegments session) ++ '/' :: serverText path.toList := by
  refine serverUri_toList fun hhead => ?_
  obtain ⟨text, htext⟩ := List.head?_eq_some_iff.mp hhead
  refine (hpath.parts [] ?_).1 rfl
  rw [htext, List.splitOn_cons_eq_if_modifyHead, if_pos (beq_self_eq_true _)]
  exact List.mem_cons_self

/-- Both sides give a file one URI exactly when the page leaves the path as it is; the server
never gives two paths one URI. -/
theorem one_uri_iff (hother : KeepsScheme other) (hslash : ∀ name ∈ session.root, '/' ∉ name.toList) :
    (∀ path, isValidProjectPath path = true →
      (clientUri other caret (documentUri session) path =
          some (pathToFileUrl (session.sourcePath path)).toList ↔ OneUri caret session path)) ∧
      ∀ left right, isValidProjectPath left = true → isValidProjectPath right = true →
        pathToFileUrl (session.sourcePath left) = pathToFileUrl (session.sourcePath right) →
          left = right := by
  refine ⟨fun path hvalid => ?_, fun left right hleft hright h => ?_⟩
  · have hpath := checked_of_valid hvalid
    rw [serverUri_eq hpath]
    exact ⟨oneUri_of_clientUri hother hslash hpath, clientUri_of_oneUri hslash hpath⟩
  · have htext := congrArg String.toList h
    rw [serverUri_eq (checked_of_valid hleft), serverUri_eq (checked_of_valid hright)] at htext
    have hslashes := List.append_cancel_left htext
    exact String.toList_injective (serverText_injective (List.cons.inj hslashes).2)

end Page

section Examples

/-- What becomes of a reference in plain characters with a scheme that the standard knows nothing
of. -/
def opaqueUrl (text : List Char) : Option (List Char) :=
  (FileUrl.scheme text).map fun (name, rest) => name ++ ':' :: rest

theorem opaqueUrl_keepsScheme : KeepsScheme opaqueUrl := by
  intro text name rest url hscheme _ hurl
  rw [opaqueUrl, hscheme, Option.map_some] at hurl
  exact ⟨rest, by rw [← Option.some.inj hurl, List.append_assoc]; rfl⟩

def zigSession : Session := ⟨"s1", .zig, ["tmp", "s1"], none, fun _ => none⟩

theorem zigSession_root : ∀ name ∈ zigSession.root, '/' ∉ name.toList := by
  decide

theorem one_uri_spaced :
    clientUri opaqueUrl true (documentUri zigSession) "lib/two words.zig" =
        some (pathToFileUrl (zigSession.sourcePath "lib/two words.zig")).toList :=
  ((one_uri_iff opaqueUrl_keepsScheme zigSession_root).1 "lib/two words.zig" (by decide +kernel)).mpr
    ⟨by decide, by decide, by decide, fun c hc => by simpa using List.all_eq_true.mp (show
      ("lib/two words.zig".toList.all fun c => !leftRaw true c) = true by decide +kernel) c hc,
      by decide⟩

theorem percent_uris_differ :
    ¬∀ (other : List Char → Option (List Char)) (caret : Bool) (session : Session) (path : String),
      KeepsScheme other → (∀ name ∈ session.root, '/' ∉ name.toList) →
      isValidProjectPath path = true → projectPathOk path = true →
      clientUri other caret (documentUri session) path =
        some (pathToFileUrl (session.sourcePath path)).toList := by
  intro h
  have hone := h opaqueUrl true zigSession "a%b.zig" opaqueUrl_keepsScheme zigSession_root
    (by decide +kernel) (by decide +kernel)
  have hpage : clientUri opaqueUrl true (documentUri zigSession) "a%b.zig" =
      some "file:///tmp/s1/src/a%b.zig".toList := by decide +kernel
  have hserver : (pathToFileUrl (zigSession.sourcePath "a%b.zig")).toList =
      "file:///tmp/s1/src/a%25b.zig".toList := by decide +kernel
  rw [hpage, hserver] at hone
  exact absurd hone (by decide)

end Examples

end Atomis.ClientUri
