import Mathlib.Data.List.TakeWhile
import Atomis.Lib.Utf8

/-!
# The session's HTTP proxy

A request below a session's `http` path is sent on to the port of the session. The path that is
sent is what the router took from the request's path, decoded, put into a text that is read as a
URI again. What reads a URI is a parameter: a path stands where it was written, and what was read
in a request can be read behind another authority.
-/

namespace Atomis.HttpProxy
open Utf8

abbrev Bytes := List UInt8

def bytes (text : String) : Bytes := encode text.toList

/-- What a program is asked for. -/
structure Target where
  path : Bytes
  query : Option Bytes
deriving DecidableEq

def queryText : Option Bytes → Bytes
  | none => []
  | some query => bytes "?" ++ query

def authority (port : ℕ) : Bytes := bytes "http://127.0.0.1:" ++ encode (Nat.toDigits 10 port)

/-- `http::Uri`: the target of a request line, and a URI from its text. -/
structure UriSyntax where
  readTarget : Bytes → Option Target
  parse : Bytes → Option Target
  path_prefix : ∀ {port : ℕ} {text : Bytes} {target : Target},
    parse (authority port ++ (bytes "/" ++ text)) = some target →
      target.path <+: bytes "/" ++ text ∧ 63 ∉ target.path
  parse_same : ∀ {port : ℕ} {before path : Bytes} {query : Option Bytes},
    readTarget (before ++ (bytes "/" ++ path) ++ queryText query) =
      some ⟨before ++ (bytes "/" ++ path), query⟩ →
    (authority port).length ≤ before.length →
    parse (authority port ++ (bytes "/" ++ (path ++ queryText query))) =
      some ⟨bytes "/" ++ path, query⟩

/-! ## The router -/

def hexDigit (b : UInt8) : Option ℕ :=
  let n := b.toNat
  if 48 ≤ n ∧ n ≤ 57 then some (n - 48)
  else if 65 ≤ n ∧ n ≤ 70 then some (n - 55)
  else if 97 ≤ n ∧ n ≤ 102 then some (n - 87)
  else none

/-- An escape is a percent sign with two hexadecimal digits; anything else stays. -/
def percentDecode : Bytes → Bytes
  | b :: high :: low :: text =>
    if b = 37 then
      match hexDigit high, hexDigit low with
      | some h, some l => UInt8.ofNat (16 * h + l) :: percentDecode text
      | _, _ => b :: percentDecode (high :: low :: text)
    else b :: percentDecode (high :: low :: text)
  | text => text

/-- `Path<String>` for a captured segment; what is no UTF-8 is answered by the router. -/
def capture (raw : Bytes) : Option Bytes :=
  let decoded := percentDecode raw
  if encode (lossy decoded) = decoded then some decoded else none

/-! ## Forwarding -/

def hopByHop : List String :=
  ["connection", "keep-alive", "proxy-authenticate", "proxy-authorization", "te", "trailer",
    "transfer-encoding", "upgrade"]

def forwardable (name : String) : Bool :=
  !(hopByHop.contains name) && name ≠ "host" && !("x-atomis-".toList.isPrefixOf name.toList)

structure Request where
  method : String
  query : Option Bytes
  headers : List (String × Bytes)
  body : Bytes
deriving DecidableEq

structure Upstream where
  method : String
  target : Target
  headers : List (String × Bytes)
  body : Bytes
deriving DecidableEq

inductive Outcome
  | refused (status : ℕ) (error : String)
  | sent (upstream : Upstream)
deriving DecidableEq

/-- What the origin, the token and the session of a request say. -/
structure Gate where
  allowed : Bool
  port : Option UInt16

section Forward

variable (uri : UriSyntax)

def forward (gate : Gate) (path : Bytes) (request : Request) : Outcome :=
  if !gate.allowed then .refused 403 "Not allowed"
  else
    match gate.port with
    | none => .refused 404 "Unknown session"
    | some port =>
      match uri.parse (authority port.toNat ++ (bytes "/" ++ (path ++ queryText request.query))) with
      | none => .refused 400 "Invalid path"
      | some target =>
        .sent {
          method := request.method
          target
          headers := request.headers.filter (fun header => forwardable header.1) ++
            [("host", bytes "127.0.0.1:" ++ encode (Nat.toDigits 10 port.toNat))]
          body := request.body }

def httpProxyRoot (gate : Gate) (request : Request) : Outcome := forward uri gate [] request

/-- `rest` is what stands for `{*path}` in the request line. -/
def httpProxy (gate : Gate) (rest : Bytes) (request : Request) : Outcome :=
  match capture rest with
  | none => .refused 400 "Invalid UTF-8 in path"
  | some path => forward uri gate path request

end Forward

/-! ## Escapes -/

def HasEscape (raw : Bytes) : Prop :=
  ∃ before high low behind, raw = before ++ 37 :: high :: low :: behind ∧
    (hexDigit high).isSome ∧ (hexDigit low).isSome

theorem HasEscape.cons {raw : Bytes} (h : HasEscape raw) (b : UInt8) : HasEscape (b :: raw) := by
  obtain ⟨before, high, low, behind, rfl, hhigh, hlow⟩ := h
  exact ⟨b :: before, high, low, behind, rfl, hhigh, hlow⟩

theorem hasEscape_cons_iff {raw : Bytes} {b : UInt8}
    (h : ∀ high low behind, b :: raw = 37 :: high :: low :: behind →
      ¬((hexDigit high).isSome ∧ (hexDigit low).isSome)) :
    HasEscape (b :: raw) ↔ HasEscape raw := by
  constructor
  · rintro ⟨before, high, low, behind, hraw, hhigh, hlow⟩
    cases before with
    | nil => exact absurd ⟨hhigh, hlow⟩ (h high low behind hraw)
    | cons c before => exact ⟨before, high, low, behind, (List.cons.inj hraw).2, hhigh, hlow⟩
  · exact fun hraw => hraw.cons b

theorem percentDecode_kept {raw : Bytes} {b : UInt8} (hiff : HasEscape (b :: raw) ↔ HasEscape raw)
    (h : ¬HasEscape raw ∧ percentDecode raw = raw ∨
      HasEscape raw ∧ (percentDecode raw).length < raw.length) :
    ¬HasEscape (b :: raw) ∧ b :: percentDecode raw = b :: raw ∨
      HasEscape (b :: raw) ∧ (b :: percentDecode raw).length < (b :: raw).length := by
  rcases h with ⟨hnone, hsame⟩ | ⟨hescape, hshort⟩
  · exact Or.inl ⟨mt hiff.mp hnone, by rw [hsame]⟩
  · exact Or.inr ⟨hiff.mpr hescape, Nat.succ_lt_succ hshort⟩

/-- Decoding changes nothing or makes the text shorter. -/
theorem percentDecode_cases (raw : Bytes) :
    ¬HasEscape raw ∧ percentDecode raw = raw ∨
      HasEscape raw ∧ (percentDecode raw).length < raw.length := by
  fun_induction percentDecode raw with
  | case1 high low text h l hlow hhigh ih =>
    refine Or.inr ⟨⟨[], high, low, text, rfl, by simp [hhigh], by simp [hlow]⟩, ?_⟩
    rcases ih with ⟨-, hsame⟩ | ⟨-, hshort⟩
    · simp only [hsame, List.length_cons]
      omega
    · simp only [List.length_cons]
      omega
  | case2 high low text hno ih =>
    refine percentDecode_kept (hasEscape_cons_iff fun high' low' behind hraw => ?_) ih
    rintro ⟨hhigh, hlow⟩
    obtain ⟨-, rfl, rfl, rfl⟩ := by simpa only [List.cons.injEq] using hraw
    exact hno _ _ (Option.some_get hhigh).symm (Option.some_get hlow).symm
  | case3 b high low text hb ih =>
    refine percentDecode_kept (hasEscape_cons_iff fun high' low' behind hraw => ?_) ih
    exact absurd (List.cons.inj hraw).1 hb
  | case4 text hshort =>
    refine Or.inl ⟨?_, rfl⟩
    rintro ⟨before, high, low, behind, rfl, -⟩
    cases before with
    | nil => exact hshort _ _ _ _ rfl
    | cons b before =>
      cases before with
      | nil => exact hshort _ _ _ _ rfl
      | cons c before =>
        cases before with
        | nil => exact hshort _ _ _ _ rfl
        | cons d before => exact hshort _ _ _ _ rfl

theorem not_hasEscape {raw : Bytes} (h : percentDecode raw = raw) : ¬HasEscape raw := by
  rcases percentDecode_cases raw with ⟨hnone, -⟩ | ⟨-, hshort⟩
  · exact hnone
  · rw [h] at hshort
    exact absurd hshort (Nat.lt_irrefl _)

/-! ## The target -/

/-- The program is asked for what stands in the request line. -/
def Unchanged (rest : List Char) (request : Request) (outcome : Outcome) : Prop :=
  ∃ upstream, outcome = .sent upstream ∧
    upstream.target = ⟨bytes "/" ++ encode rest, request.query⟩

/-- The path of a request to a session's program; an id has 36 characters, or more if some of
them are escaped. -/
structure Received (uri : UriSyntax) (id rest : List Char) (request : Request) : Prop where
  long : 36 ≤ id.length
  target : uri.readTarget (bytes "/api/sessions/" ++ encode id ++ bytes "/http" ++
      (bytes "/" ++ encode rest) ++ queryText request.query) =
    some ⟨bytes "/api/sessions/" ++ encode id ++ bytes "/http" ++ (bytes "/" ++ encode rest),
      request.query⟩

theorem length_encode (text : List Char) : text.length ≤ (encode text).length := by
  induction text with
  | nil => exact Nat.le_refl _
  | cons c text ih =>
    have hc := c.utf8Size_pos
    rw [encode_cons, List.length_append, String.length_utf8EncodeChar, List.length_cons]
    omega

theorem length_authority (port : UInt16) : (authority port.toNat).length ≤ 22 := by
  have hdigits : (Nat.toDigits 10 port.toNat).length ≤ 5 :=
    (Nat.length_toDigits_le_iff (by decide) (by decide)).mpr (Nat.lt_trans port.toNat_lt (by decide))
  have hascii : ∀ c ∈ Nat.toDigits 10 port.toNat, c.toNat < 0x80 := fun c hc =>
    Nat.lt_of_le_of_lt (toNat_of_isDigit
      (Nat.isDigit_of_mem_toDigits (by decide) (by decide) hc)).2 (by decide)
  have hstart : (bytes "http://127.0.0.1:").length = 17 := by decide
  rw [authority, List.length_append, encode_ascii hascii, List.length_map, hstart]
  omega

section Unchanged

variable {uri : UriSyntax} {gate : Gate} {port : UInt16} {id rest : List Char} {request : Request}

theorem forward_open (hallowed : gate.allowed = true) (hport : gate.port = some port)
    (path : Bytes) : Unchanged rest request (forward uri gate path request) ↔
      uri.parse (authority port.toNat ++ (bytes "/" ++ (path ++ queryText request.query))) =
        some ⟨bytes "/" ++ encode rest, request.query⟩ := by
  simp only [forward, hallowed, hport, Bool.not_true, Bool.false_eq_true, if_false]
  cases uri.parse (authority port.toNat ++ (bytes "/" ++ (path ++ queryText request.query))) with
  | none => simp [Unchanged]
  | some target => simp [Unchanged]

theorem prefix_before_query {path text : Bytes} {query : Option Bytes}
    (h : path <+: bytes "/" ++ (text ++ queryText query) ∧ 63 ∉ path) :
    path <+: bytes "/" ++ text := by
  obtain ⟨hstart, hmark⟩ := h
  cases query with
  | none => simpa [queryText] using hstart
  | some query =>
    rw [← List.append_assoc] at hstart
    rcases List.prefix_or_prefix_of_prefix hstart (List.prefix_append _ _) with hin | ⟨more, rfl⟩
    · exact hin
    · obtain ⟨rest, hrest⟩ := hstart
      rw [List.append_assoc, List.append_cancel_left_eq] at hrest
      cases more with
      | nil => simp
      | cons b more =>
        have hb : b = 63 := (List.cons.inj hrest).1
        exact absurd (by simp [hb]) hmark

theorem httpProxy_unchanged_iff (hallowed : gate.allowed = true) (hport : gate.port = some port)
    (h : Received uri id rest request) :
    Unchanged rest request (httpProxy uri gate (encode rest) request) ↔
      ¬HasEscape (encode rest) := by
  rcases percentDecode_cases (encode rest) with ⟨hnone, hsame⟩ | ⟨hescape, hshort⟩
  · refine iff_of_true ?_ hnone
    have hcapture : capture (encode rest) = some (encode rest) := by
      rw [capture, hsame, lossy_encode]
      exact if_pos rfl
    rw [httpProxy, hcapture, forward_open hallowed hport]
    refine uri.parse_same h.target ?_
    have hid := h.long
    have hlength := length_encode id
    have hport := length_authority port
    simp only [List.length_append]
    have hbefore : (bytes "/api/sessions/").length = 14 ∧ (bytes "/http").length = 5 := by decide
    omega
  · refine iff_of_false ?_ (not_not.mpr hescape)
    rw [httpProxy]
    cases hcapture : capture (encode rest) with
    | none => simp [Unchanged]
    | some path =>
      dsimp only
      rw [forward_open hallowed hport]
      intro hparse
      -- the path that is read lies in a text that has become shorter
      have hread := (prefix_before_query (uri.path_prefix hparse)).length_le
      have hpath : path = percentDecode (encode rest) := by
        rw [capture] at hcapture
        split_ifs at hcapture
        exact (Option.some.inj hcapture).symm
      rw [← hpath] at hshort
      simp only [List.length_append] at hread
      omega

end Unchanged

/-! ## A reader of URIs -/

def pathByte (b : UInt8) : Bool :=
  let n := b.toNat
  n = 0x21 || n = 0x22 || (0x24 ≤ n && n ≤ 0x3B) || n = 0x3D || (0x40 ≤ n && n ≤ 0x5F) ||
    (0x61 ≤ n && n ≤ 0x7E && n ≠ 0x60) || 0x7F ≤ n

def queryByte (b : UInt8) : Bool :=
  let n := b.toNat
  n = 0x21 || (0x24 ≤ n && n ≤ 0x3B) || n = 0x3D || 0x3F ≤ n

def endsPath (b : UInt8) : Bool := b = 63 || b = 35

/-- A query stands behind a question mark; a fragment is dropped. -/
def readQuery : Bytes → Option Bytes
  | 63 :: behind => some (behind.takeWhile (· ≠ 35))
  | _ => none

def splitTarget (text : Bytes) : Option Target :=
  let path := text.takeWhile (!endsPath ·)
  let query := readQuery (text.dropWhile (!endsPath ·))
  if path.all pathByte && query.all (·.all queryByte) then some ⟨path, query⟩ else none

/-- The longest text that is read. -/
def maxUri : ℕ := 65534

def readTarget (text : Bytes) : Option Target :=
  if text.length ≤ maxUri then splitTarget text else none

/-- Behind the authority of a port on loopback. -/
def parseLoopback (text : Bytes) : Option Target :=
  if text.length ≤ maxUri ∧ (bytes "http://127.0.0.1:").isPrefixOf text then
    splitTarget ((text.drop 17).dropWhile fun b => 48 ≤ b && b ≤ 57)
  else none

theorem dropWhile_digits (port : ℕ) (text : Bytes) :
    (encode (Nat.toDigits 10 port) ++ (bytes "/" ++ text)).dropWhile
      (fun b => 48 ≤ b && b ≤ 57) = bytes "/" ++ text := by
  have hdigit : ∀ c ∈ Nat.toDigits 10 port, 48 ≤ c.toNat ∧ c.toNat ≤ 57 := fun c hc =>
    toNat_of_isDigit (Nat.isDigit_of_mem_toDigits (by decide) (by decide) hc)
  rw [encode_ascii fun c hc => Nat.lt_of_le_of_lt (hdigit c hc).2 (by decide),
    List.dropWhile_append_of_pos]
  · rfl
  · intro b hb
    obtain ⟨c, hc, rfl⟩ := List.mem_map.mp hb
    have hbounds := hdigit c hc
    have hnat : (UInt8.ofNat c.toNat).toNat = c.toNat := toNat_ofNat (by omega)
    simp only [Bool.and_eq_true, decide_eq_true_eq, UInt8.le_iff_toNat_le, hnat]
    exact hbounds

theorem parseLoopback_authority (port : ℕ) (text : Bytes) :
    parseLoopback (authority port ++ (bytes "/" ++ text)) =
      if (authority port ++ (bytes "/" ++ text)).length ≤ maxUri then
        splitTarget (bytes "/" ++ text) else none := by
  have hprefix : (bytes "http://127.0.0.1:").isPrefixOf
      (authority port ++ (bytes "/" ++ text)) = true := by
    rw [List.isPrefixOf_iff_prefix, authority, List.append_assoc]
    exact List.prefix_append _ _
  have hdrop : (authority port ++ (bytes "/" ++ text)).drop 17 =
      encode (Nat.toDigits 10 port) ++ (bytes "/" ++ text) := by
    have hstart : (bytes "http://127.0.0.1:").length = 17 := by decide
    rw [authority, List.append_assoc, ← hstart, List.drop_left]
  rw [parseLoopback, hprefix, hdrop, dropWhile_digits]
  simp

theorem splitTarget_iff {text path : Bytes} {query : Option Bytes} :
    splitTarget text = some ⟨path, query⟩ ↔
      ∃ behind, text = path ++ behind ∧ (∀ b ∈ path, (!endsPath b) = true) ∧
        behind.takeWhile (!endsPath ·) = [] ∧ readQuery behind = query ∧
        (path.all pathByte && query.all (·.all queryByte)) = true := by
  constructor
  · intro h
    rw [splitTarget] at h
    split_ifs at h with hbytes
    obtain ⟨rfl, rfl⟩ := Target.mk.inj (Option.some.inj h)
    refine ⟨text.dropWhile (!endsPath ·), List.takeWhile_append_dropWhile.symm,
      List.all_eq_true.mp List.all_takeWhile, ?_, rfl, hbytes⟩
    exact List.takeWhile_eq_nil_iff.mpr fun hpos => List.dropWhile_get_zero_not _ _ hpos
  · rintro ⟨behind, rfl, hpath, hbehind, rfl, hbytes⟩
    have hdrop : behind.dropWhile (!endsPath ·) = behind :=
      List.dropWhile_eq_self_iff.mpr (List.takeWhile_eq_nil_iff.mp hbehind)
    rw [splitTarget, List.takeWhile_append_of_pos hpath, List.dropWhile_append_of_pos hpath,
      hbehind, hdrop, List.append_nil]
    exact if_pos hbytes

theorem splitTarget_path {text : Bytes} {target : Target} (h : splitTarget text = some target) :
    target.path <+: text ∧ 63 ∉ target.path := by
  obtain ⟨behind, rfl, hpath, -⟩ := splitTarget_iff.mp h
  exact ⟨List.prefix_append _ _, fun hmark => absurd (hpath 63 hmark) (by decide)⟩

theorem splitTarget_behind {before path : Bytes} {query : Option Bytes}
    (h : splitTarget (before ++ path ++ queryText query) = some ⟨before ++ path, query⟩) :
    splitTarget (path ++ queryText query) = some ⟨path, query⟩ := by
  obtain ⟨behind, htext, hpath, hbehind, hquery, hbytes⟩ := splitTarget_iff.mp h
  rw [List.append_cancel_left htext] at *
  rw [List.all_append, Bool.and_assoc, Bool.and_eq_true] at hbytes
  exact splitTarget_iff.mpr ⟨behind, rfl, fun b hb => hpath b (List.mem_append_right _ hb),
    hbehind, hquery, hbytes.2⟩

def loopback : UriSyntax where
  readTarget := readTarget
  parse := parseLoopback
  path_prefix h := by
    rw [parseLoopback_authority] at h
    split_ifs at h
    exact splitTarget_path h
  parse_same h hlength := by
    rw [parseLoopback_authority, ← List.append_assoc (bytes "/")]
    rw [readTarget] at h
    split_ifs at h with hshort
    rw [if_pos, splitTarget_behind h]
    simp only [List.length_append] at hshort ⊢
    omega

def openGate : Gate := ⟨true, some 4100⟩

def plainGet (query : Option Bytes) : Request := ⟨"GET", query, [], []⟩

def sessionId : List Char := "3f2504e0-4f89-41d3-9a0c-0305e82c3301".toList

theorem httpProxy_unchanged_query :
    Unchanged "a/b%zz".toList (plainGet (some (bytes "q=%41")))
      (httpProxy loopback openGate (encode "a/b%zz".toList) (plainGet (some (bytes "q=%41")))) := by
  have hport : openGate.port = some 4100 := rfl
  have hid : 36 ≤ sessionId.length := by decide
  exact (httpProxy_unchanged_iff rfl hport ⟨hid, by decide⟩).mpr (not_hasEscape (by decide))

/-- A slash, a question mark and a space that are escaped. -/
theorem httpProxy_changes_escapes :
    Received loopback sessionId "a%2Fb".toList (plainGet none) ∧
    httpProxy loopback openGate (bytes "a%2Fb") (plainGet none) =
      .sent ⟨"GET", ⟨bytes "/a/b", none⟩, [("host", bytes "127.0.0.1:4100")], []⟩ ∧
    ¬Unchanged "a%2Fb".toList (plainGet none)
      (httpProxy loopback openGate (bytes "a%2Fb") (plainGet none)) ∧
    httpProxy loopback openGate (bytes "a%3Fb") (plainGet none) =
      .sent ⟨"GET", ⟨bytes "/a", some (bytes "b")⟩, [("host", bytes "127.0.0.1:4100")], []⟩ ∧
    httpProxy loopback openGate (bytes "a%20b") (plainGet none) = .refused 400 "Invalid path" := by
  have hslash : httpProxy loopback openGate (bytes "a%2Fb") (plainGet none) =
      .sent ⟨"GET", ⟨bytes "/a/b", none⟩, [("host", bytes "127.0.0.1:4100")], []⟩ := by decide
  refine ⟨⟨by decide, by decide⟩, hslash, ?_, by decide, by decide⟩
  rintro ⟨upstream, hsent, htarget⟩
  rw [hslash] at hsent
  obtain rfl := Outcome.sent.inj hsent
  exact absurd htarget (by decide)

end Atomis.HttpProxy
