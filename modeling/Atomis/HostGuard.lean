import Atomis.MarkerConservation
import Atomis.TestRun

/-!
# The Host guard

A header is admitted by its name alone: what is behind the name is cut off, at the first closing
bracket or at the last colon, and nobody reads it.
-/

namespace Atomis.HostGuard

open Markers (rfind rfind_eq_none_iff rfind_eq_some rfind_split)
open Ndjson (trim)
open TestRun (stripPrefix)

/-! ## The code -/

def loopbackHosts : List (List Char) :=
  ["127.0.0.1".toList, "localhost".toList, "[::1]".toList]

/-- `eq_ignore_ascii_case` -/
def eqIgnoreAsciiCase (a b : List Char) : Bool := a.map Char.toLower = b.map Char.toLower

def hostWithoutPort (host : List Char) : List Char :=
  match (stripPrefix ['['] host).bind fun _ => host.idxOf? ']' with
  | some stop => host.take (stop + 1)
  | none =>
    match rfind ':' host with
    | some colon => host.take colon
    | none => host

/-- What an entry admits, without its scheme. -/
def allowedHost (entry : List Char) : List Char :=
  ((stripPrefix "https://".toList entry).or (stripPrefix "http://".toList entry)).getD entry

/-- One turn of the inner loop. -/
def entryAdmits (host name entry : List Char) : Bool :=
  let entry := trim entry
  if entry = [] then false
  else
    let allowed := allowedHost entry
    decide (allowed ≠ []) &&
      (eqIgnoreAsciiCase host allowed || eqIgnoreAsciiCase name (hostWithoutPort allowed))

def validHost (host : Option (List Char)) (remoteAllowlist devAllowlist : List Char) : Bool :=
  match host with
  | none => false
  | some host =>
    let host := trim host
    let name := hostWithoutPort host
    loopbackHosts.any (eqIgnoreAsciiCase name) ||
      [remoteAllowlist, devAllowlist].any fun allowlist =>
        (allowlist.splitOn ',').any (entryAdmits host name)

/-! ## What is meant -/

section
variable (remote dev : List Char)

inductive HostName : List Char → Prop
  | loopback {name : List Char} (h : name ∈ loopbackHosts) : HostName name
  | entry {allowlist entry : List Char} (hlist : allowlist ∈ [remote, dev])
      (hentry : entry ∈ allowlist.splitOn ',') (hblank : trim entry ≠ [])
      (hallowed : allowedHost (trim entry) ≠ []) :
      HostName (hostWithoutPort (allowedHost (trim entry)))

/-- One of the names, in any letter case. -/
def Listed (text : List Char) : Prop :=
  ∃ name, HostName remote dev name ∧ text.map Char.toLower = name.map Char.toLower

def IsPort (text : List Char) : Prop :=
  ∃ digits, text = ':' :: digits ∧ digits ≠ [] ∧ digits.all Char.isDigit = true

/-- A listed name with nothing or a port behind it. -/
def Meant (host : Option (List Char)) : Prop :=
  ∃ text name rest, host = some text ∧ trim text = name ++ rest ∧ Listed remote dev name ∧
    (rest = [] ∨ IsPort rest)

def behindName (host : List Char) : List Char := host.drop (hostWithoutPort host).length

/-- A listed name with text behind it that is no port. -/
def Trailing (host : List Char) : Prop :=
  Listed remote dev (hostWithoutPort host) ∧ ¬Listed remote dev host ∧ ¬IsPort (behindName host)

/-- A listed name with a colon, where what is before its last colon is not listed. -/
def Cut (host : List Char) : Prop :=
  Listed remote dev host ∧ ¬Listed remote dev (hostWithoutPort host)

def Telling (host : Option (List Char)) : Prop :=
  ∀ text, host = some text → ¬Trailing remote dev (trim text) ∧ ¬Cut remote dev (trim text)

end

/-! ## The name of a header -/

/-- The closing bracket is found first. -/
def Bracketed (host : List Char) : Prop := host.head? = some '[' ∧ ']' ∈ host

section
variable {host left right inner rest : List Char}

theorem bracketed_split (h : Bracketed host) :
    ∃ inner rest, host = '[' :: inner ++ ']' :: rest ∧ ']' ∉ inner := by
  obtain ⟨hhead, hmem⟩ := h
  cases host with
  | nil => cases hhead
  | cons c text =>
    have hc : c = '[' := by simpa using hhead
    subst hc
    have htext : ']' ∈ text := by simpa using hmem
    obtain ⟨inner, rest, rfl, hinner⟩ := List.eq_append_cons_of_mem htext
    exact ⟨inner, rest, rfl, hinner⟩

theorem idxOf_first {c : Char} (h : c ∉ left) :
    (left ++ c :: right).idxOf? c = some left.length := by
  induction left with
  | nil => simp [List.idxOf?_cons]
  | cons d left ih =>
    have hleft : c ∉ left := fun hmem => h (List.mem_cons_of_mem _ hmem)
    have hd : (d == c) = false := by
      rw [beq_eq_false_iff_ne]
      rintro rfl
      exact h List.mem_cons_self
    simp [List.idxOf?_cons, hd, ih hleft]

theorem stripPrefix_bracket (h : host.head? ≠ some '[') : stripPrefix ['['] host = none := by
  cases host with
  | nil => rfl
  | cons c text =>
    have hc : ¬ '[' = c := fun heq => h (by rw [heq]; rfl)
    simp [stripPrefix, hc]

theorem hostWithoutPort_bracket (h : ']' ∉ inner) :
    hostWithoutPort ('[' :: inner ++ ']' :: rest) = '[' :: inner ++ [']'] := by
  have hstart : stripPrefix ['['] ('[' :: inner ++ ']' :: rest) = some (inner ++ ']' :: rest) := by
    simp [stripPrefix]
  have hstop : ('[' :: inner ++ ']' :: rest).idxOf? ']' = some (inner.length + 1) := by
    have hmem : ']' ∉ '[' :: inner := by simpa using h
    exact idxOf_first hmem
  simp only [hostWithoutPort, hstart, hstop, Option.bind_some]
  have hlen : inner.length + 1 + 1 = ('[' :: inner ++ [']']).length := by simp
  rw [hlen, ← List.singleton_append (l := rest), ← List.append_assoc, List.take_left]

theorem no_stop (h : ¬Bracketed host) :
    ((stripPrefix ['['] host).bind fun _ => host.idxOf? ']') = none := by
  by_cases hhead : host.head? = some '['
  · have hmem : ']' ∉ host := fun hmem => h ⟨hhead, hmem⟩
    rw [List.idxOf?_eq_none_iff.mpr hmem]
    cases stripPrefix ['['] host <;> rfl
  · rw [stripPrefix_bracket hhead]
    rfl

theorem hostWithoutPort_colon (h : ¬Bracketed (left ++ ':' :: right)) (hright : ':' ∉ right) :
    hostWithoutPort (left ++ ':' :: right) = left := by
  simp only [hostWithoutPort, no_stop h, rfind_eq_some hright, List.take_left]

theorem hostWithoutPort_plain (h : ¬Bracketed host) (hcolon : ':' ∉ host) :
    hostWithoutPort host = host := by
  simp only [hostWithoutPort, no_stop h, rfind_eq_none_iff.mpr hcolon]

theorem last_colon (h : ':' ∈ host) : ∃ left right, host = left ++ ':' :: right ∧ ':' ∉ right := by
  cases hfind : rfind ':' host with
  | none => exact absurd h (rfind_eq_none_iff.mp hfind)
  | some colon =>
    obtain ⟨left, right, hsplit, hright, -⟩ := rfind_split hfind
    exact ⟨left, right, hsplit, hright⟩

theorem bracketed_of_append (h : Bracketed left) : Bracketed (left ++ right) := by
  obtain ⟨hhead, hmem⟩ := h
  refine ⟨?_, List.mem_append_left _ hmem⟩
  rw [List.head?_append, hhead]
  rfl

theorem hostWithoutPort_front (host : List Char) : hostWithoutPort host <+: host := by
  by_cases hbracket : Bracketed host
  · obtain ⟨inner, rest, rfl, hinner⟩ := bracketed_split hbracket
    rw [hostWithoutPort_bracket hinner]
    exact ⟨rest, by simp⟩
  · by_cases hcolon : ':' ∈ host
    · obtain ⟨left, right, rfl, hright⟩ := last_colon hcolon
      rw [hostWithoutPort_colon hbracket hright]
      exact List.prefix_append _ _
    · exact ⟨[], by rw [hostWithoutPort_plain hbracket hcolon, List.append_nil]⟩

theorem hostWithoutPort_append_behindName (host : List Char) :
    hostWithoutPort host ++ behindName host = host := by
  obtain ⟨rest, hrest⟩ := hostWithoutPort_front host
  have hbehind : behindName host = rest := by
    rw [behindName]
    nth_rewrite 2 [← hrest]
    exact List.drop_left
  rw [hbehind, hrest]

/-- A name in brackets has nothing left to cut. -/
theorem hostWithoutPort_idem (h : Bracketed (hostWithoutPort host)) :
    hostWithoutPort (hostWithoutPort host) = hostWithoutPort host := by
  obtain ⟨rest, hrest⟩ := hostWithoutPort_front host
  have hbracket : Bracketed host := by
    rw [← hrest]
    exact bracketed_of_append h
  obtain ⟨inner, behind, rfl, hinner⟩ := bracketed_split hbracket
  rw [hostWithoutPort_bracket hinner]
  exact hostWithoutPort_bracket hinner

/-- What is behind a bracketed name is cut off, whatever it is. -/
theorem hostWithoutPort_append (h : Bracketed left) (hname : hostWithoutPort left = left)
    (rest : List Char) : hostWithoutPort (left ++ rest) = left := by
  obtain ⟨inner, behind, rfl, hinner⟩ := bracketed_split h
  rw [hostWithoutPort_bracket hinner] at hname
  have hbehind : behind = [] := by
    have hlen := congrArg List.length hname
    simp only [List.length_append, List.length_cons, List.length_nil] at hlen
    exact List.eq_nil_of_length_eq_zero (by omega)
  subst hbehind
  rw [List.append_assoc]
  exact hostWithoutPort_bracket hinner

end

/-! ## Letter case -/

theorem toLower_eq_iff {c d : Char} (h : d.toNat < 0x41 ∨ 0x5b ≤ d.toNat ∧ d.toNat < 0x61) :
    c.toLower = d ↔ c = d := by
  rw [Char.toLower]
  split
  case isTrue hupper =>
    obtain ⟨hlow, hhigh⟩ := hupper
    have hlow : 0x41 ≤ c.toNat := UInt32.le_iff_toNat_le.mp hlow
    have hhigh : c.toNat ≤ 0x5a := UInt32.le_iff_toNat_le.mp hhigh
    constructor
    · rintro rfl
      have hsum : (c.val + ('a'.val - 'A'.val)).toNat = c.toNat + 0x20 := by
        rw [UInt32.toNat_add]
        exact Nat.mod_eq_of_lt (by show c.toNat + 0x20 < 2 ^ 32; omega)
      have hd : (c.val + ('a'.val - 'A'.val)).toNat < 0x41 ∨
          0x5b ≤ (c.val + ('a'.val - 'A'.val)).toNat ∧
            (c.val + ('a'.val - 'A'.val)).toNat < 0x61 := h
      omega
    · rintro rfl
      omega
  case isFalse => rfl

section
variable {host other : List Char}

theorem mem_map_toLower {c : Char} (h : c.toNat < 0x41 ∨ 0x5b ≤ c.toNat ∧ c.toNat < 0x61) :
    c ∈ host.map Char.toLower ↔ c ∈ host := by
  simp only [List.mem_map, toLower_eq_iff h, exists_eq_right]

theorem bracketed_map : Bracketed (host.map Char.toLower) ↔ Bracketed host := by
  have hstop : ']' ∈ host.map Char.toLower ↔ ']' ∈ host := mem_map_toLower (.inr (by decide))
  have hstart : (host.map Char.toLower).head? = some '[' ↔ host.head? = some '[' := by
    cases host with
    | nil => simp
    | cons c text => simpa using toLower_eq_iff (d := '[') (.inr (by decide))
  rw [Bracketed, Bracketed, hstop, hstart]

/-- The cut does not look at letters. -/
theorem hostWithoutPort_map (host : List Char) :
    hostWithoutPort (host.map Char.toLower) = (hostWithoutPort host).map Char.toLower := by
  by_cases hbracket : Bracketed host
  · obtain ⟨inner, rest, rfl, hinner⟩ := bracketed_split hbracket
    have hlower : ']' ∉ inner.map Char.toLower :=
      mt (mem_map_toLower (.inr (by decide))).mp hinner
    have hsplit : ('[' :: inner ++ ']' :: rest).map Char.toLower =
        '[' :: inner.map Char.toLower ++ ']' :: rest.map Char.toLower := by
      rw [List.map_append, List.map_cons, List.map_cons]
      rfl
    rw [hsplit, hostWithoutPort_bracket hlower, hostWithoutPort_bracket hinner, List.map_append,
      List.map_cons]
    rfl
  · have hlower := mt bracketed_map.mp hbracket
    by_cases hcolon : ':' ∈ host
    · obtain ⟨left, right, rfl, hright⟩ := last_colon hcolon
      have hsplit : (left ++ ':' :: right).map Char.toLower =
          left.map Char.toLower ++ ':' :: right.map Char.toLower := by
        rw [List.map_append, List.map_cons]
        rfl
      rw [hsplit] at hlower ⊢
      rw [hostWithoutPort_colon hlower (mt (mem_map_toLower (.inl (by decide))).mp hright),
        hostWithoutPort_colon hbracket hright]
    · rw [hostWithoutPort_plain hbracket hcolon,
        hostWithoutPort_plain hlower (mt (mem_map_toLower (.inl (by decide))).mp hcolon)]

theorem hostWithoutPort_congr (h : host.map Char.toLower = other.map Char.toLower) :
    (hostWithoutPort host).map Char.toLower = (hostWithoutPort other).map Char.toLower := by
  rw [← hostWithoutPort_map, h, hostWithoutPort_map]

end

/-! ## What is admitted -/

section
variable {remote dev host left rest name text : List Char}

theorem entryAdmits_iff {entry : List Char} :
    entryAdmits host (hostWithoutPort host) entry = true ↔
      trim entry ≠ [] ∧ allowedHost (trim entry) ≠ [] ∧ (hostWithoutPort host).map Char.toLower =
        (hostWithoutPort (allowedHost (trim entry))).map Char.toLower := by
  by_cases hblank : trim entry = []
  · simp [entryAdmits, hblank]
  · have hturn : entryAdmits host (hostWithoutPort host) entry = true ↔
        allowedHost (trim entry) ≠ [] ∧ (host.map Char.toLower =
          (allowedHost (trim entry)).map Char.toLower ∨ (hostWithoutPort host).map Char.toLower =
            (hostWithoutPort (allowedHost (trim entry))).map Char.toLower) := by
      simp [entryAdmits, hblank, eqIgnoreAsciiCase]
    rw [hturn]
    constructor
    · rintro ⟨hallowed, hwhole | hname⟩
      · exact ⟨hblank, hallowed, hostWithoutPort_congr hwhole⟩
      · exact ⟨hblank, hallowed, hname⟩
    · rintro ⟨-, hallowed, hname⟩
      exact ⟨hallowed, .inr hname⟩

theorem validHost_iff : validHost (some host) remote dev = true ↔
    Listed remote dev (hostWithoutPort (trim host)) := by
  simp only [validHost, Bool.or_eq_true, List.any_eq_true, entryAdmits_iff, eqIgnoreAsciiCase,
    decide_eq_true_eq]
  constructor
  · rintro (⟨name, hname, heq⟩ | ⟨allowlist, hlist, entry, hentry, hblank, hallowed, heq⟩)
    · exact ⟨name, .loopback hname, heq⟩
    · exact ⟨_, .entry hlist hentry hblank hallowed, heq⟩
  · rintro ⟨name, hname, heq⟩
    cases hname with
    | loopback h => exact .inl ⟨name, h, heq⟩
    | entry hlist hentry hblank hallowed =>
      exact .inr ⟨_, hlist, _, hentry, hblank, hallowed, heq⟩

theorem hostWithoutPort_hostName (hname : HostName remote dev name) (h : Bracketed name) :
    hostWithoutPort name = name := by
  cases hname with
  | loopback hmem =>
    simp only [loopbackHosts, List.mem_cons, List.not_mem_nil, or_false] at hmem
    obtain rfl | rfl | rfl := hmem
    · exact absurd h.1 (by decide)
    · exact absurd h.1 (by decide)
    · rfl
  | entry => exact hostWithoutPort_idem h

theorem hostWithoutPort_listed (hlisted : Listed remote dev text) (h : Bracketed text) :
    hostWithoutPort text = text := by
  obtain ⟨name, hname, heq⟩ := hlisted
  have hbracket : Bracketed name := by
    rw [← bracketed_map, ← heq, bracketed_map]
    exact h
  have hcut : (hostWithoutPort text).map Char.toLower = text.map Char.toLower := by
    rw [hostWithoutPort_congr heq, hostWithoutPort_hostName hname hbracket, heq]
  have hlen := congrArg List.length hcut
  rw [List.length_map, List.length_map] at hlen
  exact (hostWithoutPort_front text).eq_of_length hlen

/-- A port is cut off behind every listed name. -/
theorem hostWithoutPort_port (hlisted : Listed remote dev text) (hport : IsPort rest) :
    hostWithoutPort (text ++ rest) = text := by
  by_cases hbracket : Bracketed text
  · exact hostWithoutPort_append hbracket (hostWithoutPort_listed hlisted hbracket) rest
  · obtain ⟨digits, rfl, hne, hdigits⟩ := hport
    have hdigit (c : Char) (hc : c.isDigit = false) : c ∉ digits := fun hmem => by
      rw [List.all_eq_true.mp hdigits c hmem] at hc
      cases hc
    refine hostWithoutPort_colon ?_ (hdigit ':' (by decide))
    rintro ⟨hhead, hmem⟩
    have htext : ']' ∈ text := by
      simpa [hdigit ']' (by decide)] using hmem
    refine hbracket ⟨?_, htext⟩
    rwa [List.head?_append_of_ne_nil _ (List.ne_nil_of_mem htext)] at hhead

theorem meant_iff : Meant remote dev (some host) ↔ Listed remote dev (trim host) ∨
    IsPort (behindName (trim host)) ∧ Listed remote dev (hostWithoutPort (trim host)) := by
  constructor
  · rintro ⟨text, name, rest, ⟨⟩, hsplit, hlisted, rfl | hport⟩
    · left
      rwa [hsplit, List.append_nil]
    · right
      have hname := hostWithoutPort_port hlisted hport
      have hrest : behindName (trim host) = rest := by
        rw [behindName, hsplit, hname, List.drop_left]
      rw [hrest, hsplit, hname]
      exact ⟨hport, hlisted⟩
  · rintro (hlisted | ⟨hport, hlisted⟩)
    · exact ⟨host, trim host, [], rfl, by simp, hlisted, .inl rfl⟩
    · exact ⟨host, _, _, rfl, (hostWithoutPort_append_behindName _).symm, hlisted, .inr hport⟩

end

theorem listed_nil {text : List Char} (h : Listed [] [] text) :
    loopbackHosts.any (eqIgnoreAsciiCase text) = true := by
  obtain ⟨name, hname, heq⟩ := h
  cases hname with
  | loopback hmem => exact List.any_eq_true.mpr ⟨name, hmem, by simpa [eqIgnoreAsciiCase] using heq⟩
  | entry hlist hentry hblank =>
    obtain rfl : _ = [] := by simpa using hlist
    obtain rfl : _ = [] := by simpa using hentry
    exact absurd rfl hblank

end Atomis.HostGuard
