import Atomis.Lib.OneLine

/-!
# Probe ids

What the instrumenters of the `rustlive` contract name a probe by: two 64-bit hashes of the
file, the byte range and the name.
-/

namespace Atomis.Instrument

structure Range where
  startLine : ℕ
  startColumn : ℕ
  endLine : ℕ
  endColumn : ℕ
  startByte : ℕ
  endByte : ℕ
deriving DecidableEq

inductive Mode
  | auto
  | manual
deriving DecidableEq

structure Probe where
  probeId : String
  name : String
  supported : Bool
  reason : Option String
  range : Range
  insertionByte : Option ℕ
  mode : Mode
deriving DecidableEq

def fnv1a64 (input : String) : ℕ :=
  (Utf8.encode input.toList).foldl
    (fun hash byte => Nat.xor hash byte.toNat * 0x100000001b3 % 2 ^ 64) 0xcbf29ce484222325

/-- `{:016x}`. -/
def hex16 (n : ℕ) : String :=
  let digits := Nat.toDigits 16 n
  String.ofList (List.replicate (16 - digits.length) '0' ++ digits)

def probeId (version uri : String) (range : Range) (name : String) : String :=
  let key := version ++ "|" ++ uri ++ "|" ++ toString range.startByte ++ "-" ++
    toString range.endByte ++ "|" ++ name
  hex16 (fnv1a64 key) ++ hex16 (fnv1a64 (key ++ "|2"))

theorem oneLine_hex16 (n : ℕ) : OneLine (hex16 n) := by
  refine OneLine.of_digits fun c hc => ?_
  rcases List.mem_append.mp hc with hzero | hdigit
  · rw [List.eq_of_mem_replicate hzero]
    decide
  · exact OneLine.toNat_of_mem_toDigits (by decide) (by decide) hdigit

theorem oneLine_probeId (version uri : String) (range : Range) (name : String) :
    OneLine (probeId version uri range name) :=
  (oneLine_hex16 _).append (oneLine_hex16 _)

end Atomis.Instrument
