/-!
# Faults in encoded text

Bytes that are no text in UTF-8 have a first fault: either a sequence that cannot be continued to an
encoded character, or one that could be but is cut off by the end of the bytes.
-/

namespace ShaderLang.Utf8

/-- Where the first fault begins, and how many bytes make it up; a cut-off sequence has no such
number. -/
structure Fault where
  index : Nat
  length : Option Nat
  deriving DecidableEq

/-- How messages speak of a fault. -/
def Fault.reason (f : Fault) : String :=
  match f.length with
  | some length =>
    "invalid utf-8 sequence of " ++ toString length ++ " bytes from index " ++ toString f.index
  | none => "incomplete utf-8 byte sequence from index " ++ toString f.index

/-- The ranges of the bytes that may follow a first byte. Those behind a first byte that begins no
character at all are missing. -/
def followers? (first : UInt8) : Option (List (UInt8 × UInt8)) :=
  if first < 0x80 then some []
  else if first < 0xC2 then none
  else if first < 0xE0 then some [(0x80, 0xBF)]
  else if first = 0xE0 then some [(0xA0, 0xBF), (0x80, 0xBF)]
  else if first = 0xED then some [(0x80, 0x9F), (0x80, 0xBF)]
  else if first < 0xF0 then some [(0x80, 0xBF), (0x80, 0xBF)]
  else if first = 0xF0 then some [(0x90, 0xBF), (0x80, 0xBF), (0x80, 0xBF)]
  else if first < 0xF4 then some [(0x80, 0xBF), (0x80, 0xBF), (0x80, 0xBF)]
  else if first = 0xF4 then some [(0x80, 0x8F), (0x80, 0xBF), (0x80, 0xBF)]
  else none

/-- The length of the fault in a sequence of which `read` bytes are read, if it has one. -/
def sequenceFault? (read : Nat) : List (UInt8 × UInt8) → List UInt8 → Option (Option Nat)
  | [], _ => none
  | _ :: _, [] => some none
  | (low, high) :: ranges, byte :: bytes =>
    if low ≤ byte && byte ≤ high then sequenceFault? (read + 1) ranges bytes else some (some read)

/-- The first fault of bytes that begin at an index, if they have one. -/
def faultFrom? (index : Nat) : List UInt8 → Option Fault
  | [] => none
  | first :: rest =>
    match followers? first with
    | none => some ⟨index, some 1⟩
    | some ranges =>
      match sequenceFault? 1 ranges rest with
      | some length => some ⟨index, length⟩
      | none => faultFrom? (index + 1 + ranges.length) (rest.drop ranges.length)
  termination_by bytes => bytes.length
  decreasing_by simp only [List.length_drop, List.length_cons]; omega

/-- The first fault of bytes that are no text. -/
def firstFault (bytes : List UInt8) : Fault :=
  (faultFrom? 0 bytes).getD ⟨bytes.length, none⟩

end ShaderLang.Utf8
