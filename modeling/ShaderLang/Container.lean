import ShaderLang.Utf8
import ShaderLang.Ir.Module

/-!
# Containers

A container wraps the text of a module for storage:

* a header of twelve bytes: the letters `SHDR`, the version and a reserved word in two bytes each,
  and the length of the text in four, numbers with the lowest byte first;
* the text;
* a checksum of all that comes before, the high byte first.
-/

namespace ShaderLang

namespace Container

/-- The bytes that every container begins with. -/
def magic : List UInt8 :=
  [0x53, 0x48, 0x44, 0x52]

/-- The version that is written, and the only one that is read. -/
def version : Nat :=
  1

/-- The number of bytes before the text. -/
def headerLength : Nat :=
  12

/-- The number of bytes behind the text. -/
def checksumLength : Nat :=
  2

/-- The lowest `count` bytes of a number, the lowest one first. -/
def littleEndian : (count : Nat) → Nat → List UInt8
  | 0, _ => []
  | count + 1, n => .ofNat n :: littleEndian count (n / 256)

/-- The number whose bytes are given, the lowest one first. -/
def ofLittleEndian : List UInt8 → Nat
  | [] => 0
  | byte :: rest => byte.toNat + 256 * ofLittleEndian rest

@[simp]
theorem length_littleEndian (count n : Nat) : (littleEndian count n).length = count := by
  induction count generalizing n with
  | zero => rfl
  | succ count ih => simp [littleEndian, ih]

/-- The two bytes of a word, the high one first. -/
def wordBytes (word : UInt16) : List UInt8 :=
  [(word >>> 8).toUInt8, word.toUInt8]

/-- The word of two bytes, the high one first. -/
def wordOf (high low : UInt8) : UInt16 :=
  high.toUInt16 <<< 8 ||| low.toUInt16

/-- Adds up bytes as words, the high byte of each first. To a last single byte a zero is added. -/
def addWords (sum : UInt16) : List UInt8 → UInt16
  | high :: low :: rest => addWords (sum + wordOf high low) rest
  | [high] => sum + wordOf high 0
  | [] => sum

/-- The sum of all words of some bytes, without what does not fit into a word. -/
def checksum (bytes : List UInt8) : UInt16 :=
  addWords 0 bytes

/-- The bytes of a text. -/
def payloadBytes (text : String) : List UInt8 :=
  text.toUTF8.data.toList

/-- All that the checksum covers. -/
def body (payload : List UInt8) : List UInt8 :=
  magic ++ littleEndian 2 version ++ littleEndian 2 0 ++ littleEndian 4 payload.length ++ payload

/-- The container of a text. -/
def wrap (text : String) : List UInt8 :=
  let bytes := body (payloadBytes text)
  bytes ++ wordBytes (checksum bytes)

/-- Why bytes are no container. -/
inductive Fault where
  | tooShort (size : Nat)
  | badMagic
  | unsupportedVersion (version : Nat)
  | lengthMismatch (length size : Nat)
  | checksumMismatch (stored calculated : UInt16)
  | notUtf8 (fault : Utf8.Fault)
  deriving DecidableEq

/-- Four digits of a word to the base sixteen. -/
def hexText (word : UInt16) : String :=
  let digits := Nat.toDigits 16 word.toNat
  "0x" ++ String.ofList (List.replicate (4 - digits.length) '0' ++ digits)

/-- How messages speak of a fault. -/
def Fault.reason : Fault → String
  | tooShort size => toString size ++ " bytes is shorter than the header"
  | badMagic => "bad magic"
  | unsupportedVersion version => "unsupported version " ++ toString version
  | lengthMismatch length size =>
    "payload length " ++ toString length ++ " does not match container size " ++ toString size
  | checksumMismatch stored calculated =>
    "checksum mismatch: stored " ++ hexText stored ++ ", calculated " ++ hexText calculated
  | notUtf8 fault => "payload is not UTF-8: " ++ fault.reason

/-- Reads bytes as text. -/
def decode (payload : List UInt8) : Except Fault String :=
  match String.fromUTF8? ⟨payload.toArray⟩ with
  | some text => .ok text
  | none => .error (.notUtf8 (Utf8.firstFault payload))

/-- The text in a container. The reserved bytes may hold anything. -/
def unwrap (bytes : List UInt8) : Except Fault String :=
  if bytes.length < headerLength + checksumLength then
    .error (.tooShort bytes.length)
  else if bytes.take 4 ≠ magic then
    .error .badMagic
  else
    let found := ofLittleEndian ((bytes.drop 4).take 2)
    if found ≠ version then
      .error (.unsupportedVersion found)
    else
      let length := ofLittleEndian ((bytes.drop 8).take 4)
      let stop := headerLength + length
      if bytes.length ≠ stop + checksumLength then
        .error (.lengthMismatch length bytes.length)
      else
        match bytes.drop stop with
        | [high, low] =>
          let stored := wordOf high low
          let calculated := checksum (bytes.take stop)
          if stored ≠ calculated then
            .error (.checksumMismatch stored calculated)
          else
            decode ((bytes.take stop).drop headerLength)
        | _ => .error (.lengthMismatch length bytes.length)

end Container

/-- The container of a module. -/
def Ir.Module.toContainer (m : Ir.Module) : List UInt8 :=
  Container.wrap m.text

end ShaderLang
