/-!
# Decimal literals

A decimal literal is a sign, digits with an optional point among them, and an optional exponent of
ten. Its value is the floating-point number nearest to it.
-/

namespace ShaderLang.Decimal

/-- The number `digits * 10 ^ exponent`, or its negative. -/
structure Literal where
  negative : Bool
  digits : Nat
  exponent : Int
  deriving DecidableEq

/-- The number that a row of decimal digits names; the empty row names zero. -/
def natOfDigits (digits : List Char) : Nat :=
  Nat.ofDigitChars 10 digits 0

namespace Literal

/-- Splits an optional sign off a text. -/
def splitSign : List Char → Bool × List Char
  | '-' :: rest => (true, rest)
  | '+' :: rest => (false, rest)
  | text => (false, text)

/-- Reads an exponent: a sign, if there is one, and digits up to the end. -/
def exponent? (text : List Char) : Option Int :=
  let (negative, digits) := splitSign text
  if digits.isEmpty || !digits.all Char.isDigit then
    none
  else if negative then
    some (-(natOfDigits digits : Int))
  else
    some (natOfDigits digits)

/-- Reads what may follow the digits of a literal. -/
def tail? : List Char → Option Int
  | [] => some 0
  | mark :: rest => if mark = 'e' || mark = 'E' then exponent? rest else none

/-- Reads a literal that takes up the whole text. At least one digit stands before or behind the
point. -/
def ofText? (text : List Char) : Option Literal :=
  let (negative, text) := splitSign text
  let whole := text.takeWhile Char.isDigit
  let text := text.dropWhile Char.isDigit
  let (fraction, text) :=
    match text with
    | '.' :: rest => (rest.takeWhile Char.isDigit, rest.dropWhile Char.isDigit)
    | _ => ([], text)
  if whole.isEmpty && fraction.isEmpty then
    none
  else
    (tail? text).map fun exponent =>
      ⟨negative, natOfDigits (whole ++ fraction), exponent - fraction.length⟩

/-- The nearest floating-point number to the absolute value. The decimal exponent of the first digit
settles the numbers that are far out of range, so that no power of ten is computed for them. -/
def magnitude (l : Literal) : Float :=
  if l.digits = 0 then
    0.0
  else
    let top := (Nat.toDigits 10 l.digits).length + l.exponent
    if 310 < top then
      1.0 / 0.0
    else if top < -330 then
      0.0
    else
      Float.ofScientific l.digits (l.exponent < 0) l.exponent.natAbs

/-- The nearest floating-point number. -/
def value (l : Literal) : Float :=
  if l.negative then -l.magnitude else l.magnitude

end Literal

/-- Reads a literal, or the name of an infinity or of NaN in any case of letters. -/
def float? (text : String) : Option Float :=
  match Literal.ofText? text.toList with
  | some l => some l.value
  | none =>
    let (negative, name) := Literal.splitSign text.toList
    let name := name.map Char.toLower
    if name = "inf".toList || name = "infinity".toList then
      some (if negative then -1.0 / 0.0 else 1.0 / 0.0)
    else if name = "nan".toList then
      some (0.0 / 0.0)
    else
      none

end ShaderLang.Decimal
