import ShaderLang.Decimal.Binary

/-!
# Shortest decimals

The shortest decimal of a binary value has the fewest digits among all decimals that read back as
that value; among those of equal length it is the nearest, and of two equally near ones the larger.

A binary value has a finite decimal expansion, so the whole search happens inside that expansion:
the candidates with `n` digits are its first `n` digits and their successor.
-/

namespace ShaderLang.Decimal

/-- Decimal digits, the most significant first, with a point put `point` places after their
beginning: the number `0.d₁d₂d₃… * 10 ^ point`. -/
structure Digits where
  digits : List Char
  point : Int
  deriving DecidableEq

/-- The digits of `n * 10 ^ exponent`, without zeros at the end. -/
def Digits.ofNat (n : Nat) (exponent : Int) : Digits :=
  let digits := Nat.toDigits 10 n
  ⟨(digits.reverse.dropWhile (· == '0')).reverse, exponent + digits.length⟩

namespace Binary

/-- The power of ten at which the exact expansion of a value ends. -/
def lastPlace (b : Binary) : Int :=
  min b.exponent 0

/-- One unit of the mantissa, counted at the last place of the exact expansion: `2 ^ exponent`
itself where that is whole, and otherwise `2 ^ -s = 5 ^ s * 10 ^ -s`. -/
def unit (b : Binary) : Nat :=
  Nat.pow (if b.exponent < 0 then 5 else 2) b.exponent.natAbs

/-- The digits of the exact expansion, as one number. -/
def expansion (b : Binary) : Nat :=
  b.mantissa * b.unit

/-- Whether a number of last places is rounded to this value. The numbers that are reach half a
unit up and half a unit down, or a quarter where the neighbour below is nearer; the two ends belong
to the even mantissa. All is compared four times enlarged, which leaves no fraction. -/
def readsBack (b : Binary) (n : Nat) : Bool :=
  let low := 4 * b.expansion - (if b.narrowBelow then 1 else 2) * b.unit
  let high := 4 * b.expansion + 2 * b.unit
  if b.mantissa % 2 = 0 then low ≤ 4 * n && 4 * n ≤ high else low < 4 * n && 4 * n < high

/-- The first decimal that reads back when ever fewer of the last `dropped` digits of the expansion
are left out. With none left out it is the value itself. -/
def shortestFrom (b : Binary) : (dropped : Nat) → Digits
  | 0 => .ofNat b.expansion b.lastPlace
  | dropped + 1 =>
    let place := Nat.pow 10 (dropped + 1)
    let below := b.expansion / place
    let above := below + 1
    let exponent := b.lastPlace + (dropped + 1 : Nat)
    if b.readsBack (below * place) then
      if b.readsBack (above * place) && (below + above) * place ≤ 2 * b.expansion then
        .ofNat above exponent
      else
        .ofNat below exponent
    else if b.readsBack (above * place) then
      .ofNat above exponent
    else
      b.shortestFrom dropped

/-- The digits of the shortest decimal that reads back as this value. -/
def shortest (b : Binary) : Digits :=
  b.shortestFrom ((Nat.toDigits 10 b.expansion).length - 1)

end Binary

end ShaderLang.Decimal
