/-!
# Binary values

A finite, nonzero floating-point number is a sign and a positive whole number of units, each unit a
power of two. This module reads that form off the bits of a number; the rest of `Decimal` works on
it with exact whole-number arithmetic only.
-/

namespace ShaderLang.Decimal

/-- A positive number `mantissa * 2 ^ exponent`. The flag says that the next smaller number is only
half as far away as the next larger one, as it is just above a power of two. -/
structure Binary where
  mantissa : Nat
  exponent : Int
  narrowBelow : Bool
  deriving DecidableEq

/-- What the bits of a floating-point number stand for. -/
inductive FloatClass where
  | nan
  | infinite (negative : Bool)
  | zero (negative : Bool)
  | finite (negative : Bool) (value : Binary)
  deriving DecidableEq

/-- The leading bit of a mantissa, which is not written where the exponent is not the lowest one:
two to the power of fifty-two. -/
def hiddenBit : Nat :=
  0x10000000000000

/-- Splits 64 bits into one bit of sign, eleven of exponent and fifty-two of fraction. The lowest
exponent has no hidden leading bit, the highest one stands for the infinities and for NaN. -/
def FloatClass.ofBits (bits : Nat) : FloatClass :=
  let negative := bits.testBit 63
  let biased := bits / hiddenBit % 2048
  let fraction := bits % hiddenBit
  if biased = 2047 then
    if fraction = 0 then .infinite negative else .nan
  else if biased = 0 then
    if fraction = 0 then .zero negative else .finite negative ⟨fraction, -1074, false⟩
  else
    .finite negative ⟨hiddenBit + fraction, (biased : Int) - 1075, fraction == 0 && biased != 1⟩

/-- What a floating-point number stands for. -/
def FloatClass.ofFloat (x : Float) : FloatClass :=
  .ofBits x.toBits.toNat

end ShaderLang.Decimal
