import ShaderLang.Decimal.Shortest

/-!
# Layout of decimals

Which digits a number has is settled by `Decimal.Shortest`; a layout says how they are set: when an
exponent is written, and whether a whole number keeps a fraction.
-/

namespace ShaderLang.Decimal

/-- The decisions of one way to write numbers. -/
structure Layout where
  /-- The positions of the point at which no exponent is written. -/
  positional : Int → Bool
  /-- What follows a whole number that is written without an exponent. -/
  wholeSuffix : String

namespace Layout

/-- Never an exponent, and no fraction on a whole number. -/
def plain : Layout where
  positional := fun _ => true
  wholeSuffix := ""

/-- An exponent from `10 ^ 16` on and below `10 ^ -4`; in between a fraction even on a whole
number, so that the text is never that of an integer. -/
def scientific : Layout where
  positional := fun point => -4 < point && point ≤ 16
  wholeSuffix := ".0"

/-- A point and the digits behind it, or `whole` if there are none. -/
def fraction (whole : String) (digits : List Char) : String :=
  if digits.isEmpty then whole else "." ++ String.ofList digits

/-- Sets the digits of a positive number. -/
def set (layout : Layout) (d : Digits) : String :=
  if layout.positional d.point then
    if d.point ≤ 0 then
      "0" ++ fraction layout.wholeSuffix (List.replicate d.point.natAbs '0' ++ d.digits)
    else
      let places := d.point.toNat
      let whole := d.digits.take places
      String.ofList (whole ++ List.replicate (places - whole.length) '0')
        ++ fraction layout.wholeSuffix (d.digits.drop places)
  else
    String.ofList (d.digits.take 1) ++ fraction "" (d.digits.drop 1) ++ "e" ++ toString (d.point - 1)

/-- Writes a sign in front of a negative number. -/
def signed (negative : Bool) (text : String) : String :=
  if negative then "-" ++ text else text

/-- Writes a number with the fewest digits that read back. A zero keeps its sign. -/
def write (layout : Layout) (x : Float) : String :=
  match FloatClass.ofFloat x with
  | .nan => "NaN"
  | .infinite negative => signed negative "inf"
  | .zero negative => signed negative ("0" ++ layout.wholeSuffix)
  | .finite negative value => signed negative (layout.set value.shortest)

end Layout

end ShaderLang.Decimal
