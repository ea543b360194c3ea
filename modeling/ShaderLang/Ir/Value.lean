import ShaderLang.Decimal.Layout

/-!
# Intermediate values

The operands of instructions.
-/

namespace ShaderLang.Ir

/-- The floating-point number closest to an integer. -/
def floatOfInt (n : Int64) : Float :=
  .ofModel (.ofInt64 n)

/-- A floating-point number without its fraction; one that is too large gives the largest or the
smallest integer. -/
def intOfFloat (x : Float) : Int64 :=
  x.toModel.toInt64

/-- An operand. -/
inductive Value where
  /-- The result of an instruction of the same function. -/
  | temp (index : Nat)
  | int (value : Int64)
  | float (value : Float)
  | bool (value : Bool)
  /-- A constant vector. -/
  | vector (lanes : List Float)
  /-- Unspecified contents, with which a vector built lane by lane begins. -/
  | undefined
  /-- An argument of the function. -/
  | param (name : String)
  /-- The address of a global variable. -/
  | global (name : String)
  /-- A function, to be called. -/
  | function (name : String)
  deriving Inhabited

/-- The written form of a temporary value. -/
def tempText (index : Nat) : String :=
  "%t" ++ toString index

/-- The written form of a floating-point constant: never that of an integer. -/
def floatText (x : Float) : String :=
  Decimal.Layout.scientific.write x

/-- Texts with a comma and a blank between them. -/
def commaText (texts : List String) : String :=
  String.intercalate ", " texts

namespace Value

/-- Whether the value is known before anything runs. -/
def isConstant : Value → Bool
  | int _ | float _ | bool _ | vector _ => true
  | _ => false

/-- The index of a temporary value. -/
def temp? : Value → Option Nat
  | temp index => some index
  | _ => none

/-- The written form. -/
def text : Value → String
  | temp index => tempText index
  | int value => toString value.toInt
  | float value => floatText value
  | bool value => if value then "true" else "false"
  | vector lanes => "<" ++ commaText (lanes.map floatText) ++ ">"
  | undefined => "undef"
  | param name => "%" ++ name
  | global name | function name => "@" ++ name

end Value

end ShaderLang.Ir
