/-!
# Types of intermediate values

The intermediate form knows truth values, integers, floating-point numbers, addresses, fixed-width
vectors and fixed-length arrays. A matrix is a vector of all its lanes. Sizes are machine words.
-/

namespace ShaderLang.Ir

/-- The type of an intermediate value. -/
inductive Ty where
  | void
  | i1
  | i32
  | f32
  | ptr
  | vector (element : Ty) (lanes : Nat)
  | array (element : Ty) (count : Nat)
  deriving DecidableEq, Inhabited

namespace Ty

/-- The size in bytes, in the arithmetic of 64-bit words. -/
def size : Ty → UInt64
  | void => 0
  | i1 => 1
  | i32 | f32 => 4
  | ptr => 8
  | vector element lanes => element.size * .ofNat lanes
  | array element count => element.size * .ofNat count

/-- The alignment in bytes. An array is aligned like its element. -/
def align : Ty → Nat
  | void | i1 => 1
  | i32 | f32 => 4
  | ptr => 8
  | vector .. => 16
  | array element _ => element.align

/-- Whether this is the type of no value. -/
def isVoid : Ty → Bool
  | void => true
  | _ => false

/-- Whether this is a truth value or an integer. -/
def isInteger : Ty → Bool
  | i1 | i32 => true
  | _ => false

/-- Whether this is a floating-point number. -/
def isFloat : Ty → Bool
  | f32 => true
  | _ => false

/-- Whether this is a vector. -/
def isVector : Ty → Bool
  | vector .. => true
  | _ => false

/-- The number of lanes of a vector, and one for any other type. -/
def lanes : Ty → Nat
  | vector _ lanes => lanes
  | _ => 1

/-- The element of a vector or an array. -/
def element? : Ty → Option Ty
  | vector element _ | array element _ => some element
  | _ => none

/-- The written form: `<4 x f32>` is a vector, `[2 x i32]` an array. -/
def text : Ty → String
  | void => "void"
  | i1 => "i1"
  | i32 => "i32"
  | f32 => "f32"
  | ptr => "ptr"
  | vector element lanes => "<" ++ toString lanes ++ " x " ++ element.text ++ ">"
  | array element count => "[" ++ toString count ++ " x " ++ element.text ++ "]"

end Ty

end ShaderLang.Ir
