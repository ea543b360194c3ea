import ShaderLang.Ir.Ty

/-!
# Source types

The types of the shading language, with the relations between them that both the checker and the
lowering use: which values convert, what an arithmetic operation gives, what the arms of a
conditional have in common, and which constructors accept which arguments.

`error` is the type of a subtree that has none. It converts to and from everything, so that one
mistake is reported once.
-/

namespace ShaderLang

/-- A source type. -/
inductive Ty where
  | void
  | int
  | float
  | bool
  | vec2
  | vec3
  | vec4
  | mat2
  | mat3
  | mat4
  | array (element : Ty) (length : Nat)
  | error
  deriving DecidableEq, Inhabited

namespace Ty

/-- The float vector with this many lanes. -/
def vector? : Nat → Option Ty
  | 2 => some vec2
  | 3 => some vec3
  | 4 => some vec4
  | _ => none

/-- The square float matrix of this dimension. -/
def matrix? : Nat → Option Ty
  | 2 => some mat2
  | 3 => some mat3
  | 4 => some mat4
  | _ => none

/-- Whether this is `int` or `float`. -/
def isNumeric : Ty → Bool
  | int | float => true
  | _ => false

/-- Whether this is a float vector. -/
def isVector : Ty → Bool
  | vec2 | vec3 | vec4 => true
  | _ => false

/-- Whether this is a float matrix. -/
def isMatrix : Ty → Bool
  | mat2 | mat3 | mat4 => true
  | _ => false

/-- Whether this is a vector or a matrix. -/
def isShaped (t : Ty) : Bool :=
  t.isVector || t.isMatrix

/-- Whether this is an array. -/
def isArray : Ty → Bool
  | array .. => true
  | _ => false

/-- Whether arithmetic applies: to numbers, vectors and matrices. -/
def isArithmetic (t : Ty) : Bool :=
  t.isNumeric || t.isShaped

/-- The number of scalar lanes: one for a scalar, `n` for a vector and `n * n` for a matrix. The
other types have none. -/
def lanes : Ty → Nat
  | int | float | bool => 1
  | vec2 => 2
  | vec3 => 3
  | vec4 | mat2 => 4
  | mat3 => 9
  | mat4 => 16
  | void | array .. | error => 0

/-- The lanes of several types altogether. -/
def totalLanes : List Ty → Nat
  | [] => 0
  | t :: ts => t.lanes + totalLanes ts

/-- The element of an array. -/
def element? : Ty → Option Ty
  | array element _ => some element
  | _ => none

/-- Whether a value of type `t` may stand where `u` is expected: the types are the same, an `int`
widens to `float`, or one of them is `error`. -/
def convertsTo (t u : Ty) : Bool :=
  t == u || (t == int && u == float) || t == error || u == error

/-- The type of `+`, `-`, `*` and `/` on two operands. Equal types are kept, `int` next to `float`
widens, and a `float` next to a vector or a matrix is spread over its lanes. -/
def arithmeticResult? (t u : Ty) : Option Ty :=
  if t == error || u == error then some error
  else if !t.isArithmetic || !u.isArithmetic then none
  else if t == u then some t
  else
    match t, u with
    | int, float | float, int => some float
    | float, shaped | shaped, float => if shaped.isShaped then some shaped else none
    | _, _ => none

/-- The type to which both arms of a conditional convert. -/
def common? (t u : Ty) : Option Ty :=
  if t == error || u == error then some error
  else if t == u then some t
  else if t.convertsTo u then some u
  else if u.convertsTo t then some t
  else none

/-- Whether the constructor of this type accepts arguments of these types. A scalar takes one
scalar, `bool` only a `bool`. A vector or a matrix takes either one number, which is spread over all
lanes, or arithmetic arguments with as many lanes altogether as it has itself. -/
def constructibleFrom (target : Ty) (arguments : List Ty) : Bool :=
  if arguments.any (· == error) then true
  else
    match target with
    | int | float =>
      match arguments with
      | [single] => single.isNumeric
      | _ => false
    | bool =>
      match arguments with
      | [single] => single == bool
      | _ => false
    | vec2 | vec3 | vec4 | mat2 | mat3 | mat4 =>
      (match arguments with
        | [single] => single.isNumeric
        | _ => false)
      || !arguments.isEmpty && arguments.all isArithmetic
          && totalLanes arguments == target.lanes
    | _ => false

/-- The intermediate type that holds values of this type. -/
def toIr : Ty → Ir.Ty
  | void | error => .void
  | int => .i32
  | float => .f32
  | bool => .i1
  | vec2 => .vector .f32 2
  | vec3 => .vector .f32 3
  | vec4 | mat2 => .vector .f32 4
  | mat3 => .vector .f32 9
  | mat4 => .vector .f32 16
  | array element length => .array element.toIr length

/-- The written form. The last brackets of an array are the outermost array's. -/
def text : Ty → String
  | void => "void"
  | int => "int"
  | float => "float"
  | bool => "bool"
  | vec2 => "vec2"
  | vec3 => "vec3"
  | vec4 => "vec4"
  | mat2 => "mat2"
  | mat3 => "mat3"
  | mat4 => "mat4"
  | array element length => element.text ++ "[" ++ toString length ++ "]"
  | error => "error"

@[simp]
theorem convertsTo_self (t : Ty) : t.convertsTo t = true := by
  simp [convertsTo]

@[simp]
theorem error_convertsTo (t : Ty) : convertsTo error t = true := by
  simp [convertsTo]

@[simp]
theorem convertsTo_error (t : Ty) : t.convertsTo error = true := by
  simp [convertsTo]

/-- A vector or a matrix lowers to a vector of its lanes. -/
theorem toIr_of_isShaped {t : Ty} (h : t.isShaped = true) : t.toIr = .vector .f32 t.lanes := by
  cases t <;> simp_all [isShaped, isVector, isMatrix, toIr, lanes]

end Ty

end ShaderLang
