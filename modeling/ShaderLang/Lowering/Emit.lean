import ShaderLang.Ir.Builder
import ShaderLang.Scope
import ShaderLang.Ty.Swizzle

/-!
# Emitting code

The lowering turns a program into instructions with a builder. It fails where a program makes no
sense at all; what it added before stays in the builder.
-/

namespace ShaderLang

namespace Lowering

/-- Why a program is not lowered. -/
inductive Fault where
  | builder (fault : Ir.Builder.Fault)
  | unresolvedVariable (name : String)
  | noStorage (name : String)
  | unresolvedFunction (name : String)
  | notGenerated (name : String)
  | valueOfErrorType
  | noConversion (source target : Ty)
  | noZero (ty : Ty)
  | noUnit (ty : Ty)
  | emptyComparison
  | invalidSwizzle (field : String)
  | swizzleOutOfRange (field : String)
  | subscriptOfSwizzle
  | subscriptOfNonArray (ty : Ty)
  | notAPlace
  | conditionalOutsideBlock
  | constructorWithoutArgument (ty : Ty)
  | noConstructor (ty : Ty)
  | notConstant
  | breakOutside
  | continueOutside
  | caseNotConstant
  deriving DecidableEq

/-- How messages speak of a fault. -/
def Fault.reason : Fault → String
  | builder fault => fault.reason
  | unresolvedVariable name => "unresolved variable '" ++ name ++ "'"
  | noStorage name => "'" ++ name ++ "' has no storage"
  | unresolvedFunction name => "unresolved function '" ++ name ++ "'"
  | notGenerated name => "'" ++ name ++ "' is not a generated function"
  | valueOfErrorType => "no value has the error type"
  | noConversion source target => "cannot convert " ++ source.text ++ " to " ++ target.text
  | noZero ty => "no zero of type " ++ ty.text
  | noUnit ty => "cannot step a value of type " ++ ty.text
  | emptyComparison => "comparison of empty vector"
  | invalidSwizzle field => "invalid swizzle '" ++ field ++ "'"
  | swizzleOutOfRange field => "swizzle '" ++ field ++ "' out of range"
  | subscriptOfSwizzle => "subscript of a swizzle"
  | subscriptOfNonArray ty => "subscript of non-array " ++ ty.text
  | notAPlace => "expression is not assignable"
  | conditionalOutsideBlock => "conditional outside a block"
  | constructorWithoutArgument ty => ty.text ++ " constructor without argument"
  | noConstructor ty => "cannot construct " ++ ty.text
  | notConstant => "global initializer is not constant"
  | breakOutside => "break outside of a loop or switch"
  | continueOutside => "continue outside of a loop"
  | caseNotConstant => "case label is not an integer constant"

/-- Code that is added with a builder. -/
abbrev Emit (α : Type) := EStateM Fault Ir.Builder α

/-- A single operation on a builder. -/
def Emit.ofBuild {α : Type} (operation : Ir.Build α) : Emit α := fun b =>
  match operation b with
  | .ok value b => .ok value b
  | .error fault b => .error (.builder fault) b

instance : MonadLift Ir.Build Emit where
  monadLift := Emit.ofBuild

/-- An emitted value with its source type. -/
structure TypedValue where
  value : Ir.Value
  ty : Ty

/-- The value that is there, or a fault. -/
def orFault {α : Type} (value : Option α) (fault : Fault) : Emit α :=
  match value with
  | some value => return value
  | none => throw fault

end Lowering

end ShaderLang
