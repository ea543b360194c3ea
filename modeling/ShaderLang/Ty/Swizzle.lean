import ShaderLang.Ty.Basic

/-!
# Swizzles

A swizzle selects lanes of a vector by letters: `v.xy`, `v.zzx`. Each thing that is wrong with one
is found separately, so that `v.xqzw` on a `vec2` has both a letter that names no lane and lanes
past the end.
-/

namespace ShaderLang.Swizzle

/-- One thing that is wrong with a swizzle. -/
inductive Issue where
  /-- What is selected from is no vector. -/
  | nonVectorBase
  /-- A letter other than `x`, `y`, `z` and `w`. -/
  | invalidLetter
  /-- A lane that the vector does not have. -/
  | outOfBound
  /-- More lanes than any vector has. -/
  | oversized
  deriving DecidableEq

/-- The lane that a letter names. -/
def lane? : Char → Option Nat
  | 'x' => some 0
  | 'y' => some 1
  | 'z' => some 2
  | 'w' => some 3
  | _ => none

/-- The lanes that all letters of a swizzle name. -/
def mask? (field : String) : Option (List Nat) :=
  field.toList.mapM lane?

/-- The type of a selection of this many lanes. -/
def resultTy : Nat → Ty
  | 1 => .float
  | n => (Ty.vector? n).getD .error

/-- The most lanes that a swizzle may select. -/
def maxLength : Nat :=
  4

/-- A finding, if there is one. -/
def issueIf (condition : Bool) (issue : Issue) : List Issue :=
  if condition then [issue] else []

/-- All that is wrong with a swizzle on a base of a given type. Nothing is wrong with one on a base
without a type; that mistake is reported elsewhere. -/
def issues (base : Ty) (field : String) : List Issue :=
  if base = .error then
    []
  else
    issueIf (!base.isVector) .nonVectorBase
      ++ issueIf (mask? field).isNone .invalidLetter
      ++ issueIf (base.isVector && (field.toList.filterMap lane?).any (base.lanes ≤ ·)) .outOfBound
      ++ issueIf (maxLength < field.length) .oversized

/-- The type of a swizzle on a base of a given type. -/
def ty (base : Ty) (field : String) : Ty :=
  if base ≠ .error ∧ (issues base field).isEmpty then resultTy field.utf8ByteSize else .error

end ShaderLang.Swizzle
