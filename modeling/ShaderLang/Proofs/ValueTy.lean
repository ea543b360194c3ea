import Mathlib.Data.List.Forall2
import ShaderLang.Lowering.Expr
import ShaderLang.Proofs.Reading
import ShaderLang.Typing

/-!
# The type of a lowered value

The lowering gives every expression a value of a definite type, also where the checker has none:
`i < 2.0` is of type `error` for the checker and a `bool` for the lowering. `valueTy` is that type.
It is `error` only for a selection of more than four lanes and for what passes such a selection on.

`HasCode` says of an expression that the lowering has code for it. The checker does not look below
an operand of type `error`, so it lets pass what has none: a letter that names no lane, a subscript
of something that is no variable, a constructor of `void`, and a conditional that has to bring a
value to a type that has no values.
-/

namespace ShaderLang

open Typing Lowering

namespace Ty

/-- The type of the first scalar of a value. -/
def scalar : Ty → Ty
  | int | void | error => int
  | bool => bool
  | array element _ => element.scalar
  | float | vec2 | vec3 | vec4 | mat2 | mat3 | mat4 => float

/-- The type of a value as arithmetic takes it. -/
def arithmeticView (t : Ty) : Ty :=
  if t.isArithmetic then t else if t.scalar = bool then int else t.scalar

/-- Whether this is a truth value or a number. -/
def isScalar : Ty → Bool
  | int | float | bool => true
  | _ => false

/-- Whether values can be brought to this type: it is not `error`, nor is a part of it. -/
def hasValues : Ty → Bool
  | error => false
  | array element _ => element.hasValues
  | _ => true

theorem isScalar_scalar (t : Ty) : t.scalar.isScalar = true := by
  induction t <;> simp_all [scalar, isScalar]

theorem isArithmetic_arithmeticView (t : Ty) : t.arithmeticView.isArithmetic = true := by
  unfold arithmeticView
  have h := isScalar_scalar t
  split
  · assumption
  · split
    · rfl
    · cases hs : t.scalar <;> simp_all [isScalar, isArithmetic, isNumeric]

theorem arithmeticView_of_isArithmetic {t : Ty} (h : t.isArithmetic = true) :
    t.arithmeticView = t := by
  simp [arithmeticView, h]

theorem hasValues_of_isArithmetic {t : Ty} (h : t.isArithmetic = true) : t.hasValues = true := by
  cases t <;> first | rfl | simp [isArithmetic, isNumeric, isShaped, isVector, isMatrix] at h

theorem ne_error_of_hasValues {t : Ty} (h : t.hasValues = true) : t ≠ error := by
  rintro rfl
  cases h

theorem ne_error_of_isVector {t : Ty} (h : t.isVector = true) : t ≠ error := by
  rintro rfl
  cases h

theorem isArithmetic_of_isShaped {t : Ty} (h : t.isShaped = true) : t.isArithmetic = true := by
  simp [isArithmetic, h]

theorem lanes_pos_of_isShaped {t : Ty} (h : t.isShaped = true) : 0 < t.lanes := by
  cases t <;> first | exact Nat.zero_lt_succ _ | simp [isShaped, isVector, isMatrix] at h

end Ty

/-- The type of what an assignment to a target gives: a vector that is written to some lanes stays
whole, and any other value is of the type of its place. -/
def storedTy (target : Expr) (targetTy valueTy : Ty) : Ty :=
  match target with
  | .field .. => if valueTy.isShaped then valueTy else .float
  | _ => targetTy

/-- The type of what an operation between two operands gives. -/
def binaryTy (op : BinaryOp) (left right : Ty) : Ty :=
  match op with
  | .arith _ => meetingTy left.arithmeticView right.arithmeticView
  | .compare _ | .logic _ => .bool

/-- The type of what an operation on one operand gives. -/
def unaryTy (op : UnaryOp) (operand : Ty) : Ty :=
  match op with
  | .plus | .minus => operand.arithmeticView
  | .not => .bool
  | .step _ => operand

/-- The type of what is assigned: the value itself, or what arithmetic on the old value gives. -/
def assignedTy (op : AssignOp) (target value : Ty) : Ty :=
  match op with
  | .plain => value
  | .compound _ => meetingTy target.arithmeticView value.arithmeticView

/-- The number of lanes that a field names. -/
def laneCount (field : String) : Nat :=
  (Swizzle.mask? field).elim 0 List.length

/-- The type of the value that an expression is lowered to. -/
def valueTy (symbols : SymbolTable) : Expr → Ty
  | .int .. => .int
  | .float .. => .float
  | .bool .. => .bool
  | .var _ name => (variableTy? symbols name.name).getD .error
  | .binary _ op left right => binaryTy op (valueTy symbols left) (valueTy symbols right)
  | .unary _ op operand => unaryTy op (valueTy symbols operand)
  | .stepAfter _ _ operand => valueTy symbols operand
  | .assign _ op target value =>
    storedTy target (valueTy symbols target)
      (assignedTy op (valueTy symbols target) (valueTy symbols value))
  | .conditional _ _ ifTrue ifFalse => armTy (valueTy symbols ifTrue) (valueTy symbols ifFalse)
  | .index _ base _ => (valueTy symbols base).element?.getD .error
  | .field _ _ name => Swizzle.resultTy (laneCount name.name)
  | .call _ callee _ => (Typing.function? symbols callee.name).elim .error FnDecl.returnTy
  | .construct _ target _ => target

/-- Whether an expression is the name of a variable. -/
def Expr.IsVar : Expr → Prop
  | .var .. => True
  | _ => False

mutual

/-- Whether the lowering has code for an expression that the checker lets pass. -/
def HasCode (symbols : SymbolTable) : Expr → Prop
  | .int .. | .float .. | .bool .. | .var .. => True
  | .binary _ _ left right => HasCode symbols left ∧ HasCode symbols right
  | .unary _ _ operand | .stepAfter _ _ operand => HasCode symbols operand
  | .assign _ _ target value => HasCode symbols target ∧ HasCode symbols value
  | .conditional _ test ifTrue ifFalse =>
    HasCode symbols test ∧ HasCode symbols ifTrue ∧ HasCode symbols ifFalse ∧
      (armTy (valueTy symbols ifTrue) (valueTy symbols ifFalse) = .error →
        valueTy symbols ifTrue = valueTy symbols ifFalse)
  | .index _ base position => base.IsVar ∧ HasCode symbols position
  | .field _ base name => (Swizzle.mask? name.name).isSome ∧ HasCode symbols base
  | .call _ _ arguments => AllHaveCode symbols arguments
  | .construct _ target arguments => target ≠ .void ∧ AllHaveCode symbols arguments

/-- Whether the lowering has code for all of these expressions. -/
def AllHaveCode (symbols : SymbolTable) : List Expr → Prop
  | [] => True
  | e :: rest => HasCode symbols e ∧ AllHaveCode symbols rest

end

namespace Lowering

/-- The type of what a place holds. -/
def Place.ty : Place → Ty
  | whole _ ty => ty
  | lanes _ _ selected => Swizzle.resultTy selected.length

theorem meetingTy_isArithmetic (left right : Ty) : (meetingTy left right).isArithmetic = true := by
  cases left <;> cases right <;> rfl

theorem isShaped_of_shapeOf? {left right shape : Ty} (h : shapeOf? left right = some shape) :
    shape.isShaped = true := by
  unfold shapeOf? at h
  split at h
  · cases h; assumption
  · split at h
    · cases h; assumption
    · cases h

/-- What is mapped without a failure corresponds one to one. -/
theorem forall₂_of_mapM {α β : Type} {f : α → Option β} {xs : List α} {ys : List β}
    (h : xs.mapM f = some ys) : List.Forall₂ (fun x y => f x = some y) xs ys := by
  induction xs generalizing ys with
  | nil =>
    cases h
    exact .nil
  | cons x xs ih =>
    rw [List.mapM_cons] at h
    obtain ⟨y, hy, h⟩ := Option.bind_eq_some_iff.mp h
    obtain ⟨rest, hrest, hys⟩ := Option.bind_eq_some_iff.mp h
    obtain rfl : y :: rest = ys := Option.some.inj hys
    exact .cons hy (ih hrest)

/-- Lanes of lanes are as many as are picked, and among those they are picked from. -/
theorem length_mapM_getElem? {mask selected composed : List Nat}
    (h : mask.mapM (selected[·]?) = some composed) :
    composed.length = mask.length ∧ ∀ lane ∈ composed, lane ∈ selected := by
  have hall := forall₂_of_mapM h
  clear h
  induction hall with
  | nil => exact ⟨rfl, nofun⟩
  | cons hlane _ ih =>
    exact ⟨congrArg (· + 1) ih.1, List.forall_mem_cons.mpr ⟨List.mem_of_getElem? hlane, ih.2⟩⟩

end Lowering

end ShaderLang
