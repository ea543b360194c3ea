import ShaderLang.Lowering.Emit

/-!
# Coercion

Any value that has a type can be brought to any other type, because a subtree of type `error` passes
the checker whatever it evaluates to. Scalars convert among themselves, truth values as zero and
one, and what is not zero as true. A scalar fills all lanes of a vector or a matrix; a vector or a
matrix of another width is spread from its first lane. An array is filled element by element. Read
as a scalar, whatever has several gives its first one, and what has none gives zero.
-/

namespace ShaderLang.Lowering

open Ir (Build)

/-- Stores an array in a slot of its own, so that its elements have addresses. -/
def spill (array : TypedValue) : Emit Ir.Value := do
  let slot ← Build.alloca array.ty.toIr "spill"
  Build.store slot array.value
  return slot

/-- A vector with one value in all lanes. -/
def splat (scalar : Ir.Value) (lanes : Nat) : Emit Ir.Value :=
  (List.range lanes).foldlM (fun vector lane => Build.insertLane vector scalar lane) .undefined

/-- Converts between scalars. -/
def convertScalar (scalar : TypedValue) (target : Ty) : Emit Ir.Value :=
  if scalar.ty = target then
    return scalar.value
  else
    match scalar.ty, target with
    | .int, .float => Build.convert .intToFloat scalar.value
    | .float, .int => Build.convert .floatToInt scalar.value
    | .bool, .int => Build.convert .boolToInt scalar.value
    | .bool, .float => Build.convert .boolToFloat scalar.value
    | .int, .bool => Build.compare .ne scalar.value (.int 0)
    | .float, .bool => Build.compare .one scalar.value (.float 0.0)
    | source, target => throw (.noConversion source target)

/-- The first scalar of a value of a given type. -/
def scalarOf (value : Ir.Value) : Ty → Emit TypedValue
  | .int => return ⟨value, .int⟩
  | .float => return ⟨value, .float⟩
  | .bool => return ⟨value, .bool⟩
  | .void | .error => return ⟨.int 0, .int⟩
  | .array element length => do
    let slot ← spill ⟨value, .array element length⟩
    let first ← Build.elementAddress slot (.int 0)
    let value ← Build.load element.toIr first
    scalarOf value element
  | .vec2 | .vec3 | .vec4 | .mat2 | .mat3 | .mat4 => do
    let lane ← Build.extractLane value 0
    return ⟨lane, .float⟩

/-- Brings a value to a type. -/
def coerce (typed : TypedValue) (target : Ty) : Emit Ir.Value := do
  if typed.ty = target then
    return typed.value
  else
    match target with
    | .void => return .undefined
    | .error => throw .valueOfErrorType
    | .int | .float | .bool =>
      let scalar ← scalarOf typed.value typed.ty
      convertScalar scalar target
    | .vec2 | .vec3 | .vec4 | .mat2 | .mat3 | .mat4 =>
      if typed.ty.isShaped then
        if typed.ty.lanes = target.lanes then
          return typed.value
        else
          let lane ← Build.extractLane typed.value 0
          splat lane target.lanes
      else
        let scalar ← scalarOf typed.value typed.ty
        let lane ← convertScalar scalar .float
        splat lane target.lanes
    | .array element length =>
      let slot ← Build.alloca (Ty.array element length).toIr "fill"
      match typed.ty with
      | .array source sourceLength =>
        let spilled ← spill typed
        (List.range length).forM fun k => do
          let position := if k < sourceLength then k else 0
          let address ← Build.elementAddress spilled (.int (.ofNat position))
          let value ← Build.load source.toIr address
          let value ← coerce ⟨value, source⟩ element
          let address ← Build.elementAddress slot (.int (.ofNat k))
          Build.store address value
      | _ =>
        let value ← coerce typed element
        (List.range length).forM fun k => do
          let address ← Build.elementAddress slot (.int (.ofNat k))
          Build.store address value
      Build.load (Ty.array element length).toIr slot
  termination_by structural target

/-- A value as arithmetic takes it: numbers, vectors and matrices as they are, truth values as zero
or one, and anything else by its first scalar. -/
def arithmeticView (typed : TypedValue) : Emit TypedValue := do
  if typed.ty.isArithmetic then
    return typed
  else
    let scalar ← scalarOf typed.value typed.ty
    if scalar.ty = .bool then
      let value ← Build.convert .boolToInt scalar.value
      return ⟨value, .int⟩
    else
      return scalar

end ShaderLang.Lowering
