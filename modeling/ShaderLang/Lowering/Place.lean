import ShaderLang.Lowering.Operation

/-!
# Places

A place is what a value can be read from and written to: a variable or an element of an array, or
some lanes of a vector in one. Lanes are written one at a time.
-/

namespace ShaderLang.Lowering

open Ir (Build)

/-- What can be written. -/
inductive Place where
  /-- A whole variable or a whole element. -/
  | whole (address : Ir.Value) (ty : Ty)
  /-- Some lanes of what an address holds, in the order in which they are selected. -/
  | lanes (address : Ir.Value) (baseTy : Ty) (selected : List Nat)

/-- Reads some lanes of what an address holds. -/
def loadLanes (address : Ir.Value) (baseTy : Ty) (lanes : List Nat) : Emit TypedValue := do
  let base ← Build.load baseTy.toIr address
  selectLanes base lanes

/-- Replaces one lane of what an address holds. -/
def storeLane (address : Ir.Value) (baseTy : Ty) (lane : Nat) (value : Ir.Value) : Emit Unit := do
  let base ← Build.load baseTy.toIr address
  let updated ← Build.insertLane base value lane
  Build.store address updated

/-- Steps one lane of what an address holds. -/
def stepLane (op : ArithOp) (address : Ir.Value) (baseTy : Ty) (lane : Nat) : Emit Unit := do
  let base ← Build.load baseTy.toIr address
  let x ← Build.extractLane base lane
  let stepped ← Build.binary (arithInst false op) .f32 x (.float 1.0)
  let updated ← Build.insertLane base stepped lane
  Build.store address updated

namespace Place

/-- Reads a place. -/
def load : Place → Emit TypedValue
  | whole address ty => do
    let value ← Build.load ty.toIr address
    return ⟨value, ty⟩
  | lanes address baseTy selected => loadLanes address baseTy selected

/-- Writes a scalar to every lane of a selection, or a vector lane by lane. A vector of another
width gives its first lane to all. -/
def storeLanes (address : Ir.Value) (baseTy : Ty) (lanes : List Nat) (value : TypedValue) :
    Emit TypedValue := do
  if value.ty.isShaped then
    lanes.zipIdx.forM fun (lane, i) => do
      let source ← Build.extractLane value.value (if value.ty.lanes = lanes.length then i else 0)
      storeLane address baseTy lane source
    return value
  else
    let scalar ← coerce value .float
    lanes.forM fun lane => storeLane address baseTy lane scalar
    return ⟨scalar, .float⟩

/-- Writes a value to a place, and gives what was written. -/
def store (value : TypedValue) : Place → Emit TypedValue
  | whole address ty => do
    let stored ← coerce value ty
    Build.store address stored
    return ⟨stored, ty⟩
  | lanes address baseTy selected => storeLanes address baseTy selected value

/-- Steps a place, and gives the value before or the value after. -/
def step (op : ArithOp) (givesOld : Bool) : Place → Emit TypedValue
  | whole address ty => do
    let current ← Build.load ty.toIr address
    let unit ← unitOf ty
    let updated ← Build.binary (arithInst (ty == .int) op) ty.toIr current unit
    Build.store address updated
    return ⟨if givesOld then current else updated, ty⟩
  | lanes address baseTy selected => do
    if givesOld then
      let before ← loadLanes address baseTy selected
      selected.forM (stepLane op address baseTy)
      return before
    else
      selected.forM (stepLane op address baseTy)
      loadLanes address baseTy selected

/-- The element of a place that holds an array. -/
def elementTy : Place → Emit (Ir.Value × Ty)
  | lanes .. => throw .subscriptOfSwizzle
  | whole address ty =>
    match ty.element? with
    | some element => return (address, element)
    | none => throw (.subscriptOfNonArray ty)

/-- Some lanes of a place. Lanes of lanes are lanes of the same vector. -/
def select (field : String) (mask : List Nat) : Place → Emit Place
  | whole address ty => return lanes address ty mask
  | lanes address baseTy selected => do
    let composed ← orFault (mask.mapM (selected[·]?)) (.swizzleOutOfRange field)
    return lanes address baseTy composed

end Place

end ShaderLang.Lowering
