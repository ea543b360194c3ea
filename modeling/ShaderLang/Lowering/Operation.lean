import ShaderLang.Lowering.Coerce

/-!
# Operations on values

The code for arithmetic, comparisons, constructors and swizzles, once the operands are evaluated.
-/

namespace ShaderLang.Lowering

open Ir (Build)

/-- The arithmetic instruction of an operator, for integers or for floating-point numbers. -/
def arithInst (isInt : Bool) : ArithOp → Ir.BinaryOp
  | .add => if isInt then .add else .fadd
  | .sub => if isInt then .sub else .fsub
  | .mul => if isInt then .mul else .fmul
  | .div => if isInt then .sdiv else .fdiv

/-- The predicate of a comparison, for integers or for floating-point numbers. -/
def predicate (isFloat : Bool) : CompareOp → Ir.Predicate
  | .eq => if isFloat then .oeq else .eq
  | .ne => if isFloat then .one else .ne
  | .lt => if isFloat then .olt else .slt
  | .le => if isFloat then .ole else .sle
  | .gt => if isFloat then .ogt else .sgt
  | .ge => if isFloat then .oge else .sge

/-- The vector or matrix type among two, the left one first. -/
def shapeOf? (left right : Ty) : Option Ty :=
  if left.isShaped then some left else if right.isShaped then some right else none

/-- The zero of a type. -/
def zeroOf (ty : Ty) : Emit Ir.Value :=
  match ty with
  | .int => return .int 0
  | .float => return .float 0.0
  | ty => if ty.isShaped then return .vector (List.replicate ty.lanes 0.0) else throw (.noZero ty)

/-- What one step adds to a value of a type. -/
def unitOf (ty : Ty) : Emit Ir.Value :=
  match ty with
  | .int => return .int 1
  | .float => return .float 1.0
  | ty => if ty.isShaped then splat (.float 1.0) ty.lanes else throw (.noUnit ty)

/-- The type in which two operands of arithmetic meet. Two shapes that do not fit pass the checker
only inside a subtree of type `error`; the left one wins. -/
def meetingTy (left right : Ty) : Ty :=
  match left.arithmeticResult? right with
  | some .error | none => (shapeOf? left right).getD .float
  | some ty => ty

/-- Arithmetic on two values. -/
def arith (op : ArithOp) (left right : TypedValue) : Emit TypedValue := do
  let left ← arithmeticView left
  let right ← arithmeticView right
  let ty := meetingTy left.ty right.ty
  let lhs ← coerce left ty
  let rhs ← coerce right ty
  let value ← Build.binary (arithInst (ty == .int) op) ty.toIr lhs rhs
  return ⟨value, ty⟩

/-- Compares one lane of two vectors. -/
def compareLane (op : CompareOp) (left right : Ir.Value) (lane : Nat) : Emit Ir.Value := do
  let a ← Build.extractLane left lane
  let b ← Build.extractLane right lane
  Build.compare (predicate true op) a b

/-- Compares vectors lane by lane: they are unequal if they differ in one lane, and all other
comparisons have to hold in every lane. -/
def compareLanes (op : CompareOp) (left right : Ir.Value) (lanes : Nat) : Emit TypedValue :=
  match lanes with
  | 0 => throw .emptyComparison
  | lanes + 1 => do
    let fold : Ir.BinaryOp := if op = .ne then .or else .and
    let first ← compareLane op left right 0
    let value ← (List.range lanes).foldlM
      (fun result lane => do
        let holds ← compareLane op left right (lane + 1)
        Build.binary fold .i1 result holds)
      first
    return ⟨value, .bool⟩

/-- Whether a comparison asks for equality or its opposite. -/
def isEquality : CompareOp → Bool
  | .eq | .ne => true
  | _ => false

/-- Compares two values. Truth values are ordered as zero and one. -/
def compare (op : CompareOp) (left right : TypedValue) : Emit TypedValue := do
  if left.ty = .bool ∧ right.ty = .bool ∧ isEquality op then
    let value ← Build.compare (predicate false op) left.value right.value
    return ⟨value, .bool⟩
  else
    let left ← arithmeticView left
    let right ← arithmeticView right
    match shapeOf? left.ty right.ty with
    | some shape =>
      let lhs ← coerce left shape
      let rhs ← coerce right shape
      compareLanes op lhs rhs shape.lanes
    | none =>
      if left.ty = .int ∧ right.ty = .int then
        let value ← Build.compare (predicate false op) left.value right.value
        return ⟨value, .bool⟩
      else
        let lhs ← coerce left .float
        let rhs ← coerce right .float
        let value ← Build.compare (predicate true op) lhs rhs
        return ⟨value, .bool⟩

/-- Joins two truth values, both of which are evaluated. -/
def logic (op : LogicOp) (left right : TypedValue) : Emit TypedValue := do
  let lhs ← coerce left .bool
  let rhs ← coerce right .bool
  let inst : Ir.BinaryOp :=
    match op with
    | .and => .and
    | .or => .or
  let value ← Build.binary inst .i1 lhs rhs
  return ⟨value, .bool⟩

/-- A binary operation on two values. -/
def binary (op : BinaryOp) (left right : TypedValue) : Emit TypedValue :=
  match op with
  | .arith op => arith op left right
  | .compare op => compare op left right
  | .logic op => logic op left right

/-- A sign: the operand is added to zero or subtracted from it. -/
def signed (op : ArithOp) (operand : TypedValue) : Emit TypedValue := do
  let operand ← arithmeticView operand
  let zero ← zeroOf operand.ty
  let value ← Build.binary (arithInst (operand.ty == .int) op) operand.ty.toIr zero operand.value
  return ⟨value, operand.ty⟩

/-- The opposite of a truth value. -/
def negated (operand : TypedValue) : Emit TypedValue := do
  let operand ← coerce operand .bool
  let value ← Build.binary .xor .i1 operand (.bool true)
  return ⟨value, .bool⟩

/-- The lanes that one argument contributes to a vector. -/
def argumentLanes (argument : TypedValue) : Emit (List Ir.Value) := do
  if argument.ty.isShaped then
    (List.range argument.ty.lanes).mapM fun lane => Build.extractLane argument.value lane
  else
    let lane ← coerce argument .float
    return [lane]

/-- The value of a floating-point constant. -/
def floatConstant? : Ir.Value → Option Float
  | .float x => some x
  | _ => none

/-- A vector of given lanes, which is a constant if they all are. -/
def vectorOfLanes (lanes : List Ir.Value) : Emit Ir.Value :=
  match lanes.mapM floatConstant? with
  | some constants => return .vector constants
  | none =>
    lanes.zipIdx.foldlM (fun vector (value, lane) => Build.insertLane vector value lane) .undefined

/-- Cuts a row of lanes off at a width, or fills it up with zeros. -/
def fitLanes (width : Nat) (lanes : List Ir.Value) : List Ir.Value :=
  (lanes ++ List.replicate (width - lanes.length) (Ir.Value.float 0.0)).take width

/-- A vector or a matrix from the lanes of its arguments. -/
def concatenated (width : Nat) (arguments : List TypedValue) : Emit Ir.Value := do
  let lanes ← arguments.mapM argumentLanes
  vectorOfLanes (fitLanes width lanes.flatten)

/-- A vector or a matrix from its arguments. A single scalar goes into all lanes. -/
def shaped (width : Nat) (arguments : List TypedValue) : Emit Ir.Value := do
  match arguments with
  | [single] =>
    if single.ty.isShaped then
      concatenated width arguments
    else
      let scalar ← coerce single .float
      match scalar with
      | .float x => return .vector (List.replicate width x)
      | scalar => splat scalar width
  | _ => concatenated width arguments

/-- A constructor applied to its arguments. -/
def construct (target : Ty) (arguments : List TypedValue) : Emit TypedValue := do
  if target.isShaped then
    let value ← shaped target.lanes arguments
    return ⟨value, target⟩
  else
    match arguments with
    | [] => throw (.constructorWithoutArgument target)
    | first :: _ =>
      if target = .int ∨ target = .float ∨ target = .bool then
        let value ← coerce first target
        return ⟨value, target⟩
      else
        throw (.noConstructor target)

/-- The lanes that a swizzle names. -/
def maskOf (field : String) : Emit (List Nat) :=
  orFault (Swizzle.mask? field) (.invalidSwizzle field)

/-- One lane of a vector as a number, or several as a vector. -/
def selectLanes (vector : Ir.Value) (lanes : List Nat) : Emit TypedValue := do
  let value ←
    match lanes with
    | [lane] => Build.extractLane vector lane
    | lanes => Build.shuffle vector lanes
  return ⟨value, Swizzle.resultTy lanes.length⟩

/-- A swizzle of a value. What does not have all of the lanes is brought to four of them first. -/
def selectFrom (base : TypedValue) (lanes : List Nat) : Emit TypedValue := do
  if base.ty.isShaped && lanes.all (· < base.ty.lanes) then
    selectLanes base.value lanes
  else
    let vector ← coerce base .vec4
    selectLanes vector lanes

end ShaderLang.Lowering
