import ShaderLang.Lowering.Place

/-!
# Lowering expressions

The operands of an operation are evaluated from left to right, both sides of `&&` and `||` always,
and of a conditional only the chosen arm.
-/

namespace ShaderLang.Lowering

open Ir (Build)

/-- The place of a variable. -/
def variablePlace (symbols : SymbolTable) (name : String) : Emit Place :=
  match symbols.lookup? name with
  | none => throw (.unresolvedVariable name)
  | some symbol =>
    match symbol.storage, symbol.var? with
    | some (.address address), some v => return .whole address v.ty
    | _, _ => throw (.noStorage name)

/-- The declaration of a function, and the name under which it was generated. -/
def function? (symbols : SymbolTable) (name : String) : Emit (FnDecl × String) :=
  match symbols.lookup? name with
  | none => throw (.unresolvedFunction name)
  | some symbol =>
    match symbol.fn?, symbol.storage with
    | some f, some (.function generated) => return (f, generated)
    | _, _ => throw (.notGenerated name)

/-- The type of a conditional: the one that its arms have in common, or else that of the first arm
that gives a value. -/
def armTy (ifTrue ifFalse : Ty) : Ty :=
  match ifTrue.common? ifFalse with
  | some .error | none => if ifTrue = .void then ifFalse else ifTrue
  | some ty => ty

/-- Ends an arm of a conditional: its value goes into the slot for the result. -/
def endArm (block joined : Nat) (slot : Ir.Value) (ty : Ty) (value : TypedValue) : Emit Unit := do
  Build.position block
  let value ← coerce value ty
  Build.store slot value
  Build.branch joined

/-- Joins the arms of a conditional behind both. The slot for the result belongs to the block that
the conditional began in, as its type is known only now. -/
def joinArms (origin trueEnd falseEnd joined : Nat) (ifTrue ifFalse : TypedValue) : Emit TypedValue := do
  let ty := armTy ifTrue.ty ifFalse.ty
  if ty = .void then
    Build.position trueEnd
    Build.branch joined
    Build.position falseEnd
    Build.branch joined
    Build.position joined
    return ⟨.undefined, .void⟩
  else
    let slot ← Build.allocaIn origin ty.toIr "cond"
    endArm trueEnd joined slot ty ifTrue
    endArm falseEnd joined slot ty ifFalse
    Build.position joined
    let value ← Build.load ty.toIr slot
    return ⟨value, ty⟩

/-- The block to which instructions are added, or another one if there is none. -/
def currentBlockD (default : Nat) : Emit Nat := do
  return (← get).insertion.getD default

/-- Calls a function with values of the types of its formal parameters. -/
def callFn (f : FnDecl) (generated : String) (arguments : List Ir.Value) : Emit TypedValue := do
  let result ← Build.call generated arguments (f.returnTy != .void)
  return ⟨result.getD .undefined, f.returnTy⟩

/-- The place of an element of the array at an address. -/
def elementPlace (array : Ir.Value) (ty : Ty) (index : TypedValue) : Emit Place := do
  let index ← coerce index .int
  let address ← Build.elementAddress array index
  return .whole address ty

mutual

/-- Evaluates an expression. -/
def expr (symbols : SymbolTable) : Expr → Emit TypedValue
  | .int _ n => return ⟨.int n, .int⟩
  | .float _ x => return ⟨.float x, .float⟩
  | .bool _ b => return ⟨.bool b, .bool⟩
  | .var _ name => do
    let place ← variablePlace symbols name.name
    place.load
  | .index _ base position => do
    let place ← placeOf symbols base
    let (address, ty) ← place.elementTy
    let index ← expr symbols position
    let place ← elementPlace address ty index
    place.load
  | .binary _ op left right => do
    let lhs ← expr symbols left
    let rhs ← expr symbols right
    binary op lhs rhs
  | .unary _ op operand =>
    match op with
    | .plus => do
      let value ← expr symbols operand
      signed .add value
    | .minus => do
      let value ← expr symbols operand
      signed .sub value
    | .not => do
      let value ← expr symbols operand
      negated value
    | .step direction => do
      let place ← placeOf symbols operand
      place.step direction.arithOp false
  | .assign _ op target value => do
    let place ← placeOf symbols target
    match op with
    | .plain =>
      let result ← expr symbols value
      place.store result
    | .compound op =>
      let current ← place.load
      let rhs ← expr symbols value
      let result ← arith op current rhs
      place.store result
  | .stepAfter _ direction operand => do
    let place ← placeOf symbols operand
    place.step direction.arithOp true
  | .conditional _ test ifTrue ifFalse => do
    let condition ← expr symbols test
    let condition ← coerce condition .bool
    let origin ← orFault (← get).insertion .conditionalOutsideBlock
    let trueBlock ← Build.createBlock "cond.then"
    let falseBlock ← Build.createBlock "cond.else"
    let joined ← Build.createBlock "cond.end"
    Build.condBranch condition trueBlock falseBlock
    Build.position trueBlock
    let trueValue ← expr symbols ifTrue
    let trueEnd ← currentBlockD trueBlock
    Build.position falseBlock
    let falseValue ← expr symbols ifFalse
    let falseEnd ← currentBlockD falseBlock
    joinArms origin trueEnd falseEnd joined trueValue falseValue
  | .field _ base name => do
    let lanes ← maskOf name.name
    let value ← expr symbols base
    selectFrom value lanes
  | .call _ callee arguments => do
    let (f, generated) ← function? symbols callee.name
    let values ← actuals symbols f.formals arguments
    callFn f generated values
  | .construct _ target arguments => do
    let values ← exprs symbols arguments
    construct target values

/-- Evaluates expressions from left to right. -/
def exprs (symbols : SymbolTable) : List Expr → Emit (List TypedValue)
  | [] => return []
  | e :: rest => do
    let value ← expr symbols e
    let values ← exprs symbols rest
    return value :: values

/-- Evaluates the arguments of a call, each brought to the type of its formal parameter. Arguments
without one are not evaluated. -/
def actuals (symbols : SymbolTable) (formals : List VarDecl) : List Expr → Emit (List Ir.Value)
  | [] => return []
  | e :: rest =>
    match formals with
    | [] => return []
    | formal :: formals => do
      let value ← expr symbols e
      let actual ← coerce value formal.ty
      let others ← actuals symbols formals rest
      return actual :: others

/-- The place that an expression names. -/
def placeOf (symbols : SymbolTable) : Expr → Emit Place
  | .var _ name => variablePlace symbols name.name
  | .index _ base position => do
    let place ← placeOf symbols base
    let (address, ty) ← place.elementTy
    let index ← expr symbols position
    elementPlace address ty index
  | .field _ base name => do
    let mask ← maskOf name.name
    let place ← placeOf symbols base
    place.select name.name mask
  | _ => throw .notAPlace

end

end ShaderLang.Lowering
