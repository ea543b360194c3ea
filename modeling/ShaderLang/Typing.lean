import ShaderLang.Scope
import ShaderLang.Ty.Swizzle

/-!
# Typing

The type of an expression in a symbol table. The rules for single operations are functions on the
types of the operands that give nothing where the operands do not fit; the checker reports that, and
here it makes the whole expression one of type `error`.
-/

namespace ShaderLang

namespace Typing

/-- Whether values of this type can be compared. -/
def isComparable (t : Ty) : Bool :=
  !t.isArray && t != .void

/-- The type of a comparison. The left operand has to convert to the type of the right one; only
between equal types does the comparison have a type. -/
def comparison? (left right : Ty) : Option Ty :=
  if left == .error || right == .error then some .error
  else if !isComparable left || !isComparable right then none
  else if left.convertsTo right then some (if left == right then .bool else .error)
  else none

/-- The type of a binary operation. -/
def binary? (op : BinaryOp) (left right : Ty) : Option Ty :=
  match op with
  | .arith _ => left.arithmeticResult? right
  | .compare _ => comparison? left right
  | .logic _ =>
    if (left == .bool || left == .error) && (right == .bool || right == .error) then some .bool
    else none

/-- The type of a sign or a step on an operand. -/
def arithmeticOperand? (operand : Ty) : Option Ty :=
  if operand.isArithmetic || operand == .error then some operand else none

/-- The type of an operation on one operand. -/
def unary? (op : UnaryOp) (operand : Ty) : Option Ty :=
  match op with
  | .plus | .minus | .step _ => arithmeticOperand? operand
  | .not => if operand == .error || operand == .bool then some operand else none

/-- The type of an assignment. -/
def assign? (op : AssignOp) (target value : Ty) : Option Ty :=
  match op with
  | .plain =>
    if value.convertsTo target then some (if target == value then target else .error) else none
  | .compound _ =>
    match target.arithmeticResult? value with
    | some result => if result == .error || result == target then some result else none
    | none => none

/-- The type of an element of an array. -/
def element? : Ty → Option Ty
  | .error => some .error
  | .array element _ => some element
  | _ => none

/-- The type of a subscript. Only the variable that holds an array can be subscripted. -/
def index? (base : Expr) (baseTy : Ty) : Option Ty :=
  match base with
  | .var .. => element? baseTy
  | _ => if baseTy == .error then some .error else none

/-- The type of a constructor. -/
def construct? (target : Ty) (arguments : List Ty) : Option Ty :=
  if target.constructibleFrom arguments then some target else none

/-- The type of a name that stands for a variable. -/
def variableTy? (symbols : SymbolTable) (name : String) : Option Ty :=
  ((symbols.lookup? name).bind Symbol.var?).map VarDecl.ty

/-- The declaration of a name that stands for a function. -/
def function? (symbols : SymbolTable) (name : String) : Option FnDecl :=
  (symbols.lookup? name).bind Symbol.fn?

/-- Whether an expression is a name that stands for no variable. -/
def isUnknownVariable (symbols : SymbolTable) : Expr → Bool
  | .var _ name => (variableTy? symbols name.name).isNone
  | _ => false

end Typing

open Typing

mutual

/-- The type of an expression. -/
def typeOf (symbols : SymbolTable) : Expr → Ty
  | .int .. => .int
  | .float .. => .float
  | .bool .. => .bool
  | .var _ name => (variableTy? symbols name.name).getD .error
  | .binary _ op left right =>
    (binary? op (typeOf symbols left) (typeOf symbols right)).getD .error
  | .unary _ op operand => (unary? op (typeOf symbols operand)).getD .error
  | .assign _ op target value =>
    if isUnknownVariable symbols target then .error
    else (assign? op (typeOf symbols target) (typeOf symbols value)).getD .error
  | .stepAfter _ _ operand => (arithmeticOperand? (typeOf symbols operand)).getD .error
  | .conditional _ _ ifTrue ifFalse =>
    ((typeOf symbols ifTrue).common? (typeOf symbols ifFalse)).getD .error
  | .index _ base _ => (index? base (typeOf symbols base)).getD .error
  | .field _ base name => Swizzle.ty (typeOf symbols base) name.name
  | .call _ callee arguments =>
    match function? symbols callee.name with
    | some f => if f.formals.length == arguments.length then f.returnTy else .error
    | none => .error
  | .construct _ target arguments =>
    (construct? target (typesOf symbols arguments)).getD .error

/-- The types of several expressions. -/
def typesOf (symbols : SymbolTable) : List Expr → List Ty
  | [] => []
  | e :: rest => typeOf symbols e :: typesOf symbols rest

end

@[simp]
theorem typesOf_eq_map (symbols : SymbolTable) (es : List Expr) :
    typesOf symbols es = es.map (typeOf symbols) := by
  induction es with
  | nil => simp [typesOf]
  | cons e es ih => simp [typesOf, ih]

end ShaderLang
