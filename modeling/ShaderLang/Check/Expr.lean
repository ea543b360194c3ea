import ShaderLang.Finding
import ShaderLang.Typing

/-!
# Checking expressions

Walks an expression, reports all that is wrong in it, and gives its type. The operands come first,
from left to right, then the operation itself.
-/

namespace ShaderLang

namespace Check

open Typing

/-- The variable at the root of a chain of fields and subscripts. -/
def rootVariable? : Expr → Option Ident
  | .var _ name => some name
  | .field _ base _ | .index _ base _ => rootVariable? base
  | _ => none

/-- Reports a write to something that cannot be written: what is no place at all, or belongs to a
constant variable. -/
def place (symbols : SymbolTable) (target : Expr) (op : String) : Report Unit :=
  match rootVariable? target with
  | none => Report.note (.notAPlace op) target.span
  | some root =>
    let isConst := ((symbols.lookup? root.name).bind Symbol.var?).any VarDecl.isConst
    Report.noteIf isConst (.assignToConst root.name) target.span

/-- Reports a test whose type is not `bool`. -/
def testTy (found : Ty) (span : Span) : Report Unit :=
  Report.noteIf (found != .bool && found != .error) (.testNotBool found) span

/-- What the findings on a swizzle are called. -/
def swizzleCause (field : String) (base : Ty) : Swizzle.Issue → Finding.Cause
  | .nonVectorBase => .swizzleOfNonVector field base
  | .invalidLetter => .invalidSwizzle field
  | .outOfBound => .swizzleOutOfBound field base
  | .oversized => .oversizedSwizzle field

/-- Reports the arguments whose types do not convert to those of the formal parameters; `index`
counts the arguments that come before these. -/
def arguments (index : Nat) : List VarDecl → List Ty → List Span → List Finding
  | formal :: formals, actual :: actuals, span :: spans =>
    (if actual.convertsTo formal.ty then []
      else [⟨.argumentMismatch formal.name.name index formal.ty actual, span⟩])
      ++ arguments (index + 1) formals actuals spans
  | _, _, _ => []

/-- Checks a call once the types of its arguments are known. -/
def call (symbols : SymbolTable) (callee : Ident) (actuals : List Ty) (spans : List Span) :
    Report Ty :=
  match symbols.lookup? callee.name with
  | none => ⟨.error, [⟨.notDeclared callee.name .asFunction, callee.span⟩]⟩
  | some symbol =>
    match symbol.fn? with
    | none => ⟨.error, [⟨.notAFunction callee.name, callee.span⟩]⟩
    | some f => do
      let expected := f.formals.length
      let given := actuals.length
      Report.noteIf (given < expected) (.tooFewArguments callee.name expected given) callee.span
      Report.noteIf (expected < given) (.tooManyArguments callee.name expected given) callee.span
      ⟨if given = expected then f.returnTy else .error, arguments 0 f.formals actuals spans⟩

mutual

/-- Checks an expression and all that is in it. -/
def expr (symbols : SymbolTable) : Expr → Report Ty
  | .int .. => return .int
  | .float .. => return .float
  | .bool .. => return .bool
  | .var _ name =>
    Report.orNote (variableTy? symbols name.name) .error (.notDeclared name.name .asVariable) name.span
  | .binary span op left right => do
    let leftTy ← expr symbols left
    let rightTy ← expr symbols right
    Report.orNote (binary? op leftTy rightTy) .error
      (.incompatibleOperands op.text leftTy rightTy) span
  | .unary span op operand => do
    let operandTy ← expr symbols operand
    match op with
    | .step _ => place symbols operand op.text
    | _ => pure ()
    Report.orNote (unary? op operandTy) .error (.incompatibleOperand op.text operandTy) span
  | .assign span op target value => do
    let targetTy ← expr symbols target
    let valueTy ← expr symbols value
    place symbols target op.text
    if isUnknownVariable symbols target then
      return .error
    else
      Report.orNote (assign? op targetTy valueTy) .error
        (.incompatibleOperands op.text targetTy valueTy) span
  | .stepAfter span direction operand => do
    let operandTy ← expr symbols operand
    place symbols operand direction.text
    Report.orNote (arithmeticOperand? operandTy) .error
      (.incompatibleOperand direction.text operandTy) span
  | .conditional span test ifTrue ifFalse => do
    let testTy' ← expr symbols test
    testTy testTy' test.span
    let trueTy ← expr symbols ifTrue
    let falseTy ← expr symbols ifFalse
    Report.orNote (trueTy.common? falseTy) .error
      (.incompatibleOperands "?:" trueTy falseTy) span
  | .index _ base position => do
    let baseTy ← expr symbols base
    let positionTy ← expr symbols position
    Report.noteIf (positionTy != .int && positionTy != .error) (.subscriptNotInt positionTy)
      position.span
    Report.orNote (index? base baseTy) .error (.notAnArray baseTy) base.span
  | .field _ base name => do
    let baseTy ← expr symbols base
    ⟨Swizzle.ty baseTy name.name, (Swizzle.issues baseTy name.name).map fun issue =>
      ⟨swizzleCause name.name baseTy issue, name.span⟩⟩
  | .call _ callee arguments => do
    let actuals ← exprs symbols arguments
    call symbols callee actuals (arguments.map Expr.span)
  | .construct span target arguments => do
    let actuals ← exprs symbols arguments
    Report.orNote (construct? target actuals) .error (.constructorMismatch target actuals) span

/-- Checks expressions from left to right. -/
def exprs (symbols : SymbolTable) : List Expr → Report (List Ty)
  | [] => return []
  | e :: rest => do
    let t ← expr symbols e
    let ts ← exprs symbols rest
    return t :: ts

end

end Check

end ShaderLang
