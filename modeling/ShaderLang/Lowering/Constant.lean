import ShaderLang.Ir.Value
import ShaderLang.Syntax.Expr

/-!
# Constant initializers

The initial value of a global variable is computed before anything runs. The type of the variable
is carried inwards, so that a literal is converted where it stands.
-/

namespace ShaderLang.Lowering

/-- Converts a constant scalar to the type of its place. A fraction is cut off. -/
def settle (value : Ir.Value) (target : Ty) : Ir.Value :=
  match value, target with
  | .float x, .int => .int (Ir.intOfFloat x)
  | .bool b, .int => .int (if b then 1 else 0)
  | .bool b, .float => .float (if b then 1.0 else 0.0)
  | .int n, .bool => .bool (n != 0)
  | .float x, .bool => .bool (x != 0.0)
  | value, _ => value

/-- The negative of a constant number. -/
def negate? : Ir.Value → Option Ir.Value
  | .int n => some (.int (-n))
  | .float x => some (.float (-x))
  | _ => none

/-- The lanes that a constant contributes to a vector. -/
def lanesOf? : Ir.Value → Option (List Float)
  | .float x => some [x]
  | .vector lanes => some lanes
  | _ => none

/-- A vector of some lanes; a single one is repeated. -/
def vectorOf (width : Nat) (lanes : List Float) : Ir.Value :=
  match lanes with
  | [x] => .vector (List.replicate width x)
  | lanes => .vector lanes

mutual

/-- The value of a constant expression at a place of a given type, if it is constant. -/
def constant? (target : Ty) : Expr → Option Ir.Value
  | .int _ n => some (settle (if target == .float then .float (Ir.floatOfInt n) else .int n) target)
  | .float _ x => some (settle (.float x) target)
  | .bool _ b => some (settle (.bool b) target)
  | .unary _ .plus operand => (constant? target operand).map (settle · target)
  | .unary _ .minus operand =>
    ((constant? target operand).bind negate?).map (settle · target)
  | .construct _ constructed arguments =>
    if constructed.isShaped then
      (constantLanes? arguments).map fun lanes =>
        settle (vectorOf constructed.lanes lanes) target
    else
      (single? target arguments).map (settle · target)
  | _ => none

/-- The lanes of all arguments of a constructor. -/
def constantLanes? : List Expr → Option (List Float)
  | [] => some []
  | e :: rest => do
    let first ← (constant? .float e).bind lanesOf?
    let others ← constantLanes? rest
    return first ++ others

/-- The value of an only argument. -/
def single? (target : Ty) : List Expr → Option Ir.Value
  | [e] => constant? target e
  | _ => none

end

end ShaderLang.Lowering
