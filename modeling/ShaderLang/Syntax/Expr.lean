import ShaderLang.Span
import ShaderLang.Ty.Basic

/-!
# Expressions

The syntax of expressions. Every node carries the span that it was read from; types are not part of
the syntax, they follow from it and from the declarations in scope.
-/

namespace ShaderLang

/-- A name and where it is written. -/
structure Ident where
  name : String
  span : Span
  deriving DecidableEq, Inhabited

/-- The arithmetic operators. -/
inductive ArithOp where
  | add | sub | mul | div
  deriving DecidableEq

/-- The operators that compare. -/
inductive CompareOp where
  | lt | le | gt | ge | eq | ne
  deriving DecidableEq

/-- The operators on truth values. -/
inductive LogicOp where
  | and | or
  deriving DecidableEq

/-- The operators between two operands. Those of one group share one typing rule. -/
inductive BinaryOp where
  | arith (op : ArithOp)
  | compare (op : CompareOp)
  | logic (op : LogicOp)
  deriving DecidableEq

/-- The spelling of an arithmetic operator. -/
def ArithOp.text : ArithOp → String
  | add => "+"
  | sub => "-"
  | mul => "*"
  | div => "/"

/-- The spelling of a comparison. -/
def CompareOp.text : CompareOp → String
  | lt => "<"
  | le => "<="
  | gt => ">"
  | ge => ">="
  | eq => "=="
  | ne => "!="

namespace BinaryOp

/-- How tightly an operator binds; the tighter ones have the higher levels. -/
def level : BinaryOp → Nat
  | logic .or => 0
  | logic .and => 1
  | compare .eq | compare .ne => 2
  | compare _ => 3
  | arith .add | arith .sub => 4
  | arith .mul | arith .div => 5

/-- The spelling of an operator. -/
def text : BinaryOp → String
  | arith op => op.text
  | compare op => op.text
  | logic .and => "&&"
  | logic .or => "||"

end BinaryOp

/-- One up or one down. -/
inductive Step where
  | up
  | down
  deriving DecidableEq

namespace Step

/-- The spelling of a step. -/
def text : Step → String
  | up => "++"
  | down => "--"

/-- The arithmetic that takes the step. -/
def arithOp : Step → ArithOp
  | up => .add
  | down => .sub

end Step

/-- The operators in front of one operand. -/
inductive UnaryOp where
  | plus
  | minus
  | step (direction : Step)
  | not
  deriving DecidableEq

namespace UnaryOp

/-- The spelling of an operator. -/
def text : UnaryOp → String
  | plus => "+"
  | minus => "-"
  | step direction => direction.text
  | not => "!"

end UnaryOp

/-- The assignments: plain, or with an arithmetic operation on the old value first. -/
inductive AssignOp where
  | plain
  | compound (op : ArithOp)
  deriving DecidableEq

namespace AssignOp

/-- The spelling of an assignment. -/
def text : AssignOp → String
  | plain => "="
  | compound op => op.text ++ "="

end AssignOp

/-- An expression. -/
inductive Expr where
  | int (span : Span) (value : Int64)
  | float (span : Span) (value : Float)
  | bool (span : Span) (value : Bool)
  | var (span : Span) (name : Ident)
  | binary (span : Span) (op : BinaryOp) (left right : Expr)
  | unary (span : Span) (op : UnaryOp) (operand : Expr)
  | assign (span : Span) (op : AssignOp) (target value : Expr)
  | stepAfter (span : Span) (direction : Step) (operand : Expr)
  | conditional (span : Span) (test ifTrue ifFalse : Expr)
  | index (span : Span) (base position : Expr)
  | field (span : Span) (base : Expr) (name : Ident)
  | call (span : Span) (callee : Ident) (arguments : List Expr)
  | construct (span : Span) (target : Ty) (arguments : List Expr)
  deriving Inhabited

namespace Expr

/-- Where an expression is written. -/
def span : Expr → Span
  | int span _ | float span _ | bool span _ | var span _ | binary span .. | unary span ..
  | assign span .. | stepAfter span .. | conditional span .. | index span .. | field span ..
  | call span .. | construct span .. => span

/-- The same expression with another span. -/
def withSpan (span : Span) : Expr → Expr
  | int _ value => int span value
  | float _ value => float span value
  | bool _ value => bool span value
  | var _ name => var span name
  | binary _ op left right => binary span op left right
  | unary _ op operand => unary span op operand
  | assign _ op target value => assign span op target value
  | stepAfter _ direction operand => stepAfter span direction operand
  | conditional _ test ifTrue ifFalse => conditional span test ifTrue ifFalse
  | index _ base position => index span base position
  | field _ base name => field span base name
  | call _ callee arguments => call span callee arguments
  | construct _ target arguments => construct span target arguments

/-- Whether an expression names storage that can be written. -/
def isPlace : Expr → Bool
  | var .. | field .. | index .. => true
  | _ => false

/-- The value of an integer literal, signs in front of it taken into account. -/
def constInt? : Expr → Option Int64
  | int _ value => some value
  | unary _ .minus operand => operand.constInt?.map (- ·)
  | unary _ .plus operand => operand.constInt?
  | _ => none

mutual

/-- Whether an expression is built from literals, signs and constructors alone, so that a global
variable may be initialized with it. -/
def isConstant : Expr → Bool
  | int .. | float .. | bool .. => true
  | unary _ .minus operand | unary _ .plus operand => operand.isConstant
  | construct _ _ arguments => areConstant arguments
  | _ => false

/-- Whether all of these expressions are constant. -/
def areConstant : List Expr → Bool
  | [] => true
  | e :: rest => e.isConstant && areConstant rest

end

@[simp]
theorem span_withSpan (e : Expr) (span : Span) : (e.withSpan span).span = span := by
  cases e <;> rfl

@[simp]
theorem areConstant_eq_all (es : List Expr) : areConstant es = es.all isConstant := by
  induction es with
  | nil => simp [areConstant]
  | cons e es ih => simp [areConstant, ih]

end Expr

end ShaderLang
