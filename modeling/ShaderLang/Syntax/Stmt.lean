import ShaderLang.Syntax.Expr
import ShaderLang.Token.Basic

/-!
# Statements

The syntax of statements, and of the variable declarations that stand among them.
-/

namespace ShaderLang

/-- The declaration of a variable: of a global one, of a local one, or of a formal parameter, which
has no initializer. -/
structure VarDecl where
  name : Ident
  ty : Ty
  qualifier : Option Qualifier
  init : Option Expr
  span : Span
  deriving Inhabited

namespace VarDecl

/-- Whether the variable may not be written after its declaration. -/
def isConst (v : VarDecl) : Bool :=
  v.qualifier == some .const

end VarDecl

/-- What a `for` loop begins with. -/
inductive ForInit where
  | expr (e : Expr)
  | declare (v : VarDecl)

/-- One arm of a `switch`: the label behind `case`, or none behind `default`, and what follows up to
the next arm. -/
structure Arm (Body : Type) where
  label : Option Expr
  body : Body
  span : Span

namespace Arm

/-- Whether this is the arm behind `default`. -/
def isDefault {Body : Type} (a : Arm Body) : Bool :=
  a.label.isNone

end Arm

/-- A statement. -/
inductive Stmt where
  | expr (span : Span) (e : Expr)
  | empty (span : Span)
  | declare (v : VarDecl)
  | block (span : Span) (body : List Stmt)
  | ifThen (span : Span) (test : Expr) (ifTrue : Stmt)
  | ifElse (span : Span) (test : Expr) (ifTrue ifFalse : Stmt)
  | whileLoop (span : Span) (test : Expr) (body : Stmt)
  | forLoop (span : Span) (init : Option ForInit) (test step : Option Expr) (body : Stmt)
  | switch (span : Span) (value : Expr) (arms : List (Arm (List Stmt)))
  | breakStmt (span : Span)
  | continueStmt (span : Span)
  | returnStmt (span : Span) (value : Option Expr)
  deriving Inhabited

namespace Stmt

/-- Where a statement is written. -/
def span : Stmt → Span
  | declare v => v.span
  | expr span _ | empty span | block span _ | ifThen span .. | ifElse span .. | whileLoop span ..
  | forLoop span .. | switch span .. | breakStmt span | continueStmt span | returnStmt span _ => span

end Stmt

end ShaderLang
