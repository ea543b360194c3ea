import ShaderLang.Syntax.Program

/-!
# Every expression of a program

`Everywhere P` says that `P` holds of an expression and of all that is in it, or of all expressions
in a statement or a program.
-/

namespace ShaderLang

mutual

def Expr.Everywhere (P : Expr → Prop) : Expr → Prop
  | .int span n => P (.int span n)
  | .float span x => P (.float span x)
  | .bool span b => P (.bool span b)
  | .var span name => P (.var span name)
  | .binary span op left right =>
    P (.binary span op left right) ∧ left.Everywhere P ∧ right.Everywhere P
  | .unary span op operand => P (.unary span op operand) ∧ operand.Everywhere P
  | .assign span op target value =>
    P (.assign span op target value) ∧ target.Everywhere P ∧ value.Everywhere P
  | .stepAfter span direction operand =>
    P (.stepAfter span direction operand) ∧ operand.Everywhere P
  | .conditional span test ifTrue ifFalse =>
    P (.conditional span test ifTrue ifFalse) ∧ test.Everywhere P ∧ ifTrue.Everywhere P ∧
      ifFalse.Everywhere P
  | .index span base position =>
    P (.index span base position) ∧ base.Everywhere P ∧ position.Everywhere P
  | .field span base name => P (.field span base name) ∧ base.Everywhere P
  | .call span callee arguments => P (.call span callee arguments) ∧ Expr.AllEverywhere P arguments
  | .construct span target arguments =>
    P (.construct span target arguments) ∧ Expr.AllEverywhere P arguments

def Expr.AllEverywhere (P : Expr → Prop) : List Expr → Prop
  | [] => True
  | e :: rest => e.Everywhere P ∧ Expr.AllEverywhere P rest

end

def VarDecl.Everywhere (P : Expr → Prop) (v : VarDecl) : Prop :=
  ∀ e ∈ v.init, e.Everywhere P

def ForInit.Everywhere (P : Expr → Prop) : ForInit → Prop
  | .expr e => e.Everywhere P
  | .declare v => v.Everywhere P

mutual

def Stmt.Everywhere (P : Expr → Prop) : Stmt → Prop
  | .expr _ e => e.Everywhere P
  | .empty _ | .breakStmt _ | .continueStmt _ => True
  | .declare v => v.Everywhere P
  | .block _ body => Stmt.AllEverywhere P body
  | .ifThen _ test ifTrue => test.Everywhere P ∧ ifTrue.Everywhere P
  | .ifElse _ test ifTrue ifFalse =>
    test.Everywhere P ∧ ifTrue.Everywhere P ∧ ifFalse.Everywhere P
  | .whileLoop _ test body => test.Everywhere P ∧ body.Everywhere P
  | .forLoop _ init test step body =>
    (∀ i ∈ init, i.Everywhere P) ∧ (∀ e ∈ test, e.Everywhere P) ∧ (∀ e ∈ step, e.Everywhere P) ∧
      body.Everywhere P
  | .switch _ value arms => value.Everywhere P ∧ Stmt.ArmsEverywhere P arms
  | .returnStmt _ value => ∀ e ∈ value, e.Everywhere P

def Stmt.AllEverywhere (P : Expr → Prop) : List Stmt → Prop
  | [] => True
  | s :: rest => s.Everywhere P ∧ Stmt.AllEverywhere P rest

def Stmt.ArmsEverywhere (P : Expr → Prop) : List (Arm (List Stmt)) → Prop
  | [] => True
  | ⟨label, body, _⟩ :: rest =>
    (∀ e ∈ label, e.Everywhere P) ∧ Stmt.AllEverywhere P body ∧ Stmt.ArmsEverywhere P rest

end

def Decl.Everywhere (P : Expr → Prop) : Decl → Prop
  | .var v => v.Everywhere P
  | .fn f => Stmt.AllEverywhere P f.body.stmts

def Program.Everywhere (P : Expr → Prop) (p : Program) : Prop :=
  ∀ d ∈ p, d.Everywhere P

theorem Expr.Everywhere.self {P : Expr → Prop} {e : Expr} (h : e.Everywhere P) : P e := by
  cases e <;> first | exact h | exact h.1

mutual

theorem Expr.Everywhere.imp {P Q : Expr → Prop} (hPQ : ∀ e, P e → Q e) {e : Expr}
    (h : e.Everywhere P) : e.Everywhere Q := by
  match e with
  | .int .. | .float .. | .bool .. | .var .. => exact hPQ _ h
  | .binary .. | .assign .. | .index .. => exact ⟨hPQ _ h.1, h.2.1.imp hPQ, h.2.2.imp hPQ⟩
  | .unary .. | .stepAfter .. | .field .. => exact ⟨hPQ _ h.1, h.2.imp hPQ⟩
  | .conditional .. => exact ⟨hPQ _ h.1, h.2.1.imp hPQ, h.2.2.1.imp hPQ, h.2.2.2.imp hPQ⟩
  | .call .. | .construct .. => exact ⟨hPQ _ h.1, Expr.AllEverywhere.imp hPQ h.2⟩

theorem Expr.AllEverywhere.imp {P Q : Expr → Prop} (hPQ : ∀ e, P e → Q e) {es : List Expr}
    (h : Expr.AllEverywhere P es) : Expr.AllEverywhere Q es := by
  match es with
  | [] => trivial
  | e :: rest => exact ⟨h.1.imp hPQ, Expr.AllEverywhere.imp hPQ h.2⟩

end

/-- The span of an expression may change where the property holds of it all the same. -/
theorem Expr.Everywhere.withSpan {P : Expr → Prop} {e : Expr} {span : Span} (h : e.Everywhere P)
    (he : P (e.withSpan span)) : (e.withSpan span).Everywhere P := by
  cases e <;> first | exact he | exact ⟨he, h.2⟩

/-- A field name of an expression, if it has one at its root, has four letters at most. -/
def Expr.HasShortField : Expr → Prop
  | .field _ _ name => name.name.length ≤ 4
  | _ => True

end ShaderLang
