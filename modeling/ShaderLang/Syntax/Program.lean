import ShaderLang.Syntax.Stmt

/-!
# Programs

A program is a list of declarations of global variables and of functions.
-/

namespace ShaderLang

/-- Statements between braces, with a scope of their own. -/
structure Block where
  stmts : List Stmt
  span : Span

/-- The declaration of a function. -/
structure FnDecl where
  name : Ident
  returnTy : Ty
  formals : List VarDecl
  body : Block
  span : Span

/-- A declaration at the top of a program. -/
inductive Decl where
  | var (v : VarDecl)
  | fn (f : FnDecl)

namespace Decl

/-- The name that is declared. -/
def name : Decl → Ident
  | var v => v.name
  | fn f => f.name

/-- Where the declaration is written. -/
def span : Decl → Span
  | var v => v.span
  | fn f => f.span

end Decl

/-- The declarations of a source text, in order. -/
abbrev Program := List Decl

end ShaderLang
