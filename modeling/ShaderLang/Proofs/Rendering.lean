import Mathlib
import ShaderLang.Grammar

/-!
# Rendering

Programs as rows of tokens. Parentheses are put around an expression where it would be read
otherwise without them: around operands, targets and bases that are more than a literal, a name,
a call or a constructor, around an assignment behind the colon of a conditional, and around an
assignment or a conditional in front of the question mark. A style says where else they are put.
-/

namespace ShaderLang

/-! ## Words and marks -/

/-- The word that names a type. -/
def Ty.word? : Ty → Option Keyword
  | void => some .voidWord
  | int => some .intWord
  | float => some .floatWord
  | bool => some .boolWord
  | vec2 => some .vec2Word
  | vec3 => some .vec3Word
  | vec4 => some .vec4Word
  | mat2 => some .mat2Word
  | mat3 => some .mat3Word
  | mat4 => some .mat4Word
  | array .. | error => none

/-- The word that stands for a qualifier. -/
def Qualifier.word : Qualifier → Keyword
  | input => .inWord
  | output => .outWord
  | const => .constWord
  | uniform => .uniformWord

/-- The mark that stands for an operator. -/
def BinaryOp.mark : BinaryOp → Mark
  | arith .add => .plus
  | arith .sub => .minus
  | arith .mul => .star
  | arith .div => .slash
  | compare .lt => .less
  | compare .le => .lessEqual
  | compare .gt => .greater
  | compare .ge => .greaterEqual
  | compare .eq => .equal
  | compare .ne => .notEqual
  | logic .and => .both
  | logic .or => .either

/-- The mark that stands for a step. -/
def Step.mark : Step → Mark
  | up => .increment
  | down => .decrement

/-- The mark that stands for an operator in front of an operand. -/
def UnaryOp.mark : UnaryOp → Mark
  | plus => .plus
  | minus => .minus
  | step direction => direction.mark
  | not => .bang

/-- The mark that stands for an assignment. -/
def AssignOp.mark : AssignOp → Mark
  | plain => .assign
  | compound .add => .plusAssign
  | compound .sub => .minusAssign
  | compound .mul => .starAssign
  | compound .div => .slashAssign

namespace Grammar

@[simp]
theorem binaryOp?_mark (op : BinaryOp) : binaryOp? (.mark op.mark) = some op := by
  cases op with
  | arith op | compare op | logic op => cases op <;> rfl

@[simp]
theorem step?_mark (direction : Step) : step? (.mark direction.mark) = some direction := by
  cases direction <;> rfl

@[simp]
theorem unaryOp?_mark (op : UnaryOp) : unaryOp? (.mark op.mark) = some op := by
  cases op with
  | step direction => cases direction <;> rfl
  | _ => rfl

@[simp]
theorem assignOp?_mark (op : AssignOp) : assignOp? (.mark op.mark) = some op := by
  cases op with
  | plain => rfl
  | compound op => cases op <;> rfl

end Grammar

/-! ## Expressions -/

/-- A place for an expression, by what may stand in it without parentheses. -/
inductive Slot where
  /-- Anything, as in front of a semicolon or among arguments. -/
  | whole
  /-- Anything, behind the mark of an assignment. -/
  | value
  /-- Anything, between the question mark and the colon of a conditional. -/
  | middle
  /-- Anything but an assignment, as behind the colon of a conditional. -/
  | alternative
  /-- Neither an assignment nor a conditional, as in front of a question mark. -/
  | test
  /-- A literal, a name, a call or a constructor, as next to an operator. -/
  | operand

/-- Whether an expression may stand in a place without parentheses. -/
def Slot.admits : Slot → Expr → Bool
  | whole, _ | value, _ | middle, _ => true
  | alternative, .assign .. => false
  | alternative, _ => true
  | test, .assign .. | test, .conditional .. => false
  | test, _ => true
  | operand, .int .. | operand, .float .. | operand, .bool .. | operand, .var ..
  | operand, .call .. | operand, .construct .. => true
  | operand, _ => false

/-- Says where parentheses are put that could be left out. -/
abbrev Style := Slot → Expr → Bool

namespace Style

/-- The tokens of an expression in their place, in parentheses if it takes them. -/
def put (style : Style) (slot : Slot) (e : Expr) (tokens : List Token.Kind) : List Token.Kind :=
  if slot.admits e && !style slot e then tokens
  else .mark .openParen :: (tokens ++ [.mark .closeParen])

end Style

mutual

/-- The tokens of an expression. -/
def Expr.tokens (style : Style) : Expr → List Token.Kind
  | .int _ n => [.int n]
  | .float _ x => [.float x]
  | .bool _ b => [.keyword (if b then .trueWord else .falseWord)]
  | .var _ name => [.name name.name]
  | .binary _ op left right =>
    style.put .operand left (left.tokens style) ++
      .mark op.mark :: style.put .operand right (right.tokens style)
  | .unary _ op operand => .mark op.mark :: style.put .operand operand (operand.tokens style)
  | .assign _ op target value =>
    style.put .operand target (target.tokens style) ++
      .mark op.mark :: style.put .value value (value.tokens style)
  | .stepAfter _ direction operand =>
    style.put .operand operand (operand.tokens style) ++ [.mark direction.mark]
  | .conditional _ test ifTrue ifFalse =>
    style.put .test test (test.tokens style) ++
      .mark .question :: (style.put .middle ifTrue (ifTrue.tokens style) ++
        .mark .colon :: style.put .alternative ifFalse (ifFalse.tokens style))
  | .index _ base position =>
    style.put .operand base (base.tokens style) ++
      .mark .openBracket :: (style.put .whole position (position.tokens style) ++
        [.mark .closeBracket])
  | .field _ base name =>
    style.put .operand base (base.tokens style) ++ [.mark .dot, .name name.name]
  | .call _ callee arguments =>
    .name callee.name :: .mark .openParen :: (Expr.listTokens style arguments ++
      [.mark .closeParen])
  | .construct _ target arguments =>
    target.word?.toList.map .keyword ++ .mark .openParen :: (Expr.listTokens style arguments ++
      [.mark .closeParen])

/-- The tokens of expressions with commas between them. -/
def Expr.listTokens (style : Style) : List Expr → List Token.Kind
  | [] => []
  | [e] => style.put .whole e (e.tokens style)
  | e :: f :: rest =>
    style.put .whole e (e.tokens style) ++ .mark .comma :: Expr.listTokens style (f :: rest)

end

/-- The tokens of an expression that stands on its own. -/
def Expr.wholeTokens (style : Style) (e : Expr) : List Token.Kind :=
  style.put .whole e (e.tokens style)

/-- The tokens of an expression that may be missing. -/
def Expr.optionTokens (style : Style) (e : Option Expr) : List Token.Kind :=
  e.elim [] (Expr.wholeTokens style)

/-- The tokens of an initializer that may be missing. -/
def Expr.initTokens (style : Style) (e : Option Expr) : List Token.Kind :=
  e.elim [] (.mark .assign :: Expr.wholeTokens style ·)

/-- The tokens of an expression in the parentheses of a statement. -/
def Expr.testTokens (style : Style) (e : Expr) : List Token.Kind :=
  .mark .openParen :: (e.wholeTokens style ++ [.mark .closeParen])

/-! ## Declarations of variables -/

/-- The type of the elements of an array; of no other type there is anything to take off. -/
def Ty.core : Ty → Ty
  | array element _ => element
  | t => t

/-- The brackets behind the name of an array. -/
def Ty.suffixTokens : Ty → List Token.Kind
  | array _ length => [.mark .openBracket, .int (.ofNat length), .mark .closeBracket]
  | _ => []

/-- The tokens of a qualifier, a type and a name. -/
def headTokens (qualifier : Option Qualifier) (ty : Ty) (name : Ident) : List Token.Kind :=
  qualifier.toList.map (.keyword ·.word) ++ (ty.word?.toList.map .keyword ++ [.name name.name])

namespace VarDecl

/-- The tokens of a declaration up to the brackets behind its name: those of a formal parameter. -/
def formalTokens (v : VarDecl) : List Token.Kind :=
  headTokens v.qualifier v.ty.core v.name ++ v.ty.suffixTokens

/-- The tokens of a declaration with its initializer. -/
def tokens (style : Style) (v : VarDecl) : List Token.Kind :=
  v.formalTokens ++ (Expr.initTokens style v.init ++ [.mark .semicolon])

end VarDecl

/-! ## Statements -/

/-- The tokens of what a `for` loop begins with, up to the first semicolon. -/
def ForInit.tokens (style : Style) : Option ForInit → List Token.Kind
  | none => [.mark .semicolon]
  | some (.declare v) => v.tokens style
  | some (.expr e) => e.wholeTokens style ++ [.mark .semicolon]

/-- The tokens of the label of an arm. -/
def Arm.labelTokens (style : Style) : Option Expr → List Token.Kind
  | some e => .keyword .caseWord :: (e.wholeTokens style ++ [.mark .colon])
  | none => [.keyword .defaultWord, .mark .colon]

mutual

/-- The tokens of a statement. -/
def Stmt.tokens (style : Style) : Stmt → List Token.Kind
  | .expr _ e => e.wholeTokens style ++ [.mark .semicolon]
  | .empty _ => [.mark .semicolon]
  | .declare v => v.tokens style
  | .block _ body => .mark .openBrace :: (Stmt.allTokens style body ++ [.mark .closeBrace])
  | .ifThen _ test ifTrue =>
    .keyword .ifWord :: (test.testTokens style ++ ifTrue.tokens style)
  | .ifElse _ test ifTrue ifFalse =>
    .keyword .ifWord :: (test.testTokens style ++
      (ifTrue.tokens style ++ .keyword .elseWord :: ifFalse.tokens style))
  | .whileLoop _ test body => .keyword .whileWord :: (test.testTokens style ++ body.tokens style)
  | .forLoop _ init test step body =>
    .keyword .forWord :: .mark .openParen :: (ForInit.tokens style init ++
      (Expr.optionTokens style test ++ .mark .semicolon :: (Expr.optionTokens style step ++
        .mark .closeParen :: body.tokens style)))
  | .switch _ value arms =>
    .keyword .switchWord :: (value.testTokens style ++
      .mark .openBrace :: Stmt.armsTokens style arms)
  | .breakStmt _ => [.keyword .breakWord, .mark .semicolon]
  | .continueStmt _ => [.keyword .continueWord, .mark .semicolon]
  | .returnStmt _ value =>
    .keyword .returnWord :: (Expr.optionTokens style value ++ [.mark .semicolon])

/-- The tokens of statements one after the other. -/
def Stmt.allTokens (style : Style) : List Stmt → List Token.Kind
  | [] => []
  | s :: rest => s.tokens style ++ Stmt.allTokens style rest

/-- The tokens of the arms of a `switch`, with the brace behind them. -/
def Stmt.armsTokens (style : Style) : List (Arm (List Stmt)) → List Token.Kind
  | [] => [.mark .closeBrace]
  | ⟨label, body, _⟩ :: rest =>
    Arm.labelTokens style label ++ (Stmt.allTokens style body ++ Stmt.armsTokens style rest)

end

/-! ## Programs -/

/-- The tokens of formal parameters with commas between them. -/
def VarDecl.formalsTokens : List VarDecl → List Token.Kind
  | [] => []
  | [v] => v.formalTokens
  | v :: w :: rest => v.formalTokens ++ .mark .comma :: VarDecl.formalsTokens (w :: rest)

/-- The tokens of the declaration of a function. -/
def FnDecl.tokens (style : Style) (f : FnDecl) : List Token.Kind :=
  headTokens none f.returnTy f.name ++
    .mark .openParen :: (VarDecl.formalsTokens f.formals ++
      .mark .closeParen :: .mark .openBrace :: (Stmt.allTokens style f.body.stmts ++
        [.mark .closeBrace]))

/-- The tokens of a declaration at the top of a program. -/
def Decl.tokens (style : Style) : Decl → List Token.Kind
  | .var v => v.tokens style
  | .fn f => f.tokens style

/-- The tokens of a program. -/
def Program.tokens (style : Style) (p : Program) : List Token.Kind :=
  p.flatMap (Decl.tokens style)

end ShaderLang
