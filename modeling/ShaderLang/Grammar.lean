import ShaderLang.Grammar.Cursor
import ShaderLang.Syntax.Program

/-!
# The grammar

A program is a row of declarations. One token of look-ahead is enough everywhere: a declaration
begins with a qualifier or a type, and a type with a parenthesis behind it begins a constructor
instead. Each rule either takes a token before it calls another one, or calls one that binds tighter.
-/

namespace ShaderLang

namespace Grammar

/-! ## Expressions

From the loosest to the tightest: assignments, which associate to the right; conditionals; the
binary operators on six levels, all of which associate to the left; signs and steps in front;
subscripts, fields and steps behind; and primary expressions. -/

/-- The assignment that a token stands for. -/
def assignOp? : Token.Kind → Option AssignOp
  | .mark .assign => some .plain
  | .mark .plusAssign => some (.compound .add)
  | .mark .minusAssign => some (.compound .sub)
  | .mark .starAssign => some (.compound .mul)
  | .mark .slashAssign => some (.compound .div)
  | _ => none

/-- The binary operator that a token stands for. -/
def binaryOp? : Token.Kind → Option BinaryOp
  | .mark .either => some (.logic .or)
  | .mark .both => some (.logic .and)
  | .mark .equal => some (.compare .eq)
  | .mark .notEqual => some (.compare .ne)
  | .mark .less => some (.compare .lt)
  | .mark .lessEqual => some (.compare .le)
  | .mark .greater => some (.compare .gt)
  | .mark .greaterEqual => some (.compare .ge)
  | .mark .plus => some (.arith .add)
  | .mark .minus => some (.arith .sub)
  | .mark .star => some (.arith .mul)
  | .mark .slash => some (.arith .div)
  | _ => none

/-- The operator in front of an operand that a token stands for. -/
def unaryOp? : Token.Kind → Option UnaryOp
  | .mark .plus => some .plus
  | .mark .minus => some .minus
  | .mark .increment => some (.step .up)
  | .mark .decrement => some (.step .down)
  | .mark .bang => some .not
  | _ => none

/-- The step that a token stands for. -/
def step? : Token.Kind → Option Step
  | .mark .increment => some .up
  | .mark .decrement => some .down
  | _ => none

mutual

/-- An expression: an assignment, or a conditional without one. -/
def expr (c : Cursor) : Outcome c.left Expr :=
  (conditional c).bind fun target c₁ h₁ =>
    match assignOp? c₁.current.kind with
    | none => .ok target c₁ h₁
    | some op =>
      (c₁.advance .expression).bind fun _ c₂ h₂ =>
      (expr c₂).bind fun value c₃ h₃ =>
      .ok (.assign (target.span.merge value.span) op target value) c₃ (by omega)
  termination_by (c.left, 6)

/-- A test with two arms, or a binary expression. -/
def conditional (c : Cursor) : Outcome c.left Expr :=
  (binary 0 c).bind fun test c₁ h₁ =>
    if c₁.isAt .question then
      (c₁.advance .expression).bind fun _ c₂ h₂ =>
      (expr c₂).bind fun ifTrue c₃ h₃ =>
      (c₃.expect .colon).bind fun _ c₄ h₄ =>
      (conditional c₄).bind fun ifFalse c₅ h₅ =>
      .ok (.conditional (test.span.merge ifFalse.span) test ifTrue ifFalse) c₅ (by omega)
    else
      .ok test c₁ h₁
  termination_by (c.left, 5)

/-- Operands joined by binary operators of at least a given level. -/
def binary (level : Nat) (c : Cursor) : Outcome c.left Expr :=
  (unary c).bind fun left c₁ h₁ =>
  (operators level left c₁).map (fun e _ => e) h₁
  termination_by (c.left, 4)

/-- The operators of at least a given level behind a left operand, with their right operands. -/
def operators (level : Nat) (left : Expr) (c : Cursor) : Outcome (c.left + 1) Expr :=
  match binaryOp? c.current.kind with
  | none => .ok left c (by omega)
  | some op =>
    if op.level < level then
      .ok left c (by omega)
    else
      (c.advance .expression).bind fun _ c₁ h₁ =>
      (binary (op.level + 1) c₁).bind fun right c₂ h₂ =>
      (operators level (.binary (left.span.merge right.span) op left right) c₂).map
        (fun e _ => e) (by omega)
  termination_by (c.left, 0)

/-- Operators in front of an operand. -/
def unary (c : Cursor) : Outcome c.left Expr :=
  match unaryOp? c.current.kind with
  | none => suffixed c
  | some op =>
    (c.advance .expression).bind fun token c₁ h₁ =>
    (unary c₁).bind fun operand c₂ h₂ =>
    .ok (.unary (token.span.merge operand.span) op operand) c₂ (by omega)
  termination_by (c.left, 3)

/-- A primary expression and what stands directly behind it. -/
def suffixed (c : Cursor) : Outcome c.left Expr :=
  (primary c).bind fun base c₁ h₁ =>
  (suffixes base c₁).map (fun e _ => e) h₁
  termination_by (c.left, 2)

/-- Subscripts, fields and steps behind an expression. -/
def suffixes (base : Expr) (c : Cursor) : Outcome (c.left + 1) Expr :=
  if c.isAt .openBracket then
    (c.advance .expression).bind fun _ c₁ h₁ =>
    (expr c₁).bind fun position c₂ h₂ =>
    (c₂.expect .closeBracket).bind fun _ c₃ h₃ =>
    (suffixes (.index (c₃.spanFrom base.span) base position) c₃).map (fun e _ => e) (by omega)
  else if c.isAt .dot then
    (c.advance .identifier).bind fun _ c₁ h₁ =>
    c₁.ident.bind fun name c₂ h₂ =>
    (suffixes (.field (base.span.merge name.span) base name) c₂).map (fun e _ => e) (by omega)
  else
    match step? c.current.kind with
    | none => .ok base c (by omega)
    | some direction =>
      (c.advance .expression).bind fun _ c₁ h₁ =>
      (suffixes (.stepAfter (c₁.spanFrom base.span) direction base) c₁).map (fun e _ => e)
        (by omega)
  termination_by (c.left, 0)

/-- A constructor, a literal, a name, a call, or an expression in parentheses. The parentheses widen
the span of the expression and leave no other trace. -/
def primary (c : Cursor) : Outcome c.left Expr :=
  (c.advance .expression).bind fun token c₁ h₁ =>
    match token.kind with
    | .int value => .ok (.int (c₁.spanFrom token.span) value) c₁ h₁
    | .float value => .ok (.float (c₁.spanFrom token.span) value) c₁ h₁
    | .keyword .trueWord => .ok (.bool (c₁.spanFrom token.span) true) c₁ h₁
    | .keyword .falseWord => .ok (.bool (c₁.spanFrom token.span) false) c₁ h₁
    | .keyword word =>
      match word.ty? with
      | some target =>
        (arguments c₁).map
          (fun arguments c₂ => .construct (c₂.spanFrom token.span) target arguments) (by omega)
      | none => .error (.unexpected .expression token) c₁
    | .name text =>
      let name := ⟨text, token.span⟩
      if c₁.isAt .openParen then
        (arguments c₁).map
          (fun arguments c₂ => .call (c₂.spanFrom token.span) name arguments) (by omega)
      else
        .ok (.var (c₁.spanFrom token.span) name) c₁ h₁
    | .mark .openParen =>
      (expr c₁).bind fun inner c₂ h₂ =>
      (c₂.expect .closeParen).map (fun _ c₃ => inner.withSpan (c₃.spanFrom token.span)) (by omega)
    | _ => .error (.unexpected .expression token) c₁
  termination_by (c.left, 1)

/-- The arguments of a call or a constructor, between parentheses. -/
def arguments (c : Cursor) : Outcome c.left (List Expr) :=
  (c.expect .openParen).bind fun _ c₁ h₁ =>
    if c₁.isAt .closeParen then
      (c₁.expect .closeParen).map (fun _ _ => []) (by omega)
    else
      (commaList c₁).bind fun arguments c₂ h₂ =>
      (c₂.expect .closeParen).map (fun _ _ => arguments) (by omega)
  termination_by (c.left, 0)

/-- One expression or more, with commas between them. -/
def commaList (c : Cursor) : Outcome c.left (List Expr) :=
  (expr c).bind fun first c₁ h₁ =>
    if c₁.isAt .comma then
      (c₁.advance .expression).bind fun _ c₂ h₂ =>
      (commaList c₂).map (fun others _ => first :: others) (by omega)
    else
      .ok [first] c₁ h₁
  termination_by (c.left, 7)

end

/-! ## Variables and types -/

/-- Takes a qualifier, if one stands here. -/
def qualifier (c : Cursor) : Outcome (c.left + 1) (Option Qualifier) :=
  match c.current.kind.qualifier? with
  | some q => (c.advance .ty).map (fun _ _ => some q) (by omega)
  | none => .ok none c (by omega)

/-- Takes the name of a type. -/
def ty (c : Cursor) : Outcome c.left Ty :=
  match c.current.kind.ty? with
  | some t => (c.advance .ty).map (fun _ _ => t) (by omega)
  | none => .error (.unexpected .ty c.current) c

/-- Takes the length of an array, which is positive. -/
def arrayLength (c : Cursor) : Outcome c.left Nat :=
  c.choose .arrayLength fun token =>
    match token.kind with
    | .int n => if 0 < n then some n.toNatClampNeg else none
    | _ => none

/-- Brackets behind a name make its type an array. -/
def arraySuffix (element : Ty) (c : Cursor) : Outcome (c.left + 1) Ty :=
  if c.isAt .openBracket then
    (c.advance .arrayLength).bind fun _ c₁ h₁ =>
    (arrayLength c₁).bind fun length c₂ h₂ =>
    (c₂.expect .closeBracket).map (fun _ _ => .array element length) (by omega)
  else
    .ok element c (by omega)

/-- What a declaration has in common with a formal parameter: a qualifier, a type and a name. -/
structure Head where
  start : Span
  qualifier : Option Qualifier
  ty : Ty
  name : Ident

/-- Reads a qualifier, a type and a name. -/
def head (c : Cursor) : Outcome c.left Head :=
  (qualifier c).bind fun q c₁ h₁ =>
  (ty c₁).bind fun t c₂ h₂ =>
  c₂.ident.map (fun name _ => ⟨c.current.span, q, t, name⟩) (by omega)

/-- An initializer behind a declared name. -/
def initializer (c : Cursor) : Outcome (c.left + 1) (Option Expr) :=
  if c.isAt .assign then
    (c.advance .expression).bind fun _ c₁ h₁ =>
    (expr c₁).map (fun e _ => some e) (by omega)
  else
    .ok none c (by omega)

/-- What follows the head of a variable declaration. -/
def varRest (d : Head) (c : Cursor) : Outcome c.left VarDecl :=
  (arraySuffix d.ty c).bind fun t c₁ h₁ =>
  (initializer c₁).bind fun init c₂ h₂ =>
  (c₂.expect .semicolon).map
    (fun _ c₃ => ⟨d.name, t, d.qualifier, init, c₃.spanFrom d.start⟩) (by omega)

/-- The declaration of a variable. -/
def varDecl (c : Cursor) : Outcome c.left VarDecl :=
  (head c).bind fun d c₁ h₁ =>
  (varRest d c₁).map (fun v _ => v) (by omega)

/-- A formal parameter. -/
def formal (c : Cursor) : Outcome c.left VarDecl :=
  (head c).bind fun d c₁ h₁ =>
  (arraySuffix d.ty c₁).map
    (fun t c₂ => ⟨d.name, t, d.qualifier, none, c₂.spanFrom d.start⟩) (by omega)

/-! ## Statements -/

/-- Whether a declaration begins here. -/
def atDeclaration (c : Cursor) : Except Token.Fault Bool :=
  if c.current.kind.isQualifier then
    .ok true
  else if c.current.kind.isType then
    c.peek.map fun kind => !kind.isMark .openParen
  else
    .ok false

/-- An expression, unless a mark stands here at once. -/
def exprUnless (m : Mark) (c : Cursor) : Outcome (c.left + 1) (Option Expr) :=
  if c.isAt m then
    .ok none c (by omega)
  else
    (expr c).map (fun e _ => some e) (by omega)

/-- A test in parentheses. -/
def test (c : Cursor) : Outcome c.left Expr :=
  (c.expect .openParen).bind fun _ c₁ h₁ =>
  (expr c₁).bind fun e c₂ h₂ =>
  (c₂.expect .closeParen).map (fun _ _ => e) (by omega)

/-- What a `for` loop begins with, up to the first semicolon. -/
def forInit (c : Cursor) : Outcome c.left (Option ForInit) :=
  if c.isAt .semicolon then
    (c.expect .semicolon).map (fun _ _ => none) (by omega)
  else
    match atDeclaration c with
    | .error fault => .error (.fault fault) c
    | .ok true => (varDecl c).map (fun v _ => some (.declare v)) (by omega)
    | .ok false =>
      (expr c).bind fun e c₁ h₁ =>
      (c₁.expect .semicolon).map (fun _ _ => some (.expr e)) (by omega)

/-- The label of an arm, with the colon behind it. -/
def label (c : Cursor) : Outcome c.left (Option Expr) :=
  if c.isAtWord .caseWord then
    (c.advance .arm).bind fun _ c₁ h₁ =>
    (expr c₁).bind fun e c₂ h₂ =>
    (c₂.expect .colon).map (fun _ _ => some e) (by omega)
  else if c.isAtWord .defaultWord then
    (c.advance .arm).bind fun _ c₁ h₁ =>
    (c₁.expect .colon).map (fun _ _ => none) (by omega)
  else
    .error (.unexpected .arm c.current) c

mutual

/-- Statements between braces. -/
def block (c : Cursor) : Outcome c.left Block :=
  (c.expect .openBrace).bind fun token c₁ h₁ =>
  (blockBody c₁).map (fun stmts c₂ => ⟨stmts, c₂.spanFrom token.span⟩) (by omega)
  termination_by (c.left, 1)

/-- Statements up to a closing brace, which is taken too. -/
def blockBody (c : Cursor) : Outcome c.left (List Stmt) :=
  if c.isAt .closeBrace then
    (c.expect .closeBrace).map (fun _ _ => []) (by omega)
  else if c.isAtEnd then
    .error (.unterminatedBlock c.current.span) c
  else
    (stmt c).bind fun first c₁ h₁ =>
    (blockBody c₁).map (fun others _ => first :: others) (by omega)
  termination_by (c.left, 3)

/-- A statement. -/
def stmt (c : Cursor) : Outcome c.left Stmt :=
  match atDeclaration c with
  | .error fault => .error (.fault fault) c
  | .ok true => (varDecl c).map (fun v _ => .declare v) (by omega)
  | .ok false =>
    let start := c.current.span
    match c.current.kind with
    | .mark .openBrace =>
      (block c).map (fun body c₁ => .block (c₁.spanFrom start) body.stmts) (by omega)
    | .mark .semicolon =>
      (c.expect .semicolon).map (fun _ c₁ => .empty (c₁.spanFrom start)) (by omega)
    | .keyword .ifWord =>
      (c.advance .expression).bind fun _ c₁ h₁ =>
      (test c₁).bind fun condition c₂ h₂ =>
      (stmt c₂).bind fun ifTrue c₃ h₃ =>
      if c₃.isAtWord .elseWord then
        (c₃.advance .expression).bind fun _ c₄ h₄ =>
        (stmt c₄).map
          (fun ifFalse c₅ => .ifElse (c₅.spanFrom start) condition ifTrue ifFalse) (by omega)
      else
        .ok (.ifThen (c₃.spanFrom start) condition ifTrue) c₃ (by omega)
    | .keyword .whileWord =>
      (c.advance .expression).bind fun _ c₁ h₁ =>
      (test c₁).bind fun condition c₂ h₂ =>
      (stmt c₂).map (fun body c₃ => .whileLoop (c₃.spanFrom start) condition body) (by omega)
    | .keyword .forWord =>
      (c.advance .expression).bind fun _ c₁ h₁ =>
      (c₁.expect .openParen).bind fun _ c₂ h₂ =>
      (forInit c₂).bind fun init c₃ h₃ =>
      (exprUnless .semicolon c₃).bind fun condition c₄ h₄ =>
      (c₄.expect .semicolon).bind fun _ c₅ h₅ =>
      (exprUnless .closeParen c₅).bind fun step c₆ h₆ =>
      (c₆.expect .closeParen).bind fun _ c₇ h₇ =>
      (stmt c₇).map
        (fun body c₈ => .forLoop (c₈.spanFrom start) init condition step body) (by omega)
    | .keyword .switchWord =>
      (c.advance .expression).bind fun _ c₁ h₁ =>
      (test c₁).bind fun value c₂ h₂ =>
      (c₂.expect .openBrace).bind fun _ c₃ h₃ =>
      (arms c₃).map (fun arms c₄ => .switch (c₄.spanFrom start) value arms) (by omega)
    | .keyword .breakWord =>
      (c.advance .expression).bind fun _ c₁ h₁ =>
      (c₁.expect .semicolon).map (fun _ c₂ => .breakStmt (c₂.spanFrom start)) (by omega)
    | .keyword .continueWord =>
      (c.advance .expression).bind fun _ c₁ h₁ =>
      (c₁.expect .semicolon).map (fun _ c₂ => .continueStmt (c₂.spanFrom start)) (by omega)
    | .keyword .returnWord =>
      (c.advance .expression).bind fun _ c₁ h₁ =>
      (exprUnless .semicolon c₁).bind fun value c₂ h₂ =>
      (c₂.expect .semicolon).map (fun _ c₃ => .returnStmt (c₃.spanFrom start) value) (by omega)
    | _ =>
      (expr c).bind fun e c₁ h₁ =>
      (c₁.expect .semicolon).map (fun _ c₂ => .expr (c₂.spanFrom start) e) (by omega)
  termination_by (c.left, 2)

/-- The arms of a `switch` up to a closing brace, which is taken too. -/
def arms (c : Cursor) : Outcome c.left (List (Arm (List Stmt))) :=
  if c.isAt .closeBrace then
    (c.expect .closeBrace).map (fun _ _ => []) (by omega)
  else
    (label c).bind fun label c₁ h₁ =>
    (armBody c₁).bind fun body c₂ h₂ =>
    (arms c₂).map
      (fun others _ => ⟨label, body, c₂.spanFrom c.current.span⟩ :: others) (by omega)
  termination_by (c.left, 0)

/-- Statements up to the next arm or the end of the `switch`. -/
def armBody (c : Cursor) : Outcome (c.left + 1) (List Stmt) :=
  if c.isAtWord .caseWord || c.isAtWord .defaultWord || c.isAt .closeBrace || c.isAtEnd then
    .ok [] c (by omega)
  else
    (stmt c).bind fun first c₁ h₁ =>
    (armBody c₁).map (fun others _ => first :: others) (by omega)
  termination_by (c.left, 3)

end

/-! ## Programs

A parenthesis behind the declared name makes a function of a declaration. -/

/-- One formal parameter or more, with commas between them. -/
def formalList (c : Cursor) : Outcome c.left (List VarDecl) :=
  (formal c).bind fun first c₁ h₁ =>
    if c₁.isAt .comma then
      (c₁.advance .ty).bind fun _ c₂ h₂ =>
      (formalList c₂).map (fun others _ => first :: others) (by omega)
    else
      .ok [first] c₁ h₁
  termination_by c.left

/-- The formal parameters in front of a closing parenthesis. The word `void` alone stands for
none. -/
def formals (c : Cursor) : Outcome (c.left + 1) (List VarDecl) :=
  if c.isAt .closeParen then
    .ok [] c (by omega)
  else if c.isAtWord .voidWord then
    match c.peek with
    | .error fault => .error (.fault fault) c
    | .ok kind =>
      if kind.isMark .closeParen then
        (c.advance .ty).map (fun _ _ => []) (by omega)
      else
        (formalList c).map (fun fs _ => fs) (by omega)
  else
    (formalList c).map (fun fs _ => fs) (by omega)

/-- What follows the head of a function declaration. -/
def fnRest (d : Head) (c : Cursor) : Outcome c.left FnDecl :=
  (c.expect .openParen).bind fun _ c₁ h₁ =>
  (formals c₁).bind fun formals c₂ h₂ =>
  (c₂.expect .closeParen).bind fun _ c₃ h₃ =>
  (block c₃).map (fun body c₄ => ⟨d.name, d.ty, formals, body, c₄.spanFrom d.start⟩) (by omega)

/-- A declaration at the top of a program. -/
def decl (c : Cursor) : Outcome c.left Decl :=
  (head c).bind fun d c₁ h₁ =>
    if c₁.isAt .openParen then
      if d.qualifier.isSome then
        .error (.qualifiedFunction d.start) c₁
      else
        (fnRest d c₁).map (fun f _ => .fn f) (by omega)
    else
      (varRest d c₁).map (fun v _ => .var v) (by omega)

/-- Declarations up to the end of the text. -/
def decls (c : Cursor) : Outcome (c.left + 1) Program :=
  if c.isAtEnd then
    .ok [] c (by omega)
  else
    (decl c).bind fun first c₁ h₁ =>
    (decls c₁).map (fun others _ => first :: others) (by omega)
  termination_by c.left

end Grammar

/-- Reads a source text. -/
def Program.ofText? (source : String) : Except Grammar.Failure Program :=
  match Grammar.Cursor.ofText? source with
  | .error fault => .error (.fault fault)
  | .ok c => (Grammar.decls c).toExcept

/-- Reads one expression at the beginning of a source text; what comes behind it may be anything. -/
def Expr.ofText? (source : String) : Except Grammar.Failure Expr :=
  match Grammar.Cursor.ofText? source with
  | .error fault => .error (.fault fault)
  | .ok c => (Grammar.expr c).toExcept

end ShaderLang
