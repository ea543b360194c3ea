import ShaderLang.Proofs.Taking

/-!
# The grammar, token by token

What a rule of the grammar does with the tokens, written as a script: it looks at the token in
front, looks at the one behind that, takes the one in front, calls another rule, and ends with
a value or a failure. Nothing else can be done to a row of tokens, and nothing is ever put back.

A script is run in front of a text (`Runs`). The end of the text can be looked at and taken like any
other token, and behind it the text ends again, so a script can take it over and over; and a rule
that a script calls is run as its own script, so rules can call each other forever. Neither is
excluded by what a script is. A run is a finite derivation that tells which tokens were taken, and
a script that goes on forever has none.
-/

namespace ShaderLang.Grammar

/-- The rules that call each other or themselves. Those that call themselves in the end are loops:
`operators`, `suffixes` and `commaList` among expressions, `blockBody`, `arms` and `armBody` among
statements, `formalList` and `decls` among declarations. -/
inductive Rule where
  | expr
  | conditional
  | binary (level : Nat)
  | operators (level : Nat) (left : Expr)
  | unary
  | suffixed
  | suffixes (base : Expr)
  | primary
  | arguments
  | commaList
  | block
  | blockBody
  | stmt
  | arms
  | armBody
  | formalList
  | decls

namespace Rule

/-- What a rule reads. -/
abbrev Value : Rule → Type
  | expr | conditional | binary _ | operators .. | unary | suffixed | suffixes _ | primary => Expr
  | arguments | commaList => List Expr
  | block => Block
  | blockBody | armBody => List Stmt
  | stmt => Stmt
  | arms => List (Arm (List Stmt))
  | formalList => List VarDecl
  | decls => Program

/-- The level of a rule in the grammar: what is made of something comes above it. -/
def level : Rule → Nat
  | operators .. | suffixes _ | arguments => 0
  | primary => 1
  | suffixed => 2
  | unary => 3
  | binary _ => 4
  | conditional => 5
  | expr => 6
  | commaList | block | arms | formalList => 7
  | stmt => 8
  | blockBody | armBody | decls => 9

/-- Whether a rule has taken a token whenever it succeeds. The others may find nothing to read. -/
def consumes : Rule → Bool
  | operators .. | suffixes _ | armBody | decls => false
  | _ => true

end Rule

/-- What is done with the tokens of a text. -/
inductive Script (α : Type) where
  | done (value : α)
  | fail (failure : Failure)
  /-- Looks at the token in front, and at the span of the one that was taken last. -/
  | look (next : Token → Span → Script α)
  /-- Looks at the token after the one in front. -/
  | peek (next : Token.Kind → Script α)
  /-- Takes the token in front, whichever it is. -/
  | take (next : Token → Script α)
  | call (rule : Rule) (next : rule.Value → Script α)

namespace Script

variable {α β : Type}

/-- Goes on behind a value. -/
def bind : Script α → (α → Script β) → Script β
  | done value, f => f value
  | fail failure, _ => fail failure
  | look next, f => look fun token previous => (next token previous).bind f
  | peek next, f => peek fun kind => (next kind).bind f
  | take next, f => take fun token => (next token).bind f
  | call rule next, f => call rule fun value => (next value).bind f

instance : Monad Script where
  pure := done
  bind := bind

end Script

/-- The cursor behind the token in front. Behind the end of the text the text ends again, and what
is no token is no place to go on from. -/
def Cursor.step (c : Cursor) : Except Token.Fault Cursor :=
  if c.current.kind.isEnd then
    .ok { c with previous := c.current.span }
  else
    c.rest.next.1.map fun token => ⟨token, c.current.span, c.rest.next.2⟩

/-! ## Scripts of the rules -/

namespace Script

variable {α : Type}

/-- The token in front. -/
def here : Script Token :=
  look fun token _ => done token

/-- The span from a first token up to the last one that was taken. -/
def spanFrom (start : Span) : Script Span :=
  look fun _ previous => done (start.merge previous)

/-- Takes the token in front. -/
def advance : Script Token :=
  take done

/-- Whether a mark stands here. -/
def isAt (m : Mark) : Script Bool :=
  look fun token _ => done (token.kind.isMark m)

/-- Whether a reserved word stands here. -/
def isAtWord (word : Keyword) : Script Bool :=
  look fun token _ => done (token.kind.isKeyword word)

/-- Takes a mark. -/
def expect (m : Mark) : Script Token := do
  let token ← here
  if token.kind.isMark m then advance else fail (.unexpected (.mark m) token)

/-- Takes one token, of which `f` makes a value. -/
def choose (wanted : Wanted) (f : Token → Option α) : Script α := do
  let token ← advance
  match f token with
  | some value => return value
  | none => fail (.unexpected wanted token)

/-- Takes a name. -/
def ident : Script Ident :=
  choose .identifier fun token =>
    match token.kind with
    | .name text => some ⟨text, token.span⟩
    | _ => none

def expr : Script Expr := do
  let target : Expr ← call .conditional pure
  match assignOp? (← here).kind with
  | none => return target
  | some op =>
    let _ ← advance
    let value : Expr ← call .expr pure
    return .assign (target.span.merge value.span) op target value

def conditional : Script Expr := do
  let test : Expr ← call (.binary 0) pure
  if ← isAt .question then
    let _ ← advance
    let ifTrue : Expr ← call .expr pure
    let _ ← expect .colon
    let ifFalse : Expr ← call .conditional pure
    return .conditional (test.span.merge ifFalse.span) test ifTrue ifFalse
  else
    return test

def binary (level : Nat) : Script Expr := do
  let left : Expr ← call .unary pure
  call (.operators level left) pure

def operators (level : Nat) (left : Expr) : Script Expr := do
  match binaryOp? (← here).kind with
  | none => return left
  | some op =>
    if op.level < level then
      return left
    else
      let _ ← advance
      let right : Expr ← call (.binary (op.level + 1)) pure
      call (.operators level (.binary (left.span.merge right.span) op left right)) pure

def unary : Script Expr := do
  match unaryOp? (← here).kind with
  | none => call .suffixed pure
  | some op =>
    let token ← advance
    let operand : Expr ← call .unary pure
    return .unary (token.span.merge operand.span) op operand

def suffixed : Script Expr := do
  let base : Expr ← call .primary pure
  call (.suffixes base) pure

def suffixes (base : Expr) : Script Expr := do
  if ← isAt .openBracket then
    let _ ← advance
    let position : Expr ← call .expr pure
    let _ ← expect .closeBracket
    call (.suffixes (.index (← spanFrom base.span) base position)) pure
  else if ← isAt .dot then
    let _ ← advance
    let name ← ident
    call (.suffixes (.field (base.span.merge name.span) base name)) pure
  else
    match step? (← here).kind with
    | none => return base
    | some direction =>
      let _ ← advance
      call (.suffixes (.stepAfter (← spanFrom base.span) direction base)) pure

def primary : Script Expr := do
  let token ← advance
  match token.kind with
  | .int value => return .int (← spanFrom token.span) value
  | .float value => return .float (← spanFrom token.span) value
  | .keyword .trueWord => return .bool (← spanFrom token.span) true
  | .keyword .falseWord => return .bool (← spanFrom token.span) false
  | .keyword word =>
    match word.ty? with
    | some target =>
      let arguments : List Expr ← call .arguments pure
      return .construct (← spanFrom token.span) target arguments
    | none => fail (.unexpected .expression token)
  | .name text =>
    if ← isAt .openParen then
      let arguments : List Expr ← call .arguments pure
      return .call (← spanFrom token.span) ⟨text, token.span⟩ arguments
    else
      return .var (← spanFrom token.span) ⟨text, token.span⟩
  | .mark .openParen =>
    let inner : Expr ← call .expr pure
    let _ ← expect .closeParen
    return inner.withSpan (← spanFrom token.span)
  | _ => fail (.unexpected .expression token)

def arguments : Script (List Expr) := do
  let _ ← expect .openParen
  if ← isAt .closeParen then
    let _ ← expect .closeParen
    return []
  else
    let arguments : List Expr ← call .commaList pure
    let _ ← expect .closeParen
    return arguments

def commaList : Script (List Expr) := do
  let first : Expr ← call .expr pure
  if ← isAt .comma then
    let _ ← advance
    let others : List Expr ← call .commaList pure
    return first :: others
  else
    return [first]

def qualifier : Script (Option Qualifier) := do
  match (← here).kind.qualifier? with
  | some q =>
    let _ ← advance
    return some q
  | none => return none

def ty : Script Ty := do
  let token ← here
  match token.kind.ty? with
  | some t =>
    let _ ← advance
    return t
  | none => fail (.unexpected .ty token)

def arrayLength : Script Nat :=
  choose .arrayLength fun token =>
    match token.kind with
    | .int n => if 0 < n then some n.toNatClampNeg else none
    | _ => none

def arraySuffix (element : Ty) : Script Ty := do
  if ← isAt .openBracket then
    let _ ← advance
    let length ← arrayLength
    let _ ← expect .closeBracket
    return .array element length
  else
    return element

def head : Script Head := do
  let start ← here
  let q ← qualifier
  let t ← ty
  let name ← ident
  return ⟨start.span, q, t, name⟩

def initializer : Script (Option Expr) := do
  if ← isAt .assign then
    let _ ← advance
    let e : Expr ← call .expr pure
    return some e
  else
    return none

def varRest (d : Head) : Script VarDecl := do
  let t ← arraySuffix d.ty
  let init ← initializer
  let _ ← expect .semicolon
  return ⟨d.name, t, d.qualifier, init, ← spanFrom d.start⟩

def varDecl : Script VarDecl := do
  let d ← head
  varRest d

def formal : Script VarDecl := do
  let d ← head
  let t ← arraySuffix d.ty
  return ⟨d.name, t, d.qualifier, none, ← spanFrom d.start⟩

def atDeclaration : Script Bool := do
  let token ← here
  if token.kind.isQualifier then
    return true
  else if token.kind.isType then
    peek fun kind => return !kind.isMark .openParen
  else
    return false

def exprUnless (m : Mark) : Script (Option Expr) := do
  if ← isAt m then
    return none
  else
    let e : Expr ← call .expr pure
    return some e

def test : Script Expr := do
  let _ ← expect .openParen
  let e : Expr ← call .expr pure
  let _ ← expect .closeParen
  return e

def forInit : Script (Option ForInit) := do
  if ← isAt .semicolon then
    let _ ← expect .semicolon
    return none
  else if ← atDeclaration then
    let v ← varDecl
    return some (.declare v)
  else
    let e : Expr ← call .expr pure
    let _ ← expect .semicolon
    return some (.expr e)

def label : Script (Option Expr) := do
  if ← isAtWord .caseWord then
    let _ ← advance
    let e : Expr ← call .expr pure
    let _ ← expect .colon
    return some e
  else if ← isAtWord .defaultWord then
    let _ ← advance
    let _ ← expect .colon
    return none
  else
    fail (.unexpected .arm (← here))

def block : Script Block := do
  let token ← expect .openBrace
  let stmts : List Stmt ← call .blockBody pure
  return ⟨stmts, ← spanFrom token.span⟩

def blockBody : Script (List Stmt) := do
  if ← isAt .closeBrace then
    let _ ← expect .closeBrace
    return []
  else
    let token ← here
    if token.kind.isEnd then
      fail (.unterminatedBlock token.span)
    else
      let first : Stmt ← call .stmt pure
      let others : List Stmt ← call .blockBody pure
      return first :: others

/-- What begins with a word or a mark of its own. -/
def stmtAt (start : Token) : Script Stmt := do
  match start.kind with
  | .mark .openBrace =>
    let body : Block ← call .block pure
    return .block (← spanFrom start.span) body.stmts
  | .mark .semicolon =>
    let _ ← expect .semicolon
    return .empty (← spanFrom start.span)
  | .keyword .ifWord =>
    let _ ← advance
    let condition ← test
    let ifTrue : Stmt ← call .stmt pure
    if ← isAtWord .elseWord then
      let _ ← advance
      let ifFalse : Stmt ← call .stmt pure
      return .ifElse (← spanFrom start.span) condition ifTrue ifFalse
    else
      return .ifThen (← spanFrom start.span) condition ifTrue
  | .keyword .whileWord =>
    let _ ← advance
    let condition ← test
    let body : Stmt ← call .stmt pure
    return .whileLoop (← spanFrom start.span) condition body
  | .keyword .forWord =>
    let _ ← advance
    let _ ← expect .openParen
    let init ← forInit
    let condition ← exprUnless .semicolon
    let _ ← expect .semicolon
    let step ← exprUnless .closeParen
    let _ ← expect .closeParen
    let body : Stmt ← call .stmt pure
    return .forLoop (← spanFrom start.span) init condition step body
  | .keyword .switchWord =>
    let _ ← advance
    let value ← test
    let _ ← expect .openBrace
    let arms : List (Arm (List Stmt)) ← call .arms pure
    return .switch (← spanFrom start.span) value arms
  | .keyword .breakWord =>
    let _ ← advance
    let _ ← expect .semicolon
    return .breakStmt (← spanFrom start.span)
  | .keyword .continueWord =>
    let _ ← advance
    let _ ← expect .semicolon
    return .continueStmt (← spanFrom start.span)
  | .keyword .returnWord =>
    let _ ← advance
    let value ← exprUnless .semicolon
    let _ ← expect .semicolon
    return .returnStmt (← spanFrom start.span) value
  | _ =>
    let e : Expr ← call .expr pure
    let _ ← expect .semicolon
    return .expr (← spanFrom start.span) e

def stmt : Script Stmt := do
  if ← atDeclaration then
    let v ← varDecl
    return .declare v
  else
    stmtAt (← here)

def arms : Script (List (Arm (List Stmt))) := do
  let start ← here
  if start.kind.isMark .closeBrace then
    let _ ← expect .closeBrace
    return []
  else
    let label ← label
    let body : List Stmt ← call .armBody pure
    let span ← spanFrom start.span
    let others : List (Arm (List Stmt)) ← call .arms pure
    return ⟨label, body, span⟩ :: others

def armBody : Script (List Stmt) := do
  let kind := (← here).kind
  if kind.isKeyword .caseWord || kind.isKeyword .defaultWord || kind.isMark .closeBrace ||
      kind.isEnd then
    return []
  else
    let first : Stmt ← call .stmt pure
    let others : List Stmt ← call .armBody pure
    return first :: others

def formalList : Script (List VarDecl) := do
  let first ← formal
  if ← isAt .comma then
    let _ ← advance
    let others : List VarDecl ← call .formalList pure
    return first :: others
  else
    return [first]

def formals : Script (List VarDecl) := do
  if ← isAt .closeParen then
    return []
  else if ← isAtWord .voidWord then
    peek fun kind =>
      if kind.isMark .closeParen then do
        let _ ← advance
        return []
      else
        call .formalList pure
  else
    call .formalList pure

def fnRest (d : Head) : Script FnDecl := do
  let _ ← expect .openParen
  let formals ← formals
  let _ ← expect .closeParen
  let body : Block ← call .block pure
  return ⟨d.name, d.ty, formals, body, ← spanFrom d.start⟩

def decl : Script Decl := do
  let d ← head
  if ← isAt .openParen then
    if d.qualifier.isSome then
      fail (.qualifiedFunction d.start)
    else
      let f ← fnRest d
      return .fn f
  else
    let v ← varRest d
    return .var v

def decls : Script Program := do
  if (← here).kind.isEnd then
    return []
  else
    let first ← decl
    let others : Program ← call .decls pure
    return first :: others

end Script

/-- The script of a rule. -/
def Rule.script : (rule : Rule) → Script rule.Value
  | expr => Script.expr
  | conditional => Script.conditional
  | binary level => Script.binary level
  | operators level left => Script.operators level left
  | unary => Script.unary
  | suffixed => Script.suffixed
  | suffixes base => Script.suffixes base
  | primary => Script.primary
  | arguments => Script.arguments
  | commaList => Script.commaList
  | block => Script.block
  | blockBody => Script.blockBody
  | stmt => Script.stmt
  | arms => Script.arms
  | armBody => Script.armBody
  | formalList => Script.formalList
  | decls => Script.decls

/-! ## Runs -/

/-- A script runs from a cursor to its end: which tokens it takes on the way, the end of the text
among them, and what it gives there. -/
inductive Runs : {α : Type} → Script α → Cursor → List Token → Except Failure (α × Cursor) → Prop
  | done {α : Type} {value : α} {c : Cursor} : Runs (.done value) c [] (.ok (value, c))
  | fail {α : Type} {failure : Failure} {c : Cursor} :
      Runs (.fail failure : Script α) c [] (.error failure)
  | look {α : Type} {next : Token → Span → Script α} {c : Cursor} {ts : List Token}
      {r : Except Failure (α × Cursor)} (h : Runs (next c.current c.previous) c ts r) :
      Runs (.look next) c ts r
  | peek {α : Type} {next : Token.Kind → Script α} {c : Cursor} {kind : Token.Kind}
      {ts : List Token} {r : Except Failure (α × Cursor)} (hpeek : c.peek = .ok kind)
      (h : Runs (next kind) c ts r) : Runs (.peek next) c ts r
  | peekFault {α : Type} {next : Token.Kind → Script α} {c : Cursor} {fault : Token.Fault}
      (hpeek : c.peek = .error fault) : Runs (.peek next) c [] (.error (.fault fault))
  | take {α : Type} {next : Token → Script α} {c c₁ : Cursor} {ts : List Token}
      {r : Except Failure (α × Cursor)} (hstep : c.step = .ok c₁)
      (h : Runs (next c.current) c₁ ts r) : Runs (.take next) c (c.current :: ts) r
  | takeFault {α : Type} {next : Token → Script α} {c : Cursor} {fault : Token.Fault}
      (hstep : c.step = .error fault) : Runs (.take next) c [] (.error (.fault fault))
  | call {α : Type} {rule : Rule} {next : rule.Value → Script α} {c c₁ : Cursor}
      {ts us : List Token} {value : rule.Value} {r : Except Failure (α × Cursor)}
      (hrule : Runs rule.script c ts (.ok (value, c₁))) (h : Runs (next value) c₁ us r) :
      Runs (.call rule next) c (ts ++ us) r
  | callFails {α : Type} {rule : Rule} {next : rule.Value → Script α} {c : Cursor}
      {ts : List Token} {failure : Failure} (hrule : Runs rule.script c ts (.error failure)) :
      Runs (.call rule next) c ts (.error failure)

/-- On its way from a cursor a script comes to call a rule at another one, and has taken certain
tokens until then. -/
inductive Calls : {α : Type} → Script α → Cursor → List Token → Rule → Cursor → Prop
  | here {α : Type} {rule : Rule} {next : rule.Value → Script α} {c : Cursor} :
      Calls (.call rule next) c [] rule c
  | look {α : Type} {next : Token → Span → Script α} {c d : Cursor} {ts : List Token} {rule : Rule}
      (h : Calls (next c.current c.previous) c ts rule d) : Calls (.look next) c ts rule d
  | peek {α : Type} {next : Token.Kind → Script α} {c d : Cursor} {kind : Token.Kind}
      {ts : List Token} {rule : Rule} (hpeek : c.peek = .ok kind)
      (h : Calls (next kind) c ts rule d) : Calls (.peek next) c ts rule d
  | take {α : Type} {next : Token → Script α} {c c₁ d : Cursor} {ts : List Token} {rule : Rule}
      (hstep : c.step = .ok c₁) (h : Calls (next c.current) c₁ ts rule d) :
      Calls (.take next) c (c.current :: ts) rule d
  | behind {α : Type} {first rule : Rule} {next : first.Value → Script α} {c c₁ d : Cursor}
      {ts us : List Token} {value : first.Value} (hfirst : Runs first.script c ts (.ok (value, c₁)))
      (h : Calls (next value) c₁ us rule d) : Calls (.call first next) c (ts ++ us) rule d

end ShaderLang.Grammar
