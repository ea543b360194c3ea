import ShaderLang.Check.Expr

/-!
# Checking statements and programs

A statement is checked in the symbol table that stands before it and gives the one that stands
behind it. Only a declaration gives another table than it was given: what a block declares is
forgotten at its end.
-/

namespace ShaderLang

namespace Check

/-- What a statement may leave by `break`; only a loop can be continued. -/
inductive Frame where
  | loop
  | switch
  deriving DecidableEq

/-- What surrounds a statement: the type that its function returns, and the loops and switches that
it stands in. -/
structure Context where
  returnTy : Ty
  frames : List Frame

namespace Context

/-- The same surroundings inside one more loop or switch. -/
def inside (c : Context) (frame : Frame) : Context :=
  { c with frames := frame :: c.frames }

end Context

/-- Declares a symbol, and reports the one of the same scope that it replaces. -/
def declare (symbols : SymbolTable) (symbol : Symbol) : Report SymbolTable := do
  match symbols.conflict? symbol.name with
  | some previous => Report.note (.declConflict symbol.name previous.span) symbol.span
  | none => pure ()
  return symbols.declare symbol

/-- Checks an initializer. That of a global variable has to be constant. -/
def initializer (symbols : SymbolTable) (v : VarDecl) (init : Expr) : Report Unit := do
  let found ← expr symbols init
  if symbols.isGlobal && !init.isConstant then
    Report.note (.initializerNotConstant v.name.name) init.span
  else
    Report.noteIf (!found.convertsTo v.ty) (.initializerMismatch v.name.name v.ty found) init.span

/-- Checks a declaration of a variable. The initializer cannot see the variable. -/
def varDecl (symbols : SymbolTable) (v : VarDecl) : Report SymbolTable := do
  Report.noteIf (v.ty == .void) (.voidVariable v.name.name) v.name.span
  match v.init with
  | some init => initializer symbols v init
  | none => pure ()
  declare symbols (.ofVar v)

/-- Checks declarations one after the other. -/
def varDecls (symbols : SymbolTable) : List VarDecl → Report SymbolTable
  | [] => return symbols
  | v :: rest => do
    let symbols ← varDecl symbols v
    varDecls symbols rest

/-- Checks a test. -/
def test (symbols : SymbolTable) (e : Expr) : Report Unit := do
  let found ← expr symbols e
  testTy found e.span

/-- Checks an expression that may be missing. -/
def optional (check : Expr → Report Unit) : Option Expr → Report Unit
  | some e => check e
  | none => pure ()

/-- Checks an expression whose type does not matter. -/
def discard (symbols : SymbolTable) (e : Expr) : Report Unit := do
  let _ ← expr symbols e

/-- Checks what a `for` loop begins with. -/
def forInit (symbols : SymbolTable) : Option ForInit → Report SymbolTable
  | some (.expr e) => do
    discard symbols e
    return symbols
  | some (.declare v) => varDecl symbols v
  | none => return symbols

/-- Checks the labels of a `switch`: integer constants without repetition, and one default at
most. -/
def labels {Body : Type} (symbols : SymbolTable) (seen : List Int64) (hasDefault : Bool) :
    List (Arm Body) → Report Unit
  | [] => pure ()
  | arm :: rest =>
    match arm.label with
    | none => do
      Report.noteIf hasDefault .duplicateDefault arm.span
      labels symbols seen true rest
    | some label =>
      match label.constInt? with
      | some value => do
        Report.noteIf (seen.contains value) (.duplicateCase value) label.span
        labels symbols (value :: seen) hasDefault rest
      | none => do
        discard symbols label
        Report.note .caseNotConstant label.span
        labels symbols seen hasDefault rest

mutual

/-- Checks a statement. -/
def stmt (context : Context) (symbols : SymbolTable) : Stmt → Report SymbolTable
  | .expr _ e => do
    discard symbols e
    return symbols
  | .empty _ => return symbols
  | .declare v => varDecl symbols v
  | .block _ body => do
    let _ ← stmts context symbols.push body
    return symbols
  | .ifThen _ condition ifTrue => do
    test symbols condition
    let _ ← stmt context symbols.push ifTrue
    return symbols
  | .ifElse _ condition ifTrue ifFalse => do
    test symbols condition
    let _ ← stmt context symbols.push ifTrue
    let _ ← stmt context symbols.push ifFalse
    return symbols
  | .whileLoop _ condition body => do
    test symbols condition
    let _ ← stmt (context.inside .loop) symbols.push body
    return symbols
  | .forLoop _ init condition step body => do
    let inner ← forInit symbols.push init
    optional (test inner) condition
    optional (discard inner) step
    let _ ← stmt (context.inside .loop) inner.push body
    return symbols
  | .switch _ value arms => do
    let found ← expr symbols value
    Report.noteIf (found != .int && found != .error) (.switchNotInt found) value.span
    labels symbols [] false arms
    armBodies (context.inside .switch) symbols arms
    return symbols
  | .breakStmt span => do
    Report.noteIf context.frames.isEmpty .breakOutside span
    return symbols
  | .continueStmt span => do
    Report.noteIf (!context.frames.contains .loop) .continueOutside span
    return symbols
  | .returnStmt span value => do
    let found ←
      match value with
      | some e => expr symbols e
      | none => pure Ty.void
    Report.noteIf (!found.convertsTo context.returnTy) (.returnMismatch context.returnTy found) span
    return symbols
  termination_by structural s => s

/-- Checks statements one after the other. -/
def stmts (context : Context) (symbols : SymbolTable) : List Stmt → Report SymbolTable
  | [] => return symbols
  | s :: rest => do
    let symbols ← stmt context symbols s
    stmts context symbols rest
  termination_by structural s => s

/-- Checks the arms of a `switch`, each in a scope of its own. -/
def armBodies (context : Context) (symbols : SymbolTable) : List (Arm (List Stmt)) → Report Unit
  | [] => pure ()
  | ⟨_, body, _⟩ :: rest => do
    let _ ← stmts context symbols.push body
    armBodies context symbols rest
  termination_by structural s => s

end

/-- Checks a function. It is declared before its formal parameters and its body are looked at. -/
def fnDecl (symbols : SymbolTable) (f : FnDecl) : Report SymbolTable := do
  let symbols ← declare symbols (.ofFn f)
  let inner ← varDecls symbols.push f.formals
  let _ ← stmts ⟨f.returnTy, []⟩ inner.push f.body.stmts
  return symbols

/-- Checks a declaration at the top of a program. -/
def decl (symbols : SymbolTable) : Decl → Report SymbolTable
  | .var v => varDecl symbols v
  | .fn f => fnDecl symbols f

/-- Checks a program. -/
def program (symbols : SymbolTable) : Program → Report SymbolTable
  | [] => return symbols
  | d :: rest => do
    let symbols ← decl symbols d
    program symbols rest

end Check

/-- All that is wrong with a program. -/
def Program.findings (p : Program) : List Finding :=
  (Check.program .empty p).findings

end ShaderLang
