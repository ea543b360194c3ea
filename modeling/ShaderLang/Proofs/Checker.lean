import ShaderLang.Proofs.Alike

/-!
# The checker as a machine

The rules of `Check` are given what surrounds a statement, so none of them can leave it changed.
Here they are steps of a machine with one state, which opens and closes scopes, goes into loops and
switches and comes out of them, and puts the type that a function returns in the place of the one
before, all by hand. The machine finds what the rules find (`Checker.stmt_eq`,
`Checker.program_eq`), and its state shows what they cannot say: behind a statement everything is as it was in front of it,
but for the name that a declaration declares, and no finding on a declaration depends on the body of
a function elsewhere (`Checker.isolates`).
-/

namespace ShaderLang

/-- A check under way: the scopes that are open, the type that the function around returns, if there
is one, the loops and switches around, and what was found so far. -/
structure Checker where
  symbols : SymbolTable
  returnTy : Option Ty
  frames : List Check.Frame
  findings : List Finding

namespace Checker

/-- Nothing is checked yet. -/
def new : Checker :=
  ⟨.empty, none, [], []⟩

/-! ## Steps -/

/-- Checks something that only has to look names up. -/
def look {α : Type} (c : Checker) (check : SymbolTable → Report α) : Checker :=
  { c with findings := c.findings ++ (check c.symbols).findings }

/-- Opens a scope. -/
def openScope (c : Checker) : Checker :=
  { c with symbols := c.symbols.push }

/-- Closes the innermost scope; the global one stays open. -/
def closeScope (c : Checker) : Checker :=
  match c.symbols.pop? with
  | some (_, symbols) => { c with symbols := symbols }
  | none => c

/-- Goes into a loop or a switch. -/
def enter (c : Checker) (frame : Check.Frame) : Checker :=
  { c with frames := frame :: c.frames }

/-- Comes out of a loop or a switch. -/
def leave (c : Checker) : Checker :=
  { c with frames := c.frames.tail }

/-- Goes into the body of a function, around which nothing can be left or continued. -/
def enterFn (c : Checker) (returnTy : Ty) : Checker :=
  { c with returnTy := some returnTy, frames := [] }

/-- Comes out of the body of a function to what was around it. -/
def leaveFn (c outside : Checker) : Checker :=
  { c with returnTy := outside.returnTy, frames := outside.frames }

/-- Declares a symbol in the innermost scope, and reports the one that it replaces. -/
def declare (c : Checker) (symbol : Symbol) : Checker :=
  let replaced := c.symbols.conflict? symbol.name
  let c := { c with symbols := c.symbols.declare symbol }
  match replaced with
  | some previous =>
    c.look fun _ => Report.note (.declConflict symbol.name previous.span) symbol.span
  | none => c

/-- Checks a declaration of a variable, which its initializer cannot see. -/
def varDecl (v : VarDecl) (c : Checker) : Checker :=
  let c := c.look fun _ => Report.noteIf (v.ty == .void) (.voidVariable v.name.name) v.name.span
  let c :=
    match v.init with
    | some init => c.look (Check.initializer · v init)
    | none => c
  c.declare (.ofVar v)

/-- Checks what a `for` loop begins with. -/
def forInit (init : Option ForInit) (c : Checker) : Checker :=
  match init with
  | some (.expr e) => c.look (Check.discard · e)
  | some (.declare v) => c.varDecl v
  | none => c

/-- Checks the value that a `switch` goes by. -/
def switchValue (value : Expr) (symbols : SymbolTable) : Report Unit := do
  let found ← Check.expr symbols value
  Report.noteIf (found != .int && found != .error) (.switchNotInt found) value.span

/-- Checks what is returned, against the type that is expected. -/
def returned (expected : Ty) (span : Span) (value : Option Expr) (symbols : SymbolTable) :
    Report Unit := do
  let found ←
    match value with
    | some e => Check.expr symbols e
    | none => pure Ty.void
  Report.noteIf (!found.convertsTo expected) (.returnMismatch expected found) span

mutual

/-- Checks a statement. -/
def stmt : Stmt → Checker → Checker
  | .expr _ e, c => c.look (Check.discard · e)
  | .empty _, c => c
  | .declare v, c => c.varDecl v
  | .block _ body, c => (stmts body c.openScope).closeScope
  | .ifThen _ test ifTrue, c =>
    let c := c.look (Check.test · test)
    (stmt ifTrue c.openScope).closeScope
  | .ifElse _ test ifTrue ifFalse, c =>
    let c := c.look (Check.test · test)
    let c := (stmt ifTrue c.openScope).closeScope
    (stmt ifFalse c.openScope).closeScope
  | .whileLoop _ test body, c =>
    let c := c.look (Check.test · test)
    let c := (stmt body (c.enter .loop).openScope).closeScope
    c.leave
  | .forLoop _ init test step body, c =>
    let c := forInit init c.openScope
    let c := c.look fun symbols => Check.optional (Check.test symbols) test
    let c := c.look fun symbols => Check.optional (Check.discard symbols) step
    let c := (stmt body (c.enter .loop).openScope).closeScope
    c.leave.closeScope
  | .switch _ value arms, c =>
    let c := c.look (switchValue value)
    let c := c.look (Check.labels · [] false arms)
    (armBodies arms (c.enter .switch)).leave
  | .breakStmt span, c => c.look fun _ => Report.noteIf c.frames.isEmpty .breakOutside span
  | .continueStmt span, c =>
    c.look fun _ => Report.noteIf (!c.frames.contains .loop) .continueOutside span
  | .returnStmt span value, c => c.look (returned (c.returnTy.getD .void) span value)
  termination_by structural s => s

/-- Checks statements one after the other. -/
def stmts : List Stmt → Checker → Checker
  | [], c => c
  | s :: rest, c => stmts rest (stmt s c)
  termination_by structural s => s

/-- Checks the arms of a `switch`, each in a scope of its own. -/
def armBodies : List (Arm (List Stmt)) → Checker → Checker
  | [], c => c
  | ⟨_, body, _⟩ :: rest, c => armBodies rest (stmts body c.openScope).closeScope
  termination_by structural s => s

end

/-- Checks declarations of variables one after the other. -/
def varDecls (vs : List VarDecl) (c : Checker) : Checker :=
  vs.foldl (fun c v => c.varDecl v) c

/-- Checks a function. It is declared before its formal parameters and its body are looked at. -/
def fnDecl (f : FnDecl) (c : Checker) : Checker :=
  let c := varDecls f.formals (c.declare (.ofFn f)).openScope
  let inside := (stmts f.body.stmts (c.enterFn f.returnTy).openScope).closeScope
  (inside.leaveFn c).closeScope

/-- Checks a declaration at the top of a program. -/
def decl : Decl → Checker → Checker
  | .var v, c => c.varDecl v
  | .fn f, c => fnDecl f c

/-- Checks a program. -/
def program (p : Program) (c : Checker) : Checker :=
  p.foldl (fun c d => decl d c) c

/-- What is found on each declaration of a program. -/
def reports (c : Checker) : Program → List (List Finding)
  | [] => []
  | d :: rest => (decl d c).findings.drop c.findings.length :: (decl d c).reports rest

/-! ## The machine does what the rules say -/

/-- The surroundings of a statement, as the rules are given them. -/
def context (c : Checker) : Check.Context :=
  ⟨c.returnTy.getD .void, c.frames⟩

/-- The state behind something that left these scopes and found this. -/
def behind (c : Checker) (symbols : SymbolTable) (found : List Finding) : Checker :=
  { c with symbols := symbols, findings := c.findings ++ found }

variable (c : Checker)

@[simp]
theorem behind_self : c.behind c.symbols [] = c := by
  simp [behind]

@[simp]
theorem behind_behind (symbols symbols' : SymbolTable) (found found' : List Finding) :
    (c.behind symbols found).behind symbols' found' = c.behind symbols' (found ++ found') := by
  simp [behind]

@[simp]
theorem symbols_behind (symbols : SymbolTable) (found : List Finding) :
    (c.behind symbols found).symbols = symbols :=
  rfl

@[simp]
theorem context_behind (symbols : SymbolTable) (found : List Finding) :
    (c.behind symbols found).context = c.context :=
  rfl

@[simp]
theorem symbols_openScope : c.openScope.symbols = c.symbols.push :=
  rfl

@[simp]
theorem behind_openScope (symbols : SymbolTable) (found : List Finding) :
    c.openScope.behind symbols found = c.behind symbols found :=
  rfl

@[simp]
theorem symbols_enter (frame : Check.Frame) : (c.enter frame).symbols = c.symbols :=
  rfl

@[simp]
theorem context_enter (frame : Check.Frame) : (c.enter frame).context = c.context.inside frame :=
  rfl

/-- Coming out of a loop or a switch undoes going into it. -/
@[simp]
theorem leave_behind_enter (frame : Check.Frame) (symbols : SymbolTable) (found : List Finding) :
    ((c.enter frame).behind symbols found).leave = c.behind symbols found :=
  rfl

@[simp]
theorem symbols_enterFn (returnTy : Ty) : (c.enterFn returnTy).symbols = c.symbols :=
  rfl

@[simp]
theorem context_enterFn (returnTy : Ty) : (c.enterFn returnTy).context = ⟨returnTy, []⟩ :=
  rfl

/-- Coming out of the body of a function undoes going into it. -/
@[simp]
theorem leaveFn_behind_enterFn (returnTy : Ty) (symbols : SymbolTable) (found : List Finding) :
    ((c.enterFn returnTy).behind symbols found).leaveFn c = c.behind symbols found :=
  rfl

@[simp]
theorem look_eq {α : Type} (check : SymbolTable → Report α) :
    c.look check = c.behind c.symbols (check c.symbols).findings :=
  rfl

/-- What is declared in a scope is gone when the scope is closed. -/
theorem closeScope_behind {symbols : SymbolTable} (h : symbols.outer = c.symbols.push.outer)
    (found : List Finding) : (c.behind symbols found).closeScope = c.behind c.symbols found := by
  have hpop : symbols.pop? = some (symbols.inner, c.symbols) := by
    rw [SymbolTable.pop?, h, SymbolTable.push]
  simp only [closeScope, behind, hpop]

theorem declare_eq (symbol : Symbol) :
    c.declare symbol =
      c.behind (c.symbols.declare symbol) (Check.declare c.symbols symbol).findings := by
  unfold declare Check.declare
  cases c.symbols.conflict? symbol.name <;> simp [look, behind]

theorem varDecl_eq (v : VarDecl) :
    c.varDecl v =
      c.behind (c.symbols.declare (.ofVar v)) (Check.varDecl c.symbols v).findings := by
  unfold varDecl Check.varDecl
  cases v.init with
  | none => simp [declare_eq, look_eq, behind]
  | some init => simp [declare_eq, look_eq, behind]

theorem forInit_eq (init : Option ForInit) :
    forInit init c =
      c.behind (c.symbols.behindInit init) (Check.forInit c.symbols init).findings := by
  match init with
  | none => exact c.behind_self.symm
  | some (.expr e) => simp [forInit, look_eq, Check.forInit, SymbolTable.behindInit]
  | some (.declare v) => exact c.varDecl_eq v

end Checker

namespace SymbolTable

theorem outer_behind (c : SymbolTable) (s : Stmt) : (c.behind s).outer = c.outer := by
  cases s <;> rfl

theorem outer_behindInit (c : SymbolTable) (init : Option ForInit) :
    (c.behindInit init).outer = c.outer := by
  match init with
  | none | some (.expr _) | some (.declare _) => rfl

theorem outer_declareVars (c : SymbolTable) (vs : List VarDecl) :
    (c.declareVars vs).outer = c.outer := by
  induction vs generalizing c with
  | nil => rfl
  | cons v rest ih => exact ih _

end SymbolTable

theorem Check.outer_stmts (context : Context) (c : SymbolTable) (body : List Stmt) :
    (stmts context c body).value.outer = c.outer := by
  induction body generalizing c with
  | nil => rfl
  | cons s rest ih =>
    rw [stmts, Report.value_bind, ih, value_stmt, SymbolTable.outer_behind]

namespace Checker

mutual

/-- The machine finds in a statement what the rules find, and comes out of it as it went in, but for
what a declaration declares. -/
theorem stmt_eq (s : Stmt) (c : Checker) :
    stmt s c =
      c.behind (c.symbols.behind s) (Check.stmt c.context c.symbols s).findings := by
  match s with
  | .expr _ e => simp [stmt, Check.stmt, SymbolTable.behind]
  | .empty _ => simp [stmt, Check.stmt, SymbolTable.behind]
  | .declare v => exact c.varDecl_eq v
  | .block _ body =>
    rw [stmt, scoped_stmts body]
    simp [Check.stmt, SymbolTable.behind]
  | .ifThen _ test ifTrue =>
    rw [stmt, scoped_stmt ifTrue]
    simp [Check.stmt, SymbolTable.behind]
  | .ifElse _ test ifTrue ifFalse =>
    rw [stmt, scoped_stmt ifFalse, scoped_stmt ifTrue]
    simp [Check.stmt, SymbolTable.behind]
  | .whileLoop _ test body =>
    rw [stmt, scoped_stmt body]
    simp [Check.stmt, SymbolTable.behind]
  | .forLoop _ init test step body =>
    have hinner := SymbolTable.outer_behindInit c.symbols.push init
    rw [stmt, scoped_stmt body, forInit_eq]
    simp only [look_eq, behind_behind, symbols_behind, symbols_enter, leave_behind_enter,
      behind_openScope, symbols_openScope, context_enter, context_behind]
    rw [closeScope_behind c hinner]
    simp [Check.stmt, SymbolTable.behind]
  | .switch _ value arms =>
    rw [stmt, armBodies_eq arms]
    simp [Check.stmt, SymbolTable.behind, switchValue]
  | .breakStmt span => simp [stmt, Check.stmt, SymbolTable.behind, context]
  | .continueStmt span => simp [stmt, Check.stmt, SymbolTable.behind, context]
  | .returnStmt span value =>
    cases value <;> simp [stmt, Check.stmt, SymbolTable.behind, context, returned]

/-- In a scope of its own, a statement declares nothing. -/
theorem scoped_stmt (s : Stmt) (c : Checker) :
    (stmt s c.openScope).closeScope =
      c.behind c.symbols (Check.stmt c.context c.symbols.push s).findings := by
  rw [stmt_eq s c.openScope]
  exact closeScope_behind c (SymbolTable.outer_behind _ s) _

theorem stmts_eq (body : List Stmt) (c : Checker) :
    stmts body c =
      c.behind (Check.stmts c.context c.symbols body).value
        (Check.stmts c.context c.symbols body).findings := by
  match body with
  | [] => simp [stmts, Check.stmts]
  | s :: rest =>
    rw [stmts, stmts_eq rest, stmt_eq s]
    simp [Check.stmts, Check.value_stmt, behind, context]

/-- In a scope of their own, statements declare nothing. -/
theorem scoped_stmts (body : List Stmt) (c : Checker) :
    (stmts body c.openScope).closeScope =
      c.behind c.symbols (Check.stmts c.context c.symbols.push body).findings := by
  rw [stmts_eq body c.openScope]
  exact closeScope_behind c (Check.outer_stmts _ _ body) _

theorem armBodies_eq (arms : List (Arm (List Stmt))) (c : Checker) :
    armBodies arms c =
      c.behind c.symbols (Check.armBodies c.context c.symbols arms).findings := by
  match arms with
  | [] => simp [armBodies, Check.armBodies]
  | ⟨_, body, _⟩ :: rest =>
    rw [armBodies, armBodies_eq rest, scoped_stmts body]
    simp [Check.armBodies, behind, context]

end

theorem varDecls_eq (vs : List VarDecl) (c : Checker) :
    varDecls vs c =
      c.behind (c.symbols.declareVars vs) (Check.varDecls c.symbols vs).findings := by
  induction vs generalizing c with
  | nil => exact c.behind_self.symm
  | cons v rest ih =>
    calc varDecls (v :: rest) c
      _ = varDecls rest (c.varDecl v) := rfl
      _ = _ := by rw [ih, varDecl_eq]; simp [SymbolTable.declareVars, Check.varDecls]

theorem fnDecl_eq (f : FnDecl) (c : Checker) :
    fnDecl f c =
      c.behind (c.symbols.declare (.ofFn f)) (Check.fnDecl c.symbols f).findings := by
  have houter := SymbolTable.outer_declareVars (c.symbols.declare (.ofFn f)).push f.formals
  rw [fnDecl, varDecls_eq, declare_eq, Check.findings_fnDecl, scoped_stmts]
  simp only [symbols_enterFn, context_enterFn, leaveFn_behind_enterFn, behind_openScope,
    symbols_openScope, symbols_behind, SymbolTable.insideFn]
  rw [behind_behind]
  exact (closeScope_behind (c.behind (c.symbols.declare (.ofFn f)) _) houter _).trans
    (by rw [symbols_behind, behind_behind])

theorem decl_eq (d : Decl) (c : Checker) :
    decl d c = c.behind (c.symbols.behindDecl d) (Check.decl c.symbols d).findings := by
  cases d with
  | var v => exact c.varDecl_eq v
  | fn f => exact fnDecl_eq f c

theorem program_eq (p : Program) (c : Checker) :
    program p c =
      c.behind (Check.program c.symbols p).value (Check.program c.symbols p).findings := by
  induction p generalizing c with
  | nil => exact c.behind_self.symm
  | cons d rest ih =>
    calc program (d :: rest) c
      _ = program rest (decl d c) := rfl
      _ = _ := by rw [ih, decl_eq]; simp [Check.program, Check.value_decl]

/-! ## What is found on one declaration -/

theorem reports_cons (d : Decl) (rest : Program) (c : Checker) :
    c.reports (d :: rest) = (Check.decl c.symbols d).findings :: (decl d c).reports rest := by
  rw [reports, decl_eq]
  simp [behind]

/-- What is found on the declarations one after the other is all that is found. -/
theorem flatten_reports (p : Program) (c : Checker) :
    (c.reports p).flatten = (Check.program c.symbols p).findings := by
  induction p generalizing c with
  | nil => rfl
  | cons d rest ih =>
    rw [reports_cons, List.flatten_cons, ih, decl_eq, symbols_behind]
    simp [Check.program, Check.value_decl]

/-- Nothing is found that hangs on the initializers and bodies of what is declared already. -/
theorem reports_alike {c c' : Checker} (h : Alike c.symbols c'.symbols) (p : Program) :
    c.reports p = c'.reports p := by
  induction p generalizing c c' with
  | nil => rfl
  | cons d rest ih =>
    have hrest : (decl d c).reports rest = (decl d c').reports rest :=
      ih (by rw [decl_eq, decl_eq]; exact h.behindDecl rfl)
    rw [reports_cons, reports_cons, Check.decl_alike h, hrest]

/-- Another body of a function changes no finding on another declaration. -/
theorem eraseIdx_reports (before after : Program) (f : FnDecl) (body : Block) (span : Span)
    (c : Checker) :
    (c.reports (before ++ .fn f :: after)).eraseIdx before.length =
      (c.reports (before ++ .fn { f with body, span } :: after)).eraseIdx before.length := by
  induction before generalizing c with
  | nil =>
    have hhead : (Decl.fn f).head = (Decl.fn { f with body, span }).head := rfl
    simp only [List.nil_append, reports_cons, List.length_nil, List.eraseIdx_cons_zero]
    exact reports_alike (by rw [decl_eq, decl_eq]; exact (Alike.refl c.symbols).behindDecl hhead) _
  | cons d before ih =>
    simp only [List.cons_append, reports_cons, List.length_cons, List.eraseIdx_cons_succ, ih]

end Checker

/-! ## Isolation -/

/-- What a statement leaves as it was, and what it changes: of the scopes it can only change the
innermost one, and only by the name that it declares. -/
structure Checker.Restores (c : Checker) (s : Stmt) (c' : Checker) : Prop where
  returnTy : c'.returnTy = c.returnTy
  frames : c'.frames = c.frames
  outer : c'.symbols.outer = c.symbols.outer
  inner (name : String) : c'.symbols.inner.find? name =
    match s with
    | .declare v =>
      if v.name.name = name then some (.ofVar v) else c.symbols.inner.find? name
    | _ => c.symbols.inner.find? name

namespace Checker

theorem stmt_restores (c : Checker) (s : Stmt) : c.Restores s (stmt s c) := by
  rw [stmt_eq]
  refine ⟨rfl, rfl, SymbolTable.outer_behind c.symbols s, fun name => ?_⟩
  cases s with
  | declare v => exact Scope.find?_insert c.symbols.inner (.ofVar v) name
  | _ => rfl

/-- Bodies are checked in isolation, and so is every statement. With another body of one function in
a program, the same is found on every other declaration; and the machine of which this is said finds
what the checker finds, in programs and in statements. -/
theorem isolates :
    (∀ (c : Checker) (before after : Program) (f : FnDecl) (body : Block) (span : Span),
      (c.reports (before ++ .fn f :: after)).eraseIdx before.length =
        (c.reports (before ++ .fn { f with body, span } :: after)).eraseIdx before.length) ∧
    (∀ p : Program, p.findings = (new.reports p).flatten) ∧
    ∀ (c : Checker) (s : Stmt), c.Restores s (stmt s c) ∧
      (stmt s c).symbols = (Check.stmt c.context c.symbols s).value ∧
      (stmt s c).findings = c.findings ++ (Check.stmt c.context c.symbols s).findings := by
  refine ⟨fun c before after f body span => eraseIdx_reports before after f body span c,
    fun p => (flatten_reports p new).symm, fun c s => ⟨c.stmt_restores s, ?_, ?_⟩⟩
  · rw [stmt_eq, Check.value_stmt, symbols_behind]
  · rw [stmt_eq, behind]

end Checker

end ShaderLang
