import ShaderLang.Proofs.CleanStmt

/-!
# Programs without findings

What the checker guarantees of declarations in which it finds nothing wrong, and the symbol tables
behind them and inside a function.
-/

namespace ShaderLang

open Check

namespace SymbolTable

/-- The table behind declarations of variables. -/
def declareVars (c : SymbolTable) : List VarDecl → SymbolTable
  | [] => c
  | v :: rest => (c.declare (.ofVar v)).declareVars rest

/-- The table in which the body of a function is checked and lowered. -/
def insideFn (c : SymbolTable) (f : FnDecl) : SymbolTable :=
  ((c.declare (.ofFn f)).push.declareVars f.formals).push

/-- The table behind a declaration at the top of a program. -/
def behindDecl (c : SymbolTable) : Decl → SymbolTable
  | .var v => c.declare (.ofVar v)
  | .fn f => c.declare (.ofFn f)

end SymbolTable

namespace Check

variable {c : SymbolTable}

theorem value_varDecls (vs : List VarDecl) : (varDecls c vs).value = c.declareVars vs := by
  induction vs generalizing c with
  | nil => rfl
  | cons v rest ih => simp [varDecls, SymbolTable.declareVars, ih]

/-- Clean declarations of variables, one after the other. -/
theorem cleanVars_of_varDecls {vs : List VarDecl} (h : (varDecls c vs).findings = []) :
    ∀ v ∈ vs, v.ty ≠ .void := by
  induction vs generalizing c with
  | nil => simp
  | cons v rest ih =>
    simp only [varDecls, Report.findings_bind, List.append_eq_nil_iff] at h
    intro w hw
    rcases List.mem_cons.mp hw with rfl | hw
    · exact (cleanVar_of_varDecl h.1).ty
    · exact ih h.2 w hw

theorem declared_declareVars {vs : List VarDecl} (hd : Declared c) (hr : ∀ v ∈ vs, v.AsRead)
    (hty : ∀ v ∈ vs, v.ty ≠ .void) : Declared (c.declareVars vs) := by
  induction vs generalizing c with
  | nil => exact hd
  | cons v rest ih =>
    exact ih (hd.declareVar (hr v List.mem_cons_self) (hty v List.mem_cons_self))
      (fun w hw => hr w (List.mem_cons_of_mem _ hw)) fun w hw => hty w (List.mem_cons_of_mem _ hw)

/-- What is guaranteed of a declaration of a function. -/
structure CleanFn (c : SymbolTable) (f : FnDecl) : Prop where
  formals : ∀ v ∈ f.formals, v.ty ≠ .void
  body : CleanStmts ⟨f.returnTy, []⟩ (c.insideFn f) f.body.stmts

theorem cleanFn_of_fnDecl {f : FnDecl} (h : (fnDecl c f).findings = []) : CleanFn c f := by
  simp only [fnDecl, Report.findings_bind, List.append_eq_nil_iff, value_declare,
    value_varDecls] at h
  exact ⟨cleanVars_of_varDecls h.2.1, h.2.2.1⟩

/-- What is guaranteed of a declaration at the top of a program. -/
def CleanDecl (c : SymbolTable) : Decl → Prop
  | .var v => CleanVar c v
  | .fn f => CleanFn c f

theorem cleanDecl_of_decl {d : Decl} (h : (decl c d).findings = []) : CleanDecl c d := by
  cases d with
  | var v => exact cleanVar_of_varDecl h
  | fn f => exact cleanFn_of_fnDecl h

theorem value_decl (d : Decl) : (decl c d).value = c.behindDecl d := by
  cases d with
  | var v => exact value_varDecl v
  | fn f => simp [decl, fnDecl, SymbolTable.behindDecl]

/-- Nothing is wrong with the declarations of a program. -/
def CleanProgram (c : SymbolTable) (p : Program) : Prop :=
  (program c p).findings = []

theorem cleanProgram_cons {d : Decl} {rest : Program} (h : CleanProgram c (d :: rest)) :
    CleanDecl c d ∧ CleanProgram (c.behindDecl d) rest := by
  simp only [CleanProgram, program, Report.findings_bind, List.append_eq_nil_iff, value_decl] at h
  exact ⟨cleanDecl_of_decl h.1, h.2⟩

theorem declared_behindDecl (hd : Declared c) {d : Decl} (hr : d.AsRead) (hc : CleanDecl c d) :
    Declared (c.behindDecl d) := by
  cases d with
  | var v => exact hd.declareVar hr hc.ty
  | fn f => exact hd.declareFn hr hc.formals

theorem declared_insideFn (hd : Declared c) {f : FnDecl} (hr : f.AsRead) (hc : CleanFn c f) :
    Declared (c.insideFn f) :=
  (declared_declareVars (hd.declareFn hr hc.formals).push hr.formals hc.formals).push

end Check

end ShaderLang
