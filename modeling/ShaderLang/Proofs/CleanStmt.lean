import ShaderLang.Proofs.Clean

/-!
# Statements without findings

What the checker guarantees of statements in which it finds nothing wrong, one inversion for each
form, and the symbol table behind a statement (`SymbolTable.behind`): only a declaration changes it.
-/

namespace ShaderLang

namespace SymbolTable

/-- The table behind a statement. -/
def behind (c : SymbolTable) : Stmt → SymbolTable
  | .declare v => c.declare (.ofVar v)
  | _ => c

/-- The table behind what a `for` loop begins with. -/
def behindInit (c : SymbolTable) : Option ForInit → SymbolTable
  | some (.declare v) => c.declare (.ofVar v)
  | _ => c

end SymbolTable

namespace Declared

variable {c : SymbolTable}

theorem empty : Declared .empty where
  var name t h := by simp [Typing.variableTy?] at h
  fn name f h := by simp [Typing.function?] at h

theorem push (h : Declared c) : Declared c.push where
  var name t ht := h.var name t (by simpa [Typing.variableTy?] using ht)
  fn name f hf := h.fn name f (by simpa [Typing.function?] using hf)

theorem declareVar (h : Declared c) {v : VarDecl} (hv : v.AsRead) (hvoid : v.ty ≠ .void) :
    Declared (c.declare (.ofVar v)) where
  var name t ht := by
    rw [Typing.variableTy?, SymbolTable.lookup?_declare] at ht
    split at ht
    · cases ht
      exact ⟨hv.ty, hvoid⟩
    · exact h.var name t ht
  fn name f hf := by
    rw [Typing.function?, SymbolTable.lookup?_declare] at hf
    split at hf
    · cases hf
    · exact h.fn name f hf

theorem declareFn (h : Declared c) {f : FnDecl} (hf : f.AsRead)
    (hvoid : ∀ v ∈ f.formals, v.ty ≠ .void) : Declared (c.declare (.ofFn f)) where
  var name t ht := by
    rw [Typing.variableTy?, SymbolTable.lookup?_declare] at ht
    split at ht
    · cases ht
    · exact h.var name t ht
  fn name f' hf' := by
    rw [Typing.function?, SymbolTable.lookup?_declare] at hf'
    split at hf'
    · cases hf'
      exact ⟨hf.returnTy, fun v hv => ⟨(hf.formals v hv).ty, hvoid v hv⟩⟩
    · exact h.fn name f' hf'

end Declared

namespace Check

variable {c : SymbolTable} {context : Context}

@[simp] theorem value_declare (symbol : Symbol) :
    (declare c symbol).value = c.declare symbol := by
  unfold declare
  split <;> rfl

@[simp] theorem value_varDecl (v : VarDecl) :
    (varDecl c v).value = c.declare (.ofVar v) := by
  unfold varDecl
  split <;> simp

/-- What is guaranteed of a declaration of a variable. -/
structure CleanVar (c : SymbolTable) (v : VarDecl) : Prop where
  ty : v.ty ≠ .void
  init : ∀ e ∈ v.init, Clean c e
  converts : ∀ e ∈ v.init, (typeOf c e).convertsTo v.ty = true
  constant : ∀ e ∈ v.init, c.isGlobal = true → e.isConstant = true

theorem cleanVar_of_varDecl {v : VarDecl} (h : (varDecl c v).findings = []) : CleanVar c v := by
  unfold varDecl at h
  cases hv : v.init with
  | none =>
    simp only [hv, Report.findings_bind, List.append_eq_nil_iff, Report.findings_noteIf_eq_nil,
      beq_eq_false_iff_ne] at h
    exact ⟨h.1, by simp [hv], by simp [hv], by simp [hv]⟩
  | some e =>
    simp only [hv, initializer, Report.findings_bind, List.append_eq_nil_iff, value_expr,
      Report.findings_noteIf_eq_nil, beq_eq_false_iff_ne] at h
    obtain ⟨hty, ⟨hclean, hrest⟩, -⟩ := h
    split at hrest
    · simp [Report.note] at hrest
    · next hglobal =>
      have hconverts : (typeOf c e).convertsTo v.ty = true := by simpa using hrest
      have hconstant : c.isGlobal = true → e.isConstant = true := by simpa using hglobal
      exact ⟨hty, by simpa [hv, Clean] using hclean, by simpa [hv] using hconverts,
        by simpa [hv] using hconstant⟩

@[simp] theorem value_forInit (init : Option ForInit) :
    (forInit c init).value = c.behindInit init := by
  match init with
  | none | some (.expr e) => rfl
  | some (.declare v) => exact value_varDecl v

theorem value_stmt (s : Stmt) : (stmt context c s).value = c.behind s := by
  cases s with
  | declare v => rw [stmt, value_varDecl, SymbolTable.behind]
  | returnStmt span value => cases value <;> rfl
  | _ => rfl

/-- Nothing is wrong with a statement. -/
def CleanStmt (context : Context) (c : SymbolTable) (s : Stmt) : Prop :=
  (stmt context c s).findings = []

/-- Nothing is wrong with statements. -/
def CleanStmts (context : Context) (c : SymbolTable) (body : List Stmt) : Prop :=
  (stmts context c body).findings = []

/-- Nothing is wrong with the arms of a `switch`. -/
def CleanArms (context : Context) (c : SymbolTable) (arms : List (Arm (List Stmt))) : Prop :=
  (armBodies context c arms).findings = []

attribute [local simp] stmt stmts armBodies

theorem cleanStmts_cons {s : Stmt} {rest : List Stmt} :
    CleanStmts context c (s :: rest) ↔
      CleanStmt context c s ∧ CleanStmts context (c.behind s) rest := by
  simp [CleanStmts, CleanStmt, value_stmt]

theorem cleanArms_cons {arm : Arm (List Stmt)} {rest : List (Arm (List Stmt))} :
    CleanArms context c (arm :: rest) ↔
      CleanStmts context c.push arm.body ∧ CleanArms context c rest := by
  simp [CleanArms, CleanStmts]

theorem cleanStmt_expr {span : Span} {e : Expr} :
    CleanStmt context c (.expr span e) ↔ Clean c e := by
  simp [CleanStmt, Clean, discard]

theorem cleanStmt_declare {v : VarDecl} (h : CleanStmt context c (.declare v)) : CleanVar c v :=
  cleanVar_of_varDecl (by simpa [CleanStmt] using h)

theorem cleanStmt_block {span : Span} {body : List Stmt} :
    CleanStmt context c (.block span body) ↔ CleanStmts context c.push body := by
  simp [CleanStmt, CleanStmts]

theorem findings_test_eq_nil {e : Expr} :
    (test c e).findings = [] ↔ Clean c e ∧ (typeOf c e = .bool ∨ typeOf c e = .error) := by
  simp only [test, testTy, Report.findings_bind, List.append_eq_nil_iff, value_expr,
    Report.findings_noteIf_eq_nil, Bool.and_eq_false_iff, bne_eq_false_iff_eq, Clean]

theorem cleanStmt_ifThen {span : Span} {condition : Expr} {ifTrue : Stmt} :
    CleanStmt context c (.ifThen span condition ifTrue) ↔
      (Clean c condition ∧ (typeOf c condition = .bool ∨ typeOf c condition = .error)) ∧
        CleanStmt context c.push ifTrue := by
  rw [← findings_test_eq_nil]
  simp [CleanStmt]

theorem cleanStmt_ifElse {span : Span} {condition : Expr} {ifTrue ifFalse : Stmt} :
    CleanStmt context c (.ifElse span condition ifTrue ifFalse) ↔
      (Clean c condition ∧ (typeOf c condition = .bool ∨ typeOf c condition = .error)) ∧
        CleanStmt context c.push ifTrue ∧ CleanStmt context c.push ifFalse := by
  rw [← findings_test_eq_nil]
  simp [CleanStmt]

theorem cleanStmt_whileLoop {span : Span} {condition : Expr} {body : Stmt} :
    CleanStmt context c (.whileLoop span condition body) ↔
      (Clean c condition ∧ (typeOf c condition = .bool ∨ typeOf c condition = .error)) ∧
        CleanStmt (context.inside .loop) c.push body := by
  rw [← findings_test_eq_nil]
  simp [CleanStmt]

/-- What is guaranteed of the beginning of a `for` loop. -/
def CleanInit (c : SymbolTable) : Option ForInit → Prop
  | some (.expr e) => Clean c e
  | some (.declare v) => CleanVar c v
  | none => True

theorem cleanInit_of_forInit {init : Option ForInit} (h : (forInit c init).findings = []) :
    CleanInit c init := by
  match init with
  | none => trivial
  | some (.expr e) => simpa [CleanInit, Clean, forInit, discard] using h
  | some (.declare v) => exact cleanVar_of_varDecl h

theorem cleanStmt_forLoop {span : Span} {init : Option ForInit} {condition step : Option Expr}
    {body : Stmt} (h : CleanStmt context c (.forLoop span init condition step body)) :
    CleanInit c.push init ∧ (∀ e ∈ condition, Clean (c.push.behindInit init) e) ∧
      (∀ e ∈ step, Clean (c.push.behindInit init) e) ∧
      CleanStmt (context.inside .loop) (c.push.behindInit init).push body := by
  simp only [CleanStmt, stmt, Report.findings_bind, List.append_eq_nil_iff, value_forInit] at h
  obtain ⟨hinit, hcondition, hstep, hbody, -⟩ := h
  refine ⟨cleanInit_of_forInit hinit, fun e he => ?_, fun e he => ?_, hbody⟩
  · rw [Option.mem_def.mp he] at hcondition
    exact (findings_test_eq_nil.mp hcondition).1
  · rw [Option.mem_def.mp he] at hstep
    simpa [Clean, optional, discard] using hstep

/-- Every label of a `switch` is an integer constant. -/
theorem constInt?_of_labels {Body : Type} {seen : List Int64} {hasDefault : Bool}
    {arms : List (Arm Body)} (h : (labels c seen hasDefault arms).findings = []) :
    ∀ arm ∈ arms, ∀ label ∈ arm.label, label.constInt?.isSome = true := by
  induction arms generalizing seen hasDefault with
  | nil => simp
  | cons arm rest ih =>
    rw [labels] at h
    intro arm' harm label hlabel
    split at h
    · next hnone =>
      rcases List.mem_cons.mp harm with rfl | harm
      · simp [hnone] at hlabel
      · exact ih (List.append_eq_nil_iff.mp h).2 arm' harm label hlabel
    · next label' hlabel' =>
      split at h
      · next value hvalue =>
        rcases List.mem_cons.mp harm with rfl | harm
        · rw [hlabel', Option.mem_some] at hlabel
          simp [← hlabel, hvalue]
        · exact ih (List.append_eq_nil_iff.mp h).2 arm' harm label hlabel
      · simp [Report.note] at h

theorem cleanStmt_switch {span : Span} {value : Expr} {arms : List (Arm (List Stmt))}
    (h : CleanStmt context c (.switch span value arms)) :
    Clean c value ∧ (typeOf c value = .int ∨ typeOf c value = .error) ∧
      (labels c [] false arms).findings = [] ∧ CleanArms (context.inside .switch) c arms := by
  simpa [CleanStmt, Clean, CleanArms, value_expr, Decidable.or_iff_not_imp_left] using h

theorem cleanStmt_breakStmt {span : Span} :
    CleanStmt context c (.breakStmt span) ↔ context.frames ≠ [] := by
  simp [CleanStmt]

theorem cleanStmt_continueStmt {span : Span} :
    CleanStmt context c (.continueStmt span) ↔ .loop ∈ context.frames := by
  simp [CleanStmt]

theorem cleanStmt_returnStmt {span : Span} {value : Option Expr}
    (h : CleanStmt context c (.returnStmt span value)) :
    (∀ e ∈ value, Clean c e) ∧
      ((value.map (typeOf c)).getD .void).convertsTo context.returnTy = true := by
  cases value with
  | none => simpa [CleanStmt] using h
  | some e => simpa [CleanStmt, Clean, value_expr] using h

/-- The checker gives an expression its type, whatever it finds wrong in it; and behind the
expression the checker goes on with the same table, in the same loops and switches and for the same
return type. -/
theorem expr_typeOf_and_keeps (context : Context) (c : SymbolTable) (span : Span) (e : Expr)
    (rest : List Stmt) :
    (expr c e).value = typeOf c e ∧
      stmts context c (.expr span e :: rest) =
        ⟨(stmts context c rest).value, (expr c e).findings ++ (stmts context c rest).findings⟩ := by
  have hfindings : (stmt context c (.expr span e)).findings = (expr c e).findings := by
    simp [discard]
  have hvalue : (stmt context c (.expr span e)).value = c := value_stmt (.expr span e)
  constructor
  · exact value_expr c e
  · calc stmts context c (.expr span e :: rest)
      _ = stmt context c (.expr span e) >>= fun behind => stmts context behind rest := by rw [stmts]
      _ = ⟨(stmts context (stmt context c (.expr span e)).value rest).value,
            (stmt context c (.expr span e)).findings ++
              (stmts context (stmt context c (.expr span e)).value rest).findings⟩ := rfl
      _ = ⟨(stmts context c rest).value, (expr c e).findings ++ (stmts context c rest).findings⟩ := by
        rw [hvalue, hfindings]

end Check

open Check

namespace Declared

variable {c : SymbolTable}

theorem behind (h : Declared c) {context : Context} {s : Stmt} (hr : s.AsRead)
    (hc : CleanStmt context c s) : Declared (c.behind s) := by
  cases s with
  | declare v => exact h.declareVar hr (cleanStmt_declare hc).ty
  | _ => exact h

theorem behindInit (h : Declared c) {init : Option ForInit} (hr : ∀ i ∈ init, i.AsRead)
    (hc : CleanInit c init) : Declared (c.behindInit init) := by
  match init with
  | none | some (.expr e) => exact h
  | some (.declare v) => exact h.declareVar (hr (.declare v) rfl) hc.ty

end Declared

end ShaderLang
