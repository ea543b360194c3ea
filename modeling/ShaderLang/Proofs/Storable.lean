import Mathlib
import ShaderLang.Check.Stmt
import ShaderLang.Proofs.Variables

/-!
# Which variables can be stored

The checker looks at every declaration of a variable, wherever it stands, and reports those of type
`void`, once each and in the order of the text (`Program.voids_findings`). It looks at no more than
the type itself: an array of `void` passes. So the variables of a program without findings can be
stored exactly as far as none of them is such an array (`Program.isStorable_iff`).
-/

namespace ShaderLang

/-- The type of what is in an array of arrays, or the type itself. -/
def Ty.innermost : Ty → Ty
  | .array element _ => element.innermost
  | t => t

/-- Whether a variable of this type has a value. -/
def Ty.isStorable (t : Ty) : Bool :=
  t.innermost != .void

/-- Whether this is a variable of type `void`. -/
def Finding.Cause.isVoid : Finding.Cause → Bool
  | .voidVariable _ => true
  | _ => false

/-- What is reported of a variable of type `void`. -/
def VarDecl.voidFinding (v : VarDecl) : Finding :=
  ⟨.voidVariable v.name.name, v.name.span⟩

/-- What is to be reported of variables. -/
def VarDecl.voidFindings (vs : List VarDecl) : List Finding :=
  (vs.filter (·.ty == .void)).map voidFinding

@[simp] theorem VarDecl.voidFindings_nil : voidFindings [] = [] := rfl

@[simp] theorem VarDecl.voidFindings_append (vs ws : List VarDecl) :
    voidFindings (vs ++ ws) = voidFindings vs ++ voidFindings ws := by
  simp [voidFindings]

namespace Report

variable {α β : Type}

/-- The variables of type `void` that are reported. -/
def voids (r : Report α) : List Finding :=
  r.findings.filter (·.cause.isVoid)

@[simp] theorem voids_pure (a : α) : (pure a : Report α).voids = [] := rfl

@[simp] theorem voids_bind (r : Report α) (f : α → Report β) :
    (r >>= f).voids = r.voids ++ (f r.value).voids := by
  simp [voids]

@[simp] theorem voids_note (cause : Finding.Cause) (span : Span) :
    (note cause span).voids = if cause.isVoid then [⟨cause, span⟩] else [] := by
  cases h : cause.isVoid <;> simp [voids, note, h]

@[simp] theorem voids_noteIf (condition : Bool) (cause : Finding.Cause) (span : Span) :
    (noteIf condition cause span).voids =
      if condition && cause.isVoid then [⟨cause, span⟩] else [] := by
  cases condition
  · rfl
  · exact voids_note cause span

@[simp] theorem voids_orNote (value : Option α) (default : α) (cause : Finding.Cause)
    (span : Span) : (orNote value default cause span).voids =
      if value.isNone && cause.isVoid then [⟨cause, span⟩] else [] := by
  cases value
  · exact voids_note cause span
  · rfl

end Report

namespace Check

open Finding

/-! ## Expressions declare nothing -/

theorem voids_place (c : SymbolTable) (target : Expr) (op : String) :
    (place c target op).voids = [] := by
  unfold place
  split <;> simp [Cause.isVoid]

theorem voids_arguments (index : Nat) (formals : List VarDecl) (actuals : List Ty)
    (spans : List Span) :
    (arguments index formals actuals spans).filter (·.cause.isVoid) = [] := by
  fun_induction arguments index formals actuals spans with
  | case1 _ _ _ _ _ _ _ ih =>
    rw [List.filter_append, ih]
    split <;> simp [Cause.isVoid]
  | case2 => rfl

theorem voids_call (c : SymbolTable) (callee : Ident) (actuals : List Ty) (spans : List Span) :
    (call c callee actuals spans).voids = [] := by
  unfold call
  split
  · rfl
  · split
    · rfl
    · simp only [Report.voids_bind, Report.voids_noteIf, Cause.isVoid, Bool.and_false]
      exact voids_arguments _ _ _ _

theorem isVoid_swizzleCause (field : String) (base : Ty) (issue : Swizzle.Issue) :
    (swizzleCause field base issue).isVoid = false := by
  cases issue <;> rfl

mutual

theorem voids_expr (c : SymbolTable) (e : Expr) : (expr c e).voids = [] := by
  match e with
  | .int .. | .float .. | .bool .. => rfl
  | .var _ name => simp [expr, Cause.isVoid]
  | .binary _ op left right => simp [expr, voids_expr c left, voids_expr c right, Cause.isVoid]
  | .unary _ op operand =>
    cases op <;> simp [expr, voids_expr c operand, voids_place, Cause.isVoid]
  | .assign _ op target value =>
    simp only [expr, Report.voids_bind, voids_expr c target, voids_expr c value, voids_place]
    split <;> simp [Cause.isVoid]
  | .stepAfter _ direction operand => simp [expr, voids_expr c operand, voids_place, Cause.isVoid]
  | .conditional _ test ifTrue ifFalse =>
    simp [expr, voids_expr c test, voids_expr c ifTrue, voids_expr c ifFalse, testTy, Cause.isVoid]
  | .index _ base position =>
    simp [expr, voids_expr c base, voids_expr c position, Cause.isVoid]
  | .field _ base name =>
    rw [expr, Report.voids_bind, voids_expr c base, List.nil_append]
    simp [Report.voids, isVoid_swizzleCause]
  | .call _ callee arguments => simp [expr, voids_exprs c arguments, voids_call]
  | .construct _ target arguments => simp [expr, voids_exprs c arguments, Cause.isVoid]

theorem voids_exprs (c : SymbolTable) (es : List Expr) : (exprs c es).voids = [] := by
  match es with
  | [] => rfl
  | e :: rest => simp [exprs, voids_expr c e, voids_exprs c rest]

end

/-! ## Statements -/

theorem voids_declare (c : SymbolTable) (symbol : Symbol) : (declare c symbol).voids = [] := by
  unfold declare
  split <;> simp [Cause.isVoid]

theorem voids_initializer (c : SymbolTable) (v : VarDecl) (init : Expr) :
    (initializer c v init).voids = [] := by
  simp only [initializer, Report.voids_bind, voids_expr]
  split <;> simp [Cause.isVoid]

theorem voids_varDecl (c : SymbolTable) (v : VarDecl) :
    (varDecl c v).voids = VarDecl.voidFindings [v] := by
  have hty : (Report.noteIf (v.ty == .void) (.voidVariable v.name.name) v.name.span).voids =
      VarDecl.voidFindings [v] := by
    by_cases h : v.ty = .void <;> simp [h, Cause.isVoid, VarDecl.voidFindings, VarDecl.voidFinding]
  cases hinit : v.init <;> simp [varDecl, hinit, hty, voids_initializer, voids_declare]

theorem voids_varDecls (c : SymbolTable) (vs : List VarDecl) :
    (varDecls c vs).voids = VarDecl.voidFindings vs := by
  induction vs generalizing c with
  | nil => rfl
  | cons v rest ih =>
    rw [varDecls, Report.voids_bind, voids_varDecl, ih, ← VarDecl.voidFindings_append,
      List.singleton_append]

theorem voids_test (c : SymbolTable) (e : Expr) : (test c e).voids = [] := by
  simp [test, voids_expr, testTy, Cause.isVoid]

theorem voids_discard (c : SymbolTable) (e : Expr) : (discard c e).voids = [] := by
  simp [discard, voids_expr]

theorem voids_optional {check : Expr → Report Unit} (h : ∀ e, (check e).voids = [])
    (o : Option Expr) : (optional check o).voids = [] := by
  cases o
  · rfl
  · exact h _

theorem voids_forInit (c : SymbolTable) (init : Option ForInit) :
    (forInit c init).voids = VarDecl.voidFindings (init.toList.flatMap ForInit.variables) := by
  match init with
  | none => rfl
  | some (.expr e) => simp [forInit, voids_discard, ForInit.variables]
  | some (.declare v) => simp [forInit, voids_varDecl, ForInit.variables]

theorem voids_labels {Body : Type} (c : SymbolTable) (seen : List Int64) (hasDefault : Bool)
    (arms : List (Arm Body)) : (labels c seen hasDefault arms).voids = [] := by
  fun_induction labels c seen hasDefault arms with
  | case1 => rfl
  | case2 => simp [*, Cause.isVoid]
  | case3 => simp [*, Cause.isVoid]
  | case4 => simp [*, voids_discard, Cause.isVoid]

mutual

theorem voids_stmt (context : Context) (c : SymbolTable) (s : Stmt) :
    (stmt context c s).voids = VarDecl.voidFindings s.variables := by
  match s with
  | .expr _ e => simp [stmt, voids_discard, Stmt.variables]
  | .empty _ => rfl
  | .declare v => exact voids_varDecl c v
  | .block _ body => simp [stmt, voids_stmts, Stmt.variables]
  | .ifThen _ condition ifTrue => simp [stmt, voids_test, voids_stmt _ _ ifTrue, Stmt.variables]
  | .ifElse _ condition ifTrue ifFalse =>
    simp [stmt, voids_test, voids_stmt _ _ ifTrue, voids_stmt _ _ ifFalse, Stmt.variables]
  | .whileLoop _ condition body => simp [stmt, voids_test, voids_stmt _ _ body, Stmt.variables]
  | .forLoop _ init condition step body =>
    simp [stmt, voids_forInit, voids_optional (voids_test _), voids_optional (voids_discard _),
      voids_stmt _ _ body, Stmt.variables]
  | .switch _ value arms =>
    simp [stmt, voids_expr, voids_labels, voids_armBodies _ _ arms, Stmt.variables, Cause.isVoid]
  | .breakStmt _ | .continueStmt _ => simp [stmt, Stmt.variables, Cause.isVoid]
  | .returnStmt _ value =>
    cases value <;> simp [stmt, voids_expr, Stmt.variables, Cause.isVoid]

theorem voids_stmts (context : Context) (c : SymbolTable) (ss : List Stmt) :
    (stmts context c ss).voids = VarDecl.voidFindings (Stmt.allVariables ss) := by
  match ss with
  | [] => rfl
  | s :: rest => simp [stmts, voids_stmt _ _ s, voids_stmts _ _ rest, Stmt.allVariables]

theorem voids_armBodies (context : Context) (c : SymbolTable) (arms : List (Arm (List Stmt))) :
    (armBodies context c arms).voids = VarDecl.voidFindings (Stmt.armVariables arms) := by
  match arms with
  | [] => rfl
  | ⟨_, body, _⟩ :: rest =>
    simp [armBodies, voids_stmts _ _ body, voids_armBodies _ _ rest, Stmt.armVariables]

end

/-! ## Programs -/

theorem voids_decl (c : SymbolTable) (d : Decl) :
    (decl c d).voids = VarDecl.voidFindings d.variables := by
  cases d with
  | var v => exact voids_varDecl c v
  | fn f => simp [decl, fnDecl, voids_declare, voids_varDecls, voids_stmts, Decl.variables]

theorem voids_program (c : SymbolTable) (p : Program) :
    (program c p).voids = VarDecl.voidFindings p.variables := by
  induction p generalizing c with
  | nil => rfl
  | cons d rest ih => simp [program, voids_decl, ih, Program.variables]

end Check

/-- The checker reports the variables of type `void`, wherever they are declared, and no others. -/
theorem Program.voids_findings (p : Program) :
    p.findings.filter (·.cause.isVoid) = VarDecl.voidFindings p.variables :=
  Check.voids_program .empty p

theorem Program.ty_ne_void_of_clean {p : Program} (h : p.findings = []) {v : VarDecl}
    (hv : v ∈ p.variables) : v.ty ≠ .void := by
  intro hty
  have hmem : v.voidFinding ∈ VarDecl.voidFindings p.variables :=
    List.mem_map_of_mem (List.mem_filter.mpr ⟨hv, beq_iff_eq.mpr hty⟩)
  rw [← p.voids_findings, h] at hmem
  cases hmem

theorem Ty.innermost_of_isPlain {t : Ty} (h : t.isPlain = true) : t.innermost = t := by
  cases t <;> first | rfl | cases h

/-- Of the types that declarations give, `void` and the arrays of it have no values. -/
theorem Ty.isStorable_iff_of_isDeclarable {t : Ty} (h : t.isDeclarable = true) :
    t.isStorable = true ↔ t ≠ .void ∧ ∀ length, t ≠ .array .void length := by
  cases t with
  | array element length =>
    simp only [isDeclarable, Bool.and_eq_true] at h
    simp [isStorable, innermost, innermost_of_isPlain h.1.1]
  | _ => simp [isStorable, innermost]

/-- Of a program that was read, the checker reports the variables of type `void`, wherever they are
declared, once each, and no others. Where it finds nothing at all, a variable can be stored unless
it is an array of `void`. -/
theorem Program.isStorable_iff {source : String} {p : Program}
    (h : Program.ofText? source = .ok p) :
    p.findings.filter (·.cause.isVoid) = VarDecl.voidFindings p.variables ∧
    (p.findings = [] → ∀ v ∈ p.variables, v.ty ≠ .void ∧
      (v.ty.isStorable = true ↔ ∀ length, v.ty ≠ .array .void length)) := by
  refine ⟨p.voids_findings, fun hclean v hv => ?_⟩
  have hvoid := Program.ty_ne_void_of_clean hclean hv
  have hread := (Program.asRead_of_ofText h).of_mem_variables hv
  exact ⟨hvoid, (Ty.isStorable_iff_of_isDeclarable hread.ty).trans (and_iff_right hvoid)⟩

/-- Nothing is found in a global array of `void`, which cannot be stored. -/
theorem Program.isStorable_iff_of_array_of_void : ∃ p, Program.ofText? "void x[2];" = .ok p ∧
    p.findings = [] ∧ ∃ v ∈ p.variables, v.ty.isStorable = false := by
  let v : VarDecl := ⟨⟨"x", ⟨5, 6⟩⟩, .array .void 2, none, none, ⟨0, 10⟩⟩
  have hread : Program.ofText? "void x[2];" = .ok [.var v] := by cbv
  have hclean : Program.findings [.var v] = [] := by cbv
  have hiff := ((Program.isStorable_iff hread).2 hclean v List.mem_cons_self).2
  refine ⟨_, hread, hclean, v, List.mem_cons_self, ?_⟩
  exact Bool.eq_false_iff.mpr fun hstorable => hiff.mp hstorable 2 rfl

end ShaderLang
