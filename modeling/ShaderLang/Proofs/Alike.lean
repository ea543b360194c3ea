import ShaderLang.Proofs.CleanProgram

/-!
# What the checker reads of a declaration

Once something is declared, the checker does not look at its initializer or its body again. In two
symbol tables that differ in nothing else (`Alike`) it finds the same wrong with expressions, with
statements and with whole programs (`expr_alike`, `stmt_alike`, `program_alike`).
-/

namespace ShaderLang

open Typing

/-- A declaration of a variable without its initializer. -/
def VarDecl.head (v : VarDecl) : VarDecl :=
  { v with init := none }

/-- A declaration of a function without its body. -/
def FnDecl.head (f : FnDecl) : FnDecl :=
  { f with formals := f.formals.map VarDecl.head, body := ⟨[], default⟩, span := default }

/-- A declaration without initializer or body. -/
def Decl.head : Decl → Decl
  | var v => var v.head
  | fn f => fn f.head

/-- Two tables know the same declarations, but for initializers and bodies. -/
structure Alike (c c' : SymbolTable) : Prop where
  lookup : ∀ name, (c.lookup? name).map (·.decl.head) = (c'.lookup? name).map (·.decl.head)
  conflict : ∀ name, (c.conflict? name).map (·.decl.head) = (c'.conflict? name).map (·.decl.head)
  isGlobal : c.isGlobal = c'.isGlobal

namespace Decl

theorem name_head (d : Decl) : d.head.name = d.name := by
  cases d <;> rfl

theorem head_eq_var {d : Decl} {v : VarDecl} (h : d.head = .var v) :
    ∃ v', d = .var v' ∧ v'.head = v := by
  cases d with
  | var v' => exact ⟨v', rfl, Decl.var.inj h⟩
  | fn f => cases h

theorem head_eq_fn {d : Decl} {f : FnDecl} (h : d.head = .fn f) :
    ∃ f', d = .fn f' ∧ f'.head = f := by
  cases d with
  | var v => cases h
  | fn f' => exact ⟨f', rfl, Decl.fn.inj h⟩

end Decl

namespace Alike

variable {c c' c'' : SymbolTable}

theorem refl (c : SymbolTable) : Alike c c :=
  ⟨fun _ => rfl, fun _ => rfl, rfl⟩

theorem push (h : Alike c c') : Alike c.push c'.push where
  lookup name := by simpa using h.lookup name
  conflict _ := rfl
  isGlobal := rfl

/-- What is declared with the same head is alike. -/
theorem declare (h : Alike c c') {s s' : Symbol} (hs : s.decl.head = s'.decl.head) :
    Alike (c.declare s) (c'.declare s') where
  lookup name := by
    have hname : s.name = s'.name := by
      unfold Symbol.name
      rw [← Decl.name_head, hs, Decl.name_head]
    rw [SymbolTable.lookup?_declare, SymbolTable.lookup?_declare, hname]
    split
    · simp [hs]
    · exact h.lookup name
  conflict name := by
    have hname : s.name = s'.name := by
      unfold Symbol.name
      rw [← Decl.name_head, hs, Decl.name_head]
    change ((c.inner.insert s).find? name).map _ = ((c'.inner.insert s').find? name).map _
    rw [Scope.find?_insert, Scope.find?_insert, hname]
    split
    · simp [hs]
    · exact h.conflict name
  isGlobal := h.isGlobal

theorem declareVar (h : Alike c c') {v v' : VarDecl} (hv : v.head = v'.head) :
    Alike (c.declare (.ofVar v)) (c'.declare (.ofVar v')) :=
  h.declare (congrArg Decl.var hv)

theorem declareFn (h : Alike c c') {f f' : FnDecl} (hf : f.head = f'.head) :
    Alike (c.declare (.ofFn f)) (c'.declare (.ofFn f')) :=
  h.declare (congrArg Decl.fn hf)

theorem declareVars (h : Alike c c') (vs : List VarDecl) :
    Alike (c.declareVars vs) (c'.declareVars vs) := by
  induction vs generalizing c c' with
  | nil => exact h
  | cons v rest ih => exact ih (h.declareVar rfl)

theorem behindDecl (h : Alike c c') {d d' : Decl} (hd : d.head = d'.head) :
    Alike (c.behindDecl d) (c'.behindDecl d') := by
  cases d with
  | var v =>
    obtain ⟨v', rfl, hv⟩ := Decl.head_eq_var (hd.symm.trans rfl)
    exact h.declareVar hv.symm
  | fn f =>
    obtain ⟨f', rfl, hf⟩ := Decl.head_eq_fn (hd.symm.trans rfl)
    exact h.declareFn hf.symm

theorem behind (h : Alike c c') (s : Stmt) : Alike (c.behind s) (c'.behind s) := by
  cases s with
  | declare v => exact h.declareVar rfl
  | _ => exact h

theorem behindInit (h : Alike c c') (init : Option ForInit) :
    Alike (c.behindInit init) (c'.behindInit init) := by
  match init with
  | none | some (.expr e) => exact h
  | some (.declare v) => exact h.declareVar rfl

/-- A name stands for nothing in either table, or for declarations with the same head. -/
theorem cases_lookup (h : Alike c c') (name : String) :
    (c.lookup? name = none ∧ c'.lookup? name = none) ∨
      ∃ s s', c.lookup? name = some s ∧ c'.lookup? name = some s' ∧ s.decl.head = s'.decl.head := by
  have hlookup := h.lookup name
  cases hs : c.lookup? name with
  | none =>
    rw [hs, Option.map_none, eq_comm, Option.map_eq_none_iff] at hlookup
    exact .inl ⟨rfl, hlookup⟩
  | some s =>
    rw [hs, Option.map_some, eq_comm, Option.map_eq_some_iff] at hlookup
    obtain ⟨s', hs', heq⟩ := hlookup
    exact .inr ⟨s, s', rfl, hs', heq.symm⟩

theorem map_var? (h : Alike c c') (name : String) :
    ((c.lookup? name).bind Symbol.var?).map VarDecl.head =
      ((c'.lookup? name).bind Symbol.var?).map VarDecl.head := by
  rcases h.cases_lookup name with ⟨hs, hs'⟩ | ⟨s, s', hs, hs', heq⟩
  · rw [hs, hs']
  · rw [hs, hs', Option.bind_some, Option.bind_some, Symbol.var?, Symbol.var?]
    cases hd : s.decl with
    | var v =>
      obtain ⟨v', hd', hv⟩ := Decl.head_eq_var (heq.symm.trans (congrArg Decl.head hd))
      rw [hd', Option.map_some, Option.map_some, hv]
    | fn f =>
      obtain ⟨f', hd', -⟩ := Decl.head_eq_fn (heq.symm.trans (congrArg Decl.head hd))
      rw [hd']

theorem variableTy?_eq (h : Alike c c') (name : String) :
    variableTy? c name = variableTy? c' name := by
  have hty := congrArg (Option.map VarDecl.ty) (h.map_var? name)
  rw [Option.map_map, Option.map_map] at hty
  exact hty

theorem isConst_eq (h : Alike c c') (name : String) :
    ((c.lookup? name).bind Symbol.var?).any VarDecl.isConst =
      ((c'.lookup? name).bind Symbol.var?).any VarDecl.isConst := by
  have hconst := congrArg (Option.any VarDecl.isConst) (h.map_var? name)
  rw [Option.any_map, Option.any_map] at hconst
  exact hconst

end Alike

namespace Check

variable {c c' : SymbolTable}

theorem isUnknownVariable_alike (h : Alike c c') (e : Expr) :
    isUnknownVariable c e = isUnknownVariable c' e := by
  cases e <;> first | rfl | simp only [isUnknownVariable, h.variableTy?_eq]

theorem place_alike (h : Alike c c') (target : Expr) (op : String) :
    place c target op = place c' target op := by
  unfold place
  cases rootVariable? target with
  | none => rfl
  | some root => simp only [h.isConst_eq root.name]

theorem arguments_head (index : Nat) (formals : List VarDecl) (actuals : List Ty)
    (spans : List Span) :
    arguments index (formals.map VarDecl.head) actuals spans =
      arguments index formals actuals spans := by
  induction formals generalizing index actuals spans with
  | nil => rfl
  | cons v rest ih =>
    cases actuals with
    | nil => rfl
    | cons t ts =>
      cases spans with
      | nil => rfl
      | cons s ss => rw [List.map_cons, arguments, arguments, ih]; rfl

theorem call_alike (h : Alike c c') (callee : Ident) (actuals : List Ty) (spans : List Span) :
    call c callee actuals spans = call c' callee actuals spans := by
  unfold call
  rcases h.cases_lookup callee.name with ⟨hs, hs'⟩ | ⟨s, s', hs, hs', heq⟩
  · rw [hs, hs']
  · rw [hs, hs']
    dsimp only
    rw [Symbol.fn?, Symbol.fn?]
    cases hd : s.decl with
    | var v =>
      obtain ⟨v', hd', -⟩ := Decl.head_eq_var (heq.symm.trans (congrArg Decl.head hd))
      rw [hd']
    | fn f =>
      obtain ⟨f', hd', hf⟩ := Decl.head_eq_fn (heq.symm.trans (congrArg Decl.head hd))
      have hlength : f'.formals.length = f.formals.length := by
        simpa [FnDecl.head] using congrArg (·.formals.length) hf
      have hreturn : f'.head.returnTy = f.head.returnTy := congrArg FnDecl.returnTy hf
      have hformals : ∀ index, arguments index f'.formals actuals spans =
          arguments index f.formals actuals spans := by
        intro index
        rw [← arguments_head, ← arguments_head index f.formals]
        exact congrArg (arguments index ·.formals actuals spans) hf
      rw [hd']
      dsimp only
      rw [hlength, show f'.returnTy = f.returnTy from hreturn, hformals]

mutual

/-- The checker finds the same in an expression, and gives it the same type. -/
theorem expr_alike (h : Alike c c') (e : Expr) : expr c e = expr c' e := by
  match e with
  | .int .. | .float .. | .bool .. => simp only [expr]
  | .var .. => simp only [expr, h.variableTy?_eq]
  | .binary _ _ left right => simp only [expr, expr_alike h left, expr_alike h right]
  | .unary _ op operand => simp only [expr, expr_alike h operand, place_alike h]
  | .assign _ _ target value =>
    simp only [expr, expr_alike h target, expr_alike h value, place_alike h,
      isUnknownVariable_alike h]
  | .stepAfter _ _ operand => simp only [expr, expr_alike h operand, place_alike h]
  | .conditional _ test ifTrue ifFalse =>
    simp only [expr, expr_alike h test, expr_alike h ifTrue, expr_alike h ifFalse]
  | .index _ base position => simp only [expr, expr_alike h base, expr_alike h position]
  | .field _ base _ => simp only [expr, expr_alike h base]
  | .call _ _ arguments => simp only [expr, exprs_alike h arguments, call_alike h]
  | .construct _ _ arguments => simp only [expr, exprs_alike h arguments]

theorem exprs_alike (h : Alike c c') (es : List Expr) : exprs c es = exprs c' es := by
  match es with
  | [] => simp only [exprs]
  | e :: rest => simp only [exprs, expr_alike h e, exprs_alike h rest]

end

theorem declare_alike (h : Alike c c') {s s' : Symbol} (hs : s.decl.head = s'.decl.head) :
    (declare c s).findings = (declare c' s').findings := by
  have hname : s.decl.name = s'.decl.name := by rw [← Decl.name_head, hs, Decl.name_head]
  have hconflict := h.conflict s.name
  unfold declare Symbol.span
  rw [← hname]
  unfold Symbol.name at hconflict ⊢
  rw [← hname]
  cases hc : c.conflict? s.decl.name.name with
  | none =>
    rw [hc, Option.map_none, eq_comm, Option.map_eq_none_iff] at hconflict
    rw [hconflict]
    rfl
  | some t =>
    rw [hc, Option.map_some, eq_comm, Option.map_eq_some_iff] at hconflict
    obtain ⟨t', ht', heq⟩ := hconflict
    rw [ht']
    have hspan : t'.decl.name = t.decl.name := by rw [← Decl.name_head, heq, Decl.name_head]
    simp only [Report.findings_bind]
    rw [hspan]
    rfl

theorem declareVar_alike (h : Alike c c') {v v' : VarDecl} (hv : v.head = v'.head) :
    (declare c (.ofVar v)).findings = (declare c' (.ofVar v')).findings :=
  declare_alike h (congrArg Decl.var hv)

theorem declareFn_alike (h : Alike c c') {f f' : FnDecl} (hf : f.head = f'.head) :
    (declare c (.ofFn f)).findings = (declare c' (.ofFn f')).findings :=
  declare_alike h (congrArg Decl.fn hf)

theorem varDecl_alike (h : Alike c c') (v : VarDecl) :
    (varDecl c v).findings = (varDecl c' v).findings := by
  have hdeclare := declareVar_alike h (Eq.refl v.head)
  unfold varDecl
  cases v.init with
  | none => simp only [Report.findings_bind, hdeclare]
  | some e => simp only [Report.findings_bind, hdeclare, initializer, expr_alike h, h.isGlobal]

theorem test_alike (h : Alike c c') (e : Expr) : test c e = test c' e := by
  simp only [test, expr_alike h]

theorem discard_alike (h : Alike c c') (e : Expr) : discard c e = discard c' e := by
  simp only [discard, expr_alike h]

theorem forInit_alike (h : Alike c c') (init : Option ForInit) :
    (forInit c init).findings = (forInit c' init).findings := by
  match init with
  | none => rfl
  | some (.expr e) => simp only [forInit, Report.findings_bind, discard_alike h, Report.findings_pure]
  | some (.declare v) => exact varDecl_alike h v

theorem optional_alike {check check' : Expr → Report Unit} (h : ∀ e, check e = check' e)
    (e : Option Expr) : optional check e = optional check' e := by
  rw [funext h]

theorem labels_alike {Body : Type} (h : Alike c c') (seen : List Int64) (hasDefault : Bool)
    (arms : List (Arm Body)) : labels c seen hasDefault arms = labels c' seen hasDefault arms := by
  induction arms generalizing seen hasDefault with
  | nil => rfl
  | cons arm rest ih => simp only [labels, ih, discard_alike h]

mutual

/-- The checker finds the same in a statement. -/
theorem stmt_alike {c c' : SymbolTable} {context : Context} (h : Alike c c') (s : Stmt) :
    (stmt context c s).findings = (stmt context c' s).findings := by
  match s with
  | .expr _ e => simp only [stmt, Report.findings_bind, Report.findings_pure, discard_alike h]
  | .empty _ | .breakStmt _ | .continueStmt _ =>
    simp only [stmt, Report.findings_bind, Report.findings_pure]
  | .declare v => exact varDecl_alike h v
  | .block _ body =>
    simp only [stmt, Report.findings_bind, Report.findings_pure, stmts_alike h.push body]
  | .ifThen _ _ ifTrue =>
    simp only [stmt, Report.findings_bind, Report.findings_pure, test_alike h,
      stmt_alike h.push ifTrue]
  | .ifElse _ _ ifTrue ifFalse =>
    simp only [stmt, Report.findings_bind, Report.findings_pure, test_alike h,
      stmt_alike h.push ifTrue, stmt_alike h.push ifFalse]
  | .whileLoop _ _ body =>
    simp only [stmt, Report.findings_bind, Report.findings_pure, test_alike h,
      stmt_alike h.push body]
  | .forLoop _ init condition step body =>
    have hinner := h.push.behindInit init
    simp only [stmt, Report.findings_bind, Report.findings_pure, value_forInit,
      forInit_alike h.push, optional_alike (test_alike hinner),
      optional_alike (discard_alike hinner), stmt_alike hinner.push body]
  | .switch _ _ arms =>
    simp only [stmt, Report.findings_bind, Report.findings_pure, expr_alike h, labels_alike h,
      armBodies_alike h arms]
  | .returnStmt _ value =>
    cases value with
    | none => rfl
    | some e => simp only [stmt, Report.findings_bind, Report.findings_pure, expr_alike h]

theorem stmts_alike {c c' : SymbolTable} {context : Context} (h : Alike c c')
    (body : List Stmt) :
    (stmts context c body).findings = (stmts context c' body).findings := by
  match body with
  | [] => rfl
  | s :: rest =>
    simp only [stmts, Report.findings_bind, value_stmt, stmt_alike h s,
      stmts_alike (h.behind s) rest]

theorem armBodies_alike {c c' : SymbolTable} {context : Context} (h : Alike c c')
    (arms : List (Arm (List Stmt))) :
    (armBodies context c arms).findings = (armBodies context c' arms).findings := by
  match arms with
  | [] => rfl
  | ⟨_, body, _⟩ :: rest =>
    simp only [armBodies, Report.findings_bind, stmts_alike h.push body, armBodies_alike h rest]

end

theorem varDecls_alike (h : Alike c c') (vs : List VarDecl) :
    (varDecls c vs).findings = (varDecls c' vs).findings := by
  induction vs generalizing c c' with
  | nil => rfl
  | cons v rest ih =>
    simp only [varDecls, Report.findings_bind, value_varDecl, varDecl_alike h v,
      ih (h.declareVar rfl)]

/-- Of a function, what the checker finds in the head and in the body. -/
theorem findings_fnDecl (f : FnDecl) :
    (fnDecl c f).findings = (declare c (.ofFn f)).findings ++
      ((varDecls (c.declare (.ofFn f)).push f.formals).findings ++
        (stmts ⟨f.returnTy, []⟩ (c.insideFn f) f.body.stmts).findings) := by
  simp only [fnDecl, Report.findings_bind, Report.findings_pure, value_declare, value_varDecls,
    List.append_nil, SymbolTable.insideFn]

theorem decl_alike (h : Alike c c') (d : Decl) : (decl c d).findings = (decl c' d).findings := by
  cases d with
  | var v => exact varDecl_alike h v
  | fn f =>
    have hinner := (h.declareFn (Eq.refl f.head)).push
    simp only [decl, findings_fnDecl, declareFn_alike h (Eq.refl f.head),
      varDecls_alike hinner, SymbolTable.insideFn, stmts_alike (hinner.declareVars f.formals).push]

/-- The checker finds the same in a program. -/
theorem program_alike (h : Alike c c') (p : Program) :
    (program c p).findings = (program c' p).findings := by
  induction p generalizing c c' with
  | nil => rfl
  | cons d rest ih =>
    simp only [program, Report.findings_bind, value_decl, decl_alike h d, ih (h.behindDecl rfl)]

end Check

end ShaderLang
