import Mathlib
import ShaderLang.Proofs.Alike

/-!
# One mistake gives one finding

A program in which nothing is wrong is written with one name less: at one place, where a variable is
read or a function called, a name stands that is declared nowhere (`Program.Misnames`). The checker
then finds that name, and nothing else (`Program.findings_misnames`). The type of whatever contains
the name is what it was, or it is lost (`Ty.Fades`); every rule takes an operand whose type is lost.
-/

namespace ShaderLang

open Typing Check

/-! ## Another name at one place -/

/-- The second expression is the first one with another name at one place, where it is used in this
way. -/
inductive Expr.Misnames (x : Ident) : NameUse → Expr → Expr → Prop where
  | var {span : Span} {name : Ident} : Misnames x .asVariable (.var span name) (.var span x)
  | callee {span : Span} {name : Ident} {args : List Expr} :
    Misnames x .asFunction (.call span name args) (.call span x args)
  | left {use : NameUse} {span : Span} {op : BinaryOp} {l l' r : Expr} (h : Misnames x use l l') :
    Misnames x use (.binary span op l r) (.binary span op l' r)
  | right {use : NameUse} {span : Span} {op : BinaryOp} {l r r' : Expr} (h : Misnames x use r r') :
    Misnames x use (.binary span op l r) (.binary span op l r')
  | operand {use : NameUse} {span : Span} {op : UnaryOp} {e e' : Expr} (h : Misnames x use e e') :
    Misnames x use (.unary span op e) (.unary span op e')
  | target {use : NameUse} {span : Span} {op : AssignOp} {t t' v : Expr} (h : Misnames x use t t') :
    Misnames x use (.assign span op t v) (.assign span op t' v)
  | assigned {use : NameUse} {span : Span} {op : AssignOp} {t v v' : Expr}
      (h : Misnames x use v v') : Misnames x use (.assign span op t v) (.assign span op t v')
  | stepped {use : NameUse} {span : Span} {direction : Step} {e e' : Expr}
      (h : Misnames x use e e') :
    Misnames x use (.stepAfter span direction e) (.stepAfter span direction e')
  | test {use : NameUse} {span : Span} {e e' t f : Expr} (h : Misnames x use e e') :
    Misnames x use (.conditional span e t f) (.conditional span e' t f)
  | ifTrue {use : NameUse} {span : Span} {e t t' f : Expr} (h : Misnames x use t t') :
    Misnames x use (.conditional span e t f) (.conditional span e t' f)
  | ifFalse {use : NameUse} {span : Span} {e t f f' : Expr} (h : Misnames x use f f') :
    Misnames x use (.conditional span e t f) (.conditional span e t f')
  | indexed {use : NameUse} {span : Span} {e e' position : Expr} (h : Misnames x use e e') :
    Misnames x use (.index span e position) (.index span e' position)
  | position {use : NameUse} {span : Span} {base e e' : Expr} (h : Misnames x use e e') :
    Misnames x use (.index span base e) (.index span base e')
  | selected {use : NameUse} {span : Span} {e e' : Expr} {name : Ident} (h : Misnames x use e e') :
    Misnames x use (.field span e name) (.field span e' name)
  | argument {use : NameUse} {span : Span} {name : Ident} {before after : List Expr} {e e' : Expr}
      (h : Misnames x use e e') :
    Misnames x use (.call span name (before ++ e :: after)) (.call span name (before ++ e' :: after))
  | part {use : NameUse} {span : Span} {ty : Ty} {before after : List Expr} {e e' : Expr}
      (h : Misnames x use e e') :
    Misnames x use (.construct span ty (before ++ e :: after))
      (.construct span ty (before ++ e' :: after))

/-- The initializer of a variable has another name at one place. -/
inductive VarDecl.Misnames (x : Ident) (use : NameUse) : VarDecl → VarDecl → Prop where
  | init {v : VarDecl} {e e' : Expr} (hv : v.init = some e) (h : e.Misnames x use e') :
    Misnames x use v { v with init := some e' }

/-- What a `for` loop begins with has another name at one place. -/
inductive ForInit.Misnames (x : Ident) (use : NameUse) : ForInit → ForInit → Prop where
  | expr {e e' : Expr} (h : e.Misnames x use e') : Misnames x use (.expr e) (.expr e')
  | declare {v v' : VarDecl} (h : v.Misnames x use v') : Misnames x use (.declare v) (.declare v')

/-- A statement has another name at one place. -/
inductive Stmt.Misnames (x : Ident) (use : NameUse) : Stmt → Stmt → Prop where
  | expr {span : Span} {e e' : Expr} (h : e.Misnames x use e') :
    Misnames x use (.expr span e) (.expr span e')
  | declare {v v' : VarDecl} (h : v.Misnames x use v') : Misnames x use (.declare v) (.declare v')
  | block {span : Span} {before after : List Stmt} {s s' : Stmt} (h : Misnames x use s s') :
    Misnames x use (.block span (before ++ s :: after)) (.block span (before ++ s' :: after))
  | ifThenTest {span : Span} {e e' : Expr} {t : Stmt} (h : e.Misnames x use e') :
    Misnames x use (.ifThen span e t) (.ifThen span e' t)
  | ifThen {span : Span} {e : Expr} {t t' : Stmt} (h : Misnames x use t t') :
    Misnames x use (.ifThen span e t) (.ifThen span e t')
  | ifElseTest {span : Span} {e e' : Expr} {t f : Stmt} (h : e.Misnames x use e') :
    Misnames x use (.ifElse span e t f) (.ifElse span e' t f)
  | ifElseTrue {span : Span} {e : Expr} {t t' f : Stmt} (h : Misnames x use t t') :
    Misnames x use (.ifElse span e t f) (.ifElse span e t' f)
  | ifElseFalse {span : Span} {e : Expr} {t f f' : Stmt} (h : Misnames x use f f') :
    Misnames x use (.ifElse span e t f) (.ifElse span e t f')
  | whileTest {span : Span} {e e' : Expr} {body : Stmt} (h : e.Misnames x use e') :
    Misnames x use (.whileLoop span e body) (.whileLoop span e' body)
  | whileBody {span : Span} {e : Expr} {body body' : Stmt} (h : Misnames x use body body') :
    Misnames x use (.whileLoop span e body) (.whileLoop span e body')
  | forInit {span : Span} {i i' : ForInit} {test step : Option Expr} {body : Stmt}
      (h : i.Misnames x use i') :
    Misnames x use (.forLoop span (some i) test step body) (.forLoop span (some i') test step body)
  | forTest {span : Span} {init : Option ForInit} {e e' : Expr} {step : Option Expr} {body : Stmt}
      (h : e.Misnames x use e') :
    Misnames x use (.forLoop span init (some e) step body) (.forLoop span init (some e') step body)
  | forStep {span : Span} {init : Option ForInit} {test : Option Expr} {e e' : Expr} {body : Stmt}
      (h : e.Misnames x use e') :
    Misnames x use (.forLoop span init test (some e) body) (.forLoop span init test (some e') body)
  | forBody {span : Span} {init : Option ForInit} {test step : Option Expr} {body body' : Stmt}
      (h : Misnames x use body body') :
    Misnames x use (.forLoop span init test step body) (.forLoop span init test step body')
  | switchValue {span : Span} {e e' : Expr} {arms : List (Arm (List Stmt))}
      (h : e.Misnames x use e') : Misnames x use (.switch span e arms) (.switch span e' arms)
  | label {span labelSpan : Span} {value e e' : Expr} {body : List Stmt}
      {before after : List (Arm (List Stmt))} (h : e.Misnames x use e') :
    Misnames x use (.switch span value (before ++ ⟨some e, body, labelSpan⟩ :: after))
      (.switch span value (before ++ ⟨some e', body, labelSpan⟩ :: after))
  | arm {span armSpan : Span} {value : Expr} {label : Option Expr} {front back : List Stmt}
      {s s' : Stmt} {before after : List (Arm (List Stmt))} (h : Misnames x use s s') :
    Misnames x use (.switch span value (before ++ ⟨label, front ++ s :: back, armSpan⟩ :: after))
      (.switch span value (before ++ ⟨label, front ++ s' :: back, armSpan⟩ :: after))
  | returned {span : Span} {e e' : Expr} (h : e.Misnames x use e') :
    Misnames x use (.returnStmt span (some e)) (.returnStmt span (some e'))

/-- A declaration has another name at one place. -/
inductive Decl.Misnames (x : Ident) (use : NameUse) : Decl → Decl → Prop where
  | var {v v' : VarDecl} (h : v.Misnames x use v') : Misnames x use (.var v) (.var v')
  | formal {f : FnDecl} {before after : List VarDecl} {v v' : VarDecl}
      (hf : f.formals = before ++ v :: after) (h : v.Misnames x use v') :
    Misnames x use (.fn f) (.fn { f with formals := before ++ v' :: after })
  | body {f : FnDecl} {before after : List Stmt} {s s' : Stmt}
      (hf : f.body.stmts = before ++ s :: after) (h : s.Misnames x use s') :
    Misnames x use (.fn f) (.fn { f with body := ⟨before ++ s' :: after, f.body.span⟩ })

/-- A program has another name at one place. -/
inductive Program.Misnames (x : Ident) (use : NameUse) : Program → Program → Prop where
  | decl {before after : Program} {d d' : Decl} (h : d.Misnames x use d') :
    Misnames x use (before ++ d :: after) (before ++ d' :: after)

/-! ## Declared names -/

/-- The name that a `for` loop declares. -/
def ForInit.declaredNames : ForInit → List String
  | .expr _ => []
  | .declare v => [v.name.name]

mutual

/-- The names that a statement declares anywhere in it. -/
def Stmt.declaredNames : Stmt → List String
  | .expr .. | .empty _ | .breakStmt _ | .continueStmt _ | .returnStmt .. => []
  | .declare v => [v.name.name]
  | .block _ body => Stmt.allDeclaredNames body
  | .ifThen _ _ ifTrue => ifTrue.declaredNames
  | .ifElse _ _ ifTrue ifFalse => ifTrue.declaredNames ++ ifFalse.declaredNames
  | .whileLoop _ _ body => body.declaredNames
  | .forLoop _ init _ _ body => init.elim [] ForInit.declaredNames ++ body.declaredNames
  | .switch _ _ arms => Stmt.armDeclaredNames arms

/-- The names that statements declare anywhere in them. -/
def Stmt.allDeclaredNames : List Stmt → List String
  | [] => []
  | s :: rest => s.declaredNames ++ Stmt.allDeclaredNames rest

/-- The names that the arms of a `switch` declare anywhere in them. -/
def Stmt.armDeclaredNames : List (Arm (List Stmt)) → List String
  | [] => []
  | ⟨_, body, _⟩ :: rest => Stmt.allDeclaredNames body ++ Stmt.armDeclaredNames rest

end

/-- The names that a declaration and all in it declares. -/
def Decl.declaredNames : Decl → List String
  | .var v => [v.name.name]
  | .fn f => f.name.name :: f.formals.map (·.name.name) ++ Stmt.allDeclaredNames f.body.stmts

/-- The names that a program declares anywhere in it. -/
def Program.declaredNames (p : Program) : List String :=
  p.flatMap Decl.declaredNames

/-! ## Lost types -/

/-- A type is what it was, or it is lost. -/
def Ty.Fades (t' t : Ty) : Prop :=
  t' = .error ∨ t' = t

theorem Ty.Fades.refl (t : Ty) : t.Fades t :=
  .inr rfl

theorem Ty.Fades.error (t : Ty) : Ty.Fades .error t :=
  .inl rfl

namespace Typing

variable {t t' u u' r : Ty}

theorem binary?_fades {op : BinaryOp} (ht : t'.Fades t) (hu : u'.Fades u)
    (h : binary? op t u = some r) : ∃ r', binary? op t' u' = some r' ∧ r'.Fades r := by
  cases op with
  | arith op =>
    rcases ht with rfl | rfl
    · exact ⟨.error, by simp [binary?, Ty.arithmeticResult?], .error r⟩
    · rcases hu with rfl | rfl
      · exact ⟨.error, by simp [binary?, Ty.arithmeticResult?], .error r⟩
      · exact ⟨r, h, .refl r⟩
  | compare op =>
    rcases ht with rfl | rfl
    · exact ⟨.error, by simp [binary?, comparison?], .error r⟩
    · rcases hu with rfl | rfl
      · exact ⟨.error, by simp [binary?, comparison?], .error r⟩
      · exact ⟨r, h, .refl r⟩
  | logic op =>
    -- A logical operation is a truth value even if its operands have no type.
    have hbool : ∀ {t t' : Ty}, t'.Fades t → (t == .bool || t == .error) = true →
        (t' == .bool || t' == .error) = true := by
      rintro t _ (rfl | rfl) h
      · rfl
      · exact h
    simp only [binary?] at h ⊢
    split at h
    · next hboth =>
      obtain ⟨hl, hr⟩ := Bool.and_eq_true_iff.mp hboth
      rw [hbool ht hl, hbool hu hr]
      exact ⟨.bool, rfl, Option.some.inj h ▸ .refl _⟩
    · cases h

theorem arithmeticOperand?_fades (ht : t'.Fades t) (h : arithmeticOperand? t = some r) :
    ∃ r', arithmeticOperand? t' = some r' ∧ r'.Fades r := by
  rcases ht with rfl | rfl
  · exact ⟨.error, rfl, .error r⟩
  · exact ⟨r, h, .refl r⟩

theorem unary?_fades {op : UnaryOp} (ht : t'.Fades t) (h : unary? op t = some r) :
    ∃ r', unary? op t' = some r' ∧ r'.Fades r := by
  rcases ht with rfl | rfl
  · exact ⟨.error, by cases op <;> rfl, .error r⟩
  · exact ⟨r, h, .refl r⟩

theorem assign?_fades {op : AssignOp} (ht : t'.Fades t) (hu : u'.Fades u)
    (h : assign? op t u = some r) : ∃ r', assign? op t' u' = some r' ∧ r'.Fades r := by
  have hlost : ∀ {t u : Ty}, t = .error ∨ u = .error → assign? op t u = some .error := by
    intro t u hlost
    cases op with
    | plain => rcases hlost with rfl | rfl <;> simp [assign?]
    | compound op => rcases hlost with rfl | rfl <;> simp [assign?, Ty.arithmeticResult?]
  rcases ht with rfl | rfl
  · exact ⟨.error, hlost (.inl rfl), .error r⟩
  · rcases hu with rfl | rfl
    · exact ⟨.error, hlost (.inr rfl), .error r⟩
    · exact ⟨r, h, .refl r⟩

theorem common?_fades (ht : t'.Fades t) (hu : u'.Fades u) (h : t.common? u = some r) :
    ∃ r', t'.common? u' = some r' ∧ r'.Fades r := by
  rcases ht with rfl | rfl
  · exact ⟨.error, Ty.common?_eq_error (.inl rfl), .error r⟩
  · rcases hu with rfl | rfl
    · exact ⟨.error, Ty.common?_eq_error (.inr rfl), .error r⟩
    · exact ⟨r, h, .refl r⟩

theorem index?_error (base : Expr) : index? base .error = some .error := by
  cases base <;> rfl

theorem constructibleFrom_fades {target : Ty} {before after : List Ty} (ht : t'.Fades t)
    (h : target.constructibleFrom (before ++ t :: after) = true) :
    target.constructibleFrom (before ++ t' :: after) = true := by
  rcases ht with rfl | rfl
  · simp [Ty.constructibleFrom]
  · exact h

theorem convertsTo_fades (ht : t'.Fades t) (h : t.convertsTo u = true) : t'.convertsTo u = true := by
  rcases ht with rfl | rfl
  · simp
  · exact h

theorem eq_or_error_of_fades (ht : t'.Fades t) (h : t = u ∨ t = .error) : t' = u ∨ t' = .error := by
  rcases ht with rfl | rfl
  · exact .inr rfl
  · exact h

end Typing

theorem Check.arguments_fades {formals : List VarDecl} {before after : List Ty} {spans : List Span}
    {t t' : Ty} {index : Nat} (ht : t'.Fades t)
    (h : arguments index formals (before ++ t :: after) spans = []) :
    arguments index formals (before ++ t' :: after) spans = [] := by
  induction before generalizing index formals spans with
  | nil =>
    cases formals with
    | nil => rfl
    | cons v formals =>
      cases spans with
      | nil => rfl
      | cons span spans =>
        rw [List.nil_append, arguments, List.append_eq_nil_iff] at h ⊢
        have hconverts : t.convertsTo v.ty = true := by simpa using h.1
        exact ⟨if_pos (convertsTo_fades ht hconverts), h.2⟩
  | cons u before ih =>
    cases formals with
    | nil => rfl
    | cons v formals =>
      cases spans with
      | nil => rfl
      | cons span spans =>
        rw [List.cons_append, arguments, List.append_eq_nil_iff] at h ⊢
        exact ⟨h.1, ih h.2⟩

/-! ## Expressions -/

/-- The finding on a name that is not declared. -/
def misnaming (x : Ident) (use : NameUse) : Finding :=
  ⟨.notDeclared x.name use, x.span⟩

namespace Check

variable {c : SymbolTable}

theorem findings_exprs (es : List Expr) :
    (exprs c es).findings = es.flatMap fun e => (expr c e).findings := by
  induction es with
  | nil => simp [exprs]
  | cons e rest ih => simp [exprs, ih]

theorem allClean_append {before after : List Expr} {e : Expr} :
    AllClean c (before ++ e :: after) ↔ AllClean c before ∧ Clean c e ∧ AllClean c after := by
  simp [AllClean, Clean, findings_exprs]

theorem findings_call {callee : Ident} {f : FnDecl} {actuals : List Ty} {spans : List Span}
    (hf : function? c callee.name = some f) (hlength : f.formals.length = actuals.length)
    (harguments : arguments 0 f.formals actuals spans = []) :
    (call c callee actuals spans).findings = [] := by
  obtain ⟨s, hs, hfn⟩ := Option.bind_eq_some_iff.mp hf
  simp [call, hs, hfn, hlength, harguments, Report.noteIf]

theorem findings_exprs_append {before after : List Expr} {e : Expr} (hb : AllClean c before)
    (ha : AllClean c after) : (exprs c (before ++ e :: after)).findings = (expr c e).findings := by
  rw [AllClean, findings_exprs] at hb ha
  rw [findings_exprs, List.flatMap_append, hb, List.flatMap_cons, ha]
  simp

end Check

namespace Expr.Misnames

variable {c : SymbolTable} {x : Ident} {use : NameUse} {e e' : Expr}

theorem span_eq (h : e.Misnames x use e') : e'.span = e.span := by
  cases h <;> rfl

theorem isConstant_eq_false (h : e.Misnames x use e') : e.isConstant = false := by
  induction h with
  | operand h ih =>
    rename_i op _ _
    cases op <;> first | rfl | exact ih
  | part h ih => simp [Expr.isConstant, ih]
  | _ => rfl

theorem constInt?_eq_none (h : e.Misnames x use e') : e.constInt? = none := by
  induction h with
  | operand h ih =>
    rename_i op _ _
    cases op <;> simp [Expr.constInt?, ih]
  | _ => rfl

theorem index?_eq (h : e.Misnames x use e') (t : Ty) : index? e' t = index? e t := by
  cases h <;> rfl

/-- The variable at the root is the same one, or it is the one that is not declared. -/
theorem rootVariable? (h : e.Misnames x use e') {root : Ident} (hroot : rootVariable? e = some root) :
    Check.rootVariable? e' = some root ∨ Check.rootVariable? e' = some x := by
  induction h with
  | var => exact .inr rfl
  | indexed _ ih | selected _ ih => exact ih hroot
  | position _ _ => exact .inl hroot
  | _ => cases hroot

variable (hx : c.lookup? x.name = none)

include hx

theorem writable (h : e.Misnames x use e') (hw : Writable c e) : Writable c e' := by
  obtain ⟨root, hroot, hconst⟩ := hw
  rcases h.rootVariable? hroot with hroot' | hroot'
  · exact ⟨root, hroot', hconst⟩
  · exact ⟨x, hroot', by simp [hx]⟩

theorem place_eq_nil (h : e.Misnames x use e') (hw : Writable c e) (op : String) :
    (place c e' op).findings = [] :=
  findings_place_eq_nil.mpr (h.writable hx hw)

/-- The one finding is on the name, and the type of the expression is what it was, or it is lost. -/
theorem finds (h : e.Misnames x use e') (hc : Clean c e) :
    (expr c e').findings = [misnaming x use] ∧ (typeOf c e').Fades (typeOf c e) := by
  induction h with
  | var =>
    refine ⟨?_, ?_⟩
    · simp [expr, variableTy?, hx, Report.orNote, misnaming]
    · simp [typeOf, variableTy?, hx, Ty.Fades]
  | callee =>
    obtain ⟨hargs, -⟩ := clean_call hc
    refine ⟨?_, ?_⟩
    · rw [expr, Report.findings_bind, hargs, Check.call, hx]
      rfl
    · simp [typeOf, function?, hx, Ty.Fades]
  | left h ih =>
    obtain ⟨hl, hr, hsome⟩ := clean_binary.mp hc
    obtain ⟨t, ht⟩ := Option.isSome_iff_exists.mp hsome
    obtain ⟨hfinds, hfades⟩ := ih hl
    obtain ⟨t', ht', hfades'⟩ := binary?_fades hfades (.refl _) ht
    refine ⟨?_, by simpa [typeOf, ht, ht'] using hfades'⟩
    rw [Clean] at hr
    simp [expr, value_expr, hfinds, hr, ht', Report.orNote]
  | right h ih =>
    obtain ⟨hl, hr, hsome⟩ := clean_binary.mp hc
    obtain ⟨t, ht⟩ := Option.isSome_iff_exists.mp hsome
    obtain ⟨hfinds, hfades⟩ := ih hr
    obtain ⟨t', ht', hfades'⟩ := binary?_fades (.refl _) hfades ht
    refine ⟨?_, by simpa [typeOf, ht, ht'] using hfades'⟩
    rw [Clean] at hl
    simp [expr, value_expr, hfinds, hl, ht', Report.orNote]
  | operand h ih =>
    rename_i op _ _
    obtain ⟨ho, hw, hsome⟩ := clean_unary.mp hc
    obtain ⟨t, ht⟩ := Option.isSome_iff_exists.mp hsome
    obtain ⟨hfinds, hfades⟩ := ih ho
    obtain ⟨t', ht', hfades'⟩ := unary?_fades hfades ht
    refine ⟨?_, by simpa [typeOf, ht, ht'] using hfades'⟩
    cases op with
    | step d => simp [expr, value_expr, hfinds, ht', Report.orNote, h.place_eq_nil hx (hw d rfl)]
    | _ => simp [expr, value_expr, hfinds, ht', Report.orNote]
  | target h ih =>
    obtain ⟨htc, hvc, hw, hsome⟩ := clean_assign.mp hc
    have hknown := isUnknownVariable_of_clean htc
    obtain ⟨t, ht⟩ := Option.isSome_iff_exists.mp (hsome hknown)
    obtain ⟨hfinds, hfades⟩ := ih htc
    obtain ⟨t', ht', hfades'⟩ := assign?_fades hfades (.refl _) ht
    rw [Clean] at hvc
    refine ⟨?_, ?_⟩
    · simp only [expr, Report.findings_bind, value_expr, hfinds, hvc, h.place_eq_nil hx hw, ht']
      split <;> rfl
    · simp only [typeOf, hknown, ht, ht']
      split
      · exact .error _
      · simpa using hfades'
  | assigned h ih =>
    obtain ⟨htc, hvc, hw, hsome⟩ := clean_assign.mp hc
    have hknown := isUnknownVariable_of_clean htc
    obtain ⟨t, ht⟩ := Option.isSome_iff_exists.mp (hsome hknown)
    obtain ⟨hfinds, hfades⟩ := ih hvc
    obtain ⟨t', ht', hfades'⟩ := assign?_fades (.refl _) hfades ht
    refine ⟨?_, by simpa [typeOf, hknown, ht, ht'] using hfades'⟩
    rw [Clean] at htc
    simp [expr, value_expr, hfinds, htc, hknown, ht', Report.orNote, findings_place_eq_nil.mpr hw]
  | stepped h ih =>
    obtain ⟨ho, hw, hsome⟩ := clean_stepAfter.mp hc
    obtain ⟨t, ht⟩ := Option.isSome_iff_exists.mp hsome
    obtain ⟨hfinds, hfades⟩ := ih ho
    obtain ⟨t', ht', hfades'⟩ := arithmeticOperand?_fades hfades ht
    refine ⟨?_, by simpa [typeOf, ht, ht'] using hfades'⟩
    simp [expr, value_expr, hfinds, ht', Report.orNote, h.place_eq_nil hx hw]
  | test h ih =>
    obtain ⟨hec, hety, htc, hfc, hsome⟩ := clean_conditional.mp hc
    obtain ⟨t, ht⟩ := Option.isSome_iff_exists.mp hsome
    obtain ⟨hfinds, hfades⟩ := ih hec
    have hety' := eq_or_error_of_fades hfades hety
    refine ⟨?_, by simpa [typeOf, ht] using Ty.Fades.refl t⟩
    rw [Clean] at htc hfc
    simp only [expr, testTy, Report.findings_bind, value_expr, hfinds, htc, hfc, ht]
    rcases hety' with hety' | hety' <;> simp [hety', Report.noteIf, Report.orNote]
  | ifTrue h ih =>
    obtain ⟨hec, hety, htc, hfc, hsome⟩ := clean_conditional.mp hc
    obtain ⟨t, ht⟩ := Option.isSome_iff_exists.mp hsome
    obtain ⟨hfinds, hfades⟩ := ih htc
    obtain ⟨t', ht', hfades'⟩ := common?_fades hfades (.refl _) ht
    refine ⟨?_, by simpa [typeOf, ht, ht'] using hfades'⟩
    rw [Clean] at hec hfc
    simp only [expr, testTy, Report.findings_bind, value_expr, hfinds, hec, hfc, ht']
    rcases hety with hety | hety <;> simp [hety, Report.noteIf, Report.orNote]
  | ifFalse h ih =>
    obtain ⟨hec, hety, htc, hfc, hsome⟩ := clean_conditional.mp hc
    obtain ⟨t, ht⟩ := Option.isSome_iff_exists.mp hsome
    obtain ⟨hfinds, hfades⟩ := ih hfc
    obtain ⟨t', ht', hfades'⟩ := common?_fades (.refl _) hfades ht
    refine ⟨?_, by simpa [typeOf, ht, ht'] using hfades'⟩
    rw [Clean] at hec htc
    simp only [expr, testTy, Report.findings_bind, value_expr, hfinds, hec, htc, ht']
    rcases hety with hety | hety <;> simp [hety, Report.noteIf, Report.orNote]
  | @indexed _ _ e e' _ h ih =>
    obtain ⟨hbc, hpc, hpty, hsome⟩ := clean_index.mp hc
    obtain ⟨t, ht⟩ := Option.isSome_iff_exists.mp hsome
    obtain ⟨hfinds, hfades⟩ := ih hbc
    obtain ⟨t', ht', hfades'⟩ : ∃ t', index? e' (typeOf c e') = some t' ∧ t'.Fades t := by
      rcases hfades with hlost | hsame
      · rw [hlost]
        exact ⟨.error, index?_error e', .error t⟩
      · rw [hsame, h.index?_eq]
        exact ⟨t, ht, .refl t⟩
    refine ⟨?_, by simpa [typeOf, ht, ht'] using hfades'⟩
    rw [Clean] at hpc
    simp only [expr, Report.findings_bind, value_expr, hfinds, hpc, ht']
    rcases hpty with hpty | hpty <;> simp [hpty, Report.noteIf, Report.orNote]
  | position h ih =>
    obtain ⟨hbc, hpc, hpty, hsome⟩ := clean_index.mp hc
    obtain ⟨t, ht⟩ := Option.isSome_iff_exists.mp hsome
    obtain ⟨hfinds, hfades⟩ := ih hpc
    have hpty' := eq_or_error_of_fades hfades hpty
    refine ⟨?_, by simpa [typeOf, ht] using Ty.Fades.refl t⟩
    rw [Clean] at hbc
    simp only [expr, Report.findings_bind, value_expr, hfinds, hbc, ht]
    rcases hpty' with hpty' | hpty' <;> simp [hpty', Report.noteIf, Report.orNote]
  | selected h ih =>
    obtain ⟨hbc, hissues⟩ := clean_field.mp hc
    obtain ⟨hfinds, hfades⟩ := ih hbc
    rcases hfades with hlost | hsame
    · refine ⟨?_, .inl (by simp [typeOf, hlost, Swizzle.ty])⟩
      simp [expr, value_expr, hfinds, hlost, Swizzle.issues]
    · refine ⟨?_, .inr (by simp [typeOf, hsame])⟩
      simp [expr, value_expr, hfinds, hsame, hissues]
  | argument h ih =>
    obtain ⟨hargs, f, hf, hlength, harguments⟩ := clean_call hc
    obtain ⟨hbefore, hec, hafter⟩ := allClean_append.mp hargs
    obtain ⟨hfinds, hfades⟩ := ih hec
    refine ⟨?_, by simp [typeOf, hf, Ty.Fades]⟩
    rw [typesOf_eq_map, List.map_append, List.map_cons] at harguments
    have harguments' := arguments_fades hfades harguments
    rw [expr, Report.findings_bind, findings_exprs_append hbefore hafter, hfinds, value_exprs,
      findings_call hf (by simpa using hlength)]
    · rfl
    · simpa [h.span_eq] using harguments'
  | part h ih =>
    obtain ⟨hargs, hcon⟩ := clean_construct.mp hc
    obtain ⟨hbefore, hec, hafter⟩ := allClean_append.mp hargs
    obtain ⟨hfinds, hfades⟩ := ih hec
    rw [typesOf_eq_map, List.map_append, List.map_cons] at hcon
    have hcon' := constructibleFrom_fades hfades hcon
    refine ⟨?_, ?_⟩
    · rw [expr, Report.findings_bind, findings_exprs_append hbefore hafter, hfinds, value_exprs]
      simp [construct?, hcon', Report.orNote]
    · simp [typeOf, construct?, hcon, hcon', Ty.Fades]

end Expr.Misnames

/-! ## Statements -/

/-- The table does not know a name, and declaring others does not change that. -/
theorem lookup?_declare_eq_none {c : SymbolTable} {name : String} (symbol : Symbol)
    (hx : c.lookup? name = none) (hne : name ≠ symbol.name) :
    (c.declare symbol).lookup? name = none := by
  rw [SymbolTable.lookup?_declare, if_neg hne.symm, hx]

theorem lookup?_declareVars_eq_none {c : SymbolTable} {vs : List VarDecl} {name : String}
    (hx : c.lookup? name = none) (hnew : name ∉ vs.map (·.name.name)) :
    (c.declareVars vs).lookup? name = none := by
  induction vs generalizing c with
  | nil => exact hx
  | cons v rest ih =>
    obtain ⟨hne, hnew'⟩ : name ≠ v.name.name ∧ name ∉ rest.map (·.name.name) := by
      simpa [not_or] using hnew
    exact ih (lookup?_declare_eq_none _ hx hne) hnew'

theorem lookup?_behind_eq_none {c : SymbolTable} {s : Stmt} {name : String}
    (hx : c.lookup? name = none) (hnew : name ∉ s.declaredNames) :
    (c.behind s).lookup? name = none := by
  cases s with
  | declare v =>
    have hne : name ≠ v.name.name := by simpa [Stmt.declaredNames] using hnew
    exact lookup?_declare_eq_none _ hx hne
  | _ => exact hx

theorem lookup?_behindInit_eq_none {c : SymbolTable} {init : Option ForInit} {name : String}
    (hx : c.lookup? name = none) (hnew : name ∉ init.elim [] ForInit.declaredNames) :
    (c.behindInit init).lookup? name = none := by
  match init with
  | none | some (.expr e) => exact hx
  | some (.declare v) =>
    have hne : name ≠ v.name.name := by simpa [ForInit.declaredNames] using hnew
    exact lookup?_declare_eq_none _ hx hne

namespace VarDecl.Misnames

variable {c : SymbolTable} {x : Ident} {use : NameUse} {v v' : VarDecl}

theorem head_eq (h : v.Misnames x use v') : v.head = v'.head := by
  cases h
  rfl

theorem finds (h : v.Misnames x use v') (hx : c.lookup? x.name = none)
    (hc : (varDecl c v).findings = []) : (varDecl c v').findings = [misnaming x use] := by
  cases h with
  | @init e e' hv h =>
    simp only [varDecl, hv, initializer, Report.findings_bind, List.append_eq_nil_iff, value_expr,
      h.isConstant_eq_false, Bool.not_false, Bool.and_true] at hc
    obtain ⟨hvoid, ⟨hclean, hrest⟩, hdeclare⟩ := hc
    obtain ⟨hfinds, hfades⟩ := h.finds hx hclean
    have hsame := declareVar_alike (.refl c) (VarDecl.Misnames.init hv h).head_eq
    split at hrest
    · simp [Report.note] at hrest
    · next hglobal =>
      have hconverts := convertsTo_fades hfades (by simpa using hrest)
      simp only [varDecl, initializer, Report.findings_bind, value_expr, hvoid, hfinds, ← hsame,
        hdeclare]
      simp [hglobal, hconverts, Report.noteIf]

end VarDecl.Misnames

namespace ForInit.Misnames

variable {c : SymbolTable} {x : Ident} {use : NameUse} {i i' : ForInit}

theorem finds (h : i.Misnames x use i') (hx : c.lookup? x.name = none)
    (hc : (forInit c (some i)).findings = []) :
    (forInit c (some i')).findings = [misnaming x use] := by
  cases h with
  | expr h =>
    simp only [Check.forInit, Check.discard, Report.findings_bind, Report.findings_pure,
      List.append_nil] at hc ⊢
    exact (h.finds hx hc).1
  | declare h => exact h.finds hx hc

theorem behindInit_alike (h : i.Misnames x use i') :
    Alike (c.behindInit (some i)) (c.behindInit (some i')) := by
  cases h with
  | expr h => exact .refl c
  | declare h => exact (Alike.refl c).declareVar h.head_eq

end ForInit.Misnames

namespace Check

variable {c : SymbolTable} {x : Ident} {use : NameUse} {e e' : Expr}

theorem test_misnamed (h : e.Misnames x use e') (hx : c.lookup? x.name = none)
    (hc : (test c e).findings = []) : (test c e').findings = [misnaming x use] := by
  obtain ⟨hclean, hty⟩ := findings_test_eq_nil.mp hc
  obtain ⟨hfinds, hfades⟩ := h.finds hx hclean
  rw [test, Report.findings_bind, hfinds, value_expr]
  rcases eq_or_error_of_fades hfades hty with hty' | hty' <;> simp [hty', testTy, Report.noteIf]

theorem discard_misnamed (h : e.Misnames x use e') (hx : c.lookup? x.name = none)
    (hc : (discard c e).findings = []) : (discard c e').findings = [misnaming x use] := by
  simp only [discard, Report.findings_bind, Report.findings_pure, List.append_nil] at hc ⊢
  exact (h.finds hx hc).1

/-- What the checker finds wrong with labels does not depend on what stands behind them. -/
theorem labels_body {Body : Type} (seen : List Int64) (hasDefault : Bool)
    (before after : List (Arm Body)) (label : Option Expr) (body body' : Body) (span : Span) :
    labels c seen hasDefault (before ++ ⟨label, body, span⟩ :: after) =
      labels c seen hasDefault (before ++ ⟨label, body', span⟩ :: after) := by
  induction before generalizing seen hasDefault with
  | nil => rfl
  | cons arm rest ih => simp only [List.cons_append, labels, ih]

theorem findings_armBodies {context : Context} (arms : List (Arm (List Stmt))) :
    (armBodies context c arms).findings =
      arms.flatMap fun arm => (stmts context c.push arm.body).findings := by
  induction arms with
  | nil => simp [armBodies]
  | cons arm rest ih => simp [armBodies, ih]

/-- Among statements, the one that finds something is found out, and the others are as clean as they
were. -/
theorem stmts_misnamed {context : Context} {before after : List Stmt} {s s' : Stmt}
    {found : List Finding} (halike : ∀ c : SymbolTable, Alike (c.behind s) (c.behind s'))
    (hs : ∀ c, c.lookup? x.name = none → CleanStmt context c s →
      (stmt context c s').findings = found)
    (hx : c.lookup? x.name = none) (hnew : x.name ∉ Stmt.allDeclaredNames before)
    (hc : CleanStmts context c (before ++ s :: after)) :
    (stmts context c (before ++ s' :: after)).findings = found := by
  induction before generalizing c with
  | nil =>
    obtain ⟨hcs, hcrest⟩ := cleanStmts_cons.mp hc
    rw [CleanStmts, stmts_alike (halike c)] at hcrest
    rw [List.nil_append, stmts, Report.findings_bind, value_stmt, hs c hx hcs, hcrest,
      List.append_nil]
  | cons t before ih =>
    obtain ⟨hct, hcrest⟩ := cleanStmts_cons.mp hc
    rw [Stmt.allDeclaredNames, List.mem_append, not_or] at hnew
    rw [List.cons_append, stmts, Report.findings_bind, value_stmt, hct,
      ih (lookup?_behind_eq_none hx hnew.1) hnew.2 hcrest, List.nil_append]

end Check

theorem Stmt.allDeclaredNames_append (before after : List Stmt) :
    Stmt.allDeclaredNames (before ++ after) =
      Stmt.allDeclaredNames before ++ Stmt.allDeclaredNames after := by
  induction before with
  | nil => rfl
  | cons s rest ih => simp [Stmt.allDeclaredNames, ih]

theorem Stmt.armDeclaredNames_append (before after : List (Arm (List Stmt))) :
    Stmt.armDeclaredNames (before ++ after) =
      Stmt.armDeclaredNames before ++ Stmt.armDeclaredNames after := by
  induction before with
  | nil => rfl
  | cons arm rest ih => simp [Stmt.armDeclaredNames, ih]

namespace Stmt.Misnames

variable {c : SymbolTable} {x : Ident} {use : NameUse} {s s' : Stmt}

theorem behind_alike (h : s.Misnames x use s') (c : SymbolTable) :
    Alike (c.behind s) (c.behind s') := by
  cases h with
  | declare h => exact (Alike.refl c).declareVar h.head_eq
  | _ => exact .refl c

/-- The one finding is on the name. -/
theorem finds (h : s.Misnames x use s') {context : Check.Context} (hx : c.lookup? x.name = none)
    (hnew : x.name ∉ s.declaredNames) (hc : CleanStmt context c s) :
    (stmt context c s').findings = [misnaming x use] := by
  induction h generalizing c context with
  | expr h =>
    simp only [CleanStmt, stmt, Report.findings_bind, Report.findings_pure, List.append_nil] at hc ⊢
    exact discard_misnamed h hx hc
  | declare h => exact h.finds hx hc
  | block h ih =>
    rw [Stmt.declaredNames, Stmt.allDeclaredNames_append, Stmt.allDeclaredNames] at hnew
    simp only [List.mem_append, not_or] at hnew
    obtain ⟨hbefore, hs, -⟩ := hnew
    have hfinds := stmts_misnamed h.behind_alike (fun c hx hc => ih hx hs hc) (c := c.push)
      (by simpa using hx) hbefore (cleanStmt_block.mp hc)
    simp only [stmt, Report.findings_bind, Report.findings_pure, List.append_nil, hfinds]
  | ifThenTest h =>
    simp only [CleanStmt, stmt, Report.findings_bind, Report.findings_pure, List.append_nil,
      List.append_eq_nil_iff] at hc ⊢
    rw [test_misnamed h hx hc.1, hc.2, List.append_nil]
  | ifThen h ih =>
    simp only [CleanStmt, stmt, Report.findings_bind, Report.findings_pure, List.append_nil,
      List.append_eq_nil_iff] at hc ⊢
    rw [hc.1, ih (by simpa using hx) hnew hc.2, List.nil_append]
  | ifElseTest h =>
    simp only [CleanStmt, stmt, Report.findings_bind, Report.findings_pure, List.append_nil,
      List.append_eq_nil_iff] at hc ⊢
    rw [test_misnamed h hx hc.1, hc.2.1, hc.2.2]
    rfl
  | ifElseTrue h ih =>
    simp only [Stmt.declaredNames, List.mem_append, not_or] at hnew
    simp only [CleanStmt, stmt, Report.findings_bind, Report.findings_pure, List.append_nil,
      List.append_eq_nil_iff] at hc ⊢
    rw [hc.1, ih (by simpa using hx) hnew.1 hc.2.1, hc.2.2]
    rfl
  | ifElseFalse h ih =>
    simp only [Stmt.declaredNames, List.mem_append, not_or] at hnew
    simp only [CleanStmt, stmt, Report.findings_bind, Report.findings_pure, List.append_nil,
      List.append_eq_nil_iff] at hc ⊢
    rw [hc.1, hc.2.1, ih (by simpa using hx) hnew.2 hc.2.2]
    rfl
  | whileTest h =>
    simp only [CleanStmt, stmt, Report.findings_bind, Report.findings_pure, List.append_nil,
      List.append_eq_nil_iff] at hc ⊢
    rw [test_misnamed h hx hc.1, hc.2, List.append_nil]
  | whileBody h ih =>
    simp only [CleanStmt, stmt, Report.findings_bind, Report.findings_pure, List.append_nil,
      List.append_eq_nil_iff] at hc ⊢
    rw [hc.1, ih (by simpa using hx) hnew hc.2, List.nil_append]
  | forInit h =>
    simp only [CleanStmt, stmt, Report.findings_bind, Report.findings_pure, List.append_nil,
      List.append_eq_nil_iff, value_forInit] at hc ⊢
    obtain ⟨hinit, htest, hstep, hbody⟩ := hc
    have halike := h.behindInit_alike (c := c.push)
    rw [h.finds (by simpa using hx) hinit, ← optional_alike (test_alike halike), htest,
      ← optional_alike (discard_alike halike), hstep, ← stmt_alike halike.push, hbody]
    rfl
  | forTest h =>
    simp only [Stmt.declaredNames, List.mem_append, not_or] at hnew
    simp only [CleanStmt, stmt, Report.findings_bind, Report.findings_pure, List.append_nil,
      List.append_eq_nil_iff, value_forInit, Check.optional] at hc ⊢
    obtain ⟨hinit, htest, hstep, hbody⟩ := hc
    have hx' := lookup?_behindInit_eq_none (c := c.push) (by simpa using hx) hnew.1
    rw [hinit, test_misnamed h hx' htest, hstep, hbody]
    rfl
  | forStep h =>
    simp only [Stmt.declaredNames, List.mem_append, not_or] at hnew
    simp only [CleanStmt, stmt, Report.findings_bind, Report.findings_pure, List.append_nil,
      List.append_eq_nil_iff, value_forInit, Check.optional] at hc ⊢
    obtain ⟨hinit, htest, hstep, hbody⟩ := hc
    have hx' := lookup?_behindInit_eq_none (c := c.push) (by simpa using hx) hnew.1
    rw [hinit, htest, discard_misnamed h hx' hstep, hbody]
    rfl
  | forBody h ih =>
    simp only [Stmt.declaredNames, List.mem_append, not_or] at hnew
    simp only [CleanStmt, stmt, Report.findings_bind, Report.findings_pure, List.append_nil,
      List.append_eq_nil_iff, value_forInit] at hc ⊢
    obtain ⟨hinit, htest, hstep, hbody⟩ := hc
    have hx' := lookup?_behindInit_eq_none (c := c.push) (by simpa using hx) hnew.1
    rw [hinit, htest, hstep, ih (by simpa using hx') hnew.2 hbody]
    rfl
  | switchValue h =>
    obtain ⟨hvalue, hty, hlabels, harms⟩ := cleanStmt_switch hc
    obtain ⟨hfinds, hfades⟩ := h.finds hx hvalue
    rw [CleanArms] at harms
    simp only [stmt, Report.findings_bind, Report.findings_pure, List.append_nil, value_expr, hfinds,
      hlabels, harms]
    rcases eq_or_error_of_fades hfades hty with hty' | hty' <;> simp [hty', Report.noteIf]
  | @label _ labelSpan _ e e' body before after h =>
    -- What is misnamed is no constant, so it was no label.
    obtain ⟨-, -, hlabels, -⟩ := cleanStmt_switch hc
    have hsome := constInt?_of_labels hlabels ⟨some e, body, labelSpan⟩ (by simp) e rfl
    simp [h.constInt?_eq_none] at hsome
  | @arm _ armSpan _ label front back s s' before after h ih =>
    obtain ⟨hvalue, hty, hlabels, harms⟩ := cleanStmt_switch hc
    simp only [Stmt.declaredNames, Stmt.armDeclaredNames_append, Stmt.armDeclaredNames,
      Stmt.allDeclaredNames_append, Stmt.allDeclaredNames, List.mem_append, not_or] at hnew
    obtain ⟨-, ⟨hfront, hs, -⟩, -⟩ := hnew
    rw [CleanArms, findings_armBodies, List.flatMap_append, List.flatMap_cons,
      List.append_eq_nil_iff, List.append_eq_nil_iff] at harms
    obtain ⟨hbefore, hbody, hafter⟩ := harms
    have hfinds := stmts_misnamed h.behind_alike (fun c hx hc => ih hx hs hc) (c := c.push)
      (by simpa using hx) hfront hbody
    rw [labels_body _ _ _ _ _ _ (front ++ s' :: back)] at hlabels
    rw [Clean] at hvalue
    simp only [stmt, Report.findings_bind, Report.findings_pure, List.append_nil, value_expr, hvalue,
      hlabels, findings_armBodies, List.flatMap_append, List.flatMap_cons, hbefore, hafter, hfinds]
    rcases hty with hty | hty <;> simp [hty, Report.noteIf]
  | returned h =>
    obtain ⟨hclean, hconverts⟩ := cleanStmt_returnStmt hc
    obtain ⟨hfinds, hfades⟩ := h.finds hx (hclean _ rfl)
    have hconverts' := convertsTo_fades hfades hconverts
    simp [stmt, value_expr, hfinds, hconverts', Report.noteIf]

end Stmt.Misnames

/-! ## Programs -/

namespace Check

variable {c : SymbolTable} {x : Ident} {use : NameUse}

/-- Among declarations of variables, the one that finds something is found out. -/
theorem varDecls_misnamed {before after : List VarDecl} {v v' : VarDecl}
    (h : v.Misnames x use v') (hx : c.lookup? x.name = none)
    (hnew : x.name ∉ before.map (·.name.name))
    (hc : (varDecls c (before ++ v :: after)).findings = []) :
    (varDecls c (before ++ v' :: after)).findings = [misnaming x use] := by
  induction before generalizing c with
  | nil =>
    simp only [List.nil_append, varDecls, Report.findings_bind, value_varDecl,
      List.append_eq_nil_iff] at hc ⊢
    have halike := (Alike.refl c).declareVar h.head_eq
    rw [h.finds hx hc.1, ← varDecls_alike halike, hc.2, List.append_nil]
  | cons w before ih =>
    obtain ⟨hne, hnew'⟩ : x.name ≠ w.name.name ∧ x.name ∉ before.map (·.name.name) := by
      simpa [not_or] using hnew
    simp only [List.cons_append, varDecls, Report.findings_bind, value_varDecl,
      List.append_eq_nil_iff] at hc ⊢
    have hx' := lookup?_declare_eq_none (.ofVar w) hx hne
    rw [hc.1, ih hx' hnew' hc.2, List.nil_append]

end Check

theorem Alike.declareVars_misnamed {c c' : SymbolTable} (hc : Alike c c') {x : Ident}
    {use : NameUse} {before after : List VarDecl} {v v' : VarDecl} (h : v.Misnames x use v') :
    Alike (c.declareVars (before ++ v :: after)) (c'.declareVars (before ++ v' :: after)) := by
  induction before generalizing c c' with
  | nil =>
    exact (hc.declareVar h.head_eq).declareVars after
  | cons w before ih => exact ih (hc.declareVar rfl)

namespace Decl.Misnames

variable {c : SymbolTable} {x : Ident} {use : NameUse} {d d' : Decl}

theorem head_eq (h : d.Misnames x use d') : d.head = d'.head := by
  cases h with
  | var h => exact congrArg Decl.var h.head_eq
  | formal hf h => simp [Decl.head, FnDecl.head, hf, h.head_eq]
  | body hf h => rfl

/-- The one finding is on the name. -/
theorem finds (h : d.Misnames x use d') (hx : c.lookup? x.name = none)
    (hnew : x.name ∉ d.declaredNames) (hc : (decl c d).findings = []) :
    (decl c d').findings = [misnaming x use] := by
  have hhead := h.head_eq
  cases h with
  | var h => exact h.finds hx hc
  | @formal f before after v v' hf h =>
    simp only [Decl.declaredNames, List.cons_append, List.mem_cons, List.mem_append, not_or, hf,
      List.map_append] at hnew
    obtain ⟨hname, ⟨hbefore, -⟩, -⟩ := hnew
    simp only [decl, findings_fnDecl, List.append_eq_nil_iff, SymbolTable.insideFn, hf] at hc ⊢
    obtain ⟨hdeclare, hformals, hbody⟩ := hc
    have hx' := lookup?_declare_eq_none (.ofFn f) hx hname
    have hfn := (Alike.refl c).declareFn (Decl.fn.inj hhead)
    have hsame := declareFn_alike (.refl c) (Decl.fn.inj hhead)
    have hfinds := varDecls_misnamed h (by simpa using hx') hbefore hformals
    rw [← hsame, hdeclare, ← varDecls_alike hfn.push, hfinds,
      ← stmts_alike (hfn.push.declareVars_misnamed h).push, hbody]
    rfl
  | @body f before after s s' hf h =>
    simp only [Decl.declaredNames, List.cons_append, List.mem_cons, List.mem_append, not_or, hf,
      Stmt.allDeclaredNames_append, Stmt.allDeclaredNames] at hnew
    obtain ⟨hname, hformals, hbefore, hs, -⟩ := hnew
    simp only [decl, findings_fnDecl, List.append_eq_nil_iff, SymbolTable.insideFn, hf] at hc ⊢
    obtain ⟨hdeclare, hformals', hbody⟩ := hc
    have hx' := lookup?_declare_eq_none (.ofFn f) hx hname
    have hinside := lookup?_declareVars_eq_none (c := (c.declare (.ofFn f)).push)
      (by simpa using hx') hformals
    have hfn := ((Alike.refl c).declareFn (Decl.fn.inj hhead)).push
    have hsame := declareFn_alike (.refl c) (Decl.fn.inj hhead)
    have hfinds := stmts_misnamed h.behind_alike (fun c hx hc => h.finds hx hs hc)
      (by simpa using hinside) hbefore hbody
    rw [← hsame, hdeclare, ← varDecls_alike hfn, hformals',
      ← stmts_alike (hfn.declareVars f.formals).push, hfinds]
    rfl

end Decl.Misnames

/-- The table behind a declaration does not know a name either that the declaration does not
declare. -/
theorem lookup?_behindDecl_eq_none {c : SymbolTable} {d : Decl} {name : String}
    (hx : c.lookup? name = none) (hnew : name ∉ d.declaredNames) :
    (c.behindDecl d).lookup? name = none := by
  cases d with
  | var v =>
    have hne : name ≠ v.name.name := by simpa [Decl.declaredNames] using hnew
    exact lookup?_declare_eq_none _ hx hne
  | fn f =>
    have hne : name ≠ f.name.name := by
      rintro rfl
      exact hnew (by simp [Decl.declaredNames])
    exact lookup?_declare_eq_none _ hx hne

/-- The one finding in the declarations of a program is on the name. -/
theorem Program.Misnames.finds {c : SymbolTable} {x : Ident} {use : NameUse} {p p' : Program}
    (h : p.Misnames x use p') (hx : c.lookup? x.name = none) (hnew : x.name ∉ p.declaredNames)
    (hc : (program c p).findings = []) : (program c p').findings = [misnaming x use] := by
  obtain @⟨before, after, d, d', h⟩ := h
  induction before generalizing c with
  | nil =>
    simp only [Program.declaredNames, List.nil_append, List.flatMap_cons, List.mem_append,
      not_or] at hnew
    simp only [List.nil_append, program, Report.findings_bind, value_decl,
      List.append_eq_nil_iff] at hc ⊢
    rw [h.finds hx hnew.1 hc.1, ← program_alike ((Alike.refl c).behindDecl h.head_eq), hc.2]
    rfl
  | cons e before ih =>
    simp only [Program.declaredNames, List.cons_append, List.flatMap_cons, List.mem_append,
      not_or] at hnew
    simp only [List.cons_append, program, Report.findings_bind, value_decl,
      List.append_eq_nil_iff] at hc ⊢
    rw [hc.1, ih (lookup?_behindDecl_eq_none hx hnew.1) hnew.2 hc.2]
    rfl

/-- One mistake gives one finding: in a program that was clean, where one name is now one that is
declared nowhere, the checker finds that name, and nothing else. -/
theorem Program.findings_misnames {p p' : Program} {x : Ident} {use : NameUse}
    (hclean : p.findings = []) (hnew : x.name ∉ p.declaredNames) (h : p.Misnames x use p') :
    p'.findings = [⟨.notDeclared x.name use, x.span⟩] :=
  h.finds (SymbolTable.lookup?_empty x.name) hnew hclean

/-- A name deep in what a function returns: neither the operation around it nor the call around that
nor the return is found fault with. -/
theorem Program.findings_misnames_of_argument : ∃ p p',
    ofText? "int f(int x) { if (x < 1) return f(2 * x); return x; }" = .ok p ∧
      ofText? "int f(int x) { if (x < 1) return f(2 * y); return x; }" = .ok p' ∧
        p.findings = [] ∧ "y" ∉ p.declaredNames ∧ p.Misnames ⟨"y", ⟨39, 40⟩⟩ .asVariable p' ∧
          p'.findings = [⟨.notDeclared "y" .asVariable, ⟨39, 40⟩⟩] := by
  obtain ⟨p, p', hp, hp', hclean, hnew, h⟩ : ∃ p p',
      ofText? "int f(int x) { if (x < 1) return f(2 * x); return x; }" = .ok p ∧
        ofText? "int f(int x) { if (x < 1) return f(2 * y); return x; }" = .ok p' ∧
          p.findings = [] ∧ "y" ∉ p.declaredNames ∧ p.Misnames ⟨"y", ⟨39, 40⟩⟩ .asVariable p' :=
    ⟨_, _, by cbv, by cbv, by cbv, by decide, @Misnames.decl _ _ [] [] _ _
      (@Decl.Misnames.body _ _ _ [] _ _ _ rfl
        (.ifThen (.returned (@Expr.Misnames.argument _ _ _ _ [] [] _ _ (.right .var)))))⟩
  exact ⟨p, p', hp, hp', hclean, hnew, h, findings_misnames hclean hnew h⟩

end ShaderLang
