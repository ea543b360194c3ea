import ShaderLang.Check.Stmt
import ShaderLang.Proofs.ValueTy

/-!
# Expressions without findings

What the checker guarantees of an expression in which it finds nothing wrong. The type that it gives
is `typeOf`, and unless that is `error` it is also the type of the lowered value
(`valueTy_eq_typeOf`). What is written to is a chain of fields and subscripts on a variable; such a
chain always has a type (`hasValues_of_rootVariable?`), and only a variable is subscripted in it.
-/

namespace ShaderLang

open Typing

namespace Swizzle

theorem lane?_lt {letter : Char} {lane : Nat} (h : lane? letter = some lane) : lane < 4 := by
  unfold lane? at h
  split at h <;> cases h <;> decide

theorem utf8Size_of_lane? {letter : Char} {lane : Nat} (h : lane? letter = some lane) :
    letter.utf8Size = 1 := by
  unfold lane? at h
  split at h <;> first | rfl | cases h

theorem mapM_lane?_cons {letter : Char} {rest : List Char} {mask : List Nat} :
    (letter :: rest).mapM lane? = some mask ↔
      ∃ lane lanes, lane? letter = some lane ∧ rest.mapM lane? = some lanes ∧
        mask = lane :: lanes := by
  simp only [List.mapM_cons, Option.pure_def, Option.bind_eq_bind, Option.bind_eq_some_iff,
    Option.some.injEq]
  grind

/-- Every letter of a swizzle that names lanes is one byte long. -/
theorem mapM_lane?_eq_some {letters : List Char} {mask : List Nat}
    (h : letters.mapM lane? = some mask) :
    (String.ofList letters).utf8ByteSize = mask.length ∧ letters.length = mask.length ∧
      letters.filterMap lane? = mask ∧ ∀ lane ∈ mask, lane < 4 := by
  induction letters generalizing mask with
  | nil =>
    cases h
    exact ⟨rfl, rfl, rfl, by simp⟩
  | cons letter rest ih =>
    obtain ⟨lane, lanes, hlane, hrest, rfl⟩ := mapM_lane?_cons.mp h
    obtain ⟨hsize, hlength, hfilter, hlt⟩ := ih hrest
    refine ⟨?_, ?_, ?_, ?_⟩
    · rw [String.ofList_cons, String.utf8ByteSize_append, String.utf8ByteSize_singleton, hsize,
        utf8Size_of_lane? hlane, List.length_cons]
      omega
    · simp [hlength]
    · simp [hlane, hfilter]
    · simpa [lane?_lt hlane] using hlt

theorem mask?_eq_some {field : String} {mask : List Nat} (h : mask? field = some mask) :
    field.utf8ByteSize = mask.length ∧ field.length = mask.length ∧
      field.toList.filterMap lane? = mask ∧ ∀ lane ∈ mask, lane < 4 := by
  have := mapM_lane?_eq_some h
  rwa [String.ofList_toList, String.length_toList] at this

/-- What is guaranteed of a swizzle in which nothing is wrong, on a base that has a type. -/
theorem of_issues_eq_nil {base : Ty} {field : String} (h : issues base field = [])
    (hbase : base ≠ .error) :
    base.isVector = true ∧ ∃ mask, mask? field = some mask ∧ mask.length ≤ 4 ∧
      (∀ lane ∈ mask, lane < base.lanes) ∧ ty base field = resultTy mask.length := by
  have hty : ty base field = resultTy field.utf8ByteSize := by simp [ty, h, hbase]
  simp only [issues, if_neg hbase, issueIf, List.append_eq_nil_iff, ite_eq_right_iff,
    reduceCtorEq, imp_false, Bool.not_eq_true, Option.isNone_eq_false_iff, Bool.not_eq_eq_eq_not,
    Bool.not_true] at h
  obtain ⟨⟨⟨hvec, hmask⟩, hbound⟩, hsize⟩ := h
  obtain ⟨mask, hmask⟩ := Option.isSome_iff_exists.mp hmask
  obtain ⟨hbytes, hlength, hfilter, -⟩ := mask?_eq_some hmask
  refine ⟨by simpa using hvec, mask, hmask, ?_, ?_, by rw [hty, hbytes]⟩
  · rw [decide_eq_false_iff_not, maxLength] at hsize
    omega
  · rw [hfilter] at hbound
    simpa [hvec] using hbound

end Swizzle

namespace Report

@[simp] theorem findings_noteIf_eq_nil {condition : Bool} {cause : Finding.Cause} {span : Span} :
    (noteIf condition cause span).findings = [] ↔ condition = false := by
  cases condition <;> simp [noteIf, note]

@[simp] theorem findings_orNote_eq_nil {α : Type} {value : Option α} {default : α}
    {cause : Finding.Cause} {span : Span} :
    (orNote value default cause span).findings = [] ↔ value.isSome := by
  cases value <;> simp [orNote]

@[simp] theorem value_mk {α : Type} (a : α) (fs : List Finding) : (Report.mk a fs).value = a :=
  rfl

end Report

namespace Check

variable (c : SymbolTable)

theorem value_call (callee : Ident) (actuals : List Ty) (spans : List Span) :
    (call c callee actuals spans).value =
      match function? c callee.name with
      | some f => if f.formals.length == actuals.length then f.returnTy else .error
      | none => .error := by
  unfold call function?
  cases c.lookup? callee.name with
  | none => rfl
  | some symbol =>
    cases hf : symbol.fn? with
    | none => simp [hf]
    | some f =>
      by_cases h : f.formals.length = actuals.length
      · simp [hf, h]
      · simp [hf, h, Ne.symm h]

mutual

theorem value_expr (e : Expr) : (expr c e).value = typeOf c e := by
  match e with
  | .int .. | .float .. | .bool .. => simp [expr, typeOf]
  | .var .. => simp [expr, typeOf]
  | .binary _ op left right => simp [expr, typeOf, value_expr left, value_expr right]
  | .unary _ op operand => cases op <;> simp [expr, typeOf, value_expr operand]
  | .assign _ op target value =>
    simp only [expr, typeOf, Report.value_bind, value_expr target, value_expr value]
    split <;> simp
  | .stepAfter _ direction operand => simp [expr, typeOf, value_expr operand]
  | .conditional _ test ifTrue ifFalse =>
    simp [expr, typeOf, value_expr ifTrue, value_expr ifFalse]
  | .index _ base position => simp [expr, typeOf, value_expr base]
  | .field _ base name => simp [expr, typeOf, value_expr base]
  | .call _ callee arguments =>
    have hlength : (typesOf c arguments).length = arguments.length := by simp
    have hcall := value_call c callee (typesOf c arguments) (arguments.map Expr.span)
    rw [hlength] at hcall
    rw [expr, Report.value_bind, value_exprs arguments]
    exact hcall
  | .construct _ target arguments =>
    simp [expr, typeOf, value_exprs arguments]

theorem value_exprs (es : List Expr) : (exprs c es).value = typesOf c es := by
  match es with
  | [] => simp [exprs]
  | e :: rest => simp [exprs, typesOf, value_expr e, value_exprs rest]

end

/-- Nothing is wrong with an expression. -/
def Clean (e : Expr) : Prop :=
  (expr c e).findings = []

/-- Nothing is wrong with expressions. -/
def AllClean (es : List Expr) : Prop :=
  (exprs c es).findings = []

/-- What is written to may be written. -/
def Writable (target : Expr) : Prop :=
  ∃ root, rootVariable? target = some root ∧
    ((c.lookup? root.name).bind Symbol.var?).any VarDecl.isConst = false

variable {c}

theorem findings_place_eq_nil {target : Expr} {op : String} :
    (place c target op).findings = [] ↔ Writable c target := by
  unfold place Writable
  cases rootVariable? target with
  | none => simp [Report.note]
  | some root => simp

theorem clean_var {span : Span} {name : Ident} :
    Clean c (.var span name) ↔ (variableTy? c name.name).isSome := by
  simp [Clean, expr]

theorem clean_binary {span : Span} {op : BinaryOp} {left right : Expr} :
    Clean c (.binary span op left right) ↔
      Clean c left ∧ Clean c right ∧ (binary? op (typeOf c left) (typeOf c right)).isSome := by
  simp [Clean, expr, value_expr]

theorem clean_unary {span : Span} {op : UnaryOp} {operand : Expr} :
    Clean c (.unary span op operand) ↔
      Clean c operand ∧ (∀ d, op = .step d → Writable c operand) ∧
        (unary? op (typeOf c operand)).isSome := by
  cases op <;> simp [Clean, expr, value_expr, findings_place_eq_nil]

theorem clean_assign {span : Span} {op : AssignOp} {target value : Expr} :
    Clean c (.assign span op target value) ↔
      Clean c target ∧ Clean c value ∧ Writable c target ∧
        (isUnknownVariable c target = false →
          (assign? op (typeOf c target) (typeOf c value)).isSome) := by
  simp only [Clean, expr, Report.findings_bind, List.append_eq_nil_iff, value_expr,
    findings_place_eq_nil]
  split <;> simp_all

theorem clean_stepAfter {span : Span} {direction : Step} {operand : Expr} :
    Clean c (.stepAfter span direction operand) ↔
      Clean c operand ∧ Writable c operand ∧ (arithmeticOperand? (typeOf c operand)).isSome := by
  simp [Clean, expr, value_expr, findings_place_eq_nil]

theorem clean_conditional {span : Span} {test ifTrue ifFalse : Expr} :
    Clean c (.conditional span test ifTrue ifFalse) ↔
      Clean c test ∧ (typeOf c test = .bool ∨ typeOf c test = .error) ∧ Clean c ifTrue ∧
        Clean c ifFalse ∧ ((typeOf c ifTrue).common? (typeOf c ifFalse)).isSome := by
  simp only [Clean, expr, testTy, Report.findings_bind, List.append_eq_nil_iff, value_expr,
    Report.findings_noteIf_eq_nil, Report.findings_orNote_eq_nil, Bool.and_eq_false_iff,
    bne_eq_false_iff_eq]

theorem clean_index {span : Span} {base position : Expr} :
    Clean c (.index span base position) ↔
      Clean c base ∧ Clean c position ∧ (typeOf c position = .int ∨ typeOf c position = .error) ∧
        (index? base (typeOf c base)).isSome := by
  simp only [Clean, expr, Report.findings_bind, List.append_eq_nil_iff, value_expr,
    Report.findings_noteIf_eq_nil, Report.findings_orNote_eq_nil, Bool.and_eq_false_iff,
    bne_eq_false_iff_eq]

theorem clean_field {span : Span} {base : Expr} {name : Ident} :
    Clean c (.field span base name) ↔
      Clean c base ∧ Swizzle.issues (typeOf c base) name.name = [] := by
  simp [Clean, expr, value_expr]

theorem clean_construct {span : Span} {target : Ty} {arguments : List Expr} :
    Clean c (.construct span target arguments) ↔
      AllClean c arguments ∧ target.constructibleFrom (typesOf c arguments) = true := by
  simp [Clean, AllClean, expr, value_exprs, construct?]

theorem allClean_cons {e : Expr} {rest : List Expr} :
    AllClean c (e :: rest) ↔ Clean c e ∧ AllClean c rest := by
  simp [AllClean, Clean, exprs]

theorem clean_call {span : Span} {callee : Ident} {args : List Expr}
    (h : Clean c (.call span callee args)) :
    AllClean c args ∧ ∃ f, function? c callee.name = some f ∧ f.formals.length = args.length ∧
      arguments 0 f.formals (typesOf c args) (args.map Expr.span) = [] := by
  simp only [Clean, expr, Report.findings_bind, List.append_eq_nil_iff, value_exprs] at h
  refine ⟨h.1, ?_⟩
  have hcall := h.2
  unfold call at hcall
  unfold function?
  cases hs : c.lookup? callee.name with
  | none => simp [hs] at hcall
  | some symbol =>
    cases hf : symbol.fn? with
    | none => simp [hs, hf] at hcall
    | some f =>
      simp only [hs, hf, Report.findings_bind, List.append_eq_nil_iff,
        Report.findings_noteIf_eq_nil, decide_eq_false_iff_not, Nat.not_lt, typesOf_eq_map,
        List.length_map] at hcall
      refine ⟨f, by simp [hf], Nat.le_antisymm hcall.1 hcall.2.1, ?_⟩
      simpa using hcall.2.2

end Check

/-! ## The type of what is clean -/

/-- The declarations that a table knows were read, and no variable is of type `void`. -/
structure Declared (c : SymbolTable) : Prop where
  var : ∀ name t, variableTy? c name = some t → t.isDeclarable = true ∧ t ≠ .void
  fn : ∀ name f, function? c name = some f →
    f.returnTy.isPlain = true ∧ ∀ v ∈ f.formals, v.ty.isDeclarable = true ∧ v.ty ≠ .void

namespace Ty

theorem hasValues_of_isPlain {t : Ty} (h : t.isPlain = true) : t.hasValues = true := by
  cases t <;> first | rfl | cases h

theorem hasValues_of_isDeclarable {t : Ty} (h : t.isDeclarable = true) : t.hasValues = true := by
  cases t with
  | array element length =>
    simp only [isDeclarable, Bool.and_eq_true] at h
    exact hasValues_of_isPlain (t := element) h.1.1
  | error => cases h
  | _ => rfl

end Ty

theorem Swizzle.hasValues_resultTy {n : Nat} (hpos : n ≠ 0) (hle : n ≤ 4) :
    (resultTy n).hasValues = true := by
  match n, hpos, hle with
  | 1, _, _ | 2, _, _ | 3, _, _ | 4, _, _ => rfl

theorem Swizzle.lanes_resultTy {n : Nat} (h : resultTy n ≠ .error) : (resultTy n).lanes = n := by
  match n, h with
  | 0, h | n + 5, h => exact absurd rfl h
  | 1, _ | 2, _ | 3, _ | 4, _ => rfl

theorem Swizzle.resultTy_length_ne_zero {field : String} {mask : List Nat}
    (h : mask? field = some mask) (hne : field ≠ "") : mask.length ≠ 0 := by
  rw [← (mask?_eq_some h).1]
  exact fun h => hne (String.utf8ByteSize_eq_zero_iff.mp h)

namespace Check

variable {c : SymbolTable}

theorem index?_eq_some {base : Expr} {baseTy t : Ty} (h : index? base baseTy = some t)
    (hbase : baseTy ≠ .error) : base.IsVar ∧ baseTy.element? = some t := by
  unfold index? at h
  split at h
  · refine ⟨trivial, ?_⟩
    cases baseTy <;> first | exact h | exact absurd rfl hbase
  · simp [hbase] at h

/-- A chain of fields and subscripts on a variable has a type. -/
theorem hasValues_of_rootVariable? (hd : Declared c) :
    ∀ {e : Expr} {root : Ident}, e.AsRead → Clean c e → rootVariable? e = some root →
      (typeOf c e).hasValues = true
  | .var _ name, root, _, hc, _ => by
    obtain ⟨t, ht⟩ := Option.isSome_iff_exists.mp (clean_var.mp hc)
    simp only [typeOf, ht, Option.getD_some]
    exact Ty.hasValues_of_isDeclarable (hd.var _ _ ht).1
  | .index _ base position, root, hr, hc, hroot => by
    obtain ⟨hcb, -, -, hsome⟩ := clean_index.mp hc
    obtain ⟨t, ht⟩ := Option.isSome_iff_exists.mp hsome
    have hbase := hasValues_of_rootVariable? hd hr.1 hcb hroot
    obtain ⟨-, helement⟩ := index?_eq_some ht (Ty.ne_error_of_hasValues hbase)
    simp only [typeOf, ht, Option.getD_some]
    generalize typeOf c base = baseTy at hbase helement
    cases baseTy <;> cases helement
    exact hbase
  | .field _ base name, root, hr, hc, hroot => by
    obtain ⟨hcb, hissues⟩ := clean_field.mp hc
    have hbase := hasValues_of_rootVariable? hd hr.1 hcb hroot
    obtain ⟨-, mask, hmask, hle, -, hty⟩ :=
      Swizzle.of_issues_eq_nil hissues (Ty.ne_error_of_hasValues hbase)
    rw [typeOf, hty]
    exact Swizzle.hasValues_resultTy (Swizzle.resultTy_length_ne_zero hmask hr.2) hle

/-- In a clean chain that begins with a variable, nothing but that variable is subscripted. -/
theorem isVar_of_rootVariable? (hd : Declared c) {span : Span} {base position : Expr} {root : Ident}
    (hr : base.AsRead) (hc : Clean c (.index span base position))
    (hroot : rootVariable? base = some root) :
    base.IsVar ∧ (typeOf c base).element? = some (typeOf c (.index span base position)) := by
  obtain ⟨hcb, -, -, hsome⟩ := clean_index.mp hc
  obtain ⟨t, ht⟩ := Option.isSome_iff_exists.mp hsome
  have hbase := hasValues_of_rootVariable? hd hr hcb hroot
  have h := index?_eq_some ht (Ty.ne_error_of_hasValues hbase)
  simpa only [typeOf, ht, Option.getD_some] using h

end Check

open Check Lowering

theorem meetingTy_eq {left right t : Ty} (h : left.arithmeticResult? right = some t)
    (ht : t ≠ .error) : meetingTy left right = t := by
  unfold meetingTy
  rw [h]
  split
  · next heq => cases heq; exact absurd rfl ht
  · next heq => cases heq
  · next heq => cases heq; rfl

theorem isArithmetic_of_arithmeticResult? {left right t : Ty}
    (h : left.arithmeticResult? right = some t) (ht : t ≠ .error) :
    left.isArithmetic = true ∧ right.isArithmetic = true := by
  unfold Ty.arithmeticResult? at h
  split at h
  · cases h
    exact absurd rfl ht
  · split at h
    · cases h
    · next hnot => simpa using hnot

theorem ne_error_of_arithmeticResult? {left right t : Ty}
    (h : left.arithmeticResult? right = some t) (ht : t ≠ .error) :
    left ≠ .error ∧ right ≠ .error := by
  obtain ⟨hl, hr⟩ := isArithmetic_of_arithmeticResult? h ht
  constructor
  · rintro rfl
    cases hl
  · rintro rfl
    cases hr

theorem converts_cases {t u : Ty} (h : t.convertsTo u = true) (ht : t ≠ .error) (hu : u ≠ .error) :
    t = u ∨ t = .int ∧ u = .float := by
  simpa [Ty.convertsTo, ht, hu] using h

theorem Ty.common?_eq_error {t u : Ty} (h : t = .error ∨ u = .error) :
    t.common? u = some .error := by
  rcases h with rfl | rfl <;> simp [common?]

theorem armTy_eq {t u r : Ty} (h : t.common? u = some r) (hr : r ≠ .error) : armTy t u = r := by
  unfold armTy
  rw [h]
  split
  · next heq => cases heq; exact absurd rfl hr
  · next heq => cases heq
  · next heq => cases heq; rfl

/-- What a place is assigned is of the type of the place, if the assignment has a type. -/
theorem storedTy_self {c : SymbolTable} {target : Expr} (hne : typeOf c target ≠ .error) :
    storedTy target (typeOf c target) (typeOf c target) = typeOf c target := by
  cases target with
  | field span base name =>
    simp only [storedTy]
    split
    · rfl
    · next hs =>
      simp only [typeOf, Swizzle.ty] at hne hs ⊢
      split
      · next h =>
        rw [if_pos h] at hs hne
        generalize name.name.utf8ByteSize = n at hs hne
        match n with
        | 0 => exact absurd rfl hne
        | 1 => rfl
        | 2 | 3 | 4 => exact absurd rfl hs
        | n + 5 => exact absurd rfl hne
      · next h => exact absurd (if_neg h) hne
  | _ => rfl

theorem binaryTy_eq {op : BinaryOp} {left right left' right' t : Ty}
    (h : binary? op left right = some t) (ht : t ≠ .error)
    (hl : left ≠ .error → left' = left) (hr : right ≠ .error → right' = right) :
    binaryTy op left' right' = t := by
  cases op with
  | arith op =>
    obtain ⟨hle, hre⟩ := ne_error_of_arithmeticResult? h ht
    obtain ⟨hla, hra⟩ := isArithmetic_of_arithmeticResult? h ht
    rw [binaryTy, hl hle, hr hre, Ty.arithmeticView_of_isArithmetic hla,
      Ty.arithmeticView_of_isArithmetic hra, meetingTy_eq h ht]
  | compare op =>
    simp only [binary?, comparison?] at h
    grind [binaryTy]
  | logic op =>
    simp only [binary?] at h
    grind [binaryTy]

theorem arithmeticOperand?_eq_some {operand t : Ty} (h : arithmeticOperand? operand = some t)
    (ht : t ≠ .error) : operand = t ∧ t.isArithmetic = true := by
  simp only [arithmeticOperand?] at h
  grind

theorem unaryTy_eq {op : UnaryOp} {operand operand' t : Ty} (h : unary? op operand = some t)
    (ht : t ≠ .error) (ho : operand ≠ .error → operand' = operand) : unaryTy op operand' = t := by
  cases op with
  | plus | minus =>
    obtain ⟨rfl, harith⟩ := arithmeticOperand?_eq_some h ht
    rw [unaryTy, ho ht, Ty.arithmeticView_of_isArithmetic harith]
  | step direction =>
    obtain ⟨rfl, -⟩ := arithmeticOperand?_eq_some h ht
    exact ho ht
  | not =>
    simp only [unary?] at h
    grind [unaryTy]

/-- An assignment that has a type gives a value of the type of its target, and what is assigned is
of that type too. -/
theorem assign?_eq_some {op : AssignOp} {target value t : Ty} (h : assign? op target value = some t)
    (ht : t ≠ .error) :
    target = t ∧ value ≠ .error ∧ assignedTy op target value = t := by
  cases op with
  | plain =>
    simp only [assign?] at h
    grind [assignedTy]
  | compound op =>
    simp only [assign?] at h
    split at h
    · next result hresult =>
      have heq : target = t ∧ result = t := by grind
      obtain ⟨rfl, rfl⟩ := heq
      obtain ⟨hla, hra⟩ := isArithmetic_of_arithmeticResult? hresult ht
      refine ⟨rfl, (ne_error_of_arithmeticResult? hresult ht).2, ?_⟩
      rw [assignedTy, Ty.arithmeticView_of_isArithmetic hla, Ty.arithmeticView_of_isArithmetic hra,
        meetingTy_eq hresult ht]
    · cases h

theorem isUnknownVariable_of_clean {c : SymbolTable} {target : Expr} (h : Clean c target) :
    isUnknownVariable c target = false := by
  cases target with
  | var span name => simpa [isUnknownVariable, Option.isSome_iff_ne_none] using clean_var.mp h
  | _ => rfl

theorem ne_error_of_index? {base : Expr} {baseTy t : Ty} (h : index? base baseTy = some t)
    (ht : t ≠ .error) : baseTy ≠ .error := by
  rintro rfl
  refine ht ?_
  unfold index? at h
  split at h <;> exact (Option.some.inj h).symm

/-- The lowered value of a clean expression that has a type is of that type. -/
theorem valueTy_eq_typeOf {c : SymbolTable} :
    ∀ {e : Expr}, Clean c e → typeOf c e ≠ .error → valueTy c e = typeOf c e
  | .int .., _, _ | .float .., _, _ | .bool .., _, _ | .var .., _, _ => by simp [valueTy, typeOf]
  | .binary _ op left right, hc, hne => by
    obtain ⟨hl, hr, hsome⟩ := clean_binary.mp hc
    obtain ⟨t, ht⟩ := Option.isSome_iff_exists.mp hsome
    simp only [typeOf, ht, Option.getD_some] at hne ⊢
    exact binaryTy_eq ht hne (valueTy_eq_typeOf hl) (valueTy_eq_typeOf hr)
  | .unary _ op operand, hc, hne => by
    obtain ⟨ho, -, hsome⟩ := clean_unary.mp hc
    obtain ⟨t, ht⟩ := Option.isSome_iff_exists.mp hsome
    simp only [typeOf, ht, Option.getD_some] at hne ⊢
    exact unaryTy_eq ht hne (valueTy_eq_typeOf ho)
  | .stepAfter _ direction operand, hc, hne => by
    obtain ⟨ho, -, hsome⟩ := clean_stepAfter.mp hc
    obtain ⟨t, ht⟩ := Option.isSome_iff_exists.mp hsome
    simp only [typeOf, ht, Option.getD_some] at hne ⊢
    obtain ⟨hty, -⟩ := arithmeticOperand?_eq_some ht hne
    rw [valueTy, valueTy_eq_typeOf ho (hty ▸ hne), hty]
  | .assign _ op target value, hc, hne => by
    obtain ⟨htc, hvc, -, hsome⟩ := clean_assign.mp hc
    obtain ⟨t, ht⟩ := Option.isSome_iff_exists.mp (hsome (isUnknownVariable_of_clean htc))
    simp only [typeOf, isUnknownVariable_of_clean htc, ht, Option.getD_some] at hne ⊢
    obtain ⟨htarget, hvne, hassigned⟩ := assign?_eq_some ht hne
    have htne : typeOf c target ≠ .error := htarget ▸ hne
    rw [valueTy, valueTy_eq_typeOf htc htne, valueTy_eq_typeOf hvc hvne, hassigned, ← htarget,
      storedTy_self htne]
    rfl
  | .conditional _ test ifTrue ifFalse, hc, hne => by
    obtain ⟨-, -, ht, hf, hsome⟩ := clean_conditional.mp hc
    obtain ⟨t, hcommon⟩ := Option.isSome_iff_exists.mp hsome
    simp only [typeOf, hcommon, Option.getD_some] at hne ⊢
    have hte : typeOf c ifTrue ≠ .error := fun h =>
      hne (Option.some.inj (hcommon.symm.trans (Ty.common?_eq_error (.inl h))))
    have hfe : typeOf c ifFalse ≠ .error := fun h =>
      hne (Option.some.inj (hcommon.symm.trans (Ty.common?_eq_error (.inr h))))
    rw [valueTy, valueTy_eq_typeOf ht hte, valueTy_eq_typeOf hf hfe, armTy_eq hcommon hne]
  | .index _ base position, hc, hne => by
    obtain ⟨hb, -, -, hsome⟩ := clean_index.mp hc
    obtain ⟨t, ht⟩ := Option.isSome_iff_exists.mp hsome
    simp only [typeOf, ht, Option.getD_some] at hne ⊢
    have hbne := ne_error_of_index? ht hne
    rw [valueTy, valueTy_eq_typeOf hb hbne, (index?_eq_some ht hbne).2, Option.getD_some]
  | .field _ base name, hc, hne => by
    obtain ⟨-, hissues⟩ := clean_field.mp hc
    have hbne : typeOf c base ≠ .error := fun h => hne (by simp [typeOf, Swizzle.ty, h])
    obtain ⟨-, mask, hmask, -, -, hty⟩ := Swizzle.of_issues_eq_nil hissues hbne
    rw [valueTy, typeOf, hty, laneCount, hmask, Option.elim_some]
  | .call _ callee arguments, hc, hne => by
    obtain ⟨-, f, hf, hlength, -⟩ := clean_call hc
    simp [valueTy, typeOf, hf, hlength]
  | .construct _ target arguments, hc, hne => by
    obtain ⟨-, hcon⟩ := clean_construct.mp hc
    rw [typesOf_eq_map] at hcon
    simp [valueTy, typeOf, construct?, hcon]

theorem hasValues_binaryTy (op : BinaryOp) (left right : Ty) :
    (binaryTy op left right).hasValues = true := by
  cases op with
  | arith op =>
    exact Ty.hasValues_of_isArithmetic (meetingTy_isArithmetic _ _)
  | compare op | logic op => rfl

theorem armTy_eq_or (t u : Ty) : armTy t u = t ∨ armTy t u = u := by
  unfold armTy
  split
  · split
    · exact .inr rfl
    · exact .inl rfl
  · split
    · exact .inr rfl
    · exact .inl rfl
  · next r hne h =>
    unfold Ty.common? at h
    grind

theorem Swizzle.hasValues_resultTy_of_ne {n : Nat} (h : resultTy n ≠ .error) :
    (resultTy n).hasValues = true := by
  match n with
  | 0 => exact absurd rfl h
  | 1 | 2 | 3 | 4 => rfl
  | n + 5 => exact absurd rfl h

theorem Ty.hasValues_element? {t element : Ty} (h : t.hasValues = true)
    (he : t.element? = some element) : element.hasValues = true := by
  cases t <;> cases he
  exact h

/-- The type of a lowered value has values, or it is `error`. -/
theorem hasValues_valueTy {c : SymbolTable} (hd : Declared c) :
    ∀ {e : Expr}, e.AsRead → valueTy c e ≠ .error → (valueTy c e).hasValues = true
  | .int .., _, _ | .float .., _, _ | .bool .., _, _ => rfl
  | .var _ name, _, hne => by
    simp only [valueTy] at hne ⊢
    cases ht : variableTy? c name.name with
    | none => simp [ht] at hne
    | some t => exact Ty.hasValues_of_isDeclarable (hd.var _ _ ht).1
  | .binary _ op left right, _, _ => hasValues_binaryTy ..
  | .unary _ op operand, hr, hne => by
    cases op with
    | plus | minus =>
      exact Ty.hasValues_of_isArithmetic (Ty.isArithmetic_arithmeticView _)
    | not => rfl
    | step direction => exact hasValues_valueTy hd (e := operand) hr hne
  | .stepAfter _ direction operand, hr, hne => hasValues_valueTy hd (e := operand) hr hne
  | .assign _ op target value, hr, hne => by
    simp only [valueTy] at hne ⊢
    unfold storedTy at hne ⊢
    split
    · split
      · next h => exact Ty.hasValues_of_isArithmetic (Ty.isArithmetic_of_isShaped h)
      · rfl
    · split at hne
      · next h => exact absurd rfl (h _ _ _)
      · exact hasValues_valueTy hd hr.1 hne
  | .conditional _ test ifTrue ifFalse, hr, hne => by
    simp only [valueTy] at hne ⊢
    rcases armTy_eq_or (valueTy c ifTrue) (valueTy c ifFalse) with h | h
    · rw [h] at hne ⊢
      exact hasValues_valueTy hd hr.2.1 hne
    · rw [h] at hne ⊢
      exact hasValues_valueTy hd hr.2.2 hne
  | .index _ base position, hr, hne => by
    simp only [valueTy] at hne ⊢
    cases helement : (valueTy c base).element? with
    | none => simp [helement] at hne
    | some element =>
      have hbne : valueTy c base ≠ .error := fun h => by simp [h, Ty.element?] at helement
      exact Ty.hasValues_element? (hasValues_valueTy hd hr.1 hbne) helement
  | .field _ base name, _, hne => Swizzle.hasValues_resultTy_of_ne hne
  | .call _ callee arguments, _, hne => by
    simp only [valueTy] at hne ⊢
    cases hf : Typing.function? c callee.name with
    | none => simp [hf] at hne
    | some f => exact Ty.hasValues_of_isPlain (hd.fn _ _ hf).1
  | .construct _ target arguments, hr, _ => Ty.hasValues_of_isPlain hr.1

end ShaderLang
