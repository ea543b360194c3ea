import ShaderLang.Proofs.CleanProgram
import ShaderLang.Proofs.Faithful
import ShaderLang.Proofs.Variables

/-!
# Where a type gets lost

An expression in which nothing is wrong may still have the type `error`. Only two operations make it
so without a finding: a comparison of an `int` with a `float` behind it, and a plain assignment of an
`int` to a `float`. From there the type `error` is handed up by every operation whose type is that of
its operands, and by no other, so an expression without findings has the type `error` exactly if one
of the parts that decide its type is one of these two (`Check.typeOf_eq_error_iff`). This holds in
every table whose symbols were read from some text, of every expression that was read
(`Check.error_hasCause`).
-/

namespace ShaderLang

namespace Expr

mutual

/-- An expression and all that is in it. -/
def parts : Expr → List Expr
  | .int span n => [.int span n]
  | .float span x => [.float span x]
  | .bool span b => [.bool span b]
  | .var span name => [.var span name]
  | .binary span op left right => .binary span op left right :: (left.parts ++ right.parts)
  | .unary span op operand => .unary span op operand :: operand.parts
  | .assign span op target value => .assign span op target value :: (target.parts ++ value.parts)
  | .stepAfter span direction operand => .stepAfter span direction operand :: operand.parts
  | .conditional span test ifTrue ifFalse =>
    .conditional span test ifTrue ifFalse :: (test.parts ++ (ifTrue.parts ++ ifFalse.parts))
  | .index span base position => .index span base position :: (base.parts ++ position.parts)
  | .field span base name => .field span base name :: base.parts
  | .call span callee arguments => .call span callee arguments :: allParts arguments
  | .construct span target arguments => .construct span target arguments :: allParts arguments

/-- Expressions and all that is in them. -/
def allParts : List Expr → List Expr
  | [] => []
  | e :: rest => e.parts ++ allParts rest

end

/-- The parts of an expression whose types decide its own type. Logic, calls and constructors have
a type whatever the types of their operands are, and a subscript or a test decides nothing. -/
def decisive : Expr → List Expr
  | .binary span (.arith op) left right =>
    .binary span (.arith op) left right :: (left.decisive ++ right.decisive)
  | .binary span (.compare op) left right =>
    .binary span (.compare op) left right :: (left.decisive ++ right.decisive)
  | .unary span op operand => .unary span op operand :: operand.decisive
  | .assign span op target value =>
    .assign span op target value :: (target.decisive ++ value.decisive)
  | .stepAfter span direction operand => .stepAfter span direction operand :: operand.decisive
  | .conditional span test ifTrue ifFalse =>
    .conditional span test ifTrue ifFalse :: (ifTrue.decisive ++ ifFalse.decisive)
  | .index span base position => .index span base position :: base.decisive
  | .field span base name => .field span base name :: base.decisive
  | e => [e]

theorem mem_parts_self (e : Expr) : e ∈ e.parts := by
  cases e <;> exact List.mem_cons_self

theorem decisive_subset_parts (e : Expr) : e.decisive ⊆ e.parts := by
  have both {ls ls' rs rs' : List Expr} (hl : ls ⊆ ls') (hr : rs ⊆ rs') :
      ls ++ rs ⊆ ls' ++ rs' :=
    List.append_subset.mpr ⟨List.subset_append_of_subset_left _ hl,
      List.subset_append_of_subset_right _ hr⟩
  fun_induction decisive e with
  | case1 _ _ _ _ ihl ihr | case2 _ _ _ _ ihl ihr | case4 _ _ _ _ ihl ihr =>
    exact List.cons_subset_cons _ (both ihl ihr)
  | case3 _ _ _ ih | case5 _ _ _ ih | case8 _ _ _ ih => exact List.cons_subset_cons _ ih
  | case6 _ _ _ _ ihl ihr =>
    exact List.cons_subset_cons _ (List.subset_append_of_subset_right _ (both ihl ihr))
  | case7 _ _ _ ih => exact List.cons_subset_cons _ (List.subset_append_of_subset_left _ ih)
  | case9 e => exact List.cons_subset.mpr ⟨mem_parts_self e, List.nil_subset _⟩

end Expr

/-! ## Tables of declarations that were read -/

/-- Some text was read in which this is declared, be it deep inside a function. -/
def Decl.IsRead (d : Decl) : Prop :=
  ∃ source p, Program.ofText? source = .ok p ∧ (d ∈ p ∨ ∃ v ∈ p.variables, d = .var v)

theorem Decl.IsRead.asRead {d : Decl} (h : d.IsRead) : d.AsRead := by
  obtain ⟨source, p, hp, hd | ⟨v, hv, rfl⟩⟩ := h
  · exact Program.asRead_of_ofText hp d hd
  · exact (Program.asRead_of_ofText hp).of_mem_variables hv

namespace SymbolTable

/-- All symbols that a table holds. -/
def symbols (t : SymbolTable) : List Symbol :=
  (t.inner :: t.outer).flatMap Scope.symbols

variable {c : SymbolTable} {name : String}

theorem mem_symbols_of_lookup? {s : Symbol} (h : c.lookup? name = some s) : s ∈ c.symbols := by
  obtain ⟨scope, hscope, hfind⟩ := List.exists_of_findSome?_eq_some h
  exact List.mem_flatMap.mpr ⟨scope, hscope, List.mem_of_find?_eq_some hfind⟩

theorem isDeclarable_of_variableTy? (hc : ∀ s ∈ c.symbols, s.decl.AsRead) {t : Ty}
    (h : Typing.variableTy? c name = some t) : t.isDeclarable = true := by
  obtain ⟨v, hv, rfl⟩ := Option.map_eq_some_iff.mp h
  obtain ⟨s, hs, hvar⟩ := Option.bind_eq_some_iff.mp hv
  have hread := hc s (mem_symbols_of_lookup? hs)
  unfold Symbol.var? at hvar
  split at hvar
  · next hdecl =>
    cases hvar
    rw [hdecl] at hread
    exact VarDecl.AsRead.ty hread
  · cases hvar

theorem isPlain_of_function? (hc : ∀ s ∈ c.symbols, s.decl.AsRead) {f : FnDecl}
    (h : Typing.function? c name = some f) : f.returnTy.isPlain = true := by
  obtain ⟨s, hs, hfn⟩ := Option.bind_eq_some_iff.mp h
  have hread := hc s (mem_symbols_of_lookup? hs)
  unfold Symbol.fn? at hfn
  split at hfn
  · next hdecl =>
    cases hfn
    rw [hdecl] at hread
    exact FnDecl.AsRead.returnTy hread
  · cases hfn

theorem mem_symbols_of_declare {s r : Symbol} (h : s ∈ (c.declare r).symbols) :
    s = r ∨ s ∈ c.symbols := by
  obtain ⟨scope, hscope, hs⟩ := List.mem_flatMap.mp h
  rcases List.mem_cons.mp hscope with rfl | hscope
  · exact (List.mem_cons.mp hs).imp_right fun hs =>
      List.mem_flatMap.mpr ⟨c.inner, List.mem_cons_self, (List.mem_filter.mp hs).1⟩
  · exact .inr (List.mem_flatMap.mpr ⟨scope, List.mem_cons_of_mem _ hscope, hs⟩)

theorem mem_symbols_of_program {p : Program} {s : Symbol}
    (h : s ∈ (Check.program c p).value.symbols) : s ∈ c.symbols ∨ s.decl ∈ p := by
  induction p generalizing c with
  | nil => exact .inl h
  | cons d rest ih =>
    rw [Check.program, Report.value_bind, Check.value_decl] at h
    rcases ih h with hs | hs
    · cases d with
      | var | fn =>
        rcases mem_symbols_of_declare hs with rfl | hs
        · exact .inr List.mem_cons_self
        · exact .inl hs
    · exact .inr (List.mem_cons_of_mem _ hs)

/-- The symbols behind a program that was read are its declarations. -/
theorem isRead_of_program {source : String} {p : Program} (h : Program.ofText? source = .ok p) :
    ∀ s ∈ (Check.program empty p).value.symbols, s.decl.IsRead := fun _ hs =>
  ⟨source, p, h, .inl ((mem_symbols_of_program hs).resolve_left nofun)⟩

end SymbolTable

/-! ## The rules of operations -/

namespace Typing

variable {t u : Ty}

theorem arithmeticResult?_eq_error (h : (t.arithmeticResult? u).isSome) :
    (t.arithmeticResult? u).getD .error = .error ↔ t = .error ∨ u = .error := by
  unfold Ty.arithmeticResult? at h ⊢
  cases t <;> cases u <;> simp_all [Ty.isArithmetic, Ty.isNumeric, Ty.isShaped, Ty.isVector, Ty.isMatrix]

theorem comparison?_eq_error (h : (comparison? t u).isSome) :
    (comparison? t u).getD .error = .error ↔
      t = .error ∨ u = .error ∨ t = .int ∧ u = .float := by
  unfold comparison? at h ⊢
  grind [Ty.convertsTo]

theorem common?_eq_error (h : (t.common? u).isSome) :
    (t.common? u).getD .error = .error ↔ t = .error ∨ u = .error := by
  unfold Ty.common? at h ⊢
  grind [Ty.convertsTo]

theorem arithmeticOperand?_eq_error (h : (arithmeticOperand? t).isSome) :
    (arithmeticOperand? t).getD .error = .error ↔ t = .error := by
  unfold arithmeticOperand? at h ⊢
  grind

theorem unary?_eq_error {op : UnaryOp} (h : (unary? op t).isSome) :
    (unary? op t).getD .error = .error ↔ t = .error := by
  cases op with
  | not =>
    unfold unary? at h ⊢
    grind
  | _ => exact arithmeticOperand?_eq_error h

theorem assign?_plain_eq_error (h : (assign? .plain t u).isSome) :
    (assign? .plain t u).getD .error = .error ↔
      t = .error ∨ u = .error ∨ t = .float ∧ u = .int := by
  unfold assign? at h ⊢
  grind [Ty.convertsTo]

theorem assign?_compound_eq_error {op : ArithOp} (h : (assign? (.compound op) t u).isSome) :
    (assign? (.compound op) t u).getD .error = .error ↔ t = .error ∨ u = .error := by
  unfold assign? at h ⊢
  cases hresult : t.arithmeticResult? u with
  | none => simp [hresult] at h
  | some result =>
    rw [← arithmeticResult?_eq_error (by rw [hresult]; rfl), hresult]
    simp only [hresult] at h
    split at h
    · next hkept => simp only [hkept, if_true]
    · cases h

end Typing

theorem Swizzle.ty_eq_error_iff {base : Ty} {field : String} (h : issues base field = [])
    (hne : field ≠ "") : ty base field = .error ↔ base = .error := by
  by_cases hbase : base = .error
  · simp [ty, hbase]
  · obtain ⟨-, mask, hmask, hle, -, hty⟩ := of_issues_eq_nil h hbase
    rw [hty]
    exact iff_of_false (Ty.ne_error_of_hasValues
      (hasValues_resultTy (resultTy_length_ne_zero hmask hne) hle)) hbase

namespace Check

open Typing

/-- The operations that are left without a type and without a finding: a comparison of an `int` with
a `float` behind it, and a plain assignment of an `int` to a `float`. -/
def Mixes (c : SymbolTable) : Expr → Prop
  | .binary _ (.compare _) left right => (expr c left).value = .int ∧ (expr c right).value = .float
  | .assign _ .plain target value => (expr c target).value = .float ∧ (expr c value).value = .int
  | _ => False

/-- If nothing is found in an expression, it is of type `error` exactly if one of the parts that
decide its type mixes `int` and `float`; so such a part is in it. -/
def ErrorHasCause (c : SymbolTable) (e : Expr) : Prop :=
  (expr c e).findings = [] →
    ((expr c e).value = .error ↔ ∃ part ∈ e.decisive, Mixes c part) ∧
    ((expr c e).value = .error → ∃ part ∈ e.parts, Mixes c part)

variable {c : SymbolTable}

theorem exists_mixes_cons {e : Expr} {es : List Expr} :
    (∃ part ∈ e :: es, Mixes c part) ↔ Mixes c e ∨ ∃ part ∈ es, Mixes c part := by
  simp

theorem exists_mixes_append {es fs : List Expr} :
    (∃ part ∈ es ++ fs, Mixes c part) ↔
      (∃ part ∈ es, Mixes c part) ∨ ∃ part ∈ fs, Mixes c part := by
  simp only [List.mem_append, or_and_right, exists_or]

theorem hasValues_var (hd : ∀ s ∈ c.symbols, s.decl.AsRead) {span : Span} {name : Ident}
    (hc : Clean c (.var span name)) : (typeOf c (.var span name)).hasValues = true := by
  obtain ⟨t, ht⟩ := Option.isSome_iff_exists.mp (clean_var.mp hc)
  simp only [typeOf, ht, Option.getD_some]
  exact Ty.hasValues_of_isDeclarable (SymbolTable.isDeclarable_of_variableTy? hd ht)

theorem index?_eq_error (hd : ∀ s ∈ c.symbols, s.decl.AsRead) {base : Expr} (hc : Clean c base)
    (h : (index? base (typeOf c base)).isSome) :
    (index? base (typeOf c base)).getD .error = .error ↔ typeOf c base = .error := by
  by_cases hbase : typeOf c base = .error
  · simp only [hbase, iff_true]
    cases base <;> rfl
  · obtain ⟨t, ht⟩ := Option.isSome_iff_exists.mp h
    obtain ⟨hvar, helement⟩ := index?_eq_some ht hbase
    -- only a variable is subscripted, and what an array holds has values
    have hvalues : t.hasValues = true := by
      cases base with
      | var => exact Ty.hasValues_element? (hasValues_var hd hc) helement
      | _ => cases hvar
    simp [ht, hbase, Ty.ne_error_of_hasValues hvalues]

/-- Where the type `error` comes from in an expression without findings. -/
theorem typeOf_eq_error_iff (hd : ∀ s ∈ c.symbols, s.decl.AsRead) :
    ∀ {e : Expr}, e.AsRead → Clean c e →
      (typeOf c e = .error ↔ ∃ part ∈ e.decisive, Mixes c part)
  | .int .., _, _ | .float .., _, _ | .bool .., _, _ => by simp [typeOf, Expr.decisive, Mixes]
  | .var _ name, _, hc => by
    simp [Ty.ne_error_of_hasValues (hasValues_var hd hc), Expr.decisive, Mixes]
  | .binary _ (.arith op) left right, hr, hc => by
    obtain ⟨hcl, hcr, hsome⟩ := clean_binary.mp hc
    rw [Expr.decisive, exists_mixes_cons, exists_mixes_append,
      ← typeOf_eq_error_iff hd hr.1 hcl, ← typeOf_eq_error_iff hd hr.2 hcr, typeOf]
    exact (arithmeticResult?_eq_error hsome).trans (by simp [Mixes])
  | .binary _ (.compare op) left right, hr, hc => by
    obtain ⟨hcl, hcr, hsome⟩ := clean_binary.mp hc
    rw [Expr.decisive, exists_mixes_cons, exists_mixes_append,
      ← typeOf_eq_error_iff hd hr.1 hcl, ← typeOf_eq_error_iff hd hr.2 hcr, typeOf, Mixes,
      value_expr, value_expr]
    exact (comparison?_eq_error hsome).trans (by tauto)
  | .binary _ (.logic op) left right, hr, hc => by
    obtain ⟨-, -, hsome⟩ := clean_binary.mp hc
    have hbool : binary? (.logic op) (typeOf c left) (typeOf c right) = some .bool := by
      unfold binary? at hsome ⊢
      grind
    simp [typeOf, hbool, Expr.decisive, Mixes]
  | .unary _ op operand, hr, hc => by
    obtain ⟨hco, -, hsome⟩ := clean_unary.mp hc
    rw [Expr.decisive, exists_mixes_cons, ← typeOf_eq_error_iff hd (e := operand) hr hco, typeOf]
    exact (unary?_eq_error hsome).trans (by simp [Mixes])
  | .assign _ op target value, hr, hc => by
    obtain ⟨hct, hcv, -, hsome⟩ := clean_assign.mp hc
    have hknown : isUnknownVariable c target = false := by
      cases target <;> first | rfl | simpa [isUnknownVariable] using clean_var.mp hct
    rw [Expr.decisive, exists_mixes_cons, exists_mixes_append,
      ← typeOf_eq_error_iff hd hr.1 hct, ← typeOf_eq_error_iff hd hr.2 hcv, typeOf, hknown]
    cases op with
    | plain =>
      rw [Mixes, value_expr, value_expr]
      exact (assign?_plain_eq_error (hsome hknown)).trans (by tauto)
    | compound op => exact (assign?_compound_eq_error (hsome hknown)).trans (by simp [Mixes])
  | .stepAfter _ direction operand, hr, hc => by
    obtain ⟨hco, -, hsome⟩ := clean_stepAfter.mp hc
    rw [Expr.decisive, exists_mixes_cons, ← typeOf_eq_error_iff hd (e := operand) hr hco, typeOf]
    exact (arithmeticOperand?_eq_error hsome).trans (by simp [Mixes])
  | .conditional _ test ifTrue ifFalse, hr, hc => by
    obtain ⟨-, -, hct, hcf, hsome⟩ := clean_conditional.mp hc
    rw [Expr.decisive, exists_mixes_cons, exists_mixes_append,
      ← typeOf_eq_error_iff hd hr.2.1 hct, ← typeOf_eq_error_iff hd hr.2.2 hcf, typeOf]
    exact (common?_eq_error hsome).trans (by simp [Mixes])
  | .index _ base position, hr, hc => by
    obtain ⟨hcb, -, -, hsome⟩ := clean_index.mp hc
    rw [Expr.decisive, exists_mixes_cons, ← typeOf_eq_error_iff hd hr.1 hcb, typeOf]
    exact (index?_eq_error hd hcb hsome).trans (by simp [Mixes])
  | .field _ base name, hr, hc => by
    obtain ⟨hcb, hissues⟩ := clean_field.mp hc
    rw [Expr.decisive, exists_mixes_cons, ← typeOf_eq_error_iff hd hr.1 hcb, typeOf]
    exact (Swizzle.ty_eq_error_iff hissues hr.2).trans (by simp [Mixes])
  | .call _ callee arguments, hr, hc => by
    obtain ⟨-, f, hf, hlength, -⟩ := clean_call hc
    have hne := Ty.ne_error_of_hasValues
      (Ty.hasValues_of_isPlain (SymbolTable.isPlain_of_function? hd hf))
    simp [typeOf, hf, hlength, hne, Expr.decisive, Mixes]
  | .construct _ target arguments, hr, hc => by
    obtain ⟨-, hfits⟩ := clean_construct.mp hc
    rw [typesOf_eq_map] at hfits
    have hne := Ty.ne_error_of_hasValues (Ty.hasValues_of_isPlain hr.1)
    simp [typeOf, construct?, hfits, hne, Expr.decisive, Mixes]

theorem errorHasCause_of_asRead (hd : ∀ s ∈ c.symbols, s.decl.AsRead) {e : Expr} (hr : e.AsRead) :
    ErrorHasCause c e := by
  intro hc
  have hiff := typeOf_eq_error_iff hd hr hc
  rw [← value_expr] at hiff
  refine ⟨hiff, fun herror => ?_⟩
  obtain ⟨part, hpart, hmixes⟩ := hiff.mp herror
  exact ⟨part, Expr.decisive_subset_parts e hpart, hmixes⟩

end Check

/-! ## Expressions of a text -/

mutual

theorem Expr.AsRead.everywhere {e : Expr} (h : e.AsRead) : e.Everywhere Expr.AsRead := by
  match e with
  | .int .. | .float .. | .bool .. | .var .. => exact h
  | .binary _ _ left right => exact ⟨h, Expr.AsRead.everywhere h.1, Expr.AsRead.everywhere h.2⟩
  | .unary _ _ operand | .stepAfter _ _ operand =>
    exact ⟨h, Expr.AsRead.everywhere (e := operand) h⟩
  | .assign _ _ target value => exact ⟨h, Expr.AsRead.everywhere h.1, Expr.AsRead.everywhere h.2⟩
  | .conditional _ test ifTrue ifFalse =>
    exact ⟨h, Expr.AsRead.everywhere h.1, Expr.AsRead.everywhere h.2.1,
      Expr.AsRead.everywhere h.2.2⟩
  | .index _ base position => exact ⟨h, Expr.AsRead.everywhere h.1, Expr.AsRead.everywhere h.2⟩
  | .field _ base _ => exact ⟨h, Expr.AsRead.everywhere h.1⟩
  | .call _ _ arguments => exact ⟨h, Expr.AllAsRead.everywhere h⟩
  | .construct _ _ arguments => exact ⟨h, Expr.AllAsRead.everywhere h.2⟩

theorem Expr.AllAsRead.everywhere {es : List Expr} (h : Expr.AllAsRead es) :
    Expr.AllEverywhere Expr.AsRead es := by
  match es with
  | [] => trivial
  | e :: rest => exact ⟨Expr.AsRead.everywhere h.1, Expr.AllAsRead.everywhere h.2⟩

end

namespace Grammar

open Token

mutual

/-- A phrase of proper tokens is an expression as the grammar reads it. -/
theorem Phrase.asRead {r : Rank} {ts : List Token} {e : Expr} (h : Phrase r ts e)
    (hts : ∀ t ∈ ts, t.kind.Proper) : e.AsRead := by
  match h with
  | .atom (t := t) ht =>
    have hproper := hts t List.mem_cons_self
    unfold atom? at ht
    split at ht
    · next hkind =>
      cases ht
      rwa [hkind] at hproper
    all_goals cases ht <;> trivial
  | .call _ _ hes _ => exact hes.asRead fun u hu => hts u (by simp [hu])
  | .construct (t := t) ht _ hes _ =>
    refine ⟨?_, hes.asRead fun u hu => hts u (by simp [hu])⟩
    cases hkind : t.kind <;> rw [hkind] at ht <;> first | exact isPlain_of_ty? ht | cases ht
  | .parens _ he _ =>
    exact Expr.asRead_withSpan _ (he.asRead fun u hu => hts u (by simp [hu]))
  | .plain he | .unsigned he | .operand he | .decided he | .value he => exact he.asRead hts
  | .index hb _ hp _ =>
    exact ⟨hb.asRead fun u hu => hts u (by simp [hu]), hp.asRead fun u hu => hts u (by simp [hu])⟩
  | .field (n := n) hb _ hn =>
    have hproper := hts n (by simp)
    rw [hn] at hproper
    exact ⟨hb.asRead fun u hu => hts u (by simp [hu]), hproper.nonempty⟩
  | .stepAfter hb _ => exact hb.asRead fun u hu => hts u (by simp [hu])
  | .signed _ he => exact he.asRead fun u hu => hts u (by simp [hu])
  | .binary _ _ hl hr =>
    exact ⟨hl.asRead fun u hu => hts u (by simp [hu]), hr.asRead fun u hu => hts u (by simp [hu])⟩
  | .conditional ht _ hu _ hv =>
    exact ⟨ht.asRead fun u hu => hts u (by simp [hu]), hu.asRead fun u hu => hts u (by simp [hu]),
      hv.asRead fun u hu => hts u (by simp [hu])⟩
  | .assign ht _ hv =>
    exact ⟨ht.asRead fun u hu => hts u (by simp [hu]), hv.asRead fun u hu => hts u (by simp [hu])⟩

theorem Arguments.asRead {ts : List Token} {es : List Expr} (h : Arguments ts es)
    (hts : ∀ t ∈ ts, t.kind.Proper) : Expr.AllAsRead es := by
  match h with
  | .none => trivial
  | .some hes => exact hes.asRead hts

theorem Phrases.asRead {ts : List Token} {es : List Expr} (h : Phrases ts es)
    (hts : ∀ t ∈ ts, t.kind.Proper) : Expr.AllAsRead es := by
  match h with
  | .one he => exact ⟨he.asRead hts, trivial⟩
  | .cons he _ hes =>
    exact ⟨he.asRead fun u hu => hts u (by simp [hu]), hes.asRead fun u hu => hts u (by simp [hu])⟩

end

end Grammar

variable {P : Expr → Prop} {source : String}

/-- What holds of expressions as the grammar reads them holds everywhere in one that was read. -/
theorem Grammar.everywhere_of_expr (hP : ∀ e : Expr, e.AsRead → P e) {place next : Cursor}
    (hplace : place.Proper) {e : Expr} {h : next.left < place.left}
    (hread : Grammar.expr place = .ok e next h) : e.Everywhere P := by
  have hall := expr_all place hplace
  rw [hread] at hall
  exact hall.1.everywhere.imp hP

/-- What holds of expressions as the grammar reads them holds everywhere in a program that was
read. -/
theorem Program.everywhere_of_ofText? (hP : ∀ e : Expr, e.AsRead → P e) {p : Program}
    (h : Program.ofText? source = .ok p) : p.Everywhere P := by
  unfold Program.ofText? at h
  split at h
  · cases h
  next place hplace =>
  have hcovers := Grammar.decls_covers place
  cases hread : Grammar.decls place with
  | error => rw [hread] at h; cases h
  | ok value n hlt =>
    rw [hread] at h hcovers
    cases h
    obtain ⟨ts, hts, hp, hn⟩ := hcovers
    have hscan := Grammar.Cursor.scan_of_takes hplace hts hn
    intro d hd
    obtain ⟨us, hus, hclause⟩ := hp.exists_mem d hd
    refine hclause.everywhere fun vs x hvs hx => hP x (hx.asRead fun t ht => ?_)
    exact Token.Scan.scanFrom_proper 0 source.toList t
      (hscan ▸ List.mem_map_of_mem ((hvs.trans hus).subset ht))

/-- In every table whose symbols were read from some text, and everywhere in what was read, be it an
expression by itself or a program, the type `error` has a cause. -/
theorem Check.error_hasCause {c : SymbolTable} (hc : ∀ s ∈ c.symbols, s.decl.IsRead) :
    (∀ (place next : Grammar.Cursor) (e : Expr) (h : next.left < place.left), place.Proper →
      Grammar.expr place = .ok e next h → e.Everywhere (ErrorHasCause c)) ∧
    (∀ source e, Expr.ofText? source = .ok e → e.Everywhere (ErrorHasCause c)) ∧
    ∀ source p, Program.ofText? source = .ok p → p.Everywhere (ErrorHasCause c) := by
  have hcause (e : Expr) (he : e.AsRead) : ErrorHasCause c e :=
    errorHasCause_of_asRead (fun s hs => (hc s hs).asRead) he
  refine ⟨fun place next e h hplace hread => Grammar.everywhere_of_expr hcause hplace hread,
    fun source e h => ?_, fun source p h => Program.everywhere_of_ofText? hcause h⟩
  unfold Expr.ofText? at h
  split at h
  · cases h
  next place hplace =>
  cases hread : Grammar.expr place with
  | error => rw [hread] at h; cases h
  | ok value next hlt =>
    rw [hread] at h
    cases h
    exact Grammar.everywhere_of_expr hcause (Grammar.Cursor.named_of_ofText? hplace) hread

/-- An `int` compared with a `float` behind it has no type, and nothing is found in it. -/
theorem Check.error_hasCause_of_comparison :
    ∃ p e, Program.ofText? "int i; float f;" = .ok p ∧ Expr.ofText? "i < f" = .ok e ∧
      (expr (program .empty p).value e).findings = [] ∧
      (expr (program .empty p).value e).value = .error ∧
      ∃ part ∈ e.parts, Mixes (program .empty p).value part := by
  let i : VarDecl := ⟨⟨"i", ⟨4, 5⟩⟩, .int, none, none, ⟨0, 6⟩⟩
  let f : VarDecl := ⟨⟨"f", ⟨13, 14⟩⟩, .float, none, none, ⟨7, 15⟩⟩
  let e : Expr := .binary ⟨0, 5⟩ (.compare .lt) (.var ⟨0, 1⟩ ⟨"i", ⟨0, 1⟩⟩)
    (.var ⟨4, 5⟩ ⟨"f", ⟨4, 5⟩⟩)
  have hp : Program.ofText? "int i; float f;" = .ok [.var i, .var f] := by cbv
  have he : Expr.ofText? "i < f" = .ok e := by cbv
  have hclean : (expr (program .empty [.var i, .var f]).value e).findings = [] := by cbv
  have herror : (expr (program .empty [.var i, .var f]).value e).value = .error := by cbv
  have hcause := (error_hasCause (SymbolTable.isRead_of_program hp)).2.1 _ _ he
  exact ⟨_, _, hp, he, hclean, herror, (hcause.self hclean).2 herror⟩

end ShaderLang
