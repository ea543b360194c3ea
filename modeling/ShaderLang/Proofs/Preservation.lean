import ShaderLang.Proofs.Branching
import ShaderLang.Proofs.Resolution

/-!
# The lowering of an expression keeps its meaning

Running the code of a clean expression, none of whose subexpressions is of type `error`, gives the
datum that the expression means and leaves the contents of the variables and the calls as the
expression means them (`expr_realizes`, and `Program.lower_preserves` for programs).
-/

namespace ShaderLang

open Check
open Ir (Datum Machine Root World)

namespace Lowering

open Ir (Build Builder State)

/-- Every variable that the table knows is at its root, which is there. -/
def Rooted (m : Machine) (k : Nat) (roots : String → Root) (g : SymbolTable) (n : Nat) (s : State) :
    Prop :=
  ∀ name symbol address, g.lookup? name = some symbol → symbol.storage = some (.address address) →
    m.Holds n s address (.address (roots name) []) ∧ (Datum.address (roots name) []).Belongs k

variable {m : Machine} {k n n' : Nat} {roots : String → Root} {c g : SymbolTable} {b : Builder}
  {s s' : State} {w : World}

theorem Rooted.later (h : Rooted m k roots g n s) (hs : s.Later n n' s') :
    Rooted m k roots g n' s' := fun name symbol address hname hstorage =>
  (h name symbol address hname hstorage).imp_left (·.later hs)

theorem variablePlace_holds (hs : Stored c g) (hv : Rooted m k roots g n s) {name : String}
    (hname : (Typing.variableTy? c name).isSome = true) :
    ∃ address t, variablePlace g name = pure (.whole address t) ∧
      Typing.variableTy? c name = some t ∧
      HoldsPlace m k n s (.whole address t) (Meaning.varPlace c roots name) := by
  obtain ⟨t, ht⟩ := Option.isSome_iff_exists.mp hname
  obtain ⟨symbol, v, address, hsymbol, -, -, hstorage, hplace⟩ := hs.variablePlace_eq ht
  obtain ⟨haddress, hroot⟩ := hv name symbol address hsymbol hstorage
  refine ⟨address, t, hplace, ht, ?_⟩
  rw [Meaning.varPlace, ht]
  exact .whole haddress hroot

theorem filterMap_of_mapM {f : Nat → Option Nat} {xs ys : List Nat} (h : xs.mapM f = some ys) :
    xs.filterMap f = ys := by
  have hall := forall₂_of_mapM h
  clear h
  induction hall with
  | nil => rfl
  | cons hy _ ih => rw [List.filterMap_cons, hy, ih]

/-- Lanes are selected from a place that has them. -/
theorem select_holds {p : Place} {q : Meaning.Place} (field : String) {mask : List Nat}
    (hp : HoldsPlace m k n s p q) (hvec : p.ty.isVector = true)
    (hlt : ∀ lane ∈ mask, lane < p.ty.lanes) :
    ∃ p', p.select field mask = pure p' ∧ HoldsPlace m k n s p' (q.select mask) ∧
      p'.ty = Swizzle.resultTy mask.length := by
  cases hp with
  | whole ha hd => exact ⟨_, rfl, .lanes ha hd, rfl⟩
  | @lanes address baseTy selected d ha hd =>
    rw [Place.ty] at hvec hlt
    rw [Swizzle.lanes_resultTy (Ty.ne_error_of_isVector hvec)] at hlt
    obtain ⟨composed, hcomposed, hlength⟩ := mapM_getElem?_isSome hlt
    refine ⟨.lanes address baseTy composed, by simp [Place.select, orFault, hcomposed], ?_, ?_⟩
    · rw [Meaning.Place.select, filterMap_of_mapM hcomposed]
      exact .lanes ha hd
    · rw [Place.ty, hlength]

/-- A subscript is the place of an element of the array that a variable holds. -/
theorem subscript_realizes (hs : Stored c g) (hv : Rooted m k roots g b.nextTemp s) {span : Span}
    {base position : Expr} (hc : Clean c (.index span base position)) (hne : typeOf c base ≠ .error)
    (hposition : Realizes m k (expr g position) (Meaning.expr m c roots position) b s w
      fun n s a d => HoldsTyped m n s a .int d) :
    Realizes m k (placeOf g (.index span base position))
      (Meaning.placeOf m c roots (.index span base position)) b s w
      fun n s p q => HoldsPlace m k n s p q ∧ p.ty = typeOf c (.index span base position) := by
  obtain ⟨hcb, -, -, hsome⟩ := clean_index.mp hc
  obtain ⟨element, hindex⟩ := Option.isSome_iff_exists.mp hsome
  obtain ⟨hvar, helement⟩ := index?_eq_some hindex hne
  have htypeOf : typeOf c (.index span base position) = element := by
    rw [typeOf, hindex, Option.getD_some]
  cases base with
  | var varSpan name =>
    obtain ⟨address, t, hplace, hty, hholds⟩ := variablePlace_holds hs hv (clean_var.mp hcb)
    have ht : t.element? = some element := by
      rw [← helement, typeOf, hty, Option.getD_some]
    rw [placeOf, Meaning.placeOf, placeOf, Meaning.placeOf, hplace, pure_bind, pure_bind,
      Place.elementTy, ht, pure_bind, htypeOf]
    rw [Meaning.varPlace, hty] at hholds ⊢
    cases hholds with
    | whole ha hd =>
      refine hposition.bind fun a i b₁ s₁ w₁ h₁ hi => ?_
      rw [Meaning.Place.element, Option.getD_some, ht, Option.getD_some]
      exact elementPlace_realizes element (ha.later h₁) hd hi
  | _ => exact hvar.elim

theorem expr_index (g : SymbolTable) (span : Span) (base position : Expr) :
    expr g (.index span base position) = placeOf g (.index span base position) >>= Place.load := by
  simp [expr, placeOf]

theorem Meaning.expr_index (span : Span) (base position : Expr) :
    Meaning.expr m c roots (.index span base position) =
      Meaning.placeOf m c roots (.index span base position) >>= Meaning.Place.load := by
  simp [Meaning.expr, Meaning.placeOf]

theorem any_error_typesOf {es : List Expr} (h : Expr.AllEverywhere (typeOf c · ≠ .error) es) :
    (typesOf c es).any (· == .error) = false := by
  induction es with
  | nil => rfl
  | cons e rest ih =>
    rw [typesOf, List.any_cons, ih h.2, Bool.or_false, beq_eq_false_iff_ne]
    exact h.1.self

/-- No expression in it is of type `error`. -/
abbrev HasTypes (c : SymbolTable) (e : Expr) : Prop :=
  e.Everywhere (typeOf c · ≠ .error)

mutual

/-- The code of a clean expression comes to what the expression means. -/
theorem expr_realizes (hs : Stored c g) (hd : Declared c) {e : Expr} (hc : Clean c e)
    (ht : HasTypes c e) {b : Builder} {s : State} {w : World}
    (hv : Rooted m k roots g b.nextTemp s) :
    Realizes m k (expr g e) (Meaning.expr m c roots e) b s w
      fun n s a d => HoldsTyped m n s a (typeOf c e) d := by
  match e with
  | .int .. | .float .. | .bool .. =>
    rw [expr, Meaning.expr]
    exact .pure ⟨rfl, .constant rfl rfl⟩
  | .var span name =>
    obtain ⟨address, t, hplace, hty, hholds⟩ := variablePlace_holds hs hv (clean_var.mp hc)
    have htypeOf : typeOf c (.var span name) = t := by simp [typeOf, hty]
    rw [expr, Meaning.expr, hplace, pure_bind, htypeOf]
    exact load_realizes hholds
  | .binary span op left right =>
    obtain ⟨hcl, hcr, hsome⟩ := clean_binary.mp hc
    obtain ⟨r, hop⟩ := Option.isSome_iff_exists.mp hsome
    have htypeOf : typeOf c (.binary span op left right) = r := by simp [typeOf, hop]
    rw [expr, Meaning.expr, htypeOf]
    refine (expr_realizes hs hd hcl ht.2.1 hv).bind fun a d b₁ s₁ w₁ h₁ ha => ?_
    refine (expr_realizes hs hd hcr ht.2.2 (hv.later h₁)).bind fun a' d' b₂ s₂ w₂ h₂ ha' => ?_
    exact .of_givesTyped (operation_gives hop (htypeOf ▸ ht.1) ht.2.1.self ht.2.2.self
      (ha.later h₂) ha')
  | .unary span op operand =>
    obtain ⟨hco, hwritable, hsome⟩ := clean_unary.mp hc
    obtain ⟨r, hop⟩ := Option.isSome_iff_exists.mp hsome
    have htypeOf : typeOf c (.unary span op operand) = r := by simp [typeOf, hop]
    have hne : r ≠ .error := htypeOf ▸ ht.1
    rw [htypeOf]
    cases op with
    | plus | minus =>
      obtain ⟨rfl, harith⟩ := arithmeticOperand?_eq_some hop hne
      rw [expr, Meaning.expr]
      refine (expr_realizes hs hd hco ht.2 hv).bind fun a d b₁ s₁ w₁ h₁ ha => ?_
      dsimp only
      rw [← signed_eq_computed]
      exact .of_givesTyped (signed_gives _ harith ha)
    | not =>
      obtain ⟨hoperand, rfl⟩ : typeOf c operand = .bool ∧ r = .bool := by
        simp only [Typing.unary?] at hop
        grind
      rw [expr, Meaning.expr]
      refine (expr_realizes hs hd hco ht.2 hv).bind fun a d b₁ s₁ w₁ h₁ ha => ?_
      exact .of_givesTyped (negated_gives (hoperand ▸ ha))
    | step direction =>
      obtain ⟨rfl, harith⟩ := arithmeticOperand?_eq_some hop hne
      obtain ⟨root, hroot, -⟩ := hwritable direction rfl
      rw [expr, Meaning.expr]
      refine (placeOf_realizes hs hd hroot hco ht.2 hv).bind fun p q b₁ s₁ w₁ h₁ hp => ?_
      rw [← hp.2] at harith ⊢
      exact step_realizes _ _ hp.1 harith
  | .assign span op target value =>
    obtain ⟨hct, hcv, ⟨root, hroot, -⟩, hsome⟩ := clean_assign.mp hc
    have hknown := isUnknownVariable_of_clean hct
    obtain ⟨r, hop⟩ := Option.isSome_iff_exists.mp (hsome hknown)
    have htypeOf : typeOf c (.assign span op target value) = r := by simp [typeOf, hknown, hop]
    have hne : r ≠ .error := htypeOf ▸ ht.1
    obtain ⟨rfl, -⟩ := assign?_eq_some hop hne
    rw [expr, Meaning.expr, htypeOf]
    refine (placeOf_realizes hs hd hroot hct ht.2.1 hv).bind fun p q b₁ s₁ w₁ h₁ hp => ?_
    obtain ⟨hp, hpty⟩ := hp
    rw [← hpty] at hne
    cases op with
    | plain =>
      have hsame : typeOf c value = typeOf c target := by
        simp only [Typing.assign?] at hop
        grind
      refine (expr_realizes hs hd hcv ht.2.2 (hv.later h₁)).bind fun a d b₂ s₂ w₂ h₂ ha => ?_
      rw [hsame, ← hpty] at ha
      rw [← hpty]
      exact store_realizes (hp.later h₂) hne ha
    | compound op =>
      have hres : (typeOf c target).arithmeticResult? (typeOf c value) = some (typeOf c target) := by
        simp only [Typing.assign?] at hop
        grind
      refine (load_realizes hp).bind fun a d b₂ s₂ w₂ h₂ ha => ?_
      refine (expr_realizes hs hd hcv ht.2.2 (hv.later (h₁.trans h₂))).bind
        fun a' d' b₃ s₃ w₃ h₃ ha' => ?_
      rw [hpty] at ha
      refine Realizes.andThen (.of_givesTyped (arith_gives op hres ht.2.1.self (ha.later h₃) ha'))
        fun a b₄ s₄ h₄ ha => ?_
      rw [← hpty] at ha ⊢
      exact store_realizes (hp.later (h₂.trans (h₃.trans h₄))) hne ha
  | .stepAfter span direction operand =>
    obtain ⟨hco, ⟨root, hroot, -⟩, hsome⟩ := clean_stepAfter.mp hc
    obtain ⟨r, hop⟩ := Option.isSome_iff_exists.mp hsome
    have htypeOf : typeOf c (.stepAfter span direction operand) = r := by simp [typeOf, hop]
    obtain ⟨rfl, harith⟩ := arithmeticOperand?_eq_some hop (htypeOf ▸ ht.1)
    rw [expr, Meaning.expr, htypeOf]
    refine (placeOf_realizes hs hd hroot hco ht.2 hv).bind fun p q b₁ s₁ w₁ h₁ hp => ?_
    rw [← hp.2] at harith ⊢
    exact step_realizes _ _ hp.1 harith
  | .conditional span test ifTrue ifFalse =>
    obtain ⟨hct, htest, hctrue, hcfalse, hsome⟩ := clean_conditional.mp hc
    obtain ⟨ty, hcommon⟩ := Option.isSome_iff_exists.mp hsome
    have htypeOf : typeOf c (.conditional span test ifTrue ifFalse) = ty := by simp [typeOf, hcommon]
    have hbool : typeOf c test = .bool := htest.resolve_right ht.2.1.self
    rw [conditional_eq, Meaning.expr, hcommon, htypeOf]
    refine (expr_realizes hs hd hct ht.2.1 hv).bind fun a d b₁ s₁ w₁ h₁ ha => ?_
    rw [hbool] at ha
    refine Realizes.andThen (.of_gives (coerce_gives (.inl rfl) ha)) fun condition b₂ s₂ h₂ hcond => ?_
    rw [brought_self] at hcond
    exact branches_realizes hcond hcommon (htypeOf ▸ ht.1)
      (fun b' s' h => expr_realizes hs hd hctrue ht.2.2.1 (hv.later (h₁.trans (h₂.trans h))))
      (fun b' s' h => expr_realizes hs hd hcfalse ht.2.2.2 (hv.later (h₁.trans (h₂.trans h))))
  | .index span base position =>
    obtain ⟨-, hcp, hposition, -⟩ := clean_index.mp hc
    have hindex := expr_realizes (w := w) hs hd hcp ht.2.2 hv
    rw [hposition.resolve_right ht.2.2.self] at hindex
    rw [expr_index, Meaning.expr_index]
    refine (subscript_realizes hs hv hc ht.2.1.self hindex).bind fun p q b₁ s₁ w₁ h₁ hp => ?_
    rw [← hp.2]
    exact load_realizes hp.1
  | .field span base name =>
    obtain ⟨hcb, hissues⟩ := clean_field.mp hc
    obtain ⟨hvec, mask, hmask, -, hlt, hty⟩ := Swizzle.of_issues_eq_nil hissues ht.2.self
    have htypeOf : typeOf c (.field span base name) = Swizzle.resultTy mask.length := by
      rw [typeOf, hty]
    have hshape : (typeOf c base).isShaped = true := by simp [Ty.isShaped, hvec]
    rw [expr, Meaning.expr, maskOf, hmask, orFault, pure_bind, htypeOf]
    refine (expr_realizes hs hd hcb ht.2 hv).bind fun a d b₁ s₁ w₁ h₁ ha => ?_
    exact .of_givesTyped (selectFrom_gives hshape hlt ha)
  | .call span callee args =>
    obtain ⟨hca, f, hf, hlength, hargs⟩ := clean_call hc
    have htypeOf : typeOf c (.call span callee args) = f.returnTy := by simp [typeOf, hf, hlength]
    rw [expr, Meaning.expr, hs.function?_eq hf, pure_bind, hf, htypeOf]
    refine (actuals_realizes hs hd hlength hargs (fun v hv => ((hd.fn _ _ hf).2 v hv).1) hca ht.2
      hv).bind fun values ds b₁ s₁ w₁ h₁ hvalues => ?_
    exact callFn_realizes f f.name.name hvalues
  | .construct span target args =>
    obtain ⟨hca, hcon⟩ := clean_construct.mp hc
    have htypeOf : typeOf c (.construct span target args) = target := by
      rw [typeOf, Typing.construct?, if_pos hcon, Option.getD_some]
    rw [expr, Meaning.expr, htypeOf]
    refine (exprs_realizes hs hd hca ht.2 hv).bind fun values ds b₁ s₁ w₁ h₁ hvalues => ?_
    obtain ⟨hlength, hvalues⟩ := hvalues
    have hfst : ((typesOf c args).zip ds).map Prod.fst = typesOf c args :=
      List.map_fst_zip (by simp [hlength])
    rw [← hfst] at hcon
    refine .of_givesTyped (construct_gives ?_ hcon hvalues)
    rw [hfst]
    exact any_error_typesOf ht.2

theorem exprs_realizes (hs : Stored c g) (hd : Declared c) {es : List Expr} (hc : AllClean c es)
    (ht : Expr.AllEverywhere (typeOf c · ≠ .error) es) {b : Builder} {s : State} {w : World}
    (hv : Rooted m k roots g b.nextTemp s) :
    Realizes m k (exprs g es) (Meaning.exprs m c roots es) b s w fun n s values ds =>
      ds.length = es.length ∧ HoldAll m n s values ((typesOf c es).zip ds) := by
  match es with
  | [] =>
    rw [exprs, Meaning.exprs]
    exact .pure ⟨rfl, .nil⟩
  | e :: rest =>
    obtain ⟨hce, hcr⟩ := allClean_cons.mp hc
    rw [exprs, Meaning.exprs]
    refine (expr_realizes hs hd hce ht.1 hv).bind fun a d b₁ s₁ w₁ h₁ ha => ?_
    refine (exprs_realizes hs hd hcr ht.2 (hv.later h₁)).bind fun as ds b₂ s₂ w₂ h₂ has => ?_
    exact .pure ⟨congrArg (· + 1) has.1, .cons (ha.later h₂) has.2⟩

theorem actuals_realizes (hs : Stored c g) (hd : Declared c) {index : Nat} {formals : List VarDecl}
    {es : List Expr} (hlength : formals.length = es.length)
    (hargs : arguments index formals (typesOf c es) (es.map Expr.span) = [])
    (hformals : ∀ v ∈ formals, v.ty.isDeclarable = true) (hc : AllClean c es)
    (ht : Expr.AllEverywhere (typeOf c · ≠ .error) es) {b : Builder} {s : State} {w : World}
    (hv : Rooted m k roots g b.nextTemp s) :
    Realizes m k (actuals g formals es) (Meaning.actuals m c roots formals es) b s w
      fun n s values ds => List.Forall₂ (m.Holds n s) values ds := by
  match es, formals, hlength with
  | [], [], _ =>
    rw [actuals, Meaning.actuals]
    exact .pure .nil
  | e :: rest, formal :: formals, hlength =>
    obtain ⟨hce, hcr⟩ := allClean_cons.mp hc
    rw [typesOf, List.map_cons, arguments, List.append_eq_nil_iff] at hargs
    have hformal := Ty.ne_error_of_hasValues (Ty.hasValues_of_isDeclarable
      (hformals formal List.mem_cons_self))
    have hbecomes : (typeOf c e).becomes formal.ty := by
      apply becomes_of_convertsTo ?_ ht.1.self hformal
      simpa using hargs.1
    rw [actuals, Meaning.actuals]
    refine (expr_realizes hs hd hce ht.1 hv).bind fun a d b₁ s₁ w₁ h₁ ha => ?_
    refine Realizes.andThen (.of_gives (coerce_gives hbecomes ha)) fun v b₂ s₂ h₂ hvalue => ?_
    refine (actuals_realizes hs hd (Nat.succ.inj hlength) hargs.2
      (fun v hv => hformals v (List.mem_cons_of_mem _ hv)) hcr ht.2
      (hv.later (h₁.trans h₂))).bind fun values ds b₃ s₃ w₃ h₃ hvalues => ?_
    exact .pure (.cons (hvalue.later h₃) hvalues)

theorem placeOf_realizes (hs : Stored c g) (hd : Declared c) {e : Expr} {root : Ident}
    (hroot : rootVariable? e = some root) (hc : Clean c e) (ht : HasTypes c e) {b : Builder}
    {s : State} {w : World} (hv : Rooted m k roots g b.nextTemp s) :
    Realizes m k (placeOf g e) (Meaning.placeOf m c roots e) b s w
      fun n s p q => HoldsPlace m k n s p q ∧ p.ty = typeOf c e := by
  match e with
  | .var span name =>
    obtain ⟨address, t, hplace, hty, hholds⟩ := variablePlace_holds hs hv (clean_var.mp hc)
    have htypeOf : typeOf c (.var span name) = t := by simp [typeOf, hty]
    rw [placeOf, Meaning.placeOf, hplace, htypeOf]
    exact .pure ⟨hholds, rfl⟩
  | .index span base position =>
    obtain ⟨-, hcp, hposition, -⟩ := clean_index.mp hc
    have hindex := expr_realizes (w := w) hs hd hcp ht.2.2 hv
    rw [hposition.resolve_right ht.2.2.self] at hindex
    exact subscript_realizes hs hv hc ht.2.1.self hindex
  | .field span base name =>
    obtain ⟨hcb, hissues⟩ := clean_field.mp hc
    obtain ⟨hvec, mask, hmask, -, hlt, hty⟩ := Swizzle.of_issues_eq_nil hissues ht.2.self
    have htypeOf : typeOf c (.field span base name) = Swizzle.resultTy mask.length := by
      rw [typeOf, hty]
    rw [placeOf, Meaning.placeOf, maskOf, hmask, orFault, pure_bind, htypeOf]
    refine (placeOf_realizes hs hd (e := base) hroot hcb ht.2 hv).bind fun p q b₁ s₁ w₁ h₁ hp => ?_
    obtain ⟨hp, hpty⟩ := hp
    rw [← hpty] at hvec hlt
    obtain ⟨p', hselect, hp', hty'⟩ := select_holds name.name hp hvec hlt
    rw [hselect]
    exact .pure ⟨hp', hty'⟩

end

end Lowering

open Lowering

/-! ## Programs -/

theorem Site.Agrees.stored {σ : Site} (h : σ.Agrees) : Stored σ.checked σ.lowered where
  decl := h.decl_lowered
  address name s v hs hv := by
    rw [h.lowered, Option.map_eq_some_iff] at hs
    obtain ⟨binding, -, rfl⟩ := hs
    cases binding with
    | var v slot => exact ⟨slot, rfl⟩
    | fn f => cases hv
  generated name s f hs hf := by
    rw [h.lowered, Option.map_eq_some_iff] at hs
    obtain ⟨binding, -, rfl⟩ := hs
    cases binding with
    | var v slot => cases hf
    | fn f' =>
      cases hf
      rfl

/-- Every variable in scope is at its root, which is there. -/
def Site.Rooted (σ : Site) (m : Machine) (roots : String → Root) (s : Ir.State) : Prop :=
  ∀ name v slot, σ.scopes.find? name = some (.var v slot) →
    m.read s slot = .address (roots name) [] ∧
      (Datum.address (roots name) []).Belongs s.world.slots.length

theorem Site.Agrees.rooted {σ : Site} (h : σ.Agrees) {m : Machine} {roots : String → Root}
    {s : Ir.State} {n : Nat} (hle : σ.builder.nextTemp ≤ n) (hs : σ.Rooted m roots s) :
    Lowering.Rooted m s.world.slots.length roots σ.lowered n s := by
  intro name symbol address hname hstorage
  rw [h.lowered, Option.map_eq_some_iff] at hname
  obtain ⟨binding, hfind, rfl⟩ := hname
  cases binding with
  | var v slot =>
    cases hstorage
    obtain ⟨hread, hroot⟩ := hs name v address hfind
    have hbelow : ∀ t, address.temp? = some t → t < n := fun t ht =>
      Nat.lt_of_lt_of_le (h.slots name v address t hfind ht) hle
    exact ⟨⟨hbelow, hread⟩, hroot⟩
  | fn f => cases hstorage

/-- Wherever the code of an expression is put from here on, and whatever the variables hold: it is
lowered, and running its code from the insertion point before to the one behind gives the datum that
the expression means, and leaves the variables and the calls as the expression means them. -/
def Site.Preserves (σ : Site) (e : Expr) : Prop :=
  ∀ (m : Machine) (roots : String → Root) (b : Ir.Builder) (s : Ir.State), b.IsOpen →
    σ.builder.nextTemp ≤ b.nextTemp → σ.Rooted m roots s →
    ∃ value b' s', Lowering.expr σ.lowered e b = .ok value b' ∧ Carries m b s b' s' ∧
      HoldsTyped m b'.nextTemp s' value (typeOf σ.checked e)
        (Meaning.expr m σ.checked roots e s.world).1 ∧
      (Meaning.expr m σ.checked roots e s.world).2.Underlies s.world.slots.length s'.world

/-- In a program that the checker finds nothing wrong with, the code of every expression that the
lowering comes to, and of every expression within one, does what the expression means, if no
expression in it is of type `error`. -/
theorem Program.lower_preserves {source : String} {p : Program} (hp : ofText? source = .ok p)
    (hclean : p.findings = []) (moduleName : String) :
    p.EachSite (∃ fault, p.lower moduleName = .error fault)
      (fun σ e => e.Everywhere fun e => HasTypes σ.checked e → σ.Preserves e) moduleName := by
  apply Program.eachSite_of_agrees ?_ hclean
  · intro fault l hfault
    exact ⟨fault, by simp [Program.lower, hfault]⟩
  · intro σ e hσ hd hc
    refine hc.everywhere.imp fun e hc ht m roots b s hb hle hs => ?_
    obtain ⟨value, b', s', hrun, hcarries, hworld, hvalue⟩ :=
      expr_realizes hσ.stored (hd (asRead_of_ofText hp)) hc ht (hσ.rooted hle hs) hb
        (.refl s.world)
    exact ⟨value, b', s', hrun, hcarries, hvalue, hworld⟩

/-- A conditional whose arm is a vector that a number is written into, and a call with what that
gives. -/
theorem Program.lower_preserves_of_conditional : ∃ p,
    ofText? "vec2 v; float f(int n) { return n > 1 ? (v.yx = vec2(n)).x : f(n++) * 2; }" = .ok p ∧
      p.findings = [] ∧ p.EachSite (∃ fault, p.lower "m" = .error fault)
        (fun σ e => e.Everywhere fun e => HasTypes σ.checked e → σ.Preserves e) "m" := by
  obtain ⟨p, hp, hclean⟩ : ∃ p,
      ofText? "vec2 v; float f(int n) { return n > 1 ? (v.yx = vec2(n)).x : f(n++) * 2; }" = .ok p ∧
        p.findings = [] :=
    ⟨_, by cbv, by cbv⟩
  exact ⟨p, hp, hclean, lower_preserves hp hclean "m"⟩

end ShaderLang
