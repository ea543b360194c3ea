import ShaderLang.Proofs.Everywhere
import ShaderLang.Proofs.ExprTotal
import ShaderLang.Proofs.TypedStraight

/-!
# Well-typed code for expressions

The code of a clean expression type-checks, and its value has the intermediate type of the source
type that the lowering carries beside it (`expr_keeps`). Clean is needed for the calls, which pass as
many arguments as the function takes, and for what is written to, of which only lanes that are there
are selected. Elsewhere a field may select lanes of anything, so its name must be short enough for
the selection to have a type.
-/

namespace ShaderLang

open Check Lowering

open Ir (Build Inst Kind TypingEnv)

variable {env : TypingEnv} {kinds kinds' : List Kind} {c g : SymbolTable}

/-- The variables of a table have addresses that point to their types, and its functions are known
to the module with their types. -/
structure SymbolTable.Typed (env : TypingEnv) (kinds : List Kind) (g : SymbolTable) : Prop where
  address : ∀ name s v a, g.lookup? name = some s → s.decl = .var v →
    s.storage = some (.address a) → PointsTo env kinds a v.ty
  function : ∀ name s f, g.lookup? name = some s → s.decl = .fn f →
    env.interface.functions f.name.name = some (f.formals.map fun v => v.ty.toIr, f.returnTy.toIr)

namespace SymbolTable.Typed

theorem mono (h : kinds <+: kinds') (ht : g.Typed env kinds) : g.Typed env kinds' where
  address name s v a hs hv ha := (ht.address name s v a hs hv ha).mono h
  function := ht.function

theorem push (h : g.Typed env kinds) : g.push.Typed env kinds where
  address := by simpa using h.address
  function := by simpa using h.function

theorem declareVar (h : g.Typed env kinds) {v : VarDecl} {a : Ir.Value}
    (ha : PointsTo env kinds a v.ty) :
    (g.declare ((Symbol.ofVar v).withStorage (.address a))).Typed env kinds where
  address name s v' a' hs hv' ha' := by
    rw [SymbolTable.lookup?_declare] at hs
    split at hs
    · cases hs
      cases hv'
      cases ha'
      exact ha
    · exact h.address name s v' a' hs hv' ha'
  function name s f hs hf := by
    rw [SymbolTable.lookup?_declare] at hs
    split at hs
    · cases hs
      cases hf
    · exact h.function name s f hs hf

theorem declareFn (h : g.Typed env kinds) {f : FnDecl} (hf : env.interface.functions f.name.name =
    some (f.formals.map fun v => v.ty.toIr, f.returnTy.toIr)) :
    (g.declare ((Symbol.ofFn f).withStorage (.function f.name.name))).Typed env kinds where
  address name s v a hs hv ha := by
    rw [SymbolTable.lookup?_declare] at hs
    split at hs
    · cases hs
      cases hv
    · exact h.address name s v a hs hv ha
  function name s f' hs hf' := by
    rw [SymbolTable.lookup?_declare] at hs
    split at hs
    · cases hs
      cases hf'
      exact hf
    · exact h.function name s f' hs hf'

end SymbolTable.Typed

namespace Lowering

/-! ## Places -/

theorem Keeps.of_fails {α : Type} {x : Emit α} {Q : List Kind → α → Prop}
    (h : ∀ b, Emits x b False fun _ _ => True) : Keeps env kinds x Q := by
  intro b a b' _ hx
  exact ((h b).ok_imp hx).1.elim

theorem elementTy_keeps {place : Place} (h : place.Typed env kinds) :
    Keeps env kinds place.elementTy fun k r =>
      ∃ length, PointsTo env k r.1 (.array r.2 length) ∧ place.ty = .array r.2 length := by
  cases place with
  | lanes address baseTy selected => exact .throw _
  | whole address ty =>
    unfold Place.elementTy
    cases ty with
    | array element length => exact .pure ⟨length, h, rfl⟩
    | _ => exact .throw _

theorem select_keeps (field : String) {mask : List Nat} {place : Place}
    (h : place.Typed env kinds) (hvec : place.ty.isVector = true)
    (hmask : Selects place.ty.lanes mask) :
    Keeps env kinds (place.select field mask) fun k p =>
      p.Typed env k ∧ p.ty = Swizzle.resultTy mask.length := by
  cases place with
  | whole address ty =>
    have hshaped : ty.isShaped = true := by
      rw [Ty.isShaped, Bool.or_eq_true]
      exact .inl hvec
    exact .pure ⟨⟨h, hshaped, hmask⟩, rfl⟩
  | lanes address baseTy selected =>
    refine Keeps.bind (P := fun k composed => k = kinds ∧ mask.mapM (selected[·]?) = some composed)
      (Keeps.orFault fun _ hsome => ⟨rfl, hsome⟩) ?_
    rintro _ composed _ ⟨rfl, hcomposed⟩
    obtain ⟨hlength, hmem⟩ := length_mapM_getElem? hcomposed
    obtain ⟨ha, hs, hl⟩ := h
    refine .pure ⟨⟨ha, hs, hlength ▸ hmask.pos, hlength ▸ hmask.le, ?_⟩, ?_⟩
    · intro lane hlane
      exact hl.lt lane (hmem lane hlane)
    · rw [Place.ty, hlength]

/-! ## Conditionals -/

theorem endArm_keeps {block joined : Nat} {slot : Ir.Value} {ty : Ty} {value : TypedValue}
    (hslot : PointsTo env kinds slot ty) (hv : value.Typed env kinds) :
    Keeps env kinds (endArm block joined slot ty value) fun _ _ => True := by
  refine Keeps.position_bind ?_
  refine Keeps.bind (coerce_keeps hv ty) ?_
  intro kinds₁ value hmore₁ hvalue
  refine Keeps.bind (Keeps.store (hslot.mono hmore₁) hvalue) ?_
  intro kinds₂ _ _ _
  exact Keeps.terminate (.branch _) trivial

theorem joinArms_keeps {origin trueEnd falseEnd joined : Nat} {ifTrue ifFalse : TypedValue}
    (ht : ifTrue.Typed env kinds) (hf : ifFalse.Typed env kinds) :
    Keeps env kinds (joinArms origin trueEnd falseEnd joined ifTrue ifFalse) fun k a =>
      a.Typed env k := by
  unfold joinArms
  dsimp only
  split
  · refine Keeps.position_bind ?_
    refine Keeps.terminate_bind (.branch _) ?_
    refine Keeps.position_bind ?_
    refine Keeps.terminate_bind (.branch _) ?_
    refine Keeps.position_bind ?_
    exact .pure (.undefined _)
  · refine Keeps.bind Keeps.allocaIn ?_
    intro kinds₁ slot hmore₁ hslot
    refine Keeps.bind (endArm_keeps hslot (ht.mono hmore₁)) ?_
    intro kinds₂ _ hmore₂ _
    refine Keeps.bind (endArm_keeps (hslot.mono hmore₂) (hf.mono (hmore₁.trans hmore₂))) ?_
    intro kinds₃ _ hmore₃ _
    refine Keeps.position_bind ?_
    refine Keeps.bind (Keeps.load (hslot.mono (hmore₂.trans hmore₃))) ?_
    intro kinds₄ value _ hvalue
    exact .pure hvalue

theorem currentBlockD_keeps {default : Nat} :
    Keeps env kinds (currentBlockD default) fun k _ => k = kinds :=
  Keeps.get_bind fun _ => .pure rfl

/-! ## Expressions -/

/-- The letters of a short field name are a selection of a vector with four lanes. -/
theorem selects_of_mask? {field : String} {mask : List Nat} (h : Swizzle.mask? field = some mask)
    (hne : field ≠ "") (hshort : field.length ≤ 4) : Selects 4 mask := by
  obtain ⟨-, hlength, -, hlt⟩ := Swizzle.mask?_eq_some h
  exact ⟨Swizzle.resultTy_length_ne_zero h hne, hlength ▸ hshort, hlt⟩

theorem forall₂_kinds {formals : List VarDecl} {actuals : List Ir.Value} :
    List.Forall₂ (fun (v : Ir.Value) t => v.HasKind env kinds (.value t)) actuals
      (formals.map fun v => v.ty.toIr) ↔
    List.Forall₂ (fun v formal => HasTy env kinds v formal.ty) actuals formals := by
  rw [List.forall₂_map_right_iff]

mutual

theorem expr_keeps {kinds : List Kind} (ht : g.Typed env kinds) (hs : Stored c g)
    (hd : Declared c) {e : Expr} (hr : e.AsRead) (hc : Clean c e) (hshort : e.Everywhere Expr.HasShortField) :
    Keeps env kinds (expr g e) fun k a => a.Typed env k := by
  match e with
  | .int _ n => exact .pure (.int n)
  | .float _ x => exact .pure (.float x)
  | .bool _ b => exact .pure (.bool b)
  | .var _ name =>
    obtain ⟨t, hty⟩ := Option.isSome_iff_exists.mp (clean_var.mp hc)
    obtain ⟨s, v, a, hlookup, hdecl, rfl, ha, hplace⟩ := hs.variablePlace_eq hty
    have haddress := ht.address name.name s v a hlookup hdecl ha
    rw [expr, hplace, pure_bind]
    exact Place.load_keeps haddress
  | .binary _ op left right =>
    obtain ⟨hcl, hcr, -⟩ := clean_binary.mp hc
    obtain ⟨-, hshortl, hshortr⟩ := hshort
    rw [expr]
    refine Keeps.bind (expr_keeps ht hs hd hr.1 hcl hshortl) ?_
    intro kinds₁ lhs hmore₁ hlhs
    refine Keeps.bind (expr_keeps (ht.mono hmore₁) hs hd hr.2 hcr hshortr) ?_
    intro kinds₂ rhs hmore₂ hrhs
    exact binary_keeps op (hlhs.mono hmore₂) hrhs
  | .unary _ op operand =>
    obtain ⟨hco, hwritable, hsome⟩ := clean_unary.mp hc
    replace hr : operand.AsRead := hr
    cases op with
    | plus | minus =>
      rw [expr]
      refine Keeps.bind (expr_keeps ht hs hd hr hco hshort.2) ?_
      intro kinds₁ value _ hvalue
      exact signed_keeps _ hvalue
    | not =>
      rw [expr]
      refine Keeps.bind (expr_keeps ht hs hd hr hco hshort.2) ?_
      intro kinds₁ value _ hvalue
      exact negated_keeps hvalue
    | step direction =>
      rw [expr]
      refine Keeps.bind (placeOf_keeps ht hs hd hr hco hshort.2) ?_
      intro kinds₁ place _ ⟨hplace, _⟩
      exact Place.step_keeps _ _ hplace
  | .stepAfter _ direction operand =>
    obtain ⟨hco, -, -⟩ := clean_stepAfter.mp hc
    rw [expr]
    refine Keeps.bind (placeOf_keeps ht hs hd hr hco hshort.2) ?_
    intro kinds₁ place _ ⟨hplace, _⟩
    exact Place.step_keeps _ _ hplace
  | .assign _ op target value =>
    obtain ⟨hct, hcv, -, -⟩ := clean_assign.mp hc
    obtain ⟨-, hshortt, hshortv⟩ := hshort
    rw [expr]
    refine Keeps.bind (placeOf_keeps ht hs hd hr.1 hct hshortt) ?_
    intro kinds₁ place hmore₁ ⟨hplace, _⟩
    cases op with
    | plain =>
      refine Keeps.bind (expr_keeps (ht.mono hmore₁) hs hd hr.2 hcv hshortv) ?_
      intro kinds₂ result hmore₂ hresult
      exact Place.store_keeps (hplace.mono hmore₂) hresult
    | compound op =>
      refine Keeps.bind (Place.load_keeps hplace) ?_
      intro kinds₂ current hmore₂ hcurrent
      refine Keeps.bind (expr_keeps (ht.mono (hmore₁.trans hmore₂)) hs hd hr.2 hcv hshortv) ?_
      intro kinds₃ rhs hmore₃ hrhs
      refine Keeps.bind (arith_keeps op (hcurrent.mono hmore₃) hrhs) ?_
      intro kinds₄ result hmore₄ hresult
      exact Place.store_keeps (hplace.mono (hmore₂.trans (hmore₃.trans hmore₄))) hresult
  | .conditional _ test ifTrue ifFalse =>
    obtain ⟨hctest, -, hctrue, hcfalse, -⟩ := clean_conditional.mp hc
    obtain ⟨-, hshorttest, hshorttrue, hshortfalse⟩ := hshort
    rw [expr]
    refine Keeps.bind (expr_keeps ht hs hd hr.1 hctest hshorttest) ?_
    intro kinds₁ condition hmore₁ hcondition
    refine Keeps.bind (coerce_keeps hcondition .bool) ?_
    intro kinds₂ condition hmore₂ hcondition
    replace ht := ht.mono (hmore₁.trans hmore₂)
    refine Keeps.get_bind fun b => ?_
    refine Keeps.bind (P := fun k _ => k = kinds₂) (Keeps.orFault fun _ _ => rfl) ?_
    rintro _ origin - rfl
    refine Keeps.createBlock_bind fun trueBlock => ?_
    refine Keeps.createBlock_bind fun falseBlock => ?_
    refine Keeps.createBlock_bind fun joined => ?_
    refine Keeps.terminate_bind (.condBranch hcondition) ?_
    refine Keeps.position_bind ?_
    refine Keeps.bind (expr_keeps ht hs hd hr.2.1 hctrue hshorttrue) ?_
    intro kinds₃ trueValue hmore₃ htrue
    refine Keeps.bind currentBlockD_keeps ?_
    rintro _ trueEnd - rfl
    refine Keeps.position_bind ?_
    refine Keeps.bind (expr_keeps (ht.mono hmore₃) hs hd hr.2.2 hcfalse hshortfalse) ?_
    intro kinds₄ falseValue hmore₄ hfalse
    refine Keeps.bind currentBlockD_keeps ?_
    rintro _ falseEnd - rfl
    exact joinArms_keeps (htrue.mono hmore₄) hfalse
  | .index _ base position =>
    obtain ⟨hcb, hcp, -, -⟩ := clean_index.mp hc
    obtain ⟨-, hshortb, hshortp⟩ := hshort
    rw [expr]
    refine Keeps.bind (placeOf_keeps ht hs hd hr.1 hcb hshortb) ?_
    intro kinds₁ place hmore₁ ⟨hplace, _⟩
    refine Keeps.bind (elementTy_keeps hplace) ?_
    rintro kinds₂ ⟨address, ty⟩ hmore₂ ⟨length, haddress, -⟩
    refine Keeps.bind (expr_keeps (ht.mono (hmore₁.trans hmore₂)) hs hd hr.2 hcp hshortp) ?_
    intro kinds₃ index hmore₃ hindex
    refine Keeps.bind (elementPlace_keeps (haddress.mono hmore₃) hindex) ?_
    intro kinds₄ place _ ⟨hplace, _⟩
    exact Place.load_keeps hplace
  | .field _ base name =>
    obtain ⟨hcb, -⟩ := clean_field.mp hc
    obtain ⟨hname, hshortb⟩ := hshort
    rw [expr]
    refine Keeps.bind (P := fun k lanes => k = kinds ∧ Selects 4 lanes) (Keeps.orFault ?_) ?_
    · intro lanes hlanes
      exact ⟨rfl, selects_of_mask? hlanes hr.2 hname⟩
    · rintro _ lanes - ⟨rfl, hlanes⟩
      refine Keeps.bind (expr_keeps ht hs hd hr.1 hcb hshortb) ?_
      intro kinds₁ value _ hvalue
      exact selectFrom_keeps hvalue hlanes
  | .call _ callee arguments =>
    obtain ⟨hca, f, hf, hlength, -⟩ := clean_call hc
    obtain ⟨s, hlookup, hdecl⟩ := hs.exists_fn hf
    rw [expr, hs.function?_eq hf, pure_bind]
    refine Keeps.bind (actuals_keeps ht hs hd hr hca hshort.2 hlength) ?_
    intro kinds₁ values _ hvalues
    exact callFn_keeps (ht.function callee.name s f hlookup hdecl) (hd.fn _ _ hf).1
      (forall₂_kinds.mpr hvalues)
  | .construct _ target arguments =>
    obtain ⟨hca, -⟩ := clean_construct.mp hc
    rw [expr]
    refine Keeps.bind (exprs_keeps ht hs hd hr.2 hca hshort.2) ?_
    intro kinds₁ values _ hvalues
    exact construct_keeps target hvalues

theorem exprs_keeps {kinds : List Kind} (ht : g.Typed env kinds) (hs : Stored c g)
    (hd : Declared c) {es : List Expr} (hr : Expr.AllAsRead es) (hc : AllClean c es)
    (hshort : Expr.AllEverywhere Expr.HasShortField es) :
    Keeps env kinds (exprs g es) fun k as => ∀ a ∈ as, a.Typed env k := by
  match es with
  | [] =>
    rw [exprs]
    exact .pure (by simp)
  | e :: rest =>
    obtain ⟨hce, hcr⟩ := allClean_cons.mp hc
    rw [exprs]
    refine Keeps.bind (expr_keeps ht hs hd hr.1 hce hshort.1) ?_
    intro kinds₁ value hmore₁ hvalue
    refine Keeps.bind (exprs_keeps (ht.mono hmore₁) hs hd hr.2 hcr hshort.2) ?_
    intro kinds₂ values hmore₂ hvalues
    refine .pure ?_
    intro a ha
    rcases List.mem_cons.mp ha with rfl | ha
    · exact hvalue.mono hmore₂
    · exact hvalues a ha

theorem actuals_keeps {kinds : List Kind} (ht : g.Typed env kinds) (hs : Stored c g)
    (hd : Declared c) {formals : List VarDecl} {es : List Expr} (hr : Expr.AllAsRead es) (hc : AllClean c es)
    (hshort : Expr.AllEverywhere Expr.HasShortField es) (hlength : formals.length = es.length) :
    Keeps env kinds (actuals g formals es) fun k vs =>
      List.Forall₂ (fun v formal => HasTy env k v formal.ty) vs formals := by
  match es, formals, hlength with
  | [], [], _ =>
    rw [actuals]
    exact .pure .nil
  | e :: rest, formal :: formals, hlength =>
    obtain ⟨hce, hcr⟩ := allClean_cons.mp hc
    rw [actuals]
    refine Keeps.bind (expr_keeps ht hs hd hr.1 hce hshort.1) ?_
    intro kinds₁ value hmore₁ hvalue
    refine Keeps.bind (coerce_keeps hvalue formal.ty) ?_
    intro kinds₂ actual hmore₂ hactual
    refine Keeps.bind (actuals_keeps (ht.mono (hmore₁.trans hmore₂)) hs hd hr.2 hcr hshort.2
      (Nat.succ.inj hlength)) ?_
    intro kinds₃ values hmore₃ hvalues
    exact .pure (.cons (hactual.mono hmore₃) hvalues)

/-- The place of a clean expression is of the type that the checker gives it. -/
theorem placeOf_keeps {kinds : List Kind} (ht : g.Typed env kinds) (hs : Stored c g)
    (hd : Declared c) {e : Expr} (hr : e.AsRead) (hc : Clean c e) (hshort : e.Everywhere Expr.HasShortField) :
    Keeps env kinds (placeOf g e) fun k place => place.Typed env k ∧ place.ty = typeOf c e := by
  match e with
  | .var _ name =>
    obtain ⟨t, hty⟩ := Option.isSome_iff_exists.mp (clean_var.mp hc)
    obtain ⟨s, v, a, hlookup, hdecl, rfl, ha, hplace⟩ := hs.variablePlace_eq hty
    have haddress := ht.address name.name s v a hlookup hdecl ha
    rw [placeOf, hplace]
    refine .pure ⟨haddress, ?_⟩
    rw [typeOf, hty]
    rfl
  | .index span base position =>
    cases hroot : rootVariable? base with
    | none =>
      have hbase : ∀ b, Emits (placeOf g (.index span base position)) b False fun _ _ => True :=
        fun b => placeOf_fails hroot
      exact .of_fails hbase
    | some root =>
      obtain ⟨hcb, hcp, -, -⟩ := clean_index.mp hc
      obtain ⟨-, helement⟩ := isVar_of_rootVariable? hd hr.1 hc hroot
      obtain ⟨-, hshortb, hshortp⟩ := hshort
      rw [placeOf]
      refine Keeps.bind (placeOf_keeps ht hs hd hr.1 hcb hshortb) ?_
      intro kinds₁ place hmore₁ ⟨hplace, hplaceTy⟩
      refine Keeps.bind (elementTy_keeps hplace) ?_
      rintro kinds₂ ⟨address, ty⟩ hmore₂ ⟨length, haddress, harray⟩
      refine Keeps.bind (expr_keeps (ht.mono (hmore₁.trans hmore₂)) hs hd hr.2 hcp hshortp) ?_
      intro kinds₃ index hmore₃ hindex
      refine (elementPlace_keeps (haddress.mono hmore₃) hindex).imp ?_
      intro _ p _ ⟨hp, hpTy⟩
      rw [← hplaceTy, harray] at helement
      exact ⟨hp, hpTy.trans (Option.some.inj helement)⟩
  | .field span base name =>
    cases hroot : rootVariable? base with
    | none =>
      have hbase : ∀ b, Emits (placeOf g (.field span base name)) b False fun _ _ => True :=
        fun b => placeOf_fails hroot
      exact .of_fails hbase
    | some root =>
      obtain ⟨hcb, hissues⟩ := clean_field.mp hc
      have hbase := hasValues_of_rootVariable? hd hr.1 hcb hroot
      obtain ⟨hvec, mask, hmask, hle, hlt, hty⟩ :=
        Swizzle.of_issues_eq_nil hissues (Ty.ne_error_of_hasValues hbase)
      rw [placeOf, maskOf, hmask]
      refine Keeps.bind (P := fun k lanes => k = kinds ∧ lanes = mask) (.pure ⟨rfl, rfl⟩) ?_
      rintro _ _ - ⟨rfl, rfl⟩
      refine Keeps.bind (placeOf_keeps ht hs hd hr.1 hcb hshort.2) ?_
      intro kinds₁ place _ ⟨hplace, hplaceTy⟩
      rw [← hplaceTy] at hvec hlt
      refine (select_keeps name.name hplace hvec
        ⟨Swizzle.resultTy_length_ne_zero hmask hr.2, hle, hlt⟩).imp ?_
      intro _ p _ hp
      exact ⟨hp.1, by rw [hp.2, typeOf, hty]⟩
  | .int .. | .float .. | .bool .. | .binary .. | .unary .. | .assign .. | .stepAfter ..
  | .conditional .. | .call .. | .construct .. => exact .throw _

end

end Lowering

end ShaderLang
