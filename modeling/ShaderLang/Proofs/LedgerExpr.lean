import ShaderLang.Proofs.ExprTotal
import ShaderLang.Proofs.LedgerStraight

/-!
# The code of expressions in a ledger

A clean expression writes only to places of variables that are not constant: that is what the checker
asks of the variable at the root of whatever is assigned to or stepped (`Check.Writable`). The address
of a place has the root of that variable's address, however many elements and lanes are selected
between them. So a ledger covers the code of the expression, if it knows the addresses of all
variables and leaves those of the others open (`Governed`).
-/

namespace ShaderLang

open Check Lowering
open Ir (Build Builder Ledger Rules)

variable {rules : Rules} {l l' : Ledger} {b : Builder} {c g : SymbolTable}

variable {reads : Prop}

/-- The ledger knows the addresses of the variables of a table, and those that are not constant may be
written. The names of its functions are names. -/
structure SymbolTable.Governed (reads : Prop) (l : Ledger) (g : SymbolTable) : Prop where
  address : ∀ name s v a, g.lookup? name = some s → s.decl = .var v →
    s.storage = some (.address a) → l.Knows a ∧ (v.isConst = false → l.Opens a)
  function : reads → ∀ name s f, g.lookup? name = some s → s.decl = .fn f →
    Token.IsName f.name.name

namespace SymbolTable.Governed

theorem mono (h : g.Governed reads l) (hl : l.Extends l') : g.Governed reads l' where
  address name s v a hs hv ha :=
    let ⟨hknows, hopens⟩ := h.address name s v a hs hv ha
    ⟨hknows.mono hl, fun hconst => (hopens hconst).mono hl⟩
  function := h.function

theorem push (h : g.Governed reads l) : g.push.Governed reads l where
  address := by simpa using h.address
  function := by simpa using h.function

theorem declareVar (h : g.Governed reads l) {v : VarDecl} {a : Ir.Value} (ha : l.Knows a)
    (hopens : v.isConst = false → l.Opens a) :
    (g.declare ((Symbol.ofVar v).withStorage (.address a))).Governed reads l where
  address name s v' a' hs hv' ha' := by
    rw [SymbolTable.lookup?_declare] at hs
    split at hs
    · cases hs
      cases hv'
      cases ha'
      exact ⟨ha, hopens⟩
    · exact h.address name s v' a' hs hv' ha'
  function hreads name s f hs hf := by
    rw [SymbolTable.lookup?_declare] at hs
    split at hs
    · cases hs
      cases hf
    · exact h.function hreads name s f hs hf

theorem declareFn (h : g.Governed reads l) {f : FnDecl}
    (hname : reads → Token.IsName f.name.name) :
    (g.declare ((Symbol.ofFn f).withStorage (.function f.name.name))).Governed reads l where
  address name s v a hs hv ha := by
    rw [SymbolTable.lookup?_declare] at hs
    split at hs
    · cases hs
      cases hv
    · exact h.address name s v a hs hv ha
  function hreads name s f' hs hf' := by
    rw [SymbolTable.lookup?_declare] at hs
    split at hs
    · cases hs
      cases hf'
      exact hname hreads
    · exact h.function hreads name s f' hs hf'

end SymbolTable.Governed

namespace Lowering

/-! ## Places -/

/-- The declaration of the variable that is written is the same for the checker and for the
lowering. -/
theorem isConst_eq_false_of_writable (hs : Stored c g) {e : Expr} (hw : Writable c e) {root : Ident}
    (hroot : rootVariable? e = some root) {s : Symbol} {v : VarDecl}
    (hlookup : g.lookup? root.name = some s) (hdecl : s.decl = .var v) : v.isConst = false := by
  obtain ⟨root', hroot', hconst⟩ := hw
  rw [hroot] at hroot'
  cases hroot'
  have heq := hs.decl root.name
  rw [hlookup, Option.map_some, hdecl] at heq
  obtain ⟨s', hs', hdecl'⟩ := Option.map_eq_some_iff.mp heq.symm
  rw [hs', Option.bind_some, Symbol.var?, hdecl', Option.any_some] at hconst
  exact hconst

theorem variablePlace_tracks (hg : g.Governed rules.reads l) (hs : Stored c g) (span : Span)
    (name : Ident) :
    Tracks rules l (variablePlace g name.name) b fun l' place _ =>
      l'.Knows place.address ∧ (Writable c (.var span name) → l'.Opens place.address) := by
  unfold variablePlace
  split
  · exact .throw
  · next s hlookup =>
    split
    · next a v hstorage hvar =>
      have hdecl : s.decl = .var v := by
        cases hd : s.decl with
        | var v' => simpa [Symbol.var?, hd] using hvar
        | fn f => simp [Symbol.var?, hd] at hvar
      obtain ⟨hknows, hopens⟩ := hg.address _ s v a hlookup hdecl hstorage
      refine .pure ⟨hknows, fun hw => hopens ?_⟩
      exact isConst_eq_false_of_writable hs hw rfl hlookup hdecl
    · exact .throw

theorem elementTy_tracks {place : Place} (h : l.Knows place.address) :
    Tracks rules l place.elementTy b fun l' r _ =>
      l'.Knows r.1 ∧ (l.Opens place.address → l'.Opens r.1) := by
  cases place with
  | lanes address baseTy selected => exact .throw
  | whole address ty =>
    unfold Place.elementTy
    dsimp only
    split
    · exact .pure ⟨h, id⟩
    · exact .throw

theorem select_tracks (field : String) (mask : List Nat) {place : Place} :
    Tracks rules l (place.select field mask) b fun l' selected _ =>
      l' = l ∧ selected.address = place.address := by
  cases place with
  | whole address ty => exact .pure ⟨rfl, rfl⟩
  | lanes address baseTy selected =>
    refine Tracks.bind (P := fun l' _ _ => l' = l) (.orFault fun _ _ => rfl) ?_
    rintro _ composed b₁ - rfl
    exact .pure ⟨rfl, rfl⟩

/-! ## Conditionals -/

theorem endArm_tracks (block joined : Nat) {slot : Ir.Value} (ty : Ty) {value : TypedValue}
    (hslot : l.Opens slot) (hv : l.Knows value.value) :
    Tracks rules l (endArm block joined slot ty value) b fun _ _ _ => True := by
  refine .position_bind fun b₁ => ?_
  refine Tracks.bind (coerce_tracks hv ty) ?_
  intro l₂ value b₂ hl₂ hvalue
  refine .store_bind (hslot.mono hl₂) hvalue fun b₃ => ?_
  exact .terminate (by simp [Ir.Terminator.operands]) fun _ => trivial

theorem joinArms_tracks (origin trueEnd falseEnd joined : Nat) {ifTrue ifFalse : TypedValue}
    (ht : l.Knows ifTrue.value) (hf : l.Knows ifFalse.value) :
    Tracks rules l (joinArms origin trueEnd falseEnd joined ifTrue ifFalse) b fun l' a _ =>
      l'.Knows a.value := by
  unfold joinArms
  dsimp only
  split
  · refine .position_bind fun b₁ => ?_
    refine .terminate_bind (by simp [Ir.Terminator.operands]) fun b₂ => ?_
    refine .position_bind fun b₃ => ?_
    refine .terminate_bind (by simp [Ir.Terminator.operands]) fun b₄ => ?_
    refine .position_bind fun b₅ => ?_
    exact .pure (.plain rfl rfl)
  · refine Tracks.bind (.allocaIn fun _ => isName_cond) ?_
    intro l₁ slot b₁ hl₁ hslot
    refine Tracks.bind (endArm_tracks trueEnd joined _ hslot (ht.mono hl₁)) ?_
    intro l₂ _ b₂ hl₂ _
    refine Tracks.bind (endArm_tracks falseEnd joined _ (hslot.mono hl₂) (hf.mono (hl₁.trans hl₂))) ?_
    intro l₃ _ b₃ hl₃ _
    refine .position_bind fun b₄ => ?_
    refine Tracks.bind (.load (hslot.mono (hl₂.trans hl₃)).knows) ?_
    intro l₄ value b₅ _ hvalue
    exact .pure hvalue.knows

theorem currentBlockD_tracks (default : Nat) :
    Tracks rules l (currentBlockD default) b fun l' _ _ => l' = l :=
  .get_bind (.pure rfl)

/-! ## Expressions -/

mutual

/-- The code of a clean expression writes to no constant variable. -/
theorem expr_tracks {l : Ledger} {b : Builder} (hg : g.Governed rules.reads l) (hs : Stored c g)
    {e : Expr} (hc : Clean c e) : Tracks rules l (expr g e) b fun l' a _ => l'.Knows a.value := by
  match e with
  | .int .. | .float .. | .bool .. => exact .pure (.plain rfl rfl)
  | .var span name =>
    rw [expr]
    refine Tracks.bind (variablePlace_tracks hg hs span name) ?_
    intro l₁ place b₁ _ ⟨hplace, _⟩
    exact Place.load_tracks hplace
  | .binary _ op left right =>
    obtain ⟨hcl, hcr, -⟩ := clean_binary.mp hc
    rw [expr]
    refine Tracks.bind (expr_tracks hg hs hcl) ?_
    intro l₁ lhs b₁ hl₁ hlhs
    refine Tracks.bind (expr_tracks (hg.mono hl₁) hs hcr) ?_
    intro l₂ rhs b₂ hl₂ hrhs
    exact binary_tracks op (hlhs.mono hl₂) hrhs
  | .unary _ op operand =>
    obtain ⟨hco, hwritable, -⟩ := clean_unary.mp hc
    cases op with
    | plus | minus =>
      rw [expr]
      refine Tracks.bind (expr_tracks hg hs hco) ?_
      intro l₁ value b₁ _ hvalue
      exact signed_tracks _ hvalue
    | not =>
      rw [expr]
      refine Tracks.bind (expr_tracks hg hs hco) ?_
      intro l₁ value b₁ _ hvalue
      exact negated_tracks hvalue
    | step direction =>
      rw [expr]
      refine Tracks.bind (placeOf_tracks hg hs hco) ?_
      intro l₁ place b₁ _ ⟨_, hplace⟩
      exact Place.step_tracks _ _ (hplace (hwritable direction rfl))
  | .stepAfter _ direction operand =>
    obtain ⟨hco, hwritable, -⟩ := clean_stepAfter.mp hc
    rw [expr]
    refine Tracks.bind (placeOf_tracks hg hs hco) ?_
    intro l₁ place b₁ _ ⟨_, hplace⟩
    exact Place.step_tracks _ _ (hplace hwritable)
  | .assign _ op target value =>
    obtain ⟨hct, hcv, hwritable, -⟩ := clean_assign.mp hc
    rw [expr]
    refine Tracks.bind (placeOf_tracks hg hs hct) ?_
    intro l₁ place b₁ hl₁ ⟨_, hplace⟩
    replace hplace := hplace hwritable
    cases op with
    | plain =>
      refine Tracks.bind (expr_tracks (hg.mono hl₁) hs hcv) ?_
      intro l₂ result b₂ hl₂ hresult
      exact Place.store_tracks (hplace.mono hl₂) hresult
    | compound op =>
      refine Tracks.bind (Place.load_tracks hplace.knows) ?_
      intro l₂ current b₂ hl₂ hcurrent
      refine Tracks.bind (expr_tracks (hg.mono (hl₁.trans hl₂)) hs hcv) ?_
      intro l₃ rhs b₃ hl₃ hrhs
      refine Tracks.bind (arith_tracks op (hcurrent.mono hl₃) hrhs) ?_
      intro l₄ result b₄ hl₄ hresult
      exact Place.store_tracks (hplace.mono (hl₂.trans (hl₃.trans hl₄))) hresult
  | .conditional _ test ifTrue ifFalse =>
    obtain ⟨hctest, -, hctrue, hcfalse, -⟩ := clean_conditional.mp hc
    rw [expr]
    refine Tracks.bind (expr_tracks hg hs hctest) ?_
    intro l₁ condition b₁ hl₁ hcondition
    refine Tracks.bind (coerce_tracks hcondition .bool) ?_
    intro l₂ condition b₂ hl₂ hcondition
    replace hg := hg.mono (hl₁.trans hl₂)
    refine .get_bind ?_
    refine Tracks.bind (P := fun l' _ _ => l' = l₂) (.orFault fun _ _ => rfl) ?_
    rintro _ origin b₃ - rfl
    refine .createBlock_bind fun trueBlock b₄ => ?_
    refine .createBlock_bind fun falseBlock b₅ => ?_
    refine .createBlock_bind fun joined b₆ => ?_
    refine .terminate_bind (by simpa [Ir.Terminator.operands] using hcondition) fun b₇ => ?_
    refine .position_bind fun b₈ => ?_
    refine Tracks.bind (expr_tracks hg hs hctrue) ?_
    intro l₃ trueValue b₉ hl₃ htrue
    refine Tracks.bind (currentBlockD_tracks trueBlock) ?_
    rintro _ trueEnd b₁₀ - rfl
    refine .position_bind fun b₁₁ => ?_
    refine Tracks.bind (expr_tracks (hg.mono hl₃) hs hcfalse) ?_
    intro l₄ falseValue b₁₂ hl₄ hfalse
    refine Tracks.bind (currentBlockD_tracks falseBlock) ?_
    rintro _ falseEnd b₁₃ - rfl
    exact joinArms_tracks _ _ _ _ (htrue.mono hl₄) hfalse
  | .index _ base position =>
    obtain ⟨hcb, hcp, -, -⟩ := clean_index.mp hc
    rw [expr]
    refine Tracks.bind (placeOf_tracks hg hs hcb) ?_
    intro l₁ place b₁ hl₁ ⟨hplace, _⟩
    refine Tracks.bind (elementTy_tracks hplace) ?_
    rintro l₂ ⟨address, ty⟩ b₂ hl₂ ⟨haddress, -⟩
    refine Tracks.bind (expr_tracks (hg.mono (hl₁.trans hl₂)) hs hcp) ?_
    intro l₃ index b₃ hl₃ hindex
    refine Tracks.bind (elementPlace_tracks ty (haddress.mono hl₃) hindex) ?_
    intro l₄ place b₄ _ ⟨hplace, _⟩
    exact Place.load_tracks hplace
  | .field _ base name =>
    obtain ⟨hcb, -⟩ := clean_field.mp hc
    rw [expr]
    refine Tracks.bind (P := fun l' _ _ => l' = l) (.orFault fun _ _ => rfl) ?_
    rintro _ lanes b₁ - rfl
    refine Tracks.bind (expr_tracks hg hs hcb) ?_
    intro l₁ value b₂ _ hvalue
    exact selectFrom_tracks hvalue lanes
  | .call _ callee arguments =>
    obtain ⟨hca, f, hf, -⟩ := clean_call hc
    obtain ⟨s, hlookup, hdecl⟩ := hs.exists_fn hf
    rw [expr, hs.function?_eq hf, pure_bind]
    refine Tracks.bind (actuals_tracks hg hs f.formals hca) ?_
    intro l₁ values b₁ _ hvalues
    exact callFn_tracks f (fun hreads => hg.function hreads _ s f hlookup hdecl) hvalues
  | .construct _ target arguments =>
    obtain ⟨hca, -⟩ := clean_construct.mp hc
    rw [expr]
    refine Tracks.bind (exprs_tracks hg hs hca) ?_
    intro l₁ values b₁ _ hvalues
    exact construct_tracks target hvalues

theorem exprs_tracks {l : Ledger} {b : Builder} (hg : g.Governed rules.reads l) (hs : Stored c g)
    {es : List Expr} (hc : AllClean c es) :
    Tracks rules l (exprs g es) b fun l' as _ => ∀ a ∈ as, l'.Knows a.value := by
  match es with
  | [] => exact .pure (by simp)
  | e :: rest =>
    obtain ⟨hce, hcr⟩ := allClean_cons.mp hc
    rw [exprs]
    refine Tracks.bind (expr_tracks hg hs hce) ?_
    intro l₁ value b₁ hl₁ hvalue
    refine Tracks.bind (exprs_tracks (hg.mono hl₁) hs hcr) ?_
    intro l₂ values b₂ hl₂ hvalues
    refine .pure ?_
    intro a ha
    rcases List.mem_cons.mp ha with rfl | ha
    · exact hvalue.mono hl₂
    · exact hvalues a ha

theorem actuals_tracks {l : Ledger} {b : Builder} (hg : g.Governed rules.reads l) (hs : Stored c g)
    (formals : List VarDecl) {es : List Expr} (hc : AllClean c es) :
    Tracks rules l (actuals g formals es) b fun l' vs _ => ∀ v ∈ vs, l'.Knows v := by
  match es, formals with
  | [], _ | _ :: _, [] => exact .pure (by simp)
  | e :: rest, formal :: formals =>
    obtain ⟨hce, hcr⟩ := allClean_cons.mp hc
    rw [actuals]
    refine Tracks.bind (expr_tracks hg hs hce) ?_
    intro l₁ value b₁ hl₁ hvalue
    refine Tracks.bind (coerce_tracks hvalue formal.ty) ?_
    intro l₂ actual b₂ hl₂ hactual
    refine Tracks.bind (actuals_tracks (hg.mono (hl₁.trans hl₂)) hs formals hcr) ?_
    intro l₃ others b₃ hl₃ hothers
    refine .pure ?_
    intro v hv
    rcases List.mem_cons.mp hv with rfl | hv
    · exact hactual.mono hl₃
    · exact hothers v hv

/-- The address of a place may be written if the checker lets the expression be written. -/
theorem placeOf_tracks {l : Ledger} {b : Builder} (hg : g.Governed rules.reads l) (hs : Stored c g)
    {e : Expr} (hc : Clean c e) :
    Tracks rules l (placeOf g e) b fun l' place _ =>
      l'.Knows place.address ∧ (Writable c e → l'.Opens place.address) := by
  match e with
  | .var span name => exact variablePlace_tracks hg hs span name
  | .index _ base position =>
    obtain ⟨hcb, hcp, -, -⟩ := clean_index.mp hc
    rw [placeOf]
    refine Tracks.bind (placeOf_tracks hg hs hcb) ?_
    intro l₁ place b₁ hl₁ ⟨hplace, hopens⟩
    refine Tracks.bind (elementTy_tracks hplace) ?_
    rintro l₂ ⟨address, ty⟩ b₂ hl₂ ⟨haddress, helement⟩
    refine Tracks.bind (expr_tracks (hg.mono (hl₁.trans hl₂)) hs hcp) ?_
    intro l₃ index b₃ hl₃ hindex
    refine (elementPlace_tracks ty (haddress.mono hl₃) hindex).imp ?_
    intro l₄ selected b₄ _ ⟨hselected, hsame⟩
    exact ⟨hselected, fun hw => hsame ((helement (hopens hw)).mono hl₃)⟩
  | .field _ base name =>
    obtain ⟨hcb, -⟩ := clean_field.mp hc
    rw [placeOf]
    refine Tracks.bind (P := fun l' _ _ => l' = l) (.orFault fun _ _ => rfl) ?_
    rintro _ mask b₁ - rfl
    refine Tracks.bind (placeOf_tracks hg hs hcb) ?_
    intro l₁ place b₂ _ ⟨hplace, hopens⟩
    refine (select_tracks name.name mask).imp ?_
    rintro _ selected b₃ - ⟨rfl, haddress⟩
    rw [haddress]
    exact ⟨hplace, hopens⟩
  | .int .. | .float .. | .bool .. | .binary .. | .unary .. | .assign .. | .stepAfter ..
  | .conditional .. | .call .. | .construct .. => exact .throw

end

end Lowering

end ShaderLang
