import ShaderLang.Lowering.Program
import ShaderLang.Proofs.Advance
import ShaderLang.Proofs.TypedExpr

/-!
# What actions return

Some of what an action returns does not depend on the builder that it runs in (`Returns`): the type
of an emitted value, which is `valueTy` for every expression that is lowered, checked or not
(`expr_returns`), and the table behind a statement, which only a declaration changes
(`stmt_returns`).
-/

namespace ShaderLang.Lowering

open Ir (Build Builder)

/-- In whatever builder the action succeeds, its result has the property. -/
def Returns {α : Type} (x : Emit α) (Q : α → Prop) : Prop :=
  ∀ b, Ensures x b fun a _ => Q a

variable {α β : Type} {g : SymbolTable}

namespace Returns

variable {x : Emit α} {f : α → Emit β} {P Q : α → Prop} {R : β → Prop}

theorem ok_imp {b b' : Builder} {a : α} (h : Returns x Q) (hx : x b = .ok a b') : Q a :=
  (h b).ok_imp hx

theorem imp (h : Returns x P) (hPQ : ∀ a, P a → Q a) : Returns x Q :=
  fun b => (h b).imp fun a _ _ hP => hPQ a hP

theorem pure {a : α} (h : Q a) : Returns (Pure.pure a) Q :=
  fun _ => .pure h

theorem throw {fault : Fault} : Returns (MonadExcept.throw fault : Emit α) Q :=
  fun _ => .throw

theorem bind (hx : Returns x P) (hf : ∀ a, P a → Returns (f a) R) : Returns (x >>= f) R :=
  fun b => (hx b).bind fun a b' _ hP => hf a hP b'

theorem any (x : Emit α) : Returns x fun _ => True :=
  fun b => .any x b

/-- What the first action returns does not matter. -/
theorem andThen (hf : ∀ a, Returns (f a) R) : Returns (x >>= f) R :=
  (any x).bind fun a _ => hf a

theorem orFault {a : Option α} {fault : Fault} (h : ∀ v, a = some v → Q v) :
    Returns (Lowering.orFault a fault) Q :=
  fun _ => .orFault h

end Returns

/-! ## Operations -/

theorem scalarOf_returns (value : Ir.Value) (t : Ty) :
    Returns (scalarOf value t) fun a => a.ty = t.scalar := by
  induction t generalizing value with
  | array element length ih => exact .andThen fun _ => .andThen fun _ => .andThen fun _ => ih _
  | int | float | bool | void | error => exact .pure rfl
  | vec2 | vec3 | vec4 | mat2 | mat3 | mat4 => exact .andThen fun _ => .pure rfl

theorem arithmeticView_returns (typed : TypedValue) :
    Returns (arithmeticView typed) fun a => a.ty = typed.ty.arithmeticView := by
  unfold arithmeticView Ty.arithmeticView
  split
  · exact .pure rfl
  · apply (scalarOf_returns _ _).bind
    intro scalar hscalar
    rw [← hscalar]
    split
    · exact .andThen fun _ => .pure rfl
    · exact .pure rfl

theorem arith_returns (op : ArithOp) (left right : TypedValue) : Returns (arith op left right)
    fun a => a.ty = meetingTy left.ty.arithmeticView right.ty.arithmeticView := by
  apply (arithmeticView_returns left).bind
  intro lhs hl
  apply (arithmeticView_returns right).bind
  intro rhs hr
  rw [← hl, ← hr]
  exact .andThen fun _ => .andThen fun _ => .andThen fun _ => .pure rfl

theorem compareLanes_returns (op : CompareOp) (left right : Ir.Value) (lanes : Nat) :
    Returns (compareLanes op left right lanes) fun a => a.ty = .bool := by
  cases lanes with
  | zero => exact .throw
  | succ lanes => exact .andThen fun _ => .andThen fun _ => .pure rfl

theorem compare_returns (op : CompareOp) (left right : TypedValue) :
    Returns (compare op left right) fun a => a.ty = .bool := by
  unfold compare
  split
  · exact .andThen fun _ => .pure rfl
  · apply Returns.andThen
    intro left
    apply Returns.andThen
    intro right
    split
    · exact .andThen fun _ => .andThen fun _ => compareLanes_returns _ _ _ _
    · split
      · exact .andThen fun _ => .pure rfl
      · exact .andThen fun _ => .andThen fun _ => .andThen fun _ => .pure rfl

theorem binary_returns (op : BinaryOp) (left right : TypedValue) :
    Returns (binary op left right) fun a => a.ty = binaryTy op left.ty right.ty := by
  cases op with
  | arith op => exact arith_returns op left right
  | compare op => exact compare_returns op left right
  | logic op => exact .andThen fun _ => .andThen fun _ => .andThen fun _ => .pure rfl

theorem signed_returns (op : ArithOp) (operand : TypedValue) :
    Returns (signed op operand) fun a => a.ty = operand.ty.arithmeticView := by
  apply (arithmeticView_returns operand).bind
  intro view hview
  exact .andThen fun _ => .andThen fun _ => .pure hview

theorem negated_returns (operand : TypedValue) : Returns (negated operand) fun a => a.ty = .bool :=
  .andThen fun _ => .andThen fun _ => .pure rfl

theorem construct_returns (target : Ty) (arguments : List TypedValue) :
    Returns (construct target arguments) fun a => a.ty = target := by
  unfold construct
  split
  · exact .andThen fun _ => .pure rfl
  · cases arguments with
    | nil => exact .throw
    | cons first rest =>
      dsimp only
      split
      · exact .andThen fun _ => .pure rfl
      · exact .throw

theorem selectLanes_returns (vector : Ir.Value) (lanes : List Nat) :
    Returns (selectLanes vector lanes) fun a => a.ty = Swizzle.resultTy lanes.length := by
  unfold selectLanes
  split <;> exact .andThen fun _ => .pure rfl

theorem selectFrom_returns (base : TypedValue) (lanes : List Nat) :
    Returns (selectFrom base lanes) fun a => a.ty = Swizzle.resultTy lanes.length := by
  unfold selectFrom
  split
  · exact selectLanes_returns _ _
  · exact .andThen fun _ => selectLanes_returns _ _

theorem callFn_returns (f : FnDecl) (generated : String) (arguments : List Ir.Value) :
    Returns (callFn f generated arguments) fun a => a.ty = f.returnTy :=
  .andThen fun _ => .pure rfl

theorem joinArms_returns (origin trueEnd falseEnd joined : Nat) (ifTrue ifFalse : TypedValue) :
    Returns (joinArms origin trueEnd falseEnd joined ifTrue ifFalse)
      fun a => a.ty = armTy ifTrue.ty ifFalse.ty := by
  unfold joinArms
  dsimp only
  split
  · next hvoid =>
    exact .andThen fun _ => .andThen fun _ => .andThen fun _ => .andThen fun _ => .andThen fun _ =>
      .pure hvoid.symm
  · exact .andThen fun _ => .andThen fun _ => .andThen fun _ => .andThen fun _ => .andThen fun _ =>
      .pure rfl

namespace Place

theorem load_returns (place : Place) : Returns place.load fun a => a.ty = place.ty := by
  cases place with
  | whole address ty => exact .andThen fun _ => .pure rfl
  | lanes address baseTy selected => exact .andThen fun _ => selectLanes_returns _ _

theorem store_returns (value : TypedValue) (place : Place) :
    Returns (place.store value) fun a => a.ty = place.storedTy value.ty := by
  cases place with
  | whole address ty => exact .andThen fun _ => .andThen fun _ => .pure rfl
  | lanes address baseTy selected =>
    unfold store storeLanes storedTy
    dsimp only
    split
    · exact .andThen fun _ => .pure rfl
    · exact .andThen fun _ => .andThen fun _ => .pure rfl

theorem step_returns (op : ArithOp) (givesOld : Bool) (place : Place) :
    Returns (place.step op givesOld) fun a => a.ty = place.ty := by
  cases place with
  | whole address ty =>
    exact .andThen fun _ => .andThen fun _ => .andThen fun _ => .andThen fun _ => .pure rfl
  | lanes address baseTy selected =>
    have hload := load_returns (.lanes address baseTy selected)
    cases givesOld with
    | false => exact .andThen fun _ => hload
    | true => exact hload.bind fun _ hty => .andThen fun _ => .pure hty

theorem elementTy_returns (place : Place) :
    Returns place.elementTy fun r => place.ty.element? = some r.2 := by
  cases place with
  | lanes address baseTy selected => exact .throw
  | whole address ty =>
    unfold elementTy
    dsimp only [Place.ty]
    split
    · next element helement => exact .pure helement
    · exact .throw

/-- Lanes are selected of any place. -/
theorem select_returns (field : String) (mask : List Nat) (place : Place) :
    Returns (place.select field mask) fun p =>
      ∃ address baseTy selected, p = .lanes address baseTy selected ∧
        selected.length = mask.length := by
  cases place with
  | whole address ty => exact .pure ⟨address, ty, mask, rfl, rfl⟩
  | lanes address baseTy selected =>
    apply (Returns.orFault (Q := fun composed => composed.length = mask.length) ?_).bind
    · exact fun composed hlength => .pure ⟨address, baseTy, composed, rfl, hlength⟩
    · exact fun composed hcomposed => (length_mapM_getElem? hcomposed).1

end Place

theorem elementPlace_returns (array : Ir.Value) (ty : Ty) (index : TypedValue) :
    Returns (elementPlace array ty index) fun p => ∃ address, p = .whole address ty :=
  .andThen fun _ => .andThen fun address => .pure ⟨address, rfl⟩

theorem maskOf_returns (field : String) :
    Returns (maskOf field) fun mask => Swizzle.mask? field = some mask :=
  .orFault fun _ h => h

theorem variablePlace_returns (name : String) :
    Returns (variablePlace g name) fun p =>
      ∃ address t, p = .whole address t ∧ Typing.variableTy? g name = some t := by
  unfold variablePlace
  split
  · exact .throw
  · next symbol hsymbol =>
    split
    · next address v _ hv => exact .pure ⟨address, v.ty, rfl, by simp [Typing.variableTy?, hsymbol, hv]⟩
    · exact .throw

theorem function?_returns (name : String) :
    Returns (function? g name) fun r => Typing.function? g name = some r.1 := by
  unfold function?
  split
  · exact .throw
  · next symbol hsymbol =>
    split
    · next f generated hf _ => exact .pure (by simp [Typing.function?, hsymbol, hf])
    · exact .throw

/-! ## Expressions -/

/-- What the place of an expression holds, and what a store to it gives. -/
structure PlaceHolds (g : SymbolTable) (e : Expr) (place : Place) : Prop where
  ty : place.ty = valueTy g e
  storedTy : ∀ t, place.storedTy t = ShaderLang.storedTy e (valueTy g e) t

theorem PlaceHolds.of_lanes {span : Span} {base : Expr} {name : Ident} {mask selected : List Nat}
    {address : Ir.Value} {baseTy : Ty} (hmask : Swizzle.mask? name.name = some mask)
    (hlength : selected.length = mask.length) :
    PlaceHolds g (.field span base name) (.lanes address baseTy selected) where
  ty := by rw [Place.ty, valueTy, laneCount, hmask, Option.elim_some, hlength]
  storedTy _ := rfl

mutual

/-- Every expression that is lowered gives a value of its type. -/
theorem expr_returns (e : Expr) : Returns (expr g e) fun a => a.ty = valueTy g e := by
  match e with
  | .int .. | .float .. | .bool .. =>
    rw [expr]
    exact .pure rfl
  | .var _ name =>
    rw [expr]
    apply (variablePlace_returns name.name).bind
    rintro _ ⟨address, t, rfl, ht⟩
    rw [valueTy, ht]
    exact (Place.whole address t).load_returns
  | .index span base position =>
    rw [expr]
    apply (placeOf_returns base).bind
    intro place hplace
    apply place.elementTy_returns.bind
    rintro ⟨address, element⟩ helement
    apply Returns.andThen
    intro index
    apply (elementPlace_returns address element index).bind
    rintro _ ⟨address, rfl⟩
    rw [valueTy, ← hplace.ty, helement]
    exact (Place.whole address element).load_returns
  | .binary _ op left right =>
    rw [expr]
    apply (expr_returns left).bind
    intro lhs hl
    apply (expr_returns right).bind
    intro rhs hr
    rw [valueTy, ← hl, ← hr]
    exact binary_returns op lhs rhs
  | .unary _ op operand =>
    cases op with
    | plus | minus =>
      rw [expr]
      apply (expr_returns operand).bind
      intro value hvalue
      rw [valueTy, ← hvalue]
      exact signed_returns _ value
    | not =>
      rw [expr]
      exact .andThen fun value => negated_returns value
    | step direction =>
      rw [expr]
      apply (placeOf_returns operand).bind
      intro place hplace
      rw [valueTy, ← hplace.ty]
      exact place.step_returns _ _
  | .assign _ op target value =>
    rw [expr]
    apply (placeOf_returns target).bind
    intro place hplace
    rw [valueTy, ← hplace.storedTy]
    cases op with
    | plain =>
      apply (expr_returns value).bind
      intro result hresult
      rw [assignedTy, ← hresult]
      exact place.store_returns result
    | compound op =>
      apply place.load_returns.bind
      intro current hcurrent
      apply (expr_returns value).bind
      intro rhs hr
      apply (arith_returns op current rhs).bind
      intro result hresult
      rw [assignedTy, ← hplace.ty, ← hcurrent, ← hr, ← hresult]
      exact place.store_returns result
  | .stepAfter _ direction operand =>
    rw [expr]
    apply (placeOf_returns operand).bind
    intro place hplace
    rw [valueTy, ← hplace.ty]
    exact place.step_returns _ _
  | .conditional _ test ifTrue ifFalse =>
    rw [expr]
    iterate 9 (apply Returns.andThen; intro _)
    apply (expr_returns ifTrue).bind
    intro trueValue ht
    iterate 2 (apply Returns.andThen; intro _)
    apply (expr_returns ifFalse).bind
    intro falseValue hf
    apply Returns.andThen
    intro falseEnd
    rw [valueTy, ← ht, ← hf]
    exact joinArms_returns _ _ _ _ trueValue falseValue
  | .field _ base name =>
    rw [expr]
    apply (maskOf_returns name.name).bind
    intro mask hmask
    rw [valueTy, laneCount, hmask]
    exact .andThen fun value => selectFrom_returns value mask
  | .call _ callee arguments =>
    rw [expr]
    apply (function?_returns callee.name).bind
    rintro ⟨f, generated⟩ hf
    rw [valueTy, hf]
    exact .andThen fun values => callFn_returns f generated values
  | .construct _ target arguments =>
    rw [expr]
    exact .andThen fun values => construct_returns target values

/-- Every place that is found holds a value of the type of its expression. -/
theorem placeOf_returns (e : Expr) : Returns (placeOf g e) (PlaceHolds g e) := by
  match e with
  | .var _ name =>
    rw [placeOf]
    apply (variablePlace_returns name.name).imp
    rintro _ ⟨address, t, rfl, ht⟩
    exact ⟨by rw [valueTy, ht]; rfl, fun _ => by rw [valueTy, ht]; rfl⟩
  | .index span base position =>
    rw [placeOf]
    apply (placeOf_returns base).bind
    intro place hplace
    apply place.elementTy_returns.bind
    rintro ⟨address, element⟩ helement
    apply Returns.andThen
    intro index
    apply (elementPlace_returns address element index).imp
    rintro _ ⟨address, rfl⟩
    have hty : valueTy g (.index span base position) = element := by
      rw [valueTy, ← hplace.ty, helement]
      rfl
    exact ⟨hty.symm, fun _ => by rw [hty]; rfl⟩
  | .field _ base name =>
    rw [placeOf]
    apply (maskOf_returns name.name).bind
    intro mask hmask
    apply Returns.andThen
    intro place
    apply (place.select_returns name.name mask).imp
    rintro _ ⟨address, baseTy, selected, rfl, hlength⟩
    exact .of_lanes hmask hlength
  | .int .. | .float .. | .bool .. | .binary .. | .unary .. | .assign .. | .stepAfter ..
  | .conditional .. | .call .. | .construct .. =>
    rw [placeOf]
    · exact .throw
    all_goals simp

end

/-! ## Statements -/

theorem forInit_returns {init : Option ForInit} (h : ∀ v, init ≠ some (.declare v)) :
    Returns (forInit g init) fun g' => g' = g := by
  match init with
  | none => exact .pure rfl
  | some (.expr e) => exact .andThen fun _ => .pure rfl
  | some (.declare v) => exact absurd rfl (h v)

/-- Behind a statement that is no declaration the table is what it was. -/
theorem stmt_returns (context : Context) {s : Stmt} (h : ∀ v, s ≠ .declare v) :
    Returns (stmt context g s) fun g' => g' = g := by
  cases s with
  | declare v => exact absurd rfl (h v)
  | _ =>
    rw [stmt]
    repeat (apply Returns.andThen; intro _)
    exact .pure rfl

end ShaderLang.Lowering
