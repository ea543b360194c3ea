import ShaderLang.Proofs.Emission
import ShaderLang.Proofs.ValueTy

/-!
# Straight-line helpers

Coercions, operations and accesses to places never fail on values of the types that occur, and add
straight-line code only; each statement gives the type of the result.
-/

namespace ShaderLang.Lowering

open Ir (Build Inst)

variable {n : Nat}

/-- The action is straight-line code. -/
abbrev IsLinear {α : Type} (x : Emit α) (n : Nat) : Prop :=
  Linear x n fun _ _ _ => True

/-- The action is straight-line code for a value of a type. -/
abbrev LinearTo (x : Emit TypedValue) (n : Nat) (t : Ty) : Prop :=
  Linear x n fun a _ _ => a.ty = t

namespace IsLinear

variable {α β ι : Type}

theorem pure (a : α) : IsLinear (pure a) n :=
  Linear.pure trivial

theorem bind {x : Emit α} {f : α → Emit β} (hx : IsLinear x n) (hf : ∀ a m, IsLinear (f a) m) :
    IsLinear (x >>= f) n :=
  Linear.bind hx fun a _ m _ => hf a m

theorem emitValue {inst : Nat → Inst} (hr : (inst n).result? = some n) :
    IsLinear (liftM (Build.emitValue inst)) n :=
  Linear.emitValue hr trivial

theorem emit {inst : Inst} (hr : inst.result? = none) :
    IsLinear (liftM (Build.emit inst)) n :=
  Linear.emit hr trivial

theorem convert (op : Ir.Conversion) (value : Ir.Value) :
    IsLinear (liftM (Build.convert op value)) n :=
  Linear.convert (fun _ _ => trivial) fun _ => trivial

theorem extractLane (vector : Ir.Value) (lane : Nat) :
    IsLinear (liftM (Build.extractLane vector lane)) n :=
  Linear.extractLane (fun _ _ => trivial) fun _ => trivial

theorem foldlM {f : α → ι → Emit α} (hf : ∀ a i m, IsLinear (f a i) m) (xs : List ι) (a : α) :
    IsLinear (xs.foldlM f a) n :=
  Linear.foldlM (fun _ _ _ _ => True) (fun _ i a _ m _ => hf a i m) xs [] a [] n trivial

theorem forM {f : ι → Emit Unit} (hf : ∀ i m, IsLinear (f i) m) (xs : List ι) :
    IsLinear (xs.forM f) n := by
  induction xs generalizing n with
  | nil => exact .pure ()
  | cons i xs ih => exact .bind (hf i n) fun _ m => ih

theorem mapM {f : ι → Emit α} (hf : ∀ i m, IsLinear (f i) m) (xs : List ι) :
    IsLinear (xs.mapM f) n := by
  induction xs generalizing n with
  | nil => exact .pure []
  | cons i xs ih =>
    rw [List.mapM_cons]
    exact .bind (hf i n) fun _ m => .bind ih fun _ _ => .pure _

end IsLinear

theorem LinearTo.pure {a : TypedValue} {t : Ty} (h : a.ty = t) :
    LinearTo (Pure.pure a : Emit TypedValue) n t :=
  Linear.pure h

theorem LinearTo.bind {α : Type} {x : Emit α} {f : α → Emit TypedValue} {t : Ty}
    (hx : IsLinear x n) (hf : ∀ a m, LinearTo (f a) m t) : LinearTo (x >>= f) n t :=
  Linear.bind hx fun a _ m _ => hf a m

/-! ## Coercions -/

theorem spill_linear (array : TypedValue) : IsLinear (spill array) n :=
  .bind (.emitValue rfl) fun _ _ => .bind (.emit rfl) fun _ _ => .pure _

theorem splat_linear (scalar : Ir.Value) (lanes : Nat) : IsLinear (splat scalar lanes) n :=
  .foldlM (fun _ _ _ => .emitValue rfl) _ _

theorem convertScalar_linear {scalar : TypedValue} {target : Ty}
    (hs : scalar.ty.isScalar = true) (ht : target.isScalar = true) :
    IsLinear (convertScalar scalar target) n := by
  obtain ⟨value, source⟩ := scalar
  unfold convertScalar
  split
  · exact .pure _
  · next hne =>
    cases source <;> cases target <;>
      first
        | cases hs; done
        | cases ht; done
        | exact absurd rfl hne
        | exact .convert _ _
        | exact .emitValue rfl

theorem scalarOf_linear (value : Ir.Value) (t : Ty) : LinearTo (scalarOf value t) n t.scalar := by
  induction t generalizing value n with
  | array element length ih =>
    refine .bind (spill_linear _) fun slot m => ?_
    refine .bind (.emitValue rfl) fun first m => ?_
    exact .bind (.emitValue rfl) fun value m => ih value
  | int | float | bool | void | error => exact .pure rfl
  | vec2 | vec3 | vec4 | mat2 | mat3 | mat4 => exact .bind (.extractLane _ _) fun _ _ => .pure rfl

theorem coerce_linear (typed : TypedValue) {target : Ty} (h : target.hasValues = true) :
    IsLinear (coerce typed target) n := by
  induction target generalizing typed n with
  | error => cases h
  | void =>
    unfold coerce
    split <;> exact .pure _
  | int | float | bool =>
    unfold coerce
    split
    · exact .pure _
    · refine Linear.bind (scalarOf_linear _ _) fun scalar _ m hs => ?_
      exact (convertScalar_linear (hs ▸ Ty.isScalar_scalar _) rfl).imp fun _ _ _ _ => trivial
  | vec2 | vec3 | vec4 | mat2 | mat3 | mat4 =>
    unfold coerce
    split
    · exact .pure _
    · dsimp only
      split
      · split
        · exact .pure _
        · exact .bind (.extractLane _ _) fun _ _ => splat_linear _ _
      · refine Linear.bind (scalarOf_linear _ _) fun scalar _ m hs => ?_
        refine Linear.bind (convertScalar_linear (hs ▸ Ty.isScalar_scalar _) rfl) fun _ _ _ _ => ?_
        exact (splat_linear _ _).imp fun _ _ _ _ => trivial
  | array element length ih =>
    unfold coerce
    split
    · exact .pure _
    · refine .bind (.emitValue rfl) fun slot m => ?_
      dsimp only
      split
      · refine .bind (spill_linear _) fun spilled m => ?_
        refine .bind (.forM (fun k m => ?_) _) fun _ _ => .emitValue rfl
        refine .bind (.emitValue rfl) fun address m => .bind (.emitValue rfl) fun value m => ?_
        exact .bind (ih _ h) fun value m => .bind (.emitValue rfl) fun address m => .emit rfl
      · refine .bind (ih _ h) fun value m => ?_
        refine .bind (.forM (fun k m => ?_) _) fun _ _ => .emitValue rfl
        exact .bind (.emitValue rfl) fun address m => .emit rfl

theorem coerce_linear_scalar (typed : TypedValue) {target : Ty} (h : target.isScalar = true) :
    IsLinear (coerce typed target) n :=
  coerce_linear typed (by cases target <;> first | rfl | cases h)

theorem arithmeticView_linear (typed : TypedValue) :
    LinearTo (arithmeticView typed) n typed.ty.arithmeticView := by
  unfold arithmeticView Ty.arithmeticView
  split
  · exact .pure rfl
  · refine Linear.bind (scalarOf_linear _ _) fun scalar _ m hs => ?_
    rw [← hs]
    split
    · exact LinearTo.bind (.convert _ _) fun _ _ => .pure rfl
    · exact Linear.pure rfl

/-! ## Operations -/

theorem zeroOf_linear {t : Ty} (h : t.isArithmetic = true) : IsLinear (zeroOf t) n := by
  cases t <;> first | exact .pure _ | cases h

theorem unitOf_linear {t : Ty} (h : t.isArithmetic = true) : IsLinear (unitOf t) n := by
  cases t <;> first | exact .pure _ | exact splat_linear _ _ | cases h

theorem arith_linear (op : ArithOp) (left right : TypedValue) :
    LinearTo (arith op left right) n
      (meetingTy left.ty.arithmeticView right.ty.arithmeticView) := by
  refine Linear.bind (arithmeticView_linear left) fun left' _ m hl => ?_
  refine Linear.bind (arithmeticView_linear right) fun right' _ m hr => ?_
  have ht : (meetingTy left'.ty right'.ty).hasValues = true :=
    Ty.hasValues_of_isArithmetic (meetingTy_isArithmetic _ _)
  refine Linear.bind (coerce_linear _ ht) fun lhs _ m _ => ?_
  refine Linear.bind (coerce_linear _ ht) fun rhs _ m _ => ?_
  refine Linear.bind (IsLinear.emitValue rfl) fun value _ m _ => Linear.pure ?_
  rw [← hl, ← hr]

theorem compareLane_linear (op : CompareOp) (left right : Ir.Value) (lane : Nat) :
    IsLinear (compareLane op left right lane) n :=
  .bind (.extractLane _ _) fun _ _ => .bind (.extractLane _ _) fun _ _ => .emitValue rfl

theorem compareLanes_linear (op : CompareOp) (left right : Ir.Value) {lanes : Nat}
    (h : 0 < lanes) : LinearTo (compareLanes op left right lanes) n .bool := by
  obtain ⟨lanes, rfl⟩ := Nat.exists_eq_succ_of_ne_zero (Nat.ne_of_gt h)
  refine .bind (compareLane_linear op left right 0) fun first m => ?_
  refine .bind (.foldlM (fun result lane m => ?_) _ _) fun _ _ => .pure rfl
  exact .bind (compareLane_linear _ _ _ _) fun _ _ => .emitValue rfl

theorem compare_linear (op : CompareOp) (left right : TypedValue) :
    LinearTo (compare op left right) n .bool := by
  unfold compare
  split
  · exact .bind (.emitValue rfl) fun _ _ => .pure rfl
  · refine Linear.bind (arithmeticView_linear left) fun left' _ m _ => ?_
    refine Linear.bind (arithmeticView_linear right) fun right' _ m _ => ?_
    split
    · next shape hshape =>
      have hs := isShaped_of_shapeOf? hshape
      have ht := Ty.hasValues_of_isArithmetic (Ty.isArithmetic_of_isShaped hs)
      refine LinearTo.bind (coerce_linear _ ht) fun _ _ => ?_
      refine LinearTo.bind (coerce_linear _ ht) fun _ _ => ?_
      exact compareLanes_linear _ _ _ (Ty.lanes_pos_of_isShaped hs)
    · split
      · exact LinearTo.bind (.emitValue rfl) fun _ _ => .pure rfl
      · refine LinearTo.bind (coerce_linear _ rfl) fun _ _ => ?_
        refine LinearTo.bind (coerce_linear _ rfl) fun _ _ => ?_
        exact .bind (.emitValue rfl) fun _ _ => .pure rfl

theorem logic_linear (op : LogicOp) (left right : TypedValue) :
    LinearTo (logic op left right) n .bool :=
  .bind (coerce_linear _ rfl) fun _ _ => .bind (coerce_linear _ rfl) fun _ _ =>
    .bind (.emitValue rfl) fun _ _ => .pure rfl

theorem binary_linear (op : BinaryOp) (left right : TypedValue) :
    LinearTo (binary op left right) n (binaryTy op left.ty right.ty) := by
  cases op with
  | arith op => exact arith_linear op left right
  | compare op => exact compare_linear op left right
  | logic op => exact logic_linear op left right

theorem signed_linear (op : ArithOp) (operand : TypedValue) :
    LinearTo (signed op operand) n operand.ty.arithmeticView := by
  refine Linear.bind (arithmeticView_linear operand) fun viewed _ m hv => ?_
  have ht : viewed.ty.isArithmetic = true := hv ▸ Ty.isArithmetic_arithmeticView _
  refine Linear.bind (zeroOf_linear ht) fun _ _ _ _ => ?_
  exact Linear.bind (IsLinear.emitValue rfl) fun _ _ _ _ => Linear.pure hv

theorem negated_linear (operand : TypedValue) : LinearTo (negated operand) n .bool :=
  .bind (coerce_linear _ rfl) fun _ _ => .bind (.emitValue rfl) fun _ _ => .pure rfl

theorem argumentLanes_linear (argument : TypedValue) : IsLinear (argumentLanes argument) n := by
  unfold argumentLanes
  split
  · exact .mapM (fun _ _ => .extractLane _ _) _
  · exact .bind (coerce_linear _ rfl) fun _ _ => .pure _

theorem vectorOfLanes_linear (lanes : List Ir.Value) : IsLinear (vectorOfLanes lanes) n := by
  unfold vectorOfLanes
  split
  · exact .pure _
  · exact .foldlM (fun _ _ _ => .emitValue rfl) _ _

theorem concatenated_linear (width : Nat) (arguments : List TypedValue) :
    IsLinear (concatenated width arguments) n :=
  .bind (.mapM (fun a _ => argumentLanes_linear a) _) fun _ _ => vectorOfLanes_linear _

theorem shaped_linear (width : Nat) (arguments : List TypedValue) :
    IsLinear (shaped width arguments) n := by
  unfold shaped
  split
  · split
    · exact concatenated_linear _ _
    · refine .bind (coerce_linear _ rfl) fun scalar _ => ?_
      split
      · exact .pure _
      · exact splat_linear _ _
  · exact concatenated_linear _ _

/-- A constructor of anything but `void` has code as soon as there is an argument. -/
theorem construct_linear {target : Ty} {arguments : List TypedValue} (hplain : target.isPlain = true)
    (hvoid : target ≠ .void) (hne : arguments ≠ []) :
    LinearTo (construct target arguments) n target := by
  unfold construct
  split
  · exact .bind (shaped_linear _ _) fun _ _ => .pure rfl
  · next hs =>
    obtain ⟨first, rest, rfl⟩ := List.exists_cons_of_ne_nil hne
    have hscalar : target = .int ∨ target = .float ∨ target = .bool := by
      cases target <;> simp_all [Ty.isPlain, Ty.isShaped, Ty.isVector, Ty.isMatrix]
    dsimp only
    rw [if_pos hscalar]
    refine .bind (coerce_linear_scalar _ ?_) fun _ _ => .pure rfl
    obtain rfl | rfl | rfl := hscalar <;> rfl

theorem selectLanes_linear (vector : Ir.Value) (lanes : List Nat) :
    LinearTo (selectLanes vector lanes) n (Swizzle.resultTy lanes.length) := by
  unfold selectLanes
  split
  · exact .bind (.extractLane _ _) fun _ _ => .pure rfl
  · exact .bind (.emitValue rfl) fun _ _ => .pure rfl

theorem selectFrom_linear (base : TypedValue) (lanes : List Nat) :
    LinearTo (selectFrom base lanes) n (Swizzle.resultTy lanes.length) := by
  unfold selectFrom
  split
  · exact selectLanes_linear _ _
  · exact .bind (coerce_linear _ rfl) fun _ _ => selectLanes_linear _ _

/-! ## Places -/

namespace Place

theorem load_linear (place : Place) : LinearTo place.load n place.ty := by
  cases place with
  | whole address ty => exact .bind (.emitValue rfl) fun _ _ => .pure rfl
  | lanes address baseTy selected =>
    exact .bind (.emitValue rfl) fun _ _ => selectLanes_linear _ _

theorem storeLane_linear (address : Ir.Value) (baseTy : Ty) (lane : Nat) (value : Ir.Value) :
    IsLinear (storeLane address baseTy lane value) n :=
  .bind (.emitValue rfl) fun _ _ => .bind (.emitValue rfl) fun _ _ => .emit rfl

theorem stepLane_linear (op : ArithOp) (address : Ir.Value) (baseTy : Ty) (lane : Nat) :
    IsLinear (stepLane op address baseTy lane) n :=
  .bind (.emitValue rfl) fun _ _ => .bind (.extractLane _ _) fun _ _ => .bind (.emitValue rfl) fun _ _ =>
    .bind (.emitValue rfl) fun _ _ => .emit rfl

theorem storeLanes_linear (address : Ir.Value) (baseTy : Ty) (selected : List Nat)
    (value : TypedValue) : LinearTo (storeLanes address baseTy selected value) n
      (if value.ty.isShaped then value.ty else .float) := by
  unfold storeLanes
  split
  · refine .bind (.forM (fun i m => ?_) _) fun _ _ => .pure rfl
    exact .bind (.extractLane _ _) fun _ _ => storeLane_linear _ _ _ _
  · refine .bind (coerce_linear _ rfl) fun scalar m => ?_
    exact .bind (.forM (fun i m => storeLane_linear _ _ _ _) _) fun _ _ => .pure rfl

/-- The type of what a store to a place gives. -/
def storedTy (valueTy : Ty) : Place → Ty
  | whole _ ty => ty
  | lanes .. => if valueTy.isShaped then valueTy else .float

theorem store_linear (value : TypedValue) (place : Place) (h : place.ty.hasValues = true) :
    LinearTo (place.store value) n (place.storedTy value.ty) := by
  cases place with
  | whole address ty =>
    exact .bind (coerce_linear _ h) fun _ _ => .bind (.emit rfl) fun _ _ => .pure rfl
  | lanes address baseTy selected => exact storeLanes_linear _ _ _ _

theorem step_linear (op : ArithOp) (givesOld : Bool) (place : Place)
    (h : place.ty.isArithmetic = true) : LinearTo (place.step op givesOld) n place.ty := by
  cases place with
  | whole address ty =>
    exact .bind (.emitValue rfl) fun _ _ => .bind (unitOf_linear h) fun _ _ => .bind (.emitValue rfl) fun _ _ =>
      .bind (.emit rfl) fun _ _ => .pure rfl
  | lanes address baseTy selected =>
    have hsteps : ∀ m, IsLinear (selected.forM (stepLane op address baseTy)) m := fun m =>
      .forM (fun lane m => stepLane_linear op address baseTy lane) _
    have hload : ∀ m, LinearTo (loadLanes address baseTy selected) m
        (Swizzle.resultTy selected.length) := fun m => load_linear (.lanes address baseTy selected)
    cases givesOld with
    | false => exact .bind (hsteps _) fun _ m => hload m
    | true => exact Linear.bind (hload _) fun _ _ m hty => Linear.bind (hsteps m) fun _ _ _ _ =>
        Linear.pure hty

end Place

theorem callFn_linear (f : FnDecl) (generated : String) (arguments : List Ir.Value) :
    LinearTo (callFn f generated arguments) n f.returnTy :=
  Linear.bind (P := fun _ _ _ => True) (.call (fun _ => trivial) fun _ => trivial)
    fun _ _ _ _ => Linear.pure rfl

theorem elementPlace_linear (array : Ir.Value) (ty : Ty) (index : TypedValue) :
    Linear (elementPlace array ty index) n fun place _ _ => ∃ address, place = .whole address ty := by
  refine Linear.bind (coerce_linear _ rfl) fun _ _ _ _ => ?_
  exact Linear.bind (IsLinear.emitValue rfl) fun address _ _ _ => Linear.pure ⟨address, rfl⟩

end ShaderLang.Lowering
