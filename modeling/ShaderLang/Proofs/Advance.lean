import ShaderLang.Lowering.Stmt
import ShaderLang.Proofs.ExprTotal
import ShaderLang.Proofs.Keeps

/-!
# Where expressions lead

Wherever code for an expression is added to an open block, it goes on to an open block and leaves no
other one unfinished that was not. That holds of every expression for which there is code, whether
the program was checked or not.

More generally, a relation between builders that holds across single instructions holds across all
straight-line code (`Straight`), and if it holds across conditionals too, across the code of every
expression (`Branching`, `expr_advances`).
-/

namespace ShaderLang.Lowering

open Ir (Build Builder Inst)

/-- Wherever the action succeeds in the builder, `Q` holds of its result and of the builder behind
it. -/
def Ensures {α : Type} (x : Emit α) (b : Builder) (Q : α → Builder → Prop) : Prop :=
  match x b with
  | .ok a b' => Q a b'
  | .error _ _ => True

/-- Wherever the action succeeds, the builder behind it is in this relation to the one before. -/
def Advances (R : Builder → Builder → Prop) {α : Type} (x : Emit α) : Prop :=
  ∀ b : Builder, Ensures x b fun _ b' => R b b'

/-- A relation between builders that holds across instructions, one or many. -/
class Straight (R : Builder → Builder → Prop) : Prop where
  refl (b : Builder) : R b b
  trans {b b' b'' : Builder} : R b b' → R b' b'' → R b b''
  emit (inst : Inst) : Advances R (liftM (Build.emit inst))
  emitValue (inst : Nat → Inst) : Advances R (liftM (Build.emitValue inst))

variable {α β ι : Type} {g : SymbolTable} {b b' : Builder} {R : Builder → Builder → Prop}

namespace Ensures

variable {x : Emit α} {f : α → Emit β} {P Q : α → Builder → Prop} {R : β → Builder → Prop}

theorem ok_imp {a : α} (h : Ensures x b Q) (hx : x b = .ok a b') : Q a b' := by
  unfold Ensures at h
  rwa [hx] at h

theorem intro (h : ∀ a b', x b = .ok a b' → Q a b') : Ensures x b Q := by
  unfold Ensures
  cases hx : x b with
  | ok a b' => exact h a b' hx
  | error fault b' => trivial

theorem imp (h : Ensures x b P) (hPQ : ∀ a b', x b = .ok a b' → P a b' → Q a b') :
    Ensures x b Q :=
  intro fun a b' hx => hPQ a b' hx (h.ok_imp hx)

theorem of_ok {a : α} (hx : x b = .ok a b') (h : Q a b') : Ensures x b Q := by
  unfold Ensures
  rwa [hx]

theorem pure {a : α} (h : Q a b) : Ensures (Pure.pure a) b Q :=
  of_ok rfl h

theorem throw {fault : Fault} : Ensures (MonadExcept.throw fault : Emit α) b Q :=
  trivial

theorem bind (h : Ensures x b P) (hf : ∀ a b', x b = .ok a b' → P a b' → Ensures (f a) b' R) :
    Ensures (x >>= f) b R := by
  cases hx : x b with
  | ok a b' =>
    have hrest := hf a b' hx (h.ok_imp hx)
    unfold Ensures at hrest ⊢
    rwa [Emit.bind_eq hx]
  | error fault b' =>
    have hfail : (x >>= f) b = .error fault b' := by simp [Bind.bind, EStateM.bind, hx]
    unfold Ensures
    rw [hfail]
    trivial

theorem bind_ok {a : α} (hx : x b = .ok a b') (hf : Ensures (f a) b' R) : Ensures (x >>= f) b R := by
  unfold Ensures
  rw [Emit.bind_eq hx]
  exact hf

theorem get_bind {k : Builder → Emit β} (h : Ensures (k b) b R) : Ensures (get >>= k) b R :=
  bind_ok (rfl : (get : Emit Builder) b = .ok b b) h

/-- Nothing is said of the result. -/
theorem any (x : Emit α) (b : Builder) : Ensures x b fun _ _ => True :=
  intro fun _ _ _ => trivial

theorem orFault {a : Option α} {fault : Fault} (h : ∀ v, a = some v → Q v b) :
    Ensures (Lowering.orFault a fault) b Q := by
  cases a with
  | none => exact throw
  | some v => exact pure (h v rfl)

theorem position_bind {id : Nat} {k : Unit → Emit β} (h : Ensures (k ()) (b.moveTo id) R) :
    Ensures (liftM (Build.position id) >>= k) b R :=
  bind_ok (Emit.lift_eq (Build.position_eq id)) h

theorem terminate {t : Ir.Terminator} {Q : Unit → Builder → Prop} (hb : b.IsOpen)
    (h : Q () (b.close t)) : Ensures (liftM (Build.terminate t)) b Q :=
  of_ok (Emit.lift_eq (Build.terminate_eq hb t)) h

theorem terminate_bind {t : Ir.Terminator} {k : Unit → Emit β} (hb : b.IsOpen)
    (h : Ensures (k ()) (b.close t) R) : Ensures (liftM (Build.terminate t) >>= k) b R :=
  bind_ok (Emit.lift_eq (Build.terminate_eq hb t)) h

/-- A block is added behind those that were added before. -/
theorem createBlock_bind {k : Nat → Emit β} (stems : List String) {stem : String}
    (hb : b.openFn.isSome)
    (h : Ensures (k (b.blockCount + stems.length)) (b.addBlocks (stems ++ [stem])) R) :
    Ensures (liftM (Build.createBlock stem) >>= k) (b.addBlocks stems) R := by
  apply bind_ok (Emit.lift_eq (Build.createBlock_eq (by simpa) stem))
  rw [Builder.blockCount_addBlocks stems hb]
  simpa only [Builder.addBlocks, List.foldl_append, List.foldl_cons, List.foldl_nil] using h

end Ensures

namespace Advances

variable [Straight R] {x : Emit α}

theorem pure (a : α) : Advances R (Pure.pure a) :=
  fun b => .pure (Straight.refl b)

omit [Straight R] in
theorem throw (fault : Fault) : Advances R (MonadExcept.throw fault : Emit α) :=
  fun _ => .throw

theorem bind {f : α → Emit β} (hx : Advances R x) (hf : ∀ a, Advances R (f a)) :
    Advances R (x >>= f) := by
  intro b
  apply (hx b).bind
  intro a b' _ h
  apply (hf a b').imp
  intro _ b'' _ h'
  exact Straight.trans h h'

theorem orFault (a : Option α) (fault : Fault) : Advances R (Lowering.orFault a fault) := by
  cases a with
  | none => exact throw fault
  | some v => exact pure v

theorem emit (inst : Inst) : Advances R (liftM (Build.emit inst)) :=
  Straight.emit inst

theorem emitValue (inst : Nat → Inst) : Advances R (liftM (Build.emitValue inst)) :=
  Straight.emitValue inst

theorem convert (op : Ir.Conversion) (value : Ir.Value) :
    Advances R (liftM (Build.convert op value)) := by
  rw [Build.convert_eq]
  split
  · exact pure _
  · exact emitValue _

theorem extractLane (vector : Ir.Value) (lane : Nat) :
    Advances R (liftM (Build.extractLane vector lane)) := by
  rw [Build.extractLane_eq]
  split
  · exact pure _
  · exact emitValue _

theorem call (callee : String) (arguments : List Ir.Value) (givesValue : Bool) :
    Advances R (liftM (Build.call callee arguments givesValue)) := by
  unfold Build.call
  cases givesValue with
  | true =>
    rw [if_pos rfl, Emit.lift_bind]
    exact bind (emitValue _) fun _ => pure _
  | false =>
    rw [if_neg Bool.false_ne_true, Emit.lift_bind]
    exact bind (emit _) fun _ => pure _

theorem foldlM {f : α → ι → Emit α} (hf : ∀ a i, Advances R (f a i)) (xs : List ι) (a : α) :
    Advances R (xs.foldlM f a) := by
  induction xs generalizing a with
  | nil => exact pure a
  | cons i xs ih =>
    rw [List.foldlM_cons]
    exact bind (hf a i) ih

theorem forM {f : ι → Emit Unit} (hf : ∀ i, Advances R (f i)) (xs : List ι) :
    Advances R (xs.forM f) := by
  induction xs with
  | nil => exact pure ()
  | cons i xs ih => exact bind (hf i) fun _ => ih

theorem mapM {f : ι → Emit α} (hf : ∀ i, Advances R (f i)) (xs : List ι) :
    Advances R (xs.mapM f) := by
  induction xs with
  | nil => exact pure []
  | cons i xs ih =>
    rw [List.mapM_cons]
    exact bind (hf i) fun _ => bind ih fun _ => pure _

end Advances

/-! ## Operations -/

section

variable [Straight R]

theorem spill_advances (array : TypedValue) : Advances R (spill array) :=
  .bind (.emitValue _) fun _ => .bind (.emit _) fun _ => .pure _

theorem splat_advances (scalar : Ir.Value) (lanes : Nat) : Advances R (splat scalar lanes) :=
  .foldlM (fun _ _ => .emitValue _) _ _

theorem convertScalar_advances (scalar : TypedValue) (target : Ty) :
    Advances R (convertScalar scalar target) := by
  unfold convertScalar
  split
  · exact .pure _
  · split <;> first | exact .convert _ _ | exact .emitValue _ | exact .throw _

theorem scalarOf_advances (value : Ir.Value) (t : Ty) : Advances R (scalarOf value t) := by
  induction t generalizing value with
  | array element length ih =>
    apply Advances.bind (spill_advances _)
    intro slot
    apply Advances.bind (.emitValue _)
    intro first
    exact .bind (.emitValue _) fun value => ih value
  | int | float | bool | void | error => exact .pure _
  | vec2 | vec3 | vec4 | mat2 | mat3 | mat4 => exact .bind (.extractLane _ _) fun _ => .pure _

theorem coerce_advances (typed : TypedValue) (target : Ty) : Advances R (coerce typed target) := by
  induction target generalizing typed with
  | void | error =>
    unfold coerce
    split
    · exact .pure _
    · first | exact .pure _ | exact .throw _
  | int | float | bool =>
    unfold coerce
    split
    · exact .pure _
    · exact .bind (scalarOf_advances _ _) fun _ => convertScalar_advances _ _
  | vec2 | vec3 | vec4 | mat2 | mat3 | mat4 =>
    unfold coerce
    split
    · exact .pure _
    · dsimp only
      split
      · split
        · exact .pure _
        · exact .bind (.extractLane _ _) fun _ => splat_advances _ _
      · exact .bind (scalarOf_advances _ _) fun _ =>
          .bind (convertScalar_advances _ _) fun _ => splat_advances _ _
  | array element length ih =>
    unfold coerce
    split
    · exact .pure _
    · apply Advances.bind (.emitValue _)
      intro slot
      dsimp only
      split
      · apply Advances.bind (spill_advances _)
        intro spilled
        refine .bind (.forM (fun k => ?_) _) fun _ => .emitValue _
        exact .bind (.emitValue _) fun _ => .bind (.emitValue _) fun _ => .bind (ih _) fun _ =>
          .bind (.emitValue _) fun _ => .emit _
      · apply Advances.bind (ih _)
        intro value
        refine .bind (.forM (fun k => ?_) _) fun _ => .emitValue _
        exact .bind (.emitValue _) fun _ => .emit _

theorem arithmeticView_advances (typed : TypedValue) : Advances R (arithmeticView typed) := by
  unfold arithmeticView
  split
  · exact .pure _
  · apply Advances.bind (scalarOf_advances _ _)
    intro scalar
    split
    · exact .bind (.convert _ _) fun _ => .pure _
    · exact .pure _

theorem zeroOf_advances (t : Ty) : Advances R (zeroOf t) := by
  unfold zeroOf
  split <;> first | exact .pure _ | (split; exact .pure _; exact .throw _)

theorem unitOf_advances (t : Ty) : Advances R (unitOf t) := by
  unfold unitOf
  split <;> first | exact .pure _ | (split; exact splat_advances _ _; exact .throw _)

theorem arith_advances (op : ArithOp) (left right : TypedValue) :
    Advances R (arith op left right) :=
  .bind (arithmeticView_advances _) fun _ => .bind (arithmeticView_advances _) fun _ =>
    .bind (coerce_advances _ _) fun _ => .bind (coerce_advances _ _) fun _ =>
      .bind (.emitValue _) fun _ => .pure _

theorem compareLane_advances (op : CompareOp) (left right : Ir.Value) (lane : Nat) :
    Advances R (compareLane op left right lane) :=
  .bind (.extractLane _ _) fun _ => .bind (.extractLane _ _) fun _ => .emitValue _

theorem compareLanes_advances (op : CompareOp) (left right : Ir.Value) (lanes : Nat) :
    Advances R (compareLanes op left right lanes) := by
  cases lanes with
  | zero => exact .throw _
  | succ lanes =>
    apply Advances.bind (compareLane_advances _ _ _ _)
    intro first
    refine .bind (.foldlM (fun _ _ => ?_) _ _) fun _ => .pure _
    exact .bind (compareLane_advances _ _ _ _) fun _ => .emitValue _

theorem compare_advances (op : CompareOp) (left right : TypedValue) :
    Advances R (compare op left right) := by
  unfold compare
  split
  · exact .bind (.emitValue _) fun _ => .pure _
  · apply Advances.bind (arithmeticView_advances _)
    intro left
    apply Advances.bind (arithmeticView_advances _)
    intro right
    split
    · exact .bind (coerce_advances _ _) fun _ => .bind (coerce_advances _ _) fun _ =>
        compareLanes_advances _ _ _ _
    · split
      · exact .bind (.emitValue _) fun _ => .pure _
      · exact .bind (coerce_advances _ _) fun _ => .bind (coerce_advances _ _) fun _ =>
          .bind (.emitValue _) fun _ => .pure _

theorem binary_advances (op : BinaryOp) (left right : TypedValue) :
    Advances R (binary op left right) := by
  cases op with
  | arith op => exact arith_advances op left right
  | compare op => exact compare_advances op left right
  | logic op =>
    exact .bind (coerce_advances _ _) fun _ => .bind (coerce_advances _ _) fun _ =>
      .bind (.emitValue _) fun _ => .pure _

theorem signed_advances (op : ArithOp) (operand : TypedValue) : Advances R (signed op operand) :=
  .bind (arithmeticView_advances _) fun _ => .bind (zeroOf_advances _) fun _ =>
    .bind (.emitValue _) fun _ => .pure _

theorem negated_advances (operand : TypedValue) : Advances R (negated operand) :=
  .bind (coerce_advances _ _) fun _ => .bind (.emitValue _) fun _ => .pure _

theorem argumentLanes_advances (argument : TypedValue) : Advances R (argumentLanes argument) := by
  unfold argumentLanes
  split
  · exact .mapM (fun _ => .extractLane _ _) _
  · exact .bind (coerce_advances _ _) fun _ => .pure _

theorem vectorOfLanes_advances (lanes : List Ir.Value) : Advances R (vectorOfLanes lanes) := by
  unfold vectorOfLanes
  split
  · exact .pure _
  · exact .foldlM (fun _ _ => .emitValue _) _ _

theorem concatenated_advances (width : Nat) (arguments : List TypedValue) :
    Advances R (concatenated width arguments) :=
  .bind (.mapM argumentLanes_advances _) fun _ => vectorOfLanes_advances _

theorem shaped_advances (width : Nat) (arguments : List TypedValue) :
    Advances R (shaped width arguments) := by
  unfold shaped
  split
  · split
    · exact concatenated_advances _ _
    · apply Advances.bind (coerce_advances _ _)
      intro scalar
      split
      · exact .pure _
      · exact splat_advances _ _
  · exact concatenated_advances _ _

theorem construct_advances (target : Ty) (arguments : List TypedValue) :
    Advances R (construct target arguments) := by
  unfold construct
  split
  · exact .bind (shaped_advances _ _) fun _ => .pure _
  · split
    · exact .throw _
    · split
      · exact .bind (coerce_advances _ _) fun _ => .pure _
      · exact .throw _

theorem selectLanes_advances (vector : Ir.Value) (lanes : List Nat) :
    Advances R (selectLanes vector lanes) := by
  unfold selectLanes
  split
  · exact .bind (.extractLane _ _) fun _ => .pure _
  · exact .bind (.emitValue _) fun _ => .pure _

theorem selectFrom_advances (base : TypedValue) (lanes : List Nat) :
    Advances R (selectFrom base lanes) := by
  unfold selectFrom
  split
  · exact selectLanes_advances _ _
  · exact .bind (coerce_advances _ _) fun _ => selectLanes_advances _ _

namespace Place

theorem load_advances (place : Place) : Advances R place.load := by
  cases place with
  | whole address ty => exact .bind (.emitValue _) fun _ => .pure _
  | lanes address baseTy selected =>
    exact .bind (.emitValue _) fun _ => selectLanes_advances _ _

theorem storeLane_advances (address : Ir.Value) (baseTy : Ty) (lane : Nat) (value : Ir.Value) :
    Advances R (storeLane address baseTy lane value) :=
  .bind (.emitValue _) fun _ => .bind (.emitValue _) fun _ => .emit _

theorem stepLane_advances (op : ArithOp) (address : Ir.Value) (baseTy : Ty) (lane : Nat) :
    Advances R (stepLane op address baseTy lane) :=
  .bind (.emitValue _) fun _ => .bind (.extractLane _ _) fun _ => .bind (.emitValue _) fun _ =>
    .bind (.emitValue _) fun _ => .emit _

theorem store_advances (value : TypedValue) (place : Place) : Advances R (place.store value) := by
  cases place with
  | whole address ty =>
    exact .bind (coerce_advances _ _) fun _ => .bind (.emit _) fun _ => .pure _
  | lanes address baseTy selected =>
    unfold Place.store storeLanes
    dsimp only
    split
    · refine .bind (.forM (fun _ => ?_) _) fun _ => .pure _
      exact .bind (.extractLane _ _) fun _ => storeLane_advances _ _ _ _
    · apply Advances.bind (coerce_advances _ _)
      intro scalar
      exact .bind (.forM (fun _ => storeLane_advances _ _ _ _) _) fun _ => .pure _

theorem step_advances (op : ArithOp) (givesOld : Bool) (place : Place) :
    Advances R (place.step op givesOld) := by
  cases place with
  | whole address ty =>
    exact .bind (.emitValue _) fun _ => .bind (unitOf_advances _) fun _ =>
      .bind (.emitValue _) fun _ => .bind (.emit _) fun _ => .pure _
  | lanes address baseTy selected =>
    have hsteps : Advances R (selected.forM (stepLane op address baseTy)) :=
      .forM (fun lane => stepLane_advances op address baseTy lane) _
    have hload : Advances R (loadLanes address baseTy selected) :=
      load_advances (.lanes address baseTy selected)
    cases givesOld with
    | false => exact .bind hsteps fun _ => hload
    | true => exact .bind hload fun _ => .bind hsteps fun _ => .pure _

theorem elementTy_advances (place : Place) : Advances R place.elementTy := by
  unfold elementTy
  split
  · exact .throw _
  · split
    · exact .pure _
    · exact .throw _

theorem select_advances (field : String) (mask : List Nat) (place : Place) :
    Advances R (place.select field mask) := by
  cases place with
  | whole address ty => exact .pure _
  | lanes address baseTy selected => exact .bind (.orFault _ _) fun _ => .pure _

end Place

theorem callFn_advances (f : FnDecl) (generated : String) (arguments : List Ir.Value) :
    Advances R (callFn f generated arguments) :=
  .bind (.call _ _ _) fun _ => .pure _

theorem elementPlace_advances (array : Ir.Value) (ty : Ty) (index : TypedValue) :
    Advances R (elementPlace array ty index) :=
  .bind (coerce_advances _ _) fun _ => .bind (.emitValue _) fun _ => .pure _

theorem variablePlace_advances (name : String) : Advances R (variablePlace g name) := by
  unfold variablePlace
  split
  · exact .throw _
  · split
    · exact .pure _
    · exact .throw _

theorem function?_advances (name : String) : Advances R (function? g name) := by
  unfold function?
  split
  · exact .throw _
  · split
    · exact .pure _
    · exact .throw _

end

/-! ## Open blocks -/

/-- If the block was open, the code goes on to an open block. -/
def GoesOn (b b' : Builder) : Prop :=
  b.IsOpen → b.Flows b'

instance : Straight GoesOn where
  refl _ := .refl
  trans h h' hb := (h hb).trans (h' (h hb).isOpen)
  emit inst b := by
    refine .intro fun _ b' hx hb => ?_
    obtain rfl := Build.emit_eq_ok (Emit.lift_eq_ok hx)
    exact .append hb _ (Nat.le_refl _)
  emitValue inst b := by
    refine .intro fun _ b' hx hb => ?_
    obtain ⟨-, rfl⟩ := Build.emitValue_eq_ok (Emit.lift_eq_ok hx)
    exact .append hb _ (Nat.le_succ _)

/-- Wherever the action succeeds in an open block, it goes on to an open block. -/
theorem Advances.flows {x : Emit α} (h : Advances GoesOn x) (hb : b.IsOpen) :
    Ensures x b fun _ b' => b.Flows b' :=
  (h b).imp fun _ _ _ h => h hb

/-! ## Conditionals -/

theorem endArm_ensures {block joined : Nat} {slot : Ir.Value} {ty : Ty} {value : TypedValue}
    (hblock : b.Unfinished block) :
    Ensures (endArm block joined slot ty value) b fun _ b' => b.Closes block b' := by
  apply Ensures.position_bind
  apply ((coerce_advances value ty).flows (Builder.isOpen_moveTo.mpr hblock)).bind
  intro stored b₁ _ h₁
  apply ((Advances.emit _).flows h₁.isOpen).bind
  intro _ b₂ _ h₂
  apply Ensures.terminate h₂.isOpen
  exact (h₁.trans h₂).closes _

theorem joinArms_ensures {origin trueEnd falseEnd joined : Nat} {ifTrue ifFalse : TypedValue}
    (horigin : origin < b.blockCount) (htrue : b.Unfinished trueEnd)
    (hfalse : b.Unfinished falseEnd) (hjoined : b.Unfinished joined) (hne : falseEnd ≠ trueEnd)
    (hjt : joined ≠ trueEnd) (hjf : joined ≠ falseEnd) :
    Ensures (joinArms origin trueEnd falseEnd joined ifTrue ifFalse) b fun _ b' =>
      Joins b origin trueEnd falseEnd joined b' := by
  unfold joinArms
  generalize armTy ifTrue.ty ifFalse.ty = ty
  dsimp only
  split
  · have hopen := Builder.isOpen_moveTo.mpr htrue
    have hend := (Builder.Flows.refl hopen).closes (.branch joined)
    have hopen' := Builder.isOpen_moveTo.mpr ((hend.unfinished falseEnd).mpr ⟨hfalse, hne⟩)
    have hend' := (Builder.Flows.refl hopen').closes (.branch joined)
    apply Ensures.position_bind
    apply Ensures.terminate_bind hopen
    apply Ensures.position_bind
    apply Ensures.terminate_bind hopen'
    apply Ensures.position_bind
    apply Ensures.pure
    exact .of_closes (fun _ h _ => h) (fun _ => Iff.rfl) hend hend'
  · have hun : ∀ id, (b.allocIn origin ty.toIr "cond").Unfinished id ↔ b.Unfinished id :=
      fun id => Builder.Unfinished.allocIn origin ty.toIr "cond"
    apply Ensures.bind_ok (Emit.lift_eq (Build.allocaIn_eq horigin _ _))
    apply (endArm_ensures ((hun _).mpr htrue)).bind
    intro _ b₂ _ hend
    apply (endArm_ensures ((hend.unfinished _).mpr ⟨(hun _).mpr hfalse, hne⟩)).bind
    intro _ b₃ _ hend'
    have hjoins : Joins b origin trueEnd falseEnd joined (b₃.moveTo joined) :=
      .of_closes (fun _ h ho => h.allocIn ho _ _) hun hend hend'
    have hopen : (b₃.moveTo joined).IsOpen := by
      rw [Builder.isOpen_moveTo]
      exact (hjoins.unfinished joined).mpr ⟨hjoined, hjt, hjf⟩
    apply Ensures.position_bind
    apply Ensures.bind_ok (Emit.lift_eq (Build.emitValue_eq hopen _))
    apply Ensures.pure
    exact hjoins.append hopen _ (Nat.le_succ _)

section

variable {ifTrue ifFalse : Expr} (htrue : Advances GoesOn (expr g ifTrue))
  (hfalse : Advances GoesOn (expr g ifFalse))

include htrue hfalse

theorem arms_ensures {origin n : Nat} (horigin : origin < b.blockCount) (hn : b.Unfinished n)
    (hn₁ : b.Unfinished (n + 1)) (hn₂ : b.Unfinished (n + 2)) :
    Ensures (arms g ifTrue ifFalse origin n (n + 1) (n + 2)) b fun _ b' =>
      b'.insertion = some (n + 2) ∧
        (∀ id, b'.Unfinished id ↔ b.Unfinished id ∧ id ≠ n ∧ id ≠ n + 1) ∧
        ∀ b₀ : Builder, b₀.Extends b → b₀.Reaches origin → b₀.blockCount ≤ n → b₀.Extends b' := by
  apply Ensures.position_bind
  apply (htrue.flows (Builder.isOpen_moveTo.mpr hn)).bind
  intro trueValue b₁ _ h₁
  obtain ⟨trueEnd, hins₁, -⟩ := id h₁.isOpen
  apply Ensures.bind_ok (currentBlockD_eq hins₁)
  have hopen₁ : (b₁.moveTo (n + 1)).IsOpen := by
    have hw₁ := (h₁.waits (n + 1)).mpr ⟨hn₁, by simp⟩
    exact Builder.isOpen_moveTo.mpr hw₁.1
  apply Ensures.position_bind
  apply (hfalse.flows hopen₁).bind
  intro falseValue b₂ _ h₂
  obtain ⟨falseEnd, hins₂, -⟩ := id h₂.isOpen
  apply Ensures.bind_ok (currentBlockD_eq hins₂)
  have hend := ArmsEnd.of_flows hn₁ h₁ hins₁ h₂ hins₂
  have hle₁ := h₁.ext.blockCount_le
  have hle₂ := h₂.ext.blockCount_le
  simp only [Builder.blockCount_moveTo] at hle₁ hle₂
  have hjoined := hend.new (n + 2) hn₂ (by omega) (by omega)
  apply (joinArms_ensures (by omega) ((hend.unfinished _).mpr (.inr (.inl rfl)))
    ((hend.unfinished _).mpr (.inr (.inr rfl)))
    ((hend.unfinished _).mpr (.inl ⟨hn₂, by omega, by omega⟩)) hend.ne hjoined.1 hjoined.2).imp
  intro _ b₃ _ hjoins
  exact ⟨hjoins.insertion, hend.joins hjoins⟩

theorem conditional_flows {span : Span} {test : Expr} (htest : Advances GoesOn (expr g test))
    (hb : b.IsOpen) :
    Ensures (expr g (.conditional span test ifTrue ifFalse)) b fun _ b' => b.Flows b' := by
  rw [expr]
  apply (htest.flows hb).bind
  intro value b₁ _ h₁
  apply ((coerce_advances value .bool).flows h₁.isOpen).bind
  intro cond b₂ _ h₂
  have hflow := h₁.trans h₂
  have hopen := h₂.isOpen
  obtain ⟨origin, horigin, hun⟩ := id hopen
  apply Ensures.get_bind
  have hfound : orFault b₂.insertion .conditionalOutsideBlock b₂ = .ok origin b₂ := by
    rw [horigin]
    rfl
  apply Ensures.bind_ok hfound
  apply Ensures.createBlock_bind [] hopen.isSome
  apply Ensures.createBlock_bind ["cond.then"] hopen.isSome
  apply Ensures.createBlock_bind ["cond.then", "cond.else"] hopen.isSome
  apply Ensures.terminate_bind (hopen.addBlocks _)
  change Ensures (arms g ifTrue ifFalse origin b₂.blockCount (b₂.blockCount + 1) (b₂.blockCount + 2))
    (b₂.fork ["cond.then", "cond.else", "cond.end"]
      (.condBranch cond b₂.blockCount (b₂.blockCount + 1))) _
  have hfork := Builder.unfinished_fork ["cond.then", "cond.else", "cond.end"]
    (.condBranch cond b₂.blockCount (b₂.blockCount + 1)) hopen
  have hcount := Builder.blockCount_fork ["cond.then", "cond.else", "cond.end"]
    (.condBranch cond b₂.blockCount (b₂.blockCount + 1)) hopen
  have hext := hflow.ext.fork ["cond.then", "cond.else", "cond.end"]
    (.condBranch cond b₂.blockCount (b₂.blockCount + 1)) hopen
  have hlt := hun.lt
  simp only [List.length_cons, List.length_nil] at hfork hcount
  apply (arms_ensures htrue hfalse (by omega) ((hfork _).mpr (by omega)) ((hfork _).mpr (by omega))
    ((hfork _).mpr (by omega))).imp
  rintro a b₃ - ⟨hins, hun₃, hext₃⟩
  exact flows_behind_arms hflow rfl hins hun₃
    (hext₃ b hext (hflow.ext.current horigin) hflow.ext.blockCount_le)

end

/-! ## Expressions -/

/-- A relation that holds across a conditional if it holds across its test and across both arms. -/
class Branching (R : Builder → Builder → Prop) : Prop extends Straight R where
  conditional {g : SymbolTable} {span : Span} {test ifTrue ifFalse : Expr}
    (htest : Advances R (expr g test)) (htrue : Advances R (expr g ifTrue))
    (hfalse : Advances R (expr g ifFalse)) :
    Advances R (expr g (.conditional span test ifTrue ifFalse))

instance : Branching GoesOn where
  conditional htest htrue hfalse b := by
    by_cases hb : b.IsOpen
    · exact (conditional_flows htrue hfalse htest hb).imp fun _ _ _ h _ => h
    · exact (Ensures.any _ b).imp fun _ _ _ _ h => absurd h hb

section

variable [Branching R]

mutual

/-- A relation that holds across instructions and conditionals holds across every expression. -/
theorem expr_advances (g : SymbolTable) (e : Expr) : Advances R (expr g e) := by
  match e with
  | .int .. | .float .. | .bool .. => exact .pure _
  | .var _ name =>
    rw [expr]
    exact .bind (variablePlace_advances _) fun place => place.load_advances
  | .index _ base position =>
    rw [expr]
    apply Advances.bind (placeOf_advances g base)
    intro place
    apply Advances.bind place.elementTy_advances
    intro element
    apply Advances.bind (expr_advances g position)
    intro index
    exact .bind (elementPlace_advances _ _ _) fun place => place.load_advances
  | .binary _ op left right =>
    rw [expr]
    exact .bind (expr_advances g left) fun _ => .bind (expr_advances g right) fun _ =>
      binary_advances _ _ _
  | .unary _ op operand =>
    cases op with
    | plus | minus =>
      rw [expr]
      exact .bind (expr_advances g operand) fun _ => signed_advances _ _
    | not =>
      rw [expr]
      exact .bind (expr_advances g operand) fun _ => negated_advances _
    | step direction =>
      rw [expr]
      exact .bind (placeOf_advances g operand) fun place => place.step_advances _ _
  | .assign _ op target value =>
    rw [expr]
    apply Advances.bind (placeOf_advances g target)
    intro place
    cases op with
    | plain => exact .bind (expr_advances g value) fun _ => place.store_advances _
    | compound op =>
      apply Advances.bind place.load_advances
      intro current
      apply Advances.bind (expr_advances g value)
      intro rhs
      exact .bind (arith_advances _ _ _) fun _ => place.store_advances _
  | .stepAfter _ direction operand =>
    rw [expr]
    exact .bind (placeOf_advances g operand) fun place => place.step_advances _ _
  | .conditional _ test ifTrue ifFalse =>
    exact Branching.conditional (expr_advances g test) (expr_advances g ifTrue)
      (expr_advances g ifFalse)
  | .field _ base name =>
    rw [expr]
    exact .bind (.orFault _ _) fun _ => .bind (expr_advances g base) fun _ =>
      selectFrom_advances _ _
  | .call _ callee arguments =>
    rw [expr]
    apply Advances.bind (function?_advances _)
    intro f
    exact .bind (actuals_advances g _ arguments) fun _ => callFn_advances _ _ _
  | .construct _ target arguments =>
    rw [expr]
    exact .bind (exprs_advances g arguments) fun _ => construct_advances _ _

theorem exprs_advances (g : SymbolTable) (es : List Expr) : Advances R (exprs g es) := by
  match es with
  | [] => exact .pure _
  | e :: rest =>
    rw [exprs]
    exact .bind (expr_advances g e) fun _ => .bind (exprs_advances g rest) fun _ => .pure _

theorem actuals_advances (g : SymbolTable) (formals : List VarDecl) (es : List Expr) :
    Advances R (actuals g formals es) := by
  match es, formals with
  | [], _ => exact .pure _
  | e :: rest, [] => exact .pure _
  | e :: rest, formal :: formals =>
    rw [actuals]
    exact .bind (expr_advances g e) fun _ => .bind (coerce_advances _ _) fun _ =>
      .bind (actuals_advances g formals rest) fun _ => .pure _

theorem placeOf_advances (g : SymbolTable) (e : Expr) : Advances R (placeOf g e) := by
  match e with
  | .var _ name => exact variablePlace_advances _
  | .index _ base position =>
    rw [placeOf]
    apply Advances.bind (placeOf_advances g base)
    intro place
    apply Advances.bind place.elementTy_advances
    intro element
    exact .bind (expr_advances g position) fun _ => elementPlace_advances _ _ _
  | .field _ base name =>
    rw [placeOf]
    exact .bind (.orFault _ _) fun _ => .bind (placeOf_advances g base) fun place =>
      place.select_advances _ _
  | .int .. | .float .. | .bool .. | .binary .. | .unary .. | .assign .. | .stepAfter .. |
    .conditional .. | .call .. | .construct .. => exact .throw _

end

/-! ## Parts of statements -/

theorem discard_advances (g : SymbolTable) (e : Expr) : Advances R (discard g e) :=
  .bind (expr_advances g e) fun _ => .pure _

theorem condition_advances (g : SymbolTable) (e : Expr) : Advances R (condition g e) :=
  .bind (expr_advances g e) fun _ => coerce_advances _ _

theorem localVar_advances (g : SymbolTable) (v : VarDecl) : Advances R (localVar g v) := by
  unfold localVar
  apply Advances.bind (.emitValue _)
  intro address
  split
  · exact .bind (expr_advances g _) fun _ => .bind (coerce_advances _ _) fun _ =>
      .bind (.emit _) fun _ => .pure _
  · exact .bind (.pure _) fun _ => .pure _

theorem returnValue_advances (g : SymbolTable) (returnTy : Ty) (value : Option Expr) :
    Advances R (returnValue g returnTy value) := by
  cases value with
  | none => exact .pure _
  | some e =>
    apply Advances.bind (expr_advances g e)
    intro value
    split
    · exact .pure _
    · exact .bind (coerce_advances _ _) fun _ => .pure _

end

end ShaderLang.Lowering
