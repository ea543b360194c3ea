import ShaderLang.Lowering.Program
import ShaderLang.Proofs.Advance

/-!
# Temporary values are numbered upwards

No code takes the number of a temporary value back: behind an expression or a statement the next
number is at least the one before (`stmt_climbs`, and `expr_advances` for expressions). So the slot of
a variable that has been declared is below all temporary values that are still to come.
-/

namespace ShaderLang.Lowering

open Ir (Build Builder)

/-- The number of the next temporary value has not become less. -/
def Climbs (b b' : Builder) : Prop :=
  b.nextTemp ≤ b'.nextTemp

variable {α β : Type} {g : SymbolTable} {b b' : Builder}

namespace Climbs

instance : Straight Climbs where
  refl _ := Nat.le_refl _
  trans := Nat.le_trans
  emit inst b := by
    refine .intro fun _ b' hx => ?_
    obtain rfl := Build.emit_eq_ok (Emit.lift_eq_ok hx)
    exact Nat.le_of_eq (Builder.nextTemp_append _ _).symm
  emitValue inst b := by
    refine .intro fun _ b' hx => ?_
    rw [Climbs, (Build.emitValue_eq_ok (Emit.lift_eq_ok hx)).2, Builder.nextTemp_append]
    exact Nat.le_succ _

/-! ## Blocks -/

theorem createBlock (stem : String) : Advances Climbs (liftM (Build.createBlock stem)) := by
  refine fun b => .intro fun _ b' hx => ?_
  obtain ⟨-, rfl⟩ := Build.createBlock_eq_ok (Emit.lift_eq_ok hx)
  exact Nat.le_refl _

theorem position (id : Nat) : Advances Climbs (liftM (Build.position id)) :=
  fun _ => Nat.le_refl _

theorem terminate (t : Ir.Terminator) : Advances Climbs (liftM (Build.terminate t)) := by
  refine fun b => .intro fun _ b' hx => ?_
  obtain rfl := Build.terminate_eq_ok (Emit.lift_eq_ok hx)
  exact Nat.le_of_eq (Builder.nextTemp_close t).symm

theorem allocaIn (id : Nat) (ty : Ir.Ty) (name : String) :
    Advances Climbs (liftM (Build.allocaIn id ty name)) := by
  refine fun b => .intro fun _ b' hx => ?_
  rw [Climbs, (Build.allocaIn_eq_ok (Emit.lift_eq_ok hx)).2, Builder.nextTemp_allocIn]
  exact Nat.le_succ _

theorem get_bind {k : Builder → Emit β} (h : ∀ b, Advances Climbs (k b)) :
    Advances Climbs (get >>= k) :=
  fun b => .get_bind (h b b)

end Climbs

/-! ## Conditionals -/

theorem currentBlockD_climbs (default : Nat) : Advances Climbs (currentBlockD default) :=
  Climbs.get_bind fun _ => .pure _

theorem endArm_climbs (block joined : Nat) (slot : Ir.Value) (ty : Ty) (value : TypedValue) :
    Advances Climbs (endArm block joined slot ty value) :=
  .bind (Climbs.position _) fun _ => .bind (coerce_advances _ _) fun _ => .bind (.emit _) fun _ =>
    Climbs.terminate _

theorem joinArms_climbs (origin trueEnd falseEnd joined : Nat) (ifTrue ifFalse : TypedValue) :
    Advances Climbs (joinArms origin trueEnd falseEnd joined ifTrue ifFalse) := by
  unfold joinArms
  dsimp only
  split
  · exact .bind (Climbs.position _) fun _ => .bind (Climbs.terminate _) fun _ =>
      .bind (Climbs.position _) fun _ => .bind (Climbs.terminate _) fun _ =>
        .bind (Climbs.position _) fun _ => .pure _
  · exact .bind (Climbs.allocaIn _ _ _) fun _ => .bind (endArm_climbs _ _ _ _ _) fun _ =>
      .bind (endArm_climbs _ _ _ _ _) fun _ => .bind (Climbs.position _) fun _ =>
        .bind (.emitValue _) fun _ => .pure _

instance : Branching Climbs where
  conditional htest htrue hfalse := by
    rw [expr]
    apply Advances.bind htest
    intro condition
    apply Advances.bind (coerce_advances _ _)
    intro condition
    apply Climbs.get_bind
    intro b
    apply Advances.bind (.orFault _ _)
    intro origin
    apply Advances.bind (Climbs.createBlock _)
    intro trueBlock
    apply Advances.bind (Climbs.createBlock _)
    intro falseBlock
    apply Advances.bind (Climbs.createBlock _)
    intro joined
    apply Advances.bind (Climbs.terminate _)
    intro _
    apply Advances.bind (Climbs.position _)
    intro _
    apply Advances.bind htrue
    intro trueValue
    apply Advances.bind (currentBlockD_climbs _)
    intro trueEnd
    apply Advances.bind (Climbs.position _)
    intro _
    apply Advances.bind hfalse
    intro falseValue
    apply Advances.bind (currentBlockD_climbs _)
    intro falseEnd
    exact joinArms_climbs _ _ _ _ _ _

/-! ## Parts of statements -/

theorem ensureOpen_climbs : Advances Climbs ensureOpen := by
  apply Climbs.get_bind
  intro b
  split
  · exact .bind (Climbs.createBlock _) fun _ => Climbs.position _
  · exact .pure _

theorem branchIfOpen_climbs (target : Nat) : Advances Climbs (branchIfOpen target) := by
  apply Climbs.get_bind
  intro b
  split
  · exact .pure _
  · exact Climbs.terminate _

theorem forInit_climbs (g : SymbolTable) (init : Option ForInit) :
    Advances Climbs (forInit g init) := by
  match init with
  | none => exact .pure _
  | some (.expr e) => exact .bind (discard_advances g e) fun _ => .pure _
  | some (.declare v) => exact localVar_advances g v

theorem blockFor_climbs (content : Option α) (stem : String) :
    Advances Climbs (blockFor content stem) := by
  cases content with
  | none => exact .pure _
  | some x => exact .bind (Climbs.createBlock _) fun _ => .pure _

theorem loopTest_climbs (g : SymbolTable) (test : Option Expr) (body exit : Nat) :
    Advances Climbs (loopTest g test body exit) := by
  cases test with
  | none => exact Climbs.terminate _
  | some e => exact .bind (condition_advances g e) fun _ => Climbs.terminate _

theorem loopStep_climbs (g : SymbolTable) (head : Nat) (block : Option Nat) (step : Option Expr) :
    Advances Climbs (loopStep g head block step) := by
  unfold loopStep
  split
  · exact .bind (Climbs.position _) fun _ => .bind (discard_advances g _) fun _ =>
      Climbs.terminate _
  · exact .pure _

theorem armBlocks_climbs {Body : Type} (arms : List (Arm Body)) :
    Advances Climbs (armBlocks arms) :=
  .mapM (fun _ => Climbs.createBlock _) arms

theorem dispatch_climbs {Body : Type} (default : Nat) (arms : List (Arm Body))
    (blocks : List Nat) : Advances Climbs (dispatch default arms blocks) := by
  induction arms generalizing default blocks with
  | nil =>
    unfold dispatch
    exact .pure _
  | cons arm arms ih =>
    cases blocks with
    | nil =>
      unfold dispatch
      exact .pure _
    | cons block blocks =>
      unfold dispatch
      split
      · exact ih _ _
      · exact .bind (.orFault _ _) fun _ => .bind (ih _ _) fun _ => .pure _

theorem formals_climbs (g : SymbolTable) (vs : List VarDecl) : Advances Climbs (formals g vs) := by
  induction vs generalizing g with
  | nil => exact .pure _
  | cons v rest ih => exact .bind (.emitValue _) fun _ => .bind (.emit _) fun _ => ih _

/-! ## Statements -/

mutual

theorem stmt_climbs (context : Context) (g : SymbolTable) (s : Stmt) :
    Advances Climbs (stmt context g s) := by
  match s with
  | .expr _ e =>
    rw [stmt]
    exact .bind ensureOpen_climbs fun _ => .bind (discard_advances g e) fun _ => .pure _
  | .empty _ =>
    rw [stmt]
    exact .bind ensureOpen_climbs fun _ => .pure _
  | .declare v =>
    rw [stmt]
    exact .bind ensureOpen_climbs fun _ => localVar_advances g v
  | .block _ body =>
    rw [stmt]
    exact .bind ensureOpen_climbs fun _ => .bind (stmts_climbs context _ body) fun _ => .pure _
  | .ifThen _ test ifTrue =>
    rw [stmt]
    exact .bind ensureOpen_climbs fun _ => .bind (condition_advances g test) fun _ =>
      .bind (Climbs.createBlock _) fun _ => .bind (Climbs.createBlock _) fun _ =>
        .bind (Climbs.terminate _) fun _ => .bind (Climbs.position _) fun _ =>
          .bind (stmt_climbs context _ ifTrue) fun _ => .bind (branchIfOpen_climbs _) fun _ =>
            .bind (Climbs.position _) fun _ => .pure _
  | .ifElse _ test ifTrue ifFalse =>
    rw [stmt]
    apply Advances.bind ensureOpen_climbs
    intro _
    apply Advances.bind (condition_advances g test)
    intro value
    apply Advances.bind (Climbs.createBlock _)
    intro trueBlock
    apply Advances.bind (Climbs.createBlock _)
    intro falseBlock
    apply Advances.bind (Climbs.createBlock _)
    intro footer
    exact .bind (Climbs.terminate _) fun _ => .bind (Climbs.position _) fun _ =>
      .bind (stmt_climbs context _ ifTrue) fun _ => .bind (branchIfOpen_climbs _) fun _ =>
        .bind (Climbs.position _) fun _ => .bind (stmt_climbs context _ ifFalse) fun _ =>
          .bind (branchIfOpen_climbs _) fun _ => .bind (Climbs.position _) fun _ => .pure _
  | .whileLoop _ test body =>
    rw [stmt]
    apply Advances.bind ensureOpen_climbs
    intro _
    apply Advances.bind (Climbs.createBlock _)
    intro head
    apply Advances.bind (Climbs.createBlock _)
    intro bodyBlock
    apply Advances.bind (Climbs.createBlock _)
    intro footer
    exact .bind (Climbs.terminate _) fun _ => .bind (Climbs.position _) fun _ =>
      .bind (loopTest_climbs g _ _ _) fun _ => .bind (Climbs.position _) fun _ =>
        .bind (stmt_climbs _ _ body) fun _ => .bind (branchIfOpen_climbs _) fun _ =>
          .bind (Climbs.position _) fun _ => .pure _
  | .forLoop _ init test step body =>
    rw [stmt]
    apply Advances.bind ensureOpen_climbs
    intro _
    apply Advances.bind (forInit_climbs _ init)
    intro inner
    apply Advances.bind (Climbs.createBlock _)
    intro head
    apply Advances.bind (Climbs.createBlock _)
    intro bodyBlock
    apply Advances.bind (blockFor_climbs step _)
    intro stepBlock
    apply Advances.bind (Climbs.createBlock _)
    intro footer
    exact .bind (Climbs.terminate _) fun _ => .bind (Climbs.position _) fun _ =>
      .bind (loopTest_climbs inner test _ _) fun _ => .bind (Climbs.position _) fun _ =>
        .bind (stmt_climbs _ _ body) fun _ => .bind (branchIfOpen_climbs _) fun _ =>
          .bind (loopStep_climbs inner _ _ step) fun _ => .bind (Climbs.position _) fun _ =>
            .pure _
  | .switch _ value arms =>
    rw [stmt]
    apply Advances.bind ensureOpen_climbs
    intro _
    apply Advances.bind (expr_advances g value)
    intro value
    apply Advances.bind (coerce_advances _ _)
    intro found
    apply Advances.bind (armBlocks_climbs arms)
    intro blocks
    apply Advances.bind (Climbs.createBlock _)
    intro footer
    apply Advances.bind (dispatch_climbs footer arms blocks)
    intro cases
    exact .bind (Climbs.terminate _) fun _ => .bind (armBodies_climbs _ g _ _ arms) fun _ =>
      .bind (Climbs.position _) fun _ => .pure _
  | .breakStmt _ | .continueStmt _ =>
    rw [stmt]
    exact .bind ensureOpen_climbs fun _ => .bind (.orFault _ _) fun _ =>
      .bind (Climbs.terminate _) fun _ => .pure _
  | .returnStmt _ value =>
    rw [stmt]
    exact .bind ensureOpen_climbs fun _ => .bind (returnValue_advances g _ value) fun _ =>
      .bind (Climbs.terminate _) fun _ => .pure _

theorem stmts_climbs (context : Context) (g : SymbolTable) (body : List Stmt) :
    Advances Climbs (stmts context g body) := by
  match body with
  | [] => exact .pure _
  | s :: rest =>
    rw [stmts]
    exact .bind (stmt_climbs context g s) fun g' => stmts_climbs context g' rest

theorem armBodies_climbs (context : Context) (g : SymbolTable) (footer : Nat) (blocks : List Nat)
    (arms : List (Arm (List Stmt))) : Advances Climbs (armBodies context g footer blocks arms) := by
  match arms, blocks with
  | [], _ => exact .pure _
  | ⟨_, body, _⟩ :: rest, [] => exact .pure _
  | ⟨_, body, _⟩ :: rest, block :: blocks =>
    rw [armBodies]
    exact .bind (Climbs.position _) fun _ => .bind (stmts_climbs context _ body) fun _ =>
      .bind (branchIfOpen_climbs _) fun _ => armBodies_climbs context g footer blocks rest

end

end ShaderLang.Lowering
