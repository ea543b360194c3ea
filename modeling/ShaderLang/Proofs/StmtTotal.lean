import Mathlib.Data.List.Forall2
import ShaderLang.Lowering.Stmt
import ShaderLang.Proofs.CleanStmt
import ShaderLang.Proofs.ExprTotal

/-!
# Lowering clean statements

A clean statement is lowered exactly if every expression in it has code (`stmt_emits`). The block
that it ends in may be closed; every other block that it adds is.
-/

namespace ShaderLang

open Check

mutual

/-- Whether the lowering has code for every expression of a statement. -/
def StmtHasCode (c : SymbolTable) : Stmt → Prop
  | .expr _ e => HasCode c e
  | .empty _ | .breakStmt _ | .continueStmt _ => True
  | .declare v => ∀ e ∈ v.init, HasCode c e
  | .block _ body => StmtsHaveCode c.push body
  | .ifThen _ test ifTrue => HasCode c test ∧ StmtHasCode c.push ifTrue
  | .ifElse _ test ifTrue ifFalse =>
    HasCode c test ∧ StmtHasCode c.push ifTrue ∧ StmtHasCode c.push ifFalse
  | .whileLoop _ test body => HasCode c test ∧ StmtHasCode c.push body
  | .forLoop _ init test step body =>
    InitHasCode c.push init ∧ (∀ e ∈ test, HasCode (c.push.behindInit init) e) ∧
      StmtHasCode (c.push.behindInit init).push body ∧
        ∀ e ∈ step, HasCode (c.push.behindInit init) e
  | .switch _ value arms => HasCode c value ∧ ArmsHaveCode c arms
  | .returnStmt _ value => ∀ e ∈ value, HasCode c e

/-- Whether the lowering has code for every expression of these statements. -/
def StmtsHaveCode (c : SymbolTable) : List Stmt → Prop
  | [] => True
  | s :: rest => StmtHasCode c s ∧ StmtsHaveCode (c.behind s) rest

/-- Whether the lowering has code for every expression in the bodies of these arms. -/
def ArmsHaveCode (c : SymbolTable) : List (Arm (List Stmt)) → Prop
  | [] => True
  | ⟨_, body, _⟩ :: rest => StmtsHaveCode c.push body ∧ ArmsHaveCode c rest

/-- Whether the lowering has code for what a `for` loop begins with. -/
def InitHasCode (c : SymbolTable) : Option ForInit → Prop
  | some (.expr e) => HasCode c e
  | some (.declare v) => ∀ e ∈ v.init, HasCode c e
  | none => True

end

namespace Lowering

open Ir (Builder Build)

variable {c g : SymbolTable} {b : Builder}

/-! ## Parts of statements -/

/-- Behind a closed block, control goes on in a new one. -/
theorem flows_dead (hb : b.Placed) (hclosed : ¬ b.IsOpen) :
    b.Flows ((b.addBlock "dead").moveTo b.blockCount) := by
  obtain ⟨cur, hcur, -⟩ := id hb
  have hcurrent : ¬ b.Unfinished cur := fun h => hclosed ⟨cur, hcur, h⟩
  refine ⟨?_, fun id => ?_, ?_⟩
  · exact Builder.isOpen_moveTo.mpr ((Builder.Unfinished.addBlock _ hb.isSome).mpr (.inr rfl))
  · have hlt : b.Unfinished id → id < b.blockCount := fun h => h.lt
    simp only [Builder.Waits, Builder.Unfinished.moveTo, Builder.insertion_moveTo,
      Builder.Unfinished.addBlock _ hb.isSome, hcur]
    grind
  · exact ((Builder.Extends.refl b).addBlock hb.isSome _).moveTo (.inr (Nat.le_refl _))

theorem not_isOpen_of_isTerminated (hb : b.Placed) (hterm : b.isTerminated = true) : ¬ b.IsOpen := by
  intro hopen
  rw [hb.isTerminated.mpr hopen] at hterm
  cases hterm

theorem ensureOpen_emits (hb : b.Placed) :
    Emits ensureOpen b True fun _ b' => b.Flows b' := by
  refine Emits.get_bind ?_
  cases hterm : b.isTerminated with
  | false => exact .pure (.refl (hb.isTerminated.mp hterm))
  | true =>
    refine Emits.bind_ok (Emit.lift_eq (Build.createBlock_eq hb.isSome "dead")) ?_
    exact Emits.lift (Build.position_eq _) (flows_dead hb (not_isOpen_of_isTerminated hb hterm))

theorem branchIfOpen_emits {k target : Nat} {b' : Builder} (h : (b.moveTo k).Settles b') :
    Emits (branchIfOpen target) b' True fun _ b'' => b.Closes k b'' := by
  refine Emits.get_bind ?_
  cases hterm : b'.isTerminated with
  | true => exact .pure (h.closes (not_isOpen_of_isTerminated h.placed hterm))
  | false =>
    have hopen := h.placed.isTerminated.mp hterm
    exact Emits.lift (Build.terminate_eq hopen _)
      ((h.close hopen _).closes (Builder.not_isOpen_close _))

/-- A block is filled with the code of an action, and goes to a target unless that code has gone
elsewhere. -/
theorem Emits.fill {α β : Type} {x : Emit α} {f : Unit → Emit β} {k target : Nat} {p q : Prop}
    {Q : β → Builder → Prop} (hk : b.Unfinished k)
    (hx : ∀ b' : Builder, b'.Placed → Emits x b' p fun _ b'' => b'.Settles b'')
    (hf : ∀ b', b.Closes k b' → Emits (f ()) b' q Q) :
    Emits (liftM (Build.position k) >>= fun _ => x >>= fun _ => branchIfOpen target >>= f) b
      (p ∧ q) Q := by
  refine bind_ok (Emit.lift_eq (Build.position_eq k)) ?_
  refine (hx _ (Builder.isOpen_moveTo.mpr hk).placed).bind ?_
  rintro _ b₁ - - h₁
  refine (branchIfOpen_emits h₁).bind_true ?_
  exact fun _ b₂ _ h₂ => hf b₂ h₂

theorem Emits.blockFor {α β : Type} {content : Option α} {k : Option Nat → Emit β} {p : Prop}
    {Q : β → Builder → Prop} (stems : List String) {stem : String} (hb : b.openFn.isSome)
    (h : Emits (k (content.map fun _ => b.blockCount + stems.length))
      (b.addBlocks (stems ++ (content.map fun _ => stem).toList)) p Q) :
    Emits (blockFor content stem >>= k) (b.addBlocks stems) p Q := by
  cases content with
  | none =>
    rw [Lowering.blockFor, pure_bind]
    simpa using h
  | some x =>
    rw [Lowering.blockFor, bind_assoc]
    exact createBlock stems hb h

section

variable (hs : Stored c g) (hd : Declared c)

include hs hd

theorem discard_emits {e : Expr} (hr : e.AsRead) (hc : Clean c e) (hb : b.IsOpen) :
    Emits (discard g e) b (HasCode c e) fun _ b' => b.Flows b' := by
  refine (expr_emits hs hd hr hc hb).andThen ?_
  rintro _ b' - - ⟨-, h⟩
  exact .pure h

/-- The value of an expression, brought to a type that has values. -/
theorem coerced_emits {e : Expr} {target : Ty} (hr : e.AsRead) (hc : Clean c e) (hb : b.IsOpen)
    (ht : target.hasValues = true) :
    Emits (expr g e >>= (coerce · target)) b (HasCode c e) fun _ b' => b.Flows b' := by
  refine (expr_emits hs hd hr hc hb).andThen ?_
  rintro value b₁ - - ⟨-, h₁⟩
  exact (Emits.of_isLinear h₁.isOpen fun _ => coerce_linear value ht).imp fun _ _ _ _ h => h₁.trans h

theorem condition_emits {e : Expr} (hr : e.AsRead) (hc : Clean c e) (hb : b.IsOpen) :
    Emits (condition g e) b (HasCode c e) fun _ b' => b.Flows b' :=
  coerced_emits hs hd hr hc hb rfl

theorem localVar_emits {v : VarDecl} (hr : v.AsRead) (hc : CleanVar c v) (hb : b.IsOpen) :
    Emits (localVar g v) b (∀ e ∈ v.init, HasCode c e) fun g' b' =>
      Stored (c.declare (.ofVar v)) g' ∧ b.Flows b' := by
  unfold localVar
  refine Emits.bind_ok (Emit.lift_eq (Build.emitValue_eq hb _)) ?_
  have h₁ := Builder.Flows.append hb [.alloca b.nextTemp v.ty.toIr v.name.name] (Nat.le_succ _)
  cases hinit : v.init with
  | none => exact (Emits.pure ⟨hs.declareVar v _, h₁⟩).congr (by simp)
  | some e =>
    have hve := Option.mem_def.mpr hinit
    refine Emits.congr ((expr_emits hs hd (hr.init e hve) (hc.init e hve) h₁.isOpen).andThen ?_) (by simp)
    rintro value b₂ - - ⟨-, h₂⟩
    refine (Emits.of_isLinear h₂.isOpen fun _ =>
      coerce_linear value (Ty.hasValues_of_isDeclarable hr.ty)).bind_true ?_
    rintro stored b₃ - h₃
    refine Emits.bind_ok (Emit.lift_eq (Build.emit_eq h₃.isOpen _)) ?_
    exact .pure ⟨hs.declareVar v _,
      h₁.trans (h₂.trans (h₃.trans (.append h₃.isOpen _ (Nat.le_refl _))))⟩

theorem forInit_emits {init : Option ForInit} (hr : ∀ i ∈ init, i.AsRead) (hc : CleanInit c init)
    (hb : b.IsOpen) : Emits (forInit g init) b (InitHasCode c init) fun g' b' =>
      Stored (c.behindInit init) g' ∧ b.Flows b' := by
  match init with
  | none => exact .pure ⟨hs, .refl hb⟩
  | some (.expr e) =>
    refine (discard_emits hs hd (hr _ rfl) hc hb).andThen ?_
    exact fun _ _ _ _ h => .pure ⟨hs, h⟩
  | some (.declare v) =>
    exact localVar_emits hs hd (hr (.declare v) rfl) hc hb

theorem loopTest_emits {test : Option Expr} {body exit k : Nat} (hr : ∀ e ∈ test, e.AsRead)
    (hc : ∀ e ∈ test, Clean c e) (hk : b.Unfinished k) :
    Emits (loopTest g test body exit) (b.moveTo k) (∀ e ∈ test, HasCode c e) fun _ b' =>
      b.Closes k b' := by
  have hopen := Builder.isOpen_moveTo.mpr hk
  cases test with
  | none =>
    exact (Emits.lift (Build.terminate_eq hopen _) ((Builder.Flows.refl hopen).closes _)).congr
      (by simp)
  | some e =>
    refine Emits.congr ((condition_emits hs hd (hr e rfl) (hc e rfl) hopen).andThen ?_) (by simp)
    rintro value b₁ - - h₁
    exact Emits.lift (Build.terminate_eq h₁.isOpen _) (h₁.closes _)

theorem loopStep_emits {step : Option Expr} {block : Option Nat} {head : Nat}
    (hr : ∀ e ∈ step, e.AsRead) (hc : ∀ e ∈ step, Clean c e)
    (hblock : block.isSome = step.isSome) (hk : ∀ k ∈ block, b.Unfinished k) :
    Emits (loopStep g head block step) b (∀ e ∈ step, HasCode c e) fun _ b' =>
      b.ClosesAll block.toList b' := by
  match block, step, hblock with
  | none, none, _ => exact (Emits.pure (.nil b)).congr (by simp)
  | some k, some e, _ =>
    have hopen := Builder.isOpen_moveTo.mpr (hk k rfl)
    refine Emits.bind_ok (Emit.lift_eq (Build.position_eq k)) ?_
    refine Emits.congr ((discard_emits hs hd (hr e rfl) (hc e rfl) hopen).andThen ?_) (by simp)
    rintro _ b₁ - - h₁
    exact Emits.lift (Build.terminate_eq h₁.isOpen _) (.singleton (h₁.closes _))

theorem returnValue_emits {returnTy : Ty} {value : Option Expr} (hr : ∀ e ∈ value, e.AsRead)
    (hc : ∀ e ∈ value, Clean c e) (hty : returnTy.hasValues = true) (hb : b.IsOpen) :
    Emits (returnValue g returnTy value) b (∀ e ∈ value, HasCode c e) fun _ b' => b.Flows b' := by
  cases value with
  | none => exact (Emits.pure (.refl hb)).congr (by simp)
  | some e =>
    refine Emits.congr ((expr_emits hs hd (hr e rfl) (hc e rfl) hb).andThen ?_) (by simp)
    rintro value b₁ - - ⟨-, h₁⟩
    split
    · exact .pure h₁
    · refine (Emits.of_isLinear h₁.isOpen fun _ => coerce_linear value hty).bind_true ?_
      exact fun _ b₂ _ h₂ => .pure (h₁.trans h₂)

end

/-! ## Switches -/

/-- What the block of an arm is named after. -/
def armStem {Body : Type} (arm : Arm Body) : String :=
  if arm.isDefault then "switch.default" else "switch.case"

theorem armBlocks_eq {Body : Type} (arms : List (Arm Body)) (hb : b.openFn.isSome) :
    armBlocks arms b =
      .ok (List.range' b.blockCount arms.length) (b.addBlocks (arms.map armStem)) := by
  change arms.mapM (fun arm => (liftM (Build.createBlock (armStem arm)) : Emit Nat)) b = _
  induction arms generalizing b with
  | nil => rfl
  | cons arm rest ih =>
    rw [List.mapM_cons, Emit.bind_eq (Emit.lift_eq (Build.createBlock_eq hb _)),
      Emit.bind_eq (ih (b := b.addBlock (armStem arm)) (by simpa)), Builder.blockCount_addBlock _ hb]
    rfl

theorem dispatch_eq {Body : Type} {arms : List (Arm Body)}
    (h : ∀ arm ∈ arms, ∀ label ∈ arm.label, label.constInt?.isSome = true) (default : Nat)
    (blocks : List Nat) : ∃ r, dispatch default arms blocks = pure r := by
  induction arms generalizing default blocks with
  | nil => exact ⟨(default, []), by simp [dispatch]⟩
  | cons arm rest ih =>
    have hrest := fun default blocks => ih
      (fun arm harm label => h arm (List.mem_cons_of_mem _ harm) label) default blocks
    cases blocks with
    | nil => exact ⟨(default, []), by simp [dispatch]⟩
    | cons block blocks =>
      cases hlabel : arm.label with
      | none =>
        obtain ⟨r, hr⟩ := hrest block blocks
        exact ⟨r, by simp [dispatch, hlabel, hr]⟩
      | some label =>
        obtain ⟨value, hvalue⟩ :=
          Option.isSome_iff_exists.mp (h arm List.mem_cons_self label hlabel)
        obtain ⟨r, hr⟩ := hrest default blocks
        exact ⟨(r.1, (value, block) :: r.2), by
          simp [dispatch, hlabel, hr, orFault, hvalue]⟩

/-! ## Statements -/

/-- The surroundings of a statement for the checker and for the lowering. -/
structure Surrounds (context : Check.Context) (context' : Context) : Prop where
  returnTy : context'.returnTy = context.returnTy
  frames : List.Forall₂ (fun frame frame' => frame = .loop ↔ frame'.continueTo.isSome = true)
    context.frames context'.frames

namespace Surrounds

variable {context : Check.Context} {context' : Context}

theorem inside (h : Surrounds context context') {frame : Check.Frame} {frame' : Frame}
    (hframe : frame = .loop ↔ frame'.continueTo.isSome = true) :
    Surrounds (context.inside frame) (context'.inside frame') :=
  ⟨h.returnTy, .cons hframe h.frames⟩

theorem breakTo?_isSome (h : Surrounds context context') (hne : context.frames ≠ []) :
    context'.breakTo?.isSome = true := by
  have := h.frames.length_eq
  cases hf : context'.frames with
  | nil => simp_all
  | cons frame rest => simp [Context.breakTo?, hf]

theorem continueTo?_isSome (h : Surrounds context context') (hmem : .loop ∈ context.frames) :
    context'.continueTo?.isSome = true := by
  unfold Context.continueTo?
  have hframes := h.frames
  generalize context.frames = frames at hmem hframes
  generalize context'.frames = frames' at hframes
  induction hframes with
  | nil => cases hmem
  | @cons frame frame' rest rest' hframe _ ih =>
    rw [List.findSome?_cons]
    cases hcontinue : frame'.continueTo with
    | some block => rfl
    | none =>
      refine ih ((List.mem_cons.mp hmem).resolve_left fun heq => ?_)
      simp [hcontinue] at hframe
      exact hframe heq.symm

end Surrounds

mutual

/-- A clean statement is lowered exactly if every expression in it has code. -/
theorem stmt_emits {c g : SymbolTable} {context : Check.Context} {context' : Context}
    (hs : Stored c g) (hd : Declared c) (hx : Surrounds context context')
    (hty : context.returnTy.hasValues = true) {s : Stmt} {b : Builder} (hr : s.AsRead)
    (hc : CleanStmt context c s) (hb : b.Placed) :
    Emits (stmt context' g s) b (StmtHasCode c s) fun g' b' =>
      Stored (c.behind s) g' ∧ b.Settles b' := by
  match s with
  | .expr _ e =>
    rw [stmt]
    refine (ensureOpen_emits hb).bind_true ?_
    rintro _ b₁ - h₁
    refine (discard_emits hs hd hr (cleanStmt_expr.mp hc) h₁.isOpen).andThen ?_
    exact fun _ _ _ _ h₂ => .pure ⟨hs, (h₁.trans h₂).settles⟩
  | .empty _ =>
    rw [stmt]
    refine (ensureOpen_emits hb).bind_true ?_
    exact fun _ _ _ h₁ => .pure ⟨hs, h₁.settles⟩
  | .declare v =>
    rw [stmt]
    refine (ensureOpen_emits hb).bind_true ?_
    rintro _ b₁ - h₁
    refine (localVar_emits hs hd hr (cleanStmt_declare hc) h₁.isOpen).imp ?_
    exact fun _ _ _ _ h => ⟨h.1, (h₁.trans h.2).settles⟩
  | .block _ body =>
    rw [stmt]
    refine (ensureOpen_emits hb).bind_true ?_
    rintro _ b₁ - h₁
    refine (stmts_emits hs.push hd.push hx hty hr (cleanStmt_block.mp hc) h₁.isOpen.placed).andThen ?_
    exact fun _ _ _ _ h₂ => .pure ⟨hs, h₁.settles.trans h₂⟩
  | .ifThen _ test ifTrue =>
    obtain ⟨⟨hctest, -⟩, hctrue⟩ := cleanStmt_ifThen.mp hc
    rw [stmt]
    refine (ensureOpen_emits hb).bind_true ?_
    rintro _ b₁ - h₁
    refine (condition_emits hs hd hr.1 hctest h₁.isOpen).bind ?_
    rintro value b₂ - - h₂
    have hopen := h₂.isOpen
    refine Emits.createBlock [] hopen.isSome ?_
    refine Emits.createBlock ["if.then"] hopen.isSome ?_
    refine Emits.bind_ok (Emit.lift_eq (Build.terminate_eq (hopen.addBlocks _) _)) ?_
    change Emits _ (b₂.fork ["if.then", "if.footer"]
      (.condBranch value b₂.blockCount (b₂.blockCount + 1))) _ _
    have hfork := Builder.unfinished_fork ["if.then", "if.footer"]
      (.condBranch value b₂.blockCount (b₂.blockCount + 1)) hopen
    simp only [List.length_cons, List.length_nil] at hfork
    refine Emits.congr (Emits.fill (k := b₂.blockCount) ((hfork _).mpr (by omega)) (fun b' hb' =>
      (stmt_emits hs.push hd.push hx hty hr.2 hctrue hb').imp fun _ _ _ _ h => h.2) ?_)
      (and_iff_left trivial)
    rintro b₃ h₃
    refine Emits.bind_ok (Emit.lift_eq (Build.position_eq _)) (.pure ⟨hs, ?_⟩)
    have hflows := (Builder.ClosesAll.singleton h₃).flows hopen (b₂.blockCount + 1)
      (by simp; omega) (by simp)
    exact (h₁.trans (h₂.trans hflows)).settles
  | .ifElse _ test ifTrue ifFalse =>
    obtain ⟨⟨hctest, -⟩, hctrue, hcfalse⟩ := cleanStmt_ifElse.mp hc
    rw [stmt]
    refine (ensureOpen_emits hb).bind_true ?_
    rintro _ b₁ - h₁
    refine (condition_emits hs hd hr.1 hctest h₁.isOpen).bind ?_
    rintro value b₂ - - h₂
    have hopen := h₂.isOpen
    refine Emits.createBlock [] hopen.isSome ?_
    refine Emits.createBlock ["if.then"] hopen.isSome ?_
    refine Emits.createBlock ["if.then", "if.else"] hopen.isSome ?_
    refine Emits.bind_ok (Emit.lift_eq (Build.terminate_eq (hopen.addBlocks _) _)) ?_
    change Emits _ (b₂.fork ["if.then", "if.else", "if.footer"]
      (.condBranch value b₂.blockCount (b₂.blockCount + 1))) _ _
    have hfork := Builder.unfinished_fork ["if.then", "if.else", "if.footer"]
      (.condBranch value b₂.blockCount (b₂.blockCount + 1)) hopen
    simp only [List.length_cons, List.length_nil] at hfork
    refine Emits.fill (k := b₂.blockCount) ((hfork _).mpr (by omega)) (fun b' hb' =>
      (stmt_emits hs.push hd.push hx hty hr.2.1 hctrue hb').imp fun _ _ _ _ h => h.2) ?_
    rintro b₃ h₃
    have hun₃ := h₃.unfinished
    simp only [hfork] at hun₃
    refine Emits.congr (Emits.fill (k := b₂.blockCount + 1) ((hun₃ _).mpr (by omega)) (fun b' hb' =>
      (stmt_emits hs.push hd.push hx hty hr.2.2 hcfalse hb').imp fun _ _ _ _ h => h.2) ?_)
      (and_iff_left trivial)
    rintro b₄ h₄
    refine Emits.bind_ok (Emit.lift_eq (Build.position_eq _)) (.pure ⟨hs, ?_⟩)
    have hflows := (Builder.ClosesAll.cons h₃ (.singleton h₄)).flows hopen (b₂.blockCount + 2)
      (by simp; omega) (by simp)
    exact (h₁.trans (h₂.trans hflows)).settles
  | .whileLoop _ test body =>
    obtain ⟨⟨hctest, -⟩, hcbody⟩ := cleanStmt_whileLoop.mp hc
    rw [stmt]
    refine (ensureOpen_emits hb).bind_true ?_
    rintro _ b₁ - h₁
    have hopen := h₁.isOpen
    refine Emits.createBlock [] hopen.isSome ?_
    refine Emits.createBlock ["while.head"] hopen.isSome ?_
    refine Emits.createBlock ["while.head", "while.body"] hopen.isSome ?_
    refine Emits.bind_ok (Emit.lift_eq (Build.terminate_eq (hopen.addBlocks _) _)) ?_
    change Emits _ (b₁.fork ["while.head", "while.body", "while.footer"]
      (.branch b₁.blockCount)) _ _
    have hfork := Builder.unfinished_fork ["while.head", "while.body", "while.footer"]
      (.branch b₁.blockCount) hopen
    simp only [List.length_cons, List.length_nil] at hfork
    refine Emits.bind_ok (Emit.lift_eq (Build.position_eq b₁.blockCount)) ?_
    have htest : ∀ e ∈ some test, e.AsRead ∧ Clean c e := by simpa using ⟨hr.1, hctest⟩
    refine Emits.congr ((loopTest_emits hs hd (fun e he => (htest e he).1)
      (fun e he => (htest e he).2) ((hfork b₁.blockCount).mpr (by omega))).bind ?_)
      (and_congr_left' (by simp : (∀ e ∈ some test, HasCode c e) ↔ HasCode c test))
    rintro _ b₂ - - h₂
    have hun₂ := h₂.unfinished
    simp only [hfork] at hun₂
    refine Emits.congr (Emits.fill (k := b₁.blockCount + 1) ((hun₂ _).mpr (by omega)) (fun b' hb' =>
      (stmt_emits hs.push hd.push (hx.inside (by simp)) hty hr.2 hcbody hb').imp
        fun _ _ _ _ h => h.2) ?_) (and_iff_left trivial)
    rintro b₃ h₃
    refine Emits.bind_ok (Emit.lift_eq (Build.position_eq _)) (.pure ⟨hs, ?_⟩)
    have hflows := (Builder.ClosesAll.cons h₂ (.singleton h₃)).flows hopen (b₁.blockCount + 2)
      (by simp; omega) (by simp)
    exact (h₁.trans hflows).settles
  | .forLoop _ init test step body =>
    obtain ⟨hcinit, hctest, hcstep, hcbody⟩ := cleanStmt_forLoop hc
    obtain ⟨hrinit, hrtest, hrstep, hrbody⟩ := hr
    have hdinner := hd.push.behindInit hrinit hcinit
    rw [stmt]
    refine (ensureOpen_emits hb).bind_true ?_
    rintro _ b₁ - h₁
    refine (forInit_emits hs.push hd.push hrinit hcinit h₁.isOpen).bind ?_
    rintro inner b₂ - - ⟨hsinner, h₂⟩
    have hopen := h₂.isOpen
    refine Emits.createBlock [] hopen.isSome ?_
    refine Emits.createBlock ["for.head"] hopen.isSome ?_
    refine Emits.blockFor ["for.head", "for.body"] hopen.isSome ?_
    refine Emits.createBlock _ hopen.isSome ?_
    refine Emits.bind_ok (Emit.lift_eq (Build.terminate_eq (hopen.addBlocks _) _)) ?_
    generalize hstems : ["for.head", "for.body"] ++ (step.map fun _ => "for.step").toList = stems
    change Emits _ (b₂.fork (stems ++ ["for.footer"]) (.branch b₂.blockCount)) _ _
    have hfork := Builder.unfinished_fork (stems ++ ["for.footer"]) (.branch b₂.blockCount) hopen
    have hlength : stems.length = 2 + step.toList.length := by
      rw [← hstems]
      cases step <;> simp
    simp only [List.length_append, List.length_cons, List.length_nil, hlength] at hfork
    refine Emits.bind_ok (Emit.lift_eq (Build.position_eq b₂.blockCount)) ?_
    refine (loopTest_emits hsinner hdinner hrtest hctest ((hfork _).mpr (by omega))).bind ?_
    rintro _ b₃ - - h₃
    have hun₃ := h₃.unfinished
    simp only [hfork] at hun₃
    refine Emits.fill (k := b₂.blockCount + 1) ((hun₃ _).mpr (by omega)) (fun b' hb' =>
      (stmt_emits hsinner.push hdinner.push (hx.inside (by simp)) hty hrbody hcbody hb').imp
        fun _ _ _ _ h => h.2) ?_
    rintro b₄ h₄
    have hun₄ := h₄.unfinished
    simp only [hun₃] at hun₄
    refine Emits.congr ((loopStep_emits hsinner hdinner hrstep hcstep (by simp) (fun k hk => ?_)).bind
      ?_) (and_iff_left trivial)
    · obtain ⟨e, he, rfl⟩ := Option.map_eq_some_iff.mp hk
      rw [he] at hun₄
      exact (hun₄ _).mpr (by simp)
    rintro _ b₅ - - h₅
    refine Emits.bind_ok (Emit.lift_eq (Build.position_eq _)) (.pure ⟨hs, ?_⟩)
    have hflows := (Builder.ClosesAll.cons h₃ (.cons h₄ h₅)).flows hopen
      (b₂.blockCount + stems.length) ?_ ?_
    · exact (h₁.trans (h₂.trans hflows)).settles
    · intro id
      simp only [List.length_append, hlength]
      cases step <;> simp
      all_goals omega
    · rw [hlength]
      cases step <;> simp
  | .switch _ value arms =>
    obtain ⟨hcvalue, -, hlabels, hcarms⟩ := cleanStmt_switch hc
    rw [stmt]
    refine (ensureOpen_emits hb).bind_true ?_
    rintro _ b₁ - h₁
    refine (expr_emits hs hd hr.1 hcvalue h₁.isOpen).bind ?_
    rintro typed b₂ - - ⟨-, h₂⟩
    refine (Emits.of_isLinear h₂.isOpen fun _ => coerce_linear typed rfl).bind_true ?_
    rintro number b₃ - h₃
    have hopen := h₃.isOpen
    refine Emits.bind_ok (armBlocks_eq arms hopen.isSome) ?_
    refine Emits.createBlock _ hopen.isSome ?_
    obtain ⟨⟨default, cases⟩, hdispatch⟩ := dispatch_eq (constInt?_of_labels hlabels)
      (b₃.blockCount + (arms.map armStem).length) (List.range' b₃.blockCount arms.length)
    rw [hdispatch, pure_bind]
    refine Emits.bind_ok (Emit.lift_eq (Build.terminate_eq (hopen.addBlocks _) _)) ?_
    change Emits _ (b₃.fork (arms.map armStem ++ ["switch.footer"]) (.switch number default cases)) _ _
    have hfork := Builder.unfinished_fork (arms.map armStem ++ ["switch.footer"])
      (.switch number default cases) hopen
    simp only [List.length_append, List.length_map, List.length_cons, List.length_nil] at hfork
    refine (armBodies_emits hs hd (hx.inside (by simp)) hty hr.2 hcarms (by simp) (fun k hk => ?_)
      List.nodup_range').andThen ?_
    · rw [List.mem_range'_1] at hk
      exact (hfork k).mpr (by omega)
    rintro _ b₄ - - h₄
    refine Emits.bind_ok (Emit.lift_eq (Build.position_eq _)) (.pure ⟨hs, ?_⟩)
    have hflows := h₄.flows hopen (b₃.blockCount + (arms.map armStem).length)
      (by simp [List.mem_range'_1]; omega) (by simp [List.mem_range'_1])
    exact (h₁.trans (h₂.trans (h₃.trans hflows))).settles
  | .breakStmt _ =>
    rw [stmt]
    refine (ensureOpen_emits hb).bind_true ?_
    rintro _ b₁ - h₁
    obtain ⟨target, htarget⟩ := Option.isSome_iff_exists.mp
      (hx.breakTo?_isSome (cleanStmt_breakStmt.mp hc))
    rw [htarget]
    refine Emits.orFault_bind ?_
    refine Emits.bind_ok (Emit.lift_eq (Build.terminate_eq h₁.isOpen _)) ?_
    exact .pure ⟨hs, h₁.settles.close h₁.isOpen _⟩
  | .continueStmt _ =>
    rw [stmt]
    refine (ensureOpen_emits hb).bind_true ?_
    rintro _ b₁ - h₁
    obtain ⟨target, htarget⟩ := Option.isSome_iff_exists.mp
      (hx.continueTo?_isSome (cleanStmt_continueStmt.mp hc))
    rw [htarget]
    refine Emits.orFault_bind ?_
    refine Emits.bind_ok (Emit.lift_eq (Build.terminate_eq h₁.isOpen _)) ?_
    exact .pure ⟨hs, h₁.settles.close h₁.isOpen _⟩
  | .returnStmt _ value =>
    rw [stmt]
    refine (ensureOpen_emits hb).bind_true ?_
    rintro _ b₁ - h₁
    rw [hx.returnTy]
    refine (returnValue_emits hs hd hr (cleanStmt_returnStmt hc).1 hty h₁.isOpen).andThen ?_
    rintro value b₂ - - h₂
    refine Emits.bind_ok (Emit.lift_eq (Build.terminate_eq h₂.isOpen _)) ?_
    exact .pure ⟨hs, (h₁.trans h₂).settles.close h₂.isOpen _⟩

theorem stmts_emits {c g : SymbolTable} {context : Check.Context} {context' : Context}
    (hs : Stored c g) (hd : Declared c) (hx : Surrounds context context')
    (hty : context.returnTy.hasValues = true) {body : List Stmt} {b : Builder}
    (hr : Stmt.AllAsRead body) (hc : CleanStmts context c body) (hb : b.Placed) :
    Emits (stmts context' g body) b (StmtsHaveCode c body) fun _ b' => b.Settles b' := by
  match body with
  | [] =>
    rw [stmts]
    exact .pure (.refl hb)
  | s :: rest =>
    obtain ⟨hcs, hcrest⟩ := cleanStmts_cons.mp hc
    rw [stmts]
    refine (stmt_emits hs hd hx hty hr.1 hcs hb).bind ?_
    rintro g' b₁ - - ⟨hs', h₁⟩
    refine (stmts_emits hs' (hd.behind hr.1 hcs) hx hty hr.2 hcrest h₁.placed).imp ?_
    exact fun _ _ _ _ h₂ => h₁.trans h₂

theorem armBodies_emits {c g : SymbolTable} {context : Check.Context} {context' : Context}
    (hs : Stored c g) (hd : Declared c) (hx : Surrounds context context')
    (hty : context.returnTy.hasValues = true) {arms : List (Arm (List Stmt))} {blocks : List Nat}
    {footer : Nat} {b : Builder} (hr : Stmt.ArmsAsRead arms) (hc : CleanArms context c arms)
    (hlength : blocks.length = arms.length) (hblocks : ∀ k ∈ blocks, b.Unfinished k)
    (hnodup : blocks.Nodup) :
    Emits (armBodies context' g footer blocks arms) b (ArmsHaveCode c arms) fun _ b' =>
      b.ClosesAll blocks b' := by
  match arms, blocks, hlength with
  | [], [], _ =>
    rw [armBodies]
    exact .pure (.nil b)
  | ⟨_, body, _⟩ :: rest, block :: blocks, hlength =>
    obtain ⟨hcbody, hcrest⟩ := cleanArms_cons.mp hc
    have hblock := hblocks block List.mem_cons_self
    obtain ⟨hnotin, hnodup'⟩ := List.nodup_cons.mp hnodup
    rw [armBodies]
    refine Emits.bind_ok (Emit.lift_eq (Build.position_eq block)) ?_
    refine (stmts_emits hs.push hd.push hx hty hr.1 hcbody
      (Builder.isOpen_moveTo.mpr hblock).placed).bind ?_
    rintro _ b₁ - - h₁
    refine (branchIfOpen_emits h₁).bind_true ?_
    rintro _ b₂ - h₂
    refine (armBodies_emits hs hd hx hty hr.2 hcrest (Nat.succ.inj hlength) (fun k hk => ?_)
      hnodup').imp fun _ _ _ _ h₃ => .cons h₂ h₃
    exact (h₂.unfinished k).mpr ⟨hblocks k (List.mem_cons_of_mem _ hk), fun h => hnotin (h ▸ hk)⟩

end

end Lowering

end ShaderLang
