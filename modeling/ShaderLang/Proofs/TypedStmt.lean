import ShaderLang.Proofs.StmtTotal
import ShaderLang.Proofs.TypedExpr

/-!
# Well-typed code for statements

The code of a clean statement type-checks (`stmt_keeps`), in a function that returns what the
surroundings of the statement say.
-/

namespace ShaderLang.Lowering

open Check hiding stmt stmts armBodies forInit discard

open Ir (Build Inst Kind TypingEnv)

variable {env : TypingEnv} {kinds : List Kind} {c g : SymbolTable}

/-! ## Parts of statements -/

theorem ensureOpen_keeps : Keeps env kinds ensureOpen fun k _ => k = kinds := by
  refine Keeps.get_bind fun b => ?_
  split
  · refine Keeps.createBlock_bind fun dead => ?_
    exact Keeps.position rfl
  · exact .pure rfl

theorem branchIfOpen_keeps {target : Nat} :
    Keeps env kinds (branchIfOpen target) fun k _ => k = kinds := by
  refine Keeps.get_bind fun b => ?_
  split
  · exact .pure rfl
  · exact Keeps.terminate (.branch target) rfl

theorem Keeps.ensureOpen_bind {β : Type} {f : Unit → Emit β} {Q : List Kind → β → Prop}
    (h : Keeps env kinds (f ()) Q) : Keeps env kinds (ensureOpen >>= f) Q := by
  refine bind ensureOpen_keeps ?_
  rintro _ _ - rfl
  exact h

theorem Keeps.branchIfOpen_bind {β : Type} {f : Unit → Emit β} {target : Nat}
    {Q : List Kind → β → Prop} (h : Keeps env kinds (f ()) Q) :
    Keeps env kinds (branchIfOpen target >>= f) Q := by
  refine bind branchIfOpen_keeps ?_
  rintro _ _ - rfl
  exact h

theorem blockFor_keeps {α : Type} {content : Option α} {stem : String} :
    Keeps env kinds (blockFor content stem) fun k _ => k = kinds := by
  cases content with
  | none => exact .pure rfl
  | some x => exact Keeps.createBlock_bind fun block => .pure rfl

theorem armBlocks_keeps {Body : Type} (arms : List (Arm Body)) :
    Keeps env kinds (armBlocks arms) fun _ _ => True := by
  refine (Keeps.mapM (P := fun _ _ => True) (fun _ _ _ _ _ => trivial) arms ?_).imp ?_
  · intro kinds' arm _ _
    exact Keeps.createBlock fun _ => trivial
  · intro _ _ _ _
    trivial

theorem dispatch_keeps {Body : Type} (arms : List (Arm Body)) :
    ∀ (default : Nat) (blocks : List Nat),
      Keeps env kinds (dispatch default arms blocks) fun k _ => k = kinds := by
  induction arms with
  | nil =>
    intro default blocks
    rw [dispatch]
    · exact .pure rfl
    · simp
  | cons arm rest ih =>
    intro default blocks
    cases blocks with
    | nil =>
      rw [dispatch]
      · exact .pure rfl
      · simp
    | cons block blocks =>
      rw [dispatch]
      split
      · exact ih block blocks
      · refine Keeps.bind (P := fun k _ => k = kinds) (Keeps.orFault fun _ _ => rfl) ?_
        rintro _ value - rfl
        refine Keeps.bind (ih default blocks) ?_
        rintro _ r - rfl
        exact .pure rfl

section

variable (ht : g.Typed env kinds) (hs : Stored c g) (hd : Declared c)

include ht hs hd

theorem condition_keeps {e : Expr} (hr : e.AsRead) (hc : Clean c e)
    (hshort : e.Everywhere Expr.HasShortField) :
    Keeps env kinds (condition g e) fun k v => HasTy env k v .bool := by
  refine Keeps.bind (expr_keeps ht hs hd hr hc hshort) ?_
  intro kinds₁ value _ hvalue
  exact coerce_keeps hvalue .bool

theorem discard_keeps {e : Expr} (hr : e.AsRead) (hc : Clean c e)
    (hshort : e.Everywhere Expr.HasShortField) :
    Keeps env kinds (discard g e) fun _ _ => True := by
  refine Keeps.bind (expr_keeps ht hs hd hr hc hshort) ?_
  intro kinds₁ _ _ _
  exact .pure trivial

theorem localVar_keeps {v : VarDecl} (hr : v.AsRead) (hc : CleanVar c v)
    (hshort : v.Everywhere Expr.HasShortField) :
    Keeps env kinds (localVar g v) fun k g' =>
      g'.Typed env k ∧ Stored (c.declare (.ofVar v)) g' := by
  refine Keeps.bind Keeps.alloca ?_
  intro kinds₁ address hmore₁ haddress
  replace ht := ht.mono hmore₁
  cases hinit : v.init with
  | none => exact .pure ⟨ht.declareVar haddress, hs.declareVar v address⟩
  | some e =>
    refine Keeps.bind (expr_keeps ht hs hd (hr.init e hinit) (hc.init e hinit) (hshort e hinit)) ?_
    intro kinds₂ value hmore₂ hvalue
    refine Keeps.bind (coerce_keeps hvalue v.ty) ?_
    intro kinds₃ value hmore₃ hvalue
    replace haddress := haddress.mono (hmore₂.trans hmore₃)
    refine Keeps.bind (Keeps.store haddress hvalue) ?_
    intro kinds₄ _ hmore₄ _
    refine .pure ⟨?_, hs.declareVar v address⟩
    have hmore := hmore₂.trans (hmore₃.trans hmore₄)
    exact (ht.mono hmore).declareVar (haddress.mono hmore₄)

theorem forInit_keeps {init : Option ForInit} (hr : ∀ i ∈ init, i.AsRead) (hc : CleanInit c init)
    (hshort : ∀ i ∈ init, i.Everywhere Expr.HasShortField) :
    Keeps env kinds (forInit g init) fun k g' =>
      g'.Typed env k ∧ Stored (c.behindInit init) g' := by
  match init with
  | none => exact .pure ⟨ht, hs⟩
  | some (.expr e) =>
    refine Keeps.bind (discard_keeps ht hs hd (hr _ rfl) hc (hshort _ rfl)) ?_
    intro kinds₁ _ hmore₁ _
    exact .pure ⟨ht.mono hmore₁, hs⟩
  | some (.declare v) => exact localVar_keeps ht hs hd (hr (.declare v) rfl) hc (hshort (.declare v) rfl)

theorem loopTest_keeps {test : Option Expr} {body exit : Nat} (hr : ∀ e ∈ test, e.AsRead)
    (hc : ∀ e ∈ test, Clean c e) (hshort : ∀ e ∈ test, e.Everywhere Expr.HasShortField) :
    Keeps env kinds (loopTest g test body exit) fun _ _ => True := by
  cases test with
  | none => exact Keeps.terminate (.branch body) trivial
  | some e =>
    refine Keeps.bind (condition_keeps ht hs hd (hr e rfl) (hc e rfl) (hshort e rfl)) ?_
    intro kinds₁ value _ hvalue
    exact Keeps.terminate (.condBranch hvalue) trivial

theorem loopStep_keeps {head : Nat} {block : Option Nat} {step : Option Expr}
    (hr : ∀ e ∈ step, e.AsRead) (hc : ∀ e ∈ step, Clean c e)
    (hshort : ∀ e ∈ step, e.Everywhere Expr.HasShortField) :
    Keeps env kinds (loopStep g head block step) fun _ _ => True := by
  unfold loopStep
  split
  · next block e =>
    refine Keeps.position_bind ?_
    refine Keeps.bind (discard_keeps ht hs hd (hr e rfl) (hc e rfl) (hshort e rfl)) ?_
    intro kinds₁ _ _ _
    exact Keeps.terminate (.branch head) trivial
  · exact .pure trivial

/-- A function of no value returns none, and any other one a value of its type. -/
theorem returnValue_keeps {context : Check.Context} {span : Span} {value : Option Expr}
    (hty : env.returnTy = context.returnTy.toIr) (hplain : context.returnTy.isPlain = true)
    (hr : ∀ e ∈ value, e.AsRead) (hc : CleanStmt context c (.returnStmt span value))
    (hshort : ∀ e ∈ value, e.Everywhere Expr.HasShortField) :
    Keeps env kinds (returnValue g context.returnTy value) fun k v =>
      (Ir.Terminator.ret v).Typed env k := by
  obtain ⟨hcvalue, hconverts⟩ := cleanStmt_returnStmt hc
  cases value with
  | none =>
    have hvoid : context.returnTy = .void := by
      cases ht : context.returnTy <;> rw [ht] at hplain hconverts <;>
        first | rfl | (cases hplain; done) | cases hconverts
    exact .pure (.retVoid (by rw [hty, hvoid]; rfl))
  | some e =>
    refine Keeps.bind (expr_keeps ht hs hd (hr e rfl) (hcvalue e rfl) (hshort e rfl)) ?_
    intro kinds₁ value _ hvalue
    split
    · next hvoid => exact .pure (.retVoid (by rw [hty, hvoid]; rfl))
    · next hvoid =>
      have hne : env.returnTy ≠ .void := by
        rw [hty]
        cases ht : context.returnTy <;> rw [ht] at hvoid hplain <;>
          first | exact absurd rfl hvoid | (cases hplain; done) | nofun
      refine Keeps.bind (coerce_keeps hvalue context.returnTy) ?_
      intro kinds₂ value _ hvalue
      refine .pure (.ret hne ?_)
      rw [hty]
      exact hvalue

end

/-! ## Statements -/

mutual

theorem stmt_keeps {c g : SymbolTable} {kinds : List Kind} {context : Check.Context}
    {context' : Context} (ht : g.Typed env kinds) (hs : Stored c g) (hd : Declared c)
    (hreturn : context'.returnTy = context.returnTy) (hplain : context.returnTy.isPlain = true)
    (hty : env.returnTy = context.returnTy.toIr) {s : Stmt} (hr : s.AsRead)
    (hc : CleanStmt context c s) (hshort : s.Everywhere Expr.HasShortField) :
    Keeps env kinds (stmt context' g s) fun k g' => g'.Typed env k ∧ Stored (c.behind s) g' := by
  match s with
  | .expr _ e =>
    rw [stmt]
    refine Keeps.ensureOpen_bind ?_
    refine Keeps.bind (discard_keeps ht hs hd hr (cleanStmt_expr.mp hc) hshort) ?_
    intro kinds₁ _ hmore₁ _
    exact .pure ⟨ht.mono hmore₁, hs⟩
  | .empty _ =>
    rw [stmt]
    refine Keeps.ensureOpen_bind ?_
    exact .pure ⟨ht, hs⟩
  | .declare v =>
    rw [stmt]
    refine Keeps.ensureOpen_bind ?_
    exact localVar_keeps ht hs hd hr (cleanStmt_declare hc) hshort
  | .block _ body =>
    rw [stmt]
    refine Keeps.ensureOpen_bind ?_
    refine Keeps.bind (stmts_keeps ht.push hs.push hd.push hreturn hplain hty hr
      (cleanStmt_block.mp hc) hshort) ?_
    intro kinds₁ _ hmore₁ _
    exact .pure ⟨ht.mono hmore₁, hs⟩
  | .ifThen _ test ifTrue =>
    rw [stmt]
    refine Keeps.ensureOpen_bind ?_
    obtain ⟨⟨hctest, -⟩, hctrue⟩ := cleanStmt_ifThen.mp hc
    refine Keeps.bind (condition_keeps ht hs hd hr.1 hctest hshort.1) ?_
    intro kinds₁ value hmore₁ hvalue
    refine Keeps.createBlock_bind fun trueBlock => ?_
    refine Keeps.createBlock_bind fun footer => ?_
    refine Keeps.terminate_bind (.condBranch hvalue) ?_
    refine Keeps.position_bind ?_
    refine Keeps.bind (stmt_keeps (ht.mono hmore₁).push hs.push hd.push hreturn hplain hty hr.2
      hctrue hshort.2) ?_
    intro kinds₂ _ hmore₂ _
    refine Keeps.branchIfOpen_bind ?_
    refine Keeps.position_bind ?_
    exact .pure ⟨ht.mono (hmore₁.trans hmore₂), hs⟩
  | .ifElse _ test ifTrue ifFalse =>
    rw [stmt]
    refine Keeps.ensureOpen_bind ?_
    obtain ⟨⟨hctest, -⟩, hctrue, hcfalse⟩ := cleanStmt_ifElse.mp hc
    refine Keeps.bind (condition_keeps ht hs hd hr.1 hctest hshort.1) ?_
    intro kinds₁ value hmore₁ hvalue
    refine Keeps.createBlock_bind fun trueBlock => ?_
    refine Keeps.createBlock_bind fun falseBlock => ?_
    refine Keeps.createBlock_bind fun footer => ?_
    refine Keeps.terminate_bind (.condBranch hvalue) ?_
    refine Keeps.position_bind ?_
    refine Keeps.bind (stmt_keeps (ht.mono hmore₁).push hs.push hd.push hreturn hplain hty hr.2.1
      hctrue hshort.2.1) ?_
    intro kinds₂ _ hmore₂ _
    replace ht := ht.mono (hmore₁.trans hmore₂)
    refine Keeps.branchIfOpen_bind ?_
    refine Keeps.position_bind ?_
    refine Keeps.bind (stmt_keeps ht.push hs.push hd.push hreturn hplain hty hr.2.2 hcfalse
      hshort.2.2) ?_
    intro kinds₃ _ hmore₃ _
    refine Keeps.branchIfOpen_bind ?_
    refine Keeps.position_bind ?_
    exact .pure ⟨ht.mono hmore₃, hs⟩
  | .whileLoop _ test body =>
    rw [stmt]
    refine Keeps.ensureOpen_bind ?_
    obtain ⟨⟨hctest, -⟩, hcbody⟩ := cleanStmt_whileLoop.mp hc
    have htest : ∀ e ∈ some test,
        e.AsRead ∧ Clean c e ∧ e.Everywhere Expr.HasShortField := by
      rintro _ ⟨⟩
      exact ⟨hr.1, hctest, hshort.1⟩
    refine Keeps.createBlock_bind fun head => ?_
    refine Keeps.createBlock_bind fun bodyBlock => ?_
    refine Keeps.createBlock_bind fun footer => ?_
    refine Keeps.terminate_bind (.branch head) ?_
    refine Keeps.position_bind ?_
    refine Keeps.bind (loopTest_keeps ht hs hd (fun e he => (htest e he).1)
      (fun e he => (htest e he).2.1) fun e he => (htest e he).2.2) ?_
    intro kinds₁ _ hmore₁ _
    replace ht := ht.mono hmore₁
    refine Keeps.position_bind ?_
    have hreturn' : (context'.inside ⟨footer, some head⟩).returnTy =
        (context.inside .loop).returnTy := hreturn
    refine Keeps.bind (stmt_keeps ht.push hs.push hd.push hreturn' hplain hty hr.2 hcbody
      hshort.2) ?_
    intro kinds₂ _ hmore₂ _
    refine Keeps.branchIfOpen_bind ?_
    refine Keeps.position_bind ?_
    exact .pure ⟨ht.mono hmore₂, hs⟩
  | .forLoop _ init test step body =>
    rw [stmt]
    refine Keeps.ensureOpen_bind ?_
    obtain ⟨hcinit, hctest, hcstep, hcbody⟩ := cleanStmt_forLoop hc
    obtain ⟨hrinit, hrtest, hrstep, hrbody⟩ := hr
    obtain ⟨hsinit, hstest, hsstep, hsbody⟩ := hshort
    have hdinner := hd.push.behindInit hrinit hcinit
    refine Keeps.bind (forInit_keeps ht.push hs.push hd.push hrinit hcinit hsinit) ?_
    intro kinds₁ inner hmore₁ ⟨htinner, hsinner⟩
    replace ht := ht.mono hmore₁
    refine Keeps.createBlock_bind fun head => ?_
    refine Keeps.createBlock_bind fun bodyBlock => ?_
    refine Keeps.bind blockFor_keeps ?_
    rintro _ stepBlock - rfl
    refine Keeps.createBlock_bind fun footer => ?_
    refine Keeps.terminate_bind (.branch head) ?_
    refine Keeps.position_bind ?_
    refine Keeps.bind (loopTest_keeps htinner hsinner hdinner hrtest hctest hstest) ?_
    intro kinds₂ _ hmore₂ _
    replace ht := ht.mono hmore₂
    replace htinner := htinner.mono hmore₂
    refine Keeps.position_bind ?_
    have hreturn' : (context'.inside ⟨footer, some (stepBlock.getD head)⟩).returnTy =
        (context.inside .loop).returnTy := hreturn
    refine Keeps.bind (stmt_keeps htinner.push hsinner.push hdinner.push hreturn' hplain hty hrbody
      hcbody hsbody) ?_
    intro kinds₃ _ hmore₃ _
    refine Keeps.branchIfOpen_bind ?_
    refine Keeps.bind (loopStep_keeps (htinner.mono hmore₃) hsinner hdinner hrstep hcstep hsstep) ?_
    intro kinds₄ _ hmore₄ _
    refine Keeps.position_bind ?_
    exact .pure ⟨ht.mono (hmore₃.trans hmore₄), hs⟩
  | .switch _ value arms =>
    rw [stmt]
    refine Keeps.ensureOpen_bind ?_
    obtain ⟨hcvalue, -, -, hcarms⟩ := cleanStmt_switch hc
    refine Keeps.bind (expr_keeps ht hs hd hr.1 hcvalue hshort.1) ?_
    intro kinds₁ value hmore₁ hvalue
    refine Keeps.bind (coerce_keeps hvalue .int) ?_
    intro kinds₂ value hmore₂ hvalue
    refine Keeps.bind (armBlocks_keeps arms) ?_
    intro kinds₃ blocks hmore₃ _
    refine Keeps.createBlock_bind fun footer => ?_
    refine Keeps.bind (dispatch_keeps arms footer blocks) ?_
    rintro _ ⟨default, cases⟩ - rfl
    refine Keeps.terminate_bind (.switch (hvalue.mono hmore₃)) ?_
    replace ht := ht.mono (hmore₁.trans (hmore₂.trans hmore₃))
    have hreturn' : (context'.inside ⟨footer, none⟩).returnTy =
        (context.inside .switch).returnTy := hreturn
    refine Keeps.bind (armBodies_keeps ht hs hd hreturn' hplain hty hr.2 hcarms hshort.2) ?_
    intro kinds₄ _ hmore₄ _
    refine Keeps.position_bind ?_
    exact .pure ⟨ht.mono hmore₄, hs⟩
  | .breakStmt _ =>
    rw [stmt]
    refine Keeps.ensureOpen_bind ?_
    refine Keeps.bind (P := fun k _ => k = kinds) (Keeps.orFault fun _ _ => rfl) ?_
    rintro _ target - rfl
    refine Keeps.terminate_bind (.branch target) ?_
    exact .pure ⟨ht, hs⟩
  | .continueStmt _ =>
    rw [stmt]
    refine Keeps.ensureOpen_bind ?_
    refine Keeps.bind (P := fun k _ => k = kinds) (Keeps.orFault fun _ _ => rfl) ?_
    rintro _ target - rfl
    refine Keeps.terminate_bind (.branch target) ?_
    exact .pure ⟨ht, hs⟩
  | .returnStmt _ value =>
    rw [stmt]
    refine Keeps.ensureOpen_bind ?_
    rw [hreturn]
    refine Keeps.bind (returnValue_keeps ht hs hd hty hplain hr hc hshort) ?_
    intro kinds₁ value hmore₁ hvalue
    refine Keeps.terminate_bind hvalue ?_
    exact .pure ⟨ht.mono hmore₁, hs⟩

theorem stmts_keeps {c g : SymbolTable} {kinds : List Kind} {context : Check.Context}
    {context' : Context} (ht : g.Typed env kinds) (hs : Stored c g) (hd : Declared c)
    (hreturn : context'.returnTy = context.returnTy) (hplain : context.returnTy.isPlain = true)
    (hty : env.returnTy = context.returnTy.toIr) {body : List Stmt} (hr : Stmt.AllAsRead body)
    (hc : CleanStmts context c body) (hshort : Stmt.AllEverywhere Expr.HasShortField body) :
    Keeps env kinds (stmts context' g body) fun _ _ => True := by
  match body with
  | [] =>
    rw [stmts]
    exact .pure trivial
  | s :: rest =>
    obtain ⟨hcs, hcrest⟩ := cleanStmts_cons.mp hc
    rw [stmts]
    refine Keeps.bind (stmt_keeps ht hs hd hreturn hplain hty hr.1 hcs hshort.1) ?_
    intro kinds₁ g' hmore₁ ⟨ht', hs'⟩
    exact stmts_keeps ht' hs' (hd.behind hr.1 hcs) hreturn hplain hty hr.2 hcrest hshort.2

theorem armBodies_keeps {c g : SymbolTable} {kinds : List Kind} {context : Check.Context}
    {context' : Context} (ht : g.Typed env kinds) (hs : Stored c g) (hd : Declared c)
    (hreturn : context'.returnTy = context.returnTy) (hplain : context.returnTy.isPlain = true)
    (hty : env.returnTy = context.returnTy.toIr) {footer : Nat} {blocks : List Nat}
    {arms : List (Arm (List Stmt))} (hr : Stmt.ArmsAsRead arms) (hc : CleanArms context c arms)
    (hshort : Stmt.ArmsEverywhere Expr.HasShortField arms) :
    Keeps env kinds (armBodies context' g footer blocks arms) fun _ _ => True := by
  match arms with
  | [] =>
    rw [armBodies]
    exact .pure trivial
  | ⟨label, body, _⟩ :: rest =>
    obtain ⟨hcbody, hcrest⟩ := cleanArms_cons.mp hc
    cases blocks with
    | nil =>
      rw [armBodies]
      exact .pure trivial
    | cons block blocks =>
      rw [armBodies]
      refine Keeps.position_bind ?_
      refine Keeps.bind (stmts_keeps ht.push hs.push hd.push hreturn hplain hty hr.1 hcbody
        hshort.2.1) ?_
      intro kinds₁ _ hmore₁ _
      refine Keeps.branchIfOpen_bind ?_
      exact armBodies_keeps (ht.mono hmore₁) hs hd hreturn hplain hty hr.2 hcrest hshort.2.2

end

end ShaderLang.Lowering
