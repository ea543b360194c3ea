import ShaderLang.Proofs.DistinctLabels
import ShaderLang.Proofs.SoundExpr
import ShaderLang.Proofs.StmtTotal

/-!
# What statements read, and where they lead

Code for a statement reads what is known where it begins, and control goes to blocks of the
construct or to those that the loops and switches around it offer (`stmt_does`). All blocks of a
construct have the block that it began in for their parent, those for dead code the closed block
behind which they stand; so what is known before a statement is known in all of its blocks and
behind it.
-/

namespace ShaderLang

namespace Lowering

open Ir (Build Builder Layout Spot)

variable {strict : Prop} {s : Spot} {g : SymbolTable} {l : Layout} {b : Builder} {α β : Type}

/-- Control may leave the loops and switches around a statement, and go on with the loops. -/
def LeadsOut (s : Spot) (context : Context) : Prop :=
  ∀ frame ∈ context.frames, s.Leads frame.breakTo ∧ ∀ target ∈ frame.continueTo, s.Leads target

namespace LeadsOut

variable {context : Context} {s' : Spot}

theorem mono (h : LeadsOut s context) (hbefore : s.Before s') : LeadsOut s' context := by
  intro frame hframe
  obtain ⟨hbreak, hcontinue⟩ := h frame hframe
  exact ⟨hbefore.leads hbreak, fun target ht => hbefore.leads (hcontinue target ht)⟩

theorem inside (h : LeadsOut s context) (frame : Frame) (hbreak : s.Leads frame.breakTo)
    (hcontinue : ∀ target ∈ frame.continueTo, s.Leads target) :
    LeadsOut s (context.inside frame) := by
  intro frame' hframe
  rcases List.mem_cons.mp hframe with rfl | hframe
  · exact ⟨hbreak, hcontinue⟩
  · exact h frame' hframe

theorem breakTo (h : LeadsOut s context) {target : Nat} (ht : context.breakTo? = some target) :
    s.Leads target := by
  obtain ⟨frame, hframe, rfl⟩ := Option.map_eq_some_iff.mp ht
  exact (h frame (List.mem_of_mem_head? hframe)).1

theorem continueTo (h : LeadsOut s context) {target : Nat}
    (ht : context.continueTo? = some target) : s.Leads target := by
  obtain ⟨frame, hframe, htarget⟩ := List.exists_of_findSome?_eq_some ht
  exact (h frame hframe).2 target htarget

end LeadsOut

/-! ## Beginning and ending a statement -/

/-- Wherever the action succeeds in a sound builder that fills the spot, it adds code from there to
another spot, where the block may be closed. -/
def Completes (strict : Prop) (s : Spot) (x : Emit α) (Q : Spot → α → Prop) : Prop :=
  ∀ b : Builder, b.Fills strict s → Runs x b fun a b' =>
    ∃ s', s.Before s' ∧ b'.Stands strict s' ∧ b.Settles b' ∧ Q s' a

theorem Adds.completes {x : Emit α} {Q : Spot → α → Prop} (h : Adds strict s x Q) :
    Completes strict s x Q := by
  intro b hb
  apply (h b hb).imp
  rintro a b' ⟨s', hbefore, hfills, hflows, hQ⟩
  exact ⟨s', hbefore, hfills.stands, hflows.settles, hQ⟩

theorem Adds.completes_bind {x : Emit α} {f : α → Emit β} {P : Spot → α → Prop}
    {Q : Spot → β → Prop} (hx : Adds strict s x P)
    (hf : ∀ s' a, s.Before s' → P s' a → Completes strict s' (f a) Q) :
    Completes strict s (x >>= f) Q := by
  intro b hb
  apply (hx b hb).bind
  rintro a b₁ ⟨s₁, h₁, hfills₁, hflows₁, hP⟩
  apply (hf s₁ a h₁ hP b₁ hfills₁).imp
  rintro c b₂ ⟨s₂, h₂, hstands₂, hsettles₂, hQ⟩
  exact ⟨s₂, h₁.trans h₂, hstands₂, hflows₁.settles.trans hsettles₂, hQ⟩

theorem Does.bind {x : Emit α} {f : α → Emit β} {P : Spot → α → Prop} {Q : Spot → β → Prop}
    (hx : Does strict s x P) (hf : ∀ s' a, s.Before s' → P s' a → Does strict s' (f a) Q) :
    Does strict s (x >>= f) Q := by
  intro b hb
  apply (hx b hb).bind
  rintro a b₁ ⟨s₁, h₁, hstands₁, hsettles₁, hP⟩
  apply (hf s₁ a h₁ hP b₁ hstands₁).imp
  rintro c b₂ ⟨s₂, h₂, hstands₂, hsettles₂, hQ⟩
  exact ⟨s₂, h₁.trans h₂, hstands₂, hsettles₁.trans hsettles₂, hQ⟩

theorem Does.pure {a : α} {Q : Spot → α → Prop} (h : Q s a) :
    Does strict s (Pure.pure a) Q := by
  intro b hb
  exact Runs.pure ⟨s, .refl s, hb, .refl hb.placed, h⟩

theorem Does.completes {x : Emit α} {Q : Spot → α → Prop} (h : Does strict s x Q) :
    Completes strict s x Q := by
  intro b hb
  exact h b hb.stands

/-- The last instruction of a statement that does not go on. -/
theorem completes_terminate {t : Ir.Terminator} {Q : Spot → β → Prop} {a : β}
    (ht : s.Allows strict t) (hQ : Q s a) :
    Completes strict s (liftM (Build.terminate t) >>= fun _ => (Pure.pure a : Emit β)) Q := by
  intro b hb
  apply Runs.terminate_bind hb.isOpen
  apply Runs.pure
  exact ⟨s, .refl s, hb.close ht, (Builder.Settles.refl hb.stands.placed).close hb.isOpen t, hQ⟩

/-- A statement begins in an open block. -/
theorem ensureOpen_bind {f : Unit → Emit β} {Q : Spot → β → Prop}
    (h : ∀ s', s.Before s' → Completes strict s' (f ()) Q) :
    Does strict s (ensureOpen >>= f) Q := by
  intro b hb
  have hopen : Runs ensureOpen b fun _ b' =>
      ∃ s', s.Before s' ∧ b'.Fills strict s' ∧ b.Flows b' := by
    apply Runs.get_bind
    cases hterm : b.isTerminated with
    | false =>
      have hisOpen := hb.placed.isTerminated.mp hterm
      exact Runs.pure ⟨s, .refl s, hb.fills hisOpen, .refl hisOpen⟩
    | true =>
      have hsome := hb.placed.isSome
      have hclosed := not_isOpen_of_isTerminated hb.placed hterm
      have hsize : s.layout.blocks.length = b.blockCount := hb.sound.size
      apply Runs.bind_ok (Emit.lift_eq (Build.createBlock_eq hsome "dead")) ⟨by simp, by simp⟩
      apply Runs.of_ok (Emit.lift_eq (Build.position_eq _)) ⟨rfl, rfl⟩
      have horigin : (s.layout.addBlock (some s.block) "dead").blocks[b.blockCount]? =
          some ⟨some s.block, "dead"⟩ := by
        rw [← hsize]
        exact List.getElem?_concat_length
      have hun := (Builder.Unfinished.addBlock "dead" hsome).mpr (.inr rfl)
      exact ⟨⟨s.layout.addBlock (some s.block) "dead", b.blockCount⟩,
        ⟨.addBlock _ _ _, .parent .refl horigin⟩,
        .moveTo (hb.sound.addBlock hsome (some s.block) (by decide)) hun, flows_dead hb.placed hclosed⟩
  apply hopen.bind
  rintro _ b₁ ⟨s₁, h₁, hfills₁, hflows₁⟩
  apply (h s₁ h₁ b₁ hfills₁).imp
  rintro c b₂ ⟨s₂, h₂, hstands₂, hsettles₂, hQ⟩
  exact ⟨s₂, h₁.trans h₂, hstands₂, hflows₁.settles.trans hsettles₂, hQ⟩

/-! ## Filling blocks -/

/-- Several blocks, and what follows them, are filled and closed under a layout that says more. -/
structure EndsAll (strict : Prop) (l : Layout) (b : Builder) (ids : List Nat) (l' : Layout)
    (b' : Builder) : Prop where
  layout : l.Extends l'
  sound : b'.Sound strict l'
  closes : b.ClosesAll ids b'

namespace EndsAll

variable {l' l'' : Layout} {b' b'' : Builder} {ids : List Nat}

theorem nil (h : b.Sound strict l) : EndsAll strict l b [] l b :=
  ⟨.refl l, h, .nil b⟩

theorem cons {id : Nat} (h : Ends strict l b id l' b') (h' : EndsAll strict l' b' ids l'' b'') :
    EndsAll strict l b (id :: ids) l'' b'' :=
  ⟨h.layout.trans h'.layout, h'.sound, .cons h.closes h'.closes⟩

theorem singleton {id : Nat} (h : Ends strict l b id l' b') : EndsAll strict l b [id] l' b' :=
  cons h (nil h.sound)

/-- All blocks of a construct but one are closed, and control goes on in that one. -/
theorem behind {stems : List String} {t : Ir.Terminator} (hfills : b.Fills strict s)
    (hfork : b.Forks strict s stems.length l (b.fork stems t))
    (h : EndsAll strict l (b.fork stems t) ids l' b') (last : Nat)
    (hids : ∀ id, id ∈ ids ∨ id = last ↔ b.blockCount ≤ id ∧ id < b.blockCount + stems.length)
    (hlast : last ∉ ids) :
    s.Before ⟨l', last⟩ ∧ (b'.moveTo last).Stands strict ⟨l', last⟩ ∧ b.Settles (b'.moveTo last) := by
  have hflows := h.closes.flows hfills.isOpen last hids hlast
  obtain ⟨hle, hlt⟩ := (hids last).mp (.inr rfl)
  have hun : b'.Unfinished last := Builder.isOpen_moveTo.mp hflows.isOpen
  exact ⟨(hfork.before last hle hlt).trans (.of_extends h.layout last),
    (Builder.Fills.moveTo h.sound hun).stands, hflows.settles⟩

end EndsAll

theorem branchIfOpen_runs {k target : Nat} {s' : Spot} {b' : Builder}
    (hbefore : Spot.Before ⟨l, k⟩ s') (hstands : b'.Stands strict s')
    (hsettles : (b.moveTo k).Settles b') (hleads : s'.Leads target) :
    Runs (branchIfOpen target) b' fun _ b'' => Ends strict l b k s'.layout b'' := by
  apply Runs.get_bind
  cases hterm : b'.isTerminated with
  | true =>
    exact Runs.pure ⟨hbefore.layout, hstands.sound,
      hsettles.closes (not_isOpen_of_isTerminated hstands.placed hterm)⟩
  | false =>
    have hopen := hstands.placed.isTerminated.mp hterm
    apply Runs.terminate hopen
    exact ⟨hbefore.layout, ((hstands.fills hopen).close (.branch hleads)).sound,
      (hsettles.close hopen _).closes (Builder.not_isOpen_close _)⟩

/-- A block is filled with the code of an action, and goes to a target unless that code has gone
elsewhere. -/
theorem fill_runs {x : Emit α} {f : Unit → Emit β} {k target : Nat} {Q : Spot → α → Prop}
    {R : β → Builder → Prop} (hs : b.Sound strict l) (hk : b.Unfinished k)
    (htarget : Spot.Leads ⟨l, k⟩ target) (hx : Does strict ⟨l, k⟩ x Q)
    (hf : ∀ l' b', Ends strict l b k l' b' → Runs (f ()) b' R) :
    Runs (liftM (Build.position k) >>= fun _ => x >>= fun _ => branchIfOpen target >>= f) b R := by
  apply Runs.position_bind
  apply (hx _ (Builder.Fills.moveTo hs hk).stands).bind
  rintro a b₁ ⟨s₁, h₁, hstands₁, hsettles₁, -⟩
  apply (branchIfOpen_runs h₁ hstands₁ hsettles₁ (h₁.leads htarget)).bind
  intro _ b₂ hend
  exact hf s₁.layout b₂ hend

/-! ## Parts of statements -/

section

variable (hg : s.KnowsTable g)

include hg

theorem discard_adds (e : Expr) : Adds strict s (discard g e) fun s' _ => s'.KnowsTable g := by
  apply (expr_adds hg e).bind
  intro s₁ value h₁ _
  exact .pure (h₁.knowsTable hg)

theorem condition_adds (e : Expr) : Adds strict s (condition g e) fun s' v => s'.Knows v := by
  apply (expr_adds hg e).bind
  intro s₁ value h₁ hvalue
  exact coerce_adds hvalue

theorem localVar_adds (v : VarDecl) :
    Adds strict s (localVar g v) fun s' g' => s'.KnowsTable g' := by
  unfold localVar
  apply Adds.alloca.bind
  intro s₁ address h₁ haddress
  have hg₁ := h₁.knowsTable hg
  cases v.init with
  | none => exact .pure (hg₁.declareVar haddress)
  | some e =>
    apply (expr_adds hg₁ e).bind
    intro s₂ value h₂ hvalue
    apply (coerce_adds hvalue).bind
    intro s₃ stored h₃ hstored
    have hbefore := h₂.trans h₃
    apply (Adds.store (hbefore.knows haddress) hstored).bind
    intro s₄ _ h₄ _
    exact .pure (((hbefore.trans h₄).knowsTable hg₁).declareVar ((hbefore.trans h₄).knows haddress))

theorem forInit_adds (init : Option ForInit) :
    Adds strict s (forInit g init) fun s' g' => s'.KnowsTable g' := by
  match init with
  | none => exact .pure hg
  | some (.expr e) =>
    apply (discard_adds hg e).bind
    intro s₁ _ h₁ hg₁
    exact .pure hg₁
  | some (.declare v) => exact localVar_adds hg v

theorem returnValue_adds (returnTy : Ty) (value : Option Expr) :
    Adds strict s (returnValue g returnTy value) fun s' v => ∀ w ∈ v, s'.Knows w := by
  cases value with
  | none => exact .pure (by simp)
  | some e =>
    apply (expr_adds hg e).bind
    intro s₁ value h₁ hvalue
    split
    · exact .pure (by simp)
    · apply (coerce_adds hvalue).bind
      intro s₂ result h₂ hresult
      apply Adds.pure
      rintro _ ⟨⟩
      exact hresult

end

theorem loopTest_runs (test : Option Expr) {body exit k : Nat} (hs : b.Sound strict l)
    (hk : b.Unfinished k) (hg : Spot.KnowsTable ⟨l, k⟩ g) (hbody : Spot.Leads ⟨l, k⟩ body)
    (hexit : Spot.Leads ⟨l, k⟩ exit) :
    Runs (loopTest g test body exit) (b.moveTo k) fun _ b' => ∃ l', Ends strict l b k l' b' := by
  have hfills := Builder.Fills.moveTo hs hk
  cases test with
  | none =>
    apply Runs.terminate hfills.isOpen
    exact ⟨l, .of_flows (.refl _) hfills (.refl hfills.isOpen) (.branch hbody)⟩
  | some e =>
    apply (condition_adds hg e _ hfills).bind
    rintro value b₁ ⟨s₁, h₁, hfills₁, hflows₁, hvalue⟩
    apply Runs.terminate hfills₁.isOpen
    exact ⟨s₁.layout, .of_flows h₁ hfills₁ hflows₁
      (.condBranch hvalue (h₁.leads hbody) (h₁.leads hexit))⟩

theorem loopStep_runs {step : Option Expr} {block : Option Nat} (head : Nat)
    (hs : b.Sound strict l) (hblock : block.isSome = step.isSome)
    (hk : ∀ k ∈ block, b.Unfinished k ∧ Spot.KnowsTable ⟨l, k⟩ g ∧ Spot.Leads ⟨l, k⟩ head) :
    Runs (loopStep g head block step) b fun _ b' =>
      ∃ l', EndsAll strict l b block.toList l' b' := by
  match block, step, hblock with
  | none, none, _ => exact Runs.pure ⟨l, .nil hs⟩
  | some k, some e, _ =>
    obtain ⟨hun, hg, hleads⟩ := hk k rfl
    apply Runs.position_bind
    apply (discard_adds hg e _ (.moveTo hs hun)).bind
    rintro _ b₁ ⟨s₁, h₁, hfills₁, hflows₁, -⟩
    apply Runs.terminate hfills₁.isOpen
    exact ⟨s₁.layout, .singleton (.of_flows h₁ hfills₁ hflows₁ (.branch (h₁.leads hleads)))⟩

/-- A block that is there only if something goes into it. -/
theorem blockFor_runs {content : Option α} {k : Option Nat → Emit β} {R : β → Builder → Prop}
    (stems : List String) {stem : String} (hb : b.openFn.isSome)
    (h : Runs (k (content.map fun _ => b.blockCount + stems.length))
      (b.addBlocks (stems ++ (content.map fun _ => stem).toList)) R) :
    Runs (blockFor content stem >>= k) (b.addBlocks stems) R := by
  cases content with
  | none =>
    rw [blockFor, pure_bind]
    simpa using h
  | some x =>
    rw [blockFor, bind_assoc]
    exact Runs.createBlock_bind stems hb h

/-- The targets of a `switch` are among the blocks of its arms and the one behind it, and its labels
are those of the arms. -/
theorem dispatch_runs {Body : Type} (default : Nat) (arms : List (Arm Body)) (blocks : List Nat) :
    Runs (dispatch default arms blocks) b fun r b' => b' = b ∧
      (r.1 = default ∨ r.1 ∈ blocks) ∧ (∀ c ∈ r.2, c.2 ∈ blocks) ∧
        (r.2.map Prod.fst).Sublist (arms.filterMap Arm.value?) := by
  induction arms generalizing default blocks with
  | nil => exact Runs.pure ⟨rfl, .inl rfl, by simp, .refl _⟩
  | cons arm rest ih =>
    cases blocks with
    | nil => exact Runs.pure ⟨rfl, .inl rfl, by simp, List.nil_sublist _⟩
    | cons block blocks =>
      rw [dispatch]
      cases hlabel : arm.label with
      | none =>
        have hvalue : arm.value? = none := by rw [Arm.value?, hlabel]; rfl
        apply (ih block blocks).imp
        rintro r _ ⟨rfl, hdefault, hcases, hsub⟩
        rw [List.filterMap_cons_none hvalue]
        refine ⟨rfl, .inr ?_, fun c hc => List.mem_cons_of_mem _ (hcases c hc), hsub⟩
        exact List.mem_cons.mpr hdefault
      | some label =>
        apply Runs.bind (P := fun value b' => b' = b ∧ label.constInt? = some value)
        · exact Runs.orFault (by simp) fun value hvalue => ⟨rfl, hvalue⟩
        · rintro value _ ⟨rfl, hconst⟩
          have hvalue : arm.value? = some value := by rw [Arm.value?, hlabel]; exact hconst
          apply (ih default blocks).bind
          rintro ⟨target, cases⟩ _ ⟨rfl, hdefault, hcases, hsub⟩
          rw [List.filterMap_cons_some hvalue]
          apply Runs.pure
          refine ⟨rfl, hdefault.imp_right (List.mem_cons_of_mem _), ?_, hsub.cons_cons value⟩
          intro c hc
          rcases List.mem_cons.mp hc with rfl | hc
          · exact List.mem_cons_self
          · exact List.mem_cons_of_mem _ (hcases c hc)

theorem armStem_mem {Body : Type} (arm : Arm Body) : armStem arm ∈ Ir.branchStems := by
  unfold armStem
  split
  · decide
  · decide

/-! ## Statements -/

mutual

/-- Code for a statement reads what is known where it begins, and leads to its own blocks and out of
the loops and switches around it. -/
theorem stmt_does {s : Spot} {g : SymbolTable} {context : Context} (hg : s.KnowsTable g)
    (hx : LeadsOut s context) (st : Stmt) (hlabels : strict → st.HasDistinctLabels) :
    Does strict s (stmt context g st) fun s' g' => s'.KnowsTable g' := by
  match st with
  | .expr _ e =>
    rw [stmt]
    apply ensureOpen_bind
    intro s₁ h₁
    apply Adds.completes
    apply (discard_adds (h₁.knowsTable hg) e).bind
    intro s₂ _ h₂ hg₂
    exact .pure hg₂
  | .empty _ =>
    rw [stmt]
    apply ensureOpen_bind
    intro s₁ h₁
    exact Adds.completes (.pure (h₁.knowsTable hg))
  | .declare v =>
    rw [stmt]
    apply ensureOpen_bind
    intro s₁ h₁
    exact Adds.completes (localVar_adds (h₁.knowsTable hg) v)
  | .block _ body =>
    rw [stmt]
    apply ensureOpen_bind
    intro s₁ h₁
    have hg₁ := h₁.knowsTable hg
    apply Does.completes
    apply (stmts_does hg₁.push (hx.mono h₁) body (by simpa only [Stmt.HasDistinctLabels] using hlabels)).bind
    intro s₂ _ h₂ _
    exact .pure (h₂.knowsTable hg₁)
  | .ifThen _ test ifTrue =>
    rw [stmt]
    apply ensureOpen_bind
    intro s₁ h₁
    apply (condition_adds (h₁.knowsTable hg) test).completes_bind
    intro s₂ value h₂ hvalue b₂ hfills₂
    have hg₂ := (h₁.trans h₂).knowsTable hg
    have hx₂ := hx.mono (h₁.trans h₂)
    have hopen := hfills₂.isOpen
    apply Runs.createBlock_bind [] hopen.isSome
    apply Runs.createBlock_bind ["if.then"] hopen.isSome
    apply Runs.terminate_bind (hopen.addBlocks _)
    have hfork := hfills₂.fork ["if.then", "if.footer"]
      (.condBranch value b₂.blockCount (b₂.blockCount + 1)) (by decide) (by
        intro l hl hchild
        exact .condBranch (Spot.Before.knows (.of_extends hl _) hvalue)
          ((hchild _ (by omega) (by simp)).leads .refl) ((hchild _ (by omega) (by simp)).leads .refl))
    have hthen := hfork.before b₂.blockCount (by omega) (by simp)
    apply fill_runs hfork.sound ((hfork.unfinished _).mpr (.inr ⟨by omega, by simp⟩))
      ((hfork.child _ (by omega) (by simp)).leads hthen.above)
      (stmt_does (hthen.knowsTable hg₂).push (hx₂.mono hthen) ifTrue
        (by simpa only [Stmt.HasDistinctLabels] using hlabels))
    intro l₃ b₃ hend
    apply Runs.position_bind
    apply Runs.pure
    obtain ⟨hbehind, hstands, hsettles⟩ := (EndsAll.singleton hend).behind hfills₂ hfork
      (b₂.blockCount + 1) (by simp; omega) (by simp)
    exact ⟨_, hbehind, hstands, hsettles, hbehind.knowsTable hg₂⟩
  | .ifElse _ test ifTrue ifFalse =>
    have hlabels' : strict → ifTrue.HasDistinctLabels ∧ ifFalse.HasDistinctLabels := by
      simpa only [Stmt.HasDistinctLabels] using hlabels
    rw [stmt]
    apply ensureOpen_bind
    intro s₁ h₁
    apply (condition_adds (h₁.knowsTable hg) test).completes_bind
    intro s₂ value h₂ hvalue b₂ hfills₂
    have hg₂ := (h₁.trans h₂).knowsTable hg
    have hx₂ := hx.mono (h₁.trans h₂)
    have hopen := hfills₂.isOpen
    apply Runs.createBlock_bind [] hopen.isSome
    apply Runs.createBlock_bind ["if.then"] hopen.isSome
    apply Runs.createBlock_bind ["if.then", "if.else"] hopen.isSome
    apply Runs.terminate_bind (hopen.addBlocks _)
    have hfork := hfills₂.fork ["if.then", "if.else", "if.footer"]
      (.condBranch value b₂.blockCount (b₂.blockCount + 1)) (by decide) (by
        intro l hl hchild
        exact .condBranch (Spot.Before.knows (.of_extends hl _) hvalue)
          ((hchild _ (by omega) (by simp)).leads .refl) ((hchild _ (by omega) (by simp)).leads .refl))
    have hfooter := hfork.child (b₂.blockCount + 2) (by omega) (by simp)
    have hthen := hfork.before b₂.blockCount (by omega) (by simp)
    have helse := hfork.before (b₂.blockCount + 1) (by omega) (by simp)
    apply fill_runs hfork.sound ((hfork.unfinished _).mpr (.inr ⟨by omega, by simp⟩))
      (hfooter.leads hthen.above)
      (stmt_does (hthen.knowsTable hg₂).push (hx₂.mono hthen) ifTrue fun h => (hlabels' h).1)
    intro l₃ b₃ hend
    have helse' := helse.trans (.of_extends hend.layout _)
    apply fill_runs hend.sound
      ((hend.closes.unfinished _).mpr ⟨(hfork.unfinished _).mpr (.inr ⟨by omega, by simp⟩), by omega⟩)
      ((hend.layout.child hfooter).leads helse'.above)
      (stmt_does (helse'.knowsTable hg₂).push (hx₂.mono helse') ifFalse fun h => (hlabels' h).2)
    intro l₄ b₄ hend'
    apply Runs.position_bind
    apply Runs.pure
    obtain ⟨hbehind, hstands, hsettles⟩ := (EndsAll.cons hend (.singleton hend')).behind hfills₂ hfork
      (b₂.blockCount + 2) (by simp; omega) (by simp)
    exact ⟨_, hbehind, hstands, hsettles, hbehind.knowsTable hg₂⟩
  | .whileLoop _ test body =>
    have hlabels' : strict → body.HasDistinctLabels := by
      simpa only [Stmt.HasDistinctLabels] using hlabels
    rw [stmt]
    apply ensureOpen_bind
    intro s₁ h₁ b₁ hfills₁
    have hg₁ := h₁.knowsTable hg
    have hopen := hfills₁.isOpen
    apply Runs.createBlock_bind [] hopen.isSome
    apply Runs.createBlock_bind ["while.head"] hopen.isSome
    apply Runs.createBlock_bind ["while.head", "while.body"] hopen.isSome
    apply Runs.terminate_bind (hopen.addBlocks _)
    have hfork := hfills₁.fork ["while.head", "while.body", "while.footer"]
      (.branch b₁.blockCount) (by decide) (by
        intro l hl hchild
        exact .branch ((hchild _ (by omega) (by simp)).leads .refl))
    have hheadChild := hfork.child b₁.blockCount (by omega) (by simp)
    have hbodyChild := hfork.child (b₁.blockCount + 1) (by omega) (by simp)
    have hfooterChild := hfork.child (b₁.blockCount + 2) (by omega) (by simp)
    have hhead := hfork.before b₁.blockCount (by omega) (by simp)
    have hbody := hfork.before (b₁.blockCount + 1) (by omega) (by simp)
    apply Runs.position_bind
    apply (loopTest_runs (some test) hfork.sound
      ((hfork.unfinished _).mpr (.inr ⟨by omega, by simp⟩)) (hhead.knowsTable hg₁)
      (hbodyChild.leads hhead.above) (hfooterChild.leads hhead.above)).bind
    rintro _ b₂ ⟨l₂, hend⟩
    have hbody' := hbody.trans (.of_extends hend.layout _)
    have hheadLeads := (hend.layout.child hheadChild).leads hbody'.above
    have hfooterLeads := (hend.layout.child hfooterChild).leads hbody'.above
    apply fill_runs hend.sound
      ((hend.closes.unfinished _).mpr ⟨(hfork.unfinished _).mpr (.inr ⟨by omega, by simp⟩), by omega⟩)
      hheadLeads
      (stmt_does (hbody'.knowsTable hg₁).push
        (((hx.mono h₁).mono hbody').inside ⟨b₁.blockCount + 2, some b₁.blockCount⟩ hfooterLeads
           (by rintro _ ⟨⟩; exact hheadLeads)) body hlabels')
    intro l₃ b₃ hend'
    apply Runs.position_bind
    apply Runs.pure
    obtain ⟨hbehind, hstands, hsettles⟩ := (EndsAll.cons hend (.singleton hend')).behind hfills₁ hfork
      (b₁.blockCount + 2) (by simp; omega) (by simp)
    exact ⟨_, hbehind, hstands, hsettles, hbehind.knowsTable hg₁⟩
  | .forLoop _ init test step body =>
    have hlabels' : strict → body.HasDistinctLabels := by
      simpa only [Stmt.HasDistinctLabels] using hlabels
    rw [stmt]
    apply ensureOpen_bind
    intro s₁ h₁
    have hg₁ := h₁.knowsTable hg
    apply (forInit_adds hg₁.push init).completes_bind
    intro s₂ inner h₂ hinner b₂ hfills₂
    have hx₂ := hx.mono (h₁.trans h₂)
    have hopen := hfills₂.isOpen
    apply Runs.createBlock_bind [] hopen.isSome
    apply Runs.createBlock_bind ["for.head"] hopen.isSome
    apply blockFor_runs ["for.head", "for.body"] hopen.isSome
    apply Runs.createBlock_bind _ hopen.isSome
    apply Runs.terminate_bind (hopen.addBlocks _)
    generalize hstems : ["for.head", "for.body"] ++ (step.map fun _ => "for.step").toList = stems
    have hlength : stems.length = 2 + step.toList.length := by
      rw [← hstems]
      cases step <;> simp
    have hbranch : ∀ stem ∈ stems ++ ["for.footer"], stem ∈ Ir.branchStems := by
      rw [← hstems]
      cases step with
      | none => decide
      | some e => simp only [Option.map_some, Option.toList_some]; decide
    have hfork := hfills₂.fork (stems ++ ["for.footer"])
      (.branch b₂.blockCount) hbranch (by
        intro l hl hchild
        exact .branch ((hchild _ (by omega) (by simp)).leads .refl))
    have hcount : (stems ++ ["for.footer"]).length = 3 + step.toList.length := by
      rw [List.length_append, hlength, List.length_singleton]
      omega
    have hnew : ∀ id, b₂.blockCount ≤ id → id < b₂.blockCount + (3 + step.toList.length) →
        (b₂.fork (stems ++ ["for.footer"]) (.branch b₂.blockCount)).Unfinished id :=
      fun id hle hlt => (hfork.unfinished id).mpr (.inr ⟨hle, hcount ▸ hlt⟩)
    have hchild := hfork.child
    have hbefore := hfork.before
    rw [hcount] at hchild hbefore
    have hhead := hbefore b₂.blockCount (by omega) (by omega)
    have hbody := hbefore (b₂.blockCount + 1) (by omega) (by omega)
    have hfooterChild := hchild (b₂.blockCount + stems.length) (by omega) (by omega)
    apply Runs.position_bind
    apply (loopTest_runs test hfork.sound (hnew _ (by omega) (by omega)) (hhead.knowsTable hinner)
      ((hchild (b₂.blockCount + 1) (by omega) (by omega)).leads hhead.above)
      (hfooterChild.leads hhead.above)).bind
    rintro _ b₃ ⟨l₃, hend⟩
    have hbody₃ := hbody.trans (.of_extends hend.layout _)
    generalize hnext : (step.map fun _ => b₂.blockCount + ["for.head", "for.body"].length).getD
      b₂.blockCount = next
    have hnextLeads : l₃.Leads (b₂.blockCount + 1) next := by
      have hnextChild : l₃.Child s₂.block next := by
        apply hend.layout.child
        rw [← hnext]
        cases step with
        | none => exact hchild _ (by simp) (by simp)
        | some e => exact hchild _ (by simp) (by simp)
      exact hnextChild.leads hbody₃.above
    apply fill_runs hend.sound
      ((hend.closes.unfinished _).mpr ⟨hnew _ (by omega) (by omega), by omega⟩) hnextLeads
      (stmt_does (hbody₃.knowsTable hinner).push ((hx₂.mono hbody₃).inside
        ⟨b₂.blockCount + stems.length, some next⟩
        ((hend.layout.child hfooterChild).leads hbody₃.above)
        (by rintro _ ⟨⟩; exact hnextLeads)) body hlabels')
    intro l₄ b₄ hend'
    have hlayout₄ := hend.layout.trans hend'.layout
    apply (loopStep_runs b₂.blockCount hend'.sound (by simp) ?_).bind
    · rintro _ b₅ ⟨l₅, hends⟩
      apply Runs.position_bind
      apply Runs.pure
      have hids : ∀ id, id ∈ b₂.blockCount :: (b₂.blockCount + 1) ::
          (step.map fun _ => b₂.blockCount + ["for.head", "for.body"].length).toList ∨
            id = b₂.blockCount + stems.length ↔
          b₂.blockCount ≤ id ∧ id < b₂.blockCount + (stems ++ ["for.footer"]).length := by
        intro id
        rw [hcount, hlength]
        cases step <;> simp
        all_goals omega
      have hlast : b₂.blockCount + stems.length ∉ b₂.blockCount :: (b₂.blockCount + 1) ::
          (step.map fun _ => b₂.blockCount + ["for.head", "for.body"].length).toList := by
        rw [hlength]
        cases step <;> simp
      obtain ⟨hbehind, hstands, hsettles⟩ :=
        (EndsAll.cons hend (.cons hend' hends)).behind hfills₂ hfork _ hids hlast
      exact ⟨_, hbehind, hstands, hsettles, (h₂.trans hbehind).knowsTable hg₁⟩
    · intro k hk
      obtain ⟨e, he, rfl⟩ := Option.map_eq_some_iff.mp hk
      have hstep := hbefore (b₂.blockCount + 2) (by omega) (by simp [he])
      have hstep₄ := hstep.trans (.of_extends hlayout₄ _)
      refine ⟨?_, hstep₄.knowsTable hinner,
        (hlayout₄.child (hchild _ (by omega) (by omega))).leads hstep₄.above⟩
      rw [hend'.closes.unfinished, hend.closes.unfinished]
      exact ⟨⟨hnew _ (by simp) (by simp [he]), by simp⟩, by simp⟩
  | .switch _ value arms =>
    have hlabels' : strict → (arms.filterMap Arm.value?).Nodup ∧
        Stmt.ArmsHaveDistinctLabels arms := by
      simpa only [Stmt.HasDistinctLabels] using hlabels
    rw [stmt]
    apply ensureOpen_bind
    intro s₁ h₁
    have hg₁ := h₁.knowsTable hg
    apply (expr_adds hg₁ value).completes_bind
    intro s₂ typed h₂ htyped
    apply (coerce_adds htyped).completes_bind
    intro s₃ number h₃ hnumber b₃ hfills₃
    have hg₃ := (h₂.trans h₃).knowsTable hg₁
    have hx₃ := hx.mono (h₁.trans (h₂.trans h₃))
    have hopen := hfills₃.isOpen
    apply Runs.bind_ok (armBlocks_eq arms hopen.isSome)
      (.of_extends ((Builder.Extends.refl b₃).addBlocks hopen.isSome _))
    apply Runs.createBlock_bind _ hopen.isSome
    apply (dispatch_runs _ arms _).bind
    rintro ⟨default, cases⟩ _ ⟨rfl, hdefault, hcases, hsub⟩
    apply Runs.terminate_bind (hopen.addBlocks _)
    have hbranch : ∀ stem ∈ arms.map armStem ++ ["switch.footer"], stem ∈ Ir.branchStems := by
      intro stem hstem
      rcases List.mem_append.mp hstem with harm | hfooter
      · obtain ⟨arm, -, rfl⟩ := List.mem_map.mp harm
        exact armStem_mem arm
      · rw [List.mem_singleton.mp hfooter]
        decide
    have htargets : ∀ target, target = b₃.blockCount + (arms.map armStem).length ∨
        target ∈ List.range' b₃.blockCount arms.length →
          b₃.blockCount ≤ target ∧
            target < b₃.blockCount + (arms.map armStem ++ ["switch.footer"]).length := by
      intro target htarget
      simp only [List.mem_range'_1, List.length_map] at htarget
      simp only [List.length_append, List.length_map, List.length_singleton]
      omega
    have hfork := hfills₃.fork (arms.map armStem ++ ["switch.footer"])
      (.switch number default cases) hbranch (by
        intro l hl hchild
        refine ⟨?_, ?_, ?_⟩
        · intro v hv
          have heq : v = number := by simpa [Ir.Terminator.operands] using hv
          rw [heq]
          exact Spot.Before.knows (.of_extends hl _) hnumber
        · intro target htarget
          have hrange := htargets target (by
            rcases List.mem_cons.mp htarget with rfl | hcase
            · exact hdefault
            · obtain ⟨c, hc, rfl⟩ := List.mem_map.mp hcase
              exact .inr (hcases c hc))
          exact (hchild target hrange.1 hrange.2).leads .refl
        · intro hstrict
          exact hsub.nodup (hlabels' hstrict).1)
    have hsame := Spot.Before.of_extends hfork.layout s₃.block
    obtain ⟨hle, hlt⟩ := htargets _ (.inl rfl)
    have hfooterChild := hfork.child _ hle hlt
    apply (armBodies_runs hfork.sound (hsame.knowsTable hg₃)
      ((hx₃.mono hsame).inside ⟨_, none⟩ (hfooterChild.leads .refl) (by simp)) hfooterChild arms _
      (fun h => (hlabels' h).2) (by simp) ?_ List.nodup_range').bind
    · rintro _ b₄ ⟨l₄, hends⟩
      apply Runs.position_bind
      apply Runs.pure
      obtain ⟨hbehind, hstands, hsettles⟩ := hends.behind hfills₃ hfork
        (b₃.blockCount + (arms.map armStem).length) (by simp [List.mem_range'_1]; omega)
        (by simp [List.mem_range'_1])
      exact ⟨_, hbehind, hstands, hsettles, hbehind.knowsTable hg₃⟩
    · intro k hk
      obtain ⟨hle, hlt⟩ := htargets k (.inr hk)
      exact ⟨(hfork.unfinished k).mpr (.inr ⟨hle, hlt⟩), hfork.child k hle hlt⟩
  | .breakStmt _ =>
    rw [stmt]
    apply ensureOpen_bind
    intro s₁ h₁
    apply Adds.completes_bind (P := fun s' target => s'.KnowsTable g ∧ s'.Leads target)
    · exact Adds.orFault nofun fun target htarget =>
        ⟨h₁.knowsTable hg, (hx.mono h₁).breakTo htarget⟩
    · intro s₂ target h₂ ⟨hg₂, hleads⟩
      exact completes_terminate (.branch hleads) hg₂
  | .continueStmt _ =>
    rw [stmt]
    apply ensureOpen_bind
    intro s₁ h₁
    apply Adds.completes_bind (P := fun s' target => s'.KnowsTable g ∧ s'.Leads target)
    · exact Adds.orFault nofun fun target htarget =>
        ⟨h₁.knowsTable hg, (hx.mono h₁).continueTo htarget⟩
    · intro s₂ target h₂ ⟨hg₂, hleads⟩
      exact completes_terminate (.branch hleads) hg₂
  | .returnStmt _ value =>
    rw [stmt]
    apply ensureOpen_bind
    intro s₁ h₁
    have hg₁ := h₁.knowsTable hg
    apply (returnValue_adds hg₁ context.returnTy value).completes_bind
    intro s₂ result h₂ hresult
    exact completes_terminate (.ret hresult) (h₂.knowsTable hg₁)

theorem stmts_does {s : Spot} {g : SymbolTable} {context : Context} (hg : s.KnowsTable g)
    (hx : LeadsOut s context) (body : List Stmt) (hlabels : strict → Stmt.AllHaveDistinctLabels body) :
    Does strict s (stmts context g body) fun _ _ => True := by
  match body with
  | [] =>
    rw [stmts]
    exact .pure trivial
  | st :: rest =>
    rw [stmts]
    apply (stmt_does hg hx st fun h => (hlabels h).1).bind
    intro s₁ g₁ h₁ hg₁
    exact stmts_does hg₁ (hx.mono h₁) rest fun h => (hlabels h).2

theorem armBodies_runs {l : Layout} {b : Builder} {g : SymbolTable} {context : Context} {origin footer : Nat}
    (hs : b.Sound strict l) (hg : Spot.KnowsTable ⟨l, origin⟩ g) (hx : LeadsOut ⟨l, origin⟩ context)
    (hfooter : l.Child origin footer) (arms : List (Arm (List Stmt))) (blocks : List Nat)
    (hlabels : strict → Stmt.ArmsHaveDistinctLabels arms) (hlength : blocks.length = arms.length)
    (hblocks : ∀ k ∈ blocks, b.Unfinished k ∧ l.Child origin k) (hnodup : blocks.Nodup) :
    Runs (armBodies context g footer blocks arms) b fun _ b' =>
      ∃ l', EndsAll strict l b blocks l' b' := by
  match arms, blocks, hlength with
  | [], [], _ =>
    rw [armBodies]
    exact Runs.pure ⟨l, .nil hs⟩
  | ⟨_, body, _⟩ :: rest, block :: blocks, hlength =>
    obtain ⟨hun, hchild⟩ := hblocks block List.mem_cons_self
    obtain ⟨hnew, hnodup'⟩ := List.nodup_cons.mp hnodup
    have hbelow : Spot.Before ⟨l, origin⟩ ⟨l, block⟩ := .child (.refl l) hchild
    have hnext : l.Child origin (blocks.headD footer) := by
      cases blocks with
      | nil => exact hfooter
      | cons next _ => exact (hblocks next (by simp)).2
    rw [armBodies]
    apply fill_runs hs hun (hnext.leads hbelow.above)
      (stmts_does (hbelow.knowsTable hg).push (hx.mono hbelow) body fun h => (hlabels h).1)
    intro l₁ b₁ hend
    have hsame : Spot.Before ⟨l, origin⟩ ⟨l₁, origin⟩ := .of_extends hend.layout origin
    apply (armBodies_runs hend.sound (hsame.knowsTable hg) (hx.mono hsame)
      (hend.layout.child hfooter) rest blocks (fun h => (hlabels h).2) (Nat.succ.inj hlength) ?_
      hnodup').imp
    · rintro _ b₂ ⟨l₂, hends⟩
      exact ⟨l₂, .cons hend hends⟩
    · intro k hk
      obtain ⟨hunk, hchildk⟩ := hblocks k (List.mem_cons_of_mem _ hk)
      refine ⟨(hend.closes.unfinished k).mpr ⟨hunk, ?_⟩, hend.layout.child hchildk⟩
      rintro rfl
      exact hnew hk

end

end Lowering

end ShaderLang
