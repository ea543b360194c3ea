import ShaderLang.Proofs.Route

/-!
# The code of a statement follows its course

For every statement of a checked program, the code that is added for it can be walked through as the
course of the statement says, whatever tests and values of switches turn out to be (`stmt_routed`).
Each construct has a lemma of its own, which says so of it if it holds of the statements in it.
-/

namespace ShaderLang

open Check

/-! ## Switches -/

/-- At most one arm has no label. -/
def SingleDefault (labels : List (Option Expr)) : Prop :=
  labels.Pairwise fun first second => first = none → second ≠ none

theorem Check.singleDefault_of_labels {Body : Type} {c : SymbolTable} {seen : List Int64}
    {hasDefault : Bool} {arms : List (Arm Body)}
    (h : (labels c seen hasDefault arms).findings = []) :
    SingleDefault (arms.map Arm.label) ∧ (hasDefault = true → ∀ arm ∈ arms, arm.label ≠ none) := by
  induction arms generalizing seen hasDefault with
  | nil => exact ⟨.nil, by simp⟩
  | cons arm rest ih =>
    rw [labels] at h
    split at h
    · next hnone =>
      simp only [Report.findings_bind, List.append_eq_nil_iff, Report.findings_noteIf_eq_nil] at h
      obtain ⟨hsingle, hrest⟩ := ih h.2
      refine ⟨List.pairwise_cons.mpr ⟨?_, hsingle⟩, ?_⟩
      · intro label hlabel _
        obtain ⟨arm', harm', rfl⟩ := List.mem_map.mp hlabel
        exact hrest rfl arm' harm'
      · intro hdefault
        rw [hdefault] at h
        cases h.1
    · next label hlabel =>
      split at h
      · simp only [Report.findings_bind, List.append_eq_nil_iff] at h
        obtain ⟨hsingle, hrest⟩ := ih h.2
        refine ⟨List.pairwise_cons.mpr ⟨?_, hsingle⟩, ?_⟩
        · intro _ _ hnone
          rw [hlabel] at hnone
          cases hnone
        · intro hdefault arm' harm'
          rcases List.mem_cons.mp harm' with rfl | harm'
          · simp [hlabel]
          · exact hrest hdefault arm' harm'
      · simp [Report.note] at h

namespace Lowering

open Ir (Build Builder Terminator)

section

variable {Body : Type} {b : Builder}

/-- The block of the first arm of a kind. -/
def firstBlock (p : Arm Body → Bool) : List (Arm Body) → List Nat → Option Nat
  | arm :: arms, block :: blocks => if p arm then some block else firstBlock p arms blocks
  | _, _ => none

theorem firstBlock_eq (p : Arm Body → Bool) {arms : List (Arm Body)} {blocks : List Nat}
    (hlength : blocks.length = arms.length) :
    (firstBlock p arms blocks).isSome = arms.any p ∧ ∃ k,
      arms.dropWhile (!p ·) = arms.drop k ∧ firstBlock p arms blocks = (blocks.drop k).head? := by
  induction arms generalizing blocks with
  | nil =>
    match blocks, hlength with
    | [], _ => exact ⟨rfl, 0, rfl, rfl⟩
  | cons arm rest ih =>
    match blocks, hlength with
    | block :: blocks, hlength =>
      obtain ⟨hsome, k, hdrop, hblock⟩ := ih (Nat.succ.inj hlength)
      rw [firstBlock, List.any_cons, List.dropWhile_cons]
      cases p arm with
      | true => exact ⟨rfl, 0, rfl, rfl⟩
      | false => exact ⟨hsome, k + 1, hdrop, hblock⟩

theorem firstBlock_eq_none {p : Arm Body → Bool} {arms : List (Arm Body)} {blocks : List Nat}
    (h : ∀ arm ∈ arms, p arm = false) : firstBlock p arms blocks = none := by
  induction arms generalizing blocks with
  | nil => rfl
  | cons arm rest ih =>
    cases blocks with
    | nil => rfl
    | cons block blocks =>
      rw [firstBlock, h arm List.mem_cons_self]
      exact ih fun arm harm => h arm (List.mem_cons_of_mem _ harm)

/-- The default and the cases lead to the blocks of the arms that they belong to. -/
theorem dispatch_leads (default : Nat) (arms : List (Arm Body)) (blocks : List Nat)
    (hsingle : SingleDefault (arms.map Arm.label)) :
    Ensures (dispatch default arms blocks) b fun r b' => b' = b ∧
      r.1 = (firstBlock Arm.isDefault arms blocks).getD default ∧
        ∀ n, r.2.lookup n = firstBlock (·.value? == some n) arms blocks := by
  induction arms generalizing blocks default with
  | nil => exact .pure ⟨rfl, rfl, fun _ => rfl⟩
  | cons arm rest ih =>
    cases blocks with
    | nil => exact .pure ⟨rfl, rfl, fun _ => rfl⟩
    | cons block blocks =>
      obtain ⟨hfirst, hsingle'⟩ := List.pairwise_cons.mp hsingle
      rw [dispatch]
      cases hlabel : arm.label with
      | none =>
        have hvalue : arm.value? = none := by rw [Arm.value?, hlabel]; rfl
        have hdefault : arm.isDefault = true := by rw [Arm.isDefault, hlabel]; rfl
        have hother : firstBlock Arm.isDefault rest blocks = none := by
          apply firstBlock_eq_none
          intro arm' harm
          have hne := hfirst arm'.label (List.mem_map_of_mem harm) hlabel
          simpa [Arm.isDefault, Option.isSome_iff_ne_none] using hne
        apply (ih block blocks hsingle').imp
        rintro ⟨target, cases⟩ b' - ⟨rfl, htarget, hcases⟩
        refine ⟨rfl, ?_, fun n => ?_⟩
        · rw [htarget, hother, firstBlock, hdefault]
          rfl
        · rw [hcases, firstBlock, hvalue]
          rfl
      | some label =>
        have hdefault : arm.isDefault = false := by rw [Arm.isDefault, hlabel]; rfl
        apply Ensures.bind (P := fun value b' => b' = b ∧ label.constInt? = some value)
        · exact .orFault fun value hvalue => ⟨rfl, hvalue⟩
        · rintro value _ - ⟨rfl, hconst⟩
          have hvalue : arm.value? = some value := by rw [Arm.value?, hlabel]; exact hconst
          apply (ih default blocks hsingle').bind
          rintro ⟨target, cases⟩ _ - ⟨rfl, htarget, hcases⟩
          refine .pure ⟨rfl, ?_, fun n => ?_⟩
          · rw [htarget, firstBlock, hdefault]
            rfl
          · rw [List.lookup_cons, hcases, firstBlock, hvalue]
            by_cases hn : n = value
            · simp [hn]
            · simp [beq_eq_false_iff_ne.mpr hn, Ne.symm hn]

/-- Control enters the arms that the value of a `switch` selects. -/
theorem dispatch_enters (default : Nat) {arms : List (Arm Body)} {blocks : List Nat}
    (hlength : blocks.length = arms.length) (hsingle : SingleDefault (arms.map Arm.label)) :
    Ensures (dispatch default arms blocks) b fun r b' => b' = b ∧
      ∀ n, ∃ k, Control.entered n arms = arms.drop k ∧
        (r.2.lookup n).getD r.1 = (blocks.drop k).headD default := by
  apply (dispatch_leads default arms blocks hsingle).imp
  rintro ⟨target, cases⟩ _ - ⟨rfl, htarget, hcases⟩
  refine ⟨rfl, fun n => ?_⟩
  obtain ⟨hsome, k, hdrop, hblock⟩ := firstBlock_eq (·.value? == some n) hlength
  rw [Control.entered, hcases]
  split
  · next hany =>
    rw [hany, hblock] at hsome
    obtain ⟨block, hhead⟩ := Option.isSome_iff_exists.mp hsome
    refine ⟨k, hdrop, ?_⟩
    rw [hblock, List.headD_eq_head?_getD, hhead]
    rfl
  · next hany =>
    rw [Bool.not_eq_true, ← hsome, Option.isSome_eq_false_iff, Option.isNone_iff_eq_none] at hany
    obtain ⟨-, k, hdrop, hblock⟩ := firstBlock_eq Arm.isDefault hlength
    refine ⟨k, hdrop, ?_⟩
    rw [hany, htarget, hblock, List.headD_eq_head?_getD]
    rfl

end

theorem entered_map {Body Body' : Type} {f : Arm Body → Arm Body'} (n : Int64)
    (arms : List (Arm Body)) (h : ∀ arm, (f arm).label = arm.label) :
    Control.entered n (arms.map f) = (Control.entered n arms).map f := by
  have hvalue : ∀ arm, (f arm).value? = arm.value? := by
    intro arm
    rw [Arm.value?, h, Arm.value?]
  have hdefault : ∀ arm, (f arm).isDefault = arm.isDefault := by
    intro arm
    rw [Arm.isDefault, h, Arm.isDefault]
  simp only [Control.entered, List.any_map, List.dropWhile_map, Function.comp_def, hvalue, hdefault]
  split <;> rfl

theorem armControls_eq (oracle : Oracle) (rounds : Nat) (arms : List (Arm (List Stmt))) :
    Stmt.armControls oracle rounds arms =
      arms.map fun arm => ⟨arm.label, Stmt.allControl oracle rounds arm.body, arm.span⟩ := by
  induction arms with
  | nil => rfl
  | cons arm rest ih => rw [Stmt.armControls, ih, List.map_cons]

/-! ## Statements -/

/-- A block that is there only if something goes into it. -/
theorem Ensures.blockFor_bind {α β : Type} {b : Builder} {content : Option α}
    {k : Option Nat → Emit β} {R : β → Builder → Prop} (stems : List String) {stem : String}
    (hb : b.openFn.isSome)
    (h : Ensures (k (content.map fun _ => b.blockCount + stems.length))
      (b.addBlocks (stems ++ (content.map fun _ => stem).toList)) R) :
    Ensures (blockFor content stem >>= k) (b.addBlocks stems) R := by
  cases content with
  | none =>
    rw [blockFor, pure_bind]
    simpa using h
  | some x =>
    rw [blockFor, bind_assoc]
    exact Ensures.createBlock_bind stems hb h

/-- Wherever the code of the action is put, it can be followed as the course says. -/
def Routes {α : Type} (context : Context) (x : Emit α) (control : Oracle → Nat → Control) : Prop :=
  ∀ d : Draft, d.builder.Placed → d.Ready → Ensures x d.builder fun _ b' => ∃ d', d'.builder = b' ∧
    Routed context.returnTy d control context.breakTo? context.continueTo? d'

/-- The same of a statement and its own course. -/
abbrev StmtRoutes (context : Context) (g : SymbolTable) (s : Stmt) : Prop :=
  Routes context (stmt context g s) fun oracle rounds => s.control oracle rounds

/-- The code of the arms of a `switch` is put into blocks of their own. -/
def ArmsRoute (context : Context) (g : SymbolTable) (arms : List (Arm (List Stmt))) : Prop :=
  ∀ (footer : Nat) (blocks : List Nat) (d : Draft), blocks.length = arms.length → d.Ready →
    (∀ k ∈ blocks, d.Fresh k) → blocks.Nodup →
    Ensures (armBodies (context.inside ⟨footer, none⟩) g footer blocks arms) d.builder fun _ b' =>
      ∃ d', d'.builder = b' ∧ Fills context.returnTy d blocks d' ∧
        ∀ fn plan oracle rounds, d'.In fn plan →
          ArmsFollow fn plan oracle rounds footer context.continueTo?
            (Stmt.armControls oracle rounds arms) blocks

section

variable {context : Context} {g : SymbolTable} {span : Span} {test value : Expr}
  {ifTrue ifFalse body : Stmt}

theorem ifThen_routes (htrue : StmtRoutes context g.push ifTrue) :
    StmtRoutes context g (.ifThen span test ifTrue) := by
  intro d hplaced hready
  rw [stmt]
  apply ensureOpen_routed hplaced hready
  intro d₁ hopen hready₁
  apply ((condition_advances g test).flows hopen).bind
  intro value b₂ hrun hflows
  have hopen₂ := hflows.isOpen
  apply Ensures.createBlock_bind [] hopen₂.isSome
  apply Ensures.createBlock_bind ["if.then"] hopen₂.isSome
  apply Ensures.terminate_bind (hopen₂.addBlocks _)
  obtain ⟨d₂, hd₂, hbecomes, hfresh, hasks⟩ := ask_routed context.returnTy hopen hready₁ hrun
    hflows ["if.then", "if.footer"] b₂.blockCount (b₂.blockCount + 1)
  change Ensures _ (b₂.fork ["if.then", "if.footer"]
    (.condBranch value b₂.blockCount (b₂.blockCount + 1))) _
  rw [← hd₂]
  have hthen := hfresh b₂.blockCount (by omega) (by simp)
  apply fill_routed hthen (htrue (d₂.moveTo b₂.blockCount)
    (Builder.isOpen_moveTo.mpr hthen.unfinished).placed (hbecomes.ready hready₁))
  intro d₃ hfills hfollows
  obtain ⟨hflows', hbecomes'⟩ := hfills.behind hflows hd₂ hbecomes (b₂.blockCount + 1)
    (by simp; omega) (by simp)
  apply Ensures.position_bind
  refine .pure ⟨d₃.moveTo (b₂.blockCount + 1), rfl, .of_flows hflows' hbecomes' ?_⟩
  intro fn plan oracle rounds hin
  have hin₃ := hin.of_moveTo
  have hfooter := hfills.fresh _ (hfresh (b₂.blockCount + 1) (by omega) (by simp)) (by simp)
  rw [Draft.point_moveTo hfooter]
  apply Follows.mono _ (Nat.le_succ rounds)
  exact .choose (hasks fn plan oracle (hfills.pull fn plan hin₃))
    (hfollows fn plan oracle rounds hin₃) .skip

theorem ifElse_routes (htrue : StmtRoutes context g.push ifTrue)
    (hfalse : StmtRoutes context g.push ifFalse) :
    StmtRoutes context g (.ifElse span test ifTrue ifFalse) := by
  intro d hplaced hready
  rw [stmt]
  apply ensureOpen_routed hplaced hready
  intro d₁ hopen hready₁
  apply ((condition_advances g test).flows hopen).bind
  intro value b₂ hrun hflows
  have hopen₂ := hflows.isOpen
  apply Ensures.createBlock_bind [] hopen₂.isSome
  apply Ensures.createBlock_bind ["if.then"] hopen₂.isSome
  apply Ensures.createBlock_bind ["if.then", "if.else"] hopen₂.isSome
  apply Ensures.terminate_bind (hopen₂.addBlocks _)
  obtain ⟨d₂, hd₂, hbecomes, hfresh, hasks⟩ := ask_routed context.returnTy hopen hready₁ hrun
    hflows ["if.then", "if.else", "if.footer"] b₂.blockCount (b₂.blockCount + 1)
  change Ensures _ (b₂.fork ["if.then", "if.else", "if.footer"]
    (.condBranch value b₂.blockCount (b₂.blockCount + 1))) _
  rw [← hd₂]
  have hready₂ := hbecomes.ready hready₁
  have hthen := hfresh b₂.blockCount (by omega) (by simp)
  apply fill_routed hthen (htrue (d₂.moveTo b₂.blockCount)
    (Builder.isOpen_moveTo.mpr hthen.unfinished).placed hready₂)
  intro d₃ hfills hfollows
  have helse := hfills.fresh _ (hfresh (b₂.blockCount + 1) (by omega) (by simp)) (by simp)
  apply fill_routed helse (hfalse (d₃.moveTo (b₂.blockCount + 1))
    (Builder.isOpen_moveTo.mpr helse.unfinished).placed (hfills.ready hready₂))
  intro d₄ hfills' hfollows'
  have hfills₄ := hfills.cons hfills'
  obtain ⟨hflows₄, hbecomes₄⟩ := hfills₄.behind hflows hd₂ hbecomes (b₂.blockCount + 2)
    (by simp; omega) (by simp)
  apply Ensures.position_bind
  refine .pure ⟨d₄.moveTo (b₂.blockCount + 2), rfl, .of_flows hflows₄ hbecomes₄ ?_⟩
  intro fn plan oracle rounds hin
  have hin₄ := hin.of_moveTo
  have hfooter := hfills₄.fresh _ (hfresh (b₂.blockCount + 2) (by omega) (by simp)) (by simp)
  rw [Draft.point_moveTo hfooter]
  apply Follows.mono _ (Nat.le_succ rounds)
  exact .choose (hasks fn plan oracle (hfills₄.pull fn plan hin₄))
    (hfollows fn plan oracle rounds (hfills'.pull fn plan hin₄))
    (hfollows' fn plan oracle rounds hin₄)

theorem whileLoop_routes
    (hbody : ∀ frame, StmtRoutes (context.inside frame) g.push body) :
    StmtRoutes context g (.whileLoop span test body) := by
  intro d hplaced hready
  rw [stmt]
  apply ensureOpen_routed hplaced hready
  intro d₁ hopen hready₁
  apply Ensures.createBlock_bind [] hopen.isSome
  apply Ensures.createBlock_bind ["while.head"] hopen.isSome
  apply Ensures.createBlock_bind ["while.head", "while.body"] hopen.isSome
  apply Ensures.terminate_bind (hopen.addBlocks _)
  generalize hn : d₁.builder.blockCount = n
  obtain ⟨d₂, hd₂, hbecomes, hfresh, hstart⟩ := branch_routed context.returnTy hopen hready₁
    ["while.head", "while.body", "while.footer"] n
  change Ensures _ (d₁.builder.fork ["while.head", "while.body", "while.footer"] (.branch n)) _
  rw [← hd₂]
  rw [hn] at hfresh
  have hready₂ := hbecomes.ready hready₁
  apply Ensures.position_bind
  apply (loopTest_routed context.returnTy (some test) hready₂
    (hfresh n (by omega) (by simp))).bind
  rintro _ _ - ⟨d₃, rfl, hfills, hguards⟩
  have hblock := hfills.fresh _ (hfresh (n + 1) (by omega) (by simp)) (by simp)
  apply fill_routed hblock (hbody ⟨n + 2, some n⟩ (d₃.moveTo (n + 1))
    (Builder.isOpen_moveTo.mpr hblock.unfinished).placed (hfills.ready hready₂))
  intro d₄ hfills' hfollows
  have hfills₄ := hfills.cons hfills'
  obtain ⟨hflows₄, hbecomes₄⟩ := hfills₄.behind (.refl hopen) hd₂ hbecomes (n + 2)
    (by simp; omega) (by simp)
  apply Ensures.position_bind
  refine .pure ⟨d₄.moveTo (n + 2), rfl, .of_flows hflows₄ hbecomes₄ ?_⟩
  intro fn plan oracle rounds hin
  have hin₄ := hin.of_moveTo
  have hfooter := hfills₄.fresh _ (hfresh (n + 2) (by omega) (by simp)) (by simp)
  rw [Draft.point_moveTo hfooter]
  apply Follows.before (hstart fn plan oracle (hfills₄.pull fn plan hin₄))
  exact .loop (hguards fn plan oracle (hfills'.pull fn plan hin₄))
    (hfollows fn plan oracle rounds hin₄) (fun _ _ => .skip) (Nat.le_refl rounds) _ _

theorem forLoop_routes {init : Option ForInit} {test step : Option Expr}
    (hbody : ∀ frame inner, StmtRoutes (context.inside frame) (SymbolTable.push inner) body) :
    StmtRoutes context g (.forLoop span init test step body) := by
  intro d hplaced hready
  rw [stmt]
  apply ensureOpen_routed hplaced hready
  intro d₁ hopen hready₁
  apply (forInit_routed context.returnTy g.push hopen hready₁ init).bind
  rintro inner _ - ⟨d₂, rfl, hacts⟩
  have hopen₂ := hacts.flows.isOpen
  have hready₂ := hacts.becomes.ready hready₁
  apply Ensures.createBlock_bind [] hopen₂.isSome
  apply Ensures.createBlock_bind ["for.head"] hopen₂.isSome
  apply Ensures.blockFor_bind ["for.head", "for.body"] hopen₂.isSome
  apply Ensures.createBlock_bind _ hopen₂.isSome
  apply Ensures.terminate_bind (hopen₂.addBlocks _)
  generalize hstems : ["for.head", "for.body"] ++ (step.map fun _ => "for.step").toList = stems
  generalize hn : d₂.builder.blockCount = n
  have hlength : stems.length = 2 + step.toList.length := by
    rw [← hstems]
    cases step <;> simp
  have hcount : (stems ++ ["for.footer"]).length = 3 + step.toList.length := by
    rw [List.length_append, hlength, List.length_singleton]
    omega
  obtain ⟨d₃, hd₃, hbecomes, hfresh, hstart⟩ := branch_routed context.returnTy hopen₂ hready₂
    (stems ++ ["for.footer"]) n
  change Ensures _ (d₂.builder.fork (stems ++ ["for.footer"]) (.branch n)) _
  rw [← hd₃]
  rw [hn, hcount] at hfresh
  have hready₃ := hbecomes.ready hready₂
  apply Ensures.position_bind
  apply (loopTest_routed context.returnTy test hready₃
    (hfresh n (by omega) (by omega))).bind
  rintro _ _ - ⟨d₄, rfl, hfills, hguards⟩
  have hblock := hfills.fresh _ (hfresh (n + 1) (by omega) (by omega)) (by simp)
  apply fill_routed hblock (hbody _ inner (d₄.moveTo (n + 1))
    (Builder.isOpen_moveTo.mpr hblock.unfinished).placed (hfills.ready hready₃))
  intro d₅ hfills' hfollows
  have hfills₅ := hfills.cons hfills'
  apply (loopStep_routed context.returnTy n (hfills₅.ready hready₃) (by simp) ?_).bind
  · rintro _ _ - ⟨d₆, rfl, hfills'', hsteps⟩
    have hfills₆ := hfills.cons (hfills'.cons hfills'')
    have hlast : n + stems.length ∉ n :: (n + 1) ::
        (step.map fun _ => n + ["for.head", "for.body"].length).toList := by
      rw [hlength]
      cases step <;> simp
    obtain ⟨hflows₆, hbecomes₆⟩ := hfills₆.behind (.refl hopen₂) hd₃ hbecomes (n + stems.length)
      (by
        intro id
        rw [hn, hcount, hlength]
        cases step <;> simp
        all_goals omega) hlast
    apply Ensures.position_bind
    refine .pure ⟨d₆.moveTo (n + stems.length), rfl,
      hacts.routed.andThen (.of_flows hflows₆ hbecomes₆ ?_)⟩
    intro fn plan oracle rounds hin
    have hin₆ := hin.of_moveTo
    have hin₅ := hfills''.pull fn plan hin₆
    have hfooter := hfills₆.fresh _ (hfresh (n + stems.length) (by omega) (by omega)) hlast
    rw [Draft.point_moveTo hfooter]
    apply Follows.before (hstart fn plan oracle (hfills₆.pull fn plan hin₆))
    exact .loop (hguards fn plan oracle (hfills'.pull fn plan hin₅))
      (hfollows fn plan oracle rounds hin₅)
      (fun breakTo continueTo => hsteps fn plan oracle rounds breakTo continueTo hin₆)
      (Nat.le_refl rounds) _ _
  · intro k hk
    obtain ⟨e, rfl, rfl⟩ := Option.map_eq_some_iff.mp hk
    exact hfills₅.fresh _ (hfresh (n + 2) (by omega) (by simp)) (by simp)

theorem switch_routes {arms : List (Arm (List Stmt))} (hsingle : SingleDefault (arms.map Arm.label))
    (harms : ArmsRoute context g arms) : StmtRoutes context g (.switch span value arms) := by
  intro d hplaced hready
  rw [stmt]
  apply ensureOpen_routed hplaced hready
  intro d₁ hopen hready₁
  apply ((expr_advances g value).flows hopen).bind
  intro typed b₂ hrun₂ hflows₂
  apply ((coerce_advances typed .int).flows hflows₂.isOpen).bind
  intro number b₃ hrun₃ hflows₃
  have hopen₃ := hflows₃.isOpen
  apply Ensures.bind_ok (armBlocks_eq arms hopen₃.isSome)
  apply Ensures.createBlock_bind _ hopen₃.isSome
  generalize hn : b₃.blockCount = n
  have hblocks : (List.range' n arms.length).length = arms.length := List.length_range' ..
  apply (dispatch_enters (n + (arms.map armStem).length) hblocks hsingle).bind
  rintro ⟨default, cases⟩ _ - ⟨rfl, henters⟩
  apply Ensures.terminate_bind (hopen₃.addBlocks _)
  obtain ⟨d₄, hd₄, hbecomes, hfresh, hdispatches⟩ := select_routed context.returnTy hopen hready₁
    hrun₂ hflows₂ hrun₃ hflows₃ (arms.map armStem ++ ["switch.footer"]) default cases
  change Ensures _ (b₃.fork (arms.map armStem ++ ["switch.footer"]) (.switch number default cases)) _
  rw [← hd₄]
  have hcount : (arms.map armStem ++ ["switch.footer"]).length = arms.length + 1 := by simp
  rw [hn, hcount] at hfresh
  rw [List.length_map] at henters ⊢
  apply (harms _ _ d₄ hblocks (hbecomes.ready hready₁) ?_ List.nodup_range').bind
  · rintro _ _ - ⟨d₅, rfl, hfills, hfollows⟩
    have hlast : n + arms.length ∉ List.range' n arms.length := by simp [List.mem_range'_1]
    obtain ⟨hflows₅, hbecomes₅⟩ := hfills.behind (hflows₂.trans hflows₃) hd₄ hbecomes
      (n + arms.length)
      (by
        intro id
        rw [hn, hcount, List.mem_range'_1]
        omega) hlast
    apply Ensures.position_bind
    refine .pure ⟨d₅.moveTo (n + arms.length), rfl, .of_flows hflows₅ hbecomes₅ ?_⟩
    intro fn plan oracle rounds hin
    have hin₅ := hin.of_moveTo
    have hfooter := hfills.fresh _ (hfresh (n + arms.length) (by omega) (by omega)) hlast
    rw [Draft.point_moveTo hfooter]
    apply Follows.mono _ (Nat.le_succ rounds)
    apply Follows.switch (hdispatches fn plan oracle (hfills.pull fn plan hin₅))
      (hfollows fn plan oracle rounds hin₅)
    intro value
    obtain ⟨k, hentered, htarget⟩ := henters value
    refine ⟨k, ?_, htarget⟩
    rw [armControls_eq, entered_map, hentered, List.map_drop]
    exact fun _ => rfl
  · intro k hk
    rw [List.mem_range'_1] at hk
    exact hfresh k (by omega) (by omega)

/-- A jump leaves a statement for the block that it goes to. -/
theorem jump_routes {target? : Option Nat} {fault : Fault} {control : Control}
    (hfollows : ∀ fn plan oracle least p target, target? = some target →
      Passes fn plan oracle p (plan.enter target) → Follows fn plan oracle least p control
        ⟨none, context.breakTo?, context.continueTo?⟩) :
    Routes context (do
      ensureOpen
      let target ← orFault target? fault
      Build.branch target
      return g) fun _ _ => control := by
  intro d hplaced hready
  apply ensureOpen_routed hplaced hready
  intro d₁ hopen hready₁
  apply Ensures.bind (P := fun target b' => b' = d₁.builder ∧ target? = some target)
  · exact .orFault fun target htarget => ⟨rfl, htarget⟩
  · rintro target _ - ⟨rfl, htarget⟩
    apply Ensures.terminate_bind hopen
    obtain ⟨d₂, hd₂, hbecomes, -, hjump⟩ :=
      branch_routed context.returnTy hopen hready₁ [] target
    refine .pure ⟨d₂, hd₂, .of_leave ?_ ?_ hbecomes ?_⟩
    · rw [hd₂]
      exact (Builder.Settles.refl hopen.placed).close hopen _
    · rw [hd₂]
      exact Builder.not_isOpen_close _
    · intro fn plan oracle rounds hin
      exact hfollows fn plan oracle rounds _ target htarget (hjump fn plan oracle hin)

theorem returnStmt_routes {value : Option Expr} :
    StmtRoutes context g (.returnStmt span value) := by
  intro d hplaced hready
  rw [stmt]
  apply ensureOpen_routed hplaced hready
  intro d₁ hopen _
  apply ((returnValue_advances g context.returnTy value).flows hopen).bind
  intro result b₂ hrun hflows
  apply Ensures.terminate_bind hflows.isOpen
  obtain ⟨d₂, hd₂, hbecomes, -, hadvance⟩ := Draft.answer (a := .giveBack span value) hopen []
    (.ret result) hrun hflows (by
      intro fn mark haction hresult hterm
      unfold Decides
      rw [haction, hresult]
      exact hterm)
  refine .pure ⟨d₂, hd₂, .of_leave ?_ ?_ hbecomes ?_⟩
  · rw [hd₂]
    exact hflows.settles.close hflows.isOpen _
  · rw [hd₂]
    exact Builder.not_isOpen_close _
  · intro fn plan oracle rounds hin h
    obtain ⟨mark, left, haction, hterm, hadvance⟩ := hadvance fn plan oracle hin
    refine ⟨1, ?_⟩
    rw [walk, Function.iterate_one, hadvance, proceed, haction, hterm]
    exact .returned

end

mutual

/-- The code of a clean statement can be followed as its course says. -/
theorem stmt_routed {cc : Check.Context} {c g : SymbolTable} {context : Context} {s : Stmt}
    (hc : CleanStmt cc c s) : StmtRoutes context g s := by
  match s with
  | .expr _ e =>
    intro d hplaced hready
    rw [stmt]
    apply ensureOpen_routed hplaced hready
    intro d₁ hopen hready₁
    apply (discard_routed context.returnTy g hopen hready₁ e).bind
    rintro _ _ - ⟨d₂, rfl, hacts⟩
    exact .pure ⟨d₂, rfl, hacts.routed⟩
  | .empty _ =>
    intro d hplaced hready
    rw [stmt]
    apply ensureOpen_routed hplaced hready
    intro d₁ hopen _
    exact .pure ⟨d₁, rfl, (Acts.skip hopen).routed⟩
  | .declare v =>
    intro d hplaced hready
    rw [stmt]
    apply ensureOpen_routed hplaced hready
    intro d₁ hopen hready₁
    apply (localVar_routed context.returnTy g hopen hready₁ v).imp
    rintro _ _ - ⟨d₂, rfl, hacts⟩
    exact ⟨d₂, rfl, hacts.routed⟩
  | .block _ body =>
    intro d hplaced hready
    rw [stmt]
    apply ensureOpen_routed hplaced hready
    intro d₁ hopen hready₁
    apply (stmts_routed (cleanStmt_block.mp hc) d₁ hopen.placed hready₁).bind
    rintro _ _ - ⟨d₂, rfl, hrouted⟩
    exact .pure ⟨d₂, rfl, hrouted⟩
  | .ifThen _ test ifTrue => exact ifThen_routes (stmt_routed (cleanStmt_ifThen.mp hc).2)
  | .ifElse _ test ifTrue ifFalse =>
    obtain ⟨-, hctrue, hcfalse⟩ := cleanStmt_ifElse.mp hc
    exact ifElse_routes (stmt_routed hctrue) (stmt_routed hcfalse)
  | .whileLoop _ test body =>
    exact whileLoop_routes fun _ => stmt_routed (cleanStmt_whileLoop.mp hc).2
  | .forLoop _ init test step body =>
    obtain ⟨-, -, -, hcbody⟩ := cleanStmt_forLoop hc
    exact forLoop_routes fun _ _ => stmt_routed hcbody
  | .switch _ value arms =>
    obtain ⟨-, -, hlabels, hcarms⟩ := cleanStmt_switch hc
    exact switch_routes (singleDefault_of_labels hlabels).1 (armBodies_routed hcarms)
  | .breakStmt _ =>
    rw [StmtRoutes, stmt]
    exact jump_routes fun _ _ _ _ _ _ htarget hpass => .broken hpass htarget
  | .continueStmt _ =>
    rw [StmtRoutes, stmt]
    exact jump_routes fun _ _ _ _ _ _ htarget hpass => .continued hpass htarget
  | .returnStmt span value => exact returnStmt_routes

theorem stmts_routed {cc : Check.Context} {c g : SymbolTable} {context : Context}
    {body : List Stmt} (hc : CleanStmts cc c body) : Routes context (stmts context g body)
      fun oracle rounds => Stmt.allControl oracle rounds body := by
  intro d hplaced hready
  match body with
  | [] =>
    rw [stmts]
    refine .pure ⟨d, rfl, .refl hplaced, .refl d, ?_⟩
    intro fn plan oracle rounds hin hopen
    rw [Draft.behind_of_isOpen hopen]
    exact .skip
  | s :: rest =>
    obtain ⟨hcs, hcrest⟩ := cleanStmts_cons.mp hc
    rw [stmts]
    apply (stmt_routed hcs d hplaced hready).bind
    rintro g₁ _ - ⟨d₁, rfl, hrouted⟩
    apply (stmts_routed hcrest d₁ hrouted.settles.placed (hrouted.becomes.ready hready)).imp
    rintro _ _ - ⟨d₂, rfl, hrouted'⟩
    exact ⟨d₂, rfl, hrouted.andThen hrouted'⟩

theorem armBodies_routed {cc : Check.Context} {c g : SymbolTable} {context : Context}
    {arms : List (Arm (List Stmt))} (hc : CleanArms cc c arms) : ArmsRoute context g arms := by
  intro footer blocks d hlength hready hfresh hnodup
  match arms, blocks, hlength with
  | [], [], _ =>
    rw [armBodies]
    exact .pure ⟨d, rfl, .nil d, fun _ _ _ _ _ => trivial⟩
  | ⟨_, body, _⟩ :: rest, block :: blocks, hlength =>
    obtain ⟨hcbody, hcrest⟩ := cleanArms_cons.mp hc
    obtain ⟨hnew, hnodup'⟩ := List.nodup_cons.mp hnodup
    have hblock := hfresh block List.mem_cons_self
    rw [armBodies]
    apply fill_routed hblock (stmts_routed hcbody (d.moveTo block)
      (Builder.isOpen_moveTo.mpr hblock.unfinished).placed hready)
    intro d₁ hfills hfollows
    apply (armBodies_routed hcrest footer blocks d₁ (Nat.succ.inj hlength) (hfills.ready hready) ?_
      hnodup').imp
    · rintro _ _ - ⟨d₂, rfl, hfills', harms⟩
      refine ⟨d₂, rfl, hfills.cons hfills', ?_⟩
      intro fn plan oracle rounds hin
      exact ⟨hfollows fn plan oracle rounds (hfills'.pull fn plan hin),
        harms fn plan oracle rounds hin⟩
    · intro k hk
      apply hfills.fresh k (hfresh k (List.mem_cons_of_mem _ hk))
      intro hmem
      rw [List.mem_singleton.mp hmem] at hk
      exact hnew hk

end

end Lowering

end ShaderLang
