import ShaderLang.Proofs.Draft

/-!
# Code that follows a course

Code of a statement that is added to a draft can be walked through as the course of the statement
says, in every function that the draft gets into (`Routed`). The parts that statements are made of
have that property, and so has what is put together from them: blocks that are filled one after the
other, tests, and the targets of a `switch`.
-/

namespace ShaderLang.Lowering

open Ir (Build Builder Terminator)

/-- An action that control passes through: from an open block to an open block. -/
structure Acts (returnTy : Ty) (d : Draft) (control : Control) (d' : Draft) : Prop where
  flows : d.builder.Flows d'.builder
  becomes : d.Becomes returnTy d'
  follows : ∀ fn plan oracle least breakTo continueTo, d'.In fn plan →
    Follows fn plan oracle least (d.point plan) control ⟨some (d'.point plan), breakTo, continueTo⟩

/-- Code of a statement, which may begin in a closed block, where it is never reached, and end in
one. -/
structure Routed (returnTy : Ty) (d : Draft) (control : Oracle → Nat → Control)
    (breakTo continueTo : Option Nat) (d' : Draft) : Prop where
  settles : d.builder.Settles d'.builder
  becomes : d.Becomes returnTy d'
  follows : ∀ fn plan oracle rounds, d'.In fn plan → d.builder.IsOpen →
    Follows fn plan oracle rounds (d.point plan) (control oracle rounds)
      ⟨d'.behind plan, breakTo, continueTo⟩

/-- Several blocks, and what follows them, are filled and closed. -/
structure Fills (returnTy : Ty) (d : Draft) (ids : List Nat) (d' : Draft) : Prop where
  closes : d.builder.ClosesAll ids d'.builder
  becomes : ∀ d₀ : Draft, d₀.Becomes returnTy d → (∀ k ∈ ids, d₀.builder.Reaches k) →
    d₀.Becomes returnTy d'
  ready : d.Ready → d'.Ready
  fresh : ∀ j, d.Fresh j → j ∉ ids → d'.Fresh j
  pull : ∀ fn plan, d'.In fn plan → d.In fn plan

variable {d d₁ d₂ d' : Draft} {fn : Ir.Function} {plan : Plan} {oracle : Oracle} {returnTy : Ty}
  {k : Nat} {control : Control} {first second : Oracle → Nat → Control}
  {breakTo continueTo : Option Nat} {α β : Type}

namespace Acts

theorem skip (hopen : d.builder.IsOpen) : Acts returnTy d .skip d :=
  ⟨.refl hopen, .refl d, fun _ _ _ _ _ _ _ => .skip⟩

theorem routed (h : Acts returnTy d control d') :
    Routed returnTy d (fun _ _ => control) breakTo continueTo d' where
  settles := h.flows.settles
  becomes := h.becomes
  follows fn plan oracle rounds hin _ := by
    rw [Draft.behind_of_isOpen h.flows.isOpen]
    exact h.follows fn plan oracle rounds _ _ hin

end Acts

namespace Routed

theorem andThen (h₁ : Routed returnTy d first breakTo continueTo d₁)
    (h₂ : Routed returnTy d₁ second breakTo continueTo d₂) :
    Routed returnTy d (fun oracle rounds => (first oracle rounds).andThen (second oracle rounds))
      breakTo continueTo d₂ where
  settles := h₁.settles.trans h₂.settles
  becomes := h₁.becomes.trans h₂.becomes
  follows fn plan oracle rounds hin hopen := by
    apply Follows.andThen (h₁.follows fn plan oracle rounds (h₂.becomes.pull fn plan hin) hopen)
    intro q hq
    by_cases hopen₁ : d₁.builder.IsOpen
    · rw [Draft.behind_of_isOpen hopen₁] at hq
      cases hq
      exact h₂.follows fn plan oracle rounds hin hopen₁
    · rw [Draft.behind_of_not_isOpen h₁.settles.placed hopen₁] at hq
      cases hq

/-- A statement of which all parts are done leaves control in an open block. -/
theorem of_flows (hflows : d.builder.Flows d'.builder) (hbecomes : d.Becomes returnTy d')
    (hfollows : ∀ fn plan oracle rounds, d'.In fn plan →
      Follows fn plan oracle rounds (d.point plan) (first oracle rounds)
        ⟨some (d'.point plan), breakTo, continueTo⟩) :
    Routed returnTy d first breakTo continueTo d' where
  settles := hflows.settles
  becomes := hbecomes
  follows fn plan oracle rounds hin _ := by
    rw [Draft.behind_of_isOpen hflows.isOpen]
    exact hfollows fn plan oracle rounds hin

/-- A statement that sends control elsewhere. -/
theorem of_leave (hsettles : d.builder.Settles d'.builder) (hclosed : ¬ d'.builder.IsOpen)
    (hbecomes : d.Becomes returnTy d')
    (hfollows : ∀ fn plan oracle rounds, d'.In fn plan →
      Follows fn plan oracle rounds (d.point plan) (first oracle rounds)
        ⟨none, breakTo, continueTo⟩) :
    Routed returnTy d first breakTo continueTo d' where
  settles := hsettles
  becomes := hbecomes
  follows fn plan oracle rounds hin _ := by
    rw [Draft.behind_of_not_isOpen hsettles.placed hclosed]
    exact hfollows fn plan oracle rounds hin

end Routed

/-- A statement begins in an open block. -/
theorem ensureOpen_routed {f : Unit → Emit α} (hplaced : d.builder.Placed) (hready : d.Ready)
    (h : ∀ d₁ : Draft, d₁.builder.IsOpen → d₁.Ready → Ensures (f ()) d₁.builder fun _ b' =>
      ∃ d', d'.builder = b' ∧ Routed returnTy d₁ first breakTo continueTo d') :
    Ensures (ensureOpen >>= f) d.builder fun _ b' =>
      ∃ d', d'.builder = b' ∧ Routed returnTy d first breakTo continueTo d' := by
  have hensure : Ensures ensureOpen d.builder fun _ b₁ => d.builder.Flows b₁ ∧
      d.Becomes returnTy ⟨b₁, d.marks⟩ ∧ (d.builder.IsOpen → b₁ = d.builder) := by
    apply Ensures.get_bind
    cases hterm : d.builder.isTerminated with
    | false => exact Ensures.pure ⟨.refl (hplaced.isTerminated.mp hterm), .refl d, fun _ => rfl⟩
    | true =>
      have hclosed := not_isOpen_of_isTerminated hplaced hterm
      have hflows := flows_dead hplaced hclosed
      apply Ensures.bind_ok (Emit.lift_eq (Build.createBlock_eq hplaced.isSome "dead"))
      apply Ensures.of_ok (Emit.lift_eq (Build.position_eq _))
      refine ⟨hflows, .of_kept hflows.ext ?_, fun hopen => absurd hopen hclosed⟩
      intro id hlt
      rw [Ir.Builder.block?_moveTo, Ir.Builder.block?_addBlock "dead" hplaced.isSome,
        if_neg (Nat.ne_of_lt hlt)]
  apply hensure.bind
  rintro _ b₁ - ⟨hflows, hbecomes, hsame⟩
  apply (h ⟨b₁, d.marks⟩ hflows.isOpen (hbecomes.ready hready)).imp
  rintro a b' - ⟨d', rfl, hrouted⟩
  refine ⟨d', rfl, hflows.settles.trans hrouted.settles, hbecomes.trans hrouted.becomes, ?_⟩
  intro fn plan oracle rounds hin hopen
  have hfollows := hrouted.follows fn plan oracle rounds hin hflows.isOpen
  rw [hsame hopen] at hfollows
  exact hfollows

/-! ## Filling blocks -/

namespace Fills

theorem nil (d : Draft) : Fills returnTy d [] d :=
  ⟨.nil _, fun _ h _ => h, id, fun _ h _ => h, fun _ _ h => h⟩

theorem cons {ids : List Nat} (h : Fills returnTy d [k] d₁) (h' : Fills returnTy d₁ ids d₂) :
    Fills returnTy d (k :: ids) d₂ where
  closes := {
    unfinished := fun j => by
      rw [h'.closes.unfinished, h.closes.unfinished, List.mem_singleton, List.mem_cons, not_or,
        and_assoc]
    ext := fun b₀ h₀ hids => h'.closes.ext b₀
      (h.closes.ext b₀ h₀ fun j hj => hids j (by simp_all)) fun j hj =>
        hids j (List.mem_cons_of_mem _ hj) }
  becomes d₀ h₀ hids := h'.becomes d₀ (h.becomes d₀ h₀ fun j hj => hids j (by simp_all)) fun j hj =>
    hids j (List.mem_cons_of_mem _ hj)
  ready hready := h'.ready (h.ready hready)
  fresh j hj hmem := h'.fresh j (h.fresh j hj (by simp_all)) (by simp_all)
  pull fn plan hin := h.pull fn plan (h'.pull fn plan hin)

theorem of_becomes (hbecomes : (d.moveTo k).Becomes returnTy d')
    (hcloses : d.builder.Closes k d'.builder) : Fills returnTy d [k] d' where
  closes := .singleton hcloses
  becomes _ h₀ hids := (h₀.moveTo (hids k List.mem_cons_self)).trans hbecomes
  ready := hbecomes.ready
  fresh _ hfresh hmem := hbecomes.fresh hfresh (by simpa using hmem)
  pull fn plan hin := (hbecomes.pull fn plan hin).of_moveTo

/-- All blocks of a construct but one are filled, and control goes on in that one. -/
theorem behind {b : Builder} {stems : List String} {t : Terminator} {ids : List Nat}
    (hflows : d.builder.Flows b) (hfork : d₁.builder = b.fork stems t)
    (hbecomes : d.Becomes returnTy d₁) (h : Fills returnTy d₁ ids d') (last : Nat)
    (hids : ∀ id, id ∈ ids ∨ id = last ↔ b.blockCount ≤ id ∧ id < b.blockCount + stems.length)
    (hlast : last ∉ ids) :
    d.builder.Flows (d'.moveTo last).builder ∧ d.Becomes returnTy (d'.moveTo last) := by
  have hle := hflows.ext.blockCount_le
  have hnew : ∀ id, id ∈ ids ∨ id = last → d.builder.Reaches id := by
    intro id hid
    have := ((hids id).mp hid).1
    exact .inr (by omega)
  have hcloses := h.closes
  rw [hfork] at hcloses
  exact ⟨hflows.trans (hcloses.flows hflows.isOpen last hids hlast),
    (h.becomes d hbecomes fun id hid => hnew id (.inl hid)).moveTo (hnew last (.inr rfl))⟩

end Fills

theorem branchIfOpen_routed {target : Nat} (hrouted : Routed returnTy d first breakTo continueTo d₁) :
    Ensures (branchIfOpen target) d₁.builder fun _ b' => ∃ d', d'.builder = b' ∧
      d.builder.Settles b' ∧ ¬ b'.IsOpen ∧ d.Becomes returnTy d' ∧
        ∀ fn plan oracle rounds, d'.In fn plan → d.builder.IsOpen →
          Follows fn plan oracle rounds (d.point plan) (first oracle rounds)
            ⟨some (plan.enter target), breakTo, continueTo⟩ := by
  apply Ensures.get_bind
  cases hterm : d₁.builder.isTerminated with
  | true =>
    have hclosed := not_isOpen_of_isTerminated hrouted.settles.placed hterm
    refine Ensures.pure ⟨d₁, rfl, hrouted.settles, hclosed, hrouted.becomes, ?_⟩
    intro fn plan oracle rounds hin hopen
    refine (hrouted.follows fn plan oracle rounds hin hopen).onward ?_ rfl rfl
    rw [Draft.behind_of_not_isOpen hrouted.settles.placed hclosed]
    rintro _ ⟨⟩
  | false =>
    have hopen₁ := hrouted.settles.placed.isTerminated.mp hterm
    have hleft := Draft.becomes_fork returnTy hopen₁ [] (.branch target)
    apply Ensures.terminate hopen₁
    refine ⟨_, rfl, hrouted.settles.close hopen₁ _, Ir.Builder.not_isOpen_close _,
      hrouted.becomes.trans hleft, ?_⟩
    intro fn plan oracle rounds hin hopen
    refine (hrouted.follows fn plan oracle rounds (hleft.pull fn plan hin) hopen).onward ?_ rfl rfl
    rw [Draft.behind_of_isOpen hopen₁]
    rintro _ ⟨⟩
    exact ⟨_, rfl, .of_advance fun h => Draft.advance_fork hopen₁ hin h⟩

/-- A block is filled with the code of a statement, and goes to a target unless that code has gone
elsewhere. -/
theorem fill_routed {x : Emit α} {f : Unit → Emit β} {target : Nat} {R : β → Builder → Prop}
    (hfresh : d.Fresh k) (hx : Ensures x (d.moveTo k).builder fun _ b' => ∃ d', d'.builder = b' ∧
      Routed returnTy (d.moveTo k) first breakTo continueTo d')
    (hf : ∀ d', Fills returnTy d [k] d' → (∀ fn plan oracle rounds, d'.In fn plan →
      Follows fn plan oracle rounds (plan.enter k) (first oracle rounds)
        ⟨some (plan.enter target), breakTo, continueTo⟩) → Ensures (f ()) d'.builder R) :
    Ensures (liftM (Build.position k) >>= fun _ => x >>= fun _ => branchIfOpen target >>= f)
      d.builder R := by
  have hopen : (d.moveTo k).builder.IsOpen := Ir.Builder.isOpen_moveTo.mpr hfresh.unfinished
  apply Ensures.position_bind
  apply hx.bind
  rintro a b₁ - ⟨d₁, rfl, hrouted⟩
  apply (branchIfOpen_routed hrouted).bind
  rintro _ b₂ - ⟨d₂, rfl, hsettles, hclosed, hbecomes, hfollows⟩
  apply hf d₂ (.of_becomes hbecomes (hsettles.closes hclosed))
  intro fn plan oracle rounds hin
  rw [← Draft.point_moveTo hfresh]
  exact hfollows fn plan oracle rounds hin hopen

/-! ## Actions -/

section

variable (returnTy) (g : SymbolTable) (hopen : d.builder.IsOpen) (hready : d.Ready)

include hopen hready

theorem act_routed {x : Emit α} (a : Action) (hplain : a.IsPlain) (hadvances : Advances GoesOn x)
    (hcode : ∀ v b', x d.builder = .ok v b' →
      ∃ result, actionCode returnTy g a d.builder = .ok result b') :
    Ensures x d.builder fun _ b' =>
      ∃ d', d'.builder = b' ∧ Acts returnTy d (.perform a) d' := by
  apply (hadvances.flows hopen).imp
  intro v b' hrun hflows
  obtain ⟨result, hcode⟩ := hcode v b' hrun
  obtain ⟨d', rfl, hbecomes, hfollows⟩ := Draft.act hopen hplain hready hcode hflows
  exact ⟨d', rfl, hflows, hbecomes, hfollows⟩

theorem discard_routed (e : Expr) : Ensures (discard g e) d.builder fun _ b' =>
    ∃ d', d'.builder = b' ∧ Acts returnTy d (.perform (.evaluate e)) d' := by
  apply act_routed returnTy g hopen hready (.evaluate e) trivial (discard_advances g e)
  intro _ b' hrun
  exact ⟨none, by rw [actionCode, Emit.bind_eq hrun]; rfl⟩

theorem localVar_routed (v : VarDecl) : Ensures (localVar g v) d.builder fun _ b' =>
    ∃ d', d'.builder = b' ∧ Acts returnTy d (.perform (.declare v)) d' := by
  apply act_routed returnTy g hopen hready (.declare v) trivial (localVar_advances g v)
  intro _ b' hrun
  exact ⟨none, by rw [actionCode, Emit.bind_eq hrun]; rfl⟩

theorem forInit_routed (init : Option ForInit) : Ensures (forInit g init) d.builder fun _ b' =>
    ∃ d', d'.builder = b' ∧ Acts returnTy d (init.elim .skip (.perform ·.action)) d' := by
  match init with
  | none => exact .pure ⟨d, rfl, .skip hopen⟩
  | some (.expr e) =>
    apply (discard_routed returnTy g hopen hready e).bind
    rintro _ b' - hacts
    exact .pure hacts
  | some (.declare v) => exact localVar_routed returnTy g hopen hready v

end

/-! ## Answers -/

/-- A test by which control goes to one of the blocks that are added behind it, or elsewhere. -/
theorem ask_routed {g : SymbolTable} {test : Expr} {value : Ir.Value} {b : Builder} (returnTy : Ty)
    (hopen : d.builder.IsOpen) (hready : d.Ready)
    (hrun : condition g test d.builder = .ok value b) (hflows : d.builder.Flows b)
    (stems : List String) (ifTrue ifFalse : Nat) :
    ∃ d' : Draft, d'.builder = b.fork stems (.condBranch value ifTrue ifFalse) ∧
      d.Becomes returnTy d' ∧
      (∀ k, b.blockCount ≤ k → k < b.blockCount + stems.length → d'.Fresh k) ∧
      ∀ fn plan oracle, d'.In fn plan → Asks fn plan oracle (d.point plan) test ifTrue ifFalse := by
  have hcode : actionCode returnTy g (.test test) d.builder = .ok (some value) b := by
    rw [actionCode, Emit.bind_eq hrun]
    rfl
  obtain ⟨d', hd', hbecomes, hfresh, hadvance⟩ := Draft.answer hopen stems
    (.condBranch value ifTrue ifFalse) hcode hflows (by
      intro fn mark haction hresult hterm
      unfold Decides
      rw [haction]
      exact ⟨value, ifTrue, ifFalse, hresult, hterm⟩)
  refine ⟨d', hd', hbecomes, hfresh hready, ?_⟩
  intro fn plan oracle hin h
  obtain ⟨mark, left, haction, hterm, hadvance⟩ := hadvance fn plan oracle hin
  rw [hadvance, proceed, haction, hterm]

/-- The value of a `switch`, by which control goes to one of the blocks that are added behind it. -/
theorem select_routed {g : SymbolTable} {value : Expr} {typed : TypedValue} {number : Ir.Value}
    {b b' : Builder} (returnTy : Ty) (hopen : d.builder.IsOpen) (hready : d.Ready)
    (hrun : expr g value d.builder = .ok typed b) (hflows : d.builder.Flows b)
    (hrun' : coerce typed .int b = .ok number b') (hflows' : b.Flows b')
    (stems : List String) (default : Nat) (cases : List (Int64 × Nat)) :
    ∃ d' : Draft, d'.builder = b'.fork stems (.switch number default cases) ∧
      d.Becomes returnTy d' ∧
      (∀ k, b'.blockCount ≤ k → k < b'.blockCount + stems.length → d'.Fresh k) ∧
      ∀ fn plan oracle, d'.In fn plan →
        Dispatches fn plan oracle (d.point plan) value fun n => (cases.lookup n).getD default := by
  have hcode : actionCode returnTy g (.select value) d.builder = .ok (some number) b' := by
    rw [actionCode, Emit.bind_eq hrun, Emit.bind_eq hrun']
    rfl
  obtain ⟨d', hd', hbecomes, hfresh, hadvance⟩ := Draft.answer hopen stems
    (.switch number default cases) hcode (hflows.trans hflows') (by
      intro fn mark haction hresult hterm
      unfold Decides
      rw [haction]
      exact ⟨number, default, cases, hresult, hterm⟩)
  refine ⟨d', hd', hbecomes, hfresh hready, ?_⟩
  intro fn plan oracle hin h
  obtain ⟨mark, left, haction, hterm, hadvance⟩ := hadvance fn plan oracle hin
  rw [hadvance, proceed, haction, hterm]

/-! ## Loops -/

/-- Blocks are added, and control goes to one of them, or elsewhere. -/
theorem branch_routed (returnTy : Ty) (hopen : d.builder.IsOpen) (hready : d.Ready)
    (stems : List String) (target : Nat) :
    ∃ d' : Draft, d'.builder = d.builder.fork stems (.branch target) ∧ d.Becomes returnTy d' ∧
      (∀ k, d.builder.blockCount ≤ k → k < d.builder.blockCount + stems.length → d'.Fresh k) ∧
      ∀ fn plan oracle, d'.In fn plan →
        Passes fn plan oracle (d.point plan) (plan.enter target) := by
  refine ⟨⟨d.builder.fork stems (.branch target), d.marks⟩, rfl,
    Draft.becomes_fork returnTy hopen stems _, ?_, ?_⟩
  · intro k hle hlt
    exact Draft.fresh_fork hopen hready hle hlt
  · intro fn plan oracle hin
    exact .of_advance fun h => Draft.advance_fork hopen hin h

theorem loopTest_routed (returnTy : Ty) {g : SymbolTable} (test : Option Expr) {body exit head : Nat}
    (hready : d.Ready) (hfresh : d.Fresh head) :
    Ensures (loopTest g test body exit) (d.moveTo head).builder fun _ b' =>
      ∃ d', d'.builder = b' ∧ Fills returnTy d [head] d' ∧ ∀ fn plan oracle, d'.In fn plan →
        Guards fn plan oracle (plan.enter head) test body exit := by
  have hopen : (d.moveTo head).builder.IsOpen := Ir.Builder.isOpen_moveTo.mpr hfresh.unfinished
  cases test with
  | none =>
    apply Ensures.terminate hopen
    refine ⟨_, rfl, .of_becomes (Draft.becomes_fork returnTy hopen [] _)
      ((Ir.Builder.Flows.refl hopen).closes _), ?_⟩
    intro fn plan oracle hin h
    rw [← Draft.point_moveTo hfresh]
    exact Draft.advance_fork hopen hin h
  | some e =>
    apply ((condition_advances g e).flows hopen).bind
    intro value b₁ hrun hflows
    apply Ensures.terminate hflows.isOpen
    obtain ⟨d', hd', hbecomes, -, hasks⟩ :=
      ask_routed returnTy hopen hready hrun hflows [] body exit
    refine ⟨d', hd', .of_becomes hbecomes (hd' ▸ hflows.closes _), ?_⟩
    intro fn plan oracle hin
    rw [← Draft.point_moveTo hfresh]
    exact hasks fn plan oracle hin

theorem loopStep_routed (returnTy : Ty) {g : SymbolTable} {step : Option Expr} {block : Option Nat}
    (head : Nat)
    (hready : d.Ready) (hblock : block.isSome = step.isSome) (hfresh : ∀ k ∈ block, d.Fresh k) :
    Ensures (loopStep g head block step) d.builder fun _ b' => ∃ d', d'.builder = b' ∧
      Fills returnTy d block.toList d' ∧ ∀ fn plan oracle least breakTo continueTo, d'.In fn plan →
        Follows fn plan oracle least (plan.enter (block.getD head))
          (step.elim .skip (.perform <| .evaluate ·))
          ⟨some (plan.enter head), breakTo, continueTo⟩ := by
  match block, step, hblock with
  | none, none, _ => exact .pure ⟨d, rfl, .nil d, fun _ _ _ _ _ _ _ => .skip⟩
  | some k, some e, _ =>
    have hfresh := hfresh k rfl
    have hopen : (d.moveTo k).builder.IsOpen := Ir.Builder.isOpen_moveTo.mpr hfresh.unfinished
    apply Ensures.position_bind
    apply (discard_routed returnTy g hopen hready e).bind
    rintro _ b₁ - ⟨d₁, rfl, hacts⟩
    have hopen₁ := hacts.flows.isOpen
    have hleft := Draft.becomes_fork returnTy hopen₁ [] (.branch head)
    apply Ensures.terminate hopen₁
    refine ⟨_, rfl, .of_becomes (hacts.becomes.trans hleft) (hacts.flows.closes _), ?_⟩
    intro fn plan oracle least breakTo continueTo hin
    have hfollows := hacts.follows fn plan oracle least breakTo continueTo (hleft.pull fn plan hin)
    rw [Draft.point_moveTo hfresh] at hfollows
    refine hfollows.onward ?_ rfl rfl
    rintro _ ⟨⟩
    exact ⟨_, rfl, .of_advance fun h => Draft.advance_fork hopen₁ hin h⟩

end ShaderLang.Lowering
