import ShaderLang.Proofs.Advance
import ShaderLang.Proofs.Walk

/-!
# Plans under construction

A draft is a builder with the plan of what it holds so far. Code of a statement that is added to it
extends both, in the current block and in new ones only, and what has been closed gets into the
finished function as it is (`Becomes`). So a walk through the finished function can be followed over
the part that has just been added, whatever comes after it.
-/

namespace ShaderLang.Lowering

open Ir (Build Builder Block Terminator)

/-- What is being built, and the actions in it so far. -/
structure Draft where
  builder : Builder
  marks : Plan

/-- The block to which instructions are added. -/
def here (b : Builder) : Nat :=
  b.insertion.getD 0

/-- How many instructions are in that block. -/
def offset (b : Builder) : Nat :=
  ((b.block? (here b)).map fun block => block.insts.size).getD 0

theorem here_eq {b : Builder} {id : Nat} (hid : b.insertion = some id) : here b = id := by
  rw [here, hid, Option.getD_some]

theorem isAt_here {b : Builder} (hb : b.Placed) : IsAt b (here b) (offset b) := by
  obtain ⟨id, hid, hlt⟩ := hb
  obtain ⟨block, hblock⟩ := Option.isSome_iff_exists.mp (Ir.Builder.block?_isSome_iff.mpr hlt)
  rw [offset, here_eq hid, hblock]
  exact ⟨hid, block, hblock, rfl⟩

theorem unfinished_here {b : Builder} (hb : b.IsOpen) : b.Unfinished (here b) := by
  obtain ⟨id, hid, hun⟩ := hb
  rwa [here_eq hid]

theorem insertion_here {b : Builder} (hb : b.IsOpen) : b.insertion = some (here b) := by
  obtain ⟨id, hid, -⟩ := hb
  rw [here_eq hid, hid]

/-- A plan of one block after another: what begins in a block is found there. -/
theorem Plan.within_append (plan more : Plan) (block : Nat) :
    Plan.within (plan ++ more) block = plan.within block ++ Plan.within more block :=
  List.filter_append ..

theorem Plan.within_eq_nil {plan : Plan} {block : Nat} (h : ∀ m ∈ plan, m.block ≠ block) :
    plan.within block = [] := by
  apply List.filter_eq_nil_iff.mpr
  intro m hm
  simpa using h m hm

namespace Draft

variable {d d' d'' : Draft} {fn : Ir.Function} {plan : Plan} {oracle : Oracle} {returnTy : Ty}
  {k : Nat}

/-- The insertion point, as a place in the finished function. -/
def point (d : Draft) (plan : Plan) : Point :=
  ⟨here d.builder, offset d.builder,
    (plan.within (here d.builder)).drop (d.marks.within (here d.builder)).length⟩

/-- Where control is behind what has been added, unless it has gone elsewhere. -/
def behind (d : Draft) (plan : Plan) : Option Point :=
  if d.builder.isTerminated then none else some (d.point plan)

/-- Goes on with another block. -/
def moveTo (d : Draft) (block : Nat) : Draft :=
  ⟨d.builder.moveTo block, d.marks⟩

/-- The draft has got into a function, with a plan that adds nothing to its closed blocks. -/
structure In (fn : Ir.Function) (plan : Plan) (d : Draft) : Prop where
  includes : Includes fn d.builder
  rest : ∃ more, plan = d.marks ++ more ∧
    ∀ m ∈ more, m.block < d.builder.blockCount → d.builder.Unfinished m.block

/-- Everything in the plan stands in blocks that are there. -/
def Ready (d : Draft) : Prop :=
  ∀ m ∈ d.marks, m.block < d.builder.blockCount

/-- An empty block, to be filled. -/
structure Fresh (d : Draft) (block : Nat) : Prop where
  content : ∃ content, d.builder.block? block = some content ∧ content.insts = #[] ∧
    content.terminator = none
  marks : ∀ m ∈ d.marks, m.block ≠ block

/-- What was added extends builder and plan, is valid in every function that it gets into, and
leaves closed blocks as they were. -/
structure Becomes (returnTy : Ty) (d d' : Draft) : Prop where
  extends_ : d.builder.Extends d'.builder
  marks : ∃ new, d'.marks = d.marks ++ new ∧ ∀ m ∈ new, d.builder.Reaches m.block
  ready : d.Ready → d'.Ready
  pull : ∀ fn plan, d'.In fn plan → d.In fn plan
  valid : ∀ fn plan, d'.In fn plan → (∀ m ∈ d.marks, m.Valid returnTy fn) →
    ∀ m ∈ d'.marks, m.Valid returnTy fn

theorem In.of_moveTo {block : Nat} (hin : (d.moveTo block).In fn plan) : d.In fn plan :=
  ⟨hin.includes, hin.rest⟩

/-! ## Places -/

theorem point_eq {block index : Nat} (hat : IsAt d.builder block index) :
    d.point plan = ⟨block, index, (plan.within block).drop (d.marks.within block).length⟩ := by
  obtain ⟨hid, content, hcontent, hsize⟩ := hat
  rw [point, offset, here_eq hid, hcontent]
  simp [hsize]

theorem point_moveTo (hfresh : d.Fresh k) : (d.moveTo k).point plan = plan.enter k := by
  obtain ⟨content, hcontent, hempty, -⟩ := hfresh.content
  have hat : IsAt (d.moveTo k).builder k 0 := by
    refine ⟨rfl, content, hcontent, ?_⟩
    rw [hempty]
    rfl
  have hmarks : (d.moveTo k).marks.within k = [] := Plan.within_eq_nil hfresh.marks
  rw [point_eq hat, hmarks]
  rfl

theorem behind_of_isOpen (hopen : d.builder.IsOpen) : d.behind plan = some (d.point plan) := by
  rw [behind, hopen.placed.isTerminated.mpr hopen]
  rfl

theorem behind_of_not_isOpen (hplaced : d.builder.Placed) (hclosed : ¬ d.builder.IsOpen) :
    d.behind plan = none := by
  rw [behind, if_pos]
  rw [← Bool.not_eq_false, hplaced.isTerminated]
  exact hclosed

theorem Fresh.unfinished (hfresh : d.Fresh k) : d.builder.Unfinished k := by
  obtain ⟨content, hcontent, -, hopen⟩ := hfresh.content
  exact ⟨content, hcontent, hopen⟩

/-! ## Growth -/

theorem In.of_extends (hin : d'.In fn plan) (hext : d.builder.Extends d'.builder)
    (hmarks : ∃ new, d'.marks = d.marks ++ new ∧ ∀ m ∈ new, d.builder.Reaches m.block)
    (hclosed : ∀ id, d.builder.insertion = some id → d.builder.Unfinished id) : d.In fn plan where
  includes := by
    intro id block hblock
    obtain ⟨block', hblock', hgrows⟩ := hext.grown id block hblock
    obtain ⟨block'', hblock'', hgrows', hkept⟩ := hin.includes id block' hblock'
    refine ⟨block'', hblock'', hgrows.trans hgrows', ?_⟩
    intro hterm
    -- A closed block is not the current one, so that nothing has been added to it.
    have hne : d.builder.insertion ≠ some id := by
      intro hid
      obtain ⟨content, hcontent, hnone⟩ := hclosed id hid
      rw [hblock] at hcontent
      cases hcontent
      simp [Block.isTerminated, hnone] at hterm
    rw [hext.kept id (Ir.Builder.lt_blockCount hblock) hne, hblock] at hblock'
    cases hblock'
    exact hkept hterm
  rest := by
    obtain ⟨new, hnew, hreaches⟩ := hmarks
    obtain ⟨more, rfl, hmore⟩ := hin.rest
    refine ⟨new ++ more, by rw [hnew, List.append_assoc], ?_⟩
    intro m hm hlt
    rcases List.mem_append.mp hm with hm | hm
    · rcases hreaches m hm with hid | hle
      · exact hclosed m.block hid
      · omega
    · have hle := hext.blockCount_le
      obtain ⟨block', hblock', hnone⟩ := hmore m hm (by omega)
      obtain ⟨block, hblock⟩ :=
        Option.isSome_iff_exists.mp (Ir.Builder.block?_isSome_iff.mpr hlt)
      obtain ⟨block'', hblock'', hgrows⟩ := hext.grown _ _ hblock
      rw [hblock'] at hblock''
      cases hblock''
      refine ⟨block, hblock, ?_⟩
      cases hterm : block.terminator with
      | none => rfl
      | some t => simp [hgrows.terminator t hterm] at hnone

namespace Becomes

theorem refl (d : Draft) : d.Becomes returnTy d :=
  ⟨.refl _, ⟨[], by simp⟩, id, fun _ _ h => h, fun _ _ _ h => h⟩

theorem trans (h : d.Becomes returnTy d') (h' : d'.Becomes returnTy d'') :
    d.Becomes returnTy d'' where
  extends_ := h.extends_.trans h'.extends_
  marks := by
    obtain ⟨new, hnew, hreaches⟩ := h.marks
    obtain ⟨new', hnew', hreaches'⟩ := h'.marks
    refine ⟨new ++ new', by rw [hnew', hnew, List.append_assoc], ?_⟩
    intro m hm
    rcases List.mem_append.mp hm with hm | hm
    · exact hreaches m hm
    · have hle := h.extends_.blockCount_le
      rcases hreaches' m hm with hid | hle'
      · rcases h.extends_.insertion with heq | ⟨id, hid', hle''⟩
        · exact .inl (heq ▸ hid)
        · rw [hid] at hid'
          cases hid'
          exact .inr hle''
      · exact .inr (by omega)
  ready := fun hready => h'.ready (h.ready hready)
  pull fn plan hin := h.pull fn plan (h'.pull fn plan hin)
  valid fn plan hin hvalid := h'.valid fn plan hin (h.valid fn plan (h'.pull fn plan hin) hvalid)

theorem moveTo (h : d.Becomes returnTy d') (hk : d.builder.Reaches k) :
    d.Becomes returnTy (d'.moveTo k) where
  extends_ := h.extends_.moveTo hk
  marks := h.marks
  ready := h.ready
  pull fn plan hin := h.pull fn plan hin.of_moveTo
  valid fn plan hin := h.valid fn plan hin.of_moveTo

/-- Another block is as empty as it was. -/
theorem fresh {j : Nat} (h : (d.moveTo k).Becomes returnTy d') (hfresh : d.Fresh j) (hne : j ≠ k) :
    d'.Fresh j := by
  have hlt : j < d.builder.blockCount := hfresh.unfinished.lt
  constructor
  · have hkept := h.extends_.kept j hlt (by simpa [Draft.moveTo] using hne.symm)
    rw [hkept]
    exact hfresh.content
  · obtain ⟨new, hnew, hreaches⟩ := h.marks
    rw [hnew]
    intro m hm
    rcases List.mem_append.mp hm with hm | hm
    · exact hfresh.marks m hm
    · rcases hreaches m hm with hid | hle
      · cases hid
        exact hne.symm
      · have hle' : d.builder.blockCount ≤ m.block := hle
        omega

/-- Code without an action. -/
theorem of_extends {b : Builder} (hext : d.builder.Extends b)
    (hclosed : ∀ id, d.builder.insertion = some id → d.builder.Unfinished id) :
    d.Becomes returnTy ⟨b, d.marks⟩ where
  extends_ := hext
  marks := ⟨[], by simp⟩
  ready hready m hm := Nat.lt_of_lt_of_le (hready m hm) hext.blockCount_le
  pull _ _ hin := hin.of_extends hext ⟨[], by simp⟩ hclosed
  valid _ _ _ hvalid := hvalid

/-- New blocks are added, and those that are there stay as they are. -/
theorem of_kept {b : Builder} (hext : d.builder.Extends b)
    (hkept : ∀ id, id < d.builder.blockCount → b.block? id = d.builder.block? id) :
    d.Becomes returnTy ⟨b, d.marks⟩ where
  extends_ := hext
  marks := ⟨[], by simp⟩
  ready hready m hm := Nat.lt_of_lt_of_le (hready m hm) hext.blockCount_le
  pull fn plan hin := by
    have hle := hext.blockCount_le
    constructor
    · intro id block hblock
      apply hin.includes id block
      rw [hkept id (Ir.Builder.lt_blockCount hblock), hblock]
    · obtain ⟨more, hplan, hmore⟩ := hin.rest
      refine ⟨more, hplan, ?_⟩
      intro m hm hlt
      obtain ⟨block, hblock, hnone⟩ := hmore m hm (Nat.lt_of_lt_of_le hlt hle)
      exact ⟨block, by rw [← hkept _ hlt, hblock], hnone⟩
  valid _ _ _ hvalid := hvalid

end Becomes

theorem closed_of_isOpen (hopen : d.builder.IsOpen) :
    ∀ id, d.builder.insertion = some id → d.builder.Unfinished id := by
  rintro id hid
  obtain ⟨id', hid', hun⟩ := hopen
  rw [hid] at hid'
  cases hid'
  exact hun

/-! ## Leaving a block -/

theorem becomes_fork (returnTy : Ty) (hopen : d.builder.IsOpen) (stems : List String)
    (t : Terminator) : d.Becomes returnTy ⟨d.builder.fork stems t, d.marks⟩ :=
  .of_extends ((Ir.Builder.Extends.refl _).fork stems t hopen) (closed_of_isOpen hopen)

section

variable {b : Builder} {stems : List String} {t : Terminator} {marks : Plan} (hopen : b.IsOpen)

include hopen

theorem block?_fork (stems : List String) (t : Terminator) :
    ∃ content, (b.fork stems t).block? (here b) = some content ∧
      content.insts.size = offset b ∧ content.terminator = some t := by
  obtain ⟨id, hid, block, hblock, hnone⟩ := id hopen
  have hlt := Ir.Builder.lt_blockCount hblock
  refine ⟨block.close t, ?_, ?_, rfl⟩
  · rw [here_eq hid, Builder.fork, Ir.Builder.block?_close, Ir.Builder.insertion_addBlocks,
      if_pos hid, Ir.Builder.block?_addBlocks_of_lt stems hopen.isSome hlt, hblock]
    rfl
  · rw [offset, here_eq hid, hblock]
    rfl

theorem terminatorBehind?_fork (hin : In fn plan ⟨b.fork stems t, marks⟩) :
    terminatorBehind? fn (here b) (offset b) = some t := by
  obtain ⟨content, hcontent, hsize, hterm⟩ := block?_fork hopen stems t
  obtain ⟨content', hcontent', -, hkept⟩ := hin.includes _ _ hcontent
  have heq := hkept (by simp [Block.isTerminated, hterm])
  subst heq
  simp [terminatorBehind?, hcontent', hsize, hterm]

/-- In a block that has been left, nothing is left to be done. -/
theorem left_eq_nil (hin : In fn plan ⟨b.fork stems t, marks⟩) :
    (point ⟨b, marks⟩ plan).left = [] := by
  obtain ⟨more, rfl, hmore⟩ := hin.rest
  have hnone : Plan.within more (here b) = [] := by
    apply Plan.within_eq_nil
    intro m hm heq
    have hun := (unfinished_here hopen)
    have hleft := hmore m hm (by
      rw [heq, Ir.Builder.blockCount_fork stems t hopen]
      exact Nat.lt_add_right _ hun.lt)
    rw [heq, Ir.Builder.unfinished_fork stems t hopen] at hleft
    have hlt := hun.lt
    rcases hleft with hwaits | ⟨hle, -⟩
    · exact hwaits.2 (insertion_here hopen)
    · omega
  simp [point, Plan.within_append, hnone]

/-- Control leaves a block by its terminator. -/
theorem advance_fork (hin : In fn plan ⟨b.fork stems t, marks⟩) (h : History) :
    advance fn plan oracle (.at (point ⟨b, marks⟩ plan) h) = depart plan (some t) h := by
  have hleft := left_eq_nil hopen hin
  have hterm := terminatorBehind?_fork hopen hin
  unfold point at hleft ⊢
  dsimp only at hleft ⊢
  rw [hleft, advance, hterm]

/-- The new blocks are empty. -/
theorem fresh_fork (hready : ∀ m ∈ marks, m.block < b.blockCount) (hle : b.blockCount ≤ k)
    (hlt : k < b.blockCount + stems.length) : Fresh ⟨b.fork stems t, marks⟩ k where
  content := by
    obtain ⟨name, hname⟩ := Ir.Builder.block?_addBlocks_of_le stems hopen.isSome hle hlt
    refine ⟨.empty k name, ?_, rfl, rfl⟩
    have hne : b.insertion ≠ some k := by
      intro hid
      have hun := closed_of_isOpen (d := ⟨b, marks⟩) hopen k hid
      have hltk := hun.lt
      exact absurd hle (Nat.not_le.mpr hltk)
    change (b.fork stems t).block? k = _
    rw [Builder.fork, Ir.Builder.block?_close, Ir.Builder.insertion_addBlocks, if_neg hne, hname]
  marks m hm := by
    have := hready m hm
    omega

end

/-! ## Actions -/

/-- The mark of an action whose code has just been added. -/
def markOf (a : Action) (b b' : Builder) (result : Option Ir.Value) : Mark :=
  ⟨a, here b, offset b, here b', offset b', result⟩

section

variable {a : Action} {symbols : SymbolTable} {result : Option Ir.Value} {b b' : Builder}
  (hopen : d.builder.IsOpen)

/-- The action is the next one that is done. -/
theorem advance_mark (oracle : Oracle) (hin : In fn plan ⟨b', d.marks ++ [markOf a d.builder b result]⟩) :
    ∃ left, (plan.within (here d.builder)).drop ((d.marks.within (here d.builder)).length + 1) = left ∧
      ∀ h, advance fn plan oracle (.at (d.point plan) h) =
        proceed fn plan oracle (markOf a d.builder b result) left (a :: h) := by
  obtain ⟨more, hplan, -⟩ := hin.rest
  have hself : Plan.within [markOf a d.builder b result] (here d.builder) =
      [markOf a d.builder b result] := by
    simp [Plan.within, markOf]
  have hwithin : plan.within (here d.builder) = d.marks.within (here d.builder) ++
      (markOf a d.builder b result :: Plan.within more (here d.builder)) := by
    rw [hplan, Plan.within_append, Plan.within_append, hself, List.append_assoc]
    rfl
  refine ⟨Plan.within more (here d.builder), ?_, fun h => ?_⟩
  · rw [hwithin, ← List.drop_drop, List.drop_left]
    rfl
  · rw [point, hwithin, List.drop_left, advance]
    exact if_pos rfl

include hopen

theorem becomes_mark (hrun : actionCode returnTy symbols a d.builder = .ok result b)
    (hflows : d.builder.Flows b) (hext : b.Extends b')
    (hdecides : ∀ fn plan, In fn plan ⟨b', d.marks ++ [markOf a d.builder b result]⟩ →
      Decides fn (markOf a d.builder b result)) :
    d.Becomes returnTy ⟨b', d.marks ++ [markOf a d.builder b result]⟩ where
  extends_ := hflows.ext.trans hext
  marks := by
    refine ⟨_, rfl, ?_⟩
    rintro m hm
    rw [List.mem_singleton.mp hm]
    exact .inl (insertion_here hopen)
  ready hready m hm := by
    have hle := (hflows.ext.trans hext).blockCount_le
    rcases List.mem_append.mp hm with hm | hm
    · exact Nat.lt_of_lt_of_le (hready m hm) hle
    · rw [List.mem_singleton.mp hm]
      exact Nat.lt_of_lt_of_le (unfinished_here hopen).lt hle
  pull fn plan hin := by
    apply hin.of_extends (hflows.ext.trans hext) _ (closed_of_isOpen hopen)
    refine ⟨_, rfl, ?_⟩
    rintro m hm
    rw [List.mem_singleton.mp hm]
    exact .inl (insertion_here hopen)
  valid fn plan hin hvalid m hm := by
    rcases List.mem_append.mp hm with hm | hm
    · exact hvalid m hm
    · rw [List.mem_singleton.mp hm]
      have hin' : In fn plan ⟨b, d.marks ++ [markOf a d.builder b result]⟩ :=
        hin.of_extends hext ⟨[], by simp⟩ (closed_of_isOpen hflows.isOpen)
      exact ⟨⟨symbols, d.builder, b, hrun, isAt_here hopen.placed, isAt_here hflows.isOpen.placed,
        hin'.includes⟩, hdecides fn plan hin⟩

/-- An action behind which control goes on. -/
theorem act (hplain : a.IsPlain) (hready : d.Ready)
    (hrun : actionCode returnTy symbols a d.builder = .ok result b) (hflows : d.builder.Flows b) :
    ∃ d' : Draft, d'.builder = b ∧ d.Becomes returnTy d' ∧
      ∀ fn plan oracle least breakTo continueTo, d'.In fn plan →
        Follows fn plan oracle least (d.point plan) (.perform a)
          ⟨some (d'.point plan), breakTo, continueTo⟩ := by
  refine ⟨⟨b, d.marks ++ [markOf a d.builder b result]⟩, rfl, ?_, ?_⟩
  · apply becomes_mark hopen hrun hflows (.refl b)
    intro fn plan _
    cases a <;> first | exact trivial | cases hplain
  · intro fn plan oracle least breakTo continueTo hin
    obtain ⟨left, hleft, hadvance⟩ := advance_mark oracle hin
    intro h
    refine ⟨1, ?_⟩
    rw [walk, Function.iterate_one, hadvance]
    have hproceed : ∀ h, proceed fn plan oracle (markOf a d.builder b result) left h =
        .at (point ⟨b, d.marks ++ [markOf a d.builder b result]⟩ plan) h := by
      intro h
      have hnext : (if here b = here d.builder then left else plan.within (here b)) =
          (plan.within (here b)).drop
            (Plan.within (d.marks ++ [markOf a d.builder b result]) (here b)).length := by
        by_cases hsame : here b = here d.builder
        · rw [if_pos hsame, hsame, ← hleft, Plan.within_append]
          simp [Plan.within, markOf]
        · -- Control is in a block that the code of the action has added.
          have hnew : d.builder.blockCount ≤ here b := by
            rcases hflows.ext.insertion with heq | ⟨id, hid, hle⟩
            · exact absurd (by rw [here, here, heq]) hsame
            · rwa [here_eq hid]
          have hnone : Plan.within (d.marks ++ [markOf a d.builder b result]) (here b) = [] := by
            apply Plan.within_eq_nil
            intro m hm
            rcases List.mem_append.mp hm with hm | hm
            · have := hready m hm
              omega
            · rw [List.mem_singleton.mp hm]
              exact fun heq => hsame heq.symm
          rw [if_neg hsame, hnone]
          rfl
      rw [point, ← hnext]
      cases a <;> first | rfl | cases hplain
    rw [hproceed]
    exact .behind rfl

/-- An action by whose result control leaves the block. -/
theorem answer (stems : List String) (t : Terminator)
    (hrun : actionCode returnTy symbols a d.builder = .ok result b) (hflows : d.builder.Flows b)
    (hdecides : ∀ fn mark, mark.action = a → mark.result = result →
      terminatorBehind? fn mark.endBlock mark.endIndex = some t → Decides fn mark) :
    ∃ d' : Draft, d'.builder = b.fork stems t ∧ d.Becomes returnTy d' ∧
      (d.Ready → ∀ k, b.blockCount ≤ k → k < b.blockCount + stems.length → d'.Fresh k) ∧
      ∀ fn plan oracle, d'.In fn plan → ∃ mark left, mark.action = a ∧
        terminatorBehind? fn mark.endBlock mark.endIndex = some t ∧
        ∀ h, advance fn plan oracle (.at (d.point plan) h) =
          proceed fn plan oracle mark left (a :: h) := by
  have hterm : ∀ fn plan, In fn plan ⟨b.fork stems t, d.marks ++ [markOf a d.builder b result]⟩ →
      terminatorBehind? fn (here b) (offset b) = some t :=
    fun _ _ hin => terminatorBehind?_fork hflows.isOpen hin
  refine ⟨⟨b.fork stems t, d.marks ++ [markOf a d.builder b result]⟩, rfl, ?_, ?_, ?_⟩
  · apply becomes_mark hopen hrun hflows ((Ir.Builder.Extends.refl b).fork stems t hflows.isOpen)
    intro fn plan hin
    exact hdecides fn _ rfl rfl (hterm fn plan hin)
  · intro hready k
    apply fresh_fork hflows.isOpen
    intro m hm
    have hle := hflows.ext.blockCount_le
    rcases List.mem_append.mp hm with hm | hm
    · exact Nat.lt_of_lt_of_le (hready m hm) hle
    · rw [List.mem_singleton.mp hm]
      exact Nat.lt_of_lt_of_le (unfinished_here hopen).lt hle
  · intro fn plan oracle hin
    obtain ⟨left, -, hadvance⟩ := advance_mark oracle hin
    exact ⟨_, left, rfl, hterm fn plan hin, hadvance⟩

end

end Draft

end ShaderLang.Lowering
