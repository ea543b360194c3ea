import Mathlib
import ShaderLang.Proofs.Keeps
import ShaderLang.Proofs.Ssa

/-!
# Runs of a builder

What holds after any operations on a builder, in any order, whether they succeed or fail. Each
operation makes one of ten changes (`Builder.Change`), and the well-formedness of a builder, which
is that of its module and that of its open function, is kept by all of them.

A block that has a terminator is changed by nothing but slots that are added to it. It stays with
its function until that is finished, and a finished function does not change any more.
-/

namespace ShaderLang.Ir

/-! ## Operations -/

/-- One of the operations on a builder, with its arguments. -/
inductive Operation where
  | addGlobal (name : String) (ty : Ty) (init : Option Value)
  | beginFunction (name : String) (params : List (String × Ty)) (returnTy : Ty)
  | finishFunction
  | createBlock (stem : String)
  | position (block : Nat)
  | alloca (ty : Ty) (name : String)
  | allocaIn (block : Nat) (ty : Ty) (name : String)
  | load (ty : Ty) (address : Value)
  | store (address value : Value)
  | binary (op : BinaryOp) (ty : Ty) (left right : Value)
  | compare (predicate : Predicate) (left right : Value)
  | convert (op : Conversion) (value : Value)
  | extractLane (vector : Value) (lane : Nat)
  | insertLane (vector value : Value) (lane : Nat)
  | shuffle (vector : Value) (mask : List Nat)
  | elementAddress (base index : Value)
  | call (callee : String) (arguments : List Value) (givesValue : Bool)
  | branch (target : Nat)
  | condBranch (condition : Value) (ifTrue ifFalse : Nat)
  | switch (value : Value) (default : Nat) (cases : List (Int64 × Nat))
  | ret (value : Option Value)
  | unreachable

/-- The builder that an operation leaves behind, whether it succeeds or fails. -/
def Build.after {α : Type} (x : Build α) (b : Builder) : Builder :=
  match x b with
  | .ok _ b' => b'
  | .error _ b' => b'

namespace Operation

/-- The builder after an operation. -/
def perform : Operation → Builder → Builder
  | addGlobal name ty init => (Build.addGlobal name ty init).after
  | beginFunction name params returnTy => (Build.beginFunction name params returnTy).after
  | finishFunction => Build.finishFunction.after
  | createBlock stem => (Build.createBlock stem).after
  | position block => (Build.position block).after
  | alloca ty name => (Build.alloca ty name).after
  | allocaIn block ty name => (Build.allocaIn block ty name).after
  | load ty address => (Build.load ty address).after
  | store address value => (Build.store address value).after
  | binary op ty left right => (Build.binary op ty left right).after
  | compare predicate left right => (Build.compare predicate left right).after
  | convert op value => (Build.convert op value).after
  | extractLane vector lane => (Build.extractLane vector lane).after
  | insertLane vector value lane => (Build.insertLane vector value lane).after
  | shuffle vector mask => (Build.shuffle vector mask).after
  | elementAddress base index => (Build.elementAddress base index).after
  | call callee arguments givesValue => (Build.call callee arguments givesValue).after
  | branch target => (Build.branch target).after
  | condBranch condition ifTrue ifFalse => (Build.condBranch condition ifTrue ifFalse).after
  | switch value default cases => (Build.switch value default cases).after
  | ret value => (Build.ret value).after
  | unreachable => Build.unreachable.after

/-- The builder after one operation and then the others. -/
def performAll (ops : List Operation) (b : Builder) : Builder :=
  ops.foldl (fun b op => op.perform b) b

/-- The slot that an operation adds to a given block, if it is asked for one there. -/
def slotsIn (id next : Nat) : Operation → List Inst
  | allocaIn block ty name => if block = id then [.alloca next ty name] else []
  | _ => []

/-- The slots that operations add to a given block, each with the index that is next at its time. -/
def allSlotsIn (id : Nat) : List Operation → Builder → List Inst
  | [], _ => []
  | op :: rest, b => op.slotsIn id b.nextTemp ++ allSlotsIn id rest (op.perform b)

end Operation

/-! ## What an operation leaves behind -/

namespace Build

variable {α β : Type} {b : Builder}

theorem after_bind (x : Build α) (f : α → Build β) (b : Builder) :
    (x >>= f).after b =
      match x b with
      | .ok a b' => (f a).after b'
      | .error _ b' => b' := by
  simp only [after, bind, EStateM.bind]
  cases x b <;> rfl

theorem after_bind_pure (x : Build α) (f : α → β) (b : Builder) :
    (x >>= fun a => pure (f a)).after b = x.after b := by
  rw [after_bind, after]
  cases x b <;> rfl

theorem after_get (f : Builder → Build α) (b : Builder) : (get >>= f).after b = (f b).after b :=
  rfl

theorem after_modify (change : Builder → Builder) (f : PUnit → Build α) (b : Builder) :
    (modify change >>= f).after b = (f ⟨⟩).after (change b) :=
  rfl

theorem after_newTemp (f : Nat → Build α) (b : Builder) :
    (newTemp >>= f).after b = (f b.nextTemp).after { b with nextTemp := b.nextTemp + 1 } :=
  rfl

theorem after_insertionPoint (b : Builder) : insertionPoint.after b = b := by
  rw [insertionPoint, after_get]
  split
  · rfl
  · split
    · rfl
    · split <;> rfl

/-- What does nothing at a closed block does nothing, unless the block at the insertion point is
open. -/
theorem after_atInsertionPoint {f : Nat × Block → Build Unit} {b : Builder}
    (hf : ∀ r, r.2.isTerminated = true → (f r).after b = b) :
    (insertionPoint >>= f).after b = b ∨ b.IsOpen := by
  have hpoint := after_insertionPoint b
  rw [after_bind]
  cases hr : insertionPoint b with
  | error fault b' =>
    rw [after, hr] at hpoint
    exact .inl hpoint
  | ok r b' =>
    obtain ⟨rfl, -⟩ := insertionPoint_eq_ok hr
    by_cases hterm : r.2.isTerminated = true
    · exact .inl (hf r hterm)
    · exact .inr (isOpen_of_insertionPoint hr hterm)

theorem after_emit (inst : Inst) (b : Builder) :
    (emit inst).after b = b ∨
      b.IsOpen ∧ (emit inst).after b = b.append [inst] b.nextTemp := by
  have hclosed (r : Nat × Block) (hr : r.2.isTerminated = true) :
      (if r.2.isTerminated then throw (.afterTerminator r.2.name)
        else modify (·.modifyBlock r.1 fun block => { block with insts := block.insts.push inst }) :
          Build Unit).after b = b := by
    rw [if_pos hr]
    rfl
  rcases after_atInsertionPoint hclosed with h | hopen
  · exact .inl h
  · exact .inr ⟨hopen, by rw [after, emit_eq hopen]⟩

theorem after_terminate (t : Terminator) (b : Builder) :
    (terminate t).after b = b ∨ b.IsOpen ∧ (terminate t).after b = b.close t := by
  have hclosed (r : Nat × Block) (hr : r.2.isTerminated = true) :
      (if r.2.isTerminated then throw (.alreadyTerminated r.2.name)
        else modify (·.modifyBlock r.1 fun block => { block with terminator := some t }) :
          Build Unit).after b = b := by
    rw [if_pos hr]
    rfl
  rcases after_atInsertionPoint hclosed with h | hopen
  · exact .inl h
  · exact .inr ⟨hopen, by rw [after, terminate_eq hopen]⟩

theorem after_emitValue (inst : Nat → Inst) (b : Builder) :
    (emitValue inst).after b = { b with nextTemp := b.nextTemp + 1 } ∨
      b.IsOpen ∧ (emitValue inst).after b = b.append [inst b.nextTemp] (b.nextTemp + 1) := by
  have hnew : (emitValue inst).after b =
      (emit (inst b.nextTemp)).after { b with nextTemp := b.nextTemp + 1 } :=
    after_bind_pure (emit (inst b.nextTemp)) _ _
  rcases after_emit (inst b.nextTemp) { b with nextTemp := b.nextTemp + 1 } with h | ⟨hopen, -⟩
  · exact .inl (hnew.trans h)
  · have hopen : b.IsOpen := hopen
    exact .inr ⟨hopen, by rw [after, emitValue_eq hopen]⟩

theorem after_createBlock (stem : String) (b : Builder) :
    (createBlock stem).after b = { b with stems := stem :: b.stems } ∨
      b.openFn.isSome ∧ (createBlock stem).after b = b.addBlock stem := by
  cases hf : b.openFn with
  | none =>
    left
    rw [createBlock, after_get, after_modify, after_get]
    dsimp only
    rw [hf]
    rfl
  | some f => exact .inr ⟨rfl, by rw [after, createBlock_eq (by rw [hf]; rfl)]⟩

theorem after_allocaIn (id : Nat) (ty : Ty) (name : String) (b : Builder) :
    b.blockCount ≤ id ∧ (allocaIn id ty name).after b = { b with nextTemp := b.nextTemp + 1 } ∨
      id < b.blockCount ∧ (allocaIn id ty name).after b = b.allocIn id ty name := by
  rcases Nat.lt_or_ge id b.blockCount with hid | hid
  · exact .inr ⟨hid, by rw [after, allocaIn_eq hid]⟩
  · refine .inl ⟨hid, ?_⟩
    rw [allocaIn, after_newTemp, after_get]
    dsimp only
    split
    · rfl
    · next f hf =>
      have hsize : ¬ id < f.blocks.size := by
        simpa [Builder.blockCount, hf] using hid
      rw [if_neg hsize]
      rfl

theorem after_beginFunction (name : String) (params : List (String × Ty)) (returnTy : Ty)
    (b : Builder) :
    (beginFunction name params returnTy).after b = b ∨ b.openFn = none ∧
      (beginFunction name params returnTy).after b = b.begin name params returnTy := by
  cases hf : b.openFn with
  | none => exact .inr ⟨rfl, by rw [after, beginFunction_eq hf]⟩
  | some f =>
    left
    rw [beginFunction, after_get, hf]
    rfl

theorem after_finishFunction (b : Builder) :
    finishFunction.after b = { b with openFn := none } ∨
      ∃ f, b.openFn = some f ∧ (∀ block ∈ f.blocks, block.isTerminated = true) ∧
        finishFunction.after b = b.finish f := by
  rw [finishFunction, after_get]
  cases hf : b.openFn with
  | none =>
    left
    obtain ⟨output, _, insertion, nextTemp, stems⟩ := b
    cases hf
    rfl
  | some f =>
    dsimp only
    rw [after_modify]
    cases hfind : f.blocks.find? (!·.isTerminated) with
    | some block => exact .inl rfl
    | none =>
      have hall (block : Block) (hblock : block ∈ f.blocks) : block.isTerminated = true := by
        simpa using Array.find?_eq_none.mp hfind block hblock
      exact .inr ⟨f, rfl, hall, rfl⟩

end Build

/-! ## What an operation can do -/

/-- What an operation may do to a builder, with what it has made sure of before. -/
inductive Builder.Change (b : Builder) : Operation → Builder → Prop
  /-- Nothing but a temporary value or the name of a block is used up. -/
  | spent {op : Operation} (next : Nat) (stems : List String) (hnext : b.nextTemp ≤ next)
      (hop : ∀ id < b.blockCount, op.slotsIn id b.nextTemp = []) :
      Change b op { b with nextTemp := next, stems := stems }
  | global (name : String) (ty : Ty) (init : Option Value) :
      Change b (.addGlobal name ty init) { b with output := b.output.addGlobal ⟨name, ty, init⟩ }
  | moved (id : Nat) : Change b (.position id) (b.moveTo id)
  | begun (name : String) (params : List (String × Ty)) (returnTy : Ty) (h : b.openFn = none) :
      Change b (.beginFunction name params returnTy) (b.begin name params returnTy)
  | dropped : Change b .finishFunction { b with openFn := none }
  | finished {f : Function} (h : b.openFn = some f)
      (hall : ∀ block ∈ f.blocks, block.isTerminated = true) :
      Change b .finishFunction (b.finish f)
  | blockAdded (stem : String) (h : b.openFn.isSome) :
      Change b (.createBlock stem) (b.addBlock stem)
  | slotAdded (ty : Ty) (name : String) {id : Nat} (h : id < b.blockCount) :
      Change b (.allocaIn id ty name) (b.allocIn id ty name)
  | appended {op : Operation} {inst : Inst} {next : Nat} (h : b.IsOpen) (hnext : b.nextTemp ≤ next)
      (hresult : ∀ t ∈ inst.result?, b.nextTemp ≤ t ∧ t < next)
      (hop : ∀ id, op.slotsIn id b.nextTemp = []) :
      Change b op (b.append [inst] next)
  | closed {op : Operation} {t : Terminator} (h : b.IsOpen)
      (hop : ∀ id, op.slotsIn id b.nextTemp = []) :
      Change b op (b.close t)

namespace Builder.Change

variable {b : Builder} {op : Operation}

theorem nothing (hop : ∀ id, op.slotsIn id b.nextTemp = []) : Change b op b :=
  .spent b.nextTemp b.stems (Nat.le_refl _) fun id _ => hop id

theorem ofEmit {inst : Inst} (hinst : inst.result? = none)
    (hop : ∀ id, op.slotsIn id b.nextTemp = []) : Change b op ((Build.emit inst).after b) := by
  rcases Build.after_emit inst b with h | ⟨hopen, h⟩
  · rw [h]
    exact nothing hop
  · rw [h]
    exact .appended hopen (Nat.le_refl _) (by simp [hinst]) hop

theorem ofEmitValue {inst : Nat → Inst} (hinst : ∀ t, (inst t).result? = some t)
    (hop : ∀ id, op.slotsIn id b.nextTemp = []) :
    Change b op ((Build.emitValue inst).after b) := by
  rcases Build.after_emitValue inst b with h | ⟨hopen, h⟩
  · rw [h]
    exact .spent _ b.stems (Nat.le_succ _) fun id _ => hop id
  · rw [h]
    refine .appended hopen (Nat.le_succ _) ?_ hop
    intro t ht
    rw [hinst, Option.mem_some] at ht
    omega

theorem ofTerminate (t : Terminator) (hop : ∀ id, op.slotsIn id b.nextTemp = []) :
    Change b op ((Build.terminate t).after b) := by
  rcases Build.after_terminate t b with h | ⟨hopen, h⟩
  · rw [h]
    exact nothing hop
  · rw [h]
    exact .closed hopen hop

end Builder.Change

/-- Every operation makes one of the changes. -/
theorem Operation.perform_change (op : Operation) (b : Builder) : b.Change op (op.perform b) := by
  cases op with
  | addGlobal name ty init => exact .global name ty init
  | beginFunction name params returnTy =>
    rcases Build.after_beginFunction name params returnTy b with h | ⟨hnone, h⟩
    · rw [perform, h]
      exact .nothing fun _ => rfl
    · rw [perform, h]
      exact .begun name params returnTy hnone
  | finishFunction =>
    rcases Build.after_finishFunction b with h | ⟨f, hf, hall, h⟩
    · rw [perform, h]
      exact .dropped
    · rw [perform, h]
      exact .finished hf hall
  | createBlock stem =>
    rcases Build.after_createBlock stem b with h | ⟨hsome, h⟩
    · rw [perform, h]
      exact .spent b.nextTemp _ (Nat.le_refl _) fun _ _ => rfl
    · rw [perform, h]
      exact .blockAdded stem hsome
  | position id => exact .moved id
  | allocaIn id ty name =>
    rcases Build.after_allocaIn id ty name b with ⟨hid, h⟩ | ⟨hid, h⟩
    · rw [perform, h]
      refine .spent _ b.stems (Nat.le_succ _) fun j hj => ?_
      rw [slotsIn, if_neg (Nat.ne_of_gt (Nat.lt_of_lt_of_le hj hid))]
    · rw [perform, h]
      exact .slotAdded ty name hid
  | alloca | load | binary | compare | insertLane | shuffle | elementAddress =>
    exact .ofEmitValue (fun _ => rfl) fun _ => rfl
  | store => exact .ofEmit rfl fun _ => rfl
  | convert op value =>
    rw [perform, Build.convert_eq]
    split
    · exact .nothing fun _ => rfl
    · exact .ofEmitValue (fun _ => rfl) fun _ => rfl
  | extractLane vector lane =>
    rw [perform, Build.extractLane_eq]
    split
    · exact .nothing fun _ => rfl
    · exact .ofEmitValue (fun _ => rfl) fun _ => rfl
  | call callee arguments givesValue =>
    rw [perform, Build.call]
    split
    · rw [Build.after_bind_pure]
      exact .ofEmitValue (fun _ => rfl) fun _ => rfl
    · rw [Build.after_bind_pure]
      exact .ofEmit rfl fun _ => rfl
  | branch | condBranch | switch | ret | unreachable => exact .ofTerminate _ fun _ => rfl

/-! ## Well-formedness -/

/-- The blocks of the function are numbered by position, and no two of its instructions compute the
same temporary value. -/
structure Function.IsOrderly (f : Function) : Prop where
  id_eq : ∀ (id : Nat) (block : Block), f.blocks[id]? = some block → block.id = id
  unique : (results f.insts).Nodup

/-- The functions of the module are orderly and finished, and nothing in it has the name of
something else of its kind. -/
structure Module.IsWellFormed (m : Module) : Prop where
  orderly : ∀ f ∈ m.functions, f.IsOrderly
  terminated : ∀ f ∈ m.functions, ∀ block ∈ f.blocks, block.isTerminated = true
  functionNames : (m.functions.map Function.name).Nodup
  globalNames : (m.globals.map Global.name).Nodup

/-- The module is well formed, the open function is orderly, and the index that is next is above all
temporary values of the open function. -/
structure Builder.IsWellFormed (b : Builder) : Prop where
  output : b.output.IsWellFormed
  orderly : ∀ f, b.openFn = some f → f.IsOrderly
  below : ∀ f, b.openFn = some f → ∀ t ∈ results f.insts, t < b.nextTemp

/-- Replacing what has a name keeps names distinct. -/
theorem nodup_names_replace {α : Type} {name : α → String} {l : List α} (x : α)
    (h : (l.map name).Nodup) : ((l.filter (name · != name x) ++ [x]).map name).Nodup := by
  rw [List.map_append, List.nodup_append]
  refine ⟨h.sublist (List.filter_sublist.map name), List.nodup_singleton _, ?_⟩
  intro s hs t ht
  obtain ⟨y, hy, rfl⟩ := List.mem_map.mp hs
  rw [List.map_singleton, List.mem_singleton] at ht
  rw [ht]
  simpa using List.of_mem_filter hy

namespace Module.IsWellFormed

variable {m : Module}

theorem empty (name : String) : (Module.empty name).IsWellFormed where
  orderly _ hf := absurd hf List.not_mem_nil
  terminated _ hf := absurd hf List.not_mem_nil
  functionNames := List.nodup_nil
  globalNames := List.nodup_nil

theorem addGlobal (h : m.IsWellFormed) (g : Global) : (m.addGlobal g).IsWellFormed where
  orderly := h.orderly
  terminated := h.terminated
  functionNames := h.functionNames
  globalNames := nodup_names_replace g h.globalNames

theorem addFunction (h : m.IsWellFormed) {f : Function} (hf : f.IsOrderly)
    (hall : ∀ block ∈ f.blocks, block.isTerminated = true) : (m.addFunction f).IsWellFormed where
  orderly g hg := by
    rcases List.mem_append.mp hg with hg | hg
    · exact h.orderly g (List.mem_of_mem_filter hg)
    · rw [List.mem_singleton.mp hg]
      exact hf
  terminated g hg := by
    rcases List.mem_append.mp hg with hg | hg
    · exact h.terminated g (List.mem_of_mem_filter hg)
    · rw [List.mem_singleton.mp hg]
      exact hall
  functionNames := nodup_names_replace f h.functionNames
  globalNames := h.globalNames

end Module.IsWellFormed

namespace Function

variable {f : Function} {change : Block → Block} {code : List Inst} {id : Nat}

/-- The function with one block changed. -/
def modifyBlock (f : Function) (id : Nat) (change : Block → Block) : Function :=
  { f with blocks := f.blocks.modify id change }

theorem insts_push (f : Function) (id : Nat) (name : String) :
    ({ f with blocks := f.blocks.push (.empty id name) } : Function).insts = f.insts := by
  simp [insts, Block.empty]

theorem insts_modifyBlock (hid : id < f.blocks.size)
    (hcode : ∀ block, (change block).insts.toList = block.insts.toList ++ code) :
    (f.modifyBlock id change).insts.Perm (f.insts ++ code) := by
  rw [insts, insts, modifyBlock, Array.toList_modify]
  rw [← Array.length_toList] at hid
  generalize f.blocks.toList = blocks at hid
  induction blocks generalizing id with
  | nil => cases hid
  | cons block rest ih =>
    cases id with
    | zero =>
      simp only [List.modify_zero_cons, List.flatMap_cons, hcode, List.append_assoc]
      exact List.perm_append_comm.append_left _
    | succ id =>
      simp only [List.modify_succ_cons, List.flatMap_cons, List.append_assoc]
      exact (ih (Nat.lt_of_succ_lt_succ hid)).append_left _

theorem results_modifyBlock (hid : id < f.blocks.size)
    (hcode : ∀ block, (change block).insts.toList = block.insts.toList ++ code) :
    (results (f.modifyBlock id change).insts).Perm (results f.insts ++ results code) := by
  rw [← results_append]
  exact (insts_modifyBlock hid hcode).filterMap _

end Function

namespace Function.IsOrderly

variable {f : Function} {change : Block → Block} {code : List Inst} {id : Nat}

theorem begin (name : String) (params : List (String × Ty)) (returnTy : Ty) :
    (⟨name, params, returnTy, #[]⟩ : Function).IsOrderly where
  id_eq _ _ hblock := by cases hblock
  unique := List.nodup_nil

theorem push (h : f.IsOrderly) (name : String) :
    { f with blocks := f.blocks.push (.empty f.blocks.size name) }.IsOrderly where
  id_eq id block hblock := by
    rw [Array.getElem?_push] at hblock
    split at hblock
    · next hid =>
      cases hblock
      exact hid.symm
    · exact h.id_eq id block hblock
  unique := by
    rw [insts_push]
    exact h.unique

theorem modifyBlock (h : f.IsOrderly) (hid : id < f.blocks.size)
    (hsame : ∀ block, (change block).id = block.id)
    (hcode : ∀ block, (change block).insts.toList = block.insts.toList ++ code)
    (hunique : (results code).Nodup) (hfresh : ∀ t ∈ results code, t ∉ results f.insts) :
    (f.modifyBlock id change).IsOrderly where
  id_eq j block hblock := by
    rw [Function.modifyBlock, Array.getElem?_modify] at hblock
    split at hblock
    · obtain ⟨old, hold, rfl⟩ := Option.map_eq_some_iff.mp hblock
      rw [hsame]
      exact h.id_eq j old hold
    · exact h.id_eq j block hblock
  unique := by
    rw [(results_modifyBlock hid hcode).nodup_iff, List.nodup_append]
    exact ⟨h.unique, hunique, fun s hs t ht heq => hfresh t ht (heq ▸ hs)⟩

end Function.IsOrderly

namespace Builder

variable {b b' : Builder} {op : Operation}

namespace IsWellFormed

theorem ofNone (h : b.output.IsWellFormed) (hnone : b.openFn = none) : b.IsWellFormed where
  output := h
  orderly f hf := by
    rw [hnone] at hf
    cases hf
  below f hf := by
    rw [hnone] at hf
    cases hf

theorem new (name : String) : (Builder.new name).IsWellFormed :=
  ofNone (.empty name) rfl

/-- Code may be added to a block if it computes temporary values whose indices are not taken. -/
theorem modifyBlock (h : b.IsWellFormed) {id next : Nat} {change : Block → Block}
    (code : List Inst) (hid : id < b.blockCount)
    (hsame : ∀ block, (change block).id = block.id)
    (hcode : ∀ block, (change block).insts.toList = block.insts.toList ++ code)
    (hnext : b.nextTemp ≤ next) (hunique : (results code).Nodup)
    (hfresh : ∀ t ∈ results code, b.nextTemp ≤ t ∧ t < next) :
    { b.modifyBlock id change with nextTemp := next }.IsWellFormed where
  output := h.output
  orderly f' hf' := by
    obtain ⟨f, hf, rfl⟩ := Option.map_eq_some_iff.mp hf'
    have hlt : id < f.blocks.size := by simpa [blockCount, hf] using hid
    refine (h.orderly f hf).modifyBlock hlt hsame hcode hunique fun t ht hold => ?_
    exact absurd (h.below f hf t hold) (Nat.not_lt.mpr (hfresh t ht).1)
  below f' hf' t ht := by
    obtain ⟨f, hf, rfl⟩ := Option.map_eq_some_iff.mp hf'
    have hlt : id < f.blocks.size := by simpa [blockCount, hf] using hid
    rcases List.mem_append.mp ((Function.results_modifyBlock hlt hcode).mem_iff.mp ht) with
      hold | hnew
    · exact Nat.lt_of_lt_of_le (h.below f hf t hold) hnext
    · exact (hfresh t hnew).2

/-- What every operation keeps. -/
theorem change (h : b.IsWellFormed) (hchange : b.Change op b') : b'.IsWellFormed := by
  cases hchange with
  | spent next stems hnext _ =>
    exact ⟨h.output, h.orderly, fun f hf t ht => Nat.lt_of_lt_of_le (h.below f hf t ht) hnext⟩
  | global name ty init => exact ⟨h.output.addGlobal _, h.orderly, h.below⟩
  | moved id => exact ⟨h.output, h.orderly, h.below⟩
  | begun name params returnTy _ =>
    refine ⟨h.output, fun f hf => ?_, fun f hf t ht => ?_⟩
    · cases hf
      exact .begin name params returnTy
    · cases hf
      cases ht
  | dropped => exact ofNone h.output rfl
  | finished hf hall => exact ofNone (h.output.addFunction (h.orderly _ hf) hall) rfl
  | blockAdded stem _ =>
    refine ⟨h.output, fun f' hf' => ?_, fun f' hf' t ht => ?_⟩
    · obtain ⟨f, hf, rfl⟩ := Option.map_eq_some_iff.mp hf'
      exact (h.orderly f hf).push _
    · obtain ⟨f, hf, rfl⟩ := Option.map_eq_some_iff.mp hf'
      rw [Function.insts_push] at ht
      exact h.below f hf t ht
  | slotAdded ty name hid =>
    exact h.modifyBlock [.alloca b.nextTemp ty name] hid (fun _ => rfl)
      (fun _ => Array.toList_append ..) (Nat.le_succ _) (List.nodup_singleton _)
      (by simp [results, Inst.result?])
  | @appended _ inst next hopen hnext hresult _ =>
    obtain ⟨id, hid, hunfinished⟩ := hopen
    rw [append, hid]
    have hresults : results [inst] = inst.result?.toList := by
      cases hr : inst.result? <;> simp [results, hr]
    refine h.modifyBlock [inst] hunfinished.lt (fun _ => rfl) (fun _ => Array.toList_append ..)
      hnext ?_ ?_
    · rw [hresults]
      cases inst.result? <;> simp
    · rw [hresults]
      simpa using hresult
  | @closed _ t hopen _ =>
    obtain ⟨id, hid, hunfinished⟩ := hopen
    rw [close, hid]
    exact h.modifyBlock [] hunfinished.lt (fun _ => rfl) (fun _ => (List.append_nil _).symm)
      (Nat.le_refl _) List.nodup_nil (by simp)

theorem perform (h : b.IsWellFormed) (op : Operation) : (op.perform b).IsWellFormed :=
  h.change (op.perform_change b)

theorem performAll (h : b.IsWellFormed) (ops : List Operation) :
    (Operation.performAll ops b).IsWellFormed := by
  induction ops generalizing b with
  | nil => exact h
  | cons op rest ih => exact ih (h.perform op)

end IsWellFormed

/-! ## What is closed -/

/-- No change but finishing the function does more to a closed block than to add slots to it. -/
theorem Change.block? (h : b.Change op b') (hop : op ≠ .finishFunction) {id : Nat} {block : Block}
    (hblock : b.block? id = some block) (hterm : block.isTerminated = true) :
    b'.block? id = some (block.append (op.slotsIn id b.nextTemp)) := by
  have hid : id < b.blockCount := lt_blockCount hblock
  have helsewhere (hopen : b.IsOpen) : b.insertion ≠ some id := by
    obtain ⟨j, hj, unfinished, hunfinished, hnone⟩ := hopen
    intro hsame
    rw [hj, Option.some.injEq] at hsame
    rw [hsame, hblock, Option.some.injEq] at hunfinished
    rw [Block.isTerminated, hunfinished, hnone] at hterm
    cases hterm
  have hkept : some block = some (block.append []) := by rw [Block.append_nil]
  cases h with
  | spent next stems _ hslots =>
    rw [hslots id hid]
    exact hblock.trans hkept
  | global | moved => exact hblock.trans hkept
  | begun _ _ _ hnone =>
    rw [Builder.block?, hnone] at hblock
    cases hblock
  | dropped | finished => exact absurd rfl hop
  | blockAdded stem hsome =>
    rw [block?_addBlock stem hsome, if_neg (Nat.ne_of_lt hid)]
    exact hblock.trans hkept
  | @slotAdded ty name j _ =>
    rw [block?_allocIn, hblock, Operation.slotsIn]
    by_cases hj : j = id
    · rw [if_pos hj, if_pos hj]
      rfl
    · rw [if_neg hj, if_neg hj, Block.append_nil]
  | appended hopen _ _ hslots =>
    rw [block?_append, if_neg (helsewhere hopen), hslots id]
    exact hblock.trans hkept
  | closed hopen hslots =>
    rw [block?_close, if_neg (helsewhere hopen), hslots id]
    exact hblock.trans hkept

/-- A function of the module has been there before, as it is, or has just been finished. -/
theorem Change.mem_functions (h : b.Change op b') {f : Function} (hf : f ∈ b'.output.functions) :
    f ∈ b.output.functions ∨ op = .finishFunction ∧ b.openFn = some f := by
  cases h with
  | finished hopen _ =>
    rcases List.mem_append.mp hf with hold | hnew
    · exact .inl (List.mem_of_mem_filter hold)
    · rw [List.mem_singleton.mp hnew]
      exact .inr ⟨rfl, hopen⟩
  | appended hopen _ _ _ =>
    rw [output_append] at hf
    exact .inl hf
  | closed hopen _ =>
    rw [output_close] at hf
    exact .inl hf
  | _ => exact .inl hf

end Builder

namespace Operation

theorem block?_performAll {b : Builder} {ops : List Operation} (hops : .finishFunction ∉ ops)
    {id : Nat} {block : Block} (hblock : b.block? id = some block)
    (hterm : block.isTerminated = true) :
    (performAll ops b).block? id = some (block.append (allSlotsIn id ops b)) := by
  induction ops generalizing b block with
  | nil =>
    rw [allSlotsIn, Block.append_nil]
    exact hblock
  | cons op rest ih =>
    rw [List.mem_cons, not_or] at hops
    have hfirst := (op.perform_change b).block? (Ne.symm hops.1) hblock hterm
    rw [allSlotsIn, ← Block.append_append]
    exact ih hops.2 hfirst hterm

/-- Whatever operations a new builder has gone through, it is well formed. Until the function is
finished, a block that has a terminator keeps it, and gets no instructions but the slots that are
added to it by name; a function that is finished stays as it is. -/
theorem performAll_new (name : String) (ops : List Operation) :
    let b := performAll ops (.new name)
    b.IsWellFormed ∧
    (∀ id block more, b.block? id = some block → block.isTerminated = true →
      .finishFunction ∉ more →
      (performAll more b).block? id = some (block.append (allSlotsIn id more b))) ∧
    ∀ (op : Operation), ∀ f ∈ (op.perform b).output.functions,
      f ∈ b.output.functions ∨ op = .finishFunction ∧ b.openFn = some f := by
  refine ⟨Builder.IsWellFormed.performAll (.new name) ops, ?_, ?_⟩
  · intro id block more hblock hterm hmore
    exact block?_performAll hmore hblock hterm
  · intro op f hf
    exact (op.perform_change _).mem_functions hf

/-- A slot gets into a block that has returned already, a store does not. -/
example :
    (performAll
      [.beginFunction "f" [] .void, .createBlock "entry", .position 0, .ret none,
        .allocaIn 0 .i32 "x", .store (.temp 0) (.int 1)]
      (.new "sample")).block? 0 =
      some ⟨0, "entry", #[.alloca 0 .i32 "x"], some (.ret none)⟩ := by
  rfl

end Operation

end ShaderLang.Ir
