import Mathlib
import ShaderLang.Lowering.Emit

/-!
# What emitting does to a builder

The operations of a builder change the open function in five ways only: instructions are appended to
the block at the insertion point (`append`), that block is closed (`close`), a block is added
(`addBlock`), the insertion point moves (`moveTo`), and a slot is added to a given block
(`allocIn`). Each operation is one of these where it succeeds; all later statements about the
lowering read a builder through `block?`, `blockCount`, `insertion` and `nextTemp`.

Most of the lowering is straight-line code: what it emits depends on nothing but the number of the
next temporary value. `Linear x n Q` says so of an action, with a property of the result, the
instructions and the next number behind them.
-/

namespace ShaderLang

namespace Ir

namespace Block

/-- The block with instructions added. -/
def append (block : Block) (code : List Inst) : Block :=
  { block with insts := block.insts ++ code.toArray }

/-- The block with a terminator. -/
def close (block : Block) (terminator : Terminator) : Block :=
  { block with terminator := some terminator }

@[simp] theorem append_nil (block : Block) : block.append [] = block := by
  simp [append]

@[simp] theorem append_append (block : Block) (c d : List Inst) :
    (block.append c).append d = block.append (c ++ d) := by
  simp [append]

@[simp] theorem terminator_append (block : Block) (code : List Inst) :
    (block.append code).terminator = block.terminator :=
  rfl

@[simp] theorem insts_append (block : Block) (code : List Inst) :
    (block.append code).insts = block.insts ++ code.toArray :=
  rfl

@[simp] theorem terminator_close (block : Block) (t : Terminator) :
    (block.close t).terminator = some t :=
  rfl

@[simp] theorem insts_close (block : Block) (t : Terminator) : (block.close t).insts = block.insts :=
  rfl

@[simp] theorem terminator_empty (id : Nat) (name : String) : (empty id name).terminator = none :=
  rfl

@[simp] theorem insts_empty (id : Nat) (name : String) : (empty id name).insts = #[] :=
  rfl

end Block

namespace Builder

/-! ## Reading a builder -/

/-- A block of the open function. -/
def block? (b : Builder) (id : Nat) : Option Block :=
  b.openFn.bind (·.blocks[id]?)

/-- The number of blocks of the open function. -/
def blockCount (b : Builder) : Nat :=
  b.openFn.elim 0 (·.blocks.size)

/-- Whether a block is there and has no terminator. -/
def Unfinished (b : Builder) (id : Nat) : Prop :=
  ∃ block, b.block? id = some block ∧ block.terminator = none

/-- Whether the block at the insertion point can take instructions. -/
def IsOpen (b : Builder) : Prop :=
  ∃ id, b.insertion = some id ∧ b.Unfinished id

/-- Whether a block other than the one at the insertion point has no terminator yet. -/
def Waits (b : Builder) (id : Nat) : Prop :=
  b.Unfinished id ∧ b.insertion ≠ some id

theorem block?_isSome_iff {b : Builder} {id : Nat} : (b.block? id).isSome ↔ id < b.blockCount := by
  unfold block? blockCount
  cases b.openFn <;> simp

theorem lt_blockCount {b : Builder} {id : Nat} {block : Block} (h : b.block? id = some block) :
    id < b.blockCount :=
  block?_isSome_iff.mp (by simp [h])

theorem Unfinished.lt {b : Builder} {id : Nat} (h : b.Unfinished id) : id < b.blockCount :=
  let ⟨_, hblock, _⟩ := h
  lt_blockCount hblock

theorem IsOpen.openFn {b : Builder} (h : b.IsOpen) : ∃ f, b.openFn = some f := by
  obtain ⟨id, -, block, hblock, -⟩ := h
  cases hf : b.openFn with
  | none => simp [block?, hf] at hblock
  | some f => exact ⟨f, rfl⟩

/-! ## The changes -/

/-- Appends instructions to the block at the insertion point. -/
def append (b : Builder) (code : List Inst) (next : Nat) : Builder :=
  match b.insertion with
  | some id => { b.modifyBlock id (·.append code) with nextTemp := next }
  | none => { b with nextTemp := next }

/-- Closes the block at the insertion point. -/
def close (b : Builder) (terminator : Terminator) : Builder :=
  match b.insertion with
  | some id => b.modifyBlock id (·.close terminator)
  | none => b

/-- The name that the next block named after a stem gets. -/
def freshName (b : Builder) (stem : String) : String :=
  let used := b.stems.count stem
  if used = 0 then stem else stem ++ "." ++ toString used

/-- Adds an empty block. -/
def addBlock (b : Builder) (stem : String) : Builder :=
  { b with
    stems := stem :: b.stems
    openFn := b.openFn.map fun fn =>
      { fn with blocks := fn.blocks.push (.empty fn.blocks.size (b.freshName stem)) } }

/-- Adds several empty blocks. -/
def addBlocks (b : Builder) (stems : List String) : Builder :=
  stems.foldl addBlock b

/-- Moves the insertion point to the end of a block. -/
def moveTo (b : Builder) (id : Nat) : Builder :=
  { b with insertion := some id }

/-- Adds a slot to a given block. -/
def allocIn (b : Builder) (id : Nat) (ty : Ty) (name : String) : Builder :=
  { b.modifyBlock id (·.append [.alloca b.nextTemp ty name]) with nextTemp := b.nextTemp + 1 }

variable {b : Builder}

theorem block?_modifyBlock (id j : Nat) (f : Block → Block) :
    (b.modifyBlock id f).block? j = if id = j then (b.block? j).map f else b.block? j := by
  unfold block? modifyBlock
  cases b.openFn with
  | none => simp
  | some fn => simp [Array.getElem?_modify]

@[simp] theorem blockCount_modifyBlock (id : Nat) (f : Block → Block) :
    (b.modifyBlock id f).blockCount = b.blockCount := by
  unfold blockCount modifyBlock
  cases b.openFn <;> simp

@[simp] theorem insertion_append (code : List Inst) (next : Nat) :
    (b.append code next).insertion = b.insertion := by
  unfold append
  split <;> simp_all [modifyBlock]

@[simp] theorem nextTemp_append (code : List Inst) (next : Nat) :
    (b.append code next).nextTemp = next := by
  unfold append
  split <;> rfl

@[simp] theorem output_append (code : List Inst) (next : Nat) :
    (b.append code next).output = b.output := by
  unfold append
  split <;> rfl

@[simp] theorem blockCount_append (code : List Inst) (next : Nat) :
    (b.append code next).blockCount = b.blockCount := by
  unfold append
  split
  · exact blockCount_modifyBlock _ _
  · rfl

theorem block?_append (code : List Inst) (next j : Nat) :
    (b.append code next).block? j =
      if b.insertion = some j then (b.block? j).map (·.append code) else b.block? j := by
  unfold append
  split
  · next id hid =>
    rw [hid]
    simp only [Option.some.injEq]
    exact block?_modifyBlock id j (·.append code)
  · next hid => simp [hid, block?]

@[simp] theorem insertion_close (t : Terminator) : (b.close t).insertion = b.insertion := by
  unfold close
  split <;> simp_all [modifyBlock]

@[simp] theorem nextTemp_close (t : Terminator) : (b.close t).nextTemp = b.nextTemp := by
  unfold close
  split <;> rfl

@[simp] theorem output_close (t : Terminator) : (b.close t).output = b.output := by
  unfold close
  split <;> rfl

@[simp] theorem blockCount_close (t : Terminator) : (b.close t).blockCount = b.blockCount := by
  unfold close
  split
  · exact blockCount_modifyBlock _ _
  · rfl

theorem block?_close (t : Terminator) (j : Nat) :
    (b.close t).block? j =
      if b.insertion = some j then (b.block? j).map (·.close t) else b.block? j := by
  unfold close
  split
  · next id hid =>
    rw [hid]
    simpa only [Option.some.injEq] using block?_modifyBlock id j (·.close t)
  · next hid => simp [hid]

@[simp] theorem insertion_addBlock (stem : String) : (b.addBlock stem).insertion = b.insertion :=
  rfl

@[simp] theorem nextTemp_addBlock (stem : String) : (b.addBlock stem).nextTemp = b.nextTemp :=
  rfl

@[simp] theorem output_addBlock (stem : String) : (b.addBlock stem).output = b.output :=
  rfl

theorem blockCount_addBlock (stem : String) (h : b.openFn.isSome) :
    (b.addBlock stem).blockCount = b.blockCount + 1 := by
  unfold blockCount addBlock
  cases hf : b.openFn with
  | none => simp [hf] at h
  | some fn => simp

theorem block?_addBlock (stem : String) (h : b.openFn.isSome) (j : Nat) :
    (b.addBlock stem).block? j =
      if j = b.blockCount then some (.empty j (b.freshName stem)) else b.block? j := by
  unfold block? addBlock blockCount
  cases hf : b.openFn with
  | none => simp [hf] at h
  | some fn =>
    simp only [Option.map_some, Option.bind_some, Option.elim_some, Array.getElem?_push]
    split <;> simp_all

@[simp] theorem insertion_moveTo (id : Nat) : (b.moveTo id).insertion = some id :=
  rfl

@[simp] theorem nextTemp_moveTo (id : Nat) : (b.moveTo id).nextTemp = b.nextTemp :=
  rfl

@[simp] theorem output_moveTo (id : Nat) : (b.moveTo id).output = b.output :=
  rfl

@[simp] theorem blockCount_moveTo (id : Nat) : (b.moveTo id).blockCount = b.blockCount :=
  rfl

@[simp] theorem block?_moveTo (id j : Nat) : (b.moveTo id).block? j = b.block? j :=
  rfl

@[simp] theorem openFn_moveTo (id : Nat) : (b.moveTo id).openFn = b.openFn :=
  rfl

@[simp] theorem insertion_allocIn (id : Nat) (ty : Ty) (name : String) :
    (b.allocIn id ty name).insertion = b.insertion :=
  rfl

@[simp] theorem nextTemp_allocIn (id : Nat) (ty : Ty) (name : String) :
    (b.allocIn id ty name).nextTemp = b.nextTemp + 1 :=
  rfl

@[simp] theorem output_allocIn (id : Nat) (ty : Ty) (name : String) :
    (b.allocIn id ty name).output = b.output :=
  rfl

@[simp] theorem blockCount_allocIn (id : Nat) (ty : Ty) (name : String) :
    (b.allocIn id ty name).blockCount = b.blockCount :=
  blockCount_modifyBlock _ _

theorem block?_allocIn (id : Nat) (ty : Ty) (name : String) (j : Nat) :
    (b.allocIn id ty name).block? j =
      if id = j then (b.block? j).map (·.append [.alloca b.nextTemp ty name]) else b.block? j :=
  block?_modifyBlock _ _ _

theorem modifyBlock_modifyBlock (id : Nat) (f g : Block → Block) :
    (b.modifyBlock id f).modifyBlock id g = b.modifyBlock id fun block => g (f block) := by
  unfold modifyBlock
  cases b.openFn with
  | none => rfl
  | some fn =>
    simp only [Option.map_some]
    congr 3
    apply Array.ext
    · simp
    · intro j h₁ h₂
      simp only [Array.getElem_modify]
      split <;> rfl

theorem modifyBlock_id (id : Nat) : (b.modifyBlock id fun block => block) = b := by
  unfold modifyBlock
  cases hf : b.openFn with
  | none => rw [Option.map_none, ← hf]
  | some fn =>
    have : fn.blocks.modify id (fun block => block) = fn.blocks :=
      Array.ext (by simp) fun j _ _ => by simp [Array.getElem_modify]
    rw [Option.map_some, this, ← hf]

theorem append_nil : b.append [] b.nextTemp = b := by
  unfold append
  split
  · simp only [Block.append_nil, modifyBlock_id]
  · rfl

theorem append_append (c d : List Inst) (m n : Nat) :
    (b.append c m).append d n = b.append (c ++ d) n := by
  cases hid : b.insertion with
  | none => simp [append, hid]
  | some id =>
    have h : (b.append c m).insertion = some id := by simp [hid]
    have hc : b.append c m = { b.modifyBlock id (·.append c) with nextTemp := m } := by
      simp [append, hid]
    have hd : (b.append c m).append d n =
        { (b.append c m).modifyBlock id (·.append d) with nextTemp := n } := by
      rw [append, h]
    have hcd : b.append (c ++ d) n = { b.modifyBlock id (·.append (c ++ d)) with nextTemp := n } := by
      simp [append, hid]
    rw [hd, hcd, hc]
    have := modifyBlock_modifyBlock (b := b) id (·.append c) (·.append d)
    simp only [Block.append_append] at this
    rw [← this]
    rfl

theorem Unfinished.append {id : Nat} (code : List Inst) (next : Nat) :
    (b.append code next).Unfinished id ↔ b.Unfinished id := by
  unfold Unfinished
  rw [block?_append]
  split
  · cases b.block? id <;> simp
  · rfl

theorem IsOpen.append (code : List Inst) (next : Nat) : (b.append code next).IsOpen ↔ b.IsOpen := by
  simp only [IsOpen, insertion_append, Unfinished.append]

theorem Unfinished.close {id : Nat} (t : Terminator) :
    (b.close t).Unfinished id ↔ b.Unfinished id ∧ b.insertion ≠ some id := by
  unfold Unfinished
  rw [block?_close]
  split
  · next h => simp [h]
  · next h => simp [h]

theorem Unfinished.addBlock {id : Nat} (stem : String) (h : b.openFn.isSome) :
    (b.addBlock stem).Unfinished id ↔ b.Unfinished id ∨ id = b.blockCount := by
  unfold Unfinished
  rw [block?_addBlock stem h]
  split
  · next hid =>
    subst hid
    simp
  · next hid => simp [hid]

theorem Unfinished.moveTo {id j : Nat} : (b.moveTo j).Unfinished id ↔ b.Unfinished id :=
  Iff.rfl

theorem Unfinished.allocIn {id : Nat} (j : Nat) (ty : Ty) (name : String) :
    (b.allocIn j ty name).Unfinished id ↔ b.Unfinished id := by
  unfold Unfinished
  rw [block?_allocIn]
  split
  · cases b.block? id <;> simp
  · rfl

theorem isOpen_moveTo {id : Nat} : (b.moveTo id).IsOpen ↔ b.Unfinished id := by
  simp [IsOpen, Unfinished.moveTo]

theorem not_isOpen_close (t : Terminator) : ¬ (b.close t).IsOpen := by
  rintro ⟨id, hid, hopen⟩
  rw [insertion_close] at hid
  exact (Unfinished.close t |>.mp hopen).2 hid

@[simp] theorem openFn_isSome_addBlock (stem : String) :
    (b.addBlock stem).openFn.isSome = b.openFn.isSome := by
  simp [addBlock]

@[simp] theorem openFn_isSome_addBlocks (stems : List String) :
    (b.addBlocks stems).openFn.isSome = b.openFn.isSome := by
  induction stems generalizing b with
  | nil => rfl
  | cons stem stems ih => exact ih.trans (openFn_isSome_addBlock stem)

@[simp] theorem insertion_addBlocks (stems : List String) :
    (b.addBlocks stems).insertion = b.insertion := by
  induction stems generalizing b with
  | nil => rfl
  | cons stem stems ih => exact ih

@[simp] theorem nextTemp_addBlocks (stems : List String) :
    (b.addBlocks stems).nextTemp = b.nextTemp := by
  induction stems generalizing b with
  | nil => rfl
  | cons stem stems ih => exact ih

theorem blockCount_addBlocks (stems : List String) (h : b.openFn.isSome) :
    (b.addBlocks stems).blockCount = b.blockCount + stems.length := by
  induction stems generalizing b with
  | nil => rfl
  | cons stem stems ih =>
    have hcount := ih (b := b.addBlock stem) (by simpa using h)
    rw [blockCount_addBlock stem h] at hcount
    rw [List.length_cons, Nat.add_comm stems.length, ← Nat.add_assoc]
    exact hcount

theorem block?_addBlocks_of_lt (stems : List String) (h : b.openFn.isSome) {id : Nat}
    (hid : id < b.blockCount) : (b.addBlocks stems).block? id = b.block? id := by
  induction stems generalizing b with
  | nil => rfl
  | cons stem stems ih =>
    have hlt : id < (b.addBlock stem).blockCount := by
      rw [blockCount_addBlock stem h]
      exact Nat.lt_succ_of_lt hid
    have := ih (b := b.addBlock stem) (by simpa using h) hlt
    rwa [block?_addBlock stem h, if_neg (Nat.ne_of_lt hid)] at this

theorem block?_addBlocks_of_le (stems : List String) (h : b.openFn.isSome) {id : Nat}
    (hle : b.blockCount ≤ id) (hlt : id < b.blockCount + stems.length) :
    ∃ name, (b.addBlocks stems).block? id = some (.empty id name) := by
  induction stems generalizing b with
  | nil => exact absurd hlt (Nat.not_lt.mpr hle)
  | cons stem stems ih =>
    have hsome : (b.addBlock stem).openFn.isSome := by simpa using h
    have hcount := blockCount_addBlock stem h
    rcases Nat.eq_or_lt_of_le hle with rfl | hgt
    · refine ⟨b.freshName stem, ?_⟩
      have hlt : b.blockCount < (b.addBlock stem).blockCount := by omega
      have hkept := block?_addBlocks_of_lt stems hsome hlt
      rw [block?_addBlock stem h, if_pos rfl] at hkept
      exact hkept
    · refine ih hsome (hcount ▸ hgt) ?_
      rw [hcount]
      simpa [Nat.add_assoc, Nat.add_comm 1] using hlt

theorem Unfinished.addBlocks {id : Nat} (stems : List String) (h : b.openFn.isSome) :
    (b.addBlocks stems).Unfinished id ↔
      b.Unfinished id ∨ (b.blockCount ≤ id ∧ id < b.blockCount + stems.length) := by
  induction stems generalizing b with
  | nil =>
    simp only [Builder.addBlocks, List.foldl_nil, List.length_nil]
    exact ⟨.inl, fun h => h.resolve_right fun h => absurd h.2 (Nat.not_lt.mpr h.1)⟩
  | cons stem stems ih =>
    have := ih (b := b.addBlock stem) (by simpa using h)
    rw [Unfinished.addBlock stem h, blockCount_addBlock stem h] at this
    refine this.trans ?_
    simp only [List.length_cons]
    grind

/-! ## Functions -/

/-- Opens a function. -/
def begin (b : Builder) (name : String) (params : List (String × Ty)) (returnTy : Ty) : Builder :=
  { b with openFn := some ⟨name, params, returnTy, #[]⟩, insertion := none, nextTemp := 0, stems := [] }

/-- Closes the open function, which is added to the module. -/
def finish (b : Builder) (f : Function) : Builder :=
  { b with openFn := none, insertion := none, output := b.output.addFunction f }

@[simp] theorem blockCount_begin (name : String) (params : List (String × Ty)) (returnTy : Ty) :
    (b.begin name params returnTy).blockCount = 0 :=
  rfl

/-- The first block of a function is the only one that has no terminator. -/
theorem unfinished_begin (name : String) (params : List (String × Ty)) (returnTy : Ty) (stem : String)
    (id : Nat) : ((b.begin name params returnTy).addBlock stem).Unfinished id ↔ id = 0 := by
  rw [Unfinished.addBlock stem rfl, blockCount_begin]
  simp only [or_iff_right_iff_imp]
  intro h
  exact absurd h.lt (Nat.not_lt_zero id)

/-! ## What stays -/

/-- The name, the parameters and the result of the open function. -/
def header (b : Builder) : Option (String × List (String × Ty) × Ty) :=
  b.openFn.map fun f => (f.name, f.params, f.returnTy)

@[simp] theorem header_modifyBlock (id : Nat) (f : Block → Block) :
    (b.modifyBlock id f).header = b.header := by
  unfold header modifyBlock
  cases b.openFn <;> rfl

@[simp] theorem header_append (code : List Inst) (next : Nat) :
    (b.append code next).header = b.header := by
  unfold append
  split
  · exact header_modifyBlock _ _
  · rfl

@[simp] theorem header_close (t : Terminator) : (b.close t).header = b.header := by
  unfold close
  split
  · exact header_modifyBlock _ _
  · rfl

@[simp] theorem header_addBlock (stem : String) : (b.addBlock stem).header = b.header := by
  unfold header addBlock
  cases b.openFn <;> rfl

@[simp] theorem header_moveTo (id : Nat) : (b.moveTo id).header = b.header :=
  rfl

@[simp] theorem header_allocIn (id : Nat) (ty : Ty) (name : String) :
    (b.allocIn id ty name).header = b.header :=
  header_modifyBlock _ _

theorem openFn_isSome_iff : b.openFn.isSome ↔ b.header.isSome := by
  simp [header]

theorem IsOpen.isSome (h : b.IsOpen) : b.openFn.isSome := by
  obtain ⟨f, hf⟩ := h.openFn
  simp [hf]

end Builder

/-- A block that only grew: instructions came behind the others, and a terminator stays. -/
structure Block.Grows (block block' : Block) : Prop where
  id : block'.id = block.id
  name : block'.name = block.name
  insts : block.insts.toList <+: block'.insts.toList
  terminator : ∀ t, block.terminator = some t → block'.terminator = some t

namespace Block.Grows

theorem refl (block : Block) : block.Grows block :=
  ⟨rfl, rfl, List.prefix_rfl, fun _ h => h⟩

theorem trans {block₁ block₂ block₃ : Block} (h : block₁.Grows block₂) (h' : block₂.Grows block₃) :
    block₁.Grows block₃ :=
  ⟨h'.id.trans h.id, h'.name.trans h.name, h.insts.trans h'.insts,
    fun t ht => h'.terminator t (h.terminator t ht)⟩

theorem append (block : Block) (code : List Inst) : block.Grows (block.append code) :=
  ⟨rfl, rfl, by simp, fun _ h => h⟩

theorem close {block : Block} (h : block.terminator = none) (t : Terminator) :
    block.Grows (block.close t) :=
  ⟨rfl, rfl, List.prefix_rfl, by simp [h]⟩

end Block.Grows

namespace Builder

/-- From `b₀` on nothing was touched but the block at the insertion point of `b₀` and blocks that are
new since then, and these only grew. The insertion point is in one of them. -/
structure Extends (b₀ b : Builder) : Prop where
  header : b.header = b₀.header
  output : b.output = b₀.output
  nextTemp_le : b₀.nextTemp ≤ b.nextTemp
  blockCount_le : b₀.blockCount ≤ b.blockCount
  insertion : b.insertion = b₀.insertion ∨ ∃ id, b.insertion = some id ∧ b₀.blockCount ≤ id
  kept : ∀ id, id < b₀.blockCount → b₀.insertion ≠ some id → b.block? id = b₀.block? id
  grown : ∀ id block, b₀.block? id = some block → ∃ block', b.block? id = some block' ∧
    block.Grows block'

namespace Extends

variable {b₀ b b' : Builder}

theorem refl (b : Builder) : b.Extends b :=
  ⟨rfl, rfl, Nat.le_refl _, Nat.le_refl _, .inl rfl, fun _ _ _ => rfl,
    fun _ block h => ⟨block, h, .refl block⟩⟩

/-- A block that is neither new nor the current one is not the current one later either. -/
theorem insertion_ne (h : b₀.Extends b) {id : Nat} (hid : id < b₀.blockCount)
    (hne : b₀.insertion ≠ some id) : b.insertion ≠ some id := by
  rcases h.insertion with heq | ⟨j, hj, hle⟩
  · rwa [heq]
  · rw [hj]
    simp only [ne_eq, Option.some.injEq]
    omega

theorem trans (h : b₀.Extends b) (h' : b.Extends b') : b₀.Extends b' where
  header := h'.header.trans h.header
  output := h'.output.trans h.output
  nextTemp_le := Nat.le_trans h.nextTemp_le h'.nextTemp_le
  blockCount_le := Nat.le_trans h.blockCount_le h'.blockCount_le
  insertion := by
    rcases h'.insertion with heq | ⟨j, hj, hle⟩
    · rw [heq]
      exact h.insertion
    · exact .inr ⟨j, hj, Nat.le_trans h.blockCount_le hle⟩
  kept id hid hne := by
    rw [h'.kept id (Nat.lt_of_lt_of_le hid h.blockCount_le) (h.insertion_ne hid hne),
      h.kept id hid hne]
  grown id block hblock := by
    obtain ⟨block₁, hblock₁, hgrows⟩ := h.grown id block hblock
    obtain ⟨block₂, hblock₂, hgrows'⟩ := h'.grown id block₁ hblock₁
    exact ⟨block₂, hblock₂, hgrows.trans hgrows'⟩

/-- One block of those that may be touched grows. -/
theorem touch (h : b₀.Extends b) {id : Nat} {f : Block → Block}
    (hid : b₀.insertion = some id ∨ b₀.blockCount ≤ id)
    (hblock : ∀ j, b'.block? j = if id = j then (b.block? j).map f else b.block? j)
    (hf : ∀ block, b.block? id = some block → block.Grows (f block))
    (hheader : b'.header = b.header) (houtput : b'.output = b.output)
    (hnext : b.nextTemp ≤ b'.nextTemp) (hcount : b'.blockCount = b.blockCount)
    (hins : b'.insertion = b.insertion) : b₀.Extends b' where
  header := hheader.trans h.header
  output := houtput.trans h.output
  nextTemp_le := Nat.le_trans h.nextTemp_le hnext
  blockCount_le := hcount ▸ h.blockCount_le
  insertion := hins ▸ h.insertion
  kept j hj hne := by
    have hidj : id ≠ j := by
      rintro rfl
      rcases hid with heq | hle
      · exact hne heq
      · omega
    rw [hblock, if_neg hidj, h.kept j hj hne]
  grown j block hj := by
    obtain ⟨block', hblock', hgrows⟩ := h.grown j block hj
    rw [hblock]
    split
    · next hidj =>
      subst hidj
      exact ⟨f block', by simp [hblock'], hgrows.trans (hf block' hblock')⟩
    · exact ⟨block', hblock', hgrows⟩

theorem current (h : b₀.Extends b) {id : Nat} (hid : b.insertion = some id) :
    b₀.insertion = some id ∨ b₀.blockCount ≤ id := by
  rcases h.insertion with heq | ⟨j, hj, hle⟩
  · exact .inl (heq ▸ hid)
  · rw [hj] at hid
    cases hid
    exact .inr hle

theorem append (h : b₀.Extends b) (hopen : b.IsOpen) (code : List Inst) {next : Nat}
    (hnext : b.nextTemp ≤ next) : b₀.Extends (b.append code next) := by
  obtain ⟨id, hid, -⟩ := hopen
  refine h.touch (f := (·.append code)) (h.current hid) (fun j => ?_)
    (fun block _ => .append block code) (by simp) (by simp) (by simpa) (by simp) (by simp)
  rw [block?_append, hid]
  simp

theorem close (h : b₀.Extends b) (hopen : b.IsOpen) (t : Terminator) : b₀.Extends (b.close t) := by
  obtain ⟨id, hid, hun⟩ := hopen
  refine h.touch (f := (·.close t)) (h.current hid) (fun j => ?_) (fun block hblock => ?_)
    (by simp) (by simp) (by simp) (by simp) (by simp)
  · rw [block?_close, hid]
    simp
  · obtain ⟨block', hblock', hnone⟩ := hun
    rw [hblock] at hblock'
    cases hblock'
    exact .close hnone t

theorem allocIn (h : b₀.Extends b) {id : Nat} (hid : b₀.insertion = some id ∨ b₀.blockCount ≤ id)
    (ty : Ty) (name : String) : b₀.Extends (b.allocIn id ty name) :=
  h.touch hid (block?_allocIn id ty name) (fun block _ => .append block _) (by simp) (by simp)
    (by simp) (by simp) (by simp)

theorem moveTo (h : b₀.Extends b) {id : Nat} (hid : b₀.insertion = some id ∨ b₀.blockCount ≤ id) :
    b₀.Extends (b.moveTo id) where
  header := h.header
  output := h.output
  nextTemp_le := h.nextTemp_le
  blockCount_le := h.blockCount_le
  insertion := hid.imp (·.symm) fun hle => ⟨id, rfl, hle⟩
  kept := h.kept
  grown := h.grown

theorem addBlock (h : b₀.Extends b) (hsome : b.openFn.isSome) (stem : String) :
    b₀.Extends (b.addBlock stem) where
  header := by rw [header_addBlock, h.header]
  output := h.output
  nextTemp_le := h.nextTemp_le
  blockCount_le := by
    rw [blockCount_addBlock stem hsome]
    exact Nat.le_succ_of_le h.blockCount_le
  insertion := h.insertion
  kept j hj hne := by
    have hlt := Nat.lt_of_lt_of_le hj h.blockCount_le
    rw [block?_addBlock stem hsome, if_neg (Nat.ne_of_lt hlt), h.kept j hj hne]
  grown j block hj := by
    obtain ⟨block', hblock', hgrows⟩ := h.grown j block hj
    have hlt := lt_blockCount hblock'
    exact ⟨block', by rw [block?_addBlock stem hsome, if_neg (Nat.ne_of_lt hlt), hblock'], hgrows⟩

theorem addBlocks (h : b₀.Extends b) (hsome : b.openFn.isSome) (stems : List String) :
    b₀.Extends (b.addBlocks stems) := by
  induction stems generalizing b with
  | nil => exact h
  | cons stem stems ih => exact ih (h.addBlock hsome stem) (by simpa using hsome)

end Extends

end Builder

namespace Build

open Builder

variable {b : Builder}

theorem emit_eq (h : b.IsOpen) (inst : Inst) : emit inst b = .ok () (b.append [inst] b.nextTemp) := by
  obtain ⟨id, hid, block, hblock, hopen⟩ := h
  obtain ⟨f, hf⟩ := IsOpen.openFn ⟨id, hid, block, hblock, hopen⟩
  simp only [block?, hf, Option.bind_some] at hblock
  simp [emit, insertionPoint, hid, hf, hblock, bind, EStateM.bind, get, getThe, MonadStateOf.get,
    EStateM.get, pure, EStateM.pure, Block.isTerminated, hopen, modify, modifyGet,
    MonadStateOf.modifyGet, EStateM.modifyGet, append, Block.append, modifyBlock]

theorem emitValue_eq (h : b.IsOpen) (inst : Nat → Inst) :
    emitValue inst b = .ok (.temp b.nextTemp) (b.append [inst b.nextTemp] (b.nextTemp + 1)) := by
  obtain ⟨id, hid, -⟩ := id h
  have h' : ({ b with nextTemp := b.nextTemp + 1 } : Builder).IsOpen := h
  have hemit := emit_eq h' (inst b.nextTemp)
  simp only [emitValue, newTemp, bind, EStateM.bind, modifyGet, MonadStateOf.modifyGet,
    EStateM.modifyGet, hemit]
  simp only [append, hid, modifyBlock]
  rfl

theorem terminate_eq (h : b.IsOpen) (t : Terminator) : terminate t b = .ok () (b.close t) := by
  obtain ⟨id, hid, block, hblock, hopen⟩ := h
  obtain ⟨f, hf⟩ := IsOpen.openFn ⟨id, hid, block, hblock, hopen⟩
  simp only [block?, hf, Option.bind_some] at hblock
  simp [terminate, insertionPoint, hid, hf, hblock, bind, EStateM.bind, get, getThe, MonadStateOf.get,
    EStateM.get, pure, EStateM.pure, Block.isTerminated, hopen, modify, modifyGet,
    MonadStateOf.modifyGet, EStateM.modifyGet, close, Block.close, modifyBlock]

theorem createBlock_eq (h : b.openFn.isSome) (stem : String) :
    createBlock stem b = .ok b.blockCount (b.addBlock stem) := by
  obtain ⟨f, hf⟩ := Option.isSome_iff_exists.mp h
  simp [createBlock, hf, bind, EStateM.bind, get, getThe, MonadStateOf.get,
    EStateM.get, pure, EStateM.pure, modify, modifyGet,
    MonadStateOf.modifyGet, EStateM.modifyGet, addBlock, freshName, blockCount]

theorem beginFunction_eq (h : b.openFn = none) (name : String) (params : List (String × Ty))
    (returnTy : Ty) :
    beginFunction name params returnTy b = .ok () (b.begin name params returnTy) := by
  simp [beginFunction, h, bind, EStateM.bind, get, getThe, MonadStateOf.get, EStateM.get, modify,
    modifyGet, MonadStateOf.modifyGet, EStateM.modifyGet, begin]

theorem finishFunction_eq {f : Function} (h : b.openFn = some f) (hall : ∀ id, ¬ b.Unfinished id) :
    finishFunction b = .ok () (b.finish f) := by
  have hfind : f.blocks.find? (!·.isTerminated) = none := by
    rw [Array.find?_eq_none]
    intro block hblock
    obtain ⟨id, hid, rfl⟩ := Array.mem_iff_getElem.mp hblock
    have := hall id
    simp only [Unfinished, block?, h, Option.bind_some, Array.getElem?_eq_getElem hid,
      Option.some.injEq, exists_eq_left', Block.isTerminated] at this ⊢
    simpa [Option.isSome_iff_ne_none] using this
  simp [finishFunction, h, hfind, bind, EStateM.bind, get, getThe, MonadStateOf.get, EStateM.get,
    modify, modifyGet, MonadStateOf.modifyGet, EStateM.modifyGet, finish]

theorem addGlobal_eq (name : String) (ty : Ty) (init : Option Value) :
    addGlobal name ty init b =
      .ok (.global name) { b with output := b.output.addGlobal ⟨name, ty, init⟩ } :=
  rfl

theorem position_eq (id : Nat) : position id b = .ok () (b.moveTo id) :=
  rfl

theorem allocaIn_eq {id : Nat} (h : id < b.blockCount) (ty : Ty) (name : String) :
    allocaIn id ty name b = .ok (.temp b.nextTemp) (b.allocIn id ty name) := by
  unfold blockCount at h
  cases hf : b.openFn with
  | none => simp [hf] at h
  | some f =>
    simp only [hf, Option.elim_some] at h
    simp [allocaIn, newTemp, hf, h, bind, EStateM.bind, get, getThe, MonadStateOf.get,
      EStateM.get, pure, EStateM.pure, modify, modifyGet,
      MonadStateOf.modifyGet, EStateM.modifyGet, allocIn, modifyBlock, Block.append]

theorem call_eq (h : b.IsOpen) (callee : String) (arguments : List Value) (givesValue : Bool) :
    call callee arguments givesValue b =
      if givesValue then
        .ok (some (.temp b.nextTemp))
          (b.append [.call (some b.nextTemp) callee arguments] (b.nextTemp + 1))
      else .ok none (b.append [.call none callee arguments] b.nextTemp) := by
  unfold call
  cases givesValue <;> simp [bind, EStateM.bind, emit_eq h, emitValue_eq h, pure, EStateM.pure]

/-- The constant that a conversion gives at once. -/
def foldConversion? : Conversion → Value → Option Value
  | .intToFloat, .int n => some (.float (floatOfInt n))
  | .floatToInt, .float x => some (.int (intOfFloat x))
  | .boolToInt, .bool b => some (.int (if b then 1 else 0))
  | .boolToFloat, .bool b => some (.float (if b then 1.0 else 0.0))
  | _, _ => none

theorem convert_eq (op : Conversion) (value : Value) :
    convert op value =
      match foldConversion? op value with
      | some folded => pure folded
      | none => emitValue (.convert · op value) := by
  cases op <;> cases value <;> rfl

/-- The constant that is a lane of a constant vector. -/
def foldLane? : Value → Nat → Option Value
  | .vector lanes, lane => lanes[lane]?.map .float
  | _, _ => none

theorem extractLane_eq (vector : Value) (lane : Nat) :
    extractLane vector lane =
      match foldLane? vector lane with
      | some folded => pure folded
      | none => emitValue (.extractLane · vector lane) := by
  cases vector <;> try rfl
  next lanes =>
    simp only [extractLane, foldLane?]
    cases lanes[lane]? <;> rfl

end Build

end Ir

namespace Lowering

open Ir (Builder Inst Build)

/-! ## Running an action -/

variable {α β : Type}

theorem Emit.bind_eq {x : Emit α} {f : α → Emit β} {b b' : Builder} {a : α} (h : x b = .ok a b') :
    (x >>= f) b = f a b' := by
  simp [bind, EStateM.bind, h]

theorem Emit.bind_eq_ok {x : Emit α} {f : α → Emit β} {b b'' : Builder} {c : β} :
    (x >>= f) b = .ok c b'' ↔ ∃ a b', x b = .ok a b' ∧ f a b' = .ok c b'' := by
  simp only [bind, EStateM.bind]
  cases x b with
  | ok a b' =>
    constructor
    · intro h
      exact ⟨a, b', rfl, h⟩
    · rintro ⟨a', b₁, h, hf⟩
      cases h
      exact hf
  | error => simp

theorem Emit.lift_eq {x : Build α} {b b' : Builder} {a : α} (h : x b = .ok a b') :
    (liftM x : Emit α) b = .ok a b' := by
  simp [liftM, monadLift, MonadLift.monadLift, Emit.ofBuild, h]

theorem Emit.lift_bind (x : Build α) (f : α → Build β) :
    (liftM (x >>= f) : Emit β) = (liftM x : Emit α) >>= fun a => liftM (f a) := by
  funext b
  simp only [liftM, monadLift, MonadLift.monadLift, Emit.ofBuild, bind, EStateM.bind]
  cases x b <;> rfl

/-! ## Straight-line code -/

/-- The results of the instructions are the temporary values from `n` on and below `n'`, in order. -/
def Numbered (n : Nat) (code : List Inst) (n' : Nat) : Prop :=
  n ≤ n' ∧ code.filterMap Inst.result? = List.range' n (n' - n)

theorem Numbered.nil (n : Nat) : Numbered n [] n := by
  simp [Numbered]

theorem Numbered.append {n m n' : Nat} {c d : List Inst} (hc : Numbered n c m)
    (hd : Numbered m d n') : Numbered n (c ++ d) n' := by
  refine ⟨Nat.le_trans hc.1 hd.1, ?_⟩
  have hnm := hc.1
  have hmn' := hd.1
  rw [List.filterMap_append, hc.2, hd.2]
  have hm : m = n + (m - n) := by omega
  rw [hm, Nat.add_sub_cancel_left, List.range'_append_1]
  congr 1
  omega

theorem Numbered.of_result {n : Nat} {inst : Inst} (h : inst.result? = some n) :
    Numbered n [inst] (n + 1) := by
  simp [Numbered, h]

theorem Numbered.of_no_result {n : Nat} {inst : Inst} (h : inst.result? = none) :
    Numbered n [inst] n := by
  simp [Numbered, h]

/-- In an open block the action gives a value and appends instructions; both depend only on the
number of the next temporary value and have the property `Q`, as has the next number behind them. -/
def Linear (x : Emit α) (n : Nat) (Q : α → List Inst → Nat → Prop) : Prop :=
  ∃ a code n', Numbered n code n' ∧
    (∀ b : Builder, b.IsOpen → b.nextTemp = n → x b = .ok a (b.append code n')) ∧ Q a code n'

namespace Linear

variable {x : Emit α} {n : Nat} {P Q : α → List Inst → Nat → Prop}

theorem imp (h : Linear x n P) (hPQ : ∀ a code n', P a code n' → Q a code n') : Linear x n Q :=
  let ⟨a, code, n', hcode, hx, hP⟩ := h
  ⟨a, code, n', hcode, hx, hPQ a code n' hP⟩

theorem pure {a : α} (h : Q a [] n) : Linear (pure a) n Q := by
  refine ⟨a, [], n, .nil n, fun b _ hn => ?_, h⟩
  rw [← hn, Builder.append_nil]
  rfl

theorem bind {f : α → Emit β} {Q : β → List Inst → Nat → Prop} (hx : Linear x n P)
    (hf : ∀ a c m, P a c m → Linear (f a) m fun b d n' => Q b (c ++ d) n') :
    Linear (x >>= f) n Q := by
  obtain ⟨a, c, m, hc, hx, hP⟩ := hx
  obtain ⟨r, d, n', hd, hf, hQ⟩ := hf a c m hP
  refine ⟨r, c ++ d, n', hc.append hd, fun b hb hn => ?_, hQ⟩
  rw [Emit.bind_eq (hx b hb hn), hf _ ((Builder.IsOpen.append c m).mpr hb) (by simp),
    Builder.append_append]

theorem emit {inst : Inst} {Q : Unit → List Inst → Nat → Prop} (hr : inst.result? = none)
    (h : Q () [inst] n) : Linear (liftM (Build.emit inst)) n Q := by
  refine ⟨(), [inst], n, .of_no_result hr, fun b hb hn => ?_, h⟩
  rw [Emit.lift_eq (Build.emit_eq hb inst), hn]

theorem emitValue {inst : Nat → Inst} {Q : Ir.Value → List Inst → Nat → Prop}
    (hr : (inst n).result? = some n) (h : Q (.temp n) [inst n] (n + 1)) :
    Linear (liftM (Build.emitValue inst)) n Q := by
  refine ⟨.temp n, [inst n], n + 1, .of_result hr, fun b hb hn => ?_, h⟩
  rw [Emit.lift_eq (Build.emitValue_eq hb inst), hn]

/-- A conversion is one instruction, or none for a constant of the right kind. -/
theorem convert {op : Ir.Conversion} {value : Ir.Value} {Q : Ir.Value → List Inst → Nat → Prop}
    (hfold : ∀ folded, Build.foldConversion? op value = some folded → Q folded [] n)
    (hinst : Build.foldConversion? op value = none → Q (.temp n) [.convert n op value] (n + 1)) :
    Linear (liftM (Build.convert op value)) n Q := by
  rw [Build.convert_eq]
  split
  · next folded h => exact pure (hfold folded h)
  · next h => exact emitValue rfl (hinst h)

/-- Reading a lane is one instruction, or none for a lane of a constant. -/
theorem extractLane {vector : Ir.Value} {lane : Nat} {Q : Ir.Value → List Inst → Nat → Prop}
    (hfold : ∀ folded, Build.foldLane? vector lane = some folded → Q folded [] n)
    (hinst : Build.foldLane? vector lane = none →
      Q (.temp n) [.extractLane n vector lane] (n + 1)) :
    Linear (liftM (Build.extractLane vector lane)) n Q := by
  rw [Build.extractLane_eq]
  split
  · next folded h => exact pure (hfold folded h)
  · next h => exact emitValue rfl (hinst h)

theorem call {callee : String} {arguments : List Ir.Value} {givesValue : Bool}
    {Q : Option Ir.Value → List Inst → Nat → Prop}
    (hvalue : givesValue = true → Q (some (.temp n)) [.call (some n) callee arguments] (n + 1))
    (hnone : givesValue = false → Q none [.call none callee arguments] n) :
    Linear (liftM (Build.call callee arguments givesValue)) n Q := by
  cases givesValue with
  | true =>
    refine ⟨_, _, _, .of_result rfl, fun b hb hn => ?_, hvalue rfl⟩
    rw [Emit.lift_eq (Build.call_eq hb callee arguments true), hn]
  | false =>
    refine ⟨_, _, _, .of_no_result rfl, fun b hb hn => ?_, hnone rfl⟩
    rw [Emit.lift_eq (Build.call_eq hb callee arguments false), hn]

/-- A loop over a list, with an invariant between its rounds. -/
theorem foldlM {ι : Type} {f : α → ι → Emit α} (Inv : List ι → α → List Inst → Nat → Prop)
    (hf : ∀ done i a c m, Inv done a c m →
      Linear (f a i) m fun a' d m' => Inv (done ++ [i]) a' (c ++ d) m') :
    ∀ (todo done : List ι) (a : α) (c : List Inst) (m : Nat), Inv done a c m →
      Linear (todo.foldlM f a) m fun a' d m' => Inv (done ++ todo) a' (c ++ d) m'
  | [], done, a, c, m, h => by
    refine pure ?_
    simpa using h
  | i :: todo, done, a, c, m, h => by
    rw [List.foldlM_cons]
    refine bind (hf done i a c m h) fun a' d m' h' => ?_
    refine (foldlM Inv hf todo (done ++ [i]) a' (c ++ d) m' h').imp fun a'' e m'' h'' => ?_
    simpa using h''

end Linear

end Lowering

end ShaderLang
