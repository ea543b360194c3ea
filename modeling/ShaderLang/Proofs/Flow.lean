import ShaderLang.Proofs.Emission

/-!
# Control flow under construction

How a builder changes while code with several blocks is added to it. An expression goes from an open
block to an open block and leaves no other block unfinished that was not (`Flows`). A statement may
close the block that it ends in (`Settles`). The blocks of a construct are added and left by one
terminator (`fork`); then each is filled and closed (`Closes`).
-/

namespace ShaderLang

namespace Ir.Builder

/-- From one open builder to another, with the same blocks that still wait for a terminator. -/
structure Flows (b b' : Builder) : Prop where
  isOpen : b'.IsOpen
  waits : ∀ id, b'.Waits id ↔ b.Waits id
  ext : b.Extends b'

namespace Flows

variable {b b' b'' : Builder}

theorem refl (h : b.IsOpen) : b.Flows b :=
  ⟨h, fun _ => Iff.rfl, .refl b⟩

theorem trans (h : b.Flows b') (h' : b'.Flows b'') : b.Flows b'' :=
  ⟨h'.isOpen, fun id => (h'.waits id).trans (h.waits id), h.ext.trans h'.ext⟩

theorem append (h : b.IsOpen) (code : List Inst) {next : Nat} (hnext : b.nextTemp ≤ next) :
    b.Flows (b.append code next) where
  isOpen := (IsOpen.append code next).mpr h
  waits id := by simp [Waits, Unfinished.append]
  ext := .append (.refl b) h code hnext

end Flows

/-- A block may be changed by code that begins in a builder: it is the current one, or new. -/
def Reaches (b : Builder) (id : Nat) : Prop :=
  b.insertion = some id ∨ b.blockCount ≤ id

/-- One block, and what follows it, is filled and closed, and no other one is touched. -/
structure Closes (b : Builder) (id : Nat) (b' : Builder) : Prop where
  unfinished : ∀ j, b'.Unfinished j ↔ b.Unfinished j ∧ j ≠ id
  ext : (b.moveTo id).Extends b'

theorem Closes.extends {b₀ b b' : Builder} {id : Nat} (h : b.Closes id b') (h₀ : b₀.Extends b)
    (hid : b₀.Reaches id) : b₀.Extends b' :=
  (h₀.moveTo hid).trans h.ext

/-- The blocks of a construct are added, and the current block goes to some of them. -/
def fork (b : Builder) (stems : List String) (t : Terminator) : Builder :=
  (b.addBlocks stems).close t

section

variable {b b' : Builder} (stems : List String) (t : Terminator)

theorem IsOpen.addBlocks (h : b.IsOpen) : (b.addBlocks stems).IsOpen := by
  obtain ⟨id, hid, hun⟩ := id h
  exact ⟨id, by simpa using hid, (Unfinished.addBlocks stems h.isSome).mpr (.inl hun)⟩

theorem unfinished_fork (h : b.IsOpen) (id : Nat) :
    (b.fork stems t).Unfinished id ↔
      b.Waits id ∨ (b.blockCount ≤ id ∧ id < b.blockCount + stems.length) := by
  have hsome := h.isSome
  obtain ⟨cur, hcur, hun⟩ := h
  have hlt := hun.lt
  rw [fork, Unfinished.close, Unfinished.addBlocks stems hsome, insertion_addBlocks, Waits, hcur]
  grind

theorem Extends.fork {b₀ : Builder} (h : b₀.Extends b) (hb : b.IsOpen) :
    b₀.Extends (b.fork stems t) :=
  (h.addBlocks hb.isSome stems).close (hb.addBlocks stems) _

theorem blockCount_fork (h : b.IsOpen) :
    (b.fork stems t).blockCount = b.blockCount + stems.length := by
  rw [Builder.fork, blockCount_close, blockCount_addBlocks stems h.isSome]

/-- Code that goes on to an open block, and a terminator. -/
theorem Flows.closes {id : Nat} (h : (b.moveTo id).Flows b') :
    b.Closes id (b'.close t) where
  unfinished j := by
    have hw := h.waits j
    simp only [Waits, Unfinished.moveTo, insertion_moveTo] at hw
    rw [Unfinished.close, hw]
    simp [eq_comm]
  ext := h.ext.close h.isOpen t

end

/-! ## Statements -/

/-- The insertion point is at a block of the open function. -/
def Placed (b : Builder) : Prop :=
  ∃ id, b.insertion = some id ∧ id < b.blockCount

/-- From one builder to another, with the same blocks that still wait for a terminator. -/
structure Settles (b b' : Builder) : Prop where
  placed : b'.Placed
  waits : ∀ id, b'.Waits id ↔ b.Waits id
  ext : b.Extends b'

variable {b b' b'' : Builder}

theorem IsOpen.placed (h : b.IsOpen) : b.Placed :=
  let ⟨id, hid, hun⟩ := h
  ⟨id, hid, hun.lt⟩

theorem Placed.isSome (h : b.Placed) : b.openFn.isSome := by
  obtain ⟨id, -, hlt⟩ := h
  cases hf : b.openFn with
  | none => simp [blockCount, hf] at hlt
  | some f => rfl

theorem Placed.isTerminated (h : b.Placed) : b.isTerminated = false ↔ b.IsOpen := by
  obtain ⟨id, hid, hlt⟩ := h
  obtain ⟨block, hblock⟩ := Option.isSome_iff_exists.mp (block?_isSome_iff.mpr hlt)
  have hins : b.insertionBlock? = some block := by
    unfold block? at hblock
    cases hf : b.openFn with
    | none => simp [hf] at hblock
    | some f => simpa [insertionBlock?, hf, hid] using hblock
  simp only [Builder.isTerminated, hins, Option.any_some, Block.isTerminated, IsOpen, Unfinished, hid]
  constructor
  · intro h
    exact ⟨id, rfl, block, hblock, by simpa using h⟩
  · rintro ⟨_, ⟨⟩, block', hblock', hnone⟩
    rw [hblock] at hblock'
    cases hblock'
    simp [hnone]

theorem Flows.settles (h : b.Flows b') : b.Settles b' :=
  ⟨h.isOpen.placed, h.waits, h.ext⟩

namespace Settles

theorem refl (h : b.Placed) : b.Settles b :=
  ⟨h, fun _ => Iff.rfl, .refl b⟩

theorem trans (h : b.Settles b') (h' : b'.Settles b'') : b.Settles b'' :=
  ⟨h'.placed, fun id => (h'.waits id).trans (h.waits id), h.ext.trans h'.ext⟩

/-- A terminator closes the block that waits for nothing but it. -/
theorem close (h : b.Settles b') (hopen : b'.IsOpen) (t : Terminator) : b.Settles (b'.close t) where
  placed := by
    obtain ⟨id, hid, hlt⟩ := h.placed
    exact ⟨id, by simpa using hid, by simpa using hlt⟩
  waits id := by
    rw [← h.waits id, Waits, Waits, Unfinished.close, insertion_close]
    simp
  ext := h.ext.close hopen t

/-- A block is closed as soon as what follows it has no open end. -/
theorem closes {id : Nat} (h : (b.moveTo id).Settles b') (hopen : ¬ b'.IsOpen) : b.Closes id b' where
  unfinished j := by
    have hw := h.waits j
    simp only [Waits, Unfinished.moveTo, insertion_moveTo] at hw
    have hj : b'.Unfinished j → b'.insertion ≠ some j := fun hun hins => hopen ⟨j, hins, hun⟩
    grind
  ext := h.ext

end Settles

/-- Several blocks, and what follows them, are filled and closed, and no other one is touched. -/
structure ClosesAll (b : Builder) (ids : List Nat) (b' : Builder) : Prop where
  unfinished : ∀ j, b'.Unfinished j ↔ b.Unfinished j ∧ j ∉ ids
  ext : ∀ b₀ : Builder, b₀.Extends b → (∀ id ∈ ids, b₀.Reaches id) → b₀.Extends b'

namespace ClosesAll

theorem nil (b : Builder) : b.ClosesAll [] b :=
  ⟨by simp, fun _ h _ => h⟩

theorem cons {id : Nat} {ids : List Nat} (h : b.Closes id b') (h' : b'.ClosesAll ids b'') :
    b.ClosesAll (id :: ids) b'' where
  unfinished j := by
    rw [h'.unfinished, h.unfinished, List.mem_cons, not_or, and_assoc]
  ext b₀ h₀ hids :=
    h'.ext b₀ (h.extends h₀ (hids id List.mem_cons_self)) fun j hj =>
      hids j (List.mem_cons_of_mem _ hj)

theorem singleton {id : Nat} (h : b.Closes id b') : b.ClosesAll [id] b' :=
  .cons h (.nil b')

end ClosesAll

/-- All blocks of a construct but one are closed, and control goes on in that one. -/
theorem ClosesAll.flows {stems : List String} {t : Terminator} {ids : List Nat}
    (h : (b.fork stems t).ClosesAll ids b') (hb : b.IsOpen) (last : Nat)
    (hids : ∀ id, id ∈ ids ∨ id = last ↔ b.blockCount ≤ id ∧ id < b.blockCount + stems.length)
    (hlast : last ∉ ids) : b.Flows (b'.moveTo last) := by
  have hun : ∀ id, b'.Unfinished id ↔ b.Waits id ∨ id = last := by
    intro id
    have hold : b.Waits id → id < b.blockCount := fun h => h.1.lt
    rw [h.unfinished, unfinished_fork stems t hb]
    grind
  have hle : ∀ id ∈ ids, b.blockCount ≤ id := fun id hid => ((hids id).mp (.inl hid)).1
  have hlastle := ((hids last).mp (.inr rfl)).1
  refine ⟨isOpen_moveTo.mpr ((hun last).mpr (.inr rfl)), fun id => ?_, ?_⟩
  · have hold : b.Waits id → id < b.blockCount := fun h => h.1.lt
    rw [Waits, Unfinished.moveTo, hun, insertion_moveTo]
    grind
  · exact (h.ext b ((Extends.refl b).fork stems t hb) fun id hid => .inr (hle id hid)).moveTo (.inr hlastle)

end Ir.Builder

end ShaderLang
