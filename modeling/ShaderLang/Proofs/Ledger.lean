import ShaderLang.Proofs.Draft
import ShaderLang.Proofs.Reading
import ShaderLang.Proofs.Ssa

/-!
# Ledgers

What is kept in mind of a function while it is filled. An address points into a variable, its *root*;
the address of an element has the root of its array. A constant variable has a *seal*, which says
where its one store stands. A ledger has the roots of all temporary values and the seals of the
constant variables passed so far. It *covers* a builder if every instruction goes by it: no store but
the one that a seal names goes to a constant variable, and parameters are read in the prologue of the
function only (`Ledger.Covers`).

`Tracks` says of an action that what it adds is covered by a ledger that says more.
-/

namespace ShaderLang

namespace Ir

/-- Whether an operand is neither a parameter nor a function, and no global variable but one of
these. -/
def Value.isPlain (globals : List String) : Value → Bool
  | param _ | function _ => false
  | global name => name ∈ globals
  | _ => true

/-- What an address points into, if the roots of this many temporary values are known. -/
def Value.root? (roots : List Value) : Value → Option Value
  | temp t => roots[t]?
  | v => some v

/-- The names of the program that are written in an instruction. -/
def Inst.names : Inst → List String
  | alloca _ _ name => [name]
  | call _ callee _ => [callee]
  | _ => []

/-- Whether an instruction neither writes nor gives the address of an element. -/
def Inst.isSimple : Inst → Bool
  | store .. | elementAddress .. => false
  | _ => true

/-- A store: the block that it stands in, the number of instructions before it, and what is
stored. -/
structure Writing where
  block : Nat
  index : Nat
  value : Value

/-- A constant variable: its address, and the store of its first value if it gets one. -/
structure Seal where
  slot : Value
  first : Option Writing

theorem Value.root?_append {roots : List Value} (more : List Value) {v root : Value}
    (h : v.root? roots = some root) : v.root? (roots ++ more) = some root := by
  cases v with
  | temp t =>
    have hlt := (List.getElem?_eq_some_iff.mp h).1
    rw [root?, List.getElem?_append_left hlt]
    exact h
  | _ => exact h

/-- The names of the global variables, the roots of the temporary values, and the seals of constant
variables. -/
structure Ledger where
  globals : List String
  roots : List Value
  seals : List Seal
  rooted : ∀ root ∈ roots, root.root? roots = some root
  sealed : ∀ s ∈ seals, s.slot.root? roots = some s.slot

namespace Ledger

variable {l l' l'' : Ledger} {v root : Value}

/-- The next temporary value. -/
def fresh (l : Ledger) : Value :=
  .temp l.roots.length

theorem root?_fresh : l.fresh.root? l.roots = none := by
  simp [fresh, Value.root?]

/-- One more temporary value: a new slot, which may be sealed, or one that points into something
known. -/
def grow (l : Ledger) (root : Value) (more : List Seal)
    (hroot : root = l.fresh ∨ root.root? l.roots = some root)
    (hmore : ∀ s ∈ more, s.slot = l.fresh ∧ root = l.fresh) : Ledger where
  globals := l.globals
  roots := l.roots ++ [root]
  seals := l.seals ++ more
  rooted r hr := by
    rcases List.mem_append.mp hr with hr | hr
    · exact Value.root?_append _ (l.rooted r hr)
    · rw [List.mem_singleton.mp hr]
      rcases hroot with rfl | hroot
      · simp [fresh, Value.root?]
      · exact Value.root?_append _ hroot
  sealed s hs := by
    rcases List.mem_append.mp hs with hs | hs
    · exact Value.root?_append _ (l.sealed s hs)
    · obtain ⟨hslot, rfl⟩ := hmore s hs
      simp [hslot, fresh, Value.root?]

/-- A temporary value that is its own root. -/
def addTemp (l : Ledger) : Ledger :=
  l.grow l.fresh [] (.inl rfl) (by simp)

/-- What a value points into is its own root. -/
theorem root?_root (h : v.root? l.roots = some root) : root.root? l.roots = some root := by
  cases v with
  | temp t => exact l.rooted root (List.mem_of_getElem? h)
  | _ =>
    cases h
    rfl

/-- A ledger that says more. Only slots that are new since then have been sealed. -/
structure Extends (l l' : Ledger) : Prop where
  globals : l'.globals = l.globals
  roots : l.roots <+: l'.roots
  seals : ∀ s ∈ l.seals, s ∈ l'.seals
  fresh : ∀ s ∈ l'.seals, s ∈ l.seals ∨ s.slot.root? l.roots = none

namespace Extends

theorem refl (l : Ledger) : l.Extends l :=
  ⟨rfl, List.prefix_rfl, fun _ h => h, fun _ h => .inl h⟩

theorem root? (h : l.Extends l') (hv : v.root? l.roots = some root) :
    v.root? l'.roots = some root := by
  obtain ⟨more, hmore⟩ := h.roots
  rw [← hmore]
  exact Value.root?_append more hv

theorem trans (h : l.Extends l') (h' : l'.Extends l'') : l.Extends l'' where
  globals := h'.globals.trans h.globals
  roots := h.roots.trans h'.roots
  seals s hs := h'.seals s (h.seals s hs)
  fresh s hs := by
    rcases h'.fresh s hs with hs | hnone
    · exact h.fresh s hs
    · right
      cases hroot : s.slot.root? l.roots with
      | none => rfl
      | some root =>
        rw [h.root? hroot] at hnone
        cases hnone

theorem grow (l : Ledger) (root : Value) (more : List Seal)
    (hroot : root = l.fresh ∨ root.root? l.roots = some root)
    (hmore : ∀ s ∈ more, s.slot = l.fresh ∧ root = l.fresh) :
    l.Extends (l.grow root more hroot hmore) where
  globals := rfl
  roots := List.prefix_append _ _
  seals s hs := List.mem_append_left _ hs
  fresh s hs := by
    rcases List.mem_append.mp hs with hs | hs
    · exact .inl hs
    · right
      rw [(hmore s hs).1]
      exact root?_fresh

theorem addTemp (l : Ledger) : l.Extends l.addTemp :=
  .grow l l.fresh [] (.inl rfl) (by simp)

/-- What was known before has not been sealed since. -/
theorem seal_of_root? (h : l.Extends l') (hv : v.root? l.roots = some root) {s : Seal}
    (hs : s ∈ l'.seals) (hslot : s.slot = root) : s ∈ l.seals := by
  refine (h.fresh s hs).resolve_right fun hnone => ?_
  rw [hslot, root?_root hv] at hnone
  cases hnone

end Extends

/-- The value is an operand that may be read anywhere, and no temporary value that is still to
come. -/
def Knows (l : Ledger) (v : Value) : Prop :=
  v.isPlain l.globals = true ∧ (v.root? l.roots).isSome

/-- The value is an address that may be written through. -/
def Opens (l : Ledger) (v : Value) : Prop :=
  v.isPlain l.globals = true ∧ ∃ root, v.root? l.roots = some root ∧ ∀ s ∈ l.seals, s.slot ≠ root

theorem Knows.mono (h : l.Knows v) (hl : l.Extends l') : l'.Knows v := by
  obtain ⟨hplain, hroot⟩ := h
  obtain ⟨root, hroot⟩ := Option.isSome_iff_exists.mp hroot
  exact ⟨by rw [hl.globals, hplain], by rw [hl.root? hroot]; rfl⟩

theorem Opens.knows (h : l.Opens v) : l.Knows v := by
  obtain ⟨hplain, root, hroot, -⟩ := h
  exact ⟨hplain, by rw [hroot]; rfl⟩

theorem Opens.mono (h : l.Opens v) (hl : l.Extends l') : l'.Opens v := by
  obtain ⟨hplain, root, hroot, hopen⟩ := h
  refine ⟨by rw [hl.globals, hplain], root, hl.root? hroot, fun s hs hslot => ?_⟩
  exact hopen s (hl.seal_of_root? hroot hs hslot) hslot

/-- A value that is no temporary one is known everywhere. -/
theorem Knows.plain (hplain : v.isPlain l.globals = true) (h : v.temp? = none) : l.Knows v := by
  refine ⟨hplain, ?_⟩
  cases v with
  | temp t => cases h
  | _ => rfl

theorem opens_addTemp : l.addTemp.Opens l.fresh := by
  refine ⟨rfl, l.fresh, by simp [addTemp, grow, fresh, Value.root?], ?_⟩
  intro s hs heq
  have hold : s ∈ l.seals := by simpa [addTemp, grow] using hs
  have hsealed := l.sealed s hold
  rw [heq, root?_fresh] at hsealed
  cases hsealed

end Ledger

/-! ## Instructions that go by a ledger -/

/-- What is asked of a function: how many instructions at its beginning may read parameters, and
whether the names in it have been read from a text. -/
structure Rules where
  prologue : Nat
  reads : Prop

variable {rules : Rules} {l l' : Ledger}

/-- An instruction goes by the ledger at a place. -/
structure Ledger.Admits (rules : Rules) (l : Ledger) (block index : Nat) (inst : Inst) : Prop where
  operands : block = 0 ∧ index < rules.prologue ∨
    ∀ v ∈ inst.operands, v.isPlain l.globals = true
  names : rules.reads → ∀ name ∈ inst.names, Token.IsName name
  element : ∀ t base position, inst = .elementAddress t base position →
    ∃ root, base.root? l.roots = some root ∧ l.roots[t]? = some root
  store : ∀ address value, inst = .store address value →
    ∃ root, address.root? l.roots = some root ∧
      ∀ s ∈ l.seals, s.slot = root → s.first = some ⟨block, index, value⟩

namespace Ledger.Admits

variable {block index : Nat} {inst : Inst}

theorem mono (h : l.Admits rules block index inst) (hl : l.Extends l') :
    l'.Admits rules block index inst where
  operands := by
    rw [hl.globals]
    exact h.operands
  names := h.names
  element t base position hinst := by
    obtain ⟨root, hbase, ht⟩ := h.element t base position hinst
    exact ⟨root, hl.root? hbase, hl.root? (v := .temp t) ht⟩
  store address value hinst := by
    obtain ⟨root, haddress, hseals⟩ := h.store address value hinst
    refine ⟨root, hl.root? haddress, fun s hs hslot => ?_⟩
    exact hseals s (hl.seal_of_root? haddress hs hslot) hslot

/-- Instructions other than stores and addresses of elements only read what is known. -/
theorem of_simple (hsimple : inst.isSimple = true) (hoperands : ∀ v ∈ inst.operands, l.Knows v)
    (hnames : rules.reads → ∀ name ∈ inst.names, Token.IsName name) :
    l.Admits rules block index inst where
  operands := .inr fun v hv => (hoperands v hv).1
  names := hnames
  element t base position h := by
    rw [h] at hsimple
    cases hsimple
  store address value h := by
    rw [h] at hsimple
    cases hsimple

end Ledger.Admits

/-- All that is in a block goes by the ledger. -/
structure Ledger.CoversBlock (rules : Rules) (l : Ledger) (id : Nat) (block : Block) : Prop where
  insts : ∀ index inst, block.insts[index]? = some inst → l.Admits rules id index inst
  terminator : ∀ t ∈ block.terminator, ∀ v ∈ t.operands, v.isPlain l.globals = true

namespace Ledger.CoversBlock

variable {id : Nat} {block : Block}

theorem mono (h : l.CoversBlock rules id block) (hl : l.Extends l') :
    l'.CoversBlock rules id block :=
  ⟨fun index inst hi => (h.insts index inst hi).mono hl, by rw [hl.globals]; exact h.terminator⟩

theorem empty (name : String) : l.CoversBlock rules id (.empty id name) where
  insts index inst hi := by simp at hi
  terminator t ht := by simp at ht

theorem append (h : l.CoversBlock rules id block) {inst : Inst}
    (hi : l.Admits rules id block.insts.size inst) : l.CoversBlock rules id (block.append [inst]) where
  insts index other ho := by
    rw [Block.insts_append, Array.getElem?_append] at ho
    split at ho
    · exact h.insts index other ho
    · next hge =>
      have hzero : index - block.insts.size = 0 := by
        have := (Array.getElem?_eq_some_iff.mp ho).1
        simpa using this
      rw [hzero] at ho
      cases ho
      have heq : index = block.insts.size := by omega
      exact heq ▸ hi
  terminator := h.terminator

theorem close (h : l.CoversBlock rules id block) {t : Terminator}
    (ht : ∀ v ∈ t.operands, v.isPlain l.globals = true) : l.CoversBlock rules id (block.close t) where
  insts := h.insts
  terminator other ho := by
    rw [Block.terminator_close, Option.mem_some] at ho
    rw [← ho]
    exact ht

end Ledger.CoversBlock

/-- All that is in the open function goes by the ledger, which knows all of its temporary values. -/
structure Ledger.Covers (rules : Rules) (l : Ledger) (b : Builder) : Prop where
  length : l.roots.length = b.nextTemp
  blocks : ∀ id block, b.block? id = some block → l.CoversBlock rules id block

namespace Ledger.Covers

variable {b : Builder}

theorem fresh_eq (h : l.Covers rules b) : l.fresh = .temp b.nextTemp := by
  rw [fresh, h.length]

theorem append (h : l.Covers rules b) (hl : l.Extends l') {inst : Inst}
    (hi : ∀ id block, b.insertion = some id → b.block? id = some block →
      l'.Admits rules id block.insts.size inst) :
    l'.Covers rules (b.append [inst] l'.roots.length) where
  length := by rw [Builder.nextTemp_append]
  blocks id block hblock := by
    rw [Builder.block?_append] at hblock
    split at hblock
    · next hid =>
      obtain ⟨old, hold, rfl⟩ := Option.map_eq_some_iff.mp hblock
      exact ((h.blocks id old hold).mono hl).append (hi id old hid hold)
    · exact (h.blocks id block hblock).mono hl

theorem close (h : l.Covers rules b) {t : Terminator}
    (ht : ∀ v ∈ t.operands, v.isPlain l.globals = true) : l.Covers rules (b.close t) where
  length := by rw [Builder.nextTemp_close, h.length]
  blocks id block hblock := by
    rw [Builder.block?_close] at hblock
    split at hblock
    · obtain ⟨old, hold, rfl⟩ := Option.map_eq_some_iff.mp hblock
      exact (h.blocks id old hold).close ht
    · exact h.blocks id block hblock

theorem addBlock (h : l.Covers rules b) (hb : b.openFn.isSome) (stem : String) :
    l.Covers rules (b.addBlock stem) where
  length := h.length
  blocks id block hblock := by
    rw [Builder.block?_addBlock stem hb] at hblock
    split at hblock
    · cases hblock
      exact .empty _
    · exact h.blocks id block hblock

theorem moveTo (h : l.Covers rules b) (id : Nat) : l.Covers rules (b.moveTo id) :=
  ⟨h.length, h.blocks⟩

theorem allocIn (h : l.Covers rules b) (id : Nat) (ty : Ty) {name : String}
    (hname : rules.reads → Token.IsName name) : l.addTemp.Covers rules (b.allocIn id ty name) where
  length := by
    rw [Builder.nextTemp_allocIn, ← h.length]
    simp [addTemp, grow]
  blocks j block hblock := by
    have hl : l.Extends l.addTemp := .addTemp l
    rw [Builder.block?_allocIn] at hblock
    split at hblock
    · obtain ⟨old, hold, rfl⟩ := Option.map_eq_some_iff.mp hblock
      refine ((h.blocks j old hold).mono hl).append (.of_simple rfl (by simp [Inst.operands]) ?_)
      simpa [Inst.names] using hname
    · exact (h.blocks j block hblock).mono hl

end Ledger.Covers

/-- An instruction stands at a place in the open function. -/
def Builder.Has (b : Builder) (id index : Nat) (inst : Inst) : Prop :=
  ∃ block, b.block? id = some block ∧ block.insts[index]? = some inst

/-- Every instruction stays where it is. -/
def Builder.Lasts (b b' : Builder) : Prop :=
  ∀ id index inst, b.Has id index inst → b'.Has id index inst

namespace Builder.Lasts

variable {b b' b'' : Builder}

theorem refl (b : Builder) : b.Lasts b :=
  fun _ _ _ h => h

theorem trans (h : b.Lasts b') (h' : b'.Lasts b'') : b.Lasts b'' :=
  fun id index inst hi => h' id index inst (h id index inst hi)

/-- The blocks have become longer. -/
theorem of_blocks (h : ∀ id block, b.block? id = some block → ∃ block', b'.block? id = some block' ∧
    block.insts.toList <+: block'.insts.toList) : b.Lasts b' := by
  rintro id index inst ⟨block, hblock, hi⟩
  obtain ⟨block', hblock', more, hmore⟩ := h id block hblock
  refine ⟨block', hblock', ?_⟩
  rw [← Array.getElem?_toList] at hi ⊢
  rw [← hmore, List.getElem?_append_left (List.getElem?_eq_some_iff.mp hi).1]
  exact hi

theorem append (b : Builder) (code : List Inst) (next : Nat) : b.Lasts (b.append code next) := by
  refine of_blocks fun j block hblock => ?_
  rw [block?_append, hblock]
  split
  · exact ⟨block.append code, rfl, by simp⟩
  · exact ⟨block, rfl, List.prefix_rfl⟩

theorem close (b : Builder) (t : Terminator) : b.Lasts (b.close t) := by
  refine of_blocks fun j block hblock => ?_
  rw [block?_close, hblock]
  split
  · exact ⟨block.close t, rfl, List.prefix_rfl⟩
  · exact ⟨block, rfl, List.prefix_rfl⟩

theorem addBlock (hb : b.openFn.isSome) (stem : String) : b.Lasts (b.addBlock stem) := by
  refine of_blocks fun j block hblock => ?_
  rw [block?_addBlock stem hb, if_neg (Nat.ne_of_lt (lt_blockCount hblock)), hblock]
  exact ⟨block, rfl, List.prefix_rfl⟩

theorem moveTo (b : Builder) (id : Nat) : b.Lasts (b.moveTo id) :=
  fun _ _ _ h => h

theorem allocIn (b : Builder) (id : Nat) (ty : Ty) (name : String) :
    b.Lasts (b.allocIn id ty name) := by
  refine of_blocks fun j block hblock => ?_
  rw [block?_allocIn, hblock]
  split
  · exact ⟨_, rfl, by simp⟩
  · exact ⟨block, rfl, List.prefix_rfl⟩

end Builder.Lasts

end Ir

end ShaderLang
