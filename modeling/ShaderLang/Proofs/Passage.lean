import Mathlib.Logic.Relation
import ShaderLang.Proofs.Draft
import ShaderLang.Proofs.Execution

/-!
# Executing blocks

A running function does the instructions of a block one after the other and then goes where the
terminator leads (`Ir.Machine.step?`). Code that goes from an open block to an open block leads from
one insertion point to the other, in every function that it gets into (`Carries`).

What code does is told by an action on the contents of the variables: `Realizes` says that the code
comes to the same result. The running function may have slots besides those of the variables, behind
them, and nothing reads one of these but the code that added it (`Ir.World.Underlies`).
-/

namespace ShaderLang

namespace Ir

/-! ## Control -/

/-- Control goes by truth; what is no truth value counts as false. -/
def Datum.isTrue : Datum → Bool
  | bool b => b
  | _ => false

/-- A moment of a running function: so many instructions of a block are done. -/
structure Moment where
  block : Nat
  index : Nat
  state : State

namespace Machine

/-- The block to which a terminator leads. -/
def target? (m : Machine) (s : State) : Terminator → Option Nat
  | .branch target => some target
  | .condBranch condition ifTrue ifFalse =>
    some (if (m.read s condition).isTrue then ifTrue else ifFalse)
  | .switch value default cases =>
    match m.read s value with
    | .int n => some ((cases.lookup n).getD default)
    | _ => some default
  | .ret _ | .unreachable => none

/-- The next instruction is done, or the terminator followed behind them all. -/
def step? (m : Machine) (fn : Function) (x : Moment) : Option Moment := do
  let block ← fn.blocks[x.block]?
  match block.insts[x.index]? with
  | some inst => return ⟨x.block, x.index + 1, m.run x.state inst⟩
  | none =>
    let terminator ← block.terminator
    let target ← m.target? x.state terminator
    return ⟨target, 0, x.state⟩

/-- The function runs from one moment to another. -/
def Comes (m : Machine) (fn : Function) : Moment → Moment → Prop :=
  Relation.ReflTransGen fun x y => m.step? fn x = some y

variable {m : Machine} {fn : Function} {id : Nat} {block : Block} {s : State}

/-- Instructions that stand in a block are done in turn. -/
theorem comes_code (hblock : fn.blocks[id]? = some block) (before code after : List Inst)
    (hinsts : block.insts.toList = before ++ code ++ after) :
    m.Comes fn ⟨id, before.length, s⟩ ⟨id, before.length + code.length, m.runAll code s⟩ := by
  induction code generalizing before s with
  | nil => exact .refl
  | cons inst code ih =>
    have hinst : block.insts[before.length]? = some inst := by
      rw [← Array.getElem?_toList, hinsts]
      simp
    have hstep : m.step? fn ⟨id, before.length, s⟩ =
        some ⟨id, before.length + 1, m.run s inst⟩ := by
      simp [step?, hblock, hinst]
    have hrest := ih (before ++ [inst]) (s := m.run s inst) (by simpa using hinsts)
    rw [List.length_append, List.length_singleton, Nat.add_assoc, Nat.add_comm 1] at hrest
    exact .head hstep hrest

/-- Behind its instructions, a block is left as its terminator says. -/
theorem comes_terminator {t : Terminator} {target : Nat} (hblock : fn.blocks[id]? = some block)
    (hterm : block.terminator = some t) (htarget : m.target? s t = some target) :
    m.Comes fn ⟨id, block.insts.size, s⟩ ⟨target, 0, s⟩ := by
  apply Relation.ReflTransGen.single
  simp [step?, hblock, hterm, htarget]

/-! ## What instructions leave alone -/

/-- An instruction gives no temporary value but its result. -/
theorem temps_run {inst : Inst} {t : Nat} (h : inst.result? ≠ some t) :
    (m.run s inst).temps t = s.temps t := by
  have hset : ∀ (s : State) (r : Nat) (d : Datum), some r ≠ some t →
      (s.set r d).temps t = s.temps t :=
    fun _ _ _ hr => if_neg fun h => hr (congrArg some h.symm)
  cases inst with
  | store => rfl
  | call result callee arguments =>
    cases result with
    | none => rfl
    | some r => exact hset _ _ _ h
  | _ => exact hset _ _ _ h

theorem temps_runAll {code : List Inst} {t : Nat} (h : t ∉ code.filterMap Inst.result?) :
    (m.runAll code s).temps t = s.temps t := by
  induction code generalizing s with
  | nil => rfl
  | cons inst code ih =>
    have hinst : inst.result? ≠ some t := fun hr => h (by simp [hr])
    have hcode : t ∉ code.filterMap Inst.result? := fun ht => h (by
      rw [List.mem_filterMap] at ht ⊢
      obtain ⟨i, hi, hr⟩ := ht
      exact ⟨i, List.mem_cons_of_mem _ hi, hr⟩)
    rw [runAll_cons, ih hcode, temps_run hinst]

end Machine

@[simp]
theorem World.length_slots_write (w : World) (address value : Datum) :
    (w.write address value).slots.length = w.slots.length := by
  cases address with
  | address root path => cases root <;> simp [World.write, World.modifyRoot]
  | _ => rfl

namespace Machine

variable {m : Machine} {s : State}

/-- Slots are added, and none is lost. -/
theorem length_slots_run (inst : Inst) :
    s.world.slots.length ≤ (m.run s inst).world.slots.length := by
  cases inst with
  | alloca => simp [run, State.set, World.alloc]
  | store => simp [run]
  | call result => cases result <;> exact Nat.le_refl _
  | _ => exact Nat.le_refl _

theorem length_slots_runAll (code : List Inst) :
    s.world.slots.length ≤ (m.runAll code s).world.slots.length := by
  induction code generalizing s with
  | nil => exact Nat.le_refl _
  | cons inst code ih => exact Nat.le_trans (length_slots_run inst) ih

end Machine

/-- A state that code leads to which gives the temporary values from `n` on and below `n'`, and no
others. Slots were added, if anything. -/
structure State.Spans (n : Nat) (s : State) (n' : Nat) (s' : State) : Prop where
  later : s.Later n n' s'
  above : ∀ t, n' ≤ t → s'.temps t = s.temps t
  slots : s.world.slots.length ≤ s'.world.slots.length

namespace State.Spans

variable {n n' n'' : Nat} {s s' s'' : State} {m : Machine}

theorem refl (n : Nat) (s : State) : s.Spans n n s :=
  ⟨.refl n s, fun _ _ => rfl, Nat.le_refl _⟩

theorem trans (h : s.Spans n n' s') (h' : s'.Spans n' n'' s'') : s.Spans n n'' s'' where
  later := h.later.trans h'.later
  above t ht := (h'.above t ht).trans (h.above t (Nat.le_trans h'.later.le ht))
  slots := Nat.le_trans h.slots h'.slots

/-- More temporary values might have been given. -/
theorem widen {n₀ n₁ : Nat} (h : s.Spans n n' s') (hlow : n₀ ≤ n) (hhigh : n' ≤ n₁) :
    s.Spans n₀ n₁ s' where
  later := ⟨Nat.le_trans hlow (Nat.le_trans h.later.le hhigh),
    fun t ht => h.later.temps t (Nat.lt_of_lt_of_le ht hlow)⟩
  above t ht := h.above t (Nat.le_trans hhigh ht)
  slots := h.slots

/-- What gives some temporary values twice gives them. -/
theorem again (h : s.Spans n n' s') (h' : s'.Spans n n' s'') : s.Spans n n' s'' where
  later := ⟨h.later.le, fun t ht => (h'.later.temps t ht).trans (h.later.temps t ht)⟩
  above t ht := (h'.above t ht).trans (h.above t ht)
  slots := Nat.le_trans h.slots h'.slots

theorem of_code {code : List Inst} (hcode : Lowering.Numbered n code n') (m : Machine) (s : State) :
    s.Spans n n' (m.runAll code s) := by
  have htemps : ∀ t, t < n ∨ n' ≤ t → (m.runAll code s).temps t = s.temps t := by
    intro t ht
    apply Machine.temps_runAll
    rw [hcode.2, List.mem_range'_1]
    omega
  exact ⟨⟨hcode.1, fun t ht => htemps t (.inl ht)⟩, fun t ht => htemps t (.inr ht),
    Machine.length_slots_runAll code⟩

end State.Spans

/-! ## The contents of the variables -/

/-- An address of one of the first `k` slots or of a global variable. -/
def Datum.Belongs (k : Nat) : Datum → Prop
  | address (.slot index) _ => index < k
  | _ => True

/-- A running function has the contents of the variables, which take up the first `k` slots, and
maybe more slots behind them. -/
structure World.Underlies (k : Nat) (w w' : World) : Prop where
  globals : w'.globals = w.globals
  calls : w'.calls = w.calls
  length : w.slots.length = k
  slots : w.slots <+: w'.slots

theorem Datum.Belongs.element {k : Nat} {d : Datum} (h : d.Belongs k) (index : Datum) :
    (d.element index).Belongs k := by
  cases d with
  | address root path =>
    cases index with
    | int n => cases root <;> exact h
    | _ => trivial
  | _ => trivial

namespace World.Underlies

variable {k : Nat} {w w' : World} {a d : Datum}

theorem refl (w : World) : w.Underlies w.slots.length w :=
  ⟨rfl, rfl, rfl, List.prefix_rfl⟩

/-- What a variable holds is read. -/
theorem read (h : w.Underlies k w') (ha : a.Belongs k) : w'.read a = w.read a := by
  cases a with
  | address root path =>
    have hroot : w'.root root = w.root root := by
      cases root with
      | global name => simp [World.root, h.globals]
      | slot index =>
        have hindex : index < w.slots.length := h.length ▸ ha
        obtain ⟨more, hmore⟩ := h.slots
        rw [World.root, World.root, ← hmore, List.getElem?_append_left hindex]
    simp [World.read, hroot]
  | _ => rfl

/-- A variable is written to. -/
theorem write (h : w.Underlies k w') (ha : a.Belongs k) (d : Datum) :
    (w.write a d).Underlies k (w'.write a d) := by
  obtain ⟨hglobals, hcalls, hlength, hslots⟩ := h
  cases a with
  | address root path =>
    cases root with
    | global name =>
      refine ⟨?_, hcalls, hlength, hslots⟩
      simp [World.write, World.modifyRoot, hglobals]
    | slot index =>
      refine ⟨hglobals, hcalls, by simp [World.write, World.modifyRoot, hlength], ?_⟩
      rw [List.prefix_iff_getElem?] at hslots ⊢
      intro i hi
      simp only [World.write, World.modifyRoot, List.length_modify] at hi
      simp [World.write, World.modifyRoot, List.getElem?_modify, List.getElem_modify, hslots i hi]
  | _ => exact ⟨hglobals, hcalls, hlength, hslots⟩

/-- A slot is added. -/
theorem alloc (h : w.Underlies k w') (ty : Ty) : w.Underlies k (w'.alloc ty) :=
  ⟨h.globals, h.calls, h.length, h.slots.trans (List.prefix_append _ _)⟩

/-- A slot behind those of the variables is written to. -/
theorem write_behind (h : w.Underlies k w') {index : Nat} (hindex : k ≤ index) (path : List Int64)
    (d : Datum) : w.Underlies k (w'.write (.address (.slot index) path) d) := by
  refine ⟨h.globals, h.calls, h.length, ?_⟩
  have hslots := h.slots
  rw [List.prefix_iff_getElem?] at hslots ⊢
  intro i hi
  have hne : index ≠ i := by
    have hlength := h.length
    omega
  simp [World.write, World.modifyRoot, hne, hslots i hi]

theorem invoke (h : w.Underlies k w') (m : Machine) (callee : String) (arguments : List Datum) :
    (m.invoke callee arguments w).Underlies k (m.invoke callee arguments w') := by
  refine ⟨?_, ?_, h.length, h.slots⟩
  · simp [Machine.invoke, h.globals]
  · simp [Machine.invoke, h.calls]

theorem result (h : w.Underlies k w') (m : Machine) (callee : String) (arguments : List Datum) :
    m.result callee arguments w' = m.result callee arguments w := by
  simp [Machine.result, h.globals]

end World.Underlies

end Ir

namespace Lowering

open Ir (Builder Inst Machine Moment State World)

/-! ## Code in a function -/

/-- What is being built has got into a function, as far as the blocks of `S` go: closed blocks as they
are, others grown. -/
def Receives (S : Nat → Prop) (fn : Ir.Function) (b : Builder) : Prop :=
  ∀ id block, S id → b.block? id = some block → ∃ block', fn.blocks[id]? = some block' ∧
    block.Grows block' ∧ (block.isTerminated = true → block' = block)

/-- From one builder to a later one, closed blocks stay as they are and others grow, as far as they
are among those of `S`. -/
def Freezes (S : Nat → Prop) (b b' : Builder) : Prop :=
  ∀ id block, S id → b.block? id = some block → ∃ block', b'.block? id = some block' ∧
    block.Grows block' ∧ (block.isTerminated = true → block' = block)

namespace Freezes

variable {S T : Nat → Prop} {b b₁ b₂ : Builder}

theorem trans (h : Freezes S b b₁) (h' : Freezes S b₁ b₂) : Freezes S b b₂ := by
  intro id block hid hblock
  obtain ⟨block₁, hblock₁, hgrows, hsame⟩ := h id block hid hblock
  obtain ⟨block₂, hblock₂, hgrows', hsame'⟩ := h' id block₁ hid hblock₁
  refine ⟨block₂, hblock₂, hgrows.trans hgrows', fun hterm => ?_⟩
  obtain rfl := hsame hterm
  exact hsame' hterm

theorem of_same (h : ∀ id, b₁.block? id = b.block? id) : Freezes S b b₁ :=
  fun id block _ hblock => ⟨block, (h id).trans hblock, .refl block, fun _ => rfl⟩

/-- Nothing is added to a closed block at the insertion point. -/
theorem of_extends (h : b.Extends b₁) (hopen : b.IsOpen) : Freezes S b b₁ := by
  intro id block _ hblock
  obtain ⟨block₁, hblock₁, hgrows⟩ := h.grown id block hblock
  refine ⟨block₁, hblock₁, hgrows, fun hterm => ?_⟩
  have hne : b.insertion ≠ some id := by
    intro hid
    obtain ⟨content, hcontent, hnone⟩ := (Draft.closed_of_isOpen (d := ⟨b, []⟩) hopen) id hid
    rw [hblock] at hcontent
    cases hcontent
    simp [Ir.Block.isTerminated, hnone] at hterm
  rw [h.kept id (Ir.Builder.lt_blockCount hblock) hne, hblock] at hblock₁
  exact (Option.some.inj hblock₁).symm

/-- A slot is added to a block that is not among them. -/
theorem allocIn {origin : Nat} (h : ∀ id, S id → id ≠ origin) (ty : Ir.Ty) (name : String) :
    Freezes S b (b.allocIn origin ty name) := by
  intro id block hid hblock
  refine ⟨block, ?_, .refl block, fun _ => rfl⟩
  rw [Ir.Builder.block?_allocIn, if_neg (h id hid).symm, hblock]

end Freezes

namespace Receives

variable {fn : Ir.Function} {S T : Nat → Prop} {b b₁ b₂ : Builder}

/-- A part of the code has got into the function too. -/
theorem part (h : Receives S fn b₂) (hST : ∀ id, T id → S id) (hfreezes : Freezes T b₁ b₂) :
    Receives T fn b₁ := by
  intro id block hid hblock
  obtain ⟨block₂, hblock₂, hgrows, hsame⟩ := hfreezes id block hid hblock
  obtain ⟨block₃, hblock₃, hgrows', hsame'⟩ := h id block₂ (hST id hid) hblock₂
  refine ⟨block₃, hblock₃, hgrows.trans hgrows', fun hterm => ?_⟩
  obtain rfl := hsame hterm
  exact hsame' hterm

/-- A closed block is in the function as it is. -/
theorem closed (h : Receives S fn b) {id : Nat} {block : Ir.Block} (hid : S id)
    (hblock : b.block? id = some block) (hterm : block.isTerminated = true) :
    fn.blocks[id]? = some block := by
  obtain ⟨block', hblock', -, hsame⟩ := h id block hid hblock
  rwa [hsame hterm] at hblock'

end Receives

/-- What is reached behind some code was reached before. -/
theorem reaches_of_extends {b b₁ : Builder} (h : b.Extends b₁) {id : Nat} (hid : b₁.Reaches id) :
    b.Reaches id := by
  rcases hid with hid | hle
  · exact h.current hid
  · exact .inr (Nat.le_trans h.blockCount_le hle)

/-! ## From one insertion point to another -/

/-- The moment at which the function has come to the insertion point. -/
def moment (b : Builder) (s : State) : Moment :=
  ⟨here b, offset b, s⟩

/-- The code that was added from one open builder to another leads from one state to another, in every
function that it gets into. -/
structure Carries (m : Machine) (b : Builder) (s : State) (b' : Builder) (s' : State) : Prop where
  flows : b.Flows b'
  spans : s.Spans b.nextTemp b'.nextTemp s'
  comes : ∀ fn, Receives b.Reaches fn b' → m.Comes fn (moment b s) (moment b' s')

namespace Carries

variable {m : Machine} {b b' b'' : Builder} {s s' s'' : State}

theorem refl (hb : b.IsOpen) (s : State) : Carries m b s b s :=
  ⟨.refl hb, .refl _ _, fun _ _ => .refl⟩

theorem trans (h : Carries m b s b' s') (h' : Carries m b' s' b'' s'') : Carries m b s b'' s'' where
  flows := h.flows.trans h'.flows
  spans := h.spans.trans h'.spans
  comes fn hfn :=
    (h.comes fn (hfn.part (fun _ => id) (.of_extends h'.flows.ext h.flows.isOpen))).trans
      (h'.comes fn (hfn.part (fun _ => reaches_of_extends h.flows.ext) (.of_same fun _ => rfl)))

theorem append (hb : b.IsOpen) {code : List Inst} {n' : Nat} (hcode : Numbered b.nextTemp code n') :
    Carries m b s (b.append code n') (m.runAll code s) where
  flows := .append hb code hcode.1
  spans := by
    rw [Ir.Builder.nextTemp_append]
    exact .of_code hcode m s
  comes fn hfn := by
    obtain ⟨id, hid, block, hblock, -⟩ := id hb
    have hblock' : (b.append code n').block? id = some (block.append code) := by
      rw [Ir.Builder.block?_append, if_pos hid, hblock]
      rfl
    obtain ⟨final, hfinal, hgrows, -⟩ := hfn id _ (.inl hid) hblock'
    obtain ⟨after, hafter⟩ := hgrows.insts
    have hcomes := Machine.comes_code (m := m) (s := s) hfinal block.insts.toList code after
      (by rw [← hafter]; simp)
    have hhere : here (b.append code n') = id := here_eq (by simpa using hid)
    have hoffset : offset (b.append code n') = block.insts.toList.length + code.length := by
      rw [offset, hhere, hblock']
      simp
    rw [moment, moment, hhere, hoffset, here_eq hid, offset, here_eq hid, hblock]
    simpa using hcomes

end Carries

/-! ## What code does to variables -/

variable {α β γ δ : Type}

/-- The code of one action comes to the same result as another action does on the contents of the
variables, as `R` says of both results. -/
def Realizes (m : Machine) (k : Nat) (x : Emit α) (r : StateM World β) (b : Builder) (s : State)
    (w : World) (R : Nat → State → α → β → Prop) : Prop :=
  b.IsOpen → w.Underlies k s.world → ∃ a b' s', x b = .ok a b' ∧ Carries m b s b' s' ∧
    (r w).2.Underlies k s'.world ∧ R b'.nextTemp s' a (r w).1

namespace Realizes

variable {m : Machine} {k : Nat} {x : Emit α} {r : StateM World β} {b : Builder} {s : State}
  {w : World} {R : Nat → State → α → β → Prop} {f : α → Emit γ} {q : β → StateM World δ}
  {T : Nat → State → γ → δ → Prop}

theorem pure {a : α} {d : β} (h : R b.nextTemp s a d) :
    Realizes m k (Pure.pure a) (Pure.pure d) b s w R :=
  fun hb hw => ⟨a, b, s, rfl, .refl hb s, hw, h⟩

theorem bind (hx : Realizes m k x r b s w R)
    (hf : ∀ a d b' s' w', s.Later b.nextTemp b'.nextTemp s' → R b'.nextTemp s' a d →
      Realizes m k (f a) (q d) b' s' w' T) : Realizes m k (x >>= f) (r >>= q) b s w T := by
  intro hb hw
  obtain ⟨a, b₁, s₁, hx, hcarries, hw₁, hR⟩ := hx hb hw
  obtain ⟨c, b₂, s₂, hf, hcarries', hw₂, hT⟩ :=
    hf a (r w).1 b₁ s₁ (r w).2 hcarries.spans.later hR hcarries.flows.isOpen hw₁
  exact ⟨c, b₂, s₂, (Emit.bind_eq hx).trans hf, hcarries.trans hcarries', hw₂, hT⟩

/-- Code that leaves the variables alone comes first. -/
theorem andThen {d : β} {r' : StateM World δ} (hx : Realizes m k x (Pure.pure d) b s w R)
    (hf : ∀ a b' s', s.Later b.nextTemp b'.nextTemp s' → R b'.nextTemp s' a d →
      Realizes m k (f a) r' b' s' w T) : Realizes m k (x >>= f) r' b s w T := by
  intro hb hw
  obtain ⟨a, b₁, s₁, hx, hcarries, hw₁, hR⟩ := hx hb hw
  obtain ⟨c, b₂, s₂, hf, hcarries', hw₂, hT⟩ :=
    hf a b₁ s₁ hcarries.spans.later hR hcarries.flows.isOpen hw₁
  exact ⟨c, b₂, s₂, (Emit.bind_eq hx).trans hf, hcarries.trans hcarries', hw₂, hT⟩

/-- What is added does not depend on the state in which it runs. -/
theorem exists_carries (h : Realizes m k x r b s w R) (hb : b.IsOpen) (hw : w.Underlies k s.world)
    {a : α} {b' : Builder} (hx : x b = .ok a b') :
    ∃ s', Carries m b s b' s' ∧ (r w).2.Underlies k s'.world ∧ R b'.nextTemp s' a (r w).1 := by
  obtain ⟨a', b'', s', hx', hcarries⟩ := h hb hw
  rw [hx] at hx'
  cases hx'
  exact ⟨s', hcarries⟩

/-- Straight-line code. -/
theorem of_executes (h : w.Underlies k s.world → Executes m x b.nextTemp s fun a n' s' =>
      (r w).2.Underlies k s'.world ∧ R n' s' a (r w).1) : Realizes m k x r b s w R := by
  intro hb hw
  obtain ⟨a, code, n', hcode, hx, -, hw', hR⟩ := h hw
  refine ⟨a, b.append code n', m.runAll code s, hx b hb rfl, .append hb hcode, hw', ?_⟩
  rwa [Ir.Builder.nextTemp_append]

/-- Straight-line code that leaves the variables alone. -/
theorem of_gives {x : Emit Ir.Value} {d : Ir.Datum} (h : Gives m x b.nextTemp s d s.world) :
    Realizes m k x (Pure.pure d) b s w m.Holds := by
  apply of_executes
  intro hw
  exact h.imp fun a n' s' _ h => ⟨h.2 ▸ hw, h.1⟩

theorem of_givesTyped {x : Emit TypedValue} {t : Ty} {d : Ir.Datum}
    (h : GivesTyped m x b.nextTemp s t d s.world) :
    Realizes m k x (Pure.pure d) b s w fun n s a d => HoldsTyped m n s a t d := by
  apply of_executes
  intro hw
  exact h.imp fun a n' s' _ h => ⟨h.2 ▸ hw, h.1⟩

end Realizes

end Lowering

end ShaderLang
