import ShaderLang.Proofs.Sound

/-!
# Adding code at a spot

The lowering of a tree that nobody checked may fail, but never for want of a block to work on.
`Runs x b Q` says so of an action in one builder: it fails with a fault of the program and leaves
the open function open, or it succeeds with `Q`.

A `Spot` is a layout with the block that is being filled. What an expression adds goes from one spot
to another one further down (`Spot.Before`), where all that was known is known still; `Adds s x Q`
says that of an action in every sound builder that fills the spot. A statement may also begin and
end in a closed block (`Does`).
-/

namespace ShaderLang

namespace Ir

/-! ## Spots -/

namespace Layout

variable {l l' : Layout}

/-- A block that control may be sent to, with another one for its parent. -/
def Child (l : Layout) (parent id : Nat) : Prop :=
  ∃ stem, l.blocks[id]? = some ⟨some parent, stem⟩ ∧ stem ∈ branchStems

theorem Child.above {parent id : Nat} (h : l.Child parent id) : l.Above parent id := by
  obtain ⟨stem, horigin, -⟩ := h
  exact .parent .refl horigin

theorem Child.leads {parent id source : Nat} (h : l.Child parent id) (ha : l.Above parent source) :
    l.Leads source id := by
  obtain ⟨stem, horigin, hstem⟩ := h
  exact ⟨parent, stem, horigin, hstem, ha⟩

theorem Extends.child (h : l.Extends l') {parent id : Nat} (hc : l.Child parent id) :
    l'.Child parent id := by
  obtain ⟨stem, horigin, hstem⟩ := hc
  exact ⟨stem, h.block horigin, hstem⟩

theorem Leads.below {id id' target : Nat} (h : l.Leads id target) (ha : l.Above id id') :
    l.Leads id' target := by
  obtain ⟨parent, stem, horigin, hstem, habove⟩ := h
  exact ⟨parent, stem, horigin, hstem, habove.trans ha⟩

theorem Knows.below {id id' t : Nat} (h : l.Knows id t) (ha : l.Above id id') : l.Knows id' t := by
  obtain ⟨home, hhome, habove⟩ := h
  exact ⟨home, hhome, habove.trans ha⟩

/-- Several blocks more, all with the same parent. -/
def addBlocks (l : Layout) (parent : Nat) (stems : List String) : Layout :=
  stems.foldl (fun l stem => l.addBlock (some parent) stem) l

theorem blocks_addBlocks (parent : Nat) (stems : List String) :
    (l.addBlocks parent stems).blocks = l.blocks ++ stems.map (⟨some parent, ·⟩) := by
  induction stems generalizing l with
  | nil => simp [addBlocks]
  | cons stem rest ih =>
    have hrest := ih (l := l.addBlock (some parent) stem)
    rw [addBlocks] at hrest
    rw [addBlocks, List.foldl_cons, hrest]
    simp [addBlock]

theorem Extends.addBlocks (parent : Nat) (stems : List String) :
    l.Extends (l.addBlocks parent stems) := by
  induction stems generalizing l with
  | nil => exact .refl l
  | cons stem rest ih => exact (Extends.addBlock l _ stem).trans ih

theorem child_addBlocks {parent id : Nat} {stems : List String}
    (hstems : ∀ stem ∈ stems, stem ∈ branchStems) (hle : l.blocks.length ≤ id)
    (hlt : id < l.blocks.length + stems.length) : (l.addBlocks parent stems).Child parent id := by
  have hindex : id - l.blocks.length < stems.length := by omega
  refine ⟨stems[id - l.blocks.length], ?_, hstems _ (List.getElem_mem hindex)⟩
  rw [blocks_addBlocks, List.getElem?_append_right hle, List.getElem?_map,
    List.getElem?_eq_getElem hindex]
  rfl

end Layout

/-- A block that is being filled, and the layout of the function that it belongs to. -/
structure Spot where
  layout : Layout
  block : Nat

namespace Spot

/-- One spot is reached from another. -/
structure Before (s s' : Spot) : Prop where
  layout : s.layout.Extends s'.layout
  above : s'.layout.Above s.block s'.block

/-- An operand is computed before control comes to the spot. -/
def Knows (s : Spot) (v : Value) : Prop :=
  ∀ t, v.temp? = some t → s.layout.Knows s.block t

/-- Control may be sent to a block. -/
def Leads (s : Spot) (target : Nat) : Prop :=
  s.layout.Leads s.block target

variable {s s' s'' : Spot}

namespace Before

theorem refl (s : Spot) : s.Before s :=
  ⟨.refl _, .refl⟩

theorem trans (h : s.Before s') (h' : s'.Before s'') : s.Before s'' :=
  ⟨h.layout.trans h'.layout, (h'.layout.above h.above).trans h'.above⟩

/-- The same block in a layout that says more. -/
theorem of_extends {l l' : Layout} (h : l.Extends l') (id : Nat) : Before ⟨l, id⟩ ⟨l', id⟩ :=
  ⟨h, .refl⟩

theorem child {l l' : Layout} {parent id : Nat} (h : l.Extends l') (hc : l'.Child parent id) :
    Before ⟨l, parent⟩ ⟨l', id⟩ :=
  ⟨h, hc.above⟩

theorem knows (h : s.Before s') {v : Value} (hv : s.Knows v) : s'.Knows v := by
  intro t ht
  exact (h.layout.knows (hv t ht)).below h.above

theorem leads (h : s.Before s') {target : Nat} (ht : s.Leads target) : s'.Leads target :=
  (h.layout.leads ht).below h.above

end Before

theorem knows_of_temp?_eq_none {v : Value} (h : v.temp? = none) : s.Knows v := by
  intro t ht
  rw [h] at ht
  cases ht

theorem uses_known {vs : List Value} (h : ∀ v ∈ vs, s.Knows v) :
    ∀ t ∈ vs.filterMap Value.temp?, s.layout.Knows s.block t := by
  intro t ht
  obtain ⟨v, hv, htemp⟩ := List.mem_filterMap.mp ht
  exact h v hv t htemp

/-- A block may end with a terminator at the spot. -/
structure Allows (strict : Prop) (s : Spot) (terminator : Terminator) : Prop where
  operands : ∀ v ∈ terminator.operands, s.Knows v
  successors : ∀ target ∈ terminator.successors, s.Leads target
  labels : strict → terminator.labels.Nodup

namespace Allows

variable {strict : Prop}

theorem branch {target : Nat} (h : s.Leads target) : s.Allows strict (.branch target) where
  operands v hv := absurd hv (by simp [Terminator.operands])
  successors k hk := by
    have heq : k = target := by simpa [Terminator.successors] using hk
    rwa [heq]
  labels _ := List.nodup_nil

theorem condBranch {condition : Value} {ifTrue ifFalse : Nat} (hc : s.Knows condition)
    (ht : s.Leads ifTrue) (hf : s.Leads ifFalse) :
    s.Allows strict (.condBranch condition ifTrue ifFalse) where
  operands v hv := by
    have heq : v = condition := by simpa [Terminator.operands] using hv
    rwa [heq]
  successors k hk := by
    have hcases : k = ifTrue ∨ k = ifFalse := by simpa [Terminator.successors] using hk
    rcases hcases with rfl | rfl
    · exact ht
    · exact hf
  labels _ := List.nodup_nil

theorem ret {value : Option Value} (h : ∀ v ∈ value, s.Knows v) : s.Allows strict (.ret value) where
  operands v hv := h v (by simpa [Terminator.operands] using hv)
  successors k hk := absurd hk (by simp [Terminator.successors])
  labels _ := List.nodup_nil

theorem unreachable : s.Allows strict .unreachable where
  operands v hv := absurd hv (by simp [Terminator.operands])
  successors k hk := absurd hk (by simp [Terminator.successors])
  labels _ := List.nodup_nil

end Allows

end Spot

namespace Builder

/-- The builder is sound and its insertion point at a spot. -/
structure Stands (strict : Prop) (s : Spot) (b : Builder) : Prop where
  sound : b.Sound strict s.layout
  insertion : b.insertion = some s.block
  lt : s.block < b.blockCount

/-- The builder can add instructions at a spot. -/
structure Fills (strict : Prop) (s : Spot) (b : Builder) : Prop where
  sound : b.Sound strict s.layout
  insertion : b.insertion = some s.block
  unfinished : b.Unfinished s.block

variable {strict : Prop} {s : Spot} {b : Builder}

namespace Fills

variable (h : b.Fills strict s)

include h

theorem isOpen : b.IsOpen :=
  ⟨s.block, h.insertion, h.unfinished⟩

theorem stands : b.Stands strict s :=
  ⟨h.sound, h.insertion, h.unfinished.lt⟩

theorem appendValue {inst : Inst} (hr : inst.result? = some b.nextTemp)
    (huses : ∀ v ∈ inst.operands, s.Knows v) :
    (b.append [inst] (b.nextTemp + 1)).Fills strict ⟨s.layout.addTemp s.block, s.block⟩ where
  sound := h.sound.appendValue h.insertion h.unfinished.lt hr (Spot.uses_known huses)
  insertion := (insertion_append _ _).trans h.insertion
  unfinished := (Unfinished.append _ _).mpr h.unfinished

theorem append {inst : Inst} (hr : inst.result? = none) (huses : ∀ v ∈ inst.operands, s.Knows v) :
    (b.append [inst] b.nextTemp).Fills strict s where
  sound := h.sound.append h.insertion hr (Spot.uses_known huses)
  insertion := (insertion_append _ _).trans h.insertion
  unfinished := (Unfinished.append _ _).mpr h.unfinished

theorem close {terminator : Terminator} (ht : s.Allows strict terminator) :
    (b.close terminator).Stands strict s where
  sound := h.sound.close h.insertion (Spot.uses_known ht.operands) ht.successors ht.labels
  insertion := (insertion_close _).trans h.insertion
  lt := by
    rw [blockCount_close]
    exact h.unfinished.lt

omit h in
theorem moveTo {l : Layout} (h : b.Sound strict l) {id : Nat} (hid : b.Unfinished id) :
    (b.moveTo id).Fills strict ⟨l, id⟩ :=
  ⟨h.moveTo id, rfl, hid⟩

end Fills

theorem Stands.placed (h : b.Stands strict s) : b.Placed :=
  ⟨s.block, h.insertion, h.lt⟩

theorem Stands.fills (h : b.Stands strict s) (hopen : b.IsOpen) : b.Fills strict s := by
  obtain ⟨id, hid, hun⟩ := hopen
  rw [h.insertion] at hid
  cases hid
  exact ⟨h.sound, h.insertion, hun⟩

/-- The result of the instruction that comes next. -/
theorem Sound.knows_next {l : Layout} (h : b.Sound strict l) (home : Nat) :
    Spot.Knows ⟨l.addTemp home, home⟩ (.temp b.nextTemp) := by
  rintro t ⟨⟩
  refine ⟨home, ?_, .refl⟩
  rw [Layout.addTemp, ← h.temps, List.getElem?_concat_length]

theorem Sound.addBlocks {l : Layout} (h : b.Sound strict l) (hopen : b.openFn.isSome) (parent : Nat)
    {stems : List String} (hstems : ∀ stem ∈ stems, stem ∈ branchStems) :
    (b.addBlocks stems).Sound strict (l.addBlocks parent stems) := by
  induction stems generalizing b l with
  | nil => exact h
  | cons stem rest ih =>
    have hmem : stem ∈ blockStems := by
      have := hstems stem List.mem_cons_self
      simp [blockStems, this]
    apply ih (h.addBlock hopen (some parent) hmem)
    · simpa using hopen
    · intro stem' hstem'
      exact hstems stem' (List.mem_cons_of_mem _ hstem')

/-- The blocks of a construct have been added below the current one, which is left. -/
structure Forks (strict : Prop) (s : Spot) (b : Builder) (count : Nat) (l : Layout) (b' : Builder) :
    Prop where
  layout : s.layout.Extends l
  sound : b'.Sound strict l
  child : ∀ id, b.blockCount ≤ id → id < b.blockCount + count → l.Child s.block id
  unfinished : ∀ id, b'.Unfinished id ↔
    b.Waits id ∨ (b.blockCount ≤ id ∧ id < b.blockCount + count)
  blockCount : b'.blockCount = b.blockCount + count

theorem Fills.fork (h : b.Fills strict s) (stems : List String) (terminator : Terminator)
    (hstems : ∀ stem ∈ stems, stem ∈ branchStems)
    (ht : ∀ l, s.layout.Extends l →
      (∀ id, b.blockCount ≤ id → id < b.blockCount + stems.length → l.Child s.block id) →
        Spot.Allows strict ⟨l, s.block⟩ terminator) :
    Forks strict s b stems.length (s.layout.addBlocks s.block stems) (b.fork stems terminator) := by
  have hopen := h.isOpen.isSome
  have hchild : ∀ id, b.blockCount ≤ id → id < b.blockCount + stems.length →
      (s.layout.addBlocks s.block stems).Child s.block id := by
    rw [← h.sound.size]
    exact fun id => Layout.child_addBlocks hstems
  have hadded : (b.addBlocks stems).Fills strict ⟨s.layout.addBlocks s.block stems, s.block⟩ :=
    ⟨h.sound.addBlocks hopen s.block hstems, (insertion_addBlocks stems).trans h.insertion,
      (Unfinished.addBlocks stems hopen).mpr (.inl h.unfinished)⟩
  exact ⟨.addBlocks _ _, (hadded.close (ht _ (.addBlocks _ _) hchild)).sound, hchild,
    unfinished_fork stems terminator h.isOpen, blockCount_fork stems terminator h.isOpen⟩

theorem Forks.before {count : Nat} {l : Layout} {b' : Builder} (h : Forks strict s b count l b')
    (id : Nat) (hle : b.blockCount ≤ id) (hlt : id < b.blockCount + count) : s.Before ⟨l, id⟩ :=
  .child h.layout (h.child id hle hlt)

end Builder

end Ir

namespace Lowering

open Ir (Builder Build Inst Spot Terminator)

/-! ## Actions in one builder -/

/-- The module and the function that is filled stay the same. -/
structure Within (b b' : Builder) : Prop where
  header : b'.header = b.header
  output : b'.output = b.output

theorem Within.refl (b : Builder) : Within b b :=
  ⟨rfl, rfl⟩

theorem Within.trans {b b' b'' : Builder} (h : Within b b') (h' : Within b' b'') : Within b b'' :=
  ⟨h'.header.trans h.header, h'.output.trans h.output⟩

theorem Within.of_extends {b b' : Builder} (h : b.Extends b') : Within b b' :=
  ⟨h.header, h.output⟩

/-- The action fails with a fault that is not one of the builder, or succeeds with `Q`. Either way
it stays in the same function. -/
def Runs {α : Type} (x : Emit α) (b : Builder) (Q : α → Builder → Prop) : Prop :=
  match x b with
  | .ok a b' => Within b b' ∧ Q a b'
  | .error fault b' => Within b b' ∧ ∀ f, fault ≠ .builder f

variable {α β ι : Type}

namespace Runs

variable {x : Emit α} {f : α → Emit β} {b b' : Builder} {P Q : α → Builder → Prop}
  {R : β → Builder → Prop}

theorem of_ok {a : α} (hx : x b = .ok a b') (hw : Within b b') (h : Q a b') : Runs x b Q := by
  unfold Runs
  rw [hx]
  exact ⟨hw, h⟩

theorem ok_imp {a : α} (h : Runs x b Q) (hx : x b = .ok a b') : Within b b' ∧ Q a b' := by
  unfold Runs at h
  rwa [hx] at h

theorem error_imp {fault : Fault} (h : Runs x b Q) (hx : x b = .error fault b') :
    Within b b' ∧ ∀ f, fault ≠ .builder f := by
  unfold Runs at h
  rwa [hx] at h

theorem imp (h : Runs x b P) (hPQ : ∀ a b', P a b' → Q a b') : Runs x b Q := by
  unfold Runs at h ⊢
  cases hx : x b with
  | ok a b' =>
    rw [hx] at h
    exact ⟨h.1, hPQ a b' h.2⟩
  | error fault b' =>
    rw [hx] at h
    exact h

theorem pure {a : α} (h : Q a b) : Runs (Pure.pure a) b Q :=
  of_ok rfl (.refl b) h

theorem throw {fault : Fault} (h : ∀ f, fault ≠ .builder f) :
    Runs (MonadExcept.throw fault : Emit α) b Q :=
  show Within b b ∧ ∀ f, fault ≠ .builder f from ⟨.refl b, h⟩

theorem bind (hx : Runs x b P) (hf : ∀ a b', P a b' → Runs (f a) b' R) : Runs (x >>= f) b R := by
  unfold Runs at hx ⊢
  cases hxb : x b with
  | ok a b' =>
    rw [hxb] at hx
    have hrest := hf a b' hx.2
    unfold Runs at hrest
    rw [Emit.bind_eq hxb]
    cases hfb : f a b' with
    | ok c b'' =>
      rw [hfb] at hrest
      exact ⟨hx.1.trans hrest.1, hrest.2⟩
    | error fault b'' =>
      rw [hfb] at hrest
      exact ⟨hx.1.trans hrest.1, hrest.2⟩
  | error fault b' =>
    rw [hxb] at hx
    have hfail : (x >>= f) b = .error fault b' := by simp [Bind.bind, EStateM.bind, hxb]
    rw [hfail]
    exact hx

theorem bind_ok {a : α} (hx : x b = .ok a b') (hw : Within b b') (hf : Runs (f a) b' R) :
    Runs (x >>= f) b R := by
  apply bind (P := fun a' b'' => a' = a ∧ b'' = b') (of_ok hx hw ⟨rfl, rfl⟩)
  rintro _ _ ⟨rfl, rfl⟩
  exact hf

theorem get_bind {k : Builder → Emit β} (h : Runs (k b) b R) : Runs (get >>= k) b R :=
  bind_ok (rfl : (get : Emit Builder) b = .ok b b) (.refl b) h

theorem orFault {a : Option α} {fault : Fault} (hfault : ∀ f, fault ≠ .builder f)
    (h : ∀ v, a = some v → Q v b) : Runs (Lowering.orFault a fault) b Q := by
  cases a with
  | none => exact throw hfault
  | some v => exact pure (h v rfl)

theorem position_bind {id : Nat} {k : Unit → Emit β} (h : Runs (k ()) (b.moveTo id) R) :
    Runs (liftM (Build.position id) >>= k) b R :=
  bind_ok (Emit.lift_eq (Build.position_eq id)) ⟨rfl, rfl⟩ h

theorem terminate_bind {t : Terminator} {k : Unit → Emit β} (hb : b.IsOpen)
    (h : Runs (k ()) (b.close t) R) : Runs (liftM (Build.terminate t) >>= k) b R :=
  bind_ok (Emit.lift_eq (Build.terminate_eq hb t)) ⟨by simp, by simp⟩ h

theorem terminate {t : Terminator} {Q : Unit → Builder → Prop} (hb : b.IsOpen)
    (h : Q () (b.close t)) : Runs (liftM (Build.terminate t)) b Q :=
  of_ok (Emit.lift_eq (Build.terminate_eq hb t)) ⟨by simp, by simp⟩ h

/-- A block is added behind those that were added before. -/
theorem createBlock_bind {k : Nat → Emit β} (stems : List String) {stem : String}
    (hb : b.openFn.isSome)
    (h : Runs (k (b.blockCount + stems.length)) (b.addBlocks (stems ++ [stem])) R) :
    Runs (liftM (Build.createBlock stem) >>= k) (b.addBlocks stems) R := by
  apply bind_ok (Emit.lift_eq (Build.createBlock_eq (by simpa) stem))
  · exact ⟨by simp, by simp⟩
  · rw [Builder.blockCount_addBlocks stems hb]
    simpa only [Builder.addBlocks, List.foldl_append, List.foldl_cons, List.foldl_nil] using h

end Runs

/-! ## Actions at a spot -/

/-- Wherever the action succeeds in a sound builder that fills the spot, it adds code from there to
another spot, and `Q` holds of that and of the result. -/
def Adds (strict : Prop) (s : Spot) (x : Emit α) (Q : Spot → α → Prop) : Prop :=
  ∀ b : Builder, b.Fills strict s → Runs x b fun a b' =>
    ∃ s', s.Before s' ∧ b'.Fills strict s' ∧ b.Flows b' ∧ Q s' a

/-- The same of an action that may begin and end in a closed block. -/
def Does (strict : Prop) (s : Spot) (x : Emit α) (Q : Spot → α → Prop) : Prop :=
  ∀ b : Builder, b.Stands strict s → Runs x b fun a b' =>
    ∃ s', s.Before s' ∧ b'.Stands strict s' ∧ b.Settles b' ∧ Q s' a

variable {strict : Prop} {s : Spot}

namespace Adds

variable {x : Emit α} {P Q : Spot → α → Prop}

theorem pure {a : α} (h : Q s a) : Adds strict s (Pure.pure a) Q := by
  intro b hb
  exact Runs.pure ⟨s, .refl s, hb, .refl hb.isOpen, h⟩

theorem throw {fault : Fault} (h : ∀ f, fault ≠ .builder f) :
    Adds strict s (MonadExcept.throw fault) Q := by
  intro b _
  exact Runs.throw h

theorem bind {f : α → Emit β} {R : Spot → β → Prop} (hx : Adds strict s x P)
    (hf : ∀ s' a, s.Before s' → P s' a → Adds strict s' (f a) R) : Adds strict s (x >>= f) R := by
  intro b hb
  apply (hx b hb).bind
  rintro a b' ⟨s', hbefore, hfills, hflows, hP⟩
  apply (hf s' a hbefore hP b' hfills).imp
  rintro c b'' ⟨s'', hbefore', hfills', hflows', hR⟩
  exact ⟨s'', hbefore.trans hbefore', hfills', hflows.trans hflows', hR⟩

theorem orFault {a : Option α} {fault : Fault} (hfault : ∀ f, fault ≠ .builder f)
    (h : ∀ v, a = some v → Q s v) : Adds strict s (Lowering.orFault a fault) Q := by
  cases a with
  | none => exact throw hfault
  | some v => exact pure (h v rfl)

/-! ### Operations of the builder -/

theorem emit {inst : Inst} (hr : inst.result? = none) (huses : ∀ v ∈ inst.operands, s.Knows v) :
    Adds strict s (liftM (Build.emit inst)) fun _ _ => True := by
  intro b hb
  apply Runs.of_ok (Emit.lift_eq (Build.emit_eq hb.isOpen inst))
  · exact ⟨by simp, by simp⟩
  · exact ⟨s, .refl s, hb.append hr huses, .append hb.isOpen _ (Nat.le_refl _), trivial⟩

theorem emitValue {inst : Nat → Inst} (hr : ∀ n, (inst n).result? = some n)
    (huses : ∀ n, ∀ v ∈ (inst n).operands, s.Knows v) :
    Adds strict s (liftM (Build.emitValue inst)) fun s' v => s'.Knows v := by
  intro b hb
  apply Runs.of_ok (Emit.lift_eq (Build.emitValue_eq hb.isOpen inst))
  · exact ⟨by simp, by simp⟩
  · exact ⟨⟨s.layout.addTemp s.block, s.block⟩, .of_extends (.addTemp _ _) _,
      hb.appendValue (hr _) (huses _), .append hb.isOpen _ (Nat.le_succ _),
      hb.sound.knows_next s.block⟩

theorem alloca {ty : Ir.Ty} {name : String} :
    Adds strict s (liftM (Build.alloca ty name)) fun s' v => s'.Knows v :=
  emitValue (fun _ => rfl) (by simp [Inst.operands])

section

variable {v w : Ir.Value} (hv : s.Knows v) (hw : s.Knows w)

include hv

theorem load {ty : Ir.Ty} : Adds strict s (liftM (Build.load ty v)) fun s' r => s'.Knows r :=
  emitValue (fun _ => rfl) (by simpa [Inst.operands] using hv)

theorem shuffle {mask : List Nat} :
    Adds strict s (liftM (Build.shuffle v mask)) fun s' r => s'.Knows r :=
  emitValue (fun _ => rfl) (by simpa [Inst.operands] using hv)

theorem convert {op : Ir.Conversion} :
    Adds strict s (liftM (Build.convert op v)) fun s' r => s'.Knows r := by
  rw [Build.convert_eq]
  split
  · next folded hfold =>
    apply pure
    apply Spot.knows_of_temp?_eq_none
    cases op <;> cases v <;> cases hfold <;> rfl
  · exact emitValue (fun _ => rfl) (by simpa [Inst.operands] using hv)

theorem extractLane {lane : Nat} :
    Adds strict s (liftM (Build.extractLane v lane)) fun s' r => s'.Knows r := by
  rw [Build.extractLane_eq]
  split
  · next folded hfold =>
    apply pure
    apply Spot.knows_of_temp?_eq_none
    cases v with
    | vector lanes =>
      obtain ⟨x, -, rfl⟩ := Option.map_eq_some_iff.mp hfold
      rfl
    | _ => cases hfold
  · exact emitValue (fun _ => rfl) (by simpa [Inst.operands] using hv)

include hw

theorem store : Adds strict s (liftM (Build.store v w)) fun _ _ => True :=
  emit rfl (by simpa [Inst.operands] using ⟨hv, hw⟩)

theorem binary {op : Ir.BinaryOp} {ty : Ir.Ty} :
    Adds strict s (liftM (Build.binary op ty v w)) fun s' r => s'.Knows r :=
  emitValue (fun _ => rfl) (by simpa [Inst.operands] using ⟨hv, hw⟩)

theorem compare {predicate : Ir.Predicate} :
    Adds strict s (liftM (Build.compare predicate v w)) fun s' r => s'.Knows r :=
  emitValue (fun _ => rfl) (by simpa [Inst.operands] using ⟨hv, hw⟩)

theorem insertLane {lane : Nat} :
    Adds strict s (liftM (Build.insertLane v w lane)) fun s' r => s'.Knows r :=
  emitValue (fun _ => rfl) (by simpa [Inst.operands] using ⟨hv, hw⟩)

theorem elementAddress :
    Adds strict s (liftM (Build.elementAddress v w)) fun s' r => s'.Knows r :=
  emitValue (fun _ => rfl) (by simpa [Inst.operands] using ⟨hv, hw⟩)

end

theorem call {callee : String} {arguments : List Ir.Value} {givesValue : Bool}
    (h : ∀ v ∈ arguments, s.Knows v) :
    Adds strict s (liftM (Build.call callee arguments givesValue)) fun s' r =>
      ∀ v ∈ r, s'.Knows v := by
  intro b hb
  have hcall := Build.call_eq hb.isOpen callee arguments givesValue
  cases givesValue with
  | true =>
    apply Runs.of_ok (Emit.lift_eq hcall)
    · exact ⟨by simp, by simp⟩
    · refine ⟨⟨s.layout.addTemp s.block, s.block⟩, .of_extends (.addTemp _ _) _,
        hb.appendValue rfl h, .append hb.isOpen _ (Nat.le_succ _), ?_⟩
      rintro _ ⟨⟩
      exact hb.sound.knows_next s.block
  | false =>
    apply Runs.of_ok (Emit.lift_eq hcall)
    · exact ⟨by simp, by simp⟩
    · exact ⟨s, .refl s, hb.append rfl h, .append hb.isOpen _ (Nat.le_refl _), by simp⟩

/-! ### Loops -/

theorem foldlM {f : α → ι → Emit α} {I : Spot → α → Prop} (xs : List ι) :
    ∀ {s : Spot} {a : α}, (∀ s' a i, s.Before s' → i ∈ xs → I s' a → Adds strict s' (f a i) I) →
      I s a → Adds strict s (xs.foldlM f a) I := by
  induction xs with
  | nil =>
    intro s a _ h
    exact pure h
  | cons i rest ih =>
    intro s a hf h
    rw [List.foldlM_cons]
    apply bind (hf s a i (.refl s) List.mem_cons_self h)
    intro s' a' hbefore h'
    apply ih _ h'
    intro s'' a'' j hbefore' hj
    exact hf s'' a'' j (hbefore.trans hbefore') (List.mem_cons_of_mem _ hj)

theorem forM {f : ι → Emit Unit} (xs : List ι) :
    ∀ {s : Spot}, (∀ s' i, s.Before s' → i ∈ xs → Adds strict s' (f i) fun _ _ => True) →
      Adds strict s (xs.forM f) fun _ _ => True := by
  induction xs with
  | nil =>
    intro s _
    exact pure trivial
  | cons i rest ih =>
    intro s hf
    change Adds strict s (f i >>= fun _ => rest.forM f) _
    apply bind (hf s i (.refl s) List.mem_cons_self)
    intro s' _ hbefore _
    apply ih
    intro s'' j hbefore' hj
    exact hf s'' j (hbefore.trans hbefore') (List.mem_cons_of_mem _ hj)

theorem mapM {f : ι → Emit α} (hmono : ∀ s s' a, s.Before s' → P s a → P s' a) (xs : List ι) :
    ∀ {s : Spot}, (∀ s' i, s.Before s' → i ∈ xs → Adds strict s' (f i) P) →
      Adds strict s (xs.mapM f) fun s' as => ∀ a ∈ as, P s' a := by
  induction xs with
  | nil =>
    intro s _
    exact pure (by simp)
  | cons i rest ih =>
    intro s hf
    rw [List.mapM_cons]
    apply bind (hf s i (.refl s) List.mem_cons_self)
    intro s' a hbefore ha
    apply bind (ih fun s'' j hbefore' hj =>
      hf s'' j (hbefore.trans hbefore') (List.mem_cons_of_mem _ hj))
    intro s'' as hbefore' has
    apply pure
    intro a' ha'
    rcases List.mem_cons.mp ha' with rfl | ha'
    · exact hmono _ _ _ hbefore' ha
    · exact has a' ha'

end Adds

end Lowering

end ShaderLang
