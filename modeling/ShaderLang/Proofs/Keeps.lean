import ShaderLang.Proofs.Emission
import ShaderLang.Proofs.WellTyped

/-!
# Actions that keep a function well typed

`Keeps env kinds x Q` says of an action: wherever it succeeds in a function that type-checks under
some kinds, what it adds type-checks too, once its new temporary values are given kinds; `Q` then
holds of all kinds and of the result. Nothing is asked of the insertion point, because an operation
that has no block to work on does not succeed.
-/

namespace ShaderLang

namespace Ir

/-- The open function of a builder type-checks; there is one kind for each temporary value. -/
structure Builder.Typed (env : TypingEnv) (kinds : List Kind) (b : Builder) : Prop where
  length : kinds.length = b.nextTemp
  blocks : ∀ id block, b.block? id = some block → block.Typed env kinds

namespace Block.Typed

variable {env : TypingEnv} {kinds : List Kind} {block : Block}

theorem empty (id : Nat) (name : String) : (Block.empty id name).Typed env kinds where
  insts inst hi := absurd hi (by simp)
  terminator t ht := absurd ht (by simp)

theorem append (h : block.Typed env kinds) {inst : Inst} (hi : inst.Typed env kinds) :
    (block.append [inst]).Typed env kinds where
  insts other ho := by
    rw [insts_append, Array.mem_append] at ho
    rcases ho with ho | ho
    · exact h.insts other ho
    · have heq : other = inst := by simpa using ho
      rw [heq]
      exact hi
  terminator := h.terminator

theorem close (h : block.Typed env kinds) {t : Terminator} (ht : t.Typed env kinds) :
    (block.close t).Typed env kinds where
  insts := h.insts
  terminator other ho := by
    rw [terminator_close, Option.mem_some] at ho
    rw [← ho]
    exact ht

end Block.Typed

namespace Builder.Typed

variable {env : TypingEnv} {kinds kinds' : List Kind} {b : Builder}

theorem append (h : b.Typed env kinds) (hk : kinds <+: kinds') {inst : Inst}
    (hi : inst.Typed env kinds') : (b.append [inst] kinds'.length).Typed env kinds' where
  length := by simp
  blocks id block hblock := by
    rw [block?_append] at hblock
    split at hblock
    · obtain ⟨old, hold, rfl⟩ := Option.map_eq_some_iff.mp hblock
      exact ((h.blocks id old hold).mono hk).append hi
    · exact (h.blocks id block hblock).mono hk

theorem close (h : b.Typed env kinds) {t : Terminator} (ht : t.Typed env kinds) :
    (b.close t).Typed env kinds where
  length := by simpa using h.length
  blocks id block hblock := by
    rw [block?_close] at hblock
    split at hblock
    · obtain ⟨old, hold, rfl⟩ := Option.map_eq_some_iff.mp hblock
      exact (h.blocks id old hold).close ht
    · exact h.blocks id block hblock

theorem addBlock (h : b.Typed env kinds) (hb : b.openFn.isSome) (stem : String) :
    (b.addBlock stem).Typed env kinds where
  length := h.length
  blocks id block hblock := by
    rw [block?_addBlock stem hb] at hblock
    split at hblock
    · cases hblock
      exact .empty id _
    · exact h.blocks id block hblock

theorem moveTo (h : b.Typed env kinds) (id : Nat) : (b.moveTo id).Typed env kinds :=
  ⟨h.length, h.blocks⟩

theorem allocIn (h : b.Typed env kinds) (id : Nat) (ty : Ty) (name : String) :
    (b.allocIn id ty name).Typed env (kinds ++ [.address ty]) where
  length := by simp [h.length]
  blocks j block hblock := by
    have hk : kinds <+: kinds ++ [.address ty] := List.prefix_append _ _
    rw [block?_allocIn] at hblock
    split at hblock
    · obtain ⟨old, hold, rfl⟩ := Option.map_eq_some_iff.mp hblock
      refine ((h.blocks j old hold).mono hk).append (.alloca ?_)
      rw [← h.length, List.getElem?_concat_length]
    · exact (h.blocks j block hblock).mono hk

end Builder.Typed

namespace Build

/-! ## Operations that succeed -/

variable {α β : Type} {b b' b'' : Builder}

theorem bind_eq_ok {x : Build α} {f : α → Build β} {c : β} (h : (x >>= f) b = .ok c b'') :
    ∃ a b', x b = .ok a b' ∧ f a b' = .ok c b'' := by
  simp only [bind, EStateM.bind] at h
  cases hx : x b with
  | ok a b' =>
    rw [hx] at h
    exact ⟨a, b', rfl, h⟩
  | error fault b' =>
    rw [hx] at h
    cases h

theorem insertionPoint_eq_ok {r : Nat × Block} (h : insertionPoint b = .ok r b') :
    b' = b ∧ b.insertion = some r.1 ∧ b.block? r.1 = some r.2 := by
  obtain ⟨_, _, hget, h⟩ := bind_eq_ok h
  cases hget
  cases hid : b.insertion with
  | none =>
    rw [hid] at h
    cases h
  | some id =>
    cases hf : b.openFn with
    | none =>
      simp only [hid, hf] at h
      cases h
    | some f =>
      cases hblock : f.blocks[id]? with
      | none =>
        simp only [hid, hf, hblock] at h
        cases h
      | some block =>
        simp only [hid, hf, hblock] at h
        cases h
        exact ⟨rfl, rfl, by simp [Builder.block?, hf, hblock]⟩

theorem isOpen_of_insertionPoint {r : Nat × Block} (h : insertionPoint b = .ok r b')
    (hterm : ¬ r.2.isTerminated = true) : b.IsOpen := by
  obtain ⟨-, hid, hblock⟩ := insertionPoint_eq_ok h
  exact ⟨r.1, hid, r.2, hblock, by simpa [Block.isTerminated] using hterm⟩

theorem isOpen_of_emit {inst : Inst} (h : emit inst b = .ok () b') : b.IsOpen := by
  rw [emit] at h
  obtain ⟨r, b₁, hpoint, h⟩ := bind_eq_ok h
  dsimp only at h
  split at h
  · cases h
  · next hterm => exact isOpen_of_insertionPoint hpoint hterm

theorem emit_eq_ok {inst : Inst} (h : emit inst b = .ok () b') :
    b' = b.append [inst] b.nextTemp := by
  rw [emit_eq (isOpen_of_emit h)] at h
  cases h
  rfl

theorem emitValue_eq_ok {inst : Nat → Inst} {v : Value} (h : emitValue inst b = .ok v b') :
    v = .temp b.nextTemp ∧ b' = b.append [inst b.nextTemp] (b.nextTemp + 1) := by
  have hopen : b.IsOpen := by
    rw [emitValue] at h
    obtain ⟨_, _, hnew, h⟩ := bind_eq_ok h
    cases hnew
    obtain ⟨_, _, hemit, -⟩ := bind_eq_ok h
    have hnext : ({ b with nextTemp := b.nextTemp + 1 } : Builder).IsOpen := isOpen_of_emit hemit
    exact hnext
  rw [emitValue_eq hopen] at h
  cases h
  exact ⟨rfl, rfl⟩

theorem terminate_eq_ok {t : Terminator} (h : terminate t b = .ok () b') : b' = b.close t := by
  have hopen : b.IsOpen := by
    rw [terminate] at h
    obtain ⟨r, b₁, hpoint, h⟩ := bind_eq_ok h
    dsimp only at h
    split at h
    · cases h
    · next hterm => exact isOpen_of_insertionPoint hpoint hterm
  rw [terminate_eq hopen] at h
  cases h
  rfl

theorem createBlock_eq_ok {stem : String} {id : Nat} (h : createBlock stem b = .ok id b') :
    b.openFn.isSome ∧ b' = b.addBlock stem := by
  have hopen : b.openFn.isSome := by
    cases hf : b.openFn with
    | some f => rfl
    | none =>
      simp [createBlock, hf, bind, EStateM.bind, get, getThe, MonadStateOf.get, EStateM.get, modify,
        modifyGet, MonadStateOf.modifyGet, EStateM.modifyGet, throw, throwThe, MonadExceptOf.throw,
        EStateM.throw] at h
  rw [createBlock_eq hopen] at h
  cases h
  exact ⟨hopen, rfl⟩

theorem allocaIn_eq_ok {id : Nat} {ty : Ty} {name : String} {v : Value}
    (h : allocaIn id ty name b = .ok v b') :
    v = .temp b.nextTemp ∧ b' = b.allocIn id ty name := by
  have hlt : id < b.blockCount := by
    rw [allocaIn] at h
    obtain ⟨_, _, hnew, h⟩ := bind_eq_ok h
    cases hnew
    obtain ⟨_, _, hget, h⟩ := bind_eq_ok h
    cases hget
    cases hf : b.openFn with
    | none =>
      simp only [hf] at h
      cases h
    | some f =>
      simp only [hf] at h
      split at h
      · simpa [Builder.blockCount, hf] using ‹_›
      · cases h
  rw [allocaIn_eq hlt] at h
  cases h
  exact ⟨rfl, rfl⟩

end Build

end Ir

namespace Lowering

open Ir (Builder Build Inst Kind TypingEnv Terminator)

/-- What an action has added type-checks, under more kinds. -/
structure Retyped (env : TypingEnv) (kinds : List Kind) (b : Builder) (kinds' : List Kind)
    (b' : Builder) : Prop where
  header : b'.header = b.header
  output : b'.output = b.output
  more : kinds <+: kinds'
  typed : b'.Typed env kinds'

/-- Wherever the action succeeds in a function that type-checks, what it adds type-checks, and `Q`
holds of the kinds and of the result. -/
def Keeps {α : Type} (env : TypingEnv) (kinds : List Kind) (x : Emit α)
    (Q : List Kind → α → Prop) : Prop :=
  ∀ b a b', b.Typed env kinds → x b = .ok a b' →
    ∃ kinds', Retyped env kinds b kinds' b' ∧ Q kinds' a

variable {α β ι : Type} {env : TypingEnv} {kinds : List Kind}

theorem Emit.lift_eq_ok {x : Build α} {b b' : Builder} {a : α}
    (h : (liftM x : Emit α) b = .ok a b') : x b = .ok a b' := by
  simp only [liftM, monadLift, MonadLift.monadLift, Emit.ofBuild] at h
  split at h
  · next hx =>
    cases h
    exact hx
  · cases h

theorem Retyped.refl {b : Builder} (h : b.Typed env kinds) : Retyped env kinds b kinds b :=
  ⟨rfl, rfl, List.prefix_rfl, h⟩

theorem Retyped.trans {kinds' kinds'' : List Kind} {b b' b'' : Builder}
    (h : Retyped env kinds b kinds' b') (h' : Retyped env kinds' b' kinds'' b'') :
    Retyped env kinds b kinds'' b'' :=
  ⟨h'.header.trans h.header, h'.output.trans h.output, h.more.trans h'.more, h'.typed⟩

namespace Keeps

variable {x : Emit α} {P Q : List Kind → α → Prop}

theorem imp (h : Keeps env kinds x P) (hPQ : ∀ kinds' a, kinds <+: kinds' → P kinds' a → Q kinds' a) :
    Keeps env kinds x Q := by
  intro b a b' hb hx
  obtain ⟨kinds', hr, hP⟩ := h b a b' hb hx
  exact ⟨kinds', hr, hPQ kinds' a hr.more hP⟩

theorem pure {a : α} (h : Q kinds a) : Keeps env kinds (Pure.pure a) Q := by
  intro b a b' hb hx
  cases hx
  exact ⟨kinds, .refl hb, h⟩

theorem throw (fault : Fault) : Keeps env kinds (MonadExcept.throw fault) Q := by
  intro b a b' hb hx
  cases hx

theorem bind {f : α → Emit β} {Q : List Kind → β → Prop} (hx : Keeps env kinds x P)
    (hf : ∀ kinds' a, kinds <+: kinds' → P kinds' a → Keeps env kinds' (f a) Q) :
    Keeps env kinds (x >>= f) Q := by
  intro b c b'' hb h
  obtain ⟨a, b', hxb, hfb⟩ := Emit.bind_eq_ok.mp h
  obtain ⟨kinds', hr, hP⟩ := hx b a b' hb hxb
  obtain ⟨kinds'', hr', hQ⟩ := hf kinds' a hr.more hP b' c b'' hr.typed hfb
  exact ⟨kinds'', hr.trans hr', hQ⟩

theorem get_bind {k : Builder → Emit β} {Q : List Kind → β → Prop}
    (h : ∀ b, Keeps env kinds (k b) Q) : Keeps env kinds (get >>= k) Q := by
  intro b c b' hb hk
  exact h b b c b' hb hk

theorem orFault {a : Option α} {fault : Fault} (h : ∀ v, a = some v → Q kinds v) :
    Keeps env kinds (Lowering.orFault a fault) Q := by
  cases a with
  | none => exact throw fault
  | some v => exact pure (h v rfl)

theorem lift_bind {x : Build α} {f : α → Build β} {Q : List Kind → β → Prop}
    (h : Keeps env kinds ((liftM x : Emit α) >>= fun a => liftM (f a)) Q) :
    Keeps env kinds (liftM (x >>= f)) Q := by
  rw [Emit.lift_bind]
  exact h

/-! ## Operations of the builder -/

theorem emit {inst : Inst} {Q : List Kind → Unit → Prop} (hi : inst.Typed env kinds)
    (h : Q kinds ()) : Keeps env kinds (liftM (Build.emit inst)) Q := by
  intro b _ b' hb hx
  have heq := Build.emit_eq_ok (Emit.lift_eq_ok hx)
  rw [← hb.length] at heq
  subst heq
  exact ⟨kinds, ⟨by simp, by simp, List.prefix_rfl, hb.append List.prefix_rfl hi⟩, h⟩

/-- An instruction with a result, which is given a kind. -/
theorem emitValue {inst : Nat → Inst} {Q : List Kind → Ir.Value → Prop} (kind : Kind)
    (hi : (kinds ++ [kind])[kinds.length]? = some kind → kinds <+: kinds ++ [kind] →
      (inst kinds.length).Typed env (kinds ++ [kind]))
    (h : Ir.Value.HasKind env (kinds ++ [kind]) (.temp kinds.length) kind →
      Q (kinds ++ [kind]) (.temp kinds.length)) :
    Keeps env kinds (liftM (Build.emitValue inst)) Q := by
  intro b v b' hb hx
  obtain ⟨rfl, heq⟩ := Build.emitValue_eq_ok (Emit.lift_eq_ok hx)
  have hlength : b.nextTemp + 1 = (kinds ++ [kind]).length := by simp [hb.length]
  have hmore : kinds <+: kinds ++ [kind] := List.prefix_append _ _
  have hlast : (kinds ++ [kind])[kinds.length]? = some kind := List.getElem?_concat_length
  rw [← hb.length] at heq ⊢
  rw [← hb.length] at hlength
  rw [hlength] at heq
  subst heq
  exact ⟨kinds ++ [kind], ⟨by simp, by simp, hmore, hb.append hmore (hi hlast hmore)⟩,
    h (.temp hlast)⟩

theorem terminate {t : Terminator} {Q : List Kind → Unit → Prop} (ht : t.Typed env kinds)
    (h : Q kinds ()) : Keeps env kinds (liftM (Build.terminate t)) Q := by
  intro b _ b' hb hx
  have heq := Build.terminate_eq_ok (Emit.lift_eq_ok hx)
  subst heq
  exact ⟨kinds, ⟨by simp, by simp, List.prefix_rfl, hb.close ht⟩, h⟩

theorem createBlock {stem : String} {Q : List Kind → Nat → Prop} (h : ∀ id, Q kinds id) :
    Keeps env kinds (liftM (Build.createBlock stem)) Q := by
  intro b id b' hb hx
  obtain ⟨hopen, rfl⟩ := Build.createBlock_eq_ok (Emit.lift_eq_ok hx)
  exact ⟨kinds, ⟨by simp, by simp, List.prefix_rfl, hb.addBlock hopen stem⟩, h id⟩

theorem position {id : Nat} {Q : List Kind → Unit → Prop} (h : Q kinds ()) :
    Keeps env kinds (liftM (Build.position id)) Q := by
  intro b _ b' hb hx
  cases hx
  exact ⟨kinds, ⟨rfl, rfl, List.prefix_rfl, hb.moveTo id⟩, h⟩

theorem allocaIn {id : Nat} {ty : Ir.Ty} {name : String} :
    Keeps env kinds (liftM (Build.allocaIn id ty name)) fun k v =>
      v.HasKind env k (.address ty) := by
  intro b v b' hb hx
  obtain ⟨rfl, rfl⟩ := Build.allocaIn_eq_ok (Emit.lift_eq_ok hx)
  rw [← hb.length]
  have hlast : (kinds ++ [.address ty])[kinds.length]? = some (Kind.address ty) :=
    List.getElem?_concat_length
  exact ⟨kinds ++ [.address ty], ⟨by simp, by simp, List.prefix_append _ _, hb.allocIn id ty name⟩,
    .temp hlast⟩

section

variable {f : Unit → Emit β} {Q : List Kind → β → Prop}

theorem terminate_bind {t : Terminator} (ht : t.Typed env kinds) (h : Keeps env kinds (f ()) Q) :
    Keeps env kinds (liftM (Build.terminate t) >>= f) Q := by
  refine bind (terminate (Q := fun k _ => k = kinds) ht rfl) ?_
  rintro _ _ _ rfl
  exact h

theorem createBlock_bind {stem : String} {f : Nat → Emit β} (h : ∀ id, Keeps env kinds (f id) Q) :
    Keeps env kinds (liftM (Build.createBlock stem) >>= f) Q := by
  refine bind (createBlock (Q := fun k _ => k = kinds) fun _ => rfl) ?_
  rintro _ id _ rfl
  exact h id

theorem position_bind {id : Nat} (h : Keeps env kinds (f ()) Q) :
    Keeps env kinds (liftM (Build.position id) >>= f) Q := by
  refine bind (position (Q := fun k _ => k = kinds) rfl) ?_
  rintro _ _ _ rfl
  exact h

end

/-! ## Loops -/

theorem foldlM {f : α → ι → Emit α} {I : List Kind → α → Prop} (xs : List ι) :
    ∀ {kinds : List Kind} {a : α}, (∀ kinds' a i, kinds <+: kinds' → i ∈ xs → I kinds' a →
      Keeps env kinds' (f a i) I) → I kinds a → Keeps env kinds (xs.foldlM f a) I := by
  induction xs with
  | nil =>
    intro kinds a _ h
    exact pure h
  | cons i rest ih =>
    intro kinds a hf h
    rw [List.foldlM_cons]
    refine bind (hf kinds a i List.prefix_rfl List.mem_cons_self h) ?_
    intro kinds' a' hmore h'
    refine ih ?_ h'
    intro kinds'' a'' j hmore' hj
    exact hf kinds'' a'' j (hmore.trans hmore') (List.mem_cons_of_mem _ hj)

theorem forM {f : ι → Emit Unit} (xs : List ι) :
    ∀ {kinds : List Kind}, (∀ kinds' i, kinds <+: kinds' → i ∈ xs →
      Keeps env kinds' (f i) fun _ _ => True) → Keeps env kinds (xs.forM f) fun _ _ => True := by
  induction xs with
  | nil =>
    intro kinds _
    exact pure trivial
  | cons i rest ih =>
    intro kinds hf
    change Keeps env kinds (f i >>= fun _ => rest.forM f) _
    refine bind (hf kinds i List.prefix_rfl List.mem_cons_self) ?_
    intro kinds' _ hmore _
    refine ih ?_
    intro kinds'' j hmore' hj
    exact hf kinds'' j (hmore.trans hmore') (List.mem_cons_of_mem _ hj)

theorem mapM {f : ι → Emit α} (hmono : ∀ kinds kinds' a, kinds <+: kinds' → P kinds a → P kinds' a)
    (xs : List ι) : ∀ {kinds : List Kind}, (∀ kinds' i, kinds <+: kinds' → i ∈ xs →
      Keeps env kinds' (f i) P) →
    Keeps env kinds (xs.mapM f) fun kinds' as => as.length = xs.length ∧ ∀ a ∈ as, P kinds' a := by
  induction xs with
  | nil =>
    intro kinds _
    exact pure ⟨rfl, by simp⟩
  | cons i rest ih =>
    intro kinds hf
    rw [List.mapM_cons]
    refine bind (hf kinds i List.prefix_rfl List.mem_cons_self) ?_
    intro kinds' a hmore ha
    refine bind (ih fun kinds'' j hmore' hj =>
      hf kinds'' j (hmore.trans hmore') (List.mem_cons_of_mem _ hj)) ?_
    intro kinds'' as hmore' has
    refine pure ⟨by simp [has.1], ?_⟩
    intro a' ha'
    rcases List.mem_cons.mp ha' with rfl | ha'
    · exact hmono _ _ _ hmore' ha
    · exact has.2 a' ha'

end Keeps

end Lowering

end ShaderLang
