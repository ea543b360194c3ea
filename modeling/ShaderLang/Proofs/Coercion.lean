import ShaderLang.Proofs.TypedStraight

/-!
# Coercion is total

Every value of a type can be brought to every type that has values, in any open block: the coercion
succeeds, appends instructions to that block and does nothing else, and gives a value of the other
type (`coerce_total`). For `void` any value stands, and so it does in what is stored into an array
of `void`; that is why instructions are read with one exception here (`Admitted`).

The statement is put together from the two that are there: that a coercion is straight-line code,
and that what it adds to a well-typed function is well typed. Straight-line code does not depend on
the function that it is added to, so an empty one does for the second (`Supplies.of_keeps`). What is
left is a source of type `void` with a value that is no value of that type.
-/

namespace ShaderLang.Lowering

open Ir (Builder Build Inst Kind TypingEnv)

variable {α β ι : Type} {env : TypingEnv} {kinds kinds' : List Kind}

/-- An instruction type-checks, where a store of nothing may name any value. -/
inductive Admitted (env : TypingEnv) (kinds : List Kind) : Inst → Prop where
  | typed {inst : Inst} (h : inst.Typed env kinds) : Admitted env kinds inst
  | storeNothing {address value : Ir.Value} (h : address.HasKind env kinds (.address .void)) :
      Admitted env kinds (.store address value)

/-- A value stands for one of a source type: it has the intermediate type of that, and for `void`
any value does. -/
def Suits (env : TypingEnv) (kinds : List Kind) (v : Ir.Value) (t : Ty) : Prop :=
  t = .void ∨ HasTy env kinds v t

theorem Admitted.mono (h : kinds <+: kinds') {inst : Inst} (hi : Admitted env kinds inst) :
    Admitted env kinds' inst := by
  cases hi with
  | typed hi => exact .typed (hi.mono h)
  | storeNothing ha => exact .storeNothing (ha.mono h)

theorem Suits.mono (h : kinds <+: kinds') {v : Ir.Value} {t : Ty} (hv : Suits env kinds v t) :
    Suits env kinds' v t :=
  hv.imp_right (Ir.Value.HasKind.mono h)

/-- The action is straight-line code that type-checks under the kinds of its new temporary values,
and `Q` holds of all kinds and of the result. -/
def Supplies (env : TypingEnv) (kinds : List Kind) (x : Emit α) (Q : List Kind → α → Prop) : Prop :=
  Linear x kinds.length fun a code next =>
    ∃ kinds', kinds <+: kinds' ∧ kinds'.length = next ∧ (∀ inst ∈ code, Admitted env kinds' inst) ∧
      Q kinds' a

namespace Supplies

variable {x : Emit α} {P Q : List Kind → α → Prop}

theorem imp (h : Supplies env kinds x P)
    (hPQ : ∀ kinds' a, kinds <+: kinds' → P kinds' a → Q kinds' a) : Supplies env kinds x Q :=
  Linear.imp h fun a _ _ ⟨kinds', hmore, hlength, hcode, hP⟩ =>
    ⟨kinds', hmore, hlength, hcode, hPQ kinds' a hmore hP⟩

theorem pure {a : α} (h : Q kinds a) : Supplies env kinds (Pure.pure a) Q :=
  Linear.pure ⟨kinds, List.prefix_rfl, rfl, by simp, h⟩

theorem bind {f : α → Emit β} {Q : List Kind → β → Prop} (hx : Supplies env kinds x P)
    (hf : ∀ kinds' a, kinds <+: kinds' → P kinds' a → Supplies env kinds' (f a) Q) :
    Supplies env kinds (x >>= f) Q := by
  refine Linear.bind hx ?_
  rintro a code _ ⟨kinds₁, hmore₁, rfl, hcode₁, hP⟩
  refine Linear.imp (hf kinds₁ a hmore₁ hP) ?_
  rintro r code' next ⟨kinds₂, hmore₂, hlength, hcode₂, hQ⟩
  refine ⟨kinds₂, hmore₁.trans hmore₂, hlength, fun inst hi => ?_, hQ⟩
  rcases List.mem_append.mp hi with hi | hi
  · exact (hcode₁ inst hi).mono hmore₂
  · exact hcode₂ inst hi

theorem forM {f : ι → Emit Unit} (xs : List ι) :
    ∀ {kinds : List Kind},
      (∀ kinds' i, kinds <+: kinds' → Supplies env kinds' (f i) fun _ _ => True) →
        Supplies env kinds (xs.forM f) fun _ _ => True := by
  induction xs with
  | nil =>
    intro kinds _
    exact pure trivial
  | cons i rest ih =>
    intro kinds hf
    change Supplies env kinds (f i >>= fun _ => rest.forM f) _
    refine bind (hf kinds i List.prefix_rfl) ?_
    intro kinds' _ hmore _
    refine ih ?_
    intro kinds'' j hmore'
    exact hf kinds'' j (hmore.trans hmore')

/-- A builder with nothing but an empty block, in front of the `n`-th temporary value. -/
def blank (n : Nat) : Builder where
  output := .empty ""
  openFn := some ⟨"", [], .void, #[.empty 0 ""]⟩
  insertion := some 0
  nextTemp := n
  stems := []

theorem isOpen_blank (n : Nat) : (blank n).IsOpen :=
  ⟨0, rfl, _, rfl, rfl⟩

theorem typed_blank : (blank kinds.length).Typed env kinds where
  length := rfl
  blocks id block hblock := by
    have hid : id = 0 := by
      have := Builder.lt_blockCount hblock
      simpa [Builder.blockCount, blank] using this
    subst hid
    cases hblock
    exact .empty 0 ""

/-- Straight-line code is the same everywhere, so it type-checks if it does in an empty block. -/
theorem of_keeps (hx : IsLinear x kinds.length) (h : Keeps env kinds x Q) :
    Supplies env kinds x Q := by
  obtain ⟨a, code, next, hnumbered, hrun, -⟩ := hx
  refine ⟨a, code, next, hnumbered, hrun, ?_⟩
  obtain ⟨kinds', hretyped, hQ⟩ :=
    h _ _ _ typed_blank (hrun (blank kinds.length) (isOpen_blank _) rfl)
  have hlength : kinds'.length = next := by simpa using hretyped.typed.length
  have hblock : ((blank kinds.length).append code next).block? 0 =
      some ((Ir.Block.empty 0 "").append code) := by
    rw [Builder.block?_append]
    rfl
  have htyped := hretyped.typed.blocks 0 _ hblock
  refine ⟨kinds', hretyped.more, hlength, fun inst hi => ?_, hQ⟩
  exact .typed (htyped.insts inst (by simpa using hi))

theorem store {a v : Ir.Value} {t : Ty} (ha : PointsTo env kinds a t) (hv : Suits env kinds v t) :
    Supplies env kinds (liftM (Build.store a v)) fun _ _ => True := by
  refine Linear.emit rfl ⟨kinds, List.prefix_rfl, rfl, fun inst hi => ?_, trivial⟩
  obtain rfl := List.mem_singleton.mp hi
  rcases hv with rfl | hv
  · exact .storeNothing ha
  · exact .typed (.store ha hv)

end Supplies

/-- Reading nothing gives the same scalar whatever the value is. -/
theorem coerce_void_eq (v w : Ir.Value) {target : Ty}
    (h : target.isScalar = true ∨ target.isShaped = true) :
    coerce ⟨v, .void⟩ target = coerce ⟨w, .void⟩ target := by
  have hscalar : scalarOf v .void = scalarOf w .void := rfl
  have hshaped : Ty.void.isShaped = false := rfl
  cases target <;> first
    | (rcases h with h | h <;> cases h; done)
    | (unfold coerce; simp [hscalar, hshaped])

/-- Nothing is brought to a type, by a value that need not be of any type. -/
theorem coerce_void_yields (v : Ir.Value) {target : Ty} (h : target.hasValues = true) :
    Supplies env kinds (coerce ⟨v, .void⟩ target) fun k r => Suits env k r target := by
  have hcode {kinds : List Kind} {t : Ty} (ht : t.hasValues = true)
      (hone : t.isScalar = true ∨ t.isShaped = true) :
      Supplies env kinds (coerce ⟨v, .void⟩ t) fun k r => Suits env k r t := by
    have hundefined : TypedValue.Typed env kinds ⟨.undefined, .void⟩ := .undefined _
    rw [coerce_void_eq v .undefined hone]
    exact (Supplies.of_keeps (coerce_linear _ ht) (coerce_keeps hundefined t)).imp fun _ _ _ => .inr
  induction target generalizing kinds with
  | error => cases h
  | void =>
    unfold coerce
    exact .pure (.inl rfl)
  | int | float | bool => exact hcode rfl (.inl rfl)
  | vec2 | vec3 | vec4 | mat2 | mat3 | mat4 => exact hcode rfl (.inr rfl)
  | array element length ih =>
    unfold coerce
    rw [if_neg (by simp)]
    refine Supplies.bind (.of_keeps (.emitValue rfl) Keeps.alloca) ?_
    intro kinds₁ slot _ hslot
    refine Supplies.bind (ih h) ?_
    intro kinds₂ value hmore₂ hvalue
    have hslot₂ : PointsTo env kinds₂ slot (.array element length) := hslot.mono hmore₂
    refine Supplies.bind (P := fun _ _ => True) (Supplies.forM _ ?_) ?_
    · intro kinds₃ k hmore₃
      refine Supplies.bind (.of_keeps (.emitValue rfl)
        (Keeps.elementAddress (hslot₂.mono hmore₃) (.int _))) ?_
      intro kinds₄ address hmore₄ haddress
      exact .store haddress (hvalue.mono (hmore₃.trans hmore₄))
    · intro kinds₃ _ hmore₃ _
      have hload := Keeps.load (hslot₂.mono hmore₃)
      exact (Supplies.of_keeps (.emitValue rfl) hload).imp fun _ _ _ => .inr

/-- A value of any type is brought to any type that has values. In an open block this succeeds; it
appends instructions to that block, which stays open, and leaves all else as it was; and with kinds
for their results the new value is one of the other type. -/
theorem coerce_total {typed : TypedValue} {target : Ty} {b : Builder}
    (hvalue : Suits env kinds typed.value typed.ty) (htarget : target.hasValues = true)
    (hopen : b.IsOpen) (hkinds : kinds.length = b.nextTemp) :
    ∃ v code kinds', coerce typed target b = .ok v (b.append code kinds'.length) ∧
      (b.append code kinds'.length).IsOpen ∧ kinds <+: kinds' ∧
      (∀ inst ∈ code, Admitted env kinds' inst) ∧ Suits env kinds' v target := by
  have hyields : Supplies env kinds (coerce typed target) fun k r => Suits env k r target := by
    obtain ⟨value, ty⟩ := typed
    rcases hvalue with rfl | hvalue
    · exact coerce_void_yields value htarget
    · exact (Supplies.of_keeps (coerce_linear _ htarget) (coerce_keeps hvalue target)).imp
        fun _ _ _ => .inr
  obtain ⟨v, code, _, -, hrun, kinds', hmore, rfl, hcode, hv⟩ := hyields
  have hopen' := (Builder.IsOpen.append code kinds'.length).mpr hopen
  exact ⟨v, code, kinds', hrun b hopen hkinds.symm, hopen', hmore, hcode, hv⟩

/-- A row of rows of truth values is brought to a row of vectors. -/
theorem coerce_total_of_nested :
    let source := Ty.array (.array .bool 2) 2
    let target := Ty.array .vec3 3
    let env : TypingEnv := ⟨⟨fun _ => none, fun _ => none⟩, [], .void⟩
    let kinds := [Kind.value source.toIr]
    Suits env kinds (.temp 0) source ∧ target.hasValues = true ∧ (Supplies.blank 1).IsOpen ∧
    kinds.length = (Supplies.blank 1).nextTemp ∧
    ∃ v code kinds',
      coerce ⟨.temp 0, source⟩ target (Supplies.blank 1) =
        .ok v ((Supplies.blank 1).append code kinds'.length) ∧
      (∀ inst ∈ code, Admitted env kinds' inst) ∧ HasTy env kinds' v target := by
  intro source target env kinds
  have hvalue : Suits env kinds (.temp 0) source := .inr (.temp rfl)
  obtain ⟨v, code, kinds', hrun, -, -, hcode, hv⟩ :=
    @coerce_total env kinds ⟨.temp 0, source⟩ target _ hvalue rfl (Supplies.isOpen_blank 1) rfl
  refine ⟨hvalue, rfl, Supplies.isOpen_blank 1, rfl, v, code, kinds', hrun, hcode, ?_⟩
  exact hv.resolve_left (by decide)

end ShaderLang.Lowering
