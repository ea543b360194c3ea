import ShaderLang.Proofs.Flow
import ShaderLang.Proofs.Straight

/-!
# When an action succeeds

`Emits x b possible Q` says that an action succeeds in a builder exactly if `possible` holds, and
what then holds of its result and of the builder behind it. As the condition is exact, the rules for
sequences give at once when a whole sequence succeeds and that it fails otherwise.
-/

namespace ShaderLang

namespace Lowering

open Ir (Builder Build Inst)

variable {α β : Type}

/-- The action succeeds in the builder exactly if `possible` holds; then its result and the builder
behind it have the property `Q`. -/
def Emits (x : Emit α) (b : Builder) (possible : Prop) (Q : α → Builder → Prop) : Prop :=
  match x b with
  | .ok a b' => possible ∧ Q a b'
  | .error _ _ => ¬ possible

namespace Emits

variable {x : Emit α} {f : α → Emit β} {b : Builder} {p p' : Prop} {P : α → Builder → Prop}

theorem of_ok {a : α} {b' : Builder} (hx : x b = .ok a b') (hp : p) (hP : P a b') :
    Emits x b p P := by
  unfold Emits
  rw [hx]
  exact ⟨hp, hP⟩

theorem of_error {fault : Fault} {b' : Builder} (hx : x b = .error fault b') (hp : ¬ p) :
    Emits x b p P := by
  unfold Emits
  rw [hx]
  exact hp

theorem exists_ok (h : Emits x b p P) (hp : p) : ∃ a b', x b = .ok a b' ∧ P a b' := by
  unfold Emits at h
  split at h
  · next a b' hx => exact ⟨a, b', hx, h.2⟩
  · exact absurd hp h

theorem exists_error (h : Emits x b p P) (hp : ¬ p) : ∃ fault b', x b = .error fault b' := by
  unfold Emits at h
  split at h
  · exact absurd h.1 hp
  · next fault b' hx => exact ⟨fault, b', hx⟩

theorem ok_imp {a : α} {b' : Builder} (h : Emits x b p P) (hx : x b = .ok a b') : p ∧ P a b' := by
  unfold Emits at h
  rwa [hx] at h

theorem imp {Q : α → Builder → Prop} (h : Emits x b p P)
    (hPQ : ∀ a b', x b = .ok a b' → p → P a b' → Q a b') : Emits x b p Q := by
  unfold Emits at h ⊢
  split
  · next a b' hx =>
    rw [hx] at h
    exact ⟨h.1, hPQ a b' hx h.1 h.2⟩
  · next fault b' hx =>
    rw [hx] at h
    exact h

theorem congr (h : Emits x b p P) (hp : p ↔ p') : Emits x b p' P :=
  propext hp ▸ h

theorem pure {a : α} (h : P a b) : Emits (Pure.pure a) b True P :=
  of_ok rfl trivial h

theorem throw (fault : Fault) : Emits (MonadExcept.throw fault) b False P :=
  of_error (rfl : _ = EStateM.Result.error fault b) id

theorem bind {Q : β → Builder → Prop} (hx : Emits x b p P)
    (hf : ∀ a b', x b = .ok a b' → p → P a b' → Emits (f a) b' p' Q) :
    Emits (x >>= f) b (p ∧ p') Q := by
  by_cases hp : p
  · obtain ⟨a, b', hxb, hP⟩ := hx.exists_ok hp
    have h := hf a b' hxb hp hP
    unfold Emits at h ⊢
    rw [Emit.bind_eq hxb]
    split
    · next hfb =>
      rw [hfb] at h
      exact ⟨⟨hp, h.1⟩, h.2⟩
    · next hfb =>
      rw [hfb] at h
      exact fun h' => h h'.2
  · obtain ⟨fault, b', hxb⟩ := hx.exists_error hp
    have hxf : (x >>= f) b = .error fault b' := by simp [Bind.bind, EStateM.bind, hxb]
    exact of_error hxf fun h => hp h.1

/-- An action that always succeeds comes first. -/
theorem bind_ok {a : α} {b' : Builder} {Q : β → Builder → Prop} (hx : x b = .ok a b')
    (hf : Emits (f a) b' p Q) : Emits (x >>= f) b p Q :=
  (bind (P := fun a' b'' => a' = a ∧ b'' = b') (of_ok hx trivial ⟨rfl, rfl⟩) (by
    rintro _ _ _ _ ⟨rfl, rfl⟩
    exact hf)).congr (by simp)

/-- An action that succeeds whatever holds comes first. -/
theorem bind_true {Q : β → Builder → Prop} (hx : Emits x b True P)
    (hf : ∀ a b', x b = .ok a b' → P a b' → Emits (f a) b' p Q) : Emits (x >>= f) b p Q :=
  (hx.bind fun a b' h _ hP => hf a b' h hP).congr (by simp)

/-- An action that succeeds whatever holds comes last. -/
theorem andThen {Q : β → Builder → Prop} (hx : Emits x b p P)
    (hf : ∀ a b', x b = .ok a b' → p → P a b' → Emits (f a) b' True Q) : Emits (x >>= f) b p Q :=
  (hx.bind hf).congr (and_iff_left trivial)

theorem fails_bind {Q : β → Builder → Prop} (hx : Emits x b False P) : Emits (x >>= f) b False Q :=
  hx.andThen fun _ _ _ h _ => h.elim

theorem get_bind {k : Builder → Emit β} {Q : β → Builder → Prop} (h : Emits (k b) b p Q) :
    Emits (get >>= k) b p Q :=
  bind_ok (rfl : (get : Emit Builder) b = .ok b b) h

/-- A block is added behind those that were added before. -/
theorem createBlock {k : Nat → Emit β} {Q : β → Builder → Prop} (stems : List String) {stem : String}
    (hb : b.openFn.isSome)
    (h : Emits (k (b.blockCount + stems.length)) (b.addBlocks (stems ++ [stem])) p Q) :
    Emits (liftM (Build.createBlock stem) >>= k) (b.addBlocks stems) p Q := by
  refine bind_ok (Emit.lift_eq (Build.createBlock_eq (by simpa) stem)) ?_
  rw [Builder.blockCount_addBlocks stems hb]
  simpa only [Builder.addBlocks, List.foldl_append, List.foldl_cons, List.foldl_nil] using h

theorem lift {y : Build α} {a : α} {b' : Builder} (hy : y b = .ok a b') (hP : P a b') :
    Emits (liftM y) b True P :=
  of_ok (Emit.lift_eq hy) trivial hP

theorem of_linear {P : α → List Inst → Nat → Prop} (hb : b.IsOpen) (h : Linear x b.nextTemp P) :
    Emits x b True fun a b' =>
      ∃ code n', Numbered b.nextTemp code n' ∧ b' = b.append code n' ∧ P a code n' := by
  obtain ⟨a, code, n', hn, hx, hP⟩ := h
  exact of_ok (hx b hb rfl) trivial ⟨code, n', hn, rfl, hP⟩

theorem of_isLinear (hb : b.IsOpen) (h : ∀ n, IsLinear x n) :
    Emits x b True fun _ b' => b.Flows b' := by
  refine (of_linear hb (h _)).imp ?_
  rintro _ _ - - ⟨code, n', hn, rfl, -⟩
  exact .append hb code hn.1

theorem of_linearTo {x : Emit TypedValue} {t : Ty} (hb : b.IsOpen) (h : ∀ n, LinearTo x n t) :
    Emits x b True fun a b' => a.ty = t ∧ b.Flows b' := by
  refine (of_linear hb (h _)).imp ?_
  rintro a _ - - ⟨code, n', hn, rfl, ht⟩
  exact ⟨ht, .append hb code hn.1⟩

theorem orFault_bind {a : α} {fault : Fault} {k : α → Emit β} {Q : β → Builder → Prop}
    (h : Emits (k a) b p Q) : Emits (Lowering.orFault (some a) fault >>= k) b p Q :=
  h

theorem orFault {a : Option α} {fault : Fault} (hP : ∀ x, a = some x → P x b) :
    Emits (orFault a fault) b a.isSome P := by
  cases a with
  | none => exact (throw fault).congr (by simp)
  | some x => exact (pure (hP x rfl)).congr (by simp)

end Emits

end Lowering

end ShaderLang
