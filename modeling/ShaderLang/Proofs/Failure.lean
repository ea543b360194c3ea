import ShaderLang.Proofs.Operations

/-!
# Operations that fail

What an operation on a builder leaves behind where it fails. The checks of an operation come before
its changes, so that a failure uses up the index of a temporary value or the name of a block and
does nothing else (`Builder.Spends`). Finishing a function is the exception: the function is taken
out of the builder before its blocks are looked at, and is lost if one of them is open
(`Operation.spends_iff_of_fault`).
-/

namespace ShaderLang.Ir

/-- A builder with the module, the open function and the insertion point of another one; it may have
used up indices of temporary values and names of blocks. -/
structure Builder.Spends (b b' : Builder) : Prop where
  output : b'.output = b.output
  openFn : b'.openFn = b.openFn
  insertion : b'.insertion = b.insertion
  nextTemp : b.nextTemp ≤ b'.nextTemp
  stems : b.stems <:+ b'.stems

namespace Builder.Spends

variable {b : Builder}

theorem refl (b : Builder) : b.Spends b :=
  ⟨rfl, rfl, rfl, Nat.le_refl _, List.suffix_refl _⟩

theorem temp (b : Builder) : b.Spends { b with nextTemp := b.nextTemp + 1 } :=
  ⟨rfl, rfl, rfl, Nat.le_succ _, List.suffix_refl _⟩

theorem stem (b : Builder) (stem : String) : b.Spends { b with stems := stem :: b.stems } :=
  ⟨rfl, rfl, rfl, Nat.le_refl _, List.suffix_cons _ _⟩

end Builder.Spends

namespace Build

variable {α β : Type}

/-- Wherever the action fails, it only uses something up. -/
def SpendsOnError (x : Build α) : Prop :=
  ∀ b fault b', x b = .error fault b' → b.Spends b'

namespace SpendsOnError

variable {x : Build α}

theorem pure (a : α) : SpendsOnError (Pure.pure a) :=
  fun _ _ _ h => nomatch h

/-- An action that only uses something up unless it succeeds. -/
theorem of_after (h : ∀ b, b.Spends (x.after b) ∨ ∃ a b', x b = .ok a b') : SpendsOnError x := by
  intro b fault b' herror
  rcases h b with hspends | ⟨a, b'', hok⟩
  · rw [after, herror] at hspends
    exact hspends
  · rw [herror] at hok
    cases hok

/-- What is made of the result does not matter. -/
theorem bind_pure (hx : SpendsOnError x) (f : α → β) :
    SpendsOnError (x >>= fun a => Pure.pure (f a)) := by
  intro b fault b' h
  simp only [bind, EStateM.bind] at h
  split at h
  · cases h
  · next hx' =>
    cases h
    exact hx b fault b' hx'

theorem emit (inst : Inst) : SpendsOnError (emit inst) := by
  refine of_after fun b => ?_
  rcases after_emit inst b with h | ⟨hopen, -⟩
  · left
    rw [h]
    exact .refl b
  · exact .inr ⟨_, _, emit_eq hopen inst⟩

theorem emitValue (inst : Nat → Inst) : SpendsOnError (emitValue inst) := by
  refine of_after fun b => ?_
  rcases after_emitValue inst b with h | ⟨hopen, -⟩
  · left
    rw [h]
    exact .temp b
  · exact .inr ⟨_, _, emitValue_eq hopen inst⟩

theorem terminate (t : Terminator) : SpendsOnError (terminate t) := by
  refine of_after fun b => ?_
  rcases after_terminate t b with h | ⟨hopen, -⟩
  · left
    rw [h]
    exact .refl b
  · exact .inr ⟨_, _, terminate_eq hopen t⟩

theorem createBlock (stem : String) : SpendsOnError (createBlock stem) := by
  refine of_after fun b => ?_
  rcases after_createBlock stem b with h | ⟨hopen, -⟩
  · left
    rw [h]
    exact .stem b stem
  · exact .inr ⟨_, _, createBlock_eq hopen stem⟩

theorem allocaIn (id : Nat) (ty : Ty) (name : String) : SpendsOnError (allocaIn id ty name) := by
  refine of_after fun b => ?_
  rcases after_allocaIn id ty name b with ⟨-, h⟩ | ⟨hid, -⟩
  · left
    rw [h]
    exact .temp b
  · exact .inr ⟨_, _, allocaIn_eq hid ty name⟩

theorem beginFunction (name : String) (params : List (String × Ty)) (returnTy : Ty) :
    SpendsOnError (beginFunction name params returnTy) := by
  refine of_after fun b => ?_
  rcases after_beginFunction name params returnTy b with h | ⟨hnone, -⟩
  · left
    rw [h]
    exact .refl b
  · exact .inr ⟨_, _, beginFunction_eq hnone name params returnTy⟩

end SpendsOnError

variable {b b' : Builder} {fault : Builder.Fault}

/-- Finishing fails without an open function, or loses a function with an open block. -/
theorem finishFunction_eq_error (h : finishFunction b = .error fault b') :
    b.openFn = none ∧ fault = .noOpenFunction ∧ b' = b ∨
      ∃ f, ∃ block ∈ f.blocks, b.openFn = some f ∧ block.isTerminated = false ∧
        fault = .unterminated block.name f.name ∧ b' = { b with openFn := none } := by
  simp only [finishFunction, bind, EStateM.bind, get, getThe, MonadStateOf.get, EStateM.get] at h
  cases hf : b.openFn with
  | none =>
    rw [hf] at h
    cases h
    exact .inl ⟨rfl, rfl, rfl⟩
  | some f =>
    rw [hf] at h
    cases hfind : f.blocks.find? (!·.isTerminated) with
    | none =>
      simp only [hfind] at h
      cases h
    | some block =>
      simp only [hfind] at h
      cases h
      have hopen : block.isTerminated = false := by simpa using Array.find?_some hfind
      exact .inr ⟨f, block, Array.mem_of_find?_eq_some hfind, rfl, hopen, rfl, rfl⟩

end Build

namespace Operation

/-- The operation as an action, which fails or not. -/
def action : Operation → Build Unit
  | addGlobal name ty init => discard (Build.addGlobal name ty init)
  | beginFunction name params returnTy => Build.beginFunction name params returnTy
  | finishFunction => Build.finishFunction
  | createBlock stem => discard (Build.createBlock stem)
  | position block => Build.position block
  | alloca ty name => discard (Build.alloca ty name)
  | allocaIn block ty name => discard (Build.allocaIn block ty name)
  | load ty address => discard (Build.load ty address)
  | store address value => Build.store address value
  | binary op ty left right => discard (Build.binary op ty left right)
  | compare predicate left right => discard (Build.compare predicate left right)
  | convert op value => discard (Build.convert op value)
  | extractLane vector lane => discard (Build.extractLane vector lane)
  | insertLane vector value lane => discard (Build.insertLane vector value lane)
  | shuffle vector mask => discard (Build.shuffle vector mask)
  | elementAddress base index => discard (Build.elementAddress base index)
  | call callee arguments givesValue => discard (Build.call callee arguments givesValue)
  | branch target => Build.branch target
  | condBranch condition ifTrue ifFalse => Build.condBranch condition ifTrue ifFalse
  | switch value default cases => Build.switch value default cases
  | ret value => Build.ret value
  | unreachable => Build.unreachable

/-- The fault with which the operation fails, if it does. -/
def fault? (op : Operation) (b : Builder) : Option Builder.Fault :=
  match op.action b with
  | .ok .. => none
  | .error fault _ => some fault

theorem after_action (op : Operation) : op.action.after = op.perform := by
  cases op <;> first | rfl | exact funext (Build.after_bind_pure _ _)

/-- Every operation but one checks first. -/
theorem spendsOnError_action {op : Operation} (hop : op ≠ .finishFunction) :
    op.action.SpendsOnError := by
  cases op with
  | finishFunction => exact absurd rfl hop
  | addGlobal | position => exact fun _ _ _ h => nomatch h
  | beginFunction name params returnTy => exact .beginFunction name params returnTy
  | createBlock stem => exact .bind_pure (.createBlock stem) _
  | allocaIn block ty name => exact .bind_pure (.allocaIn block ty name) _
  | alloca | load | binary | compare | insertLane | shuffle | elementAddress =>
    exact .bind_pure (.emitValue _) _
  | store => exact .emit _
  | convert op value =>
    refine .bind_pure ?_ _
    rw [Build.convert_eq]
    split
    · exact .pure _
    · exact .emitValue _
  | extractLane vector lane =>
    refine .bind_pure ?_ _
    rw [Build.extractLane_eq]
    split
    · exact .pure _
    · exact .emitValue _
  | call callee arguments givesValue =>
    refine .bind_pure ?_ _
    rw [Build.call]
    split
    · exact .bind_pure (.emitValue _) _
    · exact .bind_pure (.emit _) _
  | branch | condBranch | switch | ret | unreachable => exact .terminate _

theorem action_eq_error {op : Operation} {b : Builder} {fault : Builder.Fault}
    (h : op.fault? b = some fault) : op.action b = .error fault (op.perform b) := by
  rw [fault?] at h
  split at h
  · cases h
  · next fault' b' herror =>
    cases h
    rw [herror, ← after_action, Build.after, herror]

/-- An operation that fails leaves the module, the open function and the insertion point as they
were, and at most uses up the index of a temporary value or the name of a block, unless it was to
finish an open function. That function, which has an open block, is lost, and nothing else. -/
theorem spends_iff_of_fault {op : Operation} {b : Builder} {fault : Builder.Fault}
    (h : op.fault? b = some fault) :
    (b.Spends (op.perform b) ↔ ¬ (op = .finishFunction ∧ b.openFn.isSome)) ∧
    (op = .finishFunction → ∀ f, b.openFn = some f →
      (∃ block ∈ f.blocks, block.isTerminated = false ∧
        fault = .unterminated block.name f.name) ∧
      op.perform b = { b with openFn := none }) := by
  have herror := action_eq_error h
  by_cases hop : op = .finishFunction
  · subst hop
    rcases Build.finishFunction_eq_error herror with
      ⟨hnone, -, hsame⟩ | ⟨f, block, hblock, hf, hopen, hfault, hlost⟩
    · rw [hsame]
      simp [hnone, Builder.Spends.refl]
    · rw [hlost]
      refine ⟨⟨fun hspends => ?_, fun hnot => absurd ⟨rfl, by rw [hf]; rfl⟩ hnot⟩, ?_⟩
      · have hkept := hspends.openFn
        rw [hf] at hkept
        cases hkept
      · rintro - f' hf'
        rw [hf] at hf'
        cases hf'
        exact ⟨⟨block, hblock, hopen, hfault⟩, rfl⟩
  · exact ⟨iff_of_true (spendsOnError_action hop b fault _ herror) fun hboth => hop hboth.1,
      fun hfinish => absurd hfinish hop⟩

/-- A function whose only block is open is lost when it is to be finished. -/
theorem spends_iff_of_fault_of_open_block :
    let b := performAll [.beginFunction "f" [] .void, .createBlock "entry"] (.new "sample")
    finishFunction.fault? b = some (.unterminated "entry" "f") ∧
    ¬ b.Spends (finishFunction.perform b) :=
  ⟨rfl, fun h => (spends_iff_of_fault rfl).1.mp h ⟨rfl, rfl⟩⟩

end Operation

end ShaderLang.Ir
