import ShaderLang.Proofs.Clean
import ShaderLang.Proofs.Emits

/-!
# Lowering a clean expression

A clean expression is lowered exactly if it has code (`expr_emits`), to a value of type `valueTy`,
and control flows from the block it began in to the one it ends in. The table of the lowering knows
the declarations that the checker knows, each with its storage: `Stored`.
-/

namespace ShaderLang

open Check

/-- The table of the lowering has the same declarations as that of the checker, with storage. -/
structure Stored (c g : SymbolTable) : Prop where
  decl : ∀ name, (g.lookup? name).map Symbol.decl = (c.lookup? name).map Symbol.decl
  address : ∀ name s v, g.lookup? name = some s → s.decl = .var v →
    ∃ a, s.storage = some (.address a)
  generated : ∀ name s f, g.lookup? name = some s → s.decl = .fn f →
    s.storage = some (.function f.name.name)

namespace Stored

variable {c g : SymbolTable}

theorem exists_symbol (h : Stored c g) {name : String} {s : Symbol} (hs : c.lookup? name = some s) :
    ∃ s', g.lookup? name = some s' ∧ s'.decl = s.decl := by
  have := h.decl name
  rw [hs, Option.map_some, Option.map_eq_some_iff] at this
  exact this

theorem push (h : Stored c g) : Stored c.push g.push where
  decl := by simpa using h.decl
  address := by simpa using h.address
  generated := by simpa using h.generated

theorem declareVar (h : Stored c g) (v : VarDecl) (a : Ir.Value) :
    Stored (c.declare (.ofVar v)) (g.declare ((Symbol.ofVar v).withStorage (.address a))) where
  decl name := by
    simp only [SymbolTable.lookup?_declare]
    have hname : ((Symbol.ofVar v).withStorage (.address a)).name = (Symbol.ofVar v).name := rfl
    rw [hname]
    split
    · rfl
    · exact h.decl name
  address name s v' hs hv := by
    rw [SymbolTable.lookup?_declare] at hs
    split at hs
    · cases hs
      exact ⟨a, rfl⟩
    · exact h.address name s v' hs hv
  generated name s f hs hf := by
    rw [SymbolTable.lookup?_declare] at hs
    split at hs
    · cases hs
      cases hf
    · exact h.generated name s f hs hf

theorem declareFn (h : Stored c g) (f : FnDecl) :
    Stored (c.declare (.ofFn f))
      (g.declare ((Symbol.ofFn f).withStorage (.function f.name.name))) where
  decl name := by
    simp only [SymbolTable.lookup?_declare]
    have hname : ((Symbol.ofFn f).withStorage (.function f.name.name)).name = (Symbol.ofFn f).name :=
      rfl
    rw [hname]
    split
    · rfl
    · exact h.decl name
  address name s v hs hv := by
    rw [SymbolTable.lookup?_declare] at hs
    split at hs
    · cases hs
      cases hv
    · exact h.address name s v hs hv
  generated name s f' hs hf := by
    rw [SymbolTable.lookup?_declare] at hs
    split at hs
    · cases hs
      cases hf
      rfl
    · exact h.generated name s f' hs hf

theorem variablePlace_eq (h : Stored c g) {name : String} {t : Ty}
    (ht : Typing.variableTy? c name = some t) :
    ∃ s v a, g.lookup? name = some s ∧ s.decl = .var v ∧ v.ty = t ∧ s.storage = some (.address a) ∧
      Lowering.variablePlace g name = pure (.whole a t) := by
  unfold Typing.variableTy? at ht
  cases hs : c.lookup? name with
  | none => simp [hs] at ht
  | some s =>
    obtain ⟨s', hs', hdecl⟩ := h.exists_symbol hs
    cases hd : s.decl with
    | fn f => simp [hs, Symbol.var?, hd] at ht
    | var v =>
      simp only [hs, Symbol.var?, hd, Option.bind_some, Option.map_some, Option.some.injEq] at ht
      subst ht
      obtain ⟨a, ha⟩ := h.address name s' v hs' (hdecl.trans hd)
      refine ⟨s', v, a, hs', hdecl.trans hd, rfl, ha, ?_⟩
      simp [Lowering.variablePlace, hs', ha, Symbol.var?, hdecl, hd]

theorem exists_fn (h : Stored c g) {name : String} {f : FnDecl}
    (hf : Typing.function? c name = some f) :
    ∃ s, g.lookup? name = some s ∧ s.decl = .fn f := by
  unfold Typing.function? at hf
  cases hs : c.lookup? name with
  | none => simp [hs] at hf
  | some s =>
    obtain ⟨s', hs', hdecl⟩ := h.exists_symbol hs
    cases hd : s.decl with
    | var v => simp [hs, Symbol.fn?, hd] at hf
    | fn f' =>
      simp only [hs, Symbol.fn?, hd, Option.bind_some, Option.some.injEq] at hf
      subst hf
      exact ⟨s', hs', hdecl.trans hd⟩

theorem function?_eq (h : Stored c g) {name : String} {f : FnDecl}
    (hf : Typing.function? c name = some f) :
    Lowering.function? g name = pure (f, f.name.name) := by
  obtain ⟨s, hs, hdecl⟩ := h.exists_fn hf
  have hg := h.generated name s f hs hdecl
  simp [Lowering.function?, hs, hg, Symbol.fn?, hdecl]

end Stored

namespace Lowering

open Ir (Builder Build)

variable {c g : SymbolTable} {b : Builder}

theorem coerce_error (value : TypedValue) :
    coerce value .error =
      if value.ty = .error then pure value.value else throw .valueOfErrorType := by
  unfold coerce
  split <;> rfl

theorem coerce_emits {value : TypedValue} {ty : Ty} (hb : b.IsOpen)
    (hty : ty ≠ .error → ty.hasValues = true) :
    Emits (coerce value ty) b (ty = .error → value.ty = .error) fun _ b' => b.Flows b' := by
  by_cases h : ty = .error
  · subst h
    rw [coerce_error]
    split
    · next hv => exact (Emits.pure (.refl hb)).congr (by simp [hv])
    · next hv => exact (Emits.throw _).congr (by simp [hv])
  · refine Emits.congr ((Emits.of_linear hb (coerce_linear value (hty h))).imp ?_) (by simp [h])
    rintro _ _ - - ⟨code, n', hn, rfl, -⟩
    exact .append hb code hn.1

theorem endArm_emits {block joined : Nat} {slot : Ir.Value} {ty : Ty} {value : TypedValue}
    (hblock : b.Unfinished block) (hty : ty ≠ .error → ty.hasValues = true) :
    Emits (endArm block joined slot ty value) b (ty = .error → value.ty = .error) fun _ b' =>
      b.Closes block b' := by
  have hopen : (b.moveTo block).IsOpen := Ir.Builder.isOpen_moveTo.mpr hblock
  refine Emits.bind_ok (Emit.lift_eq (Build.position_eq block)) ?_
  refine (coerce_emits hopen hty).andThen ?_
  rintro stored b₁ - - hflow
  refine Emits.bind_ok (Emit.lift_eq (Build.emit_eq hflow.isOpen (.store slot stored))) ?_
  have hflow' := hflow.trans (.append hflow.isOpen [.store slot stored] (Nat.le_refl _))
  refine Emits.lift (Build.terminate_eq hflow'.isOpen (.branch joined)) ?_
  exact hflow'.closes _

/-- Both arms of a conditional are filled and closed, and control goes on behind them. -/
structure Joins (b : Builder) (origin trueEnd falseEnd joined : Nat) (b' : Builder) : Prop where
  insertion : b'.insertion = some joined
  unfinished : ∀ id, b'.Unfinished id ↔ b.Unfinished id ∧ id ≠ trueEnd ∧ id ≠ falseEnd
  ext : ∀ b₀ : Builder, b₀.Extends b → b₀.Reaches origin → b₀.Reaches trueEnd →
    b₀.Reaches falseEnd → b₀.Reaches joined → b₀.Extends b'

theorem Joins.of_closes {b₁ b₂ b₃ : Builder} {origin trueEnd falseEnd joined : Nat}
    (h₁ : ∀ b₀ : Builder, b₀.Extends b → b₀.Reaches origin → b₀.Extends b₁)
    (hun : ∀ id, b₁.Unfinished id ↔ b.Unfinished id) (h₂ : b₁.Closes trueEnd b₂)
    (h₃ : b₂.Closes falseEnd b₃) :
    Joins b origin trueEnd falseEnd joined (b₃.moveTo joined) where
  insertion := rfl
  unfinished id := by
    rw [Builder.Unfinished.moveTo, h₃.unfinished, h₂.unfinished, hun, and_assoc]
  ext b₀ hb₀ horigin htrue hfalse hjoined :=
    (((h₁ b₀ hb₀ horigin).moveTo htrue |>.trans h₂.ext).moveTo hfalse |>.trans h₃.ext).moveTo hjoined

theorem Joins.append {b' : Builder} {origin trueEnd falseEnd joined : Nat}
    (h : Joins b origin trueEnd falseEnd joined b') (hopen : b'.IsOpen) (code : List Ir.Inst)
    {next : Nat} (hnext : b'.nextTemp ≤ next) :
    Joins b origin trueEnd falseEnd joined (b'.append code next) where
  insertion := by rw [Builder.insertion_append, h.insertion]
  unfinished id := by rw [Builder.Unfinished.append, h.unfinished]
  ext b₀ hb₀ ho ht hf hj := (h.ext b₀ hb₀ ho ht hf hj).append hopen code hnext

theorem joinArms_emits {origin trueEnd falseEnd joined : Nat} {ifTrue ifFalse : TypedValue}
    (horigin : origin < b.blockCount) (htrue : b.Unfinished trueEnd)
    (hfalse : b.Unfinished falseEnd) (hjoined : b.Unfinished joined) (hne : falseEnd ≠ trueEnd)
    (hjt : joined ≠ trueEnd) (hjf : joined ≠ falseEnd)
    (hty : armTy ifTrue.ty ifFalse.ty ≠ .error → (armTy ifTrue.ty ifFalse.ty).hasValues = true) :
    Emits (joinArms origin trueEnd falseEnd joined ifTrue ifFalse) b
      (armTy ifTrue.ty ifFalse.ty = .error → ifTrue.ty = ifFalse.ty) fun a b' =>
      a.ty = armTy ifTrue.ty ifFalse.ty ∧ Joins b origin trueEnd falseEnd joined b' := by
  unfold joinArms
  generalize harm : armTy ifTrue.ty ifFalse.ty = ty at hty
  dsimp only
  split
  · next hvoid =>
    subst hvoid
    have hopen : (b.moveTo trueEnd).IsOpen := Builder.isOpen_moveTo.mpr htrue
    have hclosed := (Builder.Flows.refl hopen).closes (.branch joined)
    have hopen' := Builder.isOpen_moveTo.mpr ((hclosed.unfinished falseEnd).mpr ⟨hfalse, hne⟩)
    have hclosed' := (Builder.Flows.refl hopen').closes (.branch joined)
    refine Emits.congr (p := True) ?_ (by simp)
    refine Emits.bind_ok (Emit.lift_eq (Build.position_eq trueEnd)) ?_
    refine Emits.bind_ok (Emit.lift_eq (Build.terminate_eq hopen _)) ?_
    refine Emits.bind_ok (Emit.lift_eq (Build.position_eq falseEnd)) ?_
    refine Emits.bind_ok (Emit.lift_eq (Build.terminate_eq hopen' _)) ?_
    refine Emits.bind_ok (Emit.lift_eq (Build.position_eq joined)) ?_
    exact Emits.pure ⟨rfl, .of_closes (fun _ h _ => h) (fun _ => Iff.rfl) hclosed hclosed'⟩
  · next hvoid =>
    have hlt : trueEnd < b.blockCount := htrue.lt
    have hun : ∀ id, (b.allocIn origin ty.toIr "cond").Unfinished id ↔ b.Unfinished id :=
      fun id => Builder.Unfinished.allocIn origin ty.toIr "cond"
    have hpossible : (ty = .error → ifTrue.ty = .error) ∧ (ty = .error → ifFalse.ty = .error) ∧ True ↔
        (ty = .error → ifTrue.ty = ifFalse.ty) := by
      rw [← harm]
      have := armTy_eq_or ifTrue.ty ifFalse.ty
      grind
    refine Emits.congr ?_ hpossible
    refine Emits.bind_ok (Emit.lift_eq (Build.allocaIn_eq horigin _ _)) ?_
    refine (endArm_emits ((hun _).mpr htrue) hty).bind ?_
    rintro _ b₂ - - h₂
    refine (endArm_emits ((h₂.unfinished _).mpr ⟨(hun _).mpr hfalse, hne⟩) hty).bind ?_
    rintro _ b₃ - - h₃
    have hopen : (b₃.moveTo joined).IsOpen := by
      rw [Builder.isOpen_moveTo, h₃.unfinished, h₂.unfinished, hun]
      exact ⟨⟨hjoined, hjt⟩, hjf⟩
    refine Emits.bind_ok (Emit.lift_eq (Build.position_eq joined)) ?_
    refine Emits.bind_ok (Emit.lift_eq (Build.emitValue_eq hopen _)) ?_
    have hjoins : Joins b origin trueEnd falseEnd joined (b₃.moveTo joined) :=
      .of_closes (fun _ h ho => h.allocIn ho _ _) hun h₂ h₃
    exact Emits.pure ⟨rfl, hjoins.append hopen _ (Nat.le_succ _)⟩

theorem currentBlockD_eq {default id : Nat} (h : b.insertion = some id) :
    currentBlockD default b = .ok id b := by
  simp [currentBlockD, bind, EStateM.bind, get, getThe, MonadStateOf.get, EStateM.get, pure,
    EStateM.pure, h]

/-- The part of a conditional behind its test: both arms, and what joins them. -/
def arms (symbols : SymbolTable) (ifTrue ifFalse : Expr) (origin trueBlock falseBlock joined : Nat) :
    Emit TypedValue := do
  Build.position trueBlock
  let trueValue ← expr symbols ifTrue
  let trueEnd ← currentBlockD trueBlock
  Build.position falseBlock
  let falseValue ← expr symbols ifFalse
  let falseEnd ← currentBlockD falseBlock
  joinArms origin trueEnd falseEnd joined trueValue falseValue

/-- Both arms of a conditional are filled, from the blocks `n` and `n + 1` on, and neither is closed
yet. -/
structure ArmsEnd (b : Builder) (n trueEnd falseEnd : Nat) (b' : Builder) : Prop where
  insertion : b'.insertion = some falseEnd
  unfinished : ∀ id, b'.Unfinished id ↔
    b.Unfinished id ∧ id ≠ n ∧ id ≠ n + 1 ∨ id = trueEnd ∨ id = falseEnd
  ne : falseEnd ≠ trueEnd
  new : ∀ id, b.Unfinished id → id ≠ n → id ≠ n + 1 → id ≠ trueEnd ∧ id ≠ falseEnd
  ext : ∀ b₀ : Builder, b₀.Extends b → b₀.blockCount ≤ n →
    b₀.Extends b' ∧ b₀.Reaches trueEnd ∧ b₀.Reaches falseEnd

namespace ArmsEnd

variable {b₁ b₂ b₃ : Builder} {n trueEnd falseEnd origin : Nat}

theorem of_flows (hn₁ : b.Unfinished (n + 1)) (h₁ : (b.moveTo n).Flows b₁)
    (hins₁ : b₁.insertion = some trueEnd) (h₂ : (b₁.moveTo (n + 1)).Flows b₂)
    (hins₂ : b₂.insertion = some falseEnd) : ArmsEnd b n trueEnd falseEnd b₂ := by
  have hw₁ := h₁.waits
  have hw₂ := h₂.waits
  simp only [Builder.Waits, Builder.Unfinished.moveTo, Builder.insertion_moveTo, hins₁] at hw₁
  simp only [Builder.Waits, Builder.Unfinished.moveTo, Builder.insertion_moveTo, hins₂] at hw₂
  have htrue : b₁.Unfinished trueEnd := by
    obtain ⟨id, hid, hun⟩ := h₁.isOpen
    rw [hins₁] at hid
    cases hid
    exact hun
  have hfalse : b₂.Unfinished falseEnd := by
    obtain ⟨id, hid, hun⟩ := h₂.isOpen
    rw [hins₂] at hid
    cases hid
    exact hun
  refine ⟨hins₂, ?_, ?_, ?_, ?_⟩
  · grind
  · grind
  · grind
  · intro b₀ hb₀ hle
    have hext₁ := (hb₀.moveTo (.inr hle)).trans h₁.ext
    have hext₂ := (hext₁.moveTo (.inr (Nat.le_succ_of_le hle))).trans h₂.ext
    exact ⟨hext₂, hext₁.current hins₁, hext₂.current hins₂⟩

theorem joins (h : ArmsEnd b n trueEnd falseEnd b₂)
    (hj : Joins b₂ origin trueEnd falseEnd (n + 2) b₃) :
    (∀ id, b₃.Unfinished id ↔ b.Unfinished id ∧ id ≠ n ∧ id ≠ n + 1) ∧
      ∀ b₀ : Builder, b₀.Extends b → b₀.Reaches origin → b₀.blockCount ≤ n → b₀.Extends b₃ := by
  constructor
  · intro id
    have hnew := h.new id
    rw [hj.unfinished, h.unfinished]
    grind
  · intro b₀ hb₀ horigin hle
    obtain ⟨hext, htrue, hfalse⟩ := h.ext b₀ hb₀ hle
    exact hj.ext b₀ hext horigin htrue hfalse (.inr (Nat.le_add_right_of_le hle))

end ArmsEnd

/-- What follows a conditional is reached from where it began. -/
theorem flows_behind_arms {b₁ b₂ : Builder} {stems : List String} {t : Ir.Terminator}
    (hflow : b.Flows b₁) (hlength : stems.length = 3)
    (hins : b₂.insertion = some (b₁.blockCount + 2))
    (hun : ∀ id, b₂.Unfinished id ↔
      (b₁.fork stems t).Unfinished id ∧ id ≠ b₁.blockCount ∧ id ≠ b₁.blockCount + 1)
    (hext : b.Extends b₂) : b.Flows b₂ := by
  have hfork := Builder.unfinished_fork stems t hflow.isOpen
  rw [hlength] at hfork
  refine ⟨?_, ?_, hext⟩
  · exact ⟨_, hins, (hun _).mpr ⟨(hfork _).mpr (by omega), by omega, by omega⟩⟩
  · intro id
    have hwait : b₁.Waits id → id < b₁.blockCount := fun h => h.1.lt
    rw [← hflow.waits id, Builder.Waits, hins, hun, hfork]
    grind

section

variable {ifTrue ifFalse : Expr} {pTrue pFalse : Prop} {trueTy falseTy : Ty}
  (htrue : ∀ b : Builder, b.IsOpen →
    Emits (expr g ifTrue) b pTrue fun a b' => a.ty = trueTy ∧ b.Flows b')
  (hfalse : ∀ b : Builder, b.IsOpen →
    Emits (expr g ifFalse) b pFalse fun a b' => a.ty = falseTy ∧ b.Flows b')
  (hty : armTy trueTy falseTy ≠ .error → (armTy trueTy falseTy).hasValues = true)

include htrue hfalse hty

theorem arms_emits {origin n : Nat} (horigin : origin < b.blockCount)
    (hn : b.Unfinished n) (hn₁ : b.Unfinished (n + 1)) (hn₂ : b.Unfinished (n + 2)) :
    Emits (arms g ifTrue ifFalse origin n (n + 1) (n + 2)) b
      (pTrue ∧ pFalse ∧ (armTy trueTy falseTy = .error → trueTy = falseTy)) fun a b' =>
      a.ty = armTy trueTy falseTy ∧ b'.insertion = some (n + 2) ∧
        (∀ id, b'.Unfinished id ↔ b.Unfinished id ∧ id ≠ n ∧ id ≠ n + 1) ∧
        ∀ b₀ : Builder, b₀.Extends b → b₀.Reaches origin → b₀.blockCount ≤ n → b₀.Extends b' := by
  refine Emits.bind_ok (Emit.lift_eq (Build.position_eq n)) ?_
  refine (htrue _ (Builder.isOpen_moveTo.mpr hn)).bind ?_
  rintro trueValue b₁ - - ⟨rfl, h₁⟩
  obtain ⟨trueEnd, hins₁, -⟩ := id h₁.isOpen
  refine Emits.bind_ok (currentBlockD_eq hins₁) ?_
  have hopen₁ : (b₁.moveTo (n + 1)).IsOpen := by
    have hw₁ := (h₁.waits (n + 1)).mpr ⟨hn₁, by simp⟩
    exact Builder.isOpen_moveTo.mpr hw₁.1
  refine Emits.bind_ok (Emit.lift_eq (Build.position_eq (n + 1))) ?_
  refine (hfalse _ hopen₁).bind ?_
  rintro falseValue b₂ - - ⟨rfl, h₂⟩
  obtain ⟨falseEnd, hins₂, -⟩ := id h₂.isOpen
  refine Emits.bind_ok (currentBlockD_eq hins₂) ?_
  have hend := ArmsEnd.of_flows hn₁ h₁ hins₁ h₂ hins₂
  have hle₁ := h₁.ext.blockCount_le
  have hle₂ := h₂.ext.blockCount_le
  simp only [Builder.blockCount_moveTo] at hle₁ hle₂
  have hjoined := hend.new (n + 2) hn₂ (by omega) (by omega)
  refine (joinArms_emits (by omega) ((hend.unfinished _).mpr (.inr (.inl rfl)))
    ((hend.unfinished _).mpr (.inr (.inr rfl)))
    ((hend.unfinished _).mpr (.inl ⟨hn₂, by omega, by omega⟩)) hend.ne hjoined.1 hjoined.2 hty).imp ?_
  rintro a b₃ - - ⟨haty, hjoins⟩
  exact ⟨haty, hjoins.insertion, hend.joins hjoins⟩

end

theorem conditional_emits {span : Span} {test ifTrue ifFalse : Expr} {p pTrue pFalse : Prop}
    {trueTy falseTy : Ty}
    (htest : Emits (expr g test) b p fun _ b' => b.Flows b')
    (htrue : ∀ b : Builder, b.IsOpen →
      Emits (expr g ifTrue) b pTrue fun a b' => a.ty = trueTy ∧ b.Flows b')
    (hfalse : ∀ b : Builder, b.IsOpen →
      Emits (expr g ifFalse) b pFalse fun a b' => a.ty = falseTy ∧ b.Flows b')
    (hty : armTy trueTy falseTy ≠ .error → (armTy trueTy falseTy).hasValues = true) :
    Emits (expr g (.conditional span test ifTrue ifFalse)) b
      (p ∧ pTrue ∧ pFalse ∧ (armTy trueTy falseTy = .error → trueTy = falseTy)) fun a b' =>
      a.ty = armTy trueTy falseTy ∧ b.Flows b' := by
  rw [expr]
  refine htest.bind ?_
  rintro value b₁ - - h₁
  refine (Emits.of_isLinear h₁.isOpen fun _ => coerce_linear value rfl).bind_true ?_
  rintro cond b₂ - h₂
  have hflow := h₁.trans h₂
  have hopen := h₂.isOpen
  have hsome := hopen.isSome
  obtain ⟨origin, horigin, hun⟩ := id hopen
  refine Emits.get_bind ?_
  rw [horigin]
  refine Emits.orFault_bind ?_
  refine Emits.createBlock [] hsome ?_
  refine Emits.createBlock ["cond.then"] hsome ?_
  refine Emits.createBlock ["cond.then", "cond.else"] hsome ?_
  refine Emits.bind_ok (Emit.lift_eq (Build.terminate_eq (hopen.addBlocks _) _)) ?_
  change Emits (arms g ifTrue ifFalse origin b₂.blockCount (b₂.blockCount + 1) (b₂.blockCount + 2))
    (b₂.fork ["cond.then", "cond.else", "cond.end"]
      (.condBranch cond b₂.blockCount (b₂.blockCount + 1))) _ _
  have hfork := Builder.unfinished_fork ["cond.then", "cond.else", "cond.end"]
    (.condBranch cond b₂.blockCount (b₂.blockCount + 1)) hopen
  have hcount := Builder.blockCount_fork ["cond.then", "cond.else", "cond.end"]
    (.condBranch cond b₂.blockCount (b₂.blockCount + 1)) hopen
  have hext := hflow.ext.fork ["cond.then", "cond.else", "cond.end"]
    (.condBranch cond b₂.blockCount (b₂.blockCount + 1)) hopen
  have hle := hflow.ext.blockCount_le
  simp only [List.length_cons, List.length_nil] at hfork hcount
  refine (arms_emits htrue hfalse hty ?_ ?_ ?_ ?_).imp ?_
  · have := hun.lt
    omega
  · exact (hfork _).mpr (by omega)
  · exact (hfork _).mpr (by omega)
  · exact (hfork _).mpr (by omega)
  rintro a b₃ - - ⟨hty, hins, hun₃, hext₃⟩
  exact ⟨hty, flows_behind_arms hflow rfl hins hun₃
    (hext₃ b hext (hflow.ext.current horigin) hle)⟩

/-! ## Places -/

/-- What does not begin with a variable is no place. -/
theorem placeOf_fails {Q : Place → Builder → Prop} :
    ∀ {e : Expr} {b : Builder}, rootVariable? e = none → Emits (placeOf g e) b False Q
  | .var _ name, b, h => by cases h
  | .field _ base name, b, h => by
    rw [placeOf]
    have hbase : ∀ b : Builder, Emits (placeOf g base) b False fun _ _ => True :=
      fun _ => placeOf_fails (e := base) h
    refine Emits.congr (Emits.bind (P := fun _ _ => True) (.orFault fun _ _ => trivial) ?_)
      (iff_of_eq (and_false _))
    exact fun _ b' _ _ _ => (hbase b').fails_bind
  | .index _ base position, b, h => by
    rw [placeOf]
    have hbase : Emits (placeOf g base) b False fun _ _ => True := placeOf_fails (e := base) h
    exact hbase.fails_bind
  | .int .., _, _ | .float .., _, _ | .bool .., _, _ | .binary .., _, _ | .unary .., _, _
  | .assign .., _, _ | .stepAfter .., _, _ | .conditional .., _, _ | .call .., _, _
  | .construct .., _, _ => by
    rw [placeOf]
    · exact .throw _
    all_goals simp

theorem mapM_getElem?_isSome {selected mask : List Nat} (h : ∀ lane ∈ mask, lane < selected.length) :
    ∃ composed, mask.mapM (selected[·]?) = some composed ∧ composed.length = mask.length := by
  induction mask with
  | nil => exact ⟨[], rfl, rfl⟩
  | cons lane rest ih =>
    obtain ⟨composed, hcomposed, hlength⟩ := ih fun l hl => h l (List.mem_cons_of_mem _ hl)
    have hlt := h lane List.mem_cons_self
    have hlane := List.getElem?_eq_getElem hlt
    exact ⟨selected[lane] :: composed, by simp [List.mapM_cons, hlane, hcomposed], by simp [hlength]⟩

theorem select_eq (field : String) {mask : List Nat} {place : Place}
    (hvec : place.ty.isVector = true) (hlt : ∀ lane ∈ mask, lane < place.ty.lanes) :
    ∃ address baseTy selected, place.select field mask = pure (.lanes address baseTy selected) ∧
      selected.length = mask.length := by
  cases place with
  | whole address ty => exact ⟨address, ty, mask, rfl, rfl⟩
  | lanes address baseTy selected =>
    simp only [Place.ty] at hvec hlt
    rw [Swizzle.lanes_resultTy (Ty.ne_error_of_isVector hvec)] at hlt
    obtain ⟨composed, hcomposed, hlength⟩ := mapM_getElem?_isSome hlt
    exact ⟨address, baseTy, composed, by simp [Place.select, orFault, hcomposed], hlength⟩

/-- What the place of a chain of fields and subscripts on a variable holds. -/
structure PlaceFits (c : SymbolTable) (e : Expr) (place : Place) : Prop where
  ty : place.ty = typeOf c e
  storedTy : ∀ t, place.storedTy t = storedTy e (typeOf c e) t

theorem ne_nil_of_constructibleFrom {target : Ty} {es : List Expr}
    (h : target.constructibleFrom (typesOf c es) = true) : es ≠ [] := by
  rintro rfl
  cases target <;> cases h

theorem construct_void_fails {arguments : List TypedValue} {Q : TypedValue → Builder → Prop} :
    Emits (construct .void arguments) b False Q := by
  cases arguments <;> exact .throw _

theorem isArithmetic_of_arithmeticOperand? {t : Ty}
    (h : (Typing.arithmeticOperand? t).isSome = true) (ht : t ≠ .error) : t.isArithmetic = true := by
  obtain ⟨t', ht'⟩ := Option.isSome_iff_exists.mp h
  simp only [Typing.arithmeticOperand?] at ht'
  grind

/-- A subscript of a variable has the address of the variable and the type of its elements. -/
theorem subscript_eq (hs : Stored c g) (hd : Declared c) {span : Span} {base position : Expr}
    (hvar : base.IsVar) (hc : Clean c (.index span base position)) :
    ∃ a t, placeOf g base = pure (.whole a t) ∧
      (Place.whole a t).elementTy = pure (a, typeOf c (.index span base position)) ∧
      valueTy c (.index span base position) = typeOf c (.index span base position) := by
  obtain ⟨hcb, -, -, hsome⟩ := clean_index.mp hc
  cases base with
  | var varSpan name =>
    obtain ⟨t, ht⟩ := Option.isSome_iff_exists.mp (clean_var.mp hcb)
    obtain ⟨s, v, a, -, -, -, -, hplace⟩ := hs.variablePlace_eq ht
    have htypeOf : typeOf c (.var varSpan name) = t := by simp [typeOf, ht]
    have hne : t ≠ .error := Ty.ne_error_of_hasValues (Ty.hasValues_of_isDeclarable (hd.var _ _ ht).1)
    obtain ⟨element, helement⟩ := Option.isSome_iff_exists.mp hsome
    obtain ⟨-, helt⟩ := index?_eq_some helement (htypeOf ▸ hne)
    rw [htypeOf] at helt
    have htype : typeOf c (.index span (.var varSpan name) position) = element := by
      rw [typeOf, helement, Option.getD_some]
    refine ⟨a, t, by rw [placeOf, hplace], ?_, ?_⟩
    · rw [htype, Place.elementTy, helt]
    · rw [htype, valueTy, valueTy, ht, Option.getD_some, helt, Option.getD_some]
  | _ => exact hvar.elim

theorem elementPlace_emits {array : Ir.Value} {ty : Ty} {index : TypedValue} (hb : b.IsOpen) :
    Emits (elementPlace array ty index) b True fun place b' =>
      (∃ address, place = .whole address ty) ∧ place.ty = ty ∧ b.Flows b' := by
  refine (Emits.of_linear hb (elementPlace_linear array ty index)).imp ?_
  rintro _ _ - - ⟨code, n', hn, rfl, address, rfl⟩
  exact ⟨⟨address, rfl⟩, rfl, .append hb code hn.1⟩

mutual

/-- A clean expression is lowered exactly if it has code. -/
theorem expr_emits (hs : Stored c g) (hd : Declared c) {e : Expr} {b : Builder} (hr : e.AsRead)
    (hc : Clean c e) (hb : b.IsOpen) :
    Emits (expr g e) b (HasCode c e) fun a b' => a.ty = valueTy c e ∧ b.Flows b' := by
  match e with
  | .int .. | .float .. | .bool .. =>
    rw [expr]
    exact .pure ⟨rfl, .refl hb⟩
  | .var _ name =>
    obtain ⟨t, ht⟩ := Option.isSome_iff_exists.mp (clean_var.mp hc)
    obtain ⟨s, v, a, -, -, -, -, hplace⟩ := hs.variablePlace_eq ht
    rw [expr, hplace, pure_bind, valueTy, ht]
    exact .of_linearTo hb fun _ => Place.load_linear _
  | .binary _ op left right =>
    obtain ⟨hcl, hcr, -⟩ := clean_binary.mp hc
    rw [expr]
    refine (expr_emits hs hd hr.1 hcl hb).bind ?_
    rintro lhs b₁ - - ⟨hl, h₁⟩
    refine (expr_emits hs hd hr.2 hcr h₁.isOpen).andThen ?_
    rintro rhs b₂ - - ⟨hr, h₂⟩
    refine (Emits.of_linearTo h₂.isOpen fun _ => binary_linear op lhs rhs).imp ?_
    rintro a b₃ - - ⟨hty, h₃⟩
    exact ⟨by rw [hty, hl, hr, valueTy], h₁.trans (h₂.trans h₃)⟩
  | .unary _ op operand =>
    obtain ⟨hco, hwritable, hsome⟩ := clean_unary.mp hc
    replace hr : operand.AsRead := hr
    cases op with
    | plus | minus =>
      rw [expr]
      refine (expr_emits hs hd hr hco hb).andThen ?_
      rintro value b₁ - - ⟨hv, h₁⟩
      refine (Emits.of_linearTo h₁.isOpen fun _ => signed_linear _ value).imp ?_
      rintro a b₂ - - ⟨hty, h₂⟩
      exact ⟨by rw [hty, hv, valueTy, unaryTy], h₁.trans h₂⟩
    | not =>
      rw [expr]
      refine (expr_emits hs hd hr hco hb).andThen ?_
      rintro value b₁ - - ⟨-, h₁⟩
      refine (Emits.of_linearTo h₁.isOpen fun _ => negated_linear value).imp ?_
      rintro a b₂ - - ⟨hty, h₂⟩
      exact ⟨hty, h₁.trans h₂⟩
    | step direction =>
      rw [expr]
      obtain ⟨root, hroot, -⟩ := hwritable direction rfl
      have hne := Ty.ne_error_of_hasValues (hasValues_of_rootVariable? hd hr hco hroot)
      refine (placeOf_emits hs hd hr hco hroot hb).andThen ?_
      rintro place b₁ - - ⟨hfits, h₁⟩
      have harith := hfits.ty ▸ isArithmetic_of_arithmeticOperand? hsome hne
      refine (Emits.of_linearTo h₁.isOpen fun _ => Place.step_linear _ _ place harith).imp ?_
      rintro a b₂ - - ⟨hty, h₂⟩
      refine ⟨?_, h₁.trans h₂⟩
      rw [hty, hfits.ty, valueTy, unaryTy, valueTy_eq_typeOf hco hne]
  | .stepAfter _ direction operand =>
    obtain ⟨hco, ⟨root, hroot, -⟩, hsome⟩ := clean_stepAfter.mp hc
    replace hr : operand.AsRead := hr
    have hne := Ty.ne_error_of_hasValues (hasValues_of_rootVariable? hd hr hco hroot)
    rw [expr]
    refine (placeOf_emits hs hd hr hco hroot hb).andThen ?_
    rintro place b₁ - - ⟨hfits, h₁⟩
    have harith := hfits.ty ▸ isArithmetic_of_arithmeticOperand? hsome hne
    refine (Emits.of_linearTo h₁.isOpen fun _ => Place.step_linear _ _ place harith).imp ?_
    rintro a b₂ - - ⟨hty, h₂⟩
    exact ⟨by rw [hty, hfits.ty, valueTy, valueTy_eq_typeOf hco hne], h₁.trans h₂⟩
  | .assign _ op target value =>
    obtain ⟨hct, hcv, ⟨root, hroot, -⟩, -⟩ := clean_assign.mp hc
    have hvalues := hasValues_of_rootVariable? hd hr.1 hct hroot
    have htarget := valueTy_eq_typeOf hct (Ty.ne_error_of_hasValues hvalues)
    rw [expr]
    refine (placeOf_emits hs hd hr.1 hct hroot hb).bind ?_
    rintro place b₁ - - ⟨hfits, h₁⟩
    rw [← hfits.ty] at hvalues
    cases op with
    | plain =>
      refine (expr_emits hs hd hr.2 hcv h₁.isOpen).andThen ?_
      rintro result b₂ - - ⟨hv, h₂⟩
      refine (Emits.of_linearTo h₂.isOpen fun _ => Place.store_linear result place hvalues).imp ?_
      rintro a b₃ - - ⟨hty, h₃⟩
      refine ⟨?_, h₁.trans (h₂.trans h₃)⟩
      rw [hty, hfits.storedTy, hv, valueTy, htarget, assignedTy]
    | compound op =>
      refine (Emits.of_linearTo h₁.isOpen fun _ => Place.load_linear place).bind_true ?_
      rintro current b₂ - ⟨hcurrent, h₂⟩
      refine (expr_emits hs hd hr.2 hcv h₂.isOpen).andThen ?_
      rintro rhs b₃ - - ⟨hrhs, h₃⟩
      refine (Emits.of_linearTo h₃.isOpen fun _ => arith_linear op current rhs).bind_true ?_
      rintro result b₄ - ⟨hresult, h₄⟩
      refine (Emits.of_linearTo h₄.isOpen fun _ => Place.store_linear result place hvalues).imp ?_
      rintro a b₅ - - ⟨hty, h₅⟩
      refine ⟨?_, h₁.trans (h₂.trans (h₃.trans (h₄.trans h₅)))⟩
      rw [hty, hfits.storedTy, hresult, hcurrent, hrhs, hfits.ty, valueTy, htarget, assignedTy]
  | .conditional _ test ifTrue ifFalse =>
    obtain ⟨hct, -, hctrue, hcfalse, -⟩ := clean_conditional.mp hc
    refine conditional_emits ?_ (fun _ hb => expr_emits hs hd hr.2.1 hctrue hb)
      (fun _ hb => expr_emits hs hd hr.2.2 hcfalse hb) ?_
    · exact (expr_emits hs hd hr.1 hct hb).imp fun _ _ _ _ h => h.2
    · rcases armTy_eq_or (valueTy c ifTrue) (valueTy c ifFalse) with h | h
      · rw [h]
        exact hasValues_valueTy hd hr.2.1
      · rw [h]
        exact hasValues_valueTy hd hr.2.2
  | .index _ base position =>
    obtain ⟨hcb, hcp, -, hsome⟩ := clean_index.mp hc
    rw [expr]
    by_cases hvar : base.IsVar
    · obtain ⟨a, t, hplace, helement, hty⟩ := subscript_eq hs hd hvar hc
      rw [hplace, pure_bind, helement, pure_bind]
      refine Emits.congr ((expr_emits hs hd hr.2 hcp hb).andThen ?_) (by simp [HasCode, hvar])
      rintro index b₁ - - ⟨-, h₁⟩
      refine (elementPlace_emits h₁.isOpen).bind_true ?_
      rintro place b₂ - ⟨-, hplaceTy, h₂⟩
      refine (Emits.of_linearTo h₂.isOpen fun _ => Place.load_linear place).imp ?_
      rintro value b₃ - - ⟨hvalue, h₃⟩
      exact ⟨by rw [hvalue, hplaceTy, hty], h₁.trans (h₂.trans h₃)⟩
    · have hroot : rootVariable? base = none :=
        Option.eq_none_iff_forall_ne_some.mpr fun root hroot =>
          hvar (isVar_of_rootVariable? hd hr.1 hc hroot).1
      have hbase : Emits (placeOf g base) b False fun _ _ => True := placeOf_fails hroot
      exact hbase.fails_bind.congr (by simp [HasCode, hvar])
  | .field _ base name =>
    obtain ⟨hcb, -⟩ := clean_field.mp hc
    rw [expr]
    refine (Emits.orFault (P := fun lanes b' => lanes.length = laneCount name.name ∧ b' = b)
      fun lanes h => ⟨by simp [laneCount, h], rfl⟩).bind ?_
    rintro lanes _ - - ⟨hlanes, rfl⟩
    refine (expr_emits hs hd hr.1 hcb hb).andThen ?_
    rintro value b₁ - - ⟨-, h₁⟩
    refine (Emits.of_linearTo h₁.isOpen fun _ => selectFrom_linear value lanes).imp ?_
    rintro a b₂ - - ⟨hty, h₂⟩
    exact ⟨by rw [hty, hlanes, valueTy], h₁.trans h₂⟩
  | .call _ callee arguments =>
    obtain ⟨hca, f, hf, hlength, -⟩ := clean_call hc
    rw [expr, hs.function?_eq hf, pure_bind]
    refine (actuals_emits hs hd hr hca hb hlength fun v hv =>
      Ty.hasValues_of_isDeclarable ((hd.fn _ _ hf).2 v hv).1).andThen ?_
    rintro values b₁ - - h₁
    refine (Emits.of_linearTo h₁.isOpen fun _ => callFn_linear f f.name.name values).imp ?_
    rintro a b₂ - - ⟨hty, h₂⟩
    exact ⟨by rw [hty, valueTy, hf, Option.elim_some], h₁.trans h₂⟩
  | .construct _ target arguments =>
    obtain ⟨hca, hcon⟩ := clean_construct.mp hc
    rw [expr]
    refine Emits.congr ((exprs_emits hs hd hr.2 hca hb).bind ?_) and_comm
    rintro values b₁ - - ⟨htys, h₁⟩
    by_cases hvoid : target = .void
    · subst hvoid
      exact construct_void_fails.congr (by simp)
    · have hne : values ≠ [] := by
        rintro rfl
        exact ne_nil_of_constructibleFrom hcon (List.map_eq_nil_iff.mp htys.symm)
      refine ((Emits.of_linearTo h₁.isOpen fun _ => construct_linear hr.1 hvoid hne).imp ?_).congr
        (by simp [hvoid])
      rintro a b₂ - - ⟨hty, h₂⟩
      exact ⟨hty, h₁.trans h₂⟩

theorem exprs_emits (hs : Stored c g) (hd : Declared c) {es : List Expr} {b : Builder}
    (hr : Expr.AllAsRead es) (hc : AllClean c es) (hb : b.IsOpen) :
    Emits (exprs g es) b (AllHaveCode c es) fun as b' =>
      as.map TypedValue.ty = es.map (valueTy c) ∧ b.Flows b' := by
  match es with
  | [] =>
    rw [exprs]
    exact .pure ⟨rfl, .refl hb⟩
  | e :: rest =>
    obtain ⟨hce, hcr⟩ := allClean_cons.mp hc
    rw [exprs]
    refine (expr_emits hs hd hr.1 hce hb).bind ?_
    rintro value b₁ - - ⟨hty, h₁⟩
    refine (exprs_emits hs hd hr.2 hcr h₁.isOpen).andThen ?_
    rintro values b₂ - - ⟨htys, h₂⟩
    exact .pure ⟨by simp [hty, htys], h₁.trans h₂⟩

theorem actuals_emits (hs : Stored c g) (hd : Declared c) {formals : List VarDecl}
    {es : List Expr} {b : Builder} (hr : Expr.AllAsRead es) (hc : AllClean c es) (hb : b.IsOpen)
    (hlength : formals.length = es.length) (hty : ∀ v ∈ formals, v.ty.hasValues = true) :
    Emits (actuals g formals es) b (AllHaveCode c es) fun _ b' => b.Flows b' := by
  match es, formals, hlength with
  | [], [], _ =>
    rw [actuals]
    exact .pure (.refl hb)
  | e :: rest, formal :: formals, hlength =>
    obtain ⟨hce, hcr⟩ := allClean_cons.mp hc
    rw [actuals]
    refine (expr_emits hs hd hr.1 hce hb).bind ?_
    rintro value b₁ - - ⟨-, h₁⟩
    refine (Emits.of_isLinear h₁.isOpen fun _ =>
      coerce_linear value (hty _ List.mem_cons_self)).bind_true ?_
    rintro actual b₂ - h₂
    refine (actuals_emits hs hd hr.2 hcr h₂.isOpen (Nat.succ.inj hlength)
      fun v hv => hty v (List.mem_cons_of_mem _ hv)).andThen ?_
    rintro values b₃ - - h₃
    exact .pure (h₁.trans (h₂.trans h₃))

theorem placeOf_emits (hs : Stored c g) (hd : Declared c) {e : Expr} {root : Ident} {b : Builder}
    (hr : e.AsRead) (hc : Clean c e) (hroot : rootVariable? e = some root) (hb : b.IsOpen) :
    Emits (placeOf g e) b (HasCode c e) fun place b' => PlaceFits c e place ∧ b.Flows b' := by
  match e with
  | .var span name =>
    obtain ⟨t, ht⟩ := Option.isSome_iff_exists.mp (clean_var.mp hc)
    obtain ⟨s, v, a, -, -, -, -, hplace⟩ := hs.variablePlace_eq ht
    rw [placeOf, hplace]
    have htypeOf : typeOf c (.var span name) = t := by simp [typeOf, ht]
    exact .pure ⟨⟨htypeOf.symm, fun _ => htypeOf.symm⟩, .refl hb⟩
  | .index _ base position =>
    obtain ⟨hcb, hcp, -, -⟩ := clean_index.mp hc
    have hvar := (isVar_of_rootVariable? hd hr.1 hc hroot).1
    obtain ⟨a, t, hplace, helement, hty⟩ := subscript_eq hs hd hvar hc
    rw [placeOf, hplace, pure_bind, helement, pure_bind]
    refine Emits.congr ((expr_emits hs hd hr.2 hcp hb).andThen ?_) (by simp [HasCode, hvar])
    rintro index b₁ - - ⟨-, h₁⟩
    refine (elementPlace_emits h₁.isOpen).imp ?_
    rintro _ b₂ - - ⟨⟨address, rfl⟩, -, h₂⟩
    exact ⟨⟨rfl, fun _ => rfl⟩, h₁.trans h₂⟩
  | .field _ base name =>
    obtain ⟨hcb, hissues⟩ := clean_field.mp hc
    have hbase := hasValues_of_rootVariable? hd hr.1 hcb hroot
    obtain ⟨hvec, mask, hmask, -, hlt, hty⟩ :=
      Swizzle.of_issues_eq_nil hissues (Ty.ne_error_of_hasValues hbase)
    rw [placeOf, maskOf, hmask]
    refine Emits.orFault_bind ?_
    refine Emits.congr ((placeOf_emits hs hd hr.1 hcb hroot hb).andThen ?_) (by simp [HasCode, hmask])
    rintro place b₁ - - ⟨hfits, h₁⟩
    rw [← hfits.ty] at hvec hlt
    obtain ⟨address, baseTy, selected, hselect, hlength⟩ := select_eq name.name hvec hlt
    rw [hselect]
    refine .pure ⟨⟨?_, fun _ => rfl⟩, h₁⟩
    rw [Place.ty, hlength, typeOf, hty]

end

end Lowering

end ShaderLang
