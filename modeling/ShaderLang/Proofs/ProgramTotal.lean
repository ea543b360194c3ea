import ShaderLang.Compiler
import ShaderLang.Proofs.CleanProgram
import ShaderLang.Proofs.ConstantInit
import ShaderLang.Proofs.StmtTotal

/-!
# Which clean programs are lowered

A clean program is lowered exactly if every expression in the bodies of its functions has code and
no initial value of a global variable negates a vector or a matrix
(`Compiler.compiles_iff`). Nothing else makes the lowering fail: a lowered body leaves no block
without a terminator, and nothing is added behind one.
-/

namespace ShaderLang

open Check

/-- Whether a declaration can be lowered. -/
def DeclHasCode (c : SymbolTable) : Decl → Prop
  | .var v => ∀ e ∈ v.init, NegatesNumbers c e
  | .fn f => StmtsHaveCode (c.insideFn f) f.body.stmts

/-- Whether the declarations of a program can be lowered. -/
def ProgramHasCode (c : SymbolTable) : Program → Prop
  | [] => True
  | d :: rest => DeclHasCode c d ∧ ProgramHasCode (c.behindDecl d) rest

namespace Lowering

open Ir (Builder Build)

variable {c g : SymbolTable} {b : Builder}

/-! ## Functions -/

theorem formals_emits (hs : Stored c g) (vs : List VarDecl) (hb : b.IsOpen) :
    Emits (formals g vs) b True fun g' b' => Stored (c.declareVars vs) g' ∧ b.Flows b' := by
  induction vs generalizing c g b with
  | nil => exact .pure ⟨hs, .refl hb⟩
  | cons v rest ih =>
    rw [formals]
    refine Emits.bind_ok (Emit.lift_eq (Build.emitValue_eq hb _)) ?_
    have h₁ := Builder.Flows.append hb [.alloca b.nextTemp v.ty.toIr v.name.name] (Nat.le_succ _)
    refine Emits.bind_ok (Emit.lift_eq (Build.emit_eq h₁.isOpen _)) ?_
    have h₂ := h₁.trans (.append h₁.isOpen
      [.store (.temp b.nextTemp) (.param v.name.name)] (Nat.le_refl _))
    refine (ih (hs.declareVar v _) h₂.isOpen).imp ?_
    exact fun g' b' _ _ h => ⟨h.1, h₂.trans h.2⟩

theorem closeBody_emits {returnTy : Ty} {b' : Builder} (h : b.Settles b') :
    Emits (closeBody returnTy) b' True fun _ b'' =>
      (∀ id, b''.Unfinished id ↔ b.Waits id) ∧ b.Extends b'' := by
  have hclosed : ∀ {b''}, b.Settles b'' → ¬ b''.IsOpen → ∀ id, b''.Unfinished id ↔ b.Waits id := by
    intro b'' h hopen id
    rw [← h.waits id]
    exact ⟨fun hun => ⟨hun, fun hins => hopen ⟨id, hins, hun⟩⟩, And.left⟩
  refine Emits.get_bind ?_
  cases hterm : b'.isTerminated with
  | true =>
    refine .pure ⟨hclosed h fun hopen => ?_, h.ext⟩
    simp [h.placed.isTerminated.mpr hopen] at hterm
  | false =>
    have hopen := h.placed.isTerminated.mp hterm
    rw [if_neg Bool.false_ne_true]
    split
    · exact Emits.lift (Build.terminate_eq hopen _)
        ⟨hclosed (h.close hopen _) (Builder.not_isOpen_close _), (h.close hopen _).ext⟩
    · exact Emits.lift (Build.terminate_eq hopen _)
        ⟨hclosed (h.close hopen _) (Builder.not_isOpen_close _), (h.close hopen _).ext⟩

theorem fnBody_emits {f : FnDecl} (hs : Stored (c.declare (.ofFn f)) g) (hd : Declared (c.insideFn f))
    (hr : f.AsRead) (hc : CleanFn c f) (hb : b.openFn = none) :
    Emits (fnBody g f) b (StmtsHaveCode (c.insideFn f) f.body.stmts) fun _ b' =>
      b'.openFn = none := by
  unfold fnBody
  refine Emits.bind_ok (Emit.lift_eq (Build.beginFunction_eq hb _ _ _)) ?_
  refine Emits.bind_ok (Emit.lift_eq (Build.createBlock_eq rfl _)) ?_
  refine Emits.bind_ok (Emit.lift_eq (Build.position_eq _)) ?_
  have hun := b.unfinished_begin f.name.name
    (f.formals.map fun formal => (formal.name.name, formal.ty.toIr)) f.returnTy.toIr "entry"
  generalize (b.begin f.name.name _ _).addBlock "entry" = b₁ at hun ⊢
  rw [Builder.blockCount_begin]
  have hopen := Builder.isOpen_moveTo.mpr ((hun 0).mpr rfl)
  refine (formals_emits hs.push f.formals hopen).bind_true ?_
  rintro inner b₂ - ⟨hsinner, h₂⟩
  refine (stmts_emits hsinner.push hd ⟨rfl, .nil⟩ (Ty.hasValues_of_isPlain hr.returnTy) hr.body
    hc.body h₂.isOpen.placed).andThen ?_
  rintro _ b₃ - - h₃
  refine (closeBody_emits (h₂.settles.trans h₃)).bind_true ?_
  rintro _ b₄ - ⟨hun₄, hext⟩
  have hnone : ∀ id, ¬ b₄.Unfinished id := by
    intro id
    rw [hun₄, Builder.Waits, Builder.Unfinished.moveTo, hun, Builder.insertion_moveTo]
    grind
  obtain ⟨fn, hfn⟩ : ∃ fn, b₄.openFn = some fn := by
    rw [← Option.isSome_iff_exists, Builder.openFn_isSome_iff, hext.header,
      ← Builder.openFn_isSome_iff]
    exact hopen.isSome
  exact Emits.lift (Build.finishFunction_eq hfn hnone) rfl

/-! ## Declarations and programs -/

/-- The initial value of a global variable is a constant of its type. -/
theorem initial_yields {v : VarDecl} (hr : v.AsRead) (hc : CleanVar c v) (hglobal : c.isGlobal = true)
    {e : Expr} (he : v.init = some e) :
    Yields (constant? v.ty e) (NegatesNumbers c e) fun value => value.IsConstant v.ty := by
  have hconst := hc.constant e he hglobal
  have ht := hasConstants_of_isConstant (hr.init e he) (hc.init e he) hconst
  have hne : v.ty ≠ .error := Ty.ne_error_of_hasValues (Ty.hasValues_of_isDeclarable hr.ty)
  have hty := converts_cases (hc.converts e he) (Ty.ne_error_of_hasConstants ht) hne
  generalize htypeOf : typeOf c e = t at ht hty
  have hs := Ty.settlesTo_of_widens hty
  have hsettled : t.settled v.ty = v.ty := by
    rcases hty with heq | ⟨rfl, -⟩
    · simp [Ty.settled, heq]
    · rfl
  have := constant?_yields (hr.init e he) (hc.init e he) hconst (htypeOf ▸ hs)
  rwa [htypeOf, hsettled] at this

theorem globalVar_emits (hs : Stored c g) {v : VarDecl} (hr : v.AsRead) (hc : CleanVar c v)
    (hglobal : c.isGlobal = true) :
    Emits (globalVar g v) b (∀ e ∈ v.init, NegatesNumbers c e) fun g' b' =>
      Stored (c.declare (.ofVar v)) g' ∧ b'.openFn = b.openFn := by
  unfold globalVar
  cases hinit : v.init with
  | none =>
    refine Emits.congr (p := True) ?_ (by simp)
    simp only [pure_bind]
    refine Emits.bind_ok (Emit.lift_eq (Build.addGlobal_eq _ _ _)) ?_
    exact .pure ⟨hs.declareVar v _, rfl⟩
  | some e =>
    have hyields := initial_yields hr hc hglobal hinit
    refine Emits.congr (Emits.andThen (Emits.orFault (P := fun _ b' => b' = b) fun _ _ => rfl) ?_)
      (hyields.isSome_iff.trans (by simp))
    rintro value _ - - rfl
    rw [pure_bind]
    refine Emits.bind_ok (Emit.lift_eq (Build.addGlobal_eq _ _ _)) ?_
    exact .pure ⟨hs.declareVar v _, rfl⟩

theorem Run.bind_eq {α β : Type} {x : Run α} {f : α → Run β} {l l' : Lowering} {a : α}
    (h : x l = .ok a l') : (x >>= f) l = f a l' := by
  simp [bind, EStateM.bind, h]

theorem Run.bind_eq_error {α β : Type} {x : Run α} {f : α → Run β} {l l' : Lowering} {fault : Fault}
    (h : x l = .error fault l') : (x >>= f) l = .error fault l' := by
  simp [bind, EStateM.bind, h]

/-- A declaration between two functions. -/
theorem decl_run {l : Lowering} {d : Decl} (hs : Stored c l.symbols) (hd : Declared c)
    (hglobal : c.isGlobal = true) (hr : d.AsRead) (hc : CleanDecl c d)
    (hb : l.builder.openFn = none) :
    (DeclHasCode c d → ∃ l', decl d l = .ok () l' ∧ Stored (c.behindDecl d) l'.symbols ∧
      l'.builder.openFn = none) ∧
    (¬ DeclHasCode c d → ∃ fault l', decl d l = .error fault l') := by
  cases d with
  | var v =>
    have hemits := globalVar_emits (b := l.builder) hs hr hc hglobal
    constructor
    · intro hp
      obtain ⟨g', b', hx, hs', hb'⟩ := hemits.exists_ok hp
      have hrun : Run.ofEmit (globalVar · v) l = .ok g' { l with builder := b' } := by
        simp [Run.ofEmit, hx]
      exact ⟨⟨g', b'⟩, Run.bind_eq hrun, hs', hb'.trans hb⟩
    · intro hp
      obtain ⟨fault, b', hx⟩ := hemits.exists_error hp
      have hrun : Run.ofEmit (globalVar · v) l = .error fault { l with builder := b' } := by
        simp [Run.ofEmit, hx]
      exact ⟨fault, _, Run.bind_eq_error hrun⟩
  | fn f =>
    have hs' := hs.declareFn f
    have hemits := fnBody_emits (b := l.builder) hs' (declared_insideFn hd hr hc) hr hc hb
    generalize hg : l.symbols.declare ((Symbol.ofFn f).withStorage (.function f.name.name)) = g'
      at hs' hemits
    have hdecl : decl (.fn f) l = Run.ofEmit (fnBody · f) { l with symbols := g' } := by
      rw [← hg]
      rfl
    rw [hdecl]
    constructor
    · intro hp
      obtain ⟨_, b', hx, hb'⟩ := hemits.exists_ok hp
      exact ⟨⟨g', b'⟩, by simp [Run.ofEmit, hx], hs', hb'⟩
    · intro hp
      obtain ⟨fault, b', hx⟩ := hemits.exists_error hp
      exact ⟨fault, ⟨g', b'⟩, by simp [Run.ofEmit, hx]⟩

theorem isGlobal_behindDecl (h : c.isGlobal = true) (d : Decl) : (c.behindDecl d).isGlobal = true := by
  cases d <;> exact h

/-- A clean program is lowered exactly if its declarations have code. -/
theorem program_ok_iff {p : Program} {l : Lowering} (hs : Stored c l.symbols) (hd : Declared c)
    (hglobal : c.isGlobal = true) (hr : p.AsRead) (hc : CleanProgram c p)
    (hb : l.builder.openFn = none) :
    (∃ l', program p l = .ok () l') ↔ ProgramHasCode c p := by
  induction p generalizing c l with
  | nil => exact ⟨fun _ => trivial, fun _ => ⟨l, rfl⟩⟩
  | cons d rest ih =>
    obtain ⟨hcd, hcrest⟩ := cleanProgram_cons hc
    have hrd := hr d List.mem_cons_self
    obtain ⟨hok, herror⟩ := decl_run hs hd hglobal hrd hcd hb
    by_cases hp : DeclHasCode c d
    · obtain ⟨l', hx, hs', hb'⟩ := hok hp
      have hrest : program (d :: rest) l = program rest l' := Run.bind_eq hx
      rw [hrest, ih hs' (declared_behindDecl hd hrd hcd) (isGlobal_behindDecl hglobal d)
        (fun d hd => hr d (List.mem_cons_of_mem _ hd)) hcrest hb', ProgramHasCode]
      exact (and_iff_right hp).symm
    · obtain ⟨fault, l', hx⟩ := herror hp
      have hrest : program (d :: rest) l = .error fault l' := Run.bind_eq_error hx
      rw [hrest, ProgramHasCode]
      simp [hp]

end Lowering

theorem Stored.empty : Stored .empty .empty where
  decl _ := rfl
  address name s v h := by simp at h
  generated name s f h := by simp at h

namespace Program

variable {p : Program}

/-- A program that was read and in which nothing is wrong is lowered exactly if its declarations
have code. -/
theorem lower_isOk_iff (hr : p.AsRead) (hclean : p.findings = []) (moduleName : String) :
    (∃ m, p.lower moduleName = .ok m) ↔ ProgramHasCode .empty p := by
  have h := Lowering.program_ok_iff (l := .new moduleName) (Stored.empty) .empty rfl hr hclean rfl
  rw [← h, lower]
  cases Lowering.program p (.new moduleName) <;> simp

end Program

namespace Compiler

theorem run_check {moduleName source : String} :
    run ⟨moduleName, true⟩ source = .ok none ↔
      ∃ p, Program.ofText? source = .ok p ∧ p.findings = [] := by
  unfold run check
  cases Program.ofText? source with
  | error failure => simp [bind, Except.bind]
  | ok p => cases hf : p.findings <;> simp [bind, Except.bind, hf, pure, Except.pure, throw, throwThe,
      MonadExceptOf.throw]

theorem run_compile {moduleName source : String} :
    (∃ compiled, run ⟨moduleName, false⟩ source = .ok (some compiled)) ↔
      ∃ p m, Program.ofText? source = .ok p ∧ p.findings = [] ∧ p.lower moduleName = .ok m := by
  unfold run compile Program.compile
  cases Program.ofText? source with
  | error failure => simp [bind, Except.bind, Except.mapError]
  | ok p =>
    cases hf : p.findings with
    | cons f fs => simp [bind, Except.bind, hf, Except.mapError]
    | nil =>
      cases hl : p.lower moduleName <;>
        simp [bind, Except.bind, hf, hl, Except.mapError, pure, Except.pure]

/-- A source text compiles exactly if it checks clean and the program has code. -/
theorem compiles_iff (moduleName checkName source : String) :
    (∃ compiled, run ⟨moduleName, false⟩ source = .ok (some compiled)) ↔
      run ⟨checkName, true⟩ source = .ok none ∧
        ∀ p, Program.ofText? source = .ok p → ProgramHasCode .empty p := by
  rw [run_compile, run_check]
  constructor
  · rintro ⟨p, m, hp, hclean, hm⟩
    refine ⟨⟨p, hp, hclean⟩, fun p' hp' => ?_⟩
    rw [hp] at hp'
    cases hp'
    exact (Program.lower_isOk_iff (Program.asRead_of_ofText hp) hclean moduleName).mp ⟨m, hm⟩
  · rintro ⟨⟨p, hp, hclean⟩, hcode⟩
    obtain ⟨m, hm⟩ := (Program.lower_isOk_iff (Program.asRead_of_ofText hp) hclean moduleName).mpr
      (hcode p hp)
    exact ⟨p, m, hp, hclean, hm⟩

end Compiler

end ShaderLang
