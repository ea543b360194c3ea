import Mathlib.Data.List.Induction
import ShaderLang.Proofs.SoundStmt

/-!
# What a lowering leaves behind

A lowering is fed programs one after the other, and goes on with the next one whatever became of
those before. What one declaration does is said once (`DeclStep`): it adds a variable or a function,
or it fails and leaves the functions of the module as they were. A function that has been added is
in single-assignment form and its blocks make a graph (`Ir.Function.IsSound`); one whose body could
not be lowered stays open, and no other one is begun.

So every function of the module has that form (`functions_isSsa`, `functions_isGraph`), and the
builder refuses nothing but to begin a function behind such a failure (`builder_fault_only`).
-/

namespace ShaderLang

namespace Ir

/-- What is guaranteed of a finished function. Where `strict` holds, its labels are distinct. -/
structure Function.IsSound (strict : Prop) (f : Function) : Prop where
  ssa : f.IsSsa
  graph : f.IsGraph
  named : ∀ block ∈ f.blocks, ∃ stem ∈ blockStems, ∃ n, block.name = numberedName stem n
  closed : ∀ block ∈ f.blocks, block.terminator.isSome
  labels : strict → f.HasDistinctLabels

theorem Module.mem_addFunction {m : Module} {f g : Function}
    (h : g ∈ (m.addFunction f).functions) : g ∈ m.functions ∨ g = f := by
  rcases List.mem_append.mp h with hold | hnew
  · exact .inl (List.mem_of_mem_filter hold)
  · exact .inr (List.mem_singleton.mp hnew)

end Ir

namespace Lowering

open Ir (Build Builder Layout Spot)

variable {strict : Prop} {s : Spot} {g : SymbolTable} {b : Builder}

/-! ## Functions -/

theorem formals_adds (hg : s.KnowsTable g) (vs : List VarDecl) :
    Adds strict s (formals g vs) fun s' g' => s'.KnowsTable g' := by
  induction vs generalizing g s with
  | nil => exact .pure hg
  | cons v rest ih =>
    apply Adds.alloca.bind
    intro s₁ address h₁ haddress
    apply (Adds.store haddress (Spot.knows_of_temp?_eq_none rfl)).bind
    intro s₂ _ h₂ _
    exact ih (((h₁.trans h₂).knowsTable hg).declareVar (h₂.knows haddress))

/-- Behind its last statement a body is closed. -/
theorem closeBody_runs {returnTy : Ty} {s' : Spot} {b' : Builder} (hstands : b'.Stands strict s')
    (hsettles : b.Settles b') :
    Runs (closeBody returnTy) b' fun _ b'' =>
      b''.Sound strict s'.layout ∧ ∀ id, b''.Unfinished id ↔ b.Waits id := by
  have hclosed : ∀ {b'' : Builder}, b.Settles b'' → ¬ b''.IsOpen →
      ∀ id, b''.Unfinished id ↔ b.Waits id := by
    intro b'' h hopen id
    rw [← h.waits id]
    exact ⟨fun hun => ⟨hun, fun hins => hopen ⟨id, hins, hun⟩⟩, And.left⟩
  apply Runs.get_bind
  cases hterm : b'.isTerminated with
  | true =>
    exact Runs.pure ⟨hstands.sound,
      hclosed hsettles (not_isOpen_of_isTerminated hstands.placed hterm)⟩
  | false =>
    have hopen := hstands.placed.isTerminated.mp hterm
    have hfills := hstands.fills hopen
    rw [if_neg Bool.false_ne_true]
    split
    · apply Runs.terminate hopen
      exact ⟨(hfills.close (.ret (by simp))).sound,
        hclosed (hsettles.close hopen _) (Builder.not_isOpen_close _)⟩
    · apply Runs.terminate hopen
      exact ⟨(hfills.close .unreachable).sound,
        hclosed (hsettles.close hopen _) (Builder.not_isOpen_close _)⟩

/-- What the code of a function consists of, between its first block and its end. -/
def bodyCode (g : SymbolTable) (f : FnDecl) : Emit Unit := do
  let inner ← formals g.push f.formals
  stmts ⟨f.returnTy, []⟩ inner.push f.body.stmts
  closeBody f.returnTy

/-- The builder when the body of a function begins. -/
def begun (b : Builder) (f : FnDecl) : Builder :=
  ((b.begin f.name.name (f.formals.map fun formal => (formal.name.name, formal.ty.toIr))
    f.returnTy.toIr).addBlock "entry").moveTo 0

theorem fnBody_eq {f : FnDecl} (hb : b.openFn = none) :
    fnBody g f b = (bodyCode g f >>= fun _ => (liftM Build.finishFunction : Emit Unit)) (begun b f) := by
  unfold fnBody bodyCode
  rw [Emit.bind_eq (Emit.lift_eq (Build.beginFunction_eq hb _ _ _)),
    Emit.bind_eq (Emit.lift_eq (Build.createBlock_eq rfl _)),
    Emit.bind_eq (Emit.lift_eq (Build.position_eq _))]
  simp only [bind_assoc]
  rfl

theorem begun_fills {f : FnDecl} :
    (begun b f).Fills strict ⟨⟨[⟨none, "entry"⟩], []⟩, 0⟩ :=
  .moveTo (.begin _ _ _) ((b.unfinished_begin _ _ _ _ 0).mpr rfl)

/-- The body of a function is lowered to the end, and then has no open block, or is given up. -/
theorem bodyCode_runs {f : FnDecl} (hg : ∀ s : Spot, s.KnowsTable g)
    (hlabels : strict → Stmt.AllHaveDistinctLabels f.body.stmts) :
    Runs (bodyCode g f) (begun b f) fun _ b' => ∃ l : Layout,
      b'.Sound strict l ∧ l.blocks[0]? = some ⟨none, "entry"⟩ ∧ ∀ id, ¬ b'.Unfinished id := by
  apply (formals_adds (hg _).push f.formals _ begun_fills).bind
  rintro inner b₁ ⟨s₁, h₁, hfills₁, hflows₁, hinner⟩
  have hout : LeadsOut s₁ ⟨f.returnTy, []⟩ := by
    intro frame hframe
    cases hframe
  apply (stmts_does hinner.push hout f.body.stmts hlabels b₁ hfills₁.stands).bind
  rintro _ b₂ ⟨s₂, h₂, hstands₂, hsettles₂, -⟩
  apply (closeBody_runs hstands₂ (hflows₁.settles.trans hsettles₂)).imp
  rintro _ b₃ ⟨hsound, hun⟩
  refine ⟨s₂.layout, hsound, (h₁.trans h₂).layout.block rfl, ?_⟩
  intro id hid
  obtain ⟨hid, hne⟩ := (hun id).mp hid
  apply hne
  have hzero : id = 0 := (b.unfinished_begin _ _ _ _ id).mp hid
  rw [hzero]
  rfl

/-- The function that is being filled keeps its name. -/
theorem openFn_of_within {f : FnDecl} {b' : Builder} (hwithin : Within (begun b f) b') :
    ∃ fn, b'.openFn = some fn ∧ fn.name = f.name.name := by
  have hheader := hwithin.header
  simp only [begun, Builder.header_moveTo, Builder.header_addBlock] at hheader
  simp only [Builder.header, Builder.begin, Option.map_some, Option.map_eq_some_iff,
    Prod.mk.injEq] at hheader
  obtain ⟨fn, hfn, hname, -⟩ := hheader
  exact ⟨fn, hfn, hname⟩

/-- A function that was lowered is sound; one that was not stays open. -/
theorem fnBody_cases {f : FnDecl} (hb : b.openFn = none) (hg : ∀ s : Spot, s.KnowsTable g)
    (hlabels : strict → Stmt.AllHaveDistinctLabels f.body.stmts) :
    (∃ b' fn, fnBody g f b = .ok () b' ∧ b'.openFn = none ∧
      b'.output = b.output.addFunction fn ∧ fn.IsSound strict) ∨
    ∃ fault b' fn, fnBody g f b = .error fault b' ∧ b'.openFn = some fn ∧ fn.name = f.name.name ∧
      b'.output = b.output ∧ ∀ bf, fault ≠ .builder bf := by
  have hruns := bodyCode_runs (b := b) hg hlabels
  rw [fnBody_eq hb]
  cases hx : bodyCode g f (begun b f) with
  | ok a b' =>
    obtain ⟨hwithin, l, hsound, hentry, hclosed⟩ := hruns.ok_imp hx
    obtain ⟨fn, hfn, -⟩ := openFn_of_within hwithin
    have hfinish := Emit.lift_eq (Build.finishFunction_eq hfn hclosed)
    left
    refine ⟨b'.finish fn, fn, (Emit.bind_eq hx).trans hfinish, rfl, ?_, ?_⟩
    · rw [Builder.finish, hwithin.output]
      rfl
    · have hgraph := hsound.isOfGraph hfn hentry
      refine ⟨(hsound.isOf hfn hentry).isSsa, hgraph.isGraph, hgraph.named, fun block hblock => ?_,
        hsound.hasDistinctLabels hfn⟩
      obtain ⟨id, hid⟩ := Array.getElem?_of_mem hblock
      refine Option.isSome_iff_ne_none.mpr fun hnone => hclosed id ⟨block, ?_, hnone⟩
      rw [Builder.block?, hfn]
      exact hid
  | error fault b' =>
    obtain ⟨hwithin, hfault⟩ := hruns.error_imp hx
    obtain ⟨fn, hfn, hname⟩ := openFn_of_within hwithin
    right
    refine ⟨fault, b', fn, ?_, hfn, hname, hwithin.output, hfault⟩
    simp [bind, EStateM.bind, hx]

theorem fnBody_stillOpen {f : FnDecl} {fn : Ir.Function} (hb : b.openFn = some fn) :
    fnBody g f b = .error (.builder (.stillOpen fn.name)) b := by
  have hbegin : Build.beginFunction f.name.name
      (f.formals.map fun formal => (formal.name.name, formal.ty.toIr)) f.returnTy.toIr b =
        .error (.stillOpen fn.name) b := by
    simp [Build.beginFunction, hb, bind, EStateM.bind, get, getThe, MonadStateOf.get, EStateM.get,
      throw, throwThe, MonadExceptOf.throw, EStateM.throw]
  simp [fnBody, bind, EStateM.bind, liftM, monadLift, MonadLift.monadLift, Emit.ofBuild, hbegin]

/-! ## Declarations -/

/-- What a declaration does: how it ends, and in which state. -/
inductive DeclStep (strict : Prop) (l : Lowering) :
    Decl → EStateM.Result Fault Lowering Unit → Prop where
  | addsGlobal {v : VarDecl} {l' : Lowering} (hopen : l'.builder.openFn = l.builder.openFn)
      (hfunctions : l'.builder.output.functions = l.builder.output.functions) :
      DeclStep strict l (.var v) (.ok () l')
  | notConstant {v : VarDecl} : DeclStep strict l (.var v) (.error .notConstant l)
  | addsFunction {f : FnDecl} {fn : Ir.Function} {l' : Lowering} (hopen : l.builder.openFn = none)
      (hopen' : l'.builder.openFn = none)
      (houtput : l'.builder.output = l.builder.output.addFunction fn) (hsound : fn.IsSound strict) :
      DeclStep strict l (.fn f) (.ok () l')
  | failsInside {f : FnDecl} {fn : Ir.Function} {fault : Fault} {l' : Lowering}
      (hopen : l.builder.openFn = none) (hopen' : l'.builder.openFn = some fn)
      (hname : fn.name = f.name.name) (houtput : l'.builder.output = l.builder.output)
      (hfault : ∀ bf, fault ≠ .builder bf) : DeclStep strict l (.fn f) (.error fault l')
  | stillOpen {f : FnDecl} {fn : Ir.Function} {l' : Lowering} (hopen : l.builder.openFn = some fn)
      (hbuilder : l'.builder = l.builder) :
      DeclStep strict l (.fn f) (.error (.builder (.stillOpen fn.name)) l')

theorem globalVar_cases (v : VarDecl) :
    globalVar g v b = .error .notConstant b ∨ ∃ init : Option Ir.Value,
      globalVar g v b = .ok (g.declare ((Symbol.ofVar v).withStorage (.address (.global v.name.name))))
        { b with output := b.output.addGlobal ⟨v.name.name, v.ty.toIr, init⟩ } := by
  unfold globalVar
  cases v.init with
  | none => exact .inr ⟨none, rfl⟩
  | some e =>
    dsimp only
    cases constant? v.ty e with
    | none => exact .inl rfl
    | some value => exact .inr ⟨some value, rfl⟩

section

variable {α : Type} {action : SymbolTable → Emit α} {l : Lowering} {b' : Builder}

theorem Run.ofEmit_ok {a : α} (h : action l.symbols l.builder = .ok a b') :
    Run.ofEmit action l = .ok a ⟨l.symbols, b'⟩ := by
  unfold Run.ofEmit
  rw [h]

theorem Run.ofEmit_error {fault : Fault} (h : action l.symbols l.builder = .error fault b') :
    Run.ofEmit action l = .error fault ⟨l.symbols, b'⟩ := by
  unfold Run.ofEmit
  rw [h]

end

/-- The state behind a run, whether that succeeds or not. -/
def Run.after {α : Type} (x : Run α) (l : Lowering) : Lowering :=
  match x l with
  | .ok _ l' => l'
  | .error _ l' => l'

/-- The addresses that the table of a lowering gives are those of global variables, or at least no
temporary values: they are known everywhere. -/
def HasGlobalTable (l : Lowering) : Prop :=
  ∀ s : Spot, s.KnowsTable l.symbols

theorem decl_step {l : Lowering} (hl : l.HasGlobalTable) {d : Decl}
    (hlabels : strict → d.HasDistinctLabels) : DeclStep strict l d (decl d l) := by
  cases d with
  | var v =>
    have hdecl : decl (.var v) l = (Run.ofEmit (globalVar · v) >>= fun symbols =>
      modify fun l => { l with symbols }) l := rfl
    rcases globalVar_cases v with hfail | ⟨init, hok⟩
    · rw [hdecl, Run.bind_eq_error (Run.ofEmit_error hfail)]
      exact .notConstant
    · rw [hdecl, Run.bind_eq (Run.ofEmit_ok hok)]
      exact .addsGlobal rfl rfl
  | fn f =>
    generalize hg : l.symbols.declare ((Symbol.ofFn f).withStorage (.function f.name.name)) = g
    have hdecl : decl (.fn f) l = Run.ofEmit (fnBody · f) { l with symbols := g } := by
      rw [← hg]
      rfl
    have htable : ∀ s : Spot, s.KnowsTable g := by
      intro s
      rw [← hg]
      exact (hl s).declareFn
    rw [hdecl]
    cases hopen : l.builder.openFn with
    | some fn =>
      rw [Run.ofEmit_error (fnBody_stillOpen hopen)]
      exact .stillOpen hopen rfl
    | none =>
      rcases fnBody_cases hopen htable hlabels with
        ⟨b', fn, hok, hopen', houtput, hsound⟩ | ⟨fault, b', fn, hfail, hopen', hname, houtput, hfault⟩
      · rw [Run.ofEmit_ok hok]
        exact .addsFunction hopen hopen' houtput hsound
      · rw [Run.ofEmit_error hfail]
        exact .failsInside hopen hopen' hname houtput hfault

theorem decl_hasGlobalTable {l : Lowering} (hl : l.HasGlobalTable) (d : Decl) :
    (Run.after (decl d) l).HasGlobalTable := by
  intro s
  cases d with
  | var v =>
    have hdecl : decl (.var v) l = (Run.ofEmit (globalVar · v) >>= fun symbols =>
      modify fun l => { l with symbols }) l := rfl
    unfold Run.after
    rcases globalVar_cases v with hfail | ⟨init, hok⟩
    · rw [hdecl, Run.bind_eq_error (Run.ofEmit_error hfail)]
      exact hl s
    · rw [hdecl, Run.bind_eq (Run.ofEmit_ok hok)]
      exact (hl s).declareVar (Spot.knows_of_temp?_eq_none rfl)
  | fn f =>
    have hdecl : decl (.fn f) l = Run.ofEmit (fnBody · f) { l with
      symbols := l.symbols.declare ((Symbol.ofFn f).withStorage (.function f.name.name)) } := rfl
    unfold Run.after
    rw [hdecl]
    unfold Run.ofEmit
    dsimp only
    cases fnBody _ f l.builder with
    | ok a b' => exact (hl s).declareFn
    | error fault b' => exact (hl s).declareFn

/-! ## Programs -/

section

variable {l l' : Lowering} {d : Decl} {rest p : Program}

theorem program_cons_ok (h : decl d l = .ok () l') : program (d :: rest) l = program rest l' :=
  Run.bind_eq h

theorem program_cons_error {fault : Fault} (h : decl d l = .error fault l') :
    program (d :: rest) l = .error fault l' :=
  Run.bind_eq_error h

theorem Run.after_eq {α : Type} {x : Run α} {a : α} (h : x l = .ok a l') : Run.after x l = l' := by
  rw [Run.after, h]

theorem Run.after_eq_of_error {α : Type} {x : Run α} {fault : Fault} (h : x l = .error fault l') :
    Run.after x l = l' := by
  rw [Run.after, h]

/-- What every declaration keeps is kept by a program. -/
theorem program_keeps (I : Lowering → Prop) (hstep : ∀ l, ∀ d ∈ p, I l → I (Run.after (decl d) l))
    (h : I l) : I (Run.after (program p) l) := by
  induction p generalizing l with
  | nil => exact h
  | cons d rest ih =>
    have hd := hstep l d List.mem_cons_self h
    cases hx : decl d l with
    | ok a l' =>
      rw [Run.after_eq hx] at hd
      rw [Run.after, program_cons_ok hx]
      exact ih (fun l d hd => hstep l d (List.mem_cons_of_mem _ hd)) hd
    | error fault l' =>
      rw [Run.after_eq_of_error hx] at hd
      rw [Run.after_eq_of_error (program_cons_error hx)]
      exact hd

end

/-- Several programs lowered into one module, one after the other, whatever becomes of each. -/
def afterAll (l : Lowering) (ps : List Program) : Lowering :=
  ps.foldl (fun l p => Run.after (program p) l) l

theorem afterAll_concat (l : Lowering) (ps : List Program) (p : Program) :
    l.afterAll (ps ++ [p]) = Run.after (program p) (l.afterAll ps) := by
  simp [afterAll]

/-- What every declaration keeps is kept by all programs. -/
theorem afterAll_keeps (I : Lowering → Prop) (hstep : ∀ l d, I l → I (Run.after (decl d) l))
    {l : Lowering} (h : I l) (ps : List Program) : I (l.afterAll ps) := by
  induction ps generalizing l with
  | nil => exact h
  | cons p rest ih => exact ih (program_keeps I (fun l d _ => hstep l d) h)

theorem program_hasGlobalTable {l : Lowering} (hl : l.HasGlobalTable) (p : Program) :
    (Run.after (program p) l).HasGlobalTable :=
  program_keeps HasGlobalTable (fun _ d _ hl => decl_hasGlobalTable hl d) hl

theorem new_hasGlobalTable (moduleName : String) : (new moduleName).HasGlobalTable := by
  intro s name symbol address hsymbol
  rw [new, SymbolTable.lookup?_empty] at hsymbol
  cases hsymbol

theorem afterAll_hasGlobalTable (moduleName : String) (ps : List Program) :
    ((new moduleName).afterAll ps).HasGlobalTable :=
  afterAll_keeps HasGlobalTable (fun _ d hl => decl_hasGlobalTable hl d) (new_hasGlobalTable moduleName) ps

/-! ## Functions of the module -/

/-- A function after a declaration was there before, or the declaration has added it. -/
theorem function_cases {l : Lowering} (hl : l.HasGlobalTable) {d : Decl}
    (hlabels : strict → d.HasDistinctLabels) :
    ∀ fn ∈ (Run.after (decl d) l).builder.output.functions,
      fn ∈ l.builder.output.functions ∨ fn.IsSound strict ∧ ∃ f l', d = .fn f ∧
        decl d l = .ok () l' ∧ l'.builder.output = l.builder.output.addFunction fn := by
  intro fn hfn
  have hstep := decl_step hl hlabels
  unfold Run.after at hfn
  generalize hr : decl d l = r at hstep hfn
  cases hstep with
  | addsGlobal hopen hfunctions => exact .inl (hfunctions ▸ hfn)
  | notConstant => exact .inl hfn
  | addsFunction hopen hopen' houtput hsound =>
    simp only [houtput] at hfn
    rcases Ir.Module.mem_addFunction hfn with hold | rfl
    · exact .inl hold
    · exact .inr ⟨hsound, _, _, rfl, rfl, houtput⟩
  | failsInside hopen hopen' hname houtput hfault =>
    simp only [houtput] at hfn
    exact .inl hfn
  | stillOpen hopen hbuilder =>
    simp only [hbuilder] at hfn
    exact .inl hfn

theorem afterAll_functions (moduleName : String) (ps : List Program) :
    ∀ fn ∈ ((new moduleName).afterAll ps).builder.output.functions, fn.IsSound False := by
  have hnew : ∀ fn ∈ (new moduleName).builder.output.functions, fn.IsSound False := by
    simp [new, Builder.new, Ir.Module.empty]
  have hall := afterAll_keeps
    (fun l => l.HasGlobalTable ∧ ∀ fn ∈ l.builder.output.functions, fn.IsSound False) ?_
    ⟨new_hasGlobalTable moduleName, hnew⟩ ps
  · exact hall.2
  · rintro l d ⟨hl, hfunctions⟩
    have hlabels : False → d.HasDistinctLabels := False.elim
    refine ⟨decl_hasGlobalTable hl d, ?_⟩
    intro fn hfn
    rcases function_cases hl hlabels fn hfn with hold | ⟨hsound, -⟩
    · exact hfunctions fn hold
    · exact hsound

/-- The lowering of a program, begun in some state, adds a function to the module. -/
def AddsFunction (l : Lowering) (p : Program) (fn : Ir.Function) : Prop :=
  ∃ before f after l₁ l₂, p = before ++ .fn f :: after ∧ program before l = .ok () l₁ ∧
    decl (.fn f) l₁ = .ok () l₂ ∧ l₂.builder.output = l₁.builder.output.addFunction fn

theorem AddsFunction.cons {l l' : Lowering} {d : Decl} {rest : Program} {fn : Ir.Function}
    (hd : decl d l = .ok () l') (h : AddsFunction l' rest fn) : AddsFunction l (d :: rest) fn := by
  obtain ⟨before, f, after, l₁, l₂, rfl, hbefore, hdecl, houtput⟩ := h
  exact ⟨d :: before, f, after, l₁, l₂, rfl, (program_cons_ok hd).trans hbefore, hdecl, houtput⟩

theorem AddsFunction.isSound {l : Lowering} (hl : l.HasGlobalTable) {p : Program} {fn : Ir.Function}
    (h : AddsFunction l p fn) (hlabels : strict → ∀ d ∈ p, d.HasDistinctLabels) :
    fn.IsSound strict := by
  obtain ⟨before, f, after, l₁, l₂, rfl, hbefore, hdecl, houtput⟩ := h
  have hl₁ := program_hasGlobalTable hl before
  rw [Run.after_eq hbefore] at hl₁
  have hstep := decl_step hl₁ fun hstrict => hlabels hstrict (.fn f) (by simp)
  rw [hdecl] at hstep
  cases hstep with
  | addsFunction hopen hopen' houtput' hsound =>
    rw [houtput] at houtput'
    have hfunctions := congrArg Ir.Module.functions houtput'
    simp only [Ir.Module.addFunction] at hfunctions
    have hlast := (List.append_inj' hfunctions rfl).2
    cases hlast
    exact hsound

theorem program_functions {l : Lowering} (hl : l.HasGlobalTable) {p : Program} {fn : Ir.Function}
    (hfn : fn ∈ (Run.after (program p) l).builder.output.functions) :
    fn ∈ l.builder.output.functions ∨ AddsFunction l p fn := by
  induction p generalizing l with
  | nil => exact .inl hfn
  | cons d rest ih =>
    have hcases := function_cases hl (False.elim : False → d.HasDistinctLabels)
    have hl' := decl_hasGlobalTable hl d
    cases hd : decl d l with
    | ok a l' =>
      rw [Run.after_eq hd] at hcases hl'
      rw [Run.after, program_cons_ok hd] at hfn
      rcases ih hl' hfn with hold | hadds
      · rcases hcases fn hold with hold | ⟨-, f, l₂, rfl, hok, houtput⟩
        · exact .inl hold
        · exact .inr ⟨[], f, rest, l, l₂, rfl, rfl, hok, houtput⟩
      · exact .inr (hadds.cons hd)
    | error fault l' =>
      rw [Run.after_eq_of_error hd] at hcases
      rw [Run.after_eq_of_error (program_cons_error hd)] at hfn
      rcases hcases fn hfn with hold | ⟨-, f, l₂, -, hok, -⟩
      · exact .inl hold
      · rw [hd] at hok
        cases hok

theorem afterAll_added {l : Lowering} (hl : l.HasGlobalTable) {ps : List Program} {fn : Ir.Function}
    (hfn : fn ∈ (l.afterAll ps).builder.output.functions) :
    fn ∈ l.builder.output.functions ∨ ∃ before p after, ps = before ++ p :: after ∧
      AddsFunction (l.afterAll before) p fn := by
  induction ps generalizing l with
  | nil => exact .inl hfn
  | cons p rest ih =>
    have hl' := program_hasGlobalTable hl p
    rcases ih hl' hfn with hold | ⟨before, q, after, rfl, hadds⟩
    · rcases program_functions hl hold with hold | hadds
      · exact .inl hold
      · exact .inr ⟨[], p, rest, rfl, hadds⟩
    · exact .inr ⟨p :: before, q, after, rfl, hadds⟩

/-- Every function that programs leave in a module is in single-assignment form, whether or not the
programs were checked, and whether or not they could be lowered. -/
theorem functions_isSsa (moduleName : String) (ps : List Program) :
    ∀ fn ∈ ((new moduleName).afterAll ps).builder.output.functions, fn.IsSsa := by
  intro fn hfn
  exact (afterAll_functions moduleName ps fn hfn).ssa

/-- A slot in the body of a loop, and one for the value of a conditional. -/
theorem functions_isSsa_of_conditional : ∃ p fn,
    Program.ofText? "int f(bool b) { while (b) { int n; break; } return b ? 1 : 2; }" = .ok p ∧
      fn ∈ ((new "m").afterAll [p]).builder.output.functions ∧ fn.IsSsa := by
  obtain ⟨p, fn, hp, hfunctions⟩ : ∃ p fn,
      Program.ofText? "int f(bool b) { while (b) { int n; break; } return b ? 1 : 2; }" = .ok p ∧
        ((new "m").afterAll [p]).builder.output.functions = [fn] :=
    ⟨_, _, by cbv, by cbv⟩
  have hfn : fn ∈ ((new "m").afterAll [p]).builder.output.functions := by simp [hfunctions]
  exact ⟨p, fn, hp, hfn, functions_isSsa "m" [p] fn hfn⟩

/-- The blocks of every function that programs leave in a module make a graph, whether or not the
programs were checked, and whether or not they could be lowered. The function comes from one of the
programs, and if that has no findings, its labels are distinct. -/
theorem functions_isGraph (moduleName : String) (ps : List Program) :
    ∀ fn ∈ ((new moduleName).afterAll ps).builder.output.functions, fn.IsGraph ∧
      (∃ before p after, ps = before ++ p :: after ∧
        AddsFunction ((new moduleName).afterAll before) p fn) ∧
      ∀ before p after, ps = before ++ p :: after →
        AddsFunction ((new moduleName).afterAll before) p fn →
          ∀ c, (Check.program c p).findings = [] → fn.HasDistinctLabels := by
  intro fn hfn
  refine ⟨(afterAll_functions moduleName ps fn hfn).graph, ?_, ?_⟩
  · rcases afterAll_added (new_hasGlobalTable moduleName) hfn with hold | hadded
    · simp [new, Builder.new, Ir.Module.empty] at hold
    · exact hadded
  · intro before p after _ hadds c hclean
    have hlabels : True → ∀ d ∈ p, d.HasDistinctLabels :=
      fun _ => Check.CleanProgram.haveDistinctLabels hclean
    exact (hadds.isSound (afterAll_hasGlobalTable moduleName before) hlabels).labels trivial

/-- A `switch` with a jump out of one of its arms. -/
theorem functions_isGraph_of_switch : ∃ p fn,
    Program.ofText? "void f(int n) { switch (n) { case 1: return; case 2: default: n = 3; } }" = .ok p ∧
      fn ∈ ((new "m").afterAll [p]).builder.output.functions ∧ fn.IsGraph ∧
        p.findings = [] ∧ fn.HasDistinctLabels := by
  obtain ⟨p, fn, hp, hfunctions, hclean⟩ : ∃ p fn,
      Program.ofText? "void f(int n) { switch (n) { case 1: return; case 2: default: n = 3; } }" = .ok p ∧
        ((new "m").afterAll [p]).builder.output.functions = [fn] ∧ p.findings = [] :=
    ⟨_, _, by cbv, by cbv, by cbv⟩
  have hfn : fn ∈ ((new "m").afterAll [p]).builder.output.functions := by simp [hfunctions]
  obtain ⟨hgraph, ⟨before, q, after, hsplit, hadds⟩, hlabels⟩ := functions_isGraph "m" [p] fn hfn
  obtain ⟨rfl, rfl, rfl⟩ : before = [] ∧ q = p ∧ after = [] := by
    cases before with
    | nil => simpa [eq_comm] using hsplit
    | cons r rest => simp at hsplit
  exact ⟨q, fn, hp, hfn, hgraph, hclean, hlabels [] q [] rfl hadds .empty hclean⟩

/-! ## Faults of the builder -/

/-- The lowering of a program, begun in some state, fails inside the body of a function, which stays
open. -/
def FailsInside (l : Lowering) (p : Program) (name : String) : Prop :=
  ∃ before f after l₁ fault l₂ fn, p = before ++ .fn f :: after ∧ program before l = .ok () l₁ ∧
    l₁.builder.openFn = none ∧ decl (.fn f) l₁ = .error fault l₂ ∧
      l₂.builder.openFn = some fn ∧ fn.name = name ∧ f.name.name = name

theorem FailsInside.cons {l l' : Lowering} {d : Decl} {rest : Program} {name : String}
    (hd : decl d l = .ok () l') (h : FailsInside l' rest name) : FailsInside l (d :: rest) name := by
  obtain ⟨before, f, after, l₁, fault, l₂, fn, rfl, hbefore, hrest⟩ := h
  exact ⟨d :: before, f, after, l₁, fault, l₂, fn, rfl, (program_cons_ok hd).trans hbefore, hrest⟩

theorem decl_step_unchecked {l : Lowering} (hl : l.HasGlobalTable) (d : Decl) :
    DeclStep False l d (decl d l) :=
  decl_step hl False.elim

/-- A function that is open behind a program has been left open by it. -/
theorem failsInside_of_openFn {l : Lowering} (hl : l.HasGlobalTable) (hopen : l.builder.openFn = none)
    {p : Program} {fn : Ir.Function} (hfn : (Run.after (program p) l).builder.openFn = some fn) :
    FailsInside l p fn.name := by
  induction p generalizing l with
  | nil =>
    have hsame : l.builder.openFn = some fn := hfn
    rw [hopen] at hsame
    cases hsame
  | cons d rest ih =>
    have hstep := decl_step_unchecked hl d
    have hl' := decl_hasGlobalTable hl d
    cases hd : decl d l with
    | ok a l' =>
      rw [Run.after_eq hd] at hl'
      rw [Run.after, program_cons_ok hd] at hfn
      rw [hd] at hstep
      have hopen' : l'.builder.openFn = none := by
        cases hstep with
        | addsGlobal hsame => exact hsame.trans hopen
        | addsFunction _ hopen' => exact hopen'
      exact (ih hl' hopen' hfn).cons hd
    | error fault l' =>
      rw [Run.after_eq_of_error (program_cons_error hd)] at hfn
      have hd' := hd
      rw [hd] at hstep
      cases hstep with
      | notConstant =>
        rw [hopen] at hfn
        cases hfn
      | failsInside _ hopen' hname =>
        rw [hopen'] at hfn
        cases hfn
        exact ⟨[], _, rest, l, fault, l', _, rfl, rfl, hopen, hd', hopen', rfl, hname.symm⟩
      | stillOpen hsome _ =>
        rw [hopen] at hsome
        cases hsome

/-- No program closes a function that was left open. -/
theorem openFn_keeps {l : Lowering} (hl : l.HasGlobalTable) {fn : Ir.Function}
    (hopen : l.builder.openFn = some fn) (p : Program) :
    (Run.after (program p) l).builder.openFn = some fn := by
  have hkeeps := program_keeps (p := p)
    (fun l => l.HasGlobalTable ∧ l.builder.openFn = some fn) ?_ ⟨hl, hopen⟩
  · exact hkeeps.2
  · rintro l d - ⟨hl, hopen⟩
    refine ⟨decl_hasGlobalTable hl d, ?_⟩
    have hstep := decl_step_unchecked hl d
    unfold Run.after
    generalize decl d l = r at hstep
    cases hstep with
    | addsGlobal hsame => exact hsame.trans hopen
    | notConstant => exact hopen
    | addsFunction hnone | failsInside hnone =>
      rw [hnone] at hopen
      cases hopen
    | stillOpen _ hbuilder => exact (congrArg Builder.openFn hbuilder).trans hopen

theorem failsInside_of_afterAll (moduleName : String) {ps : List Program} {fn : Ir.Function}
    (hopen : ((new moduleName).afterAll ps).builder.openFn = some fn) :
    ∃ before p after, ps = before ++ p :: after ∧
      FailsInside ((new moduleName).afterAll before) p fn.name := by
  induction ps using List.reverseRecOn with
  | nil => cases hopen
  | append_singleton ps p ih =>
    rw [afterAll_concat] at hopen
    have hl := afterAll_hasGlobalTable moduleName ps
    cases hbefore : ((new moduleName).afterAll ps).builder.openFn with
    | none => exact ⟨ps, p, [], rfl, failsInside_of_openFn hl hbefore hopen⟩
    | some fn' =>
      rw [openFn_keeps hl hbefore p] at hopen
      cases hopen
      obtain ⟨before, q, after, rfl, hfails⟩ := ih hbefore
      exact ⟨before, q, after ++ [p], by simp, hfails⟩

/-- The builder refuses nothing to a program but to begin a function while another one is open. -/
theorem stillOpen_of_builder_fault {l l' : Lowering} (hl : l.HasGlobalTable) {p : Program}
    {fault : Builder.Fault} (h : program p l = .error (.builder fault) l') :
    ∃ fn, l.builder.openFn = some fn ∧ fault = .stillOpen fn.name := by
  induction p generalizing l with
  | nil => cases h
  | cons d rest ih =>
    have hstep := decl_step_unchecked hl d
    have hl' := decl_hasGlobalTable hl d
    cases hd : decl d l with
    | ok a l₁ =>
      rw [Run.after_eq hd] at hl'
      rw [program_cons_ok hd] at h
      rw [hd] at hstep
      obtain ⟨fn, hopen, hfault⟩ := ih hl' h
      cases hstep with
      | addsGlobal hsame => exact ⟨fn, hsame ▸ hopen, hfault⟩
      | addsFunction _ hnone =>
        rw [hnone] at hopen
        cases hopen
    | error fault' l₁ =>
      rw [program_cons_error hd] at h
      cases h
      rw [hd] at hstep
      cases hstep with
      | failsInside _ _ _ _ hfault => exact absurd rfl (hfault _)
      | stillOpen hopen _ => exact ⟨_, hopen, rfl⟩

/-- The lowering of a program, checked or not, never fails for want of a block, with code behind a
terminator or with a block left open. If the builder refuses anything, it is to begin a function
because an earlier program has failed inside the body of another one. -/
theorem builder_fault_only (moduleName : String) (ps : List Program) (p : Program)
    (fault : Builder.Fault) (l' : Lowering)
    (h : program p ((new moduleName).afterAll ps) = .error (.builder fault) l') :
    ∃ name, fault = .stillOpen name ∧ ∃ before q after, ps = before ++ q :: after ∧
      FailsInside ((new moduleName).afterAll before) q name := by
  obtain ⟨fn, hopen, rfl⟩ := stillOpen_of_builder_fault (afterAll_hasGlobalTable moduleName ps) h
  exact ⟨fn.name, rfl, failsInside_of_afterAll moduleName hopen⟩

/-- A name that is not declared leaves its function open. -/
theorem builder_fault_only_behind_failure : ∃ p q fault l',
    Program.ofText? "void f() { x; }" = .ok p ∧ Program.ofText? "void g() { }" = .ok q ∧
      program q ((new "m").afterAll [p]) = .error (.builder fault) l' ∧
        ∃ name, fault = .stillOpen name ∧ ∃ before q after, [p] = before ++ q :: after ∧
          FailsInside ((new "m").afterAll before) q name := by
  obtain ⟨p, q, fault, l', hp, hq, hfault⟩ : ∃ p q fault l',
      Program.ofText? "void f() { x; }" = .ok p ∧ Program.ofText? "void g() { }" = .ok q ∧
        program q ((new "m").afterAll [p]) = .error (.builder fault) l' :=
    ⟨_, _, _, _, by cbv, by cbv, by cbv⟩
  exact ⟨p, q, fault, l', hp, hq, hfault, builder_fault_only "m" [p] q fault l' hfault⟩

end Lowering

end ShaderLang
