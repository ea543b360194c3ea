import ShaderLang.Proofs.ProgramTotal
import ShaderLang.Proofs.TypedStmt

/-!
# Well-typed modules for programs

The module of a clean program type-checks (`Program.lower_typed`). A body may call functions that
stand in the module only later, such as its own, so all declarations are typed in one interface that
knows every declaration of the program. As no two declarations of a clean program have the same
name, none replaces another, and the finished module has such an interface.
-/

namespace ShaderLang

open Check Lowering

open Ir (Builder Build Interface Kind TypingEnv)

/-- The types of a declaration as the module has them. -/
def Ir.Interface.Declares (i : Interface) : Decl → Prop
  | .var v => i.globals v.name.name = some v.ty.toIr
  | .fn f => i.functions f.name.name =
    some (f.formals.map fun v => v.ty.toIr, f.returnTy.toIr)

namespace Check

variable {c : SymbolTable}

/-! ## Distinct names -/

theorem conflict?_of_declare {symbol : Symbol} (h : (declare c symbol).findings = []) :
    c.conflict? symbol.name = none := by
  unfold declare at h
  split at h
  · simp [Report.note] at h
  · assumption

theorem conflict?_of_varDecl {v : VarDecl} (h : (varDecl c v).findings = []) :
    c.conflict? v.name.name = none := by
  unfold varDecl at h
  cases hv : v.init with
  | none =>
    simp only [hv, Report.findings_bind, List.append_eq_nil_iff] at h
    exact conflict?_of_declare h.2
  | some e =>
    simp only [hv, Report.findings_bind, List.append_eq_nil_iff] at h
    exact conflict?_of_declare h.2.2

theorem conflict?_of_decl {d : Decl} (h : (decl c d).findings = []) :
    c.conflict? d.name.name = none := by
  cases d with
  | var v => exact conflict?_of_varDecl h
  | fn f =>
    simp only [decl, fnDecl, Report.findings_bind, List.append_eq_nil_iff] at h
    exact conflict?_of_declare h.1

theorem conflict?_of_declared {symbol : Symbol} {name : String}
    (h : (c.declare symbol).conflict? name = none) :
    symbol.name ≠ name ∧ c.conflict? name = none := by
  simp only [SymbolTable.conflict?, SymbolTable.declare, Scope.find?_insert] at h
  split at h
  · cases h
  · next hne => exact ⟨hne, h⟩

theorem nodup_of_varDecls {vs : List VarDecl} (h : (varDecls c vs).findings = []) :
    (vs.map fun v => v.name.name).Nodup ∧ ∀ v ∈ vs, c.conflict? v.name.name = none := by
  induction vs generalizing c with
  | nil => simp
  | cons v rest ih =>
    simp only [varDecls, Report.findings_bind, List.append_eq_nil_iff, value_varDecl] at h
    obtain ⟨hnodup, hrest⟩ := ih h.2
    refine ⟨List.nodup_cons.mpr ⟨?_, hnodup⟩, ?_⟩
    · intro hmem
      obtain ⟨w, hw, heq⟩ := List.mem_map.mp hmem
      exact (conflict?_of_declared (hrest w hw)).1 heq.symm
    · intro w hw
      rcases List.mem_cons.mp hw with rfl | hw
      · exact conflict?_of_varDecl h.1
      · exact (conflict?_of_declared (hrest w hw)).2

theorem nodup_formals {f : FnDecl} (h : (fnDecl c f).findings = []) :
    (f.formals.map fun v => v.name.name).Nodup := by
  simp only [fnDecl, Report.findings_bind, List.append_eq_nil_iff] at h
  exact (nodup_of_varDecls h.2.1).1

/-- The symbol of a declaration. -/
theorem conflict?_behindDecl {d : Decl} {name : String}
    (h : (c.behindDecl d).conflict? name = none) :
    d.name.name ≠ name ∧ c.conflict? name = none := by
  cases d with
  | var v => exact conflict?_of_declared h
  | fn f => exact conflict?_of_declared h

theorem nodup_of_cleanProgram {p : Program} (h : CleanProgram c p) :
    (p.map fun d => d.name.name).Nodup ∧ ∀ d ∈ p, c.conflict? d.name.name = none := by
  induction p generalizing c with
  | nil => simp
  | cons d rest ih =>
    simp only [CleanProgram, program, Report.findings_bind, List.append_eq_nil_iff, value_decl] at h
    obtain ⟨hnodup, hrest⟩ := ih h.2
    refine ⟨List.nodup_cons.mpr ⟨?_, hnodup⟩, ?_⟩
    · intro hmem
      obtain ⟨d', hd', heq⟩ := List.mem_map.mp hmem
      exact (conflict?_behindDecl (hrest d' hd')).1 heq.symm
    · intro d' hd'
      rcases List.mem_cons.mp hd' with rfl | hd'
      · exact conflict?_of_decl h.1
      · exact (conflict?_behindDecl (hrest d' hd')).2

end Check

/-- The types that the declarations of a program give to their names. -/
def Program.interface (p : Program) : Interface where
  globals name := p.findSome? fun
    | .var v => if v.name.name = name then some v.ty.toIr else none
    | .fn _ => none
  functions name := p.findSome? fun
    | .var _ => none
    | .fn f =>
      if f.name.name = name then some (f.formals.map fun v => v.ty.toIr, f.returnTy.toIr) else none

theorem Program.interface_declares {p : Program} (h : (p.map fun d => d.name.name).Nodup) :
    ∀ d ∈ p, p.interface.Declares d := by
  induction p with
  | nil => simp
  | cons d rest ih =>
    obtain ⟨hnew, hnodup⟩ := List.nodup_cons.mp h
    intro d' hd'
    rcases List.mem_cons.mp hd' with rfl | hd'
    · cases d' <;> simp [Ir.Interface.Declares, interface]
    · have hne : d.name.name ≠ d'.name.name := by
        intro heq
        exact hnew (List.mem_map.mpr ⟨d', hd', heq.symm⟩)
      have := ih hnodup d' hd'
      cases d <;> cases d' <;>
        simp_all [Ir.Interface.Declares, interface, Decl.name]

/-! ## Modules under construction -/

namespace Ir.Module

variable {m : Module} {i : Interface}

/-- Looking up in a list in which one entry took the place of those with its name. -/
theorem find?_replaced {α : Type} (nameOf : α → String) (xs : List α) (x : α) (name : String) :
    (xs.filter (nameOf · != nameOf x) ++ [x]).find? (nameOf · == name) =
      if nameOf x = name then some x else xs.find? (nameOf · == name) := by
  rw [List.find?_append, List.find?_filter]
  by_cases h : nameOf x = name
  · have hnone : xs.find? (fun a => decide ((nameOf a != nameOf x) = true ∧
        (nameOf a == name) = true)) = none := by
      rw [List.find?_eq_none]
      intro a _
      simp [h]
    rw [hnone]
    simp [h]
  · have heq : (fun a => decide ((nameOf a != nameOf x) = true ∧ (nameOf a == name) = true)) =
        (nameOf · == name) := by
      funext a
      by_cases ha : nameOf a = name
      · simp [ha, Ne.symm h]
      · simp [ha]
    rw [heq]
    simp [h]

theorem global?_addGlobal (g : Global) (name : String) :
    (m.addGlobal g).global? name = if g.name = name then some g else m.global? name :=
  find?_replaced Global.name m.globals g name

theorem function?_addFunction (f : Function) (name : String) :
    (m.addFunction f).function? name = if f.name = name then some f else m.function? name :=
  find?_replaced Function.name m.functions f name

theorem TypedIn.addGlobal (h : m.TypedIn i) {g : Global} (hg : g.Typed i) :
    (m.addGlobal g).TypedIn i where
  functions := h.functions
  globals g' hg' := by
    rcases List.mem_append.mp hg' with hg' | hg'
    · exact h.globals g' (List.mem_of_mem_filter hg')
    · rw [List.mem_singleton.mp hg']
      exact hg

theorem TypedIn.addFunction (h : m.TypedIn i) {f : Function} {kinds : List Kind}
    (hf : f.Typed i kinds) : (m.addFunction f).TypedIn i where
  functions f' hf' := by
    rcases List.mem_append.mp hf' with hf' | hf'
    · exact h.functions f' (List.mem_of_mem_filter hf')
    · rw [List.mem_singleton.mp hf']
      exact ⟨kinds, hf⟩
  globals := h.globals

end Ir.Module

/-- A declaration has been added to a module, and type-checks in an interface. -/
def AddsDecl (i : Interface) (m m' : Ir.Module) : Decl → Prop
  | .var v => ∃ g : Ir.Global, g.name = v.name.name ∧ g.ty = v.ty.toIr ∧ g.Typed i ∧
    m' = m.addGlobal g
  | .fn f => ∃ (fn : Ir.Function) (kinds : List Kind), fn.name = f.name.name ∧
    fn.params.map Prod.snd = f.formals.map (fun v => v.ty.toIr) ∧ fn.returnTy = f.returnTy.toIr ∧
      fn.Typed i kinds ∧ m' = m.addFunction fn

namespace AddsDecl

variable {i : Interface} {m m' : Ir.Module} {d : Decl}

theorem typedIn (h : AddsDecl i m m' d) (hm : m.TypedIn i) : m'.TypedIn i := by
  cases d with
  | var v =>
    obtain ⟨g, -, -, hg, rfl⟩ := h
    exact hm.addGlobal hg
  | fn f =>
    obtain ⟨fn, kinds, -, -, -, hfn, rfl⟩ := h
    exact hm.addFunction hfn

theorem declares (h : AddsDecl i m m' d) : m'.interface.Declares d := by
  cases d with
  | var v =>
    obtain ⟨g, hname, hty, -, rfl⟩ := h
    simp [Ir.Interface.Declares, Ir.Module.interface, Ir.Module.global?_addGlobal, hname, hty]
  | fn f =>
    obtain ⟨fn, kinds, hname, hparams, hty, -, rfl⟩ := h
    simp [Ir.Interface.Declares, Ir.Module.interface, Ir.Module.function?_addFunction, hname,
      hparams, hty]

/-- What has another name stays declared. -/
theorem keeps (h : AddsDecl i m m' d) {d' : Decl} (hne : d.name.name ≠ d'.name.name)
    (hd' : m.interface.Declares d') : m'.interface.Declares d' := by
  cases d with
  | var v =>
    obtain ⟨g, hname, -, -, rfl⟩ := h
    cases d' with
    | var v' =>
      replace hne : g.name ≠ v'.name.name := hname ▸ hne
      simp only [Ir.Interface.Declares, Ir.Module.interface, Ir.Module.global?_addGlobal] at hd' ⊢
      rwa [if_neg hne]
    | fn f' => exact hd'
  | fn f =>
    obtain ⟨fn, kinds, hname, -, -, -, rfl⟩ := h
    cases d' with
    | var v' => exact hd'
    | fn f' =>
      replace hne : fn.name ≠ f'.name.name := hname ▸ hne
      simp only [Ir.Interface.Declares, Ir.Module.interface, Ir.Module.function?_addFunction] at hd' ⊢
      rwa [if_neg hne]

end AddsDecl

namespace Lowering

variable {env : TypingEnv} {kinds : List Kind} {i : Interface} {c g : SymbolTable} {b b' : Builder}

/-! ## Functions -/

theorem formals_keeps {vs : List VarDecl} (ht : g.Typed env kinds) (hs : Stored c g)
    (hparams : ∀ v ∈ vs, env.params.lookup v.name.name = some v.ty.toIr) :
    Keeps env kinds (formals g vs) fun k g' => g'.Typed env k ∧ Stored (c.declareVars vs) g' := by
  induction vs generalizing c g kinds with
  | nil => exact .pure ⟨ht, hs⟩
  | cons v rest ih =>
    rw [formals]
    refine Keeps.bind Keeps.alloca ?_
    intro kinds₁ address hmore₁ haddress
    refine Keeps.bind (Keeps.store haddress (.param (hparams v List.mem_cons_self))) ?_
    intro kinds₂ _ hmore₂ _
    have ht' := (ht.mono (hmore₁.trans hmore₂)).declareVar (haddress.mono hmore₂)
    exact ih ht' (hs.declareVar v address) fun w hw => hparams w (List.mem_cons_of_mem _ hw)

theorem closeBody_keeps {returnTy : Ty} (hty : env.returnTy = returnTy.toIr) :
    Keeps env kinds (closeBody returnTy) fun _ _ => True := by
  refine Keeps.get_bind fun b => ?_
  split
  · exact .pure trivial
  · split
    · next hvoid => exact Keeps.terminate (.retVoid (by rw [hty, hvoid]; rfl)) trivial
    · exact Keeps.terminate .unreachable trivial

theorem beginFunction_eq_ok {name : String} {params : List (String × Ir.Ty)} {returnTy : Ir.Ty}
    (h : Ir.Build.beginFunction name params returnTy b = .ok () b') :
    b' = b.begin name params returnTy := by
  cases hf : b.openFn with
  | none =>
    rw [Ir.Build.beginFunction_eq hf] at h
    cases h
    rfl
  | some f =>
    rw [Ir.Build.beginFunction] at h
    obtain ⟨_, _, hget, h⟩ := Ir.Build.bind_eq_ok h
    cases hget
    rw [hf] at h
    cases h

theorem finishFunction_eq_ok (h : Ir.Build.finishFunction b = .ok () b') :
    ∃ f, b.openFn = some f ∧ b'.output = b.output.addFunction f := by
  rw [Ir.Build.finishFunction] at h
  obtain ⟨_, _, hget, h⟩ := Ir.Build.bind_eq_ok h
  cases hget
  cases hf : b.openFn with
  | none =>
    rw [hf] at h
    cases h
  | some f =>
    rw [hf] at h
    obtain ⟨_, _, hmodify, h⟩ := Ir.Build.bind_eq_ok h
    cases hmodify
    cases hfind : f.blocks.find? (!·.isTerminated) with
    | some block =>
      simp only [hfind] at h
      cases h
    | none =>
      simp only [hfind] at h
      cases h
      exact ⟨f, rfl, rfl⟩

theorem lookup_params {vs : List VarDecl} (h : (vs.map fun v => v.name.name).Nodup) :
    ∀ v ∈ vs, (vs.map fun v => (v.name.name, v.ty.toIr)).lookup v.name.name = some v.ty.toIr := by
  induction vs with
  | nil => simp
  | cons v rest ih =>
    obtain ⟨hnew, hnodup⟩ := List.nodup_cons.mp h
    intro w hw
    rcases List.mem_cons.mp hw with rfl | hw
    · simp
    · have hne : w.name.name ≠ v.name.name := by
        intro heq
        exact hnew (List.mem_map.mpr ⟨w, hw, heq⟩)
      rw [List.map_cons, List.lookup_cons, beq_eq_false_iff_ne.mpr hne]
      exact ih hnodup w hw

/-- The parameters of a function as the module has them. -/
def paramsOf (f : FnDecl) : List (String × Ir.Ty) :=
  f.formals.map fun v => (v.name.name, v.ty.toIr)

theorem body_keeps {f : FnDecl} (ht : ∀ params returnTy, g.Typed ⟨i, params, returnTy⟩ [])
    (hs : Stored (c.declare (.ofFn f)) g) (hd : Declared (c.insideFn f)) (hr : f.AsRead)
    (hc : CleanFn c f) (hnodup : (f.formals.map fun v => v.name.name).Nodup)
    (hshort : (Decl.fn f).Everywhere Expr.HasShortField) :
    Keeps ⟨i, paramsOf f, f.returnTy.toIr⟩ [] (formals g.push f.formals >>= fun inner =>
      stmts ⟨f.returnTy, []⟩ inner.push f.body.stmts >>= fun _ => closeBody f.returnTy)
      fun _ _ => True := by
  refine Keeps.bind (formals_keeps (ht _ _).push hs.push (lookup_params hnodup)) ?_
  intro kinds₁ inner _ ⟨htinner, hsinner⟩
  refine Keeps.bind (stmts_keeps htinner.push hsinner.push hd rfl hr.returnTy rfl hr.body hc.body
    hshort) ?_
  intro kinds₂ _ _ _
  exact closeBody_keeps rfl

theorem begun_typed {name stem : String} {params : List (String × Ir.Ty)} {returnTy : Ir.Ty} :
    ((b.begin name params returnTy).addBlock stem).Typed ⟨i, params, returnTy⟩ [] := by
  have hbegun : (b.begin name params returnTy).Typed ⟨i, params, returnTy⟩ [] := by
    refine ⟨rfl, ?_⟩
    intro id block hid
    simp [Builder.block?, Builder.begin] at hid
  exact hbegun.addBlock rfl stem

theorem fnBody_adds {f : FnDecl} (ht : ∀ params returnTy, g.Typed ⟨i, params, returnTy⟩ [])
    (hs : Stored (c.declare (.ofFn f)) g) (hd : Declared (c.insideFn f)) (hr : f.AsRead)
    (hc : CleanFn c f) (hnodup : (f.formals.map fun v => v.name.name).Nodup)
    (hshort : (Decl.fn f).Everywhere Expr.HasShortField) (hx : fnBody g f b = .ok () b') :
    AddsDecl i b.output b'.output (.fn f) := by
  unfold fnBody at hx
  obtain ⟨_, b₁, hbegin, hx⟩ := Emit.bind_eq_ok.mp hx
  obtain rfl := beginFunction_eq_ok (Emit.lift_eq_ok hbegin)
  obtain ⟨entry, b₂, hblock, hx⟩ := Emit.bind_eq_ok.mp hx
  obtain ⟨-, rfl⟩ := Ir.Build.createBlock_eq_ok (Emit.lift_eq_ok hblock)
  obtain ⟨_, b₃, hposition, hx⟩ := Emit.bind_eq_ok.mp hx
  replace hposition := Emit.lift_eq_ok hposition
  rw [Ir.Build.position_eq] at hposition
  cases hposition
  obtain ⟨inner, b₄, hformals, hx⟩ := Emit.bind_eq_ok.mp hx
  obtain ⟨_, b₅, hstmts, hx⟩ := Emit.bind_eq_ok.mp hx
  obtain ⟨_, b₆, hclose, hx⟩ := Emit.bind_eq_ok.mp hx
  have hrun : (formals g.push f.formals >>= fun inner =>
      stmts ⟨f.returnTy, []⟩ inner.push f.body.stmts >>= fun _ => closeBody f.returnTy) _ =
        .ok () b₆ :=
    (Emit.bind_eq hformals).trans ((Emit.bind_eq hstmts).trans hclose)
  obtain ⟨kinds, hretyped, -⟩ := body_keeps ht hs hd hr hc hnodup hshort _ () b₆
    (begun_typed.moveTo entry) hrun
  obtain ⟨fn, hfn, houtput⟩ := finishFunction_eq_ok (Emit.lift_eq_ok hx)
  have hheader := hretyped.header
  simp only [Builder.header_moveTo, Builder.header_addBlock] at hheader
  simp only [Builder.header, hfn, Builder.begin, Option.map_some, Option.some.injEq,
    Prod.mk.injEq] at hheader
  obtain ⟨hname, hparams, hreturn⟩ := hheader
  refine ⟨fn, kinds, hname, ?_, hreturn, ?_, ?_⟩
  · rw [hparams, paramsOf, List.map_map]
    rfl
  · intro block hmem
    obtain ⟨id, hid, hat⟩ := Array.mem_iff_getElem.mp hmem
    have htyped := hretyped.typed.blocks id block (by simp [Builder.block?, hfn, hid, hat])
    rw [hparams, hreturn]
    exact htyped
  · rw [houtput, hretyped.output]
    rfl

/-! ## Declarations and programs -/

theorem hasKind_of_isConstant {value : Ir.Value} {t : Ty} (h : value.IsConstant t) :
    value.isConstant = true ∧ value.HasKind env kinds (.value t.toIr) := by
  cases t with
  | int =>
    obtain ⟨n, rfl⟩ := h
    exact ⟨rfl, .int n⟩
  | float =>
    obtain ⟨x, rfl⟩ := h
    exact ⟨rfl, .float x⟩
  | bool =>
    obtain ⟨b, rfl⟩ := h
    exact ⟨rfl, .bool b⟩
  | _ =>
    obtain ⟨hshaped, lanes, rfl, hlength⟩ := h
    refine ⟨rfl, ?_⟩
    rw [Ty.toIr_of_isShaped hshaped, ← hlength]
    exact .vector lanes

theorem globalVar_adds {v : VarDecl} {g' : SymbolTable} (hr : v.AsRead) (hc : CleanVar c v)
    (hglobal : c.isGlobal = true) (hx : globalVar g v b = .ok g' b') :
    AddsDecl i b.output b'.output (.var v) ∧
      g' = g.declare ((Symbol.ofVar v).withStorage (.address (.global v.name.name))) := by
  unfold globalVar at hx
  have hinit : ∃ init : Option Ir.Value, (∀ value ∈ init, value.IsConstant v.ty) ∧
      (liftM (Ir.Build.addGlobal v.name.name v.ty.toIr init) >>= fun address =>
        pure (g.declare ((Symbol.ofVar v).withStorage (.address address))) : Emit SymbolTable) b =
          .ok g' b' := by
    cases he : v.init with
    | none =>
      rw [he] at hx
      exact ⟨none, by simp, hx⟩
    | some e =>
      rw [he] at hx
      have hyields := initial_yields hr hc hglobal he
      obtain ⟨value, b₁, hconstant, hx⟩ := Emit.bind_eq_ok.mp hx
      cases hvalue : constant? v.ty e with
      | none =>
        rw [hvalue] at hconstant
        cases hconstant
      | some value =>
        rw [hvalue] at hconstant hyields
        cases hconstant
        refine ⟨some value, ?_, hx⟩
        rintro _ ⟨⟩
        exact hyields.2
  obtain ⟨init, hconst, hrun⟩ := hinit
  obtain ⟨address, b₁, hadd, hrun⟩ := Emit.bind_eq_ok.mp hrun
  replace hadd := Emit.lift_eq_ok hadd
  rw [Ir.Build.addGlobal_eq] at hadd
  cases hadd
  cases hrun
  refine ⟨⟨⟨v.name.name, v.ty.toIr, init⟩, rfl, rfl, ?_, rfl⟩, rfl⟩
  intro value hvalue
  exact hasKind_of_isConstant (hconst value hvalue)

theorem Run.bind_eq_ok {α β : Type} {x : Run α} {f : α → Run β} {l l'' : Lowering} {c : β}
    (h : (x >>= f) l = .ok c l'') : ∃ a l', x l = .ok a l' ∧ f a l' = .ok c l'' := by
  cases hx : x l with
  | ok a l' =>
    rw [Run.bind_eq hx] at h
    exact ⟨a, l', rfl, h⟩
  | error fault l' =>
    rw [Run.bind_eq_error hx] at h
    cases h

theorem Run.ofEmit_eq_ok {α : Type} {action : SymbolTable → Emit α} {l l' : Lowering} {a : α}
    (h : Run.ofEmit action l = .ok a l') :
    ∃ b', action l.symbols l.builder = .ok a b' ∧ l' = ⟨l.symbols, b'⟩ := by
  unfold Run.ofEmit at h
  split at h
  · next b' hx =>
    cases h
    exact ⟨b', hx, rfl⟩
  · cases h

/-- The variables and functions of a table are those of an interface, whatever function is filled. -/
def Globally (i : Interface) (g : SymbolTable) : Prop :=
  ∀ params returnTy, g.Typed ⟨i, params, returnTy⟩ []

/-- A declaration between two functions. -/
theorem decl_adds {l l' : Lowering} {d : Decl} (ht : Globally i l.symbols) (hs : Stored c l.symbols)
    (hd : Declared c) (hglobal : c.isGlobal = true) (hr : d.AsRead) (hc : (Check.decl c d).findings = [])
    (hi : i.Declares d) (hshort : d.Everywhere Expr.HasShortField) (hx : decl d l = .ok () l') :
    AddsDecl i l.builder.output l'.builder.output d ∧ Globally i l'.symbols ∧
      Stored (c.behindDecl d) l'.symbols := by
  have hclean := cleanDecl_of_decl hc
  cases d with
  | var v =>
    obtain ⟨g', l₁, hrun, hx⟩ := Run.bind_eq_ok hx
    obtain ⟨b', hvar, rfl⟩ := Run.ofEmit_eq_ok hrun
    cases hx
    obtain ⟨hadds, rfl⟩ := globalVar_adds (i := i) hr hclean hglobal hvar
    refine ⟨hadds, ?_, hs.declareVar v _⟩
    intro params returnTy
    exact (ht params returnTy).declareVar (.global hi)
  | fn f =>
    obtain ⟨_, l₁, hdeclare, hx⟩ := Run.bind_eq_ok hx
    cases hdeclare
    obtain ⟨b', hbody, rfl⟩ := Run.ofEmit_eq_ok hx
    have ht' : Globally i
        (l.symbols.declare ((Symbol.ofFn f).withStorage (.function f.name.name))) := by
      intro params returnTy
      exact (ht params returnTy).declareFn hi
    have hs' := hs.declareFn f
    refine ⟨?_, ht', hs'⟩
    exact fnBody_adds ht' hs' (declared_insideFn hd hr hclean) hr hclean (nodup_formals hc) hshort
      hbody

/-- What a program has declared when it is lowered is in its module, and the module type-checks in
any interface that knows all of it. -/
theorem program_adds {p : Program} {l l' : Lowering} (ht : Globally i l.symbols)
    (hs : Stored c l.symbols) (hd : Declared c) (hglobal : c.isGlobal = true) (hr : p.AsRead)
    (hc : CleanProgram c p) (hi : ∀ d ∈ p, i.Declares d)
    (hshort : p.Everywhere Expr.HasShortField) (hx : program p l = .ok () l')
    (hm : l.builder.output.TypedIn i) :
    l'.builder.output.TypedIn i ∧ (∀ d ∈ p, l'.builder.output.interface.Declares d) ∧
      ∀ d : Decl, (∀ d' ∈ p, d'.name.name ≠ d.name.name) →
        l.builder.output.interface.Declares d → l'.builder.output.interface.Declares d := by
  induction p generalizing c l with
  | nil =>
    cases hx
    exact ⟨hm, by simp, fun _ _ h => h⟩
  | cons d rest ih =>
    obtain ⟨hnew, -⟩ := List.nodup_cons.mp (nodup_of_cleanProgram hc).1
    simp only [CleanProgram, Check.program, Report.findings_bind, List.append_eq_nil_iff,
      value_decl] at hc
    obtain ⟨hcd, hcrest⟩ := hc
    have hrd := hr d List.mem_cons_self
    obtain ⟨_, l₁, hdecl, hrest⟩ := Run.bind_eq_ok hx
    obtain ⟨hadds, ht', hs'⟩ := decl_adds ht hs hd hglobal hrd hcd (hi d List.mem_cons_self)
      (hshort d List.mem_cons_self) hdecl
    obtain ⟨hm', hall, hkeeps⟩ := ih ht' hs' (declared_behindDecl hd hrd (cleanDecl_of_decl hcd))
      (isGlobal_behindDecl hglobal d) (fun d' h => hr d' (List.mem_cons_of_mem _ h)) hcrest
      (fun d' h => hi d' (List.mem_cons_of_mem _ h)) (fun d' h => hshort d' (List.mem_cons_of_mem _ h))
      hrest (hadds.typedIn hm)
    have hother : ∀ d' ∈ rest, d'.name.name ≠ d.name.name := by
      intro d' hd' heq
      exact hnew (List.mem_map.mpr ⟨d', hd', heq⟩)
    refine ⟨hm', ?_, ?_⟩
    · intro d' hd'
      rcases List.mem_cons.mp hd' with rfl | hd'
      · exact hkeeps d' hother hadds.declares
      · exact hall d' hd'
    · intro d' hne hd'
      refine hkeeps d' (fun d'' h => hne d'' (List.mem_cons_of_mem _ h)) ?_
      exact hadds.keeps (hne d List.mem_cons_self) hd'

end Lowering

namespace Program

variable {p : Program} {m : Ir.Module} {moduleName : String}

theorem adds_of_lower (hr : p.AsRead) (hclean : p.findings = [])
    (hshort : p.Everywhere Expr.HasShortField) (hm : p.lower moduleName = .ok m) {i : Interface}
    (hi : ∀ d ∈ p, i.Declares d) : m.TypedIn i ∧ ∀ d ∈ p, m.interface.Declares d := by
  unfold lower at hm
  split at hm
  · next l' hx =>
    cases hm
    have ht : Globally i SymbolTable.empty := by
      intro params returnTy
      exact ⟨fun name s v a h => by simp at h, fun name s f h => by simp at h⟩
    have hempty : (Lowering.new moduleName).builder.output.TypedIn i :=
      ⟨fun f hf => absurd hf (List.not_mem_nil), fun g hg => absurd hg (List.not_mem_nil)⟩
    obtain ⟨htyped, hall, -⟩ := Lowering.program_adds ht Stored.empty .empty rfl hr hclean hi hshort
      hx hempty
    exact ⟨htyped, hall⟩
  · cases hm

/-- The module of a checked program is well typed and closed. -/
theorem lower_typed {source : String} (hp : ofText? source = .ok p) (hclean : p.findings = [])
    (hshort : p.Everywhere Expr.HasShortField) (hm : p.lower moduleName = .ok m) : m.Typed := by
  have hr := asRead_of_ofText hp
  have hdeclares := interface_declares (Check.nodup_of_cleanProgram hclean).1
  obtain ⟨-, hall⟩ := adds_of_lower hr hclean hshort hm hdeclares
  exact (adds_of_lower hr hclean hshort hm hall).1

/-- A function that calls itself, with a conversion of its argument and a selection from what it
returns. -/
theorem lower_typed_of_recursion : ∃ p m,
    ofText? "int g = 3; vec2 f(float x) { return f(g).yx; }" = .ok p ∧ p.findings = [] ∧
      p.Everywhere Expr.HasShortField ∧ p.lower "m" = .ok m ∧ m.Typed := by
  obtain ⟨p, hp, hclean, hshort, m, hm⟩ : ∃ p,
      ofText? "int g = 3; vec2 f(float x) { return f(g).yx; }" = .ok p ∧ p.findings = [] ∧
        p.Everywhere Expr.HasShortField ∧ ∃ m, p.lower "m" = .ok m :=
    ⟨_, by cbv, by cbv, by simp [Everywhere, Decl.Everywhere, VarDecl.Everywhere,
      Stmt.AllEverywhere, Stmt.Everywhere, Expr.Everywhere, Expr.AllEverywhere, Expr.HasShortField]; decide,
      _, by cbv⟩
  exact ⟨p, m, hp, hclean, hshort, hm, lower_typed hp hclean hshort hm⟩

end Program

end ShaderLang
