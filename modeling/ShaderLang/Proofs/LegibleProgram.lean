import ShaderLang.Compiler
import ShaderLang.Proofs.LegibleModule
import ShaderLang.Proofs.Names

/-!
# Containers lose nothing

The modules of programs that were read and checked are legible: their names are names of the
language, parameters are read only where a function begins, and blocks are named after their stems. So
the bytes of a container determine the module that was put into it
(`Compiler.output_eq_of_bytes_eq`). The one thing that is asked is that the floating-point numbers in
the modules are told apart by their texts.
-/

namespace ShaderLang

open Lowering

namespace Ir

/-- The floating-point numbers in an operand. -/
def Value.floats : Value → List Float
  | float x => [x]
  | vector lanes => lanes
  | _ => []

/-- The operands in a block. -/
def Block.operands (b : Block) : List Value :=
  b.insts.toList.flatMap Inst.operands ++ b.terminator.toList.flatMap Terminator.operands

/-- The floating-point numbers in a module. -/
def Module.floats (m : Module) : List Float :=
  (m.globals.flatMap fun g => g.init.toList.flatMap Value.floats) ++
    m.functions.flatMap fun f => f.blocks.toList.flatMap fun b => b.operands.flatMap Value.floats

variable {known : Float → Prop}

theorem Value.isLegible_of_isPlain {v : Value} {globals : List String} (h : v.isPlain globals = true)
    (hn : ∀ name ∈ globals, Token.IsName name) (hf : ∀ x ∈ v.floats, known x) : v.IsLegible known := by
  cases v with
  | param | function => cases h
  | global name => exact hn name (of_decide_eq_true h)
  | float x => exact hf x List.mem_cons_self
  | vector lanes => exact hf
  | _ => trivial

theorem Value.isLegible_of_isConstant {v : Value} (h : v.isConstant = true)
    (hf : ∀ x ∈ v.floats, known x) : v.IsLegible known := by
  cases v with
  | float x => exact hf x List.mem_cons_self
  | vector lanes => exact hf
  | int | bool => trivial
  | _ => cases h

end Ir

/-! ## Containers -/

namespace Container

theorem payloadBytes_inj {s t : String} (h : payloadBytes s = payloadBytes t) : s = t := by
  apply String.toByteArray_inj.mp
  apply ByteArray.ext
  exact Array.toList_inj.mp h

theorem wrap_inj {s t : String} (h : wrap s = wrap t) : s = t := by
  unfold wrap at h
  dsimp only at h
  obtain ⟨hbody, -⟩ := List.append_inj' h (by simp [wordBytes])
  unfold body at hbody
  obtain ⟨-, hpayload⟩ := List.append_inj hbody (by simp)
  exact payloadBytes_inj hpayload

end Container

/-! ## Initial values -/

namespace Lowering

theorem isConstant_settle {value : Ir.Value} (h : value.isConstant = true) (target : Ty) :
    (settle value target).isConstant = true := by
  unfold settle
  split <;> first | rfl | exact h

theorem isConstant_of_negate? {value negative : Ir.Value} (h : negate? value = some negative) :
    negative.isConstant = true := by
  cases value <;> cases h <;> rfl

theorem isConstant_vectorOf (width : Nat) (lanes : List Float) :
    (vectorOf width lanes).isConstant = true := by
  unfold vectorOf
  split <;> rfl

mutual

theorem isConstant_of_constant? {target : Ty} {e : Expr} {value : Ir.Value}
    (h : constant? target e = some value) : value.isConstant = true := by
  cases e with
  | int span n =>
    rw [constant?] at h
    cases h
    exact isConstant_settle (by split <;> rfl) target
  | float span x =>
    rw [constant?] at h
    cases h
    exact isConstant_settle rfl target
  | bool span b =>
    rw [constant?] at h
    cases h
    exact isConstant_settle rfl target
  | unary span op operand =>
    cases op with
    | plus =>
      rw [constant?] at h
      obtain ⟨inner, hinner, rfl⟩ := Option.map_eq_some_iff.mp h
      exact isConstant_settle (isConstant_of_constant? hinner) target
    | minus =>
      rw [constant?] at h
      obtain ⟨negative, hnegative, rfl⟩ := Option.map_eq_some_iff.mp h
      obtain ⟨inner, -, hnegate⟩ := Option.bind_eq_some_iff.mp hnegative
      exact isConstant_settle (isConstant_of_negate? hnegate) target
    | _ => simp [constant?] at h
  | construct span constructed arguments =>
    rw [constant?] at h
    split at h
    · obtain ⟨lanes, -, rfl⟩ := Option.map_eq_some_iff.mp h
      exact isConstant_settle (isConstant_vectorOf _ lanes) target
    · obtain ⟨inner, hinner, rfl⟩ := Option.map_eq_some_iff.mp h
      exact isConstant_settle (isConstant_of_single? hinner) target
  | _ => simp [constant?] at h
  termination_by sizeOf e

theorem isConstant_of_single? {target : Ty} {es : List Expr} {value : Ir.Value}
    (h : single? target es = some value) : value.isConstant = true := by
  unfold single? at h
  split at h
  · exact isConstant_of_constant? h
  · cases h
  termination_by sizeOf es

end

variable {g g' : SymbolTable} {b b' : Ir.Builder} {p : Program}

theorem output_of_globalVar {v : VarDecl} (h : globalVar g v b = .ok g' b') :
    ∃ init : Option Ir.Value, b'.output = b.output.addGlobal ⟨v.name.name, v.ty.toIr, init⟩ ∧
      ∀ value ∈ init, value.isConstant = true := by
  unfold globalVar at h
  cases hinit : v.init with
  | none =>
    rw [hinit] at h
    cases h
    exact ⟨none, rfl, nofun⟩
  | some e =>
    rw [hinit] at h
    dsimp only at h
    cases hvalue : constant? v.ty e with
    | none =>
      rw [hvalue] at h
      cases h
    | some value =>
      rw [hvalue] at h
      cases h
      refine ⟨some value, rfl, ?_⟩
      rintro _ ⟨⟩
      exact isConstant_of_constant? hvalue

/-- The global variables of a module are those of the program, with constants for their initial
values. -/
theorem program_globals {c : SymbolTable} {lo lo' : Lowering} (hc : Check.CleanProgram c p)
    (hx : program p lo = .ok () lo') : lo'.builder.output.name = lo.builder.output.name ∧
      ∀ global ∈ lo'.builder.output.globals, global ∈ lo.builder.output.globals ∨
        ∃ v, .var v ∈ p ∧ global.name = v.name.name ∧
          ∀ value ∈ global.init, value.isConstant = true := by
  induction p generalizing lo c with
  | nil =>
    cases hx
    exact ⟨rfl, fun global h => .inl h⟩
  | cons d rest ih =>
    obtain ⟨hcd, hcrest⟩ := Check.cleanProgram_cons hc
    obtain ⟨_, lo₁, hdecl, hrest⟩ := Run.bind_eq_ok hx
    obtain ⟨hname, hglobals⟩ := ih hcrest hrest
    cases d with
    | var v =>
      obtain ⟨_, hvar, -⟩ := decl_var_ok hdecl
      obtain ⟨init, houtput, hinit⟩ := output_of_globalVar hvar
      refine ⟨by rw [hname, houtput]; rfl, fun global hglobal => ?_⟩
      rcases hglobals global hglobal with hold | ⟨w, hw, hw'⟩
      · rw [houtput] at hold
        rcases List.mem_append.mp hold with hold | hnew
        · exact .inl (List.mem_of_mem_filter hold)
        · rw [List.mem_singleton.mp hnew]
          exact .inr ⟨v, List.mem_cons_self, rfl, hinit⟩
      · exact .inr ⟨w, List.mem_cons_of_mem _ hw, hw'⟩
    | fn f =>
      obtain ⟨b', hbody, rfl⟩ := decl_fn_ok hdecl
      obtain ⟨fn, houtput, -⟩ := fnBody_enacts (Check.CleanFn.body hcd) hbody
      refine ⟨by rw [hname, houtput]; rfl, fun global hglobal => ?_⟩
      rcases hglobals global hglobal with hold | ⟨w, hw, hw'⟩
      · rw [houtput] at hold
        exact .inl hold
      · exact .inr ⟨w, List.mem_cons_of_mem _ hw, hw'⟩

/-! ## Functions -/

theorem prologue_eq_openings (n : Nat) (vs : List VarDecl) :
    prologue n vs = Ir.openings n (vs.map fun v => (v.name.name, v.ty.toIr)) := by
  induction vs generalizing n with
  | nil => rfl
  | cons v rest ih => rw [prologue, ih, List.map_cons, Ir.openings]

theorem openings_paramsOf (f : FnDecl) : Ir.openings 0 (paramsOf f) = prologue 0 f.formals :=
  (prologue_eq_openings 0 f.formals).symm

/-- A function with a ledger is legible, as the ledger has the places where parameters are read. -/
theorem Logged.isLegible {known : Float → Prop} {l₀ l : Ir.Ledger} {f : FnDecl} {fn : Ir.Function}
    (h : Logged l₀ True f fn l) (hf : f.IsNamed) (hglobals : ∀ name ∈ l₀.globals, Token.IsName name)
    (hsound : fn.IsSound False)
    (hknown : ∀ block ∈ fn.blocks, ∀ v ∈ block.operands, ∀ x ∈ v.floats, known x) :
    fn.IsLegible known where
  name := h.name ▸ hf.name
  params := by
    rw [h.params]
    exact List.forall_mem_map.mpr hf.formals
  graph := hsound.graph
  named := hsound.named
  closed := hsound.closed
  openings index inst hinst := by
    refine h.entry index inst ?_
    rw [h.params, openings_paramsOf] at hinst
    exact hinst
  insts block index inst hi := by
    obtain ⟨content, hcontent, hinst⟩ := hi
    have hadmits := h.covers.admits ⟨content, hcontent, hinst⟩
    rw [h.params, openings_paramsOf, length_prologue]
    refine hadmits.operands.imp id fun hplain => ⟨fun v hv => ?_, hadmits.names trivial⟩
    refine Ir.Value.isLegible_of_isPlain (hplain v hv) (h.more.globals ▸ hglobals) ?_
    refine hknown content (Array.mem_of_getElem? hcontent) v (List.mem_append_left _ ?_)
    exact List.mem_flatMap.mpr ⟨inst, Array.mem_toList_iff.mpr (Array.mem_of_getElem? hinst), hv⟩
  terminators block hblock t ht v hv := by
    obtain ⟨id, hid⟩ := Array.getElem?_of_mem hblock
    have hplain := (h.covers id block hid).terminator t ht v hv
    refine Ir.Value.isLegible_of_isPlain hplain (h.more.globals ▸ hglobals) ?_
    refine hknown block hblock v (List.mem_append_right _ ?_)
    exact List.mem_flatMap.mpr ⟨t, Option.mem_toList.mpr ht, hv⟩

end Lowering

/-! ## Programs -/

namespace Program

variable {p : Program} {m : Ir.Module} {moduleName : String}

theorem isSound_of_lower (hm : p.lower moduleName = .ok m) : ∀ fn ∈ m.functions, fn.IsSound False := by
  intro fn hfn
  unfold lower at hm
  split at hm
  · next l hx =>
    cases hm
    have htable := new_hasGlobalTable moduleName
    rw [← Run.after_eq hx] at hfn
    have hadds := (program_functions htable hfn).resolve_left (by
      simp [Lowering.new, Ir.Builder.new, Ir.Module.empty])
    exact hadds.isSound htable False.elim
  · cases hm

/-- The module of a program that was read and checked is legible. -/
theorem isLegible_of_lower (hn : p.IsNamed) (hclean : p.findings = [])
    (hm : p.lower moduleName = .ok m) {known : Float → Prop} (hknown : ∀ x ∈ m.floats, known x) :
    m.name = moduleName ∧ m.IsLegible known := by
  have hvariable : ∀ v, .var v ∈ p → Token.IsName v.name.name := fun v hv => hn _ hv
  have hfunctions := (logs_of_lower hclean hm (fun _ : True => hn) (P := fun _ _ _ => True)
    fun _ _ _ _ _ _ _ _ _ => trivial).2
  have hsound := isSound_of_lower hm
  unfold lower at hm
  split at hm
  · next l hx =>
    cases hm
    obtain ⟨hname, hglobals⟩ := program_globals hclean hx
    refine ⟨hname, fun global hglobal => ?_, fun fn hfn => ?_⟩
    · have hnew := (hglobals global hglobal).resolve_left (by
        simp [Lowering.new, Ir.Builder.new, Ir.Module.empty])
      obtain ⟨v, hv, hvname, hinit⟩ := hnew
      refine ⟨hvname ▸ hvariable v hv, fun value hvalue => ?_⟩
      refine Ir.Value.isLegible_of_isConstant (hinit value hvalue) fun x hx => hknown x ?_
      refine List.mem_append_left _ (List.mem_flatMap.mpr ⟨global, hglobal, ?_⟩)
      exact List.mem_flatMap.mpr ⟨value, Option.mem_toList.mpr hvalue, hx⟩
    · obtain ⟨f, ledger, hf, hlogged⟩ := hfunctions fn hfn
      refine hlogged.isLegible (hn _ hf) ?_ (hsound fn hfn) fun block hblock v hv x hx => hknown x ?_
      · intro name hname
        obtain ⟨v, hv, rfl⟩ := mem_globalNames.mp hname
        exact hvariable v hv
      · refine List.mem_append_right _ (List.mem_flatMap.mpr ⟨fn, hfn, ?_⟩)
        refine List.mem_flatMap.mpr ⟨block, Array.mem_toList_iff.mpr hblock, ?_⟩
        exact List.mem_flatMap.mpr ⟨v, hv, hx⟩
  · cases hm

end Program

namespace Compiler

variable {moduleName source source' : String} {c c' : Compiled}

/-- What was compiled is the module of a clean program, and the container of its text. -/
theorem compile_eq_ok_iff : compile moduleName source = .ok c ↔ ∃ p,
    Program.ofText? source = .ok p ∧ p.findings = [] ∧ p.lower moduleName = .ok c.output ∧
      c.bytes = c.output.toContainer := by
  unfold compile
  constructor
  · intro h
    cases hp : Program.ofText? source with
    | error failure =>
      rw [hp] at h
      cases h
    | ok p =>
      rw [hp] at h
      cases hm : p.compile moduleName with
      | error fault => simp [Except.mapError, bind, Except.bind, hm] at h
      | ok m =>
        have hc : (⟨m, m.toContainer⟩ : Compiled) = c := by
          simpa [Except.mapError, bind, Except.bind, pure, Except.pure, hm] using h
        unfold Program.compile at hm
        split at hm
        · next hclean =>
          cases hlower : p.lower moduleName with
          | error fault =>
            rw [hlower] at hm
            cases hm
          | ok output =>
            rw [hlower] at hm
            cases hm
            cases hc
            exact ⟨p, rfl, hclean, hlower, rfl⟩
        · cases hm
  · rintro ⟨p, hp, hclean, hm, hbytes⟩
    obtain ⟨output, bytes⟩ := c
    dsimp only at hm hbytes
    rw [hp, hbytes]
    simp [Program.compile, hclean, hm, Except.mapError, bind, Except.bind, pure, Except.pure]

/-- The container of a source text determines the module that it was compiled to, if the numbers in
the modules are told apart by their texts. -/
theorem output_eq_of_bytes_eq (h : compile moduleName source = .ok c)
    (h' : compile moduleName source' = .ok c')
    (hfloat : ∀ x ∈ c.output.floats ++ c'.output.floats, ∀ y ∈ c.output.floats ++ c'.output.floats,
      Ir.floatText x = Ir.floatText y → x = y)
    (hbytes : c.bytes = c'.bytes) : c.output = c'.output := by
  obtain ⟨p, hp, hclean, hm, hwrap⟩ := compile_eq_ok_iff.mp h
  obtain ⟨p', hp', hclean', hm', hwrap'⟩ := compile_eq_ok_iff.mp h'
  rw [hwrap, hwrap'] at hbytes
  obtain ⟨hname, hlegible⟩ := Program.isLegible_of_lower (Program.isNamed_of_ofText hp) hclean hm
    fun x hx => List.mem_append_left c'.output.floats hx
  obtain ⟨hname', hlegible'⟩ := Program.isLegible_of_lower (Program.isNamed_of_ofText hp') hclean' hm'
    fun x hx => List.mem_append_right c.output.floats hx
  exact Ir.Module.eq_of_text (fun x y hx hy => hfloat x hx y hy) hlegible hlegible'
    (hname.trans hname'.symm) (Container.wrap_inj hbytes)

/-- Two ways to write a function that adds a number to a parameter with the name of a temporary
value. -/
theorem output_eq_of_bytes_eq_of_parenthesized : ∃ c c' x,
    compile "m" "float f(float t0) { return t0 + 1; }" = .ok c ∧
      compile "m" "float f(float t0) { return (t0 + 1); }" = .ok c' ∧
      c.output.floats = [x] ∧ c'.output.floats = [x] ∧ c.bytes = c'.bytes ∧ c.output = c'.output := by
  obtain ⟨p, p', m, x, hp, hp', hclean, hclean', hm, hm', hfloats⟩ : ∃ p p' m x,
      Program.ofText? "float f(float t0) { return t0 + 1; }" = .ok p ∧
        Program.ofText? "float f(float t0) { return (t0 + 1); }" = .ok p' ∧ p.findings = [] ∧
        p'.findings = [] ∧ p.lower "m" = .ok m ∧ p'.lower "m" = .ok m ∧ m.floats = [x] :=
    ⟨_, _, _, _, by cbv, by cbv, by cbv, by cbv, by rfl, by rfl, by rfl⟩
  have hc : compile "m" "float f(float t0) { return t0 + 1; }" = .ok ⟨m, m.toContainer⟩ :=
    compile_eq_ok_iff.mpr ⟨p, hp, hclean, hm, rfl⟩
  have hc' : compile "m" "float f(float t0) { return (t0 + 1); }" = .ok ⟨m, m.toContainer⟩ :=
    compile_eq_ok_iff.mpr ⟨p', hp', hclean', hm', rfl⟩
  exact ⟨_, _, x, hc, hc', hfloats, hfloats, rfl,
    output_eq_of_bytes_eq hc hc' (by simp [hfloats]) rfl⟩

end Compiler

end ShaderLang
