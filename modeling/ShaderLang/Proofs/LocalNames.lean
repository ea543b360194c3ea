import ShaderLang.Proofs.TypedProgram
import ShaderLang.Proofs.SoundProgram

/-!
# Local names

In the written form of a function its parameters and its temporary values have one kind of name: a
percent sign, and behind it the name of the parameter, or the letter `t` and a number. The numbers of
temporary values differ, and so do the names of parameters, but a parameter may be named like a
temporary value. The names that a function defines are distinct exactly if no parameter is
(`Function.nodup_localNames_iff`).
-/

namespace ShaderLang

namespace Ir

theorem toString_nat_inj {n m : Nat} (h : toString n = toString m) : n = m := by
  have hdigits : Nat.toDigits 10 n = Nat.toDigits 10 m := by simpa using congrArg String.toList h
  simpa using congrArg (Nat.ofDigitChars 10 · 0) hdigits

theorem tempText_inj {t u : Nat} : tempText t = tempText u ↔ t = u :=
  ⟨fun h => toString_nat_inj ((String.append_right_inj _).mp h), congrArg tempText⟩

/-- The name of the parameter that a temporary value is written like. -/
def namesake (t : Nat) : String :=
  "t" ++ toString t

theorem text_param_inj {name name' : String} :
    (Value.param name).text = (Value.param name').text ↔ name = name' := by
  simp [Value.text]

theorem text_param_eq_tempText {name : String} {t : Nat} :
    (Value.param name).text = tempText t ↔ name = namesake t := by
  have hsplit : tempText t = "%" ++ namesake t := by
    rw [tempText, namesake, ← String.append_assoc]
    rfl
  rw [hsplit, Value.text]
  simp

namespace Function

/-- The names that the written form defines: those of the parameters, and those of the results of all
instructions. -/
def localNames (f : Function) : List String :=
  f.params.map (fun param => (Value.param param.1).text) ++ (results f.insts).map tempText

/-- The names of a function in single-assignment form are distinct as soon as those of its
parameters are and none of these is that of a temporary value. -/
theorem nodup_localNames_iff {f : Function} (hssa : f.IsSsa) (hparams : (f.params.map Prod.fst).Nodup) :
    f.localNames.Nodup ↔ ∀ t ∈ results f.insts, namesake t ∉ f.params.map Prod.fst := by
  have hnamed : (f.params.map fun param => (Value.param param.1).text).Nodup := by
    have hmap := List.Nodup.map (fun a b => text_param_inj.mp) hparams
    rwa [List.map_map] at hmap
  have hcomputed : ((results f.insts).map tempText).Nodup :=
    hssa.unique.map fun a b => tempText_inj.mp
  rw [localNames, List.nodup_append]
  constructor
  · rintro ⟨-, -, hdisjoint⟩ t ht hmem
    obtain ⟨param, hparam, hname⟩ := List.mem_map.mp hmem
    exact hdisjoint _ (List.mem_map_of_mem hparam) _ (List.mem_map_of_mem ht)
      (text_param_eq_tempText.mpr hname)
  · intro h
    refine ⟨hnamed, hcomputed, ?_⟩
    intro name hname name' hname' heq
    obtain ⟨param, hparam, rfl⟩ := List.mem_map.mp hname
    obtain ⟨t, ht, rfl⟩ := List.mem_map.mp hname'
    have hclash := text_param_eq_tempText.mp heq
    exact h t ht (hclash ▸ List.mem_map_of_mem hparam)

end Function

end Ir

namespace Lowering

open Ir (Builder Spot)

variable {g : SymbolTable} {b b' : Builder}

/-- The function that is being filled keeps the parameters that it was begun with. -/
theorem params_of_within {f : FnDecl} {fn : Ir.Function} (hwithin : Within (begun b f) b')
    (hfn : b'.openFn = some fn) : fn.params = paramsOf f := by
  have hheader := hwithin.header
  simp only [begun, Builder.header_moveTo, Builder.header_addBlock] at hheader
  simp only [Builder.header, hfn, Builder.begin, Option.map_some, Option.some.injEq,
    Prod.mk.injEq] at hheader
  exact hheader.2.1

theorem fnBody_params {f : FnDecl} (hg : ∀ s : Spot, s.KnowsTable g)
    (hx : fnBody g f b = .ok () b') :
    ∃ fn, b'.output = b.output.addFunction fn ∧ fn.params = paramsOf f := by
  have hb : b.openFn = none := by
    cases hopen : b.openFn with
    | none => rfl
    | some fn =>
      rw [fnBody_stillOpen hopen] at hx
      cases hx
  rw [fnBody_eq hb] at hx
  obtain ⟨_, b₁, hbody, hfinish⟩ := Emit.bind_eq_ok.mp hx
  have hlabels : False → Stmt.AllHaveDistinctLabels f.body.stmts := False.elim
  obtain ⟨hwithin, -⟩ := (bodyCode_runs hg hlabels).ok_imp hbody
  obtain ⟨fn, hfn, houtput⟩ := finishFunction_eq_ok (Emit.lift_eq_ok hfinish)
  refine ⟨fn, ?_, params_of_within hwithin hfn⟩
  rw [houtput, hwithin.output]
  rfl

/-- A function that a program adds has the parameters of one of its declarations. -/
theorem AddsFunction.params {l : Lowering} (hl : l.HasGlobalTable) {p : Program} {fn : Ir.Function}
    (h : AddsFunction l p fn) : ∃ f, .fn f ∈ p ∧ fn.params = paramsOf f := by
  obtain ⟨before, f, after, l₁, l₂, rfl, hbefore, hdecl, houtput⟩ := h
  refine ⟨f, by simp, ?_⟩
  have hl₁ := program_hasGlobalTable hl before
  rw [Run.after_eq hbefore] at hl₁
  obtain ⟨_, l₃, hdeclare, hx⟩ := Run.bind_eq_ok hdecl
  cases hdeclare
  obtain ⟨b', hbody, rfl⟩ := Run.ofEmit_eq_ok hx
  obtain ⟨fn', houtput', hparams⟩ := fnBody_params (fun s => (hl₁ s).declareFn) hbody
  rw [houtput'] at houtput
  have hfunctions := congrArg Ir.Module.functions houtput
  simp only [Ir.Module.addFunction] at hfunctions
  have hlast := (List.append_inj' hfunctions rfl).2
  cases hlast
  exact hparams

end Lowering

namespace Check

/-- The formal parameters of every function of a clean program have distinct names. -/
theorem nodup_formals_of_mem {c : SymbolTable} {p : Program} {f : FnDecl} (hc : CleanProgram c p)
    (hf : .fn f ∈ p) : (f.formals.map fun v => v.name.name).Nodup := by
  induction p generalizing c with
  | nil => cases hf
  | cons d rest ih =>
    simp only [CleanProgram, program, Report.findings_bind, List.append_eq_nil_iff, value_decl] at hc
    rcases List.mem_cons.mp hf with rfl | hf
    · exact nodup_formals hc.1
    · exact ih hc.2 hf

end Check

namespace Program

variable {p : Program} {m : Ir.Module} {moduleName : String}

/-- The local names in the written form of a function are defined once each, unless a parameter is
named like a temporary value that the function computes. -/
theorem nodup_localNames_of_lower (hclean : p.findings = []) (hm : p.lower moduleName = .ok m)
    (fn : Ir.Function) (hfn : fn ∈ m.functions) :
    fn.localNames.Nodup ↔
      ∀ t ∈ Ir.results fn.insts, Ir.namesake t ∉ fn.params.map Prod.fst := by
  unfold lower at hm
  split at hm
  · next l hx =>
    cases hm
    have htable := Lowering.new_hasGlobalTable moduleName
    rw [← Lowering.Run.after_eq hx] at hfn
    have hadds := (Lowering.program_functions htable hfn).resolve_left (by
      simp [Lowering.new, Ir.Builder.new, Ir.Module.empty])
    obtain ⟨f, hf, hparams⟩ := hadds.params htable
    have hlabels : False → ∀ d ∈ p, d.HasDistinctLabels := False.elim
    have hsound := hadds.isSound htable hlabels
    apply Ir.Function.nodup_localNames_iff hsound.ssa
    rw [hparams, Lowering.paramsOf, List.map_map]
    exact Check.nodup_formals_of_mem hclean hf
  · cases hm

/-- A parameter with the name of the first temporary value, which is its own slot. -/
theorem nodup_localNames_of_lower_of_clash : ∃ p m fn,
    ofText? "float f(float t0) { return t0; }" = .ok p ∧ p.findings = [] ∧ p.lower "m" = .ok m ∧
      fn ∈ m.functions ∧ ¬ fn.localNames.Nodup := by
  obtain ⟨p, hp, hclean, m, fn, hm, hfunctions, hparams, hresults⟩ : ∃ p,
      ofText? "float f(float t0) { return t0; }" = .ok p ∧ p.findings = [] ∧
        ∃ m fn, p.lower "m" = .ok m ∧ m.functions = [fn] ∧ fn.params.map Prod.fst = ["t0"] ∧
          Ir.results fn.insts = [0, 1] :=
    ⟨_, by cbv, by cbv, _, _, by cbv, by cbv, by cbv, by cbv⟩
  have hfn : fn ∈ m.functions := by simp [hfunctions]
  refine ⟨p, m, fn, hp, hclean, hm, hfn, ?_⟩
  rw [nodup_localNames_of_lower hclean hm fn hfn, hparams, hresults]
  decide

end Program

end ShaderLang
