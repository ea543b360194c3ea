import ShaderLang.Proofs.Sites

/-!
# Names and types on both sides

At every expression of a clean program the checker and the lowering mean the same by a name
(`Program.lower_resolves`), and where the checker gives an expression a type, the lowering gives it a
value of that type (`Program.lower_keeps_types`).
-/

namespace ShaderLang

open Lowering
open Check (Clean AllClean)

/-! ## Expressions within expressions -/

mutual

/-- In a clean expression every expression is clean. -/
theorem Check.Clean.everywhere {c : SymbolTable} {e : Expr} (h : Clean c e) :
    e.Everywhere (Clean c) := by
  match e with
  | .int .. | .float .. | .bool .. | .var .. => exact h
  | .binary _ _ left right =>
    obtain ⟨hl, hr, -⟩ := clean_binary.mp h
    exact ⟨h, hl.everywhere, hr.everywhere⟩
  | .unary _ _ operand => exact ⟨h, (clean_unary.mp h).1.everywhere⟩
  | .assign _ _ target value =>
    obtain ⟨ht, hv, -⟩ := clean_assign.mp h
    exact ⟨h, ht.everywhere, hv.everywhere⟩
  | .stepAfter _ _ operand => exact ⟨h, (clean_stepAfter.mp h).1.everywhere⟩
  | .conditional _ test ifTrue ifFalse =>
    obtain ⟨htest, -, ht, hf, -⟩ := clean_conditional.mp h
    exact ⟨h, htest.everywhere, ht.everywhere, hf.everywhere⟩
  | .index _ base position =>
    obtain ⟨hb, hp, -⟩ := clean_index.mp h
    exact ⟨h, hb.everywhere, hp.everywhere⟩
  | .field _ base _ => exact ⟨h, (clean_field.mp h).1.everywhere⟩
  | .call _ _ arguments => exact ⟨h, Check.AllClean.everywhere (clean_call h).1⟩
  | .construct _ _ arguments => exact ⟨h, Check.AllClean.everywhere (clean_construct.mp h).1⟩

theorem Check.AllClean.everywhere {c : SymbolTable} {es : List Expr} (h : AllClean c es) :
    Expr.AllEverywhere (Clean c) es := by
  match es with
  | [] => trivial
  | e :: rest =>
    obtain ⟨he, hrest⟩ := allClean_cons.mp h
    exact ⟨he.everywhere, Check.AllClean.everywhere hrest⟩

end

/-! ## Names -/

/-- What an expression names, the scopes, the checker and the lowering all know as the same
declaration: a variable, of which the slot is read and written, or a function. -/
def Site.Resolves (σ : Site) : Expr → Prop
  | .var span name => ∃ v slot,
      σ.scopes.find? name.name = some (.var v slot) ∧
      (σ.checked.lookup? name.name).map Symbol.decl = some (.var v) ∧
      (σ.lowered.lookup? name.name).map Symbol.decl = some (.var v) ∧
      placeOf σ.lowered (.var span name) = pure (.whole slot v.ty) ∧
      expr σ.lowered (.var span name) = (Place.whole slot v.ty).load
  | .call _ callee _ => ∃ f,
      σ.scopes.find? callee.name = some (.fn f) ∧
      (σ.checked.lookup? callee.name).map Symbol.decl = some (.fn f) ∧
      (σ.lowered.lookup? callee.name).map Symbol.decl = some (.fn f) ∧
      Lowering.function? σ.lowered callee.name = pure (f, f.name.name)
  | _ => True

namespace Site.Agrees

variable {σ : Site}

theorem decl_lowered (h : σ.Agrees) (name : String) :
    (σ.lowered.lookup? name).map Symbol.decl = (σ.checked.lookup? name).map Symbol.decl := by
  rw [h.lowered, h.checked, Option.map_map]
  congr 1
  funext binding
  cases binding <;> rfl

/-- A name that the checker takes for a variable. -/
theorem exists_var (h : σ.Agrees) {name : String}
    (hname : (Typing.variableTy? σ.checked name).isSome = true) :
    ∃ v slot, σ.scopes.find? name = some (.var v slot) := by
  have hchecked := h.checked name
  unfold Typing.variableTy? at hname
  cases hs : σ.checked.lookup? name with
  | none => simp [hs] at hname
  | some s =>
    rw [hs, Option.map_some, eq_comm, Option.map_eq_some_iff] at hchecked
    obtain ⟨binding, hbinding, hdecl⟩ := hchecked
    cases binding with
    | var v slot => exact ⟨v, slot, hbinding⟩
    | fn f =>
      have hfn : s.decl = .fn f := hdecl.symm
      simp [hs, Symbol.var?, hfn] at hname

/-- A name that the checker takes for a function. -/
theorem exists_fn (h : σ.Agrees) {name : String}
    (hname : (Typing.function? σ.checked name).isSome = true) :
    ∃ f, σ.scopes.find? name = some (.fn f) := by
  have hchecked := h.checked name
  unfold Typing.function? at hname
  cases hs : σ.checked.lookup? name with
  | none => simp [hs] at hname
  | some s =>
    rw [hs, Option.map_some, eq_comm, Option.map_eq_some_iff] at hchecked
    obtain ⟨binding, hbinding, hdecl⟩ := hchecked
    cases binding with
    | fn f => exact ⟨f, hbinding⟩
    | var v slot =>
      have hvar : s.decl = .var v := hdecl.symm
      simp [hs, Symbol.fn?, hvar] at hname

theorem resolves (h : σ.Agrees) {e : Expr} (hc : Clean σ.checked e) : σ.Resolves e := by
  cases e with
  | var span name =>
    obtain ⟨v, slot, hfind⟩ := h.exists_var (Check.clean_var.mp hc)
    have hlowered := h.lowered name.name
    rw [hfind, Option.map_some] at hlowered
    have hplace : variablePlace σ.lowered name.name = pure (.whole slot v.ty) := by
      unfold variablePlace
      rw [hlowered]
      rfl
    refine ⟨v, slot, hfind, ?_, ?_, ?_, ?_⟩
    · rw [h.checked, hfind]
      rfl
    · rw [hlowered]
      rfl
    · rw [placeOf, hplace]
    · rw [expr, hplace, pure_bind]
  | call span callee arguments =>
    obtain ⟨-, f, hf, -⟩ := Check.clean_call hc
    obtain ⟨f, hfind⟩ := h.exists_fn (Option.isSome_iff_exists.mpr ⟨f, hf⟩)
    have hlowered := h.lowered callee.name
    rw [hfind, Option.map_some] at hlowered
    refine ⟨f, hfind, ?_, ?_, ?_⟩
    · rw [h.checked, hfind]
      rfl
    · rw [hlowered]
      rfl
    · unfold Lowering.function?
      rw [hlowered]
      rfl
  | _ => trivial

end Site.Agrees

section

variable {c g : SymbolTable}
  (h : ∀ name, (g.lookup? name).map Symbol.decl = (c.lookup? name).map Symbol.decl)

include h

/-- What is read of the declaration of a name is the same in both tables. -/
theorem bind_lookup?_congr {α : Type} {f : Symbol → Option α}
    (hf : ∀ s t : Symbol, s.decl = t.decl → f s = f t) (name : String) :
    (g.lookup? name).bind f = (c.lookup? name).bind f := by
  have hdecl := h name
  cases hg : g.lookup? name with
  | none =>
    rw [hg, Option.map_none, eq_comm, Option.map_eq_none_iff] at hdecl
    rw [hdecl]
  | some s =>
    rw [hg, Option.map_some, eq_comm, Option.map_eq_some_iff] at hdecl
    obtain ⟨t, ht, hst⟩ := hdecl
    rw [ht]
    exact hf s t hst.symm

/-- The type of a lowered value depends only on the declarations in a table. -/
theorem valueTy_congr : ∀ e : Expr, valueTy g e = valueTy c e
  | .int .. | .float .. | .bool .. | .field .. | .construct .. => rfl
  | .var _ name => by
    rw [valueTy, valueTy, Typing.variableTy?, Typing.variableTy?, bind_lookup?_congr h]
    intro s t hst
    rw [Symbol.var?, Symbol.var?, hst]
  | .binary _ op left right => by rw [valueTy, valueTy, valueTy_congr left, valueTy_congr right]
  | .unary _ op operand => by rw [valueTy, valueTy, valueTy_congr operand]
  | .stepAfter _ _ operand => by rw [valueTy, valueTy, valueTy_congr operand]
  | .assign _ op target value => by rw [valueTy, valueTy, valueTy_congr target, valueTy_congr value]
  | .conditional _ _ ifTrue ifFalse => by
    rw [valueTy, valueTy, valueTy_congr ifTrue, valueTy_congr ifFalse]
  | .index _ base _ => by rw [valueTy, valueTy, valueTy_congr base]
  | .call _ callee _ => by
    rw [valueTy, valueTy, Typing.function?, Typing.function?, bind_lookup?_congr h]
    intro s t hst
    rw [Symbol.fn?, Symbol.fn?, hst]

end

/-- Wherever the lowering gets in a clean program, every expression to which the checker gives a
type other than `error` is lowered to a value of that type, if it is lowered. -/
theorem Program.lower_keeps_types {p : Program} (moduleName : String) (hclean : p.findings = []) :
    p.EachSite True (fun σ e => e.Everywhere fun e =>
      (Check.expr σ.checked e).value ≠ .error → ∀ b value b',
        Lowering.expr σ.lowered e b = .ok value b' → value.ty = (Check.expr σ.checked e).value)
      moduleName := by
  apply Program.eachSite_of_agrees ?_ hclean
  · exact fun _ _ _ => trivial
  · intro σ e hσ _ hc
    apply hc.everywhere.imp
    intro e hc hne b value b' hvalue
    rw [Check.value_expr] at hne ⊢
    calc value.ty
      _ = valueTy σ.lowered e := (expr_returns e).ok_imp hvalue
      _ = valueTy σ.checked e := valueTy_congr hσ.decl_lowered e
      _ = typeOf σ.checked e := valueTy_eq_typeOf hc hne

/-- A swizzle of a swizzle that is written to, and arithmetic between a vector and a scalar. -/
theorem Program.lower_keeps_types_of_swizzles : ∃ p,
    ofText? "vec2 f(vec4 v, float t) { v.wzx.yx.x += t; return v.xyz.zy * t; }" = .ok p ∧
      p.findings = [] ∧ p.EachSite True (fun σ e => e.Everywhere fun e =>
        (Check.expr σ.checked e).value ≠ .error → ∀ b value b',
          Lowering.expr σ.lowered e b = .ok value b' → value.ty = (Check.expr σ.checked e).value)
        "m" := by
  obtain ⟨p, hp, hclean⟩ : ∃ p,
      ofText? "vec2 f(vec4 v, float t) { v.wzx.yx.x += t; return v.xyz.zy * t; }" = .ok p ∧
        p.findings = [] :=
    ⟨_, by cbv, by cbv⟩
  exact ⟨p, hp, hclean, lower_keeps_types "m" hclean⟩

end ShaderLang
