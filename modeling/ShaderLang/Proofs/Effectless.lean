import ShaderLang.Proofs.Everywhere
import ShaderLang.Proofs.ExprMeaning

/-!
# Expressions without side effects

An expression in which nothing is assigned, stepped or called only reads: it leaves the contents of
the variables and the calls as they are (`Meaning.expr_leaves`).
-/

namespace ShaderLang

open Ir (Machine Root World)

/-- The root of the expression neither writes nor calls. -/
def Expr.OnlyReads : Expr → Prop
  | .assign .. | .unary _ (.step _) _ | .stepAfter .. | .call .. => False
  | _ => True

/-- Nothing in the expression writes or calls. -/
abbrev Expr.IsPure (e : Expr) : Prop :=
  e.Everywhere Expr.OnlyReads

namespace Meaning

variable {α β : Type} {m : Machine} {c : SymbolTable} {roots : String → Root}

/-- An action after which the variables and the calls are as before. -/
def Leaves (x : StateM World α) : Prop :=
  ∀ w, (x w).2 = w

namespace Leaves

theorem pure (a : α) : Leaves (Pure.pure a) :=
  fun _ => rfl

theorem bind {x : StateM World α} {f : α → StateM World β} (hx : Leaves x)
    (hf : ∀ a, Leaves (f a)) : Leaves (x >>= f) :=
  fun w => (hf (x w).1 (x w).2).trans (hx w)

theorem load (p : Place) : Leaves p.load :=
  fun _ => rfl

end Leaves

mutual

theorem expr_leaves {e : Expr} (h : e.IsPure) : Leaves (expr m c roots e) := by
  match e with
  | .int .. | .float .. | .bool .. =>
    rw [expr]
    exact .pure _
  | .var .. =>
    rw [expr]
    exact .load _
  | .index _ base position =>
    rw [expr]
    exact (placeOf_leaves h.2.1).bind fun _ => (expr_leaves h.2.2).bind fun _ => .load _
  | .binary _ _ left right =>
    rw [expr]
    exact (expr_leaves h.2.1).bind fun _ => (expr_leaves h.2.2).bind fun _ => .pure _
  | .unary _ op operand =>
    cases op with
    | plus | minus | not =>
      rw [expr]
      exact (expr_leaves h.2).bind fun _ => .pure _
    | step => exact h.1.elim
  | .conditional _ test ifTrue ifFalse =>
    rw [expr]
    refine (expr_leaves h.2.1).bind fun _ => ?_
    dsimp only
    split
    · exact (expr_leaves h.2.2.1).bind fun _ => .pure _
    · exact (expr_leaves h.2.2.2).bind fun _ => .pure _
  | .field _ base _ =>
    rw [expr]
    exact (expr_leaves h.2).bind fun _ => .pure _
  | .construct _ _ arguments =>
    rw [expr]
    exact (exprs_leaves h.2).bind fun _ => .pure _
  | .assign .. | .stepAfter .. | .call .. => exact h.1.elim

theorem exprs_leaves {es : List Expr} (h : Expr.AllEverywhere Expr.OnlyReads es) :
    Leaves (exprs m c roots es) := by
  match es with
  | [] =>
    rw [exprs]
    exact .pure _
  | e :: rest =>
    rw [exprs]
    exact (expr_leaves h.1).bind fun _ => (exprs_leaves h.2).bind fun _ => .pure _

theorem placeOf_leaves {e : Expr} (h : e.IsPure) : Leaves (placeOf m c roots e) := by
  match e with
  | .var .. =>
    rw [placeOf]
    exact .pure _
  | .index _ base position =>
    rw [placeOf]
    exact (placeOf_leaves h.2.1).bind fun _ => (expr_leaves h.2.2).bind fun _ => .pure _
  | .field _ base _ =>
    rw [placeOf]
    exact (placeOf_leaves h.2).bind fun _ => .pure _
  | .int .. | .float .. | .bool .. | .binary .. | .unary .. | .conditional .. | .construct ..
  | .assign .. | .stepAfter .. | .call .. =>
    rw [placeOf]
    · exact .pure _
    all_goals nofun

end

end Meaning

end ShaderLang
