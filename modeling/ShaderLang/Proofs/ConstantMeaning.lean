import ShaderLang.Lowering.Expr
import ShaderLang.Proofs.FloatSign
import ShaderLang.Proofs.Meaning
import ShaderLang.Proofs.ProgramTotal

/-!
# Constants when the program runs

A constant expression has a value before anything runs, computed with the type of its place carried
inwards (`constant?`), and it has a value when it is the initial value of a local variable, where
every constructor converts its argument first. The two agree, up to the sign of a zero, where no
conversion is lost on the way inwards (`ConvertsInPlace`). A number that a constructor brings to the
other type of number, and its place back again, is such a loss: `float x = int(2.5);` begins as 2.5.
-/

namespace ShaderLang

open Ir (Arithmetic Datum SameNumber Value)

/-! ## Constants and data -/

/-- A lane of a constant, and the lane that it stands for. -/
def SameLane (x : Float) (lane : Option Float) : Prop :=
  ∃ y, lane = some y ∧ SameNumber x y

/-- A constant stands for a datum, up to the sign of a zero. -/
def Ir.Value.Agrees : Value → Datum → Prop
  | .int n, .int k => n = k
  | .float x, .float y => SameNumber x y
  | .bool b, .bool b' => b = b'
  | .vector xs, .vector lanes => List.Forall₂ SameLane xs lanes
  | _, _ => False

namespace Meaning

mutual

/-- What a constant expression evaluates to when it runs. -/
def constant (c : SymbolTable) (A : Arithmetic) : Expr → Datum
  | .int _ n => .int n
  | .float _ x => .float x
  | .bool _ b => .bool b
  | .unary _ .plus operand => signed A .add (typeOf c operand) (constant c A operand)
  | .unary _ .minus operand => signed A .sub (typeOf c operand) (constant c A operand)
  | .construct _ target arguments => constructed A target (constants c A arguments)
  | _ => .undefined

/-- What constant expressions evaluate to, with their types. -/
def constants (c : SymbolTable) (A : Arithmetic) : List Expr → List (Ty × Datum)
  | [] => []
  | e :: rest => (typeOf c e, constant c A e) :: constants c A rest

end

theorem map_fst_constants (c : SymbolTable) (A : Arithmetic) (es : List Expr) :
    (constants c A es).map Prod.fst = typesOf c es := by
  induction es with
  | nil => rfl
  | cons e rest ih => rw [constants, List.map_cons, ih, typesOf]

end Meaning

mutual

/-- Whether the conversions of a constant expression are those to the types of its places. No
constructor brings a number to the type that its place does not have, unless it has that type
already; and no floating-point number is negated at an integer place that the integers end at. -/
def ConvertsInPlace (c : SymbolTable) (place : Ty) : Expr → Prop
  | .unary _ .plus operand => ConvertsInPlace c place operand
  | .unary _ .minus operand =>
    ConvertsInPlace c place operand ∧
      (typeOf c operand = .float → ∀ n, Lowering.constant? place operand = some (.int n) →
        n ≠ Int64.minValue ∧ n ≠ Int64.maxValue)
  | .construct _ constructed arguments =>
    if constructed.isShaped then AllConvertInPlace c .float arguments
    else
      (constructed = place ∨ ∀ t ∈ typesOf c arguments, t = constructed) ∧
        AllConvertInPlace c place arguments
  | _ => True

/-- Whether this holds of all these expressions at places of one type. -/
def AllConvertInPlace (c : SymbolTable) (place : Ty) : List Expr → Prop
  | [] => True
  | e :: rest => ConvertsInPlace c place e ∧ AllConvertInPlace c place rest

end

namespace Lowering

open Check

open Ir (Build Machine State)

variable {c g : SymbolTable} {m : Machine}

/-! ## The code of a constant expression -/

mutual

theorem constant_gives {e : Expr} (hr : e.AsRead) (hc : Clean c e) (hconst : e.isConstant = true)
    (n : Nat) (s : State) :
    GivesTyped m (expr g e) n s (typeOf c e) (Meaning.constant c m.arithmetic e) s.world := by
  match e with
  | .int .. | .float .. | .bool .. => exact Executes.pure ⟨⟨rfl, .constant rfl rfl⟩, rfl⟩
  | .unary _ .plus operand =>
    have hco := (clean_unary.mp hc).1
    replace hr : operand.AsRead := hr
    replace hconst : operand.isConstant = true := by simpa [Expr.isConstant] using hconst
    have ht := hasConstants_of_isConstant hr hco hconst
    obtain ⟨hty, harith⟩ := typeOf_sign (.inl rfl) hc (Ty.ne_error_of_hasConstants ht)
    rw [hty, expr, Meaning.constant]
    refine (constant_gives hr hco hconst n s).bind fun value n' s' _ hv hw => ?_
    exact hw ▸ signed_gives .add harith hv
  | .unary _ .minus operand =>
    have hco := (clean_unary.mp hc).1
    replace hr : operand.AsRead := hr
    replace hconst : operand.isConstant = true := by simpa [Expr.isConstant] using hconst
    have ht := hasConstants_of_isConstant hr hco hconst
    obtain ⟨hty, harith⟩ := typeOf_sign (.inr rfl) hc (Ty.ne_error_of_hasConstants ht)
    rw [hty, expr, Meaning.constant]
    refine (constant_gives hr hco hconst n s).bind fun value n' s' _ hv hw => ?_
    exact hw ▸ signed_gives .sub harith hv
  | .construct span target arguments =>
    obtain ⟨hca, hcon⟩ := clean_construct.mp hc
    have hconsts : arguments.all Expr.isConstant = true := by simpa [Expr.isConstant] using hconst
    have hts := Ty.not_any_error (allHaveConstants_of_areConstant hr.2 hca hconsts)
    have htypes := Meaning.map_fst_constants c m.arithmetic arguments
    rw [typeOf_construct hc, expr, Meaning.constant]
    refine Executes.bind (constants_gives hr.2 hca hconsts n s) fun values n' s' _ h => ?_
    rw [← htypes] at hts hcon
    exact h.2 ▸ construct_gives hts hcon h.1

theorem constants_gives {es : List Expr} (hr : Expr.AllAsRead es) (hc : AllClean c es)
    (hconst : es.all Expr.isConstant = true) (n : Nat) (s : State) :
    Executes m (exprs g es) n s fun values n' s' =>
      HoldAll m n' s' values (Meaning.constants c m.arithmetic es) ∧ s'.world = s.world := by
  match es with
  | [] => exact .pure ⟨.nil, rfl⟩
  | e :: rest =>
    obtain ⟨hce, hcr⟩ := allClean_cons.mp hc
    rw [List.all_cons, Bool.and_eq_true] at hconst
    rw [exprs, Meaning.constants]
    refine (constant_gives hr.1 hce hconst.1 n s).bind fun value n₁ s₁ _ hv hw => ?_
    refine Executes.bind (constants_gives hr.2 hcr hconst.2 n₁ s₁) fun values n₂ s₂ h₂ h => ?_
    exact .pure ⟨.cons (hv.later h₂) h.1, h.2.trans hw⟩

end

/-! ## Signs of constants -/

/-- A constant at a place, and the value of a type that is brought there. An integer at a
floating-point place is not the smallest one, which has no opposite. -/
inductive Stands : Ty → Ty → Ir.Value → Datum → Prop where
  | int (k : Int64) : Stands .int .int (.int k) (.int k)
  | widened {k : Int64} {x : Float} (hk : k ≠ Int64.minValue) (h : SameNumber x (Ir.floatOfInt k)) :
      Stands .int .float (.float x) (.int k)
  | float {x y : Float} (h : SameNumber x y) : Stands .float .float (.float x) (.float y)
  | cutOff (y : Float) : Stands .float .int (.int (Ir.intOfFloat y)) (.float y)
  | bool (b : Bool) : Stands .bool .bool (.bool b) (.bool b)
  | vector {t place : Ty} {xs : List Float} {lanes : List (Option Float)} (ht : t.isShaped = true)
      (hlength : xs.length = t.lanes) (h : List.Forall₂ SameLane xs lanes) :
      Stands t place (.vector xs) (.vector lanes)

namespace Stands

variable {t place : Ty} {value : Ir.Value} {d : Datum}

/-- A constant is settled at its place. -/
theorem settle_eq (h : Stands t place value d) : settle value place = value := by
  cases h <;> rfl

theorem neg_ne_minValue {k : Int64} (h : k ≠ Int64.minValue) : -k ≠ Int64.minValue := by
  intro heq
  have hneg := Ir.toInt_neg_of_ne h
  have hlt := Int64.toInt_lt k
  rw [heq, Int64.toInt_minValue] at hneg
  omega

theorem zero_add_lanes {xs : List Float} {lanes : List (Option Float)}
    (h : List.Forall₂ SameLane xs lanes) :
    List.Forall₂ SameLane xs
      (List.zipWith (Datum.onLanes (· + ·)) (List.replicate xs.length (some 0.0)) lanes) := by
  induction h with
  | nil => exact .nil
  | cons hlane _ ih =>
    obtain ⟨y, rfl, hy⟩ := hlane
    exact .cons ⟨0.0 + y, rfl, hy.trans (Ir.zero_add_same y).symm⟩ ih

theorem plus_int (k : Int64) : Meaning.signed .native .add .int (.int k) = .int k :=
  congrArg Datum.int (Int64.zero_add k)

theorem minus_int (k : Int64) : Meaning.signed .native .sub .int (.int k) = .int (-k) :=
  congrArg Datum.int (Int64.zero_sub k)

theorem plus_float (y : Float) : Meaning.signed .native .add .float (.float y) = .float (0.0 + y) :=
  rfl

theorem minus_float (y : Float) : Meaning.signed .native .sub .float (.float y) = .float (0.0 - y) :=
  rfl

theorem plus (h : Stands t place value d) (ht : t.isArithmetic = true) :
    Stands t place value (Meaning.signed .native .add t d) := by
  cases h with
  | int k =>
    rw [plus_int]
    exact .int k
  | widened hk h =>
    rw [plus_int]
    exact .widened hk h
  | float h =>
    rw [plus_float]
    exact .float (h.trans (Ir.zero_add_same _).symm)
  | cutOff y =>
    rw [plus_float, Ir.intOfFloat_congr (Ir.zero_add_same y).symm]
    exact .cutOff _
  | bool b => cases ht
  | @vector _ _ xs lanes hshape hlength h =>
    have hsigned : Meaning.signed .native .add t (.vector lanes) =
        .vector (List.zipWith (Datum.onLanes (· + ·)) (List.replicate xs.length (some 0.0)) lanes) := by
      rw [hlength]
      cases t <;> first | rfl | cases hshape
    rw [hsigned]
    exact .vector hshape hlength (zero_add_lanes h)

theorem minus (h : Stands t place value d) {negative : Ir.Value} (hn : negate? value = some negative)
    (hend : t = .float → ∀ n, value = .int n → n ≠ Int64.minValue ∧ n ≠ Int64.maxValue) :
    Stands t place negative (Meaning.signed .native .sub t d) := by
  cases h with
  | int k =>
    cases hn
    rw [minus_int]
    exact .int (-k)
  | widened hk h =>
    cases hn
    rw [minus_int]
    exact .widened (neg_ne_minValue hk) (h.neg.trans (Ir.floatOfInt_neg hk).symm)
  | float h =>
    cases hn
    rw [minus_float]
    exact .float (h.neg.trans (Ir.zero_sub_same _).symm)
  | cutOff y =>
    cases hn
    obtain ⟨hmin, hmax⟩ := hend rfl _ rfl
    rw [minus_float, ← Ir.intOfFloat_neg hmin hmax, Ir.intOfFloat_congr (Ir.zero_sub_same y).symm]
    exact .cutOff _
  | bool b => cases hn
  | vector => cases hn

/-- A constructor of a scalar. -/
theorem converted {target : Ty} (h : Stands t place value d)
    (htarget : target = place ∨ t = target) (hs : t.isShaped = false) :
    Stands target place value (Meaning.scalar .native t target d) := by
  rcases htarget with rfl | rfl
  · cases h with
    | int k => exact .int k
    | widened hk h => exact .float h
    | float h => exact .float h
    | cutOff y => exact .int _
    | bool b => exact .bool b
    | vector ht => simp [ht] at hs
  · cases t <;> exact h

/-- The lanes of an argument of a constructor. -/
theorem lanes (h : Stands t .float value d) (ht : t.isArithmetic = true) {xs : List Float}
    (hxs : lanesOf? value = some xs) :
    List.Forall₂ SameLane xs (Meaning.lanesOf .native t d) := by
  cases h with
  | widened hk h =>
    cases hxs
    exact .cons ⟨_, rfl, h⟩ .nil
  | float h =>
    cases hxs
    exact .cons ⟨_, rfl, h⟩ .nil
  | @vector _ _ _ lanes hshape hlength h =>
    cases hxs
    have hlanes : Meaning.lanesOf .native t (.vector lanes) = lanes := by
      rw [Meaning.lanesOf, if_pos hshape, ← hlength, h.length_eq]
      apply List.ext_getElem
      · simp
      · intro k hk hk'
        simp only [List.getElem_map, List.getElem_range, Datum.lane, Datum.lanes]
        rw [List.getElem?_eq_getElem hk']
        cases lanes[k] <;> rfl
    exact hlanes.symm ▸ h

/-- A constructor of a vector or a matrix. -/
theorem constructed {target : Ty} {arguments : List (Ty × Datum)} {xs : List Float}
    (htarget : target.isShaped = true) (hts : (arguments.map Prod.fst).any (· == .error) = false)
    (hcon : target.constructibleFrom (arguments.map Prod.fst) = true)
    (h : List.Forall₂ SameLane xs (Meaning.allLanes .native arguments)) :
    Stands target place (vectorOf target.lanes xs)
      (Meaning.constructed .native target arguments) := by
  have hlanes := Ty.one_lt_lanes_of_isShaped htarget
  rcases Meaning.constructed_cases (A := .native) htarget hts hcon with
    ⟨t, d, rfl, ht, heq⟩ | ⟨harith, htotal, heq⟩
  · have hall : Meaning.allLanes .native [(t, d)] = [(Meaning.scalar .native t .float d).toLane] := by
      cases t <;> first | rfl | cases ht
    rw [hall] at h
    cases h with
    | cons hlane hrest =>
    cases hrest
    rw [heq]
    refine .vector htarget List.length_replicate ?_
    apply List.forall₂_iff_get.mpr
    simpa using fun _ _ => hlane
  · have hlength := h.length_eq.trans ((Meaning.length_allLanes harith).trans htotal)
    have hvector : vectorOf target.lanes xs = .vector xs := by
      unfold vectorOf
      split
      · simp at hlength
        omega
      · rfl
    rw [hvector, heq]
    exact .vector htarget hlength h

end Stands

theorem isShaped_eq_false {t target : Ty} (hscalar : target.isScalar = true)
    (hnum : t.isNumeric = target.isNumeric) (hbool : t = .bool ↔ target = .bool) :
    t.isShaped = false := by
  cases t <;> cases target <;> first | rfl | (cases hscalar; done) | (cases hnum; done) | simp at hbool

mutual

theorem constant?_stands {e : Expr} (hr : e.AsRead) (hc : Clean c e) (hconst : e.isConstant = true)
    {place : Ty} (hs : (typeOf c e).settlesTo place) (hin : ConvertsInPlace c place e)
    {value : Ir.Value} (hv : constant? place e = some value) :
    Stands (typeOf c e) place value (Meaning.constant c .native e) := by
  match e with
  | .int _ n =>
    have hplace := hs.1 rfl
    rw [constant?, Option.some_inj] at hv
    subst hv
    cases place with
    | int => exact .int n
    | float =>
      have hne : n ≠ Int64.minValue := by
        replace hr : 0 ≤ n := hr
        rintro rfl
        exact absurd hr (by decide)
      exact .widened hne (.refl _)
    | _ => cases hplace
  | .float _ x =>
    have hplace := hs.1 rfl
    rw [constant?, Option.some_inj] at hv
    subst hv
    cases place with
    | int => exact .cutOff x
    | float => exact .float (.refl x)
    | _ => cases hplace
  | .bool _ b =>
    obtain rfl := hs.2 rfl
    rw [constant?, Option.some_inj] at hv
    subst hv
    exact .bool b
  | .unary _ .plus operand =>
    have hco := (clean_unary.mp hc).1
    replace hr : operand.AsRead := hr
    replace hconst : operand.isConstant = true := by simpa [Expr.isConstant] using hconst
    have ht := hasConstants_of_isConstant hr hco hconst
    obtain ⟨hty, harith⟩ := typeOf_sign (.inl rfl) hc (Ty.ne_error_of_hasConstants ht)
    rw [hty] at hs ⊢
    rw [constant?, Option.map_eq_some_iff] at hv
    obtain ⟨inner, hinner, rfl⟩ := hv
    have h := constant?_stands hr hco hconst hs hin hinner
    rw [h.settle_eq, Meaning.constant]
    exact h.plus harith
  | .unary _ .minus operand =>
    have hco := (clean_unary.mp hc).1
    replace hr : operand.AsRead := hr
    replace hconst : operand.isConstant = true := by simpa [Expr.isConstant] using hconst
    have ht := hasConstants_of_isConstant hr hco hconst
    obtain ⟨hty, harith⟩ := typeOf_sign (.inr rfl) hc (Ty.ne_error_of_hasConstants ht)
    rw [hty] at hs ⊢
    rw [constant?, Option.map_eq_some_iff] at hv
    obtain ⟨negative, hnegative, rfl⟩ := hv
    obtain ⟨inner, hinner, hnegate⟩ := Option.bind_eq_some_iff.mp hnegative
    have h := (constant?_stands hr hco hconst hs hin.1 hinner).minus hnegate fun ht n hn =>
      hin.2 ht n (hn ▸ hinner)
    rw [h.settle_eq, Meaning.constant]
    exact h
  | .construct span target arguments =>
    obtain ⟨hca, hcon⟩ := clean_construct.mp hc
    have hconsts : arguments.all Expr.isConstant = true := by simpa [Expr.isConstant] using hconst
    have hts := Ty.not_any_error (allHaveConstants_of_areConstant hr.2 hca hconsts)
    have ht := hasConstants_of_isConstant hr hc hconst
    rw [typeOf_construct hc] at hs ht ⊢
    rw [constant?] at hv
    rw [ConvertsInPlace] at hin
    split at hin
    · next hshape =>
      rw [if_pos hshape, Option.map_eq_some_iff] at hv
      obtain ⟨xs, hxs, rfl⟩ := hv
      obtain ⟨harith, -⟩ := arguments_of_constructibleFrom hshape hts hcon
      have hlanes := constantLanes?_stand hr.2 hca hconsts harith hin hxs
      have htypes := Meaning.map_fst_constants c .native arguments
      rw [← htypes] at hts hcon
      have h : Stands target place _ _ := .constructed hshape hts hcon hlanes
      rw [h.settle_eq, Meaning.constant]
      exact h
    · next hshape =>
      rw [if_neg hshape, Option.map_eq_some_iff] at hv
      obtain ⟨inner, hinner, rfl⟩ := hv
      have hscalar : target.isScalar = true := by simpa [Ty.hasConstants, hshape] using ht
      obtain ⟨t, hone, hnum, hbool⟩ := argument_of_constructibleFrom hscalar hts hcon
      match arguments, hr, hca, hconsts, hone, hin, hinner with
      | [single], hr, hca, hconsts, hone, hin, hinner =>
        have hsingle : typeOf c single = t := by simpa using hone
        rw [List.all_cons, Bool.and_eq_true] at hconsts
        have hsub : (typeOf c single).settlesTo place := by
          rw [hsingle]
          exact ⟨fun h => hs.1 (hnum ▸ h), fun h => hs.2 (hbool.mp h)⟩
        have hunshaped := isShaped_eq_false hscalar hnum hbool
        have htarget : target = place ∨ typeOf c single = target :=
          hin.1.imp_right fun h => h _ List.mem_cons_self
        have h := constant?_stands hr.2.1 (allClean_cons.mp hca).1 hconsts.1 hsub hin.2.1 hinner
        have hconverted := h.converted htarget (hsingle ▸ hunshaped)
        have hmeaning : Meaning.constant c .native (.construct span target [single]) =
            Meaning.scalar .native (typeOf c single) target (Meaning.constant c .native single) := by
          simp only [Meaning.constant, Meaning.constants, Meaning.constructed]
          rw [Bool.eq_false_of_not_eq_true hshape, Bool.false_and, if_neg Bool.false_ne_true,
            Meaning.brought_scalar (Bool.eq_false_of_not_eq_true hshape)]
        rw [hmeaning, hconverted.settle_eq]
        exact hconverted

theorem constantLanes?_stand {es : List Expr} (hr : Expr.AllAsRead es) (hc : AllClean c es)
    (hconst : es.all Expr.isConstant = true) (harith : ∀ t ∈ typesOf c es, t.isArithmetic = true)
    (hin : AllConvertInPlace c .float es) {xs : List Float} (hxs : constantLanes? es = some xs) :
    List.Forall₂ SameLane xs (Meaning.allLanes .native (Meaning.constants c .native es)) := by
  match es with
  | [] =>
    cases hxs
    exact .nil
  | e :: rest =>
    obtain ⟨hce, hcr⟩ := allClean_cons.mp hc
    rw [List.all_cons, Bool.and_eq_true] at hconst
    rw [typesOf] at harith
    have hea := harith _ List.mem_cons_self
    simp only [constantLanes?, Option.bind_eq_bind, Option.bind_eq_some_iff, Option.pure_def,
      Option.some_inj] at hxs
    obtain ⟨first, ⟨value, hvalue, hfirst⟩, others, hothers, rfl⟩ := hxs
    have h := constant?_stands hr.1 hce hconst.1 (settlesTo_float hea) hin.1 hvalue
    rw [Meaning.constants, Meaning.allLanes]
    exact List.rel_append (h.lanes hea hfirst) (constantLanes?_stand hr.2 hcr hconst.2
      (fun t ht => harith t (List.mem_cons_of_mem _ ht)) hin.2 hothers)

end

/-! ## Initial values -/

theorem Stands.agrees {t place : Ty} {value : Ir.Value} {d : Datum} (h : Stands t place value d)
    (hplace : t = place ∨ t = .int ∧ place = .float) :
    value.Agrees (Meaning.brought .native t place d) := by
  cases h with
  | int k => exact rfl
  | widened hk h => exact h
  | float h => exact h
  | cutOff y => simp at hplace
  | bool b => exact rfl
  | vector hshape hlength h =>
    rcases hplace with rfl | ⟨rfl, -⟩
    · cases t <;> exact h
    · cases hshape

/-- The value that a constant initializer has before anything runs is what its code gives as the
initial value of a local variable, up to the sign of a zero, if no conversion is lost. -/
theorem initial_value_agrees {v : VarDecl} {e : Expr} {value : Ir.Value} {b : Ir.Builder}
    (hr : v.AsRead) (hchecked : (varDecl c v).findings = []) (he : v.init = some e)
    (hconst : e.isConstant = true) (hin : ConvertsInPlace c v.ty e)
    (hv : constant? v.ty e = some value) (hb : b.IsOpen) (hm : m.arithmetic = .native) (s : State) :
    ∃ result code next,
      (do let a ← expr g e; coerce a v.ty) b = .ok result (b.append code next) ∧
        value.Agrees (m.read (m.runAll code s) result) := by
  have hc := cleanVar_of_varDecl hchecked
  have hre := hr.init e he
  have hce := hc.init e he
  have ht := hasConstants_of_isConstant hre hce hconst
  have hne : v.ty ≠ .error := Ty.ne_error_of_hasValues (Ty.hasValues_of_isDeclarable hr.ty)
  have hty := converts_cases (hc.converts e he) (Ty.ne_error_of_hasConstants ht) hne
  have hbecomes : (typeOf c e).becomes v.ty := by
    rcases hty with heq | ⟨hint, hfloat⟩
    · exact .inl heq
    · exact .inr ⟨hint ▸ rfl, .inl (hfloat ▸ rfl)⟩
  have hstands := constant?_stands hre hce hconst (Ty.settlesTo_of_widens hty) hin hv
  have hgives : Gives m (do let a ← expr g e; coerce a v.ty) b.nextTemp s
      (Meaning.brought .native (typeOf c e) v.ty (Meaning.constant c .native e)) s.world := by
    refine (constant_gives hre hce hconst b.nextTemp s).bind fun a n' s' _ ha hw => ?_
    rw [← hw, ← hm]
    exact coerce_gives hbecomes ha
  obtain ⟨result, code, next, -, hrun, -, hholds, -⟩ := hgives
  refine ⟨result, code, next, hrun b hb rfl, ?_⟩
  rw [hholds.read]
  exact hstands.agrees hty

/-- A vector of another vector and a negated number. -/
theorem initial_value_agrees_of_vector : ∃ (v : VarDecl) (e : Expr) (value : Ir.Value)
    (b : Ir.Builder), v.AsRead ∧ (varDecl .empty v).findings = [] ∧ v.init = some e ∧
      e.isConstant = true ∧ ConvertsInPlace .empty v.ty e ∧ constant? v.ty e = some value ∧
      b.IsOpen ∧ Machine.idle.arithmetic = .native ∧ ∀ s, ∃ result code next,
        (do let a ← expr .empty e; coerce a v.ty) b = .ok result (b.append code next) ∧
          value.Agrees (Machine.idle.read (Machine.idle.runAll code s) result) := by
  let e : Expr := .construct default .vec3
    [.construct default .vec2 [.float default 1.0, .float default 2.0],
      .unary default .minus (.int default 3)]
  let v : VarDecl := ⟨⟨"v", default⟩, .vec3, none, some e, default⟩
  let b := (((Ir.Builder.new "m").begin "f" [] .void).addBlock "entry").moveTo 0
  have hr : v.AsRead := by
    refine ⟨rfl, fun e' he' => ?_⟩
    cases he'
    exact ⟨rfl, ⟨rfl, trivial, trivial, trivial⟩, Int64.le_of_lt (by decide), trivial⟩
  have hchecked : (varDecl .empty v).findings = [] := rfl
  have hin : ConvertsInPlace .empty v.ty e := by
    exact ⟨⟨trivial, trivial, trivial⟩, ⟨trivial, fun h => by cases h⟩, trivial⟩
  have hv : constant? v.ty e = some (.vector [1.0, 2.0, -Ir.floatOfInt 3]) := rfl
  have hb : b.IsOpen :=
    Ir.Builder.isOpen_moveTo.mpr ((Ir.Builder.unfinished_begin _ _ _ _ 0).mpr rfl)
  exact ⟨v, e, _, b, hr, hchecked, rfl, rfl, hin, hv, hb, rfl,
    initial_value_agrees hr hchecked rfl rfl hin hv hb rfl⟩

/-- `int(2.5)` at a floating-point place: the constant keeps its fraction, the code loses it. -/
theorem initial_value_differs : ∃ e value, constant? .float e = some value ∧
    ¬ value.Agrees (Meaning.brought .native (typeOf .empty e) .float
      (Meaning.constant .empty .native e)) := by
  refine ⟨.construct default .int [.float default 2.5], .float 2.5, rfl, ?_⟩
  have hfraction : ∃ hpos, Ir.unpacked 2.5 = .finite .positive 5629499534213120 (-51) hpos := by
    simp only [Ir.unpacked, OfScientific.ofScientific, Float.ofScientific]
    rw [dif_pos (by decide)]
    exact ⟨by decide, rfl⟩
  obtain ⟨hpos, hfraction⟩ := hfraction
  have hint : Ir.intOfFloat 2.5 = 2 := by
    change (Ir.unpacked 2.5).toInt64 = 2
    rw [hfraction]
    rfl
  have hwhole : ∃ hpos, Ir.unpacked (Ir.floatOfInt (Ir.intOfFloat 2.5)) =
      .finite .positive 4503599627370496 (-51) hpos := by
    rw [hint]
    exact ⟨by decide, rfl⟩
  obtain ⟨hpos', hwhole⟩ := hwhole
  rintro (heq | ⟨hzero, -⟩)
  · have := congrArg Ir.unpacked heq
    rw [hfraction] at this
    cases this.trans hwhole
  · obtain ⟨sign, hzero⟩ := Ir.isZero_iff.mp hzero
    cases hfraction.symm.trans hzero

end Lowering

end ShaderLang
