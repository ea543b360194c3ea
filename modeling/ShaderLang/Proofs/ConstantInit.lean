import ShaderLang.Lowering.Constant
import ShaderLang.Proofs.CleanStmt

/-!
# Initial values of global variables

A clean constant expression has a value at a place to which its type converts, except where it
negates a vector or a matrix: there is no instruction to run at that point, and only numbers are
negated (`constant?_yields`). The value is of the type of the place.
-/

namespace ShaderLang

open Check

mutual

/-- Whether a constant expression negates numbers only. -/
def NegatesNumbers (c : SymbolTable) : Expr → Prop
  | .unary _ .minus operand => (typeOf c operand).isShaped = false ∧ NegatesNumbers c operand
  | .unary _ .plus operand => NegatesNumbers c operand
  | .construct _ _ arguments => AllNegateNumbers c arguments
  | _ => True

/-- Whether all of these expressions negate numbers only. -/
def AllNegateNumbers (c : SymbolTable) : List Expr → Prop
  | [] => True
  | e :: rest => NegatesNumbers c e ∧ AllNegateNumbers c rest

end

/-- A constant of a type. -/
def Ir.Value.IsConstant (value : Ir.Value) : ShaderLang.Ty → Prop
  | .int => ∃ n, value = .int n
  | .float => ∃ x, value = .float x
  | .bool => ∃ b, value = .bool b
  | t => t.isShaped = true ∧ ∃ lanes, value = .vector lanes ∧ lanes.length = t.lanes

namespace Ty

/-- A type that has constants: not `void`, no array and not `error`. -/
def hasConstants (t : Ty) : Bool :=
  t.isScalar || t.isShaped

/-- Whether a constant of this type may stand at a place of another one. -/
def settlesTo (t target : Ty) : Prop :=
  (t.isNumeric = true → target.isNumeric = true) ∧ (t = bool → target = bool)

/-- The type of a constant of this type at a place of another one: a number is converted. -/
def settled (t target : Ty) : Ty :=
  if t.isNumeric then target else t

theorem hasConstants_of_isPlain {t : Ty} (h : t.isPlain = true) (hvoid : t ≠ void) :
    t.hasConstants = true := by
  cases t <;> first | rfl | (cases h; done) | exact absurd rfl hvoid

theorem ne_error_of_hasConstants {t : Ty} (h : t.hasConstants = true) : t ≠ error := by
  rintro rfl
  cases h

theorem not_any_error {ts : List Ty} (h : ∀ t ∈ ts, t.hasConstants = true) :
    ts.any (· == error) = false := by
  rw [List.any_eq_false]
  intro t ht
  simpa using ne_error_of_hasConstants (h t ht)

theorem any_error_of_constructibleFrom_void {ts : List Ty} (h : void.constructibleFrom ts = true) :
    ts.any (· == error) = true := by
  unfold constructibleFrom at h
  split at h
  · assumption
  · cases h

theorem settlesTo_of_widens {t u : Ty} (h : t = u ∨ t = int ∧ u = float) : t.settlesTo u := by
  rcases h with rfl | ⟨rfl, rfl⟩
  · exact ⟨id, id⟩
  · exact ⟨fun _ => rfl, fun h => by cases h⟩

theorem isScalar_of_isNumeric {t : Ty} (h : t.isNumeric = true) : t.isScalar = true := by
  cases t <;> first | rfl | cases h

/-- At its place a constant is a vector as it is written, or a scalar of the type of the place. -/
theorem settled_cases {t target : Ty} (ht : t.hasConstants = true) (hs : t.settlesTo target) :
    t.isShaped = true ∧ t.settled target = t ∨
      target.isScalar = true ∧ t.settled target = target := by
  cases t with
  | int | float => exact .inr ⟨isScalar_of_isNumeric (hs.1 rfl), rfl⟩
  | bool => exact .inr ⟨hs.2 rfl ▸ rfl, (hs.2 rfl).symm⟩
  | vec2 | vec3 | vec4 | mat2 | mat3 | mat4 => exact .inl ⟨rfl, rfl⟩
  | void | array | error => cases ht

end Ty

namespace Check

variable {c : SymbolTable}

theorem typeOf_sign {span : Span} {op : UnaryOp} {operand : Expr} (hop : op = .plus ∨ op = .minus)
    (hc : Clean c (.unary span op operand)) (hne : typeOf c operand ≠ .error) :
    typeOf c (.unary span op operand) = typeOf c operand ∧
      (typeOf c operand).isArithmetic = true := by
  obtain ⟨-, -, hsome⟩ := clean_unary.mp hc
  obtain ⟨t, ht⟩ := Option.isSome_iff_exists.mp hsome
  simp only [typeOf, ht, Option.getD_some]
  obtain rfl | rfl := hop <;> simp only [Typing.unary?, Typing.arithmeticOperand?] at ht <;> grind

theorem typeOf_construct {span : Span} {target : Ty} {arguments : List Expr}
    (hc : Clean c (.construct span target arguments)) :
    typeOf c (.construct span target arguments) = target := by
  have hcon := (clean_construct.mp hc).2
  rw [typesOf_eq_map] at hcon
  simp [typeOf, Typing.construct?, hcon]

mutual

/-- A clean constant expression has a type. -/
theorem hasConstants_of_isConstant {e : Expr} (hr : e.AsRead) (hc : Clean c e)
    (hconst : e.isConstant = true) : (typeOf c e).hasConstants = true := by
  match e with
  | .int .. | .float .. | .bool .. => rfl
  | .unary _ .minus operand =>
    have ho := hasConstants_of_isConstant (e := operand) hr (clean_unary.mp hc).1
      (by simpa [Expr.isConstant] using hconst)
    rwa [(typeOf_sign (.inr rfl) hc (Ty.ne_error_of_hasConstants ho)).1]
  | .unary _ .plus operand =>
    have ho := hasConstants_of_isConstant (e := operand) hr (clean_unary.mp hc).1
      (by simpa [Expr.isConstant] using hconst)
    rwa [(typeOf_sign (.inl rfl) hc (Ty.ne_error_of_hasConstants ho)).1]
  | .construct span target arguments =>
    obtain ⟨hca, hcon⟩ := clean_construct.mp hc
    have hall := allHaveConstants_of_areConstant hr.2 hca (by simpa [Expr.isConstant] using hconst)
    rw [typeOf_construct hc]
    refine Ty.hasConstants_of_isPlain hr.1 ?_
    rintro rfl
    have herror := Ty.any_error_of_constructibleFrom_void hcon
    rw [Ty.not_any_error hall] at herror
    cases herror

theorem allHaveConstants_of_areConstant {es : List Expr} (hr : Expr.AllAsRead es)
    (hc : AllClean c es) (hconst : es.all Expr.isConstant = true) :
    ∀ t ∈ typesOf c es, t.hasConstants = true := by
  match es with
  | [] => simp [typesOf]
  | e :: rest =>
    obtain ⟨hce, hcr⟩ := allClean_cons.mp hc
    rw [List.all_cons, Bool.and_eq_true] at hconst
    have he := hasConstants_of_isConstant hr.1 hce hconst.1
    have hrest := allHaveConstants_of_areConstant hr.2 hcr hconst.2
    simpa [typesOf, he] using hrest

end

end Check

namespace Lowering

open Ir (Value)

variable {c : SymbolTable}

/-- There is a value exactly if a condition holds, and the value has a property. -/
def Yields {α : Type} (result : Option α) (possible : Prop) (Q : α → Prop) : Prop :=
  match result with
  | some a => possible ∧ Q a
  | none => ¬ possible

namespace Yields

variable {α β : Type} {r : Option α} {p p' : Prop} {Q : α → Prop}

theorem some {a : α} (h : Q a) : Yields (some a) True Q :=
  ⟨trivial, h⟩

theorem map {f : α → β} {R : β → Prop} (h : Yields r p Q) (hf : ∀ a, Q a → R (f a)) :
    Yields (r.map f) p R := by
  cases r with
  | none => exact h
  | some a => exact ⟨h.1, hf a h.2⟩

theorem bind {f : α → Option β} {R : β → Prop} (h : Yields r p Q)
    (hf : ∀ a, Q a → Yields (f a) p' R) : Yields (r.bind f) (p ∧ p') R := by
  cases r with
  | none => exact fun hp => h hp.1
  | some a =>
    have hfa := hf a h.2
    simp only [Option.bind_some]
    unfold Yields at hfa ⊢
    split
    · next hb =>
      rw [hb] at hfa
      exact ⟨⟨h.1, hfa.1⟩, hfa.2⟩
    · next hb =>
      rw [hb] at hfa
      exact fun hp => hfa hp.2

theorem congr (h : Yields r p Q) (hp : p ↔ p') : Yields r p' Q :=
  propext hp ▸ h

theorem isSome_iff (h : Yields r p Q) : r.isSome = true ↔ p := by
  cases r with
  | none => exact ⟨fun h' => absurd h' (by simp), fun hp => absurd hp h⟩
  | some a => exact ⟨fun _ => h.1, fun _ => rfl⟩

end Yields

theorem isConstant_of_isShaped {value : Value} {t : Ty} (h : t.isShaped = true) :
    value.IsConstant t ↔ ∃ lanes, value = .vector lanes ∧ lanes.length = t.lanes := by
  cases t <;> first | (cases h; done) | exact and_iff_right rfl

/-- A constant that is already of the type of its place stays. -/
theorem settle_eq_self {value : Value} {t target : Ty} (ht : t.hasConstants = true)
    (hs : t.settlesTo target) (h : value.IsConstant (t.settled target)) :
    settle value target = value := by
  rcases Ty.settled_cases ht hs with ⟨hshape, heq⟩ | ⟨hscalar, heq⟩
  · rw [heq, isConstant_of_isShaped hshape] at h
    obtain ⟨lanes, rfl, -⟩ := h
    cases target <;> rfl
  · rw [heq] at h
    cases target with
    | int | float | bool =>
      obtain ⟨x, rfl⟩ := h
      rfl
    | _ => cases hscalar

theorem length_vectorOf {width : Nat} {lanes : List Float}
    (h : lanes.length = 1 ∨ lanes.length = width) :
    ∃ filled, vectorOf width lanes = .vector filled ∧ filled.length = width := by
  unfold vectorOf
  split
  · exact ⟨_, rfl, List.length_replicate⟩
  · next hne =>
    refine ⟨lanes, rfl, h.resolve_left fun hone => ?_⟩
    obtain ⟨x, rfl⟩ := List.length_eq_one_iff.mp hone
    exact hne x rfl

/-- Only numbers are negated. -/
theorem negate?_yields {value : Value} {t target : Ty} (ht : t.isArithmetic = true)
    (hs : t.settlesTo target) (h : value.IsConstant (t.settled target)) :
    Yields (negate? value) (t.isShaped = false) fun negative =>
      negative.IsConstant (t.settled target) := by
  cases hshape : t.isShaped with
  | true =>
    have hsettled : t.settled target = t := by cases t <;> first | rfl | cases hshape
    rw [hsettled, isConstant_of_isShaped hshape] at h
    obtain ⟨lanes, rfl, -⟩ := h
    simp [Yields, negate?]
  | false =>
    have hnum : t.isNumeric = true := by simpa [Ty.isArithmetic, hshape] using ht
    have hsettled : t.settled target = target := by simp [Ty.settled, hnum]
    have htarget := hs.1 hnum
    rw [hsettled] at h ⊢
    cases target with
    | int | float =>
      obtain ⟨x, rfl⟩ := h
      exact ⟨rfl, _, rfl⟩
    | _ => cases htarget

theorem lanesOf?_yields {value : Value} {t : Ty} (ht : t.isArithmetic = true)
    (h : value.IsConstant (t.settled .float)) :
    Yields (lanesOf? value) True fun lanes => lanes.length = t.lanes := by
  cases hshape : t.isShaped with
  | true =>
    have hsettled : t.settled .float = t := by cases t <;> first | rfl | cases hshape
    rw [hsettled, isConstant_of_isShaped hshape] at h
    obtain ⟨lanes, rfl, hlanes⟩ := h
    exact ⟨trivial, hlanes⟩
  | false =>
    have hnum : t.isNumeric = true := by simpa [Ty.isArithmetic, hshape] using ht
    have hlanes : t.lanes = 1 := by cases t <;> first | rfl | cases hnum
    simp only [Ty.settled, hnum, if_true] at h
    obtain ⟨x, rfl⟩ := h
    exact ⟨trivial, hlanes.symm⟩

theorem settlesTo_float {t : Ty} (h : t.isArithmetic = true) : t.settlesTo .float := by
  refine ⟨fun _ => rfl, ?_⟩
  rintro rfl
  cases h

/-- What the arguments of a constructor of a vector or a matrix are. -/
theorem arguments_of_constructibleFrom {target : Ty} {ts : List Ty} (hshape : target.isShaped = true)
    (hts : ts.any (· == .error) = false) (h : target.constructibleFrom ts = true) :
    (∀ t ∈ ts, t.isArithmetic = true) ∧
      (Ty.totalLanes ts = 1 ∨ Ty.totalLanes ts = target.lanes) := by
  unfold Ty.constructibleFrom at h
  rw [hts, if_neg Bool.false_ne_true] at h
  have hcases : (∃ single, ts = [single] ∧ single.isNumeric = true) ∨
      (∀ t ∈ ts, t.isArithmetic = true) ∧ Ty.totalLanes ts = target.lanes := by
    cases target with
    | vec2 | vec3 | vec4 | mat2 | mat3 | mat4 =>
      rcases Bool.or_eq_true_iff.mp h with hsingle | hall
      · match ts, hsingle with
        | [single], hsingle => exact .inl ⟨single, rfl, hsingle⟩
      · simp only [Bool.and_eq_true, List.all_eq_true, beq_iff_eq] at hall
        exact .inr ⟨hall.1.2, hall.2⟩
    | _ => cases hshape
  rcases hcases with ⟨single, rfl, hnum⟩ | ⟨harith, htotal⟩
  · have hlanes : single.lanes = 1 := by cases single <;> first | rfl | cases hnum
    simp [Ty.isArithmetic, hnum, Ty.totalLanes, hlanes]
  · exact ⟨harith, .inr htotal⟩

/-- What the only argument of a constructor of a scalar is. -/
theorem argument_of_constructibleFrom {target : Ty} {ts : List Ty} (hscalar : target.isScalar = true)
    (hts : ts.any (· == .error) = false) (h : target.constructibleFrom ts = true) :
    ∃ t, ts = [t] ∧ t.isNumeric = target.isNumeric ∧ (t = .bool ↔ target = .bool) := by
  unfold Ty.constructibleFrom at h
  rw [hts, if_neg Bool.false_ne_true] at h
  cases target with
  | int | float =>
    match ts, h with
    | [single], h => exact ⟨single, rfl, h, by cases single <;> first | (cases h; done) | simp⟩
  | bool =>
    match ts, h with
    | [single], h =>
      cases beq_iff_eq.mp h
      exact ⟨.bool, rfl, rfl, Iff.rfl⟩
  | _ => cases hscalar

mutual

/-- A clean constant expression has a value at a place that it settles to, if it negates numbers
only. -/
theorem constant?_yields {e : Expr} (hr : e.AsRead) (hc : Clean c e) (hconst : e.isConstant = true)
    {target : Ty} (hs : (typeOf c e).settlesTo target) :
    Yields (constant? target e) (NegatesNumbers c e) fun value =>
      value.IsConstant ((typeOf c e).settled target) := by
  match e with
  | .int _ n =>
    have htarget := hs.1 rfl
    rw [constant?]
    cases target with
    | int => exact .some ⟨n, rfl⟩
    | float => exact .some ⟨Ir.floatOfInt n, rfl⟩
    | _ => cases htarget
  | .float _ x =>
    have htarget := hs.1 rfl
    rw [constant?]
    cases target with
    | int => exact .some ⟨Ir.intOfFloat x, rfl⟩
    | float => exact .some ⟨x, rfl⟩
    | _ => cases htarget
  | .bool _ b =>
    obtain rfl := hs.2 rfl
    exact .some ⟨b, rfl⟩
  | .unary _ .plus operand =>
    have hco := (clean_unary.mp hc).1
    replace hr : operand.AsRead := hr
    replace hconst : operand.isConstant = true := by simpa [Expr.isConstant] using hconst
    have ht := hasConstants_of_isConstant hr hco hconst
    rw [(typeOf_sign (.inl rfl) hc (Ty.ne_error_of_hasConstants ht)).1] at hs ⊢
    rw [constant?]
    exact (constant?_yields hr hco hconst hs).map fun v hv => (settle_eq_self ht hs hv).symm ▸ hv
  | .unary _ .minus operand =>
    have hco := (clean_unary.mp hc).1
    replace hr : operand.AsRead := hr
    replace hconst : operand.isConstant = true := by simpa [Expr.isConstant] using hconst
    have ht := hasConstants_of_isConstant hr hco hconst
    obtain ⟨hty, harith⟩ := typeOf_sign (.inr rfl) hc (Ty.ne_error_of_hasConstants ht)
    rw [hty] at hs ⊢
    rw [constant?]
    refine (((constant?_yields hr hco hconst hs).bind fun v hv =>
      negate?_yields harith hs hv).map fun v hv => ?_).congr and_comm
    exact (settle_eq_self ht hs hv).symm ▸ hv
  | .construct span constructed arguments =>
    obtain ⟨hca, hcon⟩ := clean_construct.mp hc
    have hconsts : arguments.all Expr.isConstant = true := by simpa [Expr.isConstant] using hconst
    have hts := Ty.not_any_error (allHaveConstants_of_areConstant hr.2 hca hconsts)
    have ht := hasConstants_of_isConstant hr hc hconst
    rw [typeOf_construct hc] at hs ht ⊢
    have hsettle := fun v : Value => @settle_eq_self v _ _ ht hs
    rw [constant?]
    split
    · next hshape =>
      obtain ⟨harith, htotal⟩ := arguments_of_constructibleFrom hshape hts hcon
      refine (constantLanes?_yields hr.2 hca hconsts harith).map fun lanes hlanes => ?_
      obtain ⟨filled, hfilled, hlength⟩ := length_vectorOf (hlanes ▸ htotal)
      have hsettled : constructed.settled target = constructed := by
        cases constructed <;> first | rfl | cases hshape
      have hv : (vectorOf constructed.lanes lanes).IsConstant (constructed.settled target) := by
        rw [hsettled, isConstant_of_isShaped hshape]
        exact ⟨filled, hfilled, hlength⟩
      exact (hsettle _ hv).symm ▸ hv
    · next hshape =>
      have hscalar : constructed.isScalar = true := by simpa [Ty.hasConstants, hshape] using ht
      obtain ⟨t, hone, hnum, hbool⟩ := argument_of_constructibleFrom hscalar hts hcon
      match arguments, hr, hca, hconsts, hone with
      | [single], hr, hca, hconsts, hone =>
        have hsingle : typeOf c single = t := by simpa using hone
        rw [List.all_cons, Bool.and_eq_true] at hconsts
        have hsettled : t.settled target = constructed.settled target := by
          simp only [Ty.settled, hnum]
          split
          · rfl
          · cases constructed <;> simp_all [Ty.isScalar, Ty.isNumeric]
        have hsub : (typeOf c single).settlesTo target := by
          rw [hsingle]
          exact ⟨fun h => hs.1 (hnum ▸ h), fun h => hs.2 (hbool.mp h)⟩
        have hyields := constant?_yields hr.2.1 (allClean_cons.mp hca).1 hconsts.1 hsub
        rw [hsingle, hsettled] at hyields
        refine (Yields.map hyields fun v hv => ?_).congr (and_iff_left trivial).symm
        exact (hsettle v hv).symm ▸ hv

theorem constantLanes?_yields {es : List Expr} (hr : Expr.AllAsRead es) (hc : AllClean c es)
    (hconst : es.all Expr.isConstant = true) (harith : ∀ t ∈ typesOf c es, t.isArithmetic = true) :
    Yields (constantLanes? es) (AllNegateNumbers c es) fun lanes =>
      lanes.length = Ty.totalLanes (typesOf c es) := by
  match es with
  | [] => exact .some rfl
  | e :: rest =>
    obtain ⟨hce, hcr⟩ := allClean_cons.mp hc
    rw [List.all_cons, Bool.and_eq_true] at hconst
    rw [typesOf] at harith
    have hea := harith _ List.mem_cons_self
    rw [constantLanes?]
    refine (((constant?_yields hr.1 hce hconst.1 (settlesTo_float hea)).bind fun v hv =>
      lanesOf?_yields hea hv).congr (and_iff_left trivial)).bind fun first hfirst => ?_
    refine ((constantLanes?_yields hr.2 hcr hconst.2
      fun t ht => harith t (List.mem_cons_of_mem _ ht)).bind fun others hothers =>
        Yields.some ?_).congr (and_iff_left trivial)
    rw [List.length_append, hfirst, hothers, typesOf, Ty.totalLanes]

end

end Lowering

end ShaderLang
