import Mathlib.Data.List.Forall2
import ShaderLang.Lowering.Operation
import ShaderLang.Proofs.ConstantInit
import ShaderLang.Proofs.Execution

/-!
# What operations mean

The data that conversions, signs and constructors compute, and that the code which the lowering adds
for them computes just that. Nothing here depends on whether a value is known before the program
runs: a constant that is converted or taken apart at once is what the instruction would have given.
-/

namespace ShaderLang

open Ir (Arithmetic Datum)

namespace Ty

/-- Whether values of a type are converted to another one: they are of that type, or scalars that
become a scalar or fill the lanes of a vector or a matrix. -/
def becomes (source target : Ty) : Prop :=
  source = target ∨ source.isScalar = true ∧ (target.isScalar = true ∨ target.isShaped = true)

theorem one_lt_lanes_of_isShaped {t : Ty} (h : t.isShaped = true) : 1 < t.lanes := by
  cases t <;> first | (cases h; done) | decide

theorem lanes_pos_of_isArithmetic {t : Ty} (h : t.isArithmetic = true) : 0 < t.lanes := by
  cases t <;> first | (cases h; done) | decide

theorem isShaped_of_isArithmetic {t : Ty} (h : t.isArithmetic = true) (hlanes : t.lanes ≠ 1) :
    t.isShaped = true := by
  cases t <;> first | rfl | exact absurd rfl hlanes | cases h

end Ty

namespace Meaning

/-! ## Conversions -/

/-- A scalar of one type as a scalar of another one. -/
def scalar (A : Arithmetic) (source target : Ty) (d : Datum) : Datum :=
  match source, target with
  | .int, .float => Ir.Conversion.intToFloat.run d
  | .float, .int => Ir.Conversion.floatToInt.run d
  | .bool, .int => Ir.Conversion.boolToInt.run d
  | .bool, .float => Ir.Conversion.boolToFloat.run d
  | .int, .bool => Ir.Predicate.ne.run A d (.int 0)
  | .float, .bool => Ir.Predicate.one.run A d (.float 0.0)
  | _, _ => d

/-- A vector with the same in all lanes. -/
def spread (lanes : Nat) (d : Datum) : Datum :=
  .vector (List.replicate lanes d.toLane)

/-- A value of one type at a place of another one. -/
def brought (A : Arithmetic) (source target : Ty) (d : Datum) : Datum :=
  if source.isScalar && target.isShaped then spread target.lanes (scalar A source .float d)
  else scalar A source target d

theorem brought_scalar {A : Arithmetic} {source target : Ty} (h : target.isShaped = false) (d : Datum) :
    brought A source target d = scalar A source target d := by
  simp [brought, h]

theorem brought_shaped {A : Arithmetic} {source target : Ty} (hs : source.isScalar = true)
    (ht : target.isShaped = true) (d : Datum) :
    brought A source target d =
      spread target.lanes (scalar A source .float d) := by
  simp [brought, hs, ht]

/-! ## Signs -/

/-- The zero of a type. -/
def zero : Ty → Datum
  | .int => .int 0
  | .float => .float 0.0
  | t => .vector (List.replicate t.lanes (some 0.0))

/-- A value added to zero or subtracted from it. -/
def signed (A : Arithmetic) (op : ArithOp) (t : Ty) (d : Datum) : Datum :=
  (Lowering.arithInst (t == .int) op).run A (zero t) d

/-! ## Constructors -/

/-- The lanes that a value contributes to a vector. -/
def lanesOf (A : Arithmetic) (t : Ty) (d : Datum) : List (Option Float) :=
  if t.isShaped then (List.range t.lanes).map fun lane => (d.lane lane).toLane
  else [(scalar A t .float d).toLane]

/-- The lanes of all arguments. -/
def allLanes (A : Arithmetic) : List (Ty × Datum) → List (Option Float)
  | [] => []
  | (t, d) :: rest => lanesOf A t d ++ allLanes A rest

theorem length_lanesOf {A : Arithmetic} {t : Ty} (ht : t.lanes ≠ 0) (d : Datum) :
    (lanesOf A t d).length = t.lanes := by
  unfold lanesOf
  split
  · simp
  · cases t <;> first | rfl | exact absurd rfl ht | contradiction

theorem length_allLanes {A : Arithmetic} {arguments : List (Ty × Datum)}
    (h : ∀ argument ∈ arguments, argument.1.isArithmetic = true) :
    (allLanes A arguments).length = Ty.totalLanes (arguments.map Prod.fst) := by
  induction arguments with
  | nil => rfl
  | cons argument rest ih =>
    obtain ⟨t, d⟩ := argument
    have ht := (Ty.lanes_pos_of_isArithmetic (h _ List.mem_cons_self)).ne'
    have hrest := ih fun argument ha => h argument (List.mem_cons_of_mem _ ha)
    rw [allLanes, List.length_append, length_lanesOf ht, hrest]
    rfl

/-- A constructor applied to values of given types. -/
def constructed (A : Arithmetic) (target : Ty) (arguments : List (Ty × Datum)) : Datum :=
  match arguments with
  | [(t, d)] =>
    if target.isShaped && t.isShaped then .vector (lanesOf A t d) else brought A t target d
  | arguments => .vector (allLanes A arguments)

/-- A constructor of a vector or a matrix spreads an only scalar, or puts as many lanes together as
there are. -/
theorem constructed_cases {A : Arithmetic} {target : Ty} {arguments : List (Ty × Datum)}
    (htarget : target.isShaped = true) (hts : (arguments.map Prod.fst).any (· == .error) = false)
    (hcon : target.constructibleFrom (arguments.map Prod.fst) = true) :
    (∃ t d, arguments = [(t, d)] ∧ t.isScalar = true ∧
      constructed A target arguments = spread target.lanes (scalar A t .float d)) ∨
    (∀ argument ∈ arguments, argument.1.isArithmetic = true) ∧
      Ty.totalLanes (arguments.map Prod.fst) = target.lanes ∧
      constructed A target arguments = .vector (allLanes A arguments) := by
  obtain ⟨harith, htotal⟩ := Lowering.arguments_of_constructibleFrom htarget hts hcon
  replace harith : ∀ argument ∈ arguments, argument.1.isArithmetic = true :=
    fun argument ha => harith _ (List.mem_map_of_mem ha)
  have hlanes := Ty.one_lt_lanes_of_isShaped htarget
  match arguments with
  | [] =>
    simp only [List.map_nil, Ty.totalLanes] at htotal
    omega
  | [(t, d)] =>
    have ht := harith _ List.mem_cons_self
    simp only [List.map_cons, List.map_nil, Ty.totalLanes] at htotal ⊢
    cases hshape : t.isShaped with
    | true =>
      have ht₁ := Ty.one_lt_lanes_of_isShaped hshape
      have hall : allLanes A [(t, d)] = lanesOf A t d := List.append_nil _
      refine .inr ⟨harith, by omega, ?_⟩
      rw [constructed, htarget, hshape, hall]
      rfl
    | false =>
      have hscalar : t.isScalar = true := by
        cases t <;> first | rfl | (cases ht; done) | cases hshape
      refine .inl ⟨t, d, rfl, hscalar, ?_⟩
      rw [constructed, hshape, Bool.and_false, if_neg Bool.false_ne_true,
        brought_shaped hscalar htarget]
  | p :: q :: rest =>
    have hp := Ty.lanes_pos_of_isArithmetic (harith p List.mem_cons_self)
    have hq := Ty.lanes_pos_of_isArithmetic (harith q (List.mem_cons_of_mem _ List.mem_cons_self))
    simp only [List.map_cons, Ty.totalLanes] at htotal ⊢
    exact .inr ⟨harith, by omega, rfl⟩

end Meaning

namespace Lowering

open Ir (Build State Machine World)

variable {m : Machine} {n n' : Nat} {s s' : State} {v : Ir.Value} {a : TypedValue} {t : Ty}
  {d : Datum}

/-! ## Conversions -/

theorem convertScalar_gives (target : Ty) (ht : t.isScalar = true) (htarget : target.isScalar = true)
    (ha : HoldsTyped m n s a t d) :
    Gives m (convertScalar a target) n s (Meaning.scalar m.arithmetic t target d) s.world := by
  obtain ⟨value, source⟩ := a
  obtain ⟨rfl, hv⟩ := ha
  unfold convertScalar
  split
  · next heq =>
    subst heq
    cases source <;> exact .pure hv
  · next hne =>
    cases source <;> cases target <;>
      first
        | cases ht; done
        | cases htarget; done
        | exact absurd rfl hne
        | exact convert_gives _ hv
        | exact compare_gives _ hv (.constant rfl rfl)

/-- A vector that was filled up to some lane. Without any lane it is undefined still. -/
def filled : List (Option Float) → Datum
  | [] => .undefined
  | lanes => .vector lanes

theorem filled_of_ne_nil {lanes : List (Option Float)} (h : lanes ≠ []) :
    filled lanes = .vector lanes := by
  cases lanes with
  | nil => exact absurd rfl h
  | cons => rfl

theorem setLane_filled (lanes : List (Option Float)) (d : Datum) :
    (filled lanes).setLane d lanes.length = filled (lanes ++ [d.toLane]) := by
  have hlanes : (filled lanes).lanes = lanes := by cases lanes <;> rfl
  have hne : lanes ++ [d.toLane] ≠ [] := by simp
  rw [filled_of_ne_nil hne, Datum.setLane, hlanes, Nat.add_sub_cancel_left]
  simp

/-- An operand that fills a lane. -/
def HoldsLane (m : Machine) (n : Nat) (s : State) (v : Ir.Value) (x : Option Float) : Prop :=
  ∃ d, m.Holds n s v d ∧ d.toLane = x

theorem HoldsLane.later {x : Option Float} (h : HoldsLane m n s v x) (hs : s.Later n n' s') :
    HoldsLane m n' s' v x :=
  let ⟨d, hd, hx⟩ := h
  ⟨d, hd.later hs, hx⟩

theorem insertLanes_gives {values : List Ir.Value} {lanes : List (Option Float)}
    (h : List.Forall₂ (HoldsLane m n s) values lanes) (written : List (Option Float))
    (hv : m.Holds n s v (filled written)) :
    Gives m ((values.zipIdx written.length).foldlM
        (fun vector (value, lane) => Build.insertLane vector value lane) v) n s
      (filled (written ++ lanes)) s.world := by
  induction values generalizing lanes n s v written with
  | nil =>
    cases h
    rw [List.append_nil]
    exact .pure hv
  | cons value values ih =>
    obtain ⟨x, rest, ⟨d, hd, rfl⟩, hrest, rfl⟩ := List.forall₂_cons_left_iff.mp h
    rw [List.zipIdx_cons, List.foldlM_cons]
    refine (insertLane_gives written.length hv hd).bind fun v' n' s' hs hv' hw => ?_
    rw [setLane_filled] at hv'
    have hih := ih (hrest.imp fun _ _ h => h.later hs) _ hv'
    rw [List.length_append, List.append_assoc, hw] at hih
    exact hih

theorem splat_gives {lanes : Nat} (hlanes : 0 < lanes) (hv : m.Holds n s v d) :
    Gives m (splat v lanes) n s (Meaning.spread lanes d) s.world := by
  have hpairs : (List.replicate lanes v).zipIdx = (List.range lanes).map (v, ·) := by
    apply List.ext_getElem <;> simp
  have hvalues : List.Forall₂ (HoldsLane m n s) (List.replicate lanes v)
      (List.replicate lanes d.toLane) := by
    apply List.forall₂_iff_get.mpr
    simpa using fun _ _ => ⟨d, hv, rfl⟩
  have hfill := insertLanes_gives hvalues [] (v := .undefined) (.constant rfl rfl)
  rw [List.length_nil, hpairs, List.foldlM_map, List.nil_append, filled_of_ne_nil] at hfill
  · exact hfill
  · simpa using Nat.ne_of_gt hlanes

theorem scalarOf_eq {t : Ty} (ht : t.isScalar = true) (v : Ir.Value) :
    scalarOf v t = pure ⟨v, t⟩ := by
  cases t <;> first | rfl | cases ht

theorem coerce_gives {target : Ty} (hb : t.becomes target) (ha : HoldsTyped m n s a t d) :
    Gives m (coerce a target) n s (Meaning.brought m.arithmetic t target d) s.world := by
  obtain ⟨value, source⟩ := a
  obtain ⟨rfl, hv⟩ := ha
  by_cases heq : source = target
  · subst heq
    have hself : Meaning.brought m.arithmetic source source d = d := by cases source <;> rfl
    unfold coerce
    rw [if_pos rfl, hself]
    exact .pure hv
  · obtain ⟨hsource, htarget⟩ := hb.resolve_left heq
    have hunshaped : source.isShaped = false := by cases source <;> first | rfl | cases hsource
    unfold coerce
    rw [if_neg heq]
    cases hshape : target.isShaped with
    | false =>
      have hscalar : target.isScalar = true := by simpa [hshape] using htarget
      rw [Meaning.brought_scalar hshape]
      cases target <;> first | (cases hscalar; done) | skip
      all_goals
        simp only [scalarOf_eq hsource, pure_bind]
        exact convertScalar_gives _ hsource rfl ⟨rfl, hv⟩
    | true =>
      have hlanes := Ty.lanes_pos_of_isShaped hshape
      rw [Meaning.brought_shaped hsource hshape]
      cases target <;> first | (cases hshape; done) | skip
      all_goals
        simp only [scalarOf_eq hsource, pure_bind, hunshaped]
        refine (convertScalar_gives .float hsource rfl ⟨rfl, hv⟩).bind fun lane n' s' _ hlane hw => ?_
        rw [← hw]
        exact splat_gives hlanes hlane

/-! ## Signs -/

theorem arithmeticView_eq (ht : a.ty.isArithmetic = true) : arithmeticView a = pure a := by
  unfold arithmeticView
  rw [if_pos ht]

theorem zeroOf_eq (m : Machine) (s : State) {t : Ty} (ht : t.isArithmetic = true) :
    ∃ v, zeroOf t = pure v ∧ v.temp? = none ∧ m.read s v = Meaning.zero t := by
  cases t <;> first | exact ⟨_, rfl, rfl, rfl⟩ | cases ht

theorem signed_gives (op : ArithOp) (ht : t.isArithmetic = true) (ha : HoldsTyped m n s a t d) :
    GivesTyped m (signed op a) n s t (Meaning.signed m.arithmetic op t d) s.world := by
  obtain ⟨value, ty⟩ := a
  obtain ⟨rfl, hv⟩ := ha
  obtain ⟨zero, hzero, htemp, hread⟩ := zeroOf_eq m s ht
  unfold signed
  rw [arithmeticView_eq ht, pure_bind, hzero, pure_bind]
  exact (binary_gives _ _ (.constant htemp hread) hv).typed ty

/-! ## Constructors -/

/-- Actions on the members of a list that leave the world as it is. -/
theorem mapM_executes {ι β : Type} {f : ι → Emit β} {R : Nat → State → ι → β → Prop}
    (hlater : ∀ {n s n' s' i b}, State.Later n s n' s' → R n s i b → R n' s' i b)
    (xs : List ι) (hf : ∀ i ∈ xs, ∀ n' s', s.Later n n' s' → Executes m (f i) n' s'
      fun b n'' s'' => R n'' s'' i b ∧ s''.world = s'.world) :
    Executes m (xs.mapM f) n s fun bs n' s' => List.Forall₂ (R n' s') xs bs ∧
      s'.world = s.world := by
  induction xs generalizing n s with
  | nil => exact .pure ⟨.nil, rfl⟩
  | cons i xs ih =>
    rw [List.mapM_cons]
    refine Executes.bind (hf i List.mem_cons_self n s (.refl n s)) fun b n₁ s₁ h₁ hb => ?_
    refine Executes.bind (ih fun i hi n' s' hs => hf i (List.mem_cons_of_mem _ hi) n' s'
      (h₁.trans hs)) fun bs n₂ s₂ h₂ hbs => ?_
    exact .pure ⟨.cons (hlater h₂ hb.1) hbs.1, hbs.2.trans hb.2⟩

theorem argumentLanes_gives (ht : t.isArithmetic = true) (ha : HoldsTyped m n s a t d) :
    Executes m (argumentLanes a) n s fun vs n' s' =>
      List.Forall₂ (HoldsLane m n' s') vs (Meaning.lanesOf m.arithmetic t d) ∧
        s'.world = s.world := by
  obtain ⟨value, ty⟩ := a
  obtain ⟨rfl, hv⟩ := ha
  unfold argumentLanes
  cases hshape : ty.isShaped with
  | true =>
    rw [if_pos rfl]
    refine (mapM_executes (R := fun n s lane v => HoldsLane m n s v (d.lane lane).toLane)
      (fun h hv => hv.later h) _ fun lane _ n' s' hs => ?_).imp fun vs n' s' _ h => ?_
    · exact (extractLane_gives lane (hv.later hs)).imp fun v n'' s'' _ h => ⟨⟨_, h.1, rfl⟩, h.2⟩
    · rw [Meaning.lanesOf, if_pos hshape]
      exact ⟨List.forall₂_map_right_iff.mpr h.1.flip, h.2⟩
  | false =>
    have hscalar : ty.isScalar = true := by
      cases ty <;> first | rfl | (cases ht; done) | cases hshape
    rw [if_neg Bool.false_ne_true]
    refine (coerce_gives (.inr ⟨hscalar, .inl rfl⟩) ⟨rfl, hv⟩).bind fun v n' s' _ hv' hw => ?_
    rw [Meaning.brought_scalar rfl] at hv'
    rw [Meaning.lanesOf, hshape, if_neg Bool.false_ne_true]
    exact .pure ⟨.cons ⟨_, hv', rfl⟩ .nil, hw⟩

theorem constant_lanes {lanes : List (Option Float)} {values : List Ir.Value}
    {constants : List Float} (h : List.Forall₂ (HoldsLane m n s) values lanes)
    (hconst : values.mapM floatConstant? = some constants) : lanes = constants.map some := by
  induction h generalizing constants with
  | nil =>
    cases hconst
    rfl
  | @cons value lane values lanes hvalue _ ih =>
    rw [List.mapM_cons] at hconst
    simp only [Option.pure_def, Option.bind_eq_bind, Option.bind_eq_some_iff] at hconst
    obtain ⟨x, hx, rest, hrest, hconst⟩ := hconst
    cases hconst
    obtain ⟨d, hd, rfl⟩ := hvalue
    cases value <;> cases hx
    rw [List.map_cons, ← ih hrest, ← hd.read]
    rfl

theorem vectorOfLanes_gives {lanes : List (Option Float)} {values : List Ir.Value}
    (hne : lanes ≠ []) (h : List.Forall₂ (HoldsLane m n s) values lanes) :
    Gives m (vectorOfLanes values) n s (.vector lanes) s.world := by
  unfold vectorOfLanes
  split
  · next constants hconst =>
    rw [constant_lanes h hconst]
    exact .pure (.constant rfl rfl)
  · have hfill := insertLanes_gives h [] (v := .undefined) (.constant rfl rfl)
    rwa [List.nil_append, filled_of_ne_nil hne] at hfill

/-- Values of types, and what they stand for. -/
abbrev HoldAll (m : Machine) (n : Nat) (s : State) (values : List TypedValue)
    (arguments : List (Ty × Datum)) : Prop :=
  List.Forall₂ (fun a argument => HoldsTyped m n s a argument.1 argument.2) values arguments

theorem HoldAll.later {values : List TypedValue} {arguments : List (Ty × Datum)}
    (h : HoldAll m n s values arguments) (hs : s.Later n n' s') :
    HoldAll m n' s' values arguments :=
  List.Forall₂.imp (fun _ _ h => h.later hs) h

variable {values : List TypedValue} {arguments : List (Ty × Datum)}

theorem mapM_argumentLanes_gives (h : HoldAll m n s values arguments)
    (harith : ∀ argument ∈ arguments, argument.1.isArithmetic = true) :
    Executes m (values.mapM argumentLanes) n s fun lanes n' s' =>
      List.Forall₂ (HoldsLane m n' s') lanes.flatten (Meaning.allLanes m.arithmetic arguments) ∧
        s'.world = s.world := by
  induction arguments generalizing values n s with
  | nil =>
    cases h
    exact .pure ⟨.nil, rfl⟩
  | cons argument arguments ih =>
    cases h with
    | cons hvalue hvalues =>
    rw [List.mapM_cons]
    refine Executes.bind (argumentLanes_gives (harith _ List.mem_cons_self) hvalue)
      fun lanes n₁ s₁ h₁ hlanes => ?_
    refine Executes.bind (ih (HoldAll.later hvalues h₁)
      fun a ha => harith a (List.mem_cons_of_mem _ ha)) fun rest n₂ s₂ h₂ hrest => ?_
    refine .pure ⟨?_, hrest.2.trans hlanes.2⟩
    rw [List.flatten_cons, Meaning.allLanes]
    exact List.rel_append (hlanes.1.imp fun _ _ h => h.later h₂) hrest.1

theorem fitLanes_eq_self {lanes : List Ir.Value} {width : Nat} (h : lanes.length = width) :
    fitLanes width lanes = lanes := by
  simp [fitLanes, ← h]

theorem concatenated_gives {width : Nat} (h : HoldAll m n s values arguments)
    (harith : ∀ argument ∈ arguments, argument.1.isArithmetic = true)
    (htotal : Ty.totalLanes (arguments.map Prod.fst) = width) (hwidth : 0 < width) :
    Gives m (concatenated width values) n s
      (.vector (Meaning.allLanes m.arithmetic arguments)) s.world := by
  have hlength := Meaning.length_allLanes (A := m.arithmetic) harith
  refine Executes.bind (mapM_argumentLanes_gives h harith) fun lanes n' s' _ hlanes => ?_
  rw [fitLanes_eq_self (hlanes.1.length_eq.trans (hlength.trans htotal)), ← hlanes.2]
  refine vectorOfLanes_gives ?_ hlanes.1
  exact List.ne_nil_of_length_pos (by omega)

/-- A single scalar goes into all lanes, at once if it is known. -/
theorem shaped_single_gives {width : Nat} (hwidth : 0 < width) (ht : t.isScalar = true)
    (ha : HoldsTyped m n s a t d) :
    Gives m (shaped width [a]) n s (Meaning.spread width (Meaning.scalar m.arithmetic t .float d))
      s.world := by
  have hunshaped : a.ty.isShaped = false := by
    rw [ha.ty]
    cases t <;> first | rfl | cases ht
  unfold shaped
  simp only [hunshaped]
  refine (coerce_gives (.inr ⟨ht, .inl rfl⟩) ha).bind fun v n' s' _ hv hw => ?_
  rw [Meaning.brought_scalar rfl] at hv
  rw [← hw]
  split
  · rw [Meaning.spread, ← hv.read]
    exact Gives.pure (.constant rfl (congrArg Datum.vector List.map_replicate))
  · exact splat_gives hwidth hv

theorem shaped_gives {target : Ty} (htarget : target.isShaped = true)
    (hts : (arguments.map Prod.fst).any (· == .error) = false)
    (hcon : target.constructibleFrom (arguments.map Prod.fst) = true)
    (h : HoldAll m n s values arguments) :
    Gives m (shaped target.lanes values) n s
      (Meaning.constructed m.arithmetic target arguments) s.world := by
  have hlanes := Ty.one_lt_lanes_of_isShaped htarget
  rcases Meaning.constructed_cases (A := m.arithmetic) htarget hts hcon with
    ⟨t, d, rfl, ht, heq⟩ | ⟨harith, htotal, heq⟩
  · cases h with
    | cons ha hrest =>
    cases hrest
    rw [heq]
    exact shaped_single_gives (by omega) ht ha
  · have hshaped : shaped target.lanes values = concatenated target.lanes values := by
      unfold shaped
      split
      · next single =>
        cases h with
        | @cons _ argument _ _ ha hrest =>
        cases hrest
        -- a single argument with several lanes
        simp only [List.map_cons, List.map_nil, Ty.totalLanes] at htotal
        have hne : argument.1.lanes ≠ 1 := by omega
        have hsingle := Ty.isShaped_of_isArithmetic (harith argument List.mem_cons_self) hne
        rw [if_pos (ha.ty ▸ hsingle)]
      · rfl
    rw [hshaped, heq]
    exact concatenated_gives h harith htotal (by omega)

theorem construct_gives {target : Ty} (hts : (arguments.map Prod.fst).any (· == .error) = false)
    (hcon : target.constructibleFrom (arguments.map Prod.fst) = true)
    (h : HoldAll m n s values arguments) :
    GivesTyped m (construct target values) n s target
      (Meaning.constructed m.arithmetic target arguments) s.world := by
  unfold construct
  cases hshape : target.isShaped with
  | true =>
    rw [if_pos rfl]
    exact (shaped_gives hshape hts hcon h).typed target
  | false =>
    rw [if_neg Bool.false_ne_true]
    have hscalar : target.isScalar = true := by
      unfold Ty.constructibleFrom at hcon
      rw [hts, if_neg Bool.false_ne_true] at hcon
      cases target <;> first | rfl | cases hcon | cases hshape
    obtain ⟨t, hone, hnum, hbool⟩ := argument_of_constructibleFrom hscalar hts hcon
    obtain ⟨⟨t, d⟩, rfl, rfl⟩ := List.map_eq_singleton_iff.mp hone
    cases h with
    | @cons a _ _ _ ha hrest =>
    cases hrest
    have hbecomes : t.becomes target := by
      cases t <;> cases target <;> simp_all [Ty.becomes, Ty.isScalar, Ty.isNumeric]
    have hcases : target = .int ∨ target = .float ∨ target = .bool := by
      cases target <;> simp_all [Ty.isScalar]
    dsimp only
    rw [if_pos hcases, Meaning.constructed, hshape, Bool.false_and, if_neg Bool.false_ne_true]
    exact (coerce_gives hbecomes ha).typed target

end Lowering

end ShaderLang
