import ShaderLang.Proofs.Clean
import ShaderLang.Proofs.Meaning
import ShaderLang.Proofs.Passage

/-!
# What expressions mean

An expression gives a datum and changes the contents of the variables (`Meaning.expr`). Operands are
evaluated from left to right, and so are both sides of `&&` and `||`; of a conditional only the chosen
arm is. Where the types require it, integers widen to floating-point numbers and scalars are spread
over lanes. What is written to is found before the value is: a subscript in it comes first.

The code for single operations and for places computes just that.
-/

namespace ShaderLang

open Ir (Arithmetic Datum Machine Root World)

namespace Meaning

/-! ## Operations -/

/-- Arithmetic on two values of one type. -/
def computed (A : Arithmetic) (op : ArithOp) : Ty → Datum → Datum → Datum
  | .int => .ints (A.ints op)
  | _ => .floats (A.floats op)

/-- Arithmetic on values of two types, in the type that they have in common. -/
def arith (A : Arithmetic) (op : ArithOp) (t u : Ty) (d d' : Datum) : Datum :=
  let common := (t.arithmeticResult? u).getD .error
  computed A op common (brought A t common d) (brought A u common d')

/-- A comparison of two integers. Truth values can only be equal or not. -/
def compareInts (A : Arithmetic) (op : CompareOp) : Datum → Datum → Datum
  | .int a, .int b => .bool (A.compareInts op a b)
  | .bool a, .bool b =>
    match op with
    | .eq => .bool (a == b)
    | .ne => .bool (a != b)
    | _ => .undefined
  | _, _ => .undefined

/-- A comparison of two floating-point numbers. -/
def compareFloats (A : Arithmetic) (op : CompareOp) : Datum → Datum → Datum
  | .float x, .float y => .bool (A.compareFloats op x y)
  | _, _ => .undefined

/-- A comparison of two scalars of one type. Truth values are ordered as zero and one. -/
def compareScalars (A : Arithmetic) (op : CompareOp) (t : Ty) (d d' : Datum) : Datum :=
  match t with
  | .float => compareFloats A op d d'
  | .bool =>
    if op = .eq ∨ op = .ne then compareInts A op d d'
    else compareInts A op (scalar A .bool .int d) (scalar A .bool .int d')
  | _ => compareInts A op d d'

/-- Vectors are unequal if they are so in one lane; all other comparisons hold if they do in every
lane. -/
def joined (op : CompareOp) (answers : List Datum) : Datum :=
  if op = .ne then answers.foldl (.bools (· || ·)) (.bool false)
  else answers.foldl (.bools (· && ·)) (.bool true)

/-- A comparison of two values of one type. -/
def compared (A : Arithmetic) (op : CompareOp) (t : Ty) (d d' : Datum) : Datum :=
  if t.isShaped then
    joined op ((List.range t.lanes).map fun lane =>
      compareScalars A op .float (d.lane lane) (d'.lane lane))
  else compareScalars A op t d d'

/-- A binary operation on values of two types. -/
def binary (A : Arithmetic) (op : BinaryOp) (t u : Ty) (d d' : Datum) : Datum :=
  match op with
  | .arith op => arith A op t u d d'
  | .compare op => compared A op t d d'
  | .logic .and => .bools (· && ·) d d'
  | .logic .or => .bools (· || ·) d d'

/-- The opposite of a truth value. -/
def negated : Datum → Datum
  | .bool b => .bool !b
  | _ => .undefined

/-- One lane of a vector as a number, or several as a vector. -/
def selected (d : Datum) : List Nat → Datum
  | [lane] => d.lane lane
  | lanes => d.shuffle lanes

/-- What one step adds to a value of a type. -/
def unit : Ty → Datum
  | .int => .int 1
  | .float => .float 1.0
  | t => spread t.lanes (.float 1.0)

/-- A value of a type; there are none of type `void`. -/
def ofTy (t : Ty) (d : Datum) : Datum :=
  if t = .void then .undefined else d

/-! ## Places -/

/-- What can be written to: what is at an address, or some lanes of it. -/
inductive Place where
  | whole (address : Datum) (ty : Ty)
  | lanes (address : Datum) (selected : List Nat)

/-- One lane of what is at an address is replaced. -/
def writeLane (address : Datum) (lane : Nat) (d : Datum) (w : World) : World :=
  w.write address ((w.read address).setLane d lane)

namespace Place

/-- What a place holds. -/
def value (w : World) : Place → Datum
  | whole address _ => w.read address
  | lanes address selected => Meaning.selected (w.read address) selected

/-- A value of a type is written to a place; to lanes one after the other. -/
def write (t : Ty) (d : Datum) (w : World) : Place → World
  | whole address _ => w.write address d
  | lanes address selected =>
    if t.isShaped then
      selected.zipIdx.foldl (fun w (lane, i) => writeLane address lane (d.lane i) w) w
    else selected.foldl (fun w lane => writeLane address lane d w) w

/-- One lane of what is at an address is stepped. -/
def stepLane (A : Arithmetic) (op : ArithOp) (address : Datum) (w : World) (lane : Nat) : World :=
  writeLane address lane (computed A op .float ((w.read address).lane lane) (.float 1.0)) w

/-- A place is stepped, lanes one after the other. The datum is what it holds then. -/
def stepped (A : Arithmetic) (op : ArithOp) (w : World) : Place → Datum × World
  | whole address ty =>
    let d := computed A op ty (w.read address) (Meaning.unit ty)
    (d, w.write address d)
  | lanes address selected =>
    let w := selected.foldl (stepLane A op address) w
    (Meaning.selected (w.read address) selected, w)

/-- The element of the array at a place. -/
def element (index : Datum) : Place → Place
  | whole address ty => whole (address.element index) (ty.element?.getD .error)
  | lanes address selected => lanes address selected

/-- Some lanes of a place. Lanes of lanes are lanes of the same vector. -/
def select (mask : List Nat) : Place → Place
  | whole address _ => lanes address mask
  | lanes address selected => lanes address (mask.filterMap (selected[·]?))

/-- Reads a place. -/
def load (p : Place) : StateM World Datum :=
  return p.value (← get)

/-- Writes a value of a type to a place, and gives that value. -/
def store (t : Ty) (d : Datum) (p : Place) : StateM World Datum := do
  modify fun w => p.write t d w
  return d

/-- Steps a place, and gives the value before or the value after. -/
def step (A : Arithmetic) (op : ArithOp) (givesOld : Bool) (p : Place) : StateM World Datum := do
  let before ← p.load
  let after ← modifyGet (p.stepped A op)
  return if givesOld then before else after

end Place

/-! ## Expressions -/

/-- A call, which changes the global variables and is counted among the calls. -/
def call (m : Machine) (callee : String) (arguments : List Datum) : StateM World Datum :=
  fun w => (m.result callee arguments w, m.invoke callee arguments w)

section

variable (m : Machine) (symbols : SymbolTable) (roots : String → Root)

/-- The place of a variable. -/
def varPlace (name : String) : Place :=
  .whole (.address (roots name) []) ((Typing.variableTy? symbols name).getD .error)

mutual

/-- The value of an expression, and what its evaluation changes. -/
def expr : Expr → StateM World Datum
  | .int _ n => return .int n
  | .float _ x => return .float x
  | .bool _ b => return .bool b
  | .var _ name => (varPlace symbols roots name.name).load
  | .index _ base position => do
    let place ← placeOf base
    let index ← expr position
    (place.element index).load
  | .binary _ op left right => do
    let l ← expr left
    let r ← expr right
    return binary m.arithmetic op (typeOf symbols left) (typeOf symbols right) l r
  | .unary _ op operand =>
    match op with
    | .plus => do
      let d ← expr operand
      let t := typeOf symbols operand
      return computed m.arithmetic .add t (zero t) d
    | .minus => do
      let d ← expr operand
      let t := typeOf symbols operand
      return computed m.arithmetic .sub t (zero t) d
    | .not => do
      let d ← expr operand
      return negated d
    | .step direction => do
      let place ← placeOf operand
      place.step m.arithmetic direction.arithOp false
  | .assign _ op target value => do
    let place ← placeOf target
    match op with
    | .plain =>
      let d ← expr value
      place.store (typeOf symbols target) d
    | .compound op =>
      let current ← place.load
      let d ← expr value
      place.store (typeOf symbols target)
        (arith m.arithmetic op (typeOf symbols target) (typeOf symbols value) current d)
  | .stepAfter _ direction operand => do
    let place ← placeOf operand
    place.step m.arithmetic direction.arithOp true
  | .conditional _ test ifTrue ifFalse => do
    let condition ← expr test
    let ty := ((typeOf symbols ifTrue).common? (typeOf symbols ifFalse)).getD .error
    if condition.isTrue then
      let d ← expr ifTrue
      return ofTy ty (brought m.arithmetic (typeOf symbols ifTrue) ty d)
    else
      let d ← expr ifFalse
      return ofTy ty (brought m.arithmetic (typeOf symbols ifFalse) ty d)
  | .field _ base name => do
    let d ← expr base
    return selected d ((Swizzle.mask? name.name).getD [])
  | .call _ callee arguments =>
    match Typing.function? symbols callee.name with
    | none => return .undefined
    | some f => do
      let actuals ← actuals f.formals arguments
      let d ← call m f.name.name actuals
      return ofTy f.returnTy d
  | .construct _ target arguments => do
    let ds ← exprs arguments
    return constructed m.arithmetic target ((typesOf symbols arguments).zip ds)

/-- The values of expressions, from left to right. -/
def exprs : List Expr → StateM World (List Datum)
  | [] => return []
  | e :: rest => do
    let d ← expr e
    let ds ← exprs rest
    return d :: ds

/-- The values of the arguments of a call, each of the type of its formal parameter. -/
def actuals (formals : List VarDecl) : List Expr → StateM World (List Datum)
  | [] => return []
  | e :: rest =>
    match formals with
    | [] => return []
    | formal :: formals => do
      let d ← expr e
      let ds ← actuals formals rest
      return brought m.arithmetic (typeOf symbols e) formal.ty d :: ds

/-- The place that an expression names. -/
def placeOf : Expr → StateM World Place
  | .var _ name => return varPlace symbols roots name.name
  | .index _ base position => do
    let place ← placeOf base
    let index ← expr position
    return place.element index
  | .field _ base name => do
    let place ← placeOf base
    return place.select ((Swizzle.mask? name.name).getD [])
  | _ => return .whole .undefined .error

end

end

end Meaning

namespace Lowering

open Ir (Build State)

variable {m : Machine} {n n' : Nat} {s s' : State} {v v' : Ir.Value} {left right a : TypedValue}
  {t u r : Ty} {d d' : Datum} {ι : Type}

/-! ## Arithmetic -/

theorem run_arithInst (A : Arithmetic) (op : ArithOp) (t : Ty) (d d' : Datum) :
    (arithInst (t == .int) op).run A d d' = Meaning.computed A op t d d' := by
  cases t <;> cases op <;> rfl

theorem signed_eq_computed (A : Arithmetic) (op : ArithOp) (t : Ty) (d : Datum) :
    Meaning.signed A op t d = Meaning.computed A op t (Meaning.zero t) d :=
  run_arithInst A op t _ d

theorem becomes_of_arithmeticResult? (h : t.arithmeticResult? u = some r) (hr : r ≠ .error) :
    t.becomes r ∧ u.becomes r := by
  unfold Ty.becomes
  cases t <;> cases u <;> simp_all [Ty.arithmeticResult?, Ty.isArithmetic, Ty.isScalar] <;> grind

theorem arith_gives (op : ArithOp) (hres : t.arithmeticResult? u = some r) (hne : r ≠ .error)
    (hl : HoldsTyped m n s left t d) (hr : HoldsTyped m n s right u d') :
    GivesTyped m (arith op left right) n s r (Meaning.arith m.arithmetic op t u d d') s.world := by
  obtain ⟨ht, hu⟩ := isArithmetic_of_arithmeticResult? hres hne
  obtain ⟨hbt, hbu⟩ := becomes_of_arithmeticResult? hres hne
  unfold arith
  rw [arithmeticView_eq (hl.ty ▸ ht), arithmeticView_eq (hr.ty ▸ hu)]
  simp only [pure_bind, hl.ty, hr.ty, meetingTy_eq hres hne]
  refine (coerce_gives hbt hl).bind fun v n₁ s₁ h₁ hv hw₁ => ?_
  refine (coerce_gives hbu (hr.later h₁)).bind fun v' n₂ s₂ h₂ hv' hw₂ => ?_
  have hbinary := binary_gives (arithInst (r == .int) op) r.toIr (hv.later h₂) hv'
  rw [run_arithInst, hw₂, hw₁] at hbinary
  rw [Meaning.arith, hres]
  exact hbinary.typed r

/-! ## Comparisons -/

theorem foldlM_gives {f : Ir.Value → ι → Emit Ir.Value} {g : Datum → ι → Datum} (xs : List ι)
    (hf : ∀ v d i n' s', s.Later n n' s' → m.Holds n' s' v d → Gives m (f v i) n' s' (g d i) s'.world)
    (hv : m.Holds n s v d) : Gives m (xs.foldlM f v) n s (xs.foldl g d) s.world := by
  induction xs generalizing n s v d with
  | nil => exact .pure hv
  | cons i xs ih =>
    rw [List.foldlM_cons, List.foldl_cons]
    refine (hf v d i n s (.refl n s) hv).bind fun v' n' s' h' hv' hw => ?_
    rw [← hw]
    exact ih (fun v d i n'' s'' h'' => hf v d i n'' s'' (h'.trans h'')) hv'

theorem run_predicate_ints (A : Arithmetic) (op : CompareOp) (d d' : Datum) :
    (predicate false op).run A d d' = Meaning.compareInts A op d d' := by
  cases d <;> cases d' <;> first | rfl | (cases op <;> rfl)

theorem run_predicate_floats (A : Arithmetic) (op : CompareOp) (d d' : Datum) :
    (predicate true op).run A d d' = Meaning.compareFloats A op d d' := by
  cases d <;> cases d' <;> first | rfl | (cases op <;> rfl)

theorem compareLane_gives (op : CompareOp) (lane : Nat) (hl : m.Holds n s v d)
    (hr : m.Holds n s v' d') : Gives m (compareLane op v v' lane) n s
      (Meaning.compareScalars m.arithmetic op .float (d.lane lane) (d'.lane lane)) s.world := by
  refine (extractLane_gives lane hl).bind fun x n₁ s₁ h₁ hx hw₁ => ?_
  refine (extractLane_gives lane (hr.later h₁)).bind fun y n₂ s₂ h₂ hy hw₂ => ?_
  rw [← hw₁, ← hw₂, Meaning.compareScalars, ← run_predicate_floats]
  exact compare_gives _ (hx.later h₂) hy

/-- A comparison gives a truth value, if anything. -/
theorem compareFloats_cases (A : Arithmetic) (op : CompareOp) (d d' : Datum) :
    (∃ b, Meaning.compareFloats A op d d' = .bool b) ∨
      Meaning.compareFloats A op d d' = .undefined := by
  unfold Meaning.compareFloats
  split
  · exact .inl ⟨_, rfl⟩
  · exact .inr rfl

/-- The answer for the first lane is what the others are joined to. -/
theorem joined_cons (A : Arithmetic) (op : CompareOp) {first : Datum} (answers : List Datum)
    (hfirst : (∃ b, first = .bool b) ∨ first = .undefined) :
    Meaning.joined op (first :: answers) =
      answers.foldl ((if op = .ne then Ir.BinaryOp.or else .and).run A) first := by
  unfold Meaning.joined
  split <;> rcases hfirst with ⟨b, rfl⟩ | rfl <;> rfl

theorem compareLanes_gives (op : CompareOp) (lanes : Nat) (hl : m.Holds n s v d)
    (hr : m.Holds n s v' d') :
    GivesTyped m (compareLanes op v v' (lanes + 1)) n s .bool
      (Meaning.joined op ((List.range (lanes + 1)).map fun lane =>
        Meaning.compareScalars m.arithmetic op .float (d.lane lane) (d'.lane lane))) s.world := by
  have hfirst : (∃ b, Meaning.compareScalars m.arithmetic op .float (d.lane 0) (d'.lane 0) = .bool b) ∨
      Meaning.compareScalars m.arithmetic op .float (d.lane 0) (d'.lane 0) = .undefined :=
    compareFloats_cases _ _ _ _
  rw [List.range_succ_eq_map, List.map_cons, List.map_map, joined_cons m.arithmetic op _ hfirst,
    List.foldl_map]
  refine (compareLane_gives op 0 hl hr).bind fun first n₁ s₁ h₁ hfirst hw₁ => ?_
  rw [← hw₁]
  refine Gives.typed (foldlM_gives _ (fun w e lane n₂ s₂ h₂ hw => ?_) hfirst) .bool
  refine (compareLane_gives op (lane + 1) (hl.later (h₁.trans h₂))
    (hr.later (h₁.trans h₂))).bind fun holds n₃ s₃ h₃ hholds hw₃ => ?_
  rw [← hw₃]
  exact binary_gives _ .i1 (hw.later h₃) hholds

theorem brought_self (A : Arithmetic) (t : Ty) (d : Datum) : Meaning.brought A t t d = d := by
  cases t <;> rfl

theorem arithmeticView_bool_gives (ha : HoldsTyped m n s a .bool d) :
    GivesTyped m (arithmeticView a) n s .int (Meaning.scalar m.arithmetic .bool .int d) s.world := by
  obtain ⟨value, ty⟩ := a
  obtain ⟨rfl, hv⟩ := ha
  exact (convert_gives .boolToInt hv).typed .int

theorem compare_shaped_gives (op : CompareOp) (hshape : t.isShaped = true)
    (hl : HoldsTyped m n s left t d) (hr : HoldsTyped m n s right t d') :
    GivesTyped m (compare op left right) n s .bool (Meaning.compared m.arithmetic op t d d')
      s.world := by
  have harith := Ty.isArithmetic_of_isShaped hshape
  have hbool : t ≠ .bool := by rintro rfl; cases hshape
  obtain ⟨lanes, hlanes⟩ := Nat.exists_eq_add_one_of_ne_zero
    (Nat.ne_of_gt (Ty.lanes_pos_of_isShaped hshape))
  unfold compare
  rw [hl.ty, hr.ty, if_neg (by simp [hbool]), arithmeticView_eq (hl.ty ▸ harith),
    arithmeticView_eq (hr.ty ▸ harith)]
  simp only [pure_bind, hl.ty, hr.ty, shapeOf?, hshape, if_true]
  refine (coerce_gives (.inl rfl) hl).bind fun v n₁ s₁ h₁ hv hw₁ => ?_
  refine (coerce_gives (.inl rfl) (hr.later h₁)).bind fun v' n₂ s₂ h₂ hv' hw₂ => ?_
  rw [brought_self] at hv hv'
  rw [Meaning.compared, if_pos hshape, ← hw₁, ← hw₂, hlanes]
  exact compareLanes_gives op lanes (hv.later h₂) hv'

theorem compare_int_gives (op : CompareOp) (hl : HoldsTyped m n s left .int d)
    (hr : HoldsTyped m n s right .int d') :
    GivesTyped m (compare op left right) n s .bool (Meaning.compared m.arithmetic op .int d d')
      s.world := by
  unfold compare
  rw [hl.ty, hr.ty, if_neg (by simp), arithmeticView_eq (by rw [hl.ty]; rfl),
    arithmeticView_eq (by rw [hr.ty]; rfl)]
  simp only [pure_bind, hl.ty, hr.ty]
  have hcompare := (compare_gives (predicate false op) hl.value hr.value).typed .bool
  rw [run_predicate_ints] at hcompare
  exact hcompare

theorem compare_float_gives (op : CompareOp) (hl : HoldsTyped m n s left .float d)
    (hr : HoldsTyped m n s right .float d') :
    GivesTyped m (compare op left right) n s .bool (Meaning.compared m.arithmetic op .float d d')
      s.world := by
  unfold compare
  rw [hl.ty, hr.ty, if_neg (by simp), arithmeticView_eq (by rw [hl.ty]; rfl),
    arithmeticView_eq (by rw [hr.ty]; rfl)]
  simp only [pure_bind, hl.ty, hr.ty]
  refine (coerce_gives (.inl rfl) hl).bind fun v n₁ s₁ h₁ hv hw₁ => ?_
  refine (coerce_gives (.inl rfl) (hr.later h₁)).bind fun v' n₂ s₂ h₂ hv' hw₂ => ?_
  have hcompare := (compare_gives (predicate true op) (hv.later h₂) hv').typed .bool
  rw [run_predicate_floats, hw₂, hw₁] at hcompare
  exact hcompare

theorem compare_bool_gives (op : CompareOp) (hl : HoldsTyped m n s left .bool d)
    (hr : HoldsTyped m n s right .bool d') :
    GivesTyped m (compare op left right) n s .bool (Meaning.compared m.arithmetic op .bool d d')
      s.world := by
  have hcompared : Meaning.compared m.arithmetic op .bool d d' =
      Meaning.compareScalars m.arithmetic op .bool d d' := rfl
  unfold compare
  rw [hl.ty, hr.ty, hcompared, Meaning.compareScalars]
  by_cases hop : op = .eq ∨ op = .ne
  · have heq : isEquality op = true := by rcases hop with rfl | rfl <;> rfl
    rw [if_pos ⟨rfl, rfl, heq⟩, if_pos hop, ← run_predicate_ints]
    exact (compare_gives _ hl.value hr.value).typed .bool
  · have hne : isEquality op = false := by cases op <;> simp_all [isEquality]
    rw [if_neg (by simp [hne]), if_neg hop]
    refine (arithmeticView_bool_gives hl).bind fun a n₁ s₁ h₁ ha hw₁ => ?_
    refine (arithmeticView_bool_gives (hr.later h₁)).bind fun b n₂ s₂ h₂ hb hw₂ => ?_
    simp only [ha.ty, hb.ty]
    rw [← hw₁, ← hw₂, ← run_predicate_ints]
    exact (compare_gives _ (ha.value.later h₂) hb.value).typed .bool

theorem comparison_gives (op : CompareOp) (ht : Typing.isComparable t = true) (hne : t ≠ .error)
    (hl : HoldsTyped m n s left t d) (hr : HoldsTyped m n s right t d') :
    GivesTyped m (compare op left right) n s .bool (Meaning.compared m.arithmetic op t d d')
      s.world := by
  cases t with
  | int => exact compare_int_gives op hl hr
  | float => exact compare_float_gives op hl hr
  | bool => exact compare_bool_gives op hl hr
  | vec2 | vec3 | vec4 | mat2 | mat3 | mat4 => exact compare_shaped_gives op rfl hl hr
  | void | array => cases ht
  | error => exact absurd rfl hne

/-! ## Truth values -/

theorem logic_gives (op : LogicOp) (hl : HoldsTyped m n s left .bool d)
    (hr : HoldsTyped m n s right .bool d') :
    GivesTyped m (logic op left right) n s .bool
      (Meaning.binary m.arithmetic (.logic op) .bool .bool d d') s.world := by
  refine (coerce_gives (.inl rfl) hl).bind fun v n₁ s₁ h₁ hv hw₁ => ?_
  refine (coerce_gives (.inl rfl) (hr.later h₁)).bind fun v' n₂ s₂ h₂ hv' hw₂ => ?_
  rw [← hw₁, ← hw₂]
  cases op <;> exact (binary_gives _ .i1 (hv.later h₂) hv').typed .bool

theorem negated_gives (ha : HoldsTyped m n s a .bool d) :
    GivesTyped m (negated a) n s .bool (Meaning.negated d) s.world := by
  refine (coerce_gives (.inl rfl) ha).bind fun v n₁ s₁ _ hv hw₁ => ?_
  have htrue : m.Holds n₁ s₁ (.bool true) (.bool true) := .constant rfl rfl
  have hxor := (binary_gives .xor .i1 hv htrue).typed .bool
  have hnegated : Ir.BinaryOp.xor.run m.arithmetic d (.bool true) = Meaning.negated d := by
    cases d with
    | bool b => cases b <;> rfl
    | _ => rfl
  rw [brought_self, hnegated, hw₁] at hxor
  exact hxor

theorem operation_gives {op : BinaryOp} (hop : Typing.binary? op t u = some r) (hne : r ≠ .error)
    (ht : t ≠ .error) (hu : u ≠ .error)
    (hl : HoldsTyped m n s left t d) (hr : HoldsTyped m n s right u d') :
    GivesTyped m (binary op left right) n s r (Meaning.binary m.arithmetic op t u d d') s.world := by
  cases op with
  | arith op => exact arith_gives op hop hne hl hr
  | compare op =>
    simp only [Typing.binary?, Typing.comparison?] at hop
    obtain ⟨rfl, rfl, hcomparable⟩ :
        r = .bool ∧ t = u ∧ Typing.isComparable t = true := by
      grind
    exact comparison_gives op hcomparable ht hl hr
  | logic op =>
    simp only [Typing.binary?] at hop
    obtain ⟨rfl, rfl, rfl⟩ : r = .bool ∧ t = .bool ∧ u = .bool := by grind
    exact logic_gives op hl hr

end Lowering

end ShaderLang
