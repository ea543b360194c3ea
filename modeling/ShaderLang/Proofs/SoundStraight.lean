import ShaderLang.Lowering.Place
import ShaderLang.Proofs.Spot

/-!
# What straight-line helpers read

Coercions, operations and accesses to places read their operands, constants and what they have
computed themselves, whatever the types of the operands. So what they give is known as soon as the
operands are.
-/

namespace ShaderLang.Lowering

open Ir (Build Spot)

variable {strict : Prop} {s s' : Spot}

theorem knows_int {n : Int64} : s.Knows (.int n) :=
  Spot.knows_of_temp?_eq_none rfl

theorem knows_float {x : Float} : s.Knows (.float x) :=
  Spot.knows_of_temp?_eq_none rfl

theorem knows_undefined : s.Knows .undefined :=
  Spot.knows_of_temp?_eq_none rfl

theorem knows_vector {lanes : List Float} : s.Knows (.vector lanes) :=
  Spot.knows_of_temp?_eq_none rfl

/-! ## Coercions -/

theorem spill_adds {array : TypedValue} (h : s.Knows array.value) :
    Adds strict s (spill array) fun s' v => s'.Knows v := by
  apply Adds.alloca.bind
  intro s₁ slot h₁ hslot
  apply (Adds.store hslot (h₁.knows h)).bind
  intro s₂ _ h₂ _
  exact .pure (h₂.knows hslot)

theorem splat_adds {scalar : Ir.Value} {lanes : Nat} (h : s.Knows scalar) :
    Adds strict s (splat scalar lanes) fun s' v => s'.Knows v := by
  apply Adds.foldlM (I := fun s' v => s'.Knows v) _ _ knows_undefined
  intro s₁ vector lane h₁ _ hvector
  exact .insertLane hvector (h₁.knows h)

theorem convertScalar_adds {scalar : TypedValue} {target : Ty} (h : s.Knows scalar.value) :
    Adds strict s (convertScalar scalar target) fun s' v => s'.Knows v := by
  unfold convertScalar
  split
  · exact .pure h
  · split
    · exact .convert h
    · exact .convert h
    · exact .convert h
    · exact .convert h
    · exact .compare h knows_int
    · exact .compare h knows_float
    · exact .throw nofun

theorem scalarOf_adds {value : Ir.Value} {ty : Ty} (h : s.Knows value) :
    Adds strict s (scalarOf value ty) fun s' a => s'.Knows a.value := by
  induction ty generalizing value s with
  | int | float | bool => exact .pure h
  | void | error => exact .pure knows_int
  | array element length ih =>
    apply Adds.bind (spill_adds h)
    intro s₁ slot h₁ hslot
    apply (Adds.elementAddress hslot knows_int).bind
    intro s₂ first h₂ hfirst
    apply (Adds.load hfirst).bind
    intro s₃ loaded h₃ hloaded
    exact ih hloaded
  | vec2 | vec3 | vec4 | mat2 | mat3 | mat4 =>
    apply (Adds.extractLane h).bind
    intro s₁ lane h₁ hlane
    exact .pure hlane

/-- A lane of a scalar, in as many lanes as a shape has. -/
theorem spread_adds {typed : TypedValue} {lanes : Nat} (h : s.Knows typed.value) :
    Adds strict s (scalarOf typed.value typed.ty >>= fun scalar =>
      convertScalar scalar .float >>= fun lane => splat lane lanes) fun s' v => s'.Knows v := by
  apply (scalarOf_adds h).bind
  intro s₁ scalar h₁ hscalar
  apply (convertScalar_adds hscalar).bind
  intro s₂ lane h₂ hlane
  exact splat_adds hlane

theorem coerce_adds {typed : TypedValue} {target : Ty} (h : s.Knows typed.value) :
    Adds strict s (coerce typed target) fun s' v => s'.Knows v := by
  induction target generalizing typed s with
  | void =>
    unfold coerce
    split
    · exact .pure h
    · exact .pure knows_undefined
  | error =>
    unfold coerce
    split
    · exact .pure h
    · exact .throw nofun
  | int | float | bool =>
    unfold coerce
    split
    · exact .pure h
    · apply (scalarOf_adds h).bind
      intro s₁ scalar h₁ hscalar
      exact convertScalar_adds hscalar
  | vec2 | vec3 | vec4 | mat2 | mat3 | mat4 =>
    unfold coerce
    split
    · exact .pure h
    · dsimp only
      split
      · split
        · exact .pure h
        · apply (Adds.extractLane h).bind
          intro s₁ lane h₁ hlane
          exact splat_adds hlane
      · exact spread_adds h
  | array element length ih =>
    unfold coerce
    split
    · exact .pure h
    · apply Adds.alloca.bind
      intro s₁ slot h₁ hslot
      dsimp only
      split
      · apply (spill_adds (h₁.knows h)).bind
        intro s₂ spilled h₂ hspilled
        apply Adds.bind (P := fun _ _ => True)
        · apply Adds.forM
          intro s₃ k h₃ _
          apply (Adds.elementAddress (h₃.knows hspilled) knows_int).bind
          intro s₄ address h₄ haddress
          apply (Adds.load haddress).bind
          intro s₅ value h₅ hvalue
          apply (ih hvalue).bind
          intro s₆ value h₆ hvalue
          have hafter := h₂.trans (h₃.trans (h₄.trans (h₅.trans h₆)))
          apply (Adds.elementAddress (hafter.knows hslot) knows_int).bind
          intro s₇ address h₇ haddress
          exact .store haddress (h₇.knows hvalue)
        · intro s₃ _ h₃ _
          exact .load ((h₂.trans h₃).knows hslot)
      · apply (ih (h₁.knows h)).bind
        intro s₂ value h₂ hvalue
        apply Adds.bind (P := fun _ _ => True)
        · apply Adds.forM
          intro s₃ k h₃ _
          apply (Adds.elementAddress ((h₂.trans h₃).knows hslot) knows_int).bind
          intro s₄ address h₄ haddress
          exact .store haddress ((h₃.trans h₄).knows hvalue)
        · intro s₃ _ h₃ _
          exact .load ((h₂.trans h₃).knows hslot)

theorem arithmeticView_adds {typed : TypedValue} (h : s.Knows typed.value) :
    Adds strict s (arithmeticView typed) fun s' a => s'.Knows a.value := by
  unfold arithmeticView
  split
  · exact .pure h
  · apply (scalarOf_adds h).bind
    intro s₁ scalar h₁ hscalar
    split
    · apply (Adds.convert hscalar).bind
      intro s₂ value h₂ hvalue
      exact .pure hvalue
    · exact .pure hscalar

/-! ## Operations -/

theorem zeroOf_adds {ty : Ty} : Adds strict s (zeroOf ty) fun s' v => s'.Knows v := by
  unfold zeroOf
  split
  · exact .pure knows_int
  · exact .pure knows_float
  · split
    · exact .pure knows_vector
    · exact .throw nofun

theorem unitOf_adds {ty : Ty} : Adds strict s (unitOf ty) fun s' v => s'.Knows v := by
  unfold unitOf
  split
  · exact .pure knows_int
  · exact .pure knows_float
  · split
    · exact splat_adds knows_float
    · exact .throw nofun

section

variable {left right : TypedValue} (hl : s.Knows left.value) (hr : s.Knows right.value)

include hl hr

/-- Both operands are brought to a type, and the rest goes on with them. -/
theorem coerceBoth_adds {α : Type} {leftTy rightTy : Ty} {k : Ir.Value → Ir.Value → Emit α}
    {Q : Spot → α → Prop}
    (hk : ∀ s' lhs rhs, s.Before s' → s'.Knows lhs → s'.Knows rhs → Adds strict s' (k lhs rhs) Q) :
    Adds strict s (coerce left leftTy >>= fun lhs => coerce right rightTy >>= fun rhs => k lhs rhs)
      Q := by
  apply (coerce_adds hl).bind
  intro s₁ lhs h₁ hlhs
  apply (coerce_adds (h₁.knows hr)).bind
  intro s₂ rhs h₂ hrhs
  exact hk s₂ lhs rhs (h₁.trans h₂) (h₂.knows hlhs) hrhs

theorem arith_adds {op : ArithOp} :
    Adds strict s (arith op left right) fun s' a => s'.Knows a.value := by
  apply (arithmeticView_adds hl).bind
  intro s₁ left' h₁ hleft
  apply (arithmeticView_adds (h₁.knows hr)).bind
  intro s₂ right' h₂ hright
  apply coerceBoth_adds (h₂.knows hleft) hright
  intro s₃ lhs rhs h₃ hlhs hrhs
  apply (Adds.binary hlhs hrhs).bind
  intro s₄ value h₄ hvalue
  exact .pure hvalue

omit hl hr in
theorem compareLane_adds {op : CompareOp} {lhs rhs : Ir.Value} {lane : Nat} (hl : s.Knows lhs)
    (hr : s.Knows rhs) : Adds strict s (compareLane op lhs rhs lane) fun s' v => s'.Knows v := by
  apply (Adds.extractLane hl).bind
  intro s₁ a h₁ ha
  apply (Adds.extractLane (h₁.knows hr)).bind
  intro s₂ b h₂ hb
  exact .compare (h₂.knows ha) hb

omit hl hr in
theorem compareLanes_adds {op : CompareOp} {lhs rhs : Ir.Value} {lanes : Nat} (hl : s.Knows lhs)
    (hr : s.Knows rhs) :
    Adds strict s (compareLanes op lhs rhs lanes) fun s' a => s'.Knows a.value := by
  unfold compareLanes
  split
  · exact .throw nofun
  · apply (compareLane_adds hl hr).bind
    intro s₁ first h₁ hfirst
    apply Adds.bind (P := fun s' v => s'.Knows v)
    · apply Adds.foldlM _ _ hfirst
      intro s₂ result lane h₂ _ hresult
      apply (compareLane_adds ((h₁.trans h₂).knows hl) ((h₁.trans h₂).knows hr)).bind
      intro s₃ holds h₃ hholds
      exact .binary (h₃.knows hresult) hholds
    · intro s₂ value h₂ hvalue
      exact .pure hvalue

theorem compare_adds {op : CompareOp} :
    Adds strict s (compare op left right) fun s' a => s'.Knows a.value := by
  unfold compare
  split
  · apply (Adds.compare hl hr).bind
    intro s₁ value h₁ hvalue
    exact .pure hvalue
  · apply (arithmeticView_adds hl).bind
    intro s₁ left' h₁ hleft
    apply (arithmeticView_adds (h₁.knows hr)).bind
    intro s₂ right' h₂ hright
    split
    · apply coerceBoth_adds (h₂.knows hleft) hright
      intro s₃ lhs rhs h₃ hlhs hrhs
      exact compareLanes_adds hlhs hrhs
    · split
      · apply (Adds.compare (h₂.knows hleft) hright).bind
        intro s₃ value h₃ hvalue
        exact .pure hvalue
      · apply coerceBoth_adds (h₂.knows hleft) hright
        intro s₃ lhs rhs h₃ hlhs hrhs
        apply (Adds.compare hlhs hrhs).bind
        intro s₄ value h₄ hvalue
        exact .pure hvalue

theorem logic_adds {op : LogicOp} :
    Adds strict s (logic op left right) fun s' a => s'.Knows a.value := by
  apply coerceBoth_adds hl hr
  intro s₁ lhs rhs h₁ hlhs hrhs
  apply (Adds.binary hlhs hrhs).bind
  intro s₂ value h₂ hvalue
  exact .pure hvalue

theorem binary_adds {op : BinaryOp} :
    Adds strict s (binary op left right) fun s' a => s'.Knows a.value := by
  cases op with
  | arith op => exact arith_adds hl hr
  | compare op => exact compare_adds hl hr
  | logic op => exact logic_adds hl hr

end

section

variable {operand : TypedValue} (h : s.Knows operand.value)

include h

theorem signed_adds {op : ArithOp} :
    Adds strict s (signed op operand) fun s' a => s'.Knows a.value := by
  apply (arithmeticView_adds h).bind
  intro s₁ viewed h₁ hviewed
  apply zeroOf_adds.bind
  intro s₂ zero h₂ hzero
  apply (Adds.binary hzero (h₂.knows hviewed)).bind
  intro s₃ value h₃ hvalue
  exact .pure hvalue

theorem negated_adds : Adds strict s (negated operand) fun s' a => s'.Knows a.value := by
  apply (coerce_adds h).bind
  intro s₁ truth h₁ htruth
  apply (Adds.binary htruth (Spot.knows_of_temp?_eq_none rfl)).bind
  intro s₂ value h₂ hvalue
  exact .pure hvalue

theorem argumentLanes_adds :
    Adds strict s (argumentLanes operand) fun s' lanes => ∀ v ∈ lanes, s'.Knows v := by
  unfold argumentLanes
  split
  · apply Adds.mapM (P := fun s' v => s'.Knows v)
    · exact fun _ _ _ hbefore hv => hbefore.knows hv
    · intro s₁ lane h₁ _
      exact .extractLane (h₁.knows h)
  · apply (coerce_adds h).bind
    intro s₁ lane h₁ hlane
    exact .pure (by simpa using hlane)

end

theorem vectorOfLanes_adds {lanes : List Ir.Value} (h : ∀ v ∈ lanes, s.Knows v) :
    Adds strict s (vectorOfLanes lanes) fun s' v => s'.Knows v := by
  unfold vectorOfLanes
  split
  · exact .pure knows_vector
  · apply Adds.foldlM (I := fun s' v => s'.Knows v) _ _ knows_undefined
    rintro s₁ vector ⟨value, lane⟩ h₁ hmem hvector
    have hvalue := h value (List.fst_mem_of_mem_zipIdx hmem)
    exact .insertLane hvector (h₁.knows hvalue)

theorem knows_fitLanes {width : Nat} {lanes : List Ir.Value} (h : ∀ v ∈ lanes, s.Knows v) :
    ∀ v ∈ fitLanes width lanes, s.Knows v := by
  intro v hv
  rcases List.mem_append.mp (List.mem_of_mem_take hv) with hlane | hzero
  · exact h v hlane
  · rw [List.eq_of_mem_replicate hzero]
    exact knows_float

section

variable {arguments : List TypedValue} (h : ∀ a ∈ arguments, s.Knows a.value)

include h

theorem concatenated_adds {width : Nat} :
    Adds strict s (concatenated width arguments) fun s' v => s'.Knows v := by
  apply Adds.bind (P := fun s' rows => ∀ row ∈ rows, ∀ v ∈ row, s'.Knows v)
  · apply Adds.mapM (P := fun s' row => ∀ v ∈ row, s'.Knows v)
    · exact fun _ _ _ hbefore hrow v hv => hbefore.knows (hrow v hv)
    · intro s₁ argument h₁ hmem
      exact argumentLanes_adds (h₁.knows (h argument hmem))
  · intro s₁ rows h₁ hrows
    apply vectorOfLanes_adds
    apply knows_fitLanes
    intro v hv
    obtain ⟨row, hrow, hmem⟩ := List.mem_flatten.mp hv
    exact hrows row hrow v hmem

theorem shaped_adds {width : Nat} :
    Adds strict s (shaped width arguments) fun s' v => s'.Knows v := by
  unfold shaped
  split
  · next single =>
    split
    · exact concatenated_adds h
    · apply (coerce_adds (h single List.mem_cons_self)).bind
      intro s₁ scalar h₁ hscalar
      split
      · exact .pure knows_vector
      · exact splat_adds hscalar
  · exact concatenated_adds h

theorem construct_adds {target : Ty} :
    Adds strict s (construct target arguments) fun s' a => s'.Knows a.value := by
  unfold construct
  split
  · apply (shaped_adds h).bind
    intro s₁ value h₁ hvalue
    exact .pure hvalue
  · split
    · exact .throw nofun
    · next first rest =>
      split
      · apply (coerce_adds (h first List.mem_cons_self)).bind
        intro s₁ value h₁ hvalue
        exact .pure hvalue
      · exact .throw nofun

end

theorem maskOf_adds {field : String} {Q : Spot → List Nat → Prop} (h : ∀ mask, Q s mask) :
    Adds strict s (maskOf field) Q :=
  .orFault nofun fun mask _ => h mask

theorem selectLanes_adds {vector : Ir.Value} {lanes : List Nat} (h : s.Knows vector) :
    Adds strict s (selectLanes vector lanes) fun s' a => s'.Knows a.value := by
  unfold selectLanes
  split
  · apply (Adds.extractLane h).bind
    intro s₁ value h₁ hvalue
    exact .pure hvalue
  · apply (Adds.shuffle h).bind
    intro s₁ value h₁ hvalue
    exact .pure hvalue

theorem selectFrom_adds {base : TypedValue} {lanes : List Nat} (h : s.Knows base.value) :
    Adds strict s (selectFrom base lanes) fun s' a => s'.Knows a.value := by
  unfold selectFrom
  split
  · exact selectLanes_adds h
  · apply (coerce_adds h).bind
    intro s₁ vector h₁ hvector
    exact selectLanes_adds hvector

/-! ## Places -/

/-- The address of a place. -/
def Place.address : Place → Ir.Value
  | whole address _ | lanes address _ _ => address

theorem loadLanes_adds {address : Ir.Value} {baseTy : Ty} {lanes : List Nat} (h : s.Knows address) :
    Adds strict s (loadLanes address baseTy lanes) fun s' a => s'.Knows a.value := by
  apply (Adds.load h).bind
  intro s₁ base h₁ hbase
  exact selectLanes_adds hbase

/-- What has been changed in a vector is written back to where the vector was read. -/
theorem writeLane_adds {address base value : Ir.Value} {lane : Nat} (ha : s.Knows address)
    (hb : s.Knows base) (hv : s.Knows value) :
    Adds strict s (liftM (Build.insertLane base value lane) >>= fun updated =>
      liftM (Build.store address updated)) fun _ _ => True := by
  apply (Adds.insertLane hb hv).bind
  intro s₁ updated h₁ hupdated
  exact .store (h₁.knows ha) hupdated

theorem storeLane_adds {address value : Ir.Value} {baseTy : Ty} {lane : Nat} (ha : s.Knows address)
    (hv : s.Knows value) :
    Adds strict s (storeLane address baseTy lane value) fun _ _ => True := by
  apply (Adds.load ha).bind
  intro s₁ base h₁ hbase
  exact writeLane_adds (h₁.knows ha) hbase (h₁.knows hv)

theorem stepLane_adds {op : ArithOp} {address : Ir.Value} {baseTy : Ty} {lane : Nat}
    (ha : s.Knows address) :
    Adds strict s (stepLane op address baseTy lane) fun _ _ => True := by
  apply (Adds.load ha).bind
  intro s₁ base h₁ hbase
  apply (Adds.extractLane hbase).bind
  intro s₂ x h₂ hx
  apply (Adds.binary hx knows_float).bind
  intro s₃ stepped h₃ hstepped
  have hbefore := h₁.trans (h₂.trans h₃)
  exact writeLane_adds (hbefore.knows ha) ((h₂.trans h₃).knows hbase) hstepped

namespace Place

theorem storeLanes_adds {address : Ir.Value} {baseTy : Ty} {lanes : List Nat} {value : TypedValue}
    (ha : s.Knows address) (hv : s.Knows value.value) :
    Adds strict s (storeLanes address baseTy lanes value) fun s' a => s'.Knows a.value := by
  unfold storeLanes
  split
  · apply Adds.bind (P := fun _ _ => True)
    · apply Adds.forM
      rintro s₁ ⟨lane, i⟩ h₁ _
      apply (Adds.extractLane (h₁.knows hv)).bind
      intro s₂ source h₂ hsource
      exact storeLane_adds ((h₁.trans h₂).knows ha) hsource
    · intro s₁ _ h₁ _
      exact .pure (h₁.knows hv)
  · apply (coerce_adds hv).bind
    intro s₁ scalar h₁ hscalar
    apply Adds.bind (P := fun _ _ => True)
    · apply Adds.forM
      intro s₂ lane h₂ _
      exact storeLane_adds ((h₁.trans h₂).knows ha) (h₂.knows hscalar)
    · intro s₂ _ h₂ _
      exact .pure (h₂.knows hscalar)

variable {place : Place} (h : s.Knows place.address)

include h

theorem load_adds : Adds strict s place.load fun s' a => s'.Knows a.value := by
  cases place with
  | whole address ty =>
    apply (Adds.load h).bind
    intro s₁ value h₁ hvalue
    exact .pure hvalue
  | lanes address baseTy selected => exact loadLanes_adds h

theorem store_adds {value : TypedValue} (hv : s.Knows value.value) :
    Adds strict s (place.store value) fun s' a => s'.Knows a.value := by
  cases place with
  | whole address ty =>
    apply (coerce_adds hv).bind
    intro s₁ stored h₁ hstored
    apply (Adds.store (h₁.knows h) hstored).bind
    intro s₂ _ h₂ _
    exact .pure (h₂.knows hstored)
  | lanes address baseTy selected => exact storeLanes_adds h hv

theorem step_adds {op : ArithOp} {givesOld : Bool} :
    Adds strict s (place.step op givesOld) fun s' a => s'.Knows a.value := by
  cases place with
  | whole address ty =>
    apply (Adds.load h).bind
    intro s₁ current h₁ hcurrent
    apply unitOf_adds.bind
    intro s₂ unit h₂ hunit
    apply (Adds.binary (h₂.knows hcurrent) hunit).bind
    intro s₃ updated h₃ hupdated
    have hbefore := h₁.trans (h₂.trans h₃)
    apply (Adds.store (hbefore.knows h) hupdated).bind
    intro s₄ _ h₄ _
    apply Adds.pure
    cases givesOld with
    | false => exact h₄.knows hupdated
    | true => exact (h₂.trans (h₃.trans h₄)).knows hcurrent
  | lanes address baseTy selected =>
    have hsteps : ∀ {s' : Spot}, s.Before s' →
        Adds strict s' (selected.forM (stepLane op address baseTy)) fun _ _ => True := by
      intro s' hbefore
      apply Adds.forM
      intro s'' lane hbefore' _
      exact stepLane_adds ((hbefore.trans hbefore').knows h)
    cases givesOld with
    | false =>
      apply (hsteps (.refl s)).bind
      intro s₁ _ h₁ _
      exact loadLanes_adds (h₁.knows h)
    | true =>
      apply Adds.bind (loadLanes_adds h)
      intro s₁ before h₁ hbefore
      apply (hsteps h₁).bind
      intro s₂ _ h₂ _
      exact .pure (h₂.knows hbefore)

theorem elementTy_adds : Adds strict s place.elementTy fun s' r => s'.Knows r.1 := by
  cases place with
  | whole address ty =>
    rw [elementTy]
    cases ty.element? with
    | some element => exact .pure h
    | none => exact .throw nofun
  | lanes address baseTy selected => exact .throw nofun

theorem select_adds {field : String} {mask : List Nat} :
    Adds strict s (place.select field mask) fun s' p => s'.Knows p.address := by
  cases place with
  | whole address ty => exact .pure h
  | lanes address baseTy selected =>
    rw [select]
    apply Adds.bind (P := fun s' _ => s'.Knows address)
    · exact .orFault nofun fun _ _ => h
    · intro s₁ composed h₁ haddress
      exact .pure haddress

end Place

end ShaderLang.Lowering
