import ShaderLang.Proofs.Keeps
import ShaderLang.Proofs.Straight

/-!
# Well-typed straight-line code

Coercions, operations and accesses to places add code that type-checks, and give values of the types
that they carry along. The source type beside a value decides the instructions, so each statement
asks that the operand has the intermediate type of its source type and says the same of the result.
-/

namespace ShaderLang.Lowering

open Ir (Build Inst Kind TypingEnv)

variable {env : TypingEnv} {kinds kinds' : List Kind}

/-- A value has the intermediate type of a source type. -/
abbrev HasTy (env : TypingEnv) (kinds : List Kind) (v : Ir.Value) (t : Ty) : Prop :=
  v.HasKind env kinds (.value t.toIr)

/-- A value is a vector of numbers. -/
abbrev IsVector (env : TypingEnv) (kinds : List Kind) (v : Ir.Value) (lanes : Nat) : Prop :=
  v.HasKind env kinds (.value (.vector .f32 lanes))

/-- A value is the address of something of a source type. -/
abbrev PointsTo (env : TypingEnv) (kinds : List Kind) (v : Ir.Value) (t : Ty) : Prop :=
  v.HasKind env kinds (.address t.toIr)

def TypedValue.Typed (env : TypingEnv) (kinds : List Kind) (a : TypedValue) : Prop :=
  HasTy env kinds a.value a.ty

theorem TypedValue.Typed.mono (h : kinds <+: kinds') {a : TypedValue} (ha : a.Typed env kinds) :
    a.Typed env kinds' :=
  Ir.Value.HasKind.mono h ha

theorem TypedValue.Typed.vector {a : TypedValue} (ha : a.Typed env kinds)
    (h : a.ty.isShaped = true) : IsVector env kinds a.value a.ty.lanes := by
  rw [IsVector, ← Ty.toIr_of_isShaped h]
  exact ha

theorem toIr_eq_of_isShaped {t u : Ty} (ht : t.isShaped = true) (hu : u.isShaped = true)
    (h : t.lanes = u.lanes) : t.toIr = u.toIr := by
  rw [Ty.toIr_of_isShaped ht, Ty.toIr_of_isShaped hu, h]

namespace Keeps

variable {Q : List Kind → Ir.Value → Prop}

theorem alloca {t : Ir.Ty} {name : String} :
    Keeps env kinds (liftM (Build.alloca t name)) fun k v => v.HasKind env k (.address t) :=
  emitValue (.address t) (fun hlast _ => .alloca hlast) id

theorem load {t : Ir.Ty} {a : Ir.Value} (ha : a.HasKind env kinds (.address t)) :
    Keeps env kinds (liftM (Build.load t a)) fun k v => v.HasKind env k (.value t) :=
  emitValue (.value t) (fun hlast hmore => .load (ha.mono hmore) hlast) id

theorem store {t : Ir.Ty} {a v : Ir.Value} (ha : a.HasKind env kinds (.address t))
    (hv : v.HasKind env kinds (.value t)) :
    Keeps env kinds (liftM (Build.store a v)) fun _ _ => True :=
  emit (.store ha hv) trivial

theorem binary {op : Ir.BinaryOp} {t : Ir.Ty} {l r : Ir.Value} (hop : op.AppliesTo t)
    (hl : l.HasKind env kinds (.value t)) (hr : r.HasKind env kinds (.value t)) :
    Keeps env kinds (liftM (Build.binary op t l r)) fun k v => v.HasKind env k (.value t) :=
  emitValue (.value t) (fun hlast hmore => .binary hop (hl.mono hmore) (hr.mono hmore) hlast) id

theorem compare {p : Ir.Predicate} {t : Ir.Ty} {l r : Ir.Value} (hp : p.Compares t)
    (hl : l.HasKind env kinds (.value t)) (hr : r.HasKind env kinds (.value t)) :
    Keeps env kinds (liftM (Build.compare p l r)) fun k v => HasTy env k v .bool :=
  emitValue (.value .i1) (fun hlast hmore => .compare hp (hl.mono hmore) (hr.mono hmore) hlast) id

theorem convert (op : Ir.Conversion) {v : Ir.Value} (hv : v.HasKind env kinds (.value op.source)) :
    Keeps env kinds (liftM (Build.convert op v)) fun k r => r.HasKind env k (.value op.target) := by
  rw [Build.convert_eq]
  split
  · next folded hfold =>
    refine pure ?_
    cases op <;> cases v <;> cases hfold
    · exact .float _
    · exact .int _
    · exact .int _
    · exact .float _
  · exact emitValue (.value op.target) (fun hlast hmore => .convert (hv.mono hmore) hlast) id

theorem extractLane {v : Ir.Value} {lane lanes : Nat} (hv : IsVector env kinds v lanes)
    (hlane : lane < lanes) :
    Keeps env kinds (liftM (Build.extractLane v lane)) fun k r => HasTy env k r .float := by
  rw [Build.extractLane_eq]
  split
  · next folded hfold =>
    refine pure ?_
    cases v <;> try cases hfold
    obtain ⟨x, -, rfl⟩ := Option.map_eq_some_iff.mp hfold
    exact .float x
  · exact emitValue (.value .f32) (fun hlast hmore => .extractLane (hv.mono hmore) hlane hlast) id

theorem insertLane {v x : Ir.Value} {lane lanes : Nat} (hv : IsVector env kinds v lanes)
    (hx : HasTy env kinds x .float) (hlane : lane < lanes) :
    Keeps env kinds (liftM (Build.insertLane v x lane)) fun k r => IsVector env k r lanes :=
  emitValue (.value (.vector .f32 lanes))
    (fun hlast hmore => .insertLane (hv.mono hmore) (hx.mono hmore) hlane hlast) id

theorem shuffle {v : Ir.Value} {lanes : Nat} {mask : List Nat} (hv : IsVector env kinds v lanes)
    (hmask : ∀ lane ∈ mask, lane < lanes) :
    Keeps env kinds (liftM (Build.shuffle v mask)) fun k r => IsVector env k r mask.length :=
  emitValue (.value (.vector .f32 mask.length))
    (fun hlast hmore => .shuffle (hv.mono hmore) hmask hlast) id

theorem elementAddress {base index : Ir.Value} {element : Ty} {length : Nat}
    (hb : PointsTo env kinds base (.array element length)) (hi : HasTy env kinds index .int) :
    Keeps env kinds (liftM (Build.elementAddress base index)) fun k r =>
      PointsTo env k r element := by
  have harray : base.HasKind env kinds (.address (.array element.toIr length)) := hb
  exact emitValue (.address element.toIr)
    (fun hlast hmore => .elementAddress (harray.mono hmore) (hi.mono hmore) hlast) id

end Keeps

/-! ## Coercions -/

theorem spill_keeps {array : TypedValue} (h : array.Typed env kinds) :
    Keeps env kinds (spill array) fun k v => PointsTo env k v array.ty := by
  refine Keeps.bind Keeps.alloca ?_
  intro kinds₁ slot hmore hslot
  refine Keeps.bind (Keeps.store hslot (h.mono hmore)) ?_
  intro kinds₂ _ hmore' _
  exact .pure (hslot.mono hmore')

theorem splat_keeps {scalar : Ir.Value} (hs : HasTy env kinds scalar .float) (lanes : Nat) :
    Keeps env kinds (splat scalar lanes) fun k v => IsVector env k v lanes := by
  refine Keeps.foldlM _ ?_ (.undefined _)
  intro kinds' v lane hmore hlane hv
  exact Keeps.insertLane hv (hs.mono hmore) (List.mem_range.mp hlane)

theorem convertScalar_keeps {scalar : TypedValue} (h : scalar.Typed env kinds) (target : Ty) :
    Keeps env kinds (convertScalar scalar target) fun k v => HasTy env k v target := by
  obtain ⟨value, source⟩ := scalar
  unfold convertScalar
  split
  · next heq =>
    subst heq
    exact .pure h
  · dsimp only
    split
    · exact Keeps.convert .intToFloat h
    · exact Keeps.convert .floatToInt h
    · exact Keeps.convert .boolToInt h
    · exact Keeps.convert .boolToFloat h
    · exact Keeps.compare (t := .i32) (.inl rfl) h (.int 0)
    · exact Keeps.compare (t := .f32) rfl h (.float 0.0)
    · exact .throw _

theorem scalarOf_keeps {value : Ir.Value} {t : Ty} (h : HasTy env kinds value t) :
    Keeps env kinds (scalarOf value t) fun k a => a.Typed env k ∧ a.ty.isScalar = true := by
  induction t generalizing value kinds with
  | int | float | bool => exact .pure ⟨h, rfl⟩
  | void | error => exact .pure ⟨.int 0, rfl⟩
  | vec2 | vec3 | vec4 | mat2 | mat3 | mat4 =>
    refine Keeps.bind (Keeps.extractLane h (by decide)) ?_
    intro kinds₁ lane _ hlane
    exact .pure ⟨hlane, rfl⟩
  | array element length ih =>
    have harray : TypedValue.Typed env kinds ⟨value, .array element length⟩ := h
    refine Keeps.bind (spill_keeps harray) ?_
    intro kinds₁ slot _ hslot
    refine Keeps.bind (Keeps.elementAddress hslot (.int 0)) ?_
    intro kinds₂ first _ hfirst
    refine Keeps.bind (Keeps.load hfirst) ?_
    intro kinds₃ value _ hvalue
    exact ih hvalue

theorem coerce_keeps {typed : TypedValue} (h : typed.Typed env kinds) (target : Ty) :
    Keeps env kinds (coerce typed target) fun k v => HasTy env k v target := by
  induction target generalizing typed kinds with
  | error =>
    unfold coerce
    split
    · next heq => exact .pure (heq ▸ h)
    · exact .throw _
  | void =>
    unfold coerce
    split
    · next heq => exact .pure (heq ▸ h)
    · exact .pure (.undefined _)
  | int | float | bool =>
    unfold coerce
    split
    · next heq => exact .pure (heq ▸ h)
    · refine Keeps.bind (scalarOf_keeps h) ?_
      intro kinds₁ scalar _ hscalar
      exact convertScalar_keeps hscalar.1 _
  | vec2 | vec3 | vec4 | mat2 | mat3 | mat4 =>
    unfold coerce
    split
    · next heq => exact .pure (heq ▸ h)
    · dsimp only
      split
      · next hshaped =>
        split
        · next hlanes =>
          refine .pure ?_
          rw [HasTy, ← toIr_eq_of_isShaped hshaped rfl hlanes]
          exact h
        · refine Keeps.bind (Keeps.extractLane (h.vector hshaped) (Ty.lanes_pos_of_isShaped hshaped)) ?_
          intro kinds₁ lane _ hlane
          exact splat_keeps hlane _
      · refine Keeps.bind (scalarOf_keeps h) ?_
        intro kinds₁ scalar _ hscalar
        refine Keeps.bind (convertScalar_keeps hscalar.1 .float) ?_
        intro kinds₂ lane _ hlane
        exact splat_keeps hlane _
  | array element length ih =>
    unfold coerce
    split
    · next heq => exact .pure (heq ▸ h)
    · refine Keeps.bind Keeps.alloca ?_
      intro kinds₁ slot hmore₁ hslot
      dsimp only
      split
      · next source sourceLength hty =>
        refine Keeps.bind (spill_keeps (h.mono hmore₁)) ?_
        intro kinds₂ spilled hmore₂ hspilled
        rw [hty] at hspilled
        have hslot₂ := hslot.mono hmore₂
        refine Keeps.bind (P := fun _ _ => True) (Keeps.forM _ ?_) ?_
        · intro kinds₃ k hmore₃ _
          refine Keeps.bind (Keeps.elementAddress (hspilled.mono hmore₃) (.int _)) ?_
          intro kinds₄ address hmore₄ haddress
          refine Keeps.bind (Keeps.load haddress) ?_
          intro kinds₅ value hmore₅ hvalue
          have hsource : TypedValue.Typed env kinds₅ ⟨value, source⟩ := hvalue
          refine Keeps.bind (ih hsource) ?_
          intro kinds₆ value hmore₆ hvalue
          have hmore := hmore₃.trans (hmore₄.trans (hmore₅.trans hmore₆))
          refine Keeps.bind (Keeps.elementAddress (hslot₂.mono hmore) (.int _)) ?_
          intro kinds₇ address hmore₇ haddress
          exact Keeps.store haddress (hvalue.mono hmore₇)
        · intro kinds₃ _ hmore₃ _
          exact Keeps.load (hslot₂.mono hmore₃)
      · refine Keeps.bind (ih (h.mono hmore₁)) ?_
        intro kinds₂ value hmore₂ hvalue
        have hslot₂ := hslot.mono hmore₂
        refine Keeps.bind (P := fun _ _ => True) (Keeps.forM _ ?_) ?_
        · intro kinds₃ k hmore₃ _
          refine Keeps.bind (Keeps.elementAddress (hslot₂.mono hmore₃) (.int _)) ?_
          intro kinds₄ address hmore₄ haddress
          exact Keeps.store haddress ((hvalue.mono hmore₃).mono hmore₄)
        · intro kinds₃ _ hmore₃ _
          exact Keeps.load (hslot₂.mono hmore₃)

theorem arithmeticView_keeps {typed : TypedValue} (h : typed.Typed env kinds) :
    Keeps env kinds (arithmeticView typed) fun k a => a.Typed env k ∧ a.ty.isArithmetic = true := by
  unfold arithmeticView
  split
  · next harith => exact .pure ⟨h, harith⟩
  · refine Keeps.bind (scalarOf_keeps h) ?_
    intro kinds₁ scalar _ ⟨hscalar, hty⟩
    split
    · next hbool =>
      rw [TypedValue.Typed, hbool] at hscalar
      refine Keeps.bind (Keeps.convert .boolToInt hscalar) ?_
      intro kinds₂ value _ hvalue
      exact .pure ⟨hvalue, rfl⟩
    · next hbool =>
      refine .pure ⟨hscalar, ?_⟩
      cases ht : scalar.ty <;> rw [ht] at hty hbool <;> first | rfl | exact absurd rfl hbool | cases hty

/-! ## Operations -/

theorem arithInst_appliesTo {t : Ty} (h : t.isArithmetic = true) (op : ArithOp) :
    (arithInst (t == .int) op).AppliesTo t.toIr := by
  cases t <;> cases op <;>
    first | rfl | exact .inl rfl | exact .inr ⟨_, rfl⟩ | cases h

theorem arithInst_float_appliesTo (op : ArithOp) : (arithInst false op).AppliesTo .f32 := by
  cases op <;> exact .inl rfl

theorem predicate_compares_float (op : CompareOp) : (predicate true op).Compares .f32 := by
  cases op <;> rfl

theorem predicate_compares_int (op : CompareOp) : (predicate false op).Compares .i32 := by
  cases op <;> exact .inl rfl

theorem predicate_compares_bool (op : CompareOp) : (predicate false op).Compares .i1 := by
  cases op <;> exact .inr rfl

theorem zeroOf_keeps (t : Ty) : Keeps env kinds (zeroOf t) fun k v => HasTy env k v t := by
  unfold zeroOf
  split
  · exact .pure (.int 0)
  · exact .pure (.float 0.0)
  · split
    · next hshaped =>
      refine .pure ?_
      have hv : Ir.Value.HasKind env kinds (.vector (List.replicate t.lanes 0.0)) _ := .vector _
      rw [List.length_replicate] at hv
      rw [HasTy, Ty.toIr_of_isShaped hshaped]
      exact hv
    · exact .throw _

theorem unitOf_keeps (t : Ty) : Keeps env kinds (unitOf t) fun k v =>
    HasTy env k v t ∧ t.isArithmetic = true := by
  unfold unitOf
  split
  · exact .pure ⟨.int 1, rfl⟩
  · exact .pure ⟨.float 1.0, rfl⟩
  · split
    · next hshaped =>
      refine (splat_keeps (.float 1.0) t.lanes).imp ?_
      intro kinds₁ v _ hv
      rw [HasTy, Ty.toIr_of_isShaped hshaped]
      exact ⟨hv, Ty.isArithmetic_of_isShaped hshaped⟩
    · exact .throw _

theorem arith_keeps (op : ArithOp) {left right : TypedValue} (hl : left.Typed env kinds)
    (hr : right.Typed env kinds) : Keeps env kinds (arith op left right) fun k a => a.Typed env k := by
  refine Keeps.bind (arithmeticView_keeps hl) ?_
  intro kinds₁ left' hmore₁ ⟨hleft, _⟩
  refine Keeps.bind (arithmeticView_keeps (hr.mono hmore₁)) ?_
  intro kinds₂ right' hmore₂ ⟨hright, _⟩
  have harith := meetingTy_isArithmetic left'.ty right'.ty
  refine Keeps.bind (coerce_keeps (hleft.mono hmore₂) _) ?_
  intro kinds₃ lhs hmore₃ hlhs
  refine Keeps.bind (coerce_keeps (hright.mono hmore₃) _) ?_
  intro kinds₄ rhs hmore₄ hrhs
  refine Keeps.bind (Keeps.binary (arithInst_appliesTo harith op) (hlhs.mono hmore₄) hrhs) ?_
  intro kinds₅ value _ hvalue
  exact .pure hvalue

theorem compareLane_keeps (op : CompareOp) {left right : Ir.Value} {lane lanes : Nat}
    (hl : IsVector env kinds left lanes) (hr : IsVector env kinds right lanes) (hlane : lane < lanes) :
    Keeps env kinds (compareLane op left right lane) fun k v => HasTy env k v .bool := by
  refine Keeps.bind (Keeps.extractLane hl hlane) ?_
  intro kinds₁ a hmore₁ ha
  refine Keeps.bind (Keeps.extractLane (hr.mono hmore₁) hlane) ?_
  intro kinds₂ b hmore₂ hb
  exact Keeps.compare (predicate_compares_float op) (ha.mono hmore₂) hb

theorem compareLanes_keeps (op : CompareOp) {left right : Ir.Value} {lanes : Nat}
    (hl : IsVector env kinds left lanes) (hr : IsVector env kinds right lanes) :
    Keeps env kinds (compareLanes op left right lanes) fun k a => a.Typed env k := by
  unfold compareLanes
  split
  · exact .throw _
  · next lanes =>
    refine Keeps.bind (compareLane_keeps op hl hr (Nat.succ_pos _)) ?_
    intro kinds₁ first hmore₁ hfirst
    refine Keeps.bind (P := fun k v => HasTy env k v .bool) (Keeps.foldlM _ ?_ hfirst) ?_
    · intro kinds₂ result lane hmore₂ hlane hresult
      have hmore := hmore₁.trans hmore₂
      have hlt := Nat.succ_lt_succ (List.mem_range.mp hlane)
      refine Keeps.bind (compareLane_keeps op (hl.mono hmore) (hr.mono hmore) hlt) ?_
      intro kinds₃ holds hmore₃ hholds
      refine Keeps.binary ?_ (hresult.mono hmore₃) hholds
      split <;> rfl
    · intro kinds₂ value _ hvalue
      exact .pure hvalue

theorem compare_keeps (op : CompareOp) {left right : TypedValue} (hl : left.Typed env kinds)
    (hr : right.Typed env kinds) :
    Keeps env kinds (compare op left right) fun k a => a.Typed env k := by
  unfold compare
  split
  · next hbool =>
    rw [TypedValue.Typed, hbool.1] at hl
    rw [TypedValue.Typed, hbool.2.1] at hr
    refine Keeps.bind (Keeps.compare (predicate_compares_bool op) hl hr) ?_
    intro kinds₁ value _ hvalue
    exact .pure hvalue
  · refine Keeps.bind (arithmeticView_keeps hl) ?_
    intro kinds₁ left' hmore₁ ⟨hleft, _⟩
    refine Keeps.bind (arithmeticView_keeps (hr.mono hmore₁)) ?_
    intro kinds₂ right' hmore₂ ⟨hright, _⟩
    replace hleft := hleft.mono hmore₂
    split
    · next shape hshape =>
      have hshaped := isShaped_of_shapeOf? hshape
      refine Keeps.bind (coerce_keeps hleft shape) ?_
      intro kinds₃ lhs hmore₃ hlhs
      refine Keeps.bind (coerce_keeps (hright.mono hmore₃) shape) ?_
      intro kinds₄ rhs hmore₄ hrhs
      rw [HasTy, Ty.toIr_of_isShaped hshaped] at hlhs hrhs
      exact compareLanes_keeps op (hlhs.mono hmore₄) hrhs
    · split
      · next hint =>
        rw [TypedValue.Typed, hint.1] at hleft
        rw [TypedValue.Typed, hint.2] at hright
        refine Keeps.bind (Keeps.compare (predicate_compares_int op) hleft hright) ?_
        intro kinds₃ value _ hvalue
        exact .pure hvalue
      · refine Keeps.bind (coerce_keeps hleft .float) ?_
        intro kinds₃ lhs hmore₃ hlhs
        refine Keeps.bind (coerce_keeps (hright.mono hmore₃) .float) ?_
        intro kinds₄ rhs hmore₄ hrhs
        refine Keeps.bind (Keeps.compare (predicate_compares_float op) (hlhs.mono hmore₄) hrhs) ?_
        intro kinds₅ value _ hvalue
        exact .pure hvalue

theorem logic_keeps (op : LogicOp) {left right : TypedValue} (hl : left.Typed env kinds)
    (hr : right.Typed env kinds) : Keeps env kinds (logic op left right) fun k a => a.Typed env k := by
  refine Keeps.bind (coerce_keeps hl .bool) ?_
  intro kinds₁ lhs hmore₁ hlhs
  refine Keeps.bind (coerce_keeps (hr.mono hmore₁) .bool) ?_
  intro kinds₂ rhs hmore₂ hrhs
  refine Keeps.bind (Keeps.binary ?_ (hlhs.mono hmore₂) hrhs) ?_
  · cases op <;> rfl
  · intro kinds₃ value _ hvalue
    exact .pure hvalue

theorem binary_keeps (op : BinaryOp) {left right : TypedValue} (hl : left.Typed env kinds)
    (hr : right.Typed env kinds) :
    Keeps env kinds (binary op left right) fun k a => a.Typed env k := by
  cases op with
  | arith op => exact arith_keeps op hl hr
  | compare op => exact compare_keeps op hl hr
  | logic op => exact logic_keeps op hl hr

theorem signed_keeps (op : ArithOp) {operand : TypedValue} (h : operand.Typed env kinds) :
    Keeps env kinds (signed op operand) fun k a => a.Typed env k := by
  refine Keeps.bind (arithmeticView_keeps h) ?_
  intro kinds₁ operand' _ ⟨hoperand, harith⟩
  refine Keeps.bind (zeroOf_keeps operand'.ty) ?_
  intro kinds₂ zero hmore₂ hzero
  refine Keeps.bind (Keeps.binary (arithInst_appliesTo harith op) hzero (hoperand.mono hmore₂)) ?_
  intro kinds₃ value _ hvalue
  exact .pure hvalue

theorem negated_keeps {operand : TypedValue} (h : operand.Typed env kinds) :
    Keeps env kinds (negated operand) fun k a => a.Typed env k := by
  refine Keeps.bind (coerce_keeps h .bool) ?_
  intro kinds₁ value _ hvalue
  refine Keeps.bind (Keeps.binary rfl hvalue (.bool true)) ?_
  intro kinds₂ value _ hvalue
  exact .pure hvalue

/-! ## Constructors -/

theorem argumentLanes_keeps {argument : TypedValue} (h : argument.Typed env kinds) :
    Keeps env kinds (argumentLanes argument) fun k lanes => ∀ v ∈ lanes, HasTy env k v .float := by
  unfold argumentLanes
  split
  · next hshaped =>
    refine Keeps.imp (Keeps.mapM (P := fun k v => HasTy env k v .float) ?_ _ ?_) ?_
    · intro _ _ _ hmore hv
      exact hv.mono hmore
    · intro kinds₁ lane hmore hlane
      exact Keeps.extractLane ((h.vector hshaped).mono hmore) (List.mem_range.mp hlane)
    · intro _ _ _ h
      exact h.2
  · refine Keeps.bind (coerce_keeps h .float) ?_
    intro kinds₁ lane _ hlane
    exact .pure (by simpa using hlane)

theorem vectorOfLanes_keeps {lanes : List Ir.Value} (h : ∀ v ∈ lanes, HasTy env kinds v .float) :
    Keeps env kinds (vectorOfLanes lanes) fun k v => IsVector env k v lanes.length := by
  unfold vectorOfLanes
  split
  · next constants hconstants =>
    rw [(forall₂_of_mapM hconstants).length_eq]
    exact .pure (.vector constants)
  · refine Keeps.foldlM (I := fun k v => IsVector env k v lanes.length) _ ?_ (.undefined _)
    rintro kinds₁ vector ⟨value, lane⟩ hmore hmem hvector
    obtain ⟨hlt, hvalue⟩ := List.mk_mem_zipIdx_iff_getElem?.mp hmem |> List.getElem?_eq_some_iff.mp
    refine Keeps.insertLane hvector ?_ hlt
    exact (h value (hvalue ▸ List.getElem_mem hlt)).mono hmore

theorem fitLanes_typed {lanes : List Ir.Value} (h : ∀ v ∈ lanes, HasTy env kinds v .float)
    (width : Nat) : (fitLanes width lanes).length = width ∧
      ∀ v ∈ fitLanes width lanes, HasTy env kinds v .float := by
  constructor
  · simp only [fitLanes, List.length_take, List.length_append, List.length_replicate]
    omega
  · intro v hv
    rcases List.mem_append.mp (List.mem_of_mem_take hv) with hv | hv
    · exact h v hv
    · rw [List.eq_of_mem_replicate hv]
      exact .float 0.0

theorem concatenated_keeps (width : Nat) {arguments : List TypedValue}
    (h : ∀ a ∈ arguments, a.Typed env kinds) :
    Keeps env kinds (concatenated width arguments) fun k v => IsVector env k v width := by
  refine Keeps.bind (Keeps.mapM
    (P := fun k lanes => ∀ v ∈ lanes, HasTy env k v .float) ?_ arguments ?_) ?_
  · intro _ _ lanes hmore hlanes v hv
    exact (hlanes v hv).mono hmore
  · intro kinds₁ a hmore ha
    exact argumentLanes_keeps ((h a ha).mono hmore)
  · intro kinds₁ lanes _ ⟨_, hlanes⟩
    have hall : ∀ v ∈ lanes.flatten, HasTy env kinds₁ v .float := by
      intro v hv
      obtain ⟨some, hsome, hv⟩ := List.mem_flatten.mp hv
      exact hlanes some hsome v hv
    obtain ⟨hlength, hfit⟩ := fitLanes_typed hall width
    have := vectorOfLanes_keeps hfit
    rwa [hlength] at this

theorem shaped_keeps (width : Nat) {arguments : List TypedValue}
    (h : ∀ a ∈ arguments, a.Typed env kinds) :
    Keeps env kinds (shaped width arguments) fun k v => IsVector env k v width := by
  unfold shaped
  split
  · next single =>
    split
    · exact concatenated_keeps width h
    · refine Keeps.bind (coerce_keeps (h single (by simp)) .float) ?_
      intro kinds₁ scalar _ hscalar
      split
      · next x =>
        have hv : Ir.Value.HasKind env kinds₁ (.vector (List.replicate width x)) _ := .vector _
        rw [List.length_replicate] at hv
        exact .pure hv
      · exact splat_keeps hscalar width
  · exact concatenated_keeps width h

theorem construct_keeps (target : Ty) {arguments : List TypedValue}
    (h : ∀ a ∈ arguments, a.Typed env kinds) :
    Keeps env kinds (construct target arguments) fun k a => a.Typed env k := by
  unfold construct
  split
  · next hshaped =>
    refine Keeps.bind (shaped_keeps target.lanes h) ?_
    intro kinds₁ value _ hvalue
    refine .pure ?_
    rw [TypedValue.Typed, HasTy, Ty.toIr_of_isShaped hshaped]
    exact hvalue
  · split
    · exact .throw _
    · next first rest =>
      split
      · refine Keeps.bind (coerce_keeps (h first List.mem_cons_self) target) ?_
        intro kinds₁ value _ hvalue
        exact .pure hvalue
      · exact .throw _

/-! ## Selections -/

/-- A selection that gives a number or a vector. -/
structure Selects (width : Nat) (lanes : List Nat) : Prop where
  pos : lanes.length ≠ 0
  le : lanes.length ≤ 4
  lt : ∀ lane ∈ lanes, lane < width

theorem selectLanes_keeps {vector : Ir.Value} {width : Nat} {lanes : List Nat}
    (hv : IsVector env kinds vector width) (hl : Selects width lanes) :
    Keeps env kinds (selectLanes vector lanes) fun k a => a.Typed env k := by
  unfold selectLanes
  split
  · next lane =>
    refine Keeps.bind (Keeps.extractLane hv (hl.lt lane (by simp))) ?_
    intro kinds₁ value _ hvalue
    exact .pure hvalue
  · next hne =>
    refine Keeps.bind (Keeps.shuffle hv hl.lt) ?_
    intro kinds₁ value _ hvalue
    refine .pure ?_
    have hlength : lanes.length ≠ 1 := by
      intro h
      obtain ⟨lane, rfl⟩ := List.length_eq_one_iff.mp h
      exact hne lane rfl
    have hpos := hl.pos
    have hle := hl.le
    rw [TypedValue.Typed, HasTy]
    generalize lanes.length = n at hlength hpos hle hvalue ⊢
    match n, hlength, hpos, hle with
    | 2, _, _, _ | 3, _, _, _ | 4, _, _, _ => exact hvalue

theorem selectFrom_keeps {base : TypedValue} {lanes : List Nat} (hb : base.Typed env kinds)
    (hl : Selects 4 lanes) :
    Keeps env kinds (selectFrom base lanes) fun k a => a.Typed env k := by
  unfold selectFrom
  split
  · next h =>
    simp only [Bool.and_eq_true, List.all_eq_true, decide_eq_true_eq] at h
    exact selectLanes_keeps (hb.vector h.1) ⟨hl.pos, hl.le, h.2⟩
  · refine Keeps.bind (coerce_keeps hb .vec4) ?_
    intro kinds₁ vector _ hvector
    exact selectLanes_keeps hvector hl

/-! ## Places -/

/-- The address of a place points to what the place is a part of. -/
def Place.Typed (env : TypingEnv) (kinds : List Kind) : Place → Prop
  | whole address ty => PointsTo env kinds address ty
  | lanes address baseTy selected =>
    PointsTo env kinds address baseTy ∧ baseTy.isShaped = true ∧ Selects baseTy.lanes selected

theorem Place.Typed.mono (h : kinds <+: kinds') {place : Place} (hp : place.Typed env kinds) :
    place.Typed env kinds' := by
  cases place with
  | whole address ty => exact Ir.Value.HasKind.mono h hp
  | lanes address baseTy selected => exact ⟨hp.1.mono h, hp.2⟩

theorem loadBase_keeps {address : Ir.Value} {baseTy : Ty} (ha : PointsTo env kinds address baseTy)
    (hs : baseTy.isShaped = true) :
    Keeps env kinds (liftM (Build.load baseTy.toIr address)) fun k v =>
      IsVector env k v baseTy.lanes := by
  have h := Keeps.load ha
  rw [Ty.toIr_of_isShaped hs] at h ⊢
  exact h

theorem storeBase_keeps {address value : Ir.Value} {baseTy : Ty}
    (ha : PointsTo env kinds address baseTy) (hs : baseTy.isShaped = true)
    (hv : IsVector env kinds value baseTy.lanes) :
    Keeps env kinds (liftM (Build.store address value)) fun _ _ => True := by
  rw [PointsTo, Ty.toIr_of_isShaped hs] at ha
  exact Keeps.store ha hv

theorem loadLanes_keeps {address : Ir.Value} {baseTy : Ty} {selected : List Nat}
    (ha : PointsTo env kinds address baseTy) (hs : baseTy.isShaped = true)
    (hl : Selects baseTy.lanes selected) :
    Keeps env kinds (loadLanes address baseTy selected) fun k a => a.Typed env k := by
  refine Keeps.bind (loadBase_keeps ha hs) ?_
  intro kinds₁ base _ hbase
  exact selectLanes_keeps hbase hl

theorem storeLane_keeps {address value : Ir.Value} {baseTy : Ty} {lane : Nat}
    (ha : PointsTo env kinds address baseTy) (hs : baseTy.isShaped = true)
    (hlane : lane < baseTy.lanes) (hv : HasTy env kinds value .float) :
    Keeps env kinds (storeLane address baseTy lane value) fun _ _ => True := by
  refine Keeps.bind (loadBase_keeps ha hs) ?_
  intro kinds₁ base hmore₁ hbase
  refine Keeps.bind (Keeps.insertLane hbase (hv.mono hmore₁) hlane) ?_
  intro kinds₂ updated hmore₂ hupdated
  exact storeBase_keeps ((ha.mono hmore₁).mono hmore₂) hs hupdated

theorem stepLane_keeps (op : ArithOp) {address : Ir.Value} {baseTy : Ty} {lane : Nat}
    (ha : PointsTo env kinds address baseTy) (hs : baseTy.isShaped = true)
    (hlane : lane < baseTy.lanes) :
    Keeps env kinds (stepLane op address baseTy lane) fun _ _ => True := by
  refine Keeps.bind (loadBase_keeps ha hs) ?_
  intro kinds₁ base hmore₁ hbase
  refine Keeps.bind (Keeps.extractLane hbase hlane) ?_
  intro kinds₂ x hmore₂ hx
  refine Keeps.bind (Keeps.binary (arithInst_float_appliesTo op) hx (.float 1.0)) ?_
  intro kinds₃ stepped hmore₃ hstepped
  have hmore := hmore₂.trans hmore₃
  refine Keeps.bind (Keeps.insertLane (hbase.mono hmore) hstepped hlane) ?_
  intro kinds₄ updated hmore₄ hupdated
  exact storeBase_keeps (ha.mono (hmore₁.trans (hmore.trans hmore₄))) hs hupdated

namespace Place

theorem load_keeps {place : Place} (h : place.Typed env kinds) :
    Keeps env kinds place.load fun k a => a.Typed env k := by
  cases place with
  | whole address ty =>
    refine Keeps.bind (Keeps.load h) ?_
    intro kinds₁ value _ hvalue
    exact .pure hvalue
  | lanes address baseTy selected => exact loadLanes_keeps h.1 h.2.1 h.2.2

theorem storeLanes_keeps {address : Ir.Value} {baseTy : Ty} {selected : List Nat} {value : TypedValue}
    (ha : PointsTo env kinds address baseTy) (hs : baseTy.isShaped = true)
    (hl : Selects baseTy.lanes selected) (hv : value.Typed env kinds) :
    Keeps env kinds (storeLanes address baseTy selected value) fun k a => a.Typed env k := by
  unfold storeLanes
  split
  · next hshaped =>
    refine Keeps.bind (P := fun _ _ => True) (Keeps.forM _ ?_) ?_
    · rintro kinds₁ ⟨lane, i⟩ hmore₁ hmem
      obtain ⟨hi, hlane⟩ := List.getElem?_eq_some_iff.mp (List.mk_mem_zipIdx_iff_getElem?.mp hmem)
      have hsource : (if value.ty.lanes = selected.length then i else 0) < value.ty.lanes := by
        split
        · next heq => omega
        · exact Ty.lanes_pos_of_isShaped hshaped
      refine Keeps.bind (Keeps.extractLane ((hv.vector hshaped).mono hmore₁) hsource) ?_
      intro kinds₂ source hmore₂ hsource
      have hlt := hl.lt lane (hlane ▸ List.getElem_mem hi)
      exact storeLane_keeps (ha.mono (hmore₁.trans hmore₂)) hs hlt hsource
    · intro kinds₁ _ hmore₁ _
      exact .pure (hv.mono hmore₁)
  · refine Keeps.bind (coerce_keeps hv .float) ?_
    intro kinds₁ scalar hmore₁ hscalar
    refine Keeps.bind (P := fun _ _ => True) (Keeps.forM _ ?_) ?_
    · intro kinds₂ lane hmore₂ hlane
      exact storeLane_keeps (ha.mono (hmore₁.trans hmore₂)) hs (hl.lt lane hlane)
        (hscalar.mono hmore₂)
    · intro kinds₂ _ hmore₂ _
      exact .pure (hscalar.mono hmore₂)

theorem store_keeps {place : Place} {value : TypedValue} (h : place.Typed env kinds)
    (hv : value.Typed env kinds) :
    Keeps env kinds (place.store value) fun k a => a.Typed env k := by
  cases place with
  | whole address ty =>
    refine Keeps.bind (coerce_keeps hv ty) ?_
    intro kinds₁ stored hmore₁ hstored
    refine Keeps.bind (Keeps.store (Ir.Value.HasKind.mono hmore₁ h) hstored) ?_
    intro kinds₂ _ hmore₂ _
    exact .pure (hstored.mono hmore₂)
  | lanes address baseTy selected => exact storeLanes_keeps h.1 h.2.1 h.2.2 hv

theorem step_keeps (op : ArithOp) (givesOld : Bool) {place : Place} (h : place.Typed env kinds) :
    Keeps env kinds (place.step op givesOld) fun k a => a.Typed env k := by
  cases place with
  | whole address ty =>
    refine Keeps.bind (Keeps.load h) ?_
    intro kinds₁ current hmore₁ hcurrent
    refine Keeps.bind (unitOf_keeps ty) ?_
    intro kinds₂ unit hmore₂ ⟨hunit, harith⟩
    replace hcurrent := hcurrent.mono hmore₂
    refine Keeps.bind (Keeps.binary (arithInst_appliesTo harith op) hcurrent hunit) ?_
    intro kinds₃ updated hmore₃ hupdated
    have hmore := hmore₁.trans (hmore₂.trans hmore₃)
    refine Keeps.bind (Keeps.store (Ir.Value.HasKind.mono hmore h) hupdated) ?_
    intro kinds₄ _ hmore₄ _
    refine .pure ?_
    cases givesOld with
    | true => exact hcurrent.mono (hmore₃.trans hmore₄)
    | false => exact hupdated.mono hmore₄
  | lanes address baseTy selected =>
    obtain ⟨ha, hs, hl⟩ := h
    have hsteps : ∀ kinds', kinds <+: kinds' →
        Keeps env kinds' (selected.forM (stepLane op address baseTy)) fun _ _ => True := by
      intro kinds' hmore
      refine Keeps.forM _ ?_
      intro kinds'' lane hmore' hlane
      exact stepLane_keeps op (ha.mono (hmore.trans hmore')) hs (hl.lt lane hlane)
    cases givesOld with
    | true =>
      refine Keeps.bind (loadLanes_keeps ha hs hl) ?_
      intro kinds₁ before hmore₁ hbefore
      refine Keeps.bind (hsteps kinds₁ hmore₁) ?_
      intro kinds₂ _ hmore₂ _
      exact .pure (hbefore.mono hmore₂)
    | false =>
      refine Keeps.bind (hsteps kinds List.prefix_rfl) ?_
      intro kinds₁ _ hmore₁ _
      exact loadLanes_keeps (ha.mono hmore₁) hs hl

end Place

theorem elementPlace_keeps {array : Ir.Value} {element : Ty} {length : Nat} {index : TypedValue}
    (ha : PointsTo env kinds array (.array element length)) (hi : index.Typed env kinds) :
    Keeps env kinds (elementPlace array element index) fun k place =>
      place.Typed env k ∧ place.ty = element := by
  refine Keeps.bind (coerce_keeps hi .int) ?_
  intro kinds₁ index hmore₁ hindex
  refine Keeps.bind (Keeps.elementAddress (ha.mono hmore₁) hindex) ?_
  intro kinds₂ address _ haddress
  exact .pure ⟨haddress, rfl⟩

theorem callFn_keeps {f : FnDecl} {generated : String} {arguments : List Ir.Value}
    (hf : env.interface.functions generated =
      some (f.formals.map fun v => v.ty.toIr, f.returnTy.toIr))
    (hplain : f.returnTy.isPlain = true)
    (ha : List.Forall₂ (fun v t => v.HasKind env kinds (.value t)) arguments
      (f.formals.map fun v => v.ty.toIr)) :
    Keeps env kinds (callFn f generated arguments) fun k a => a.Typed env k := by
  refine Keeps.bind (P := fun k r => HasTy env k (r.getD .undefined) f.returnTy) ?_ ?_
  · unfold Build.call
    by_cases hvoid : f.returnTy = .void
    · rw [hvoid] at hf ⊢
      refine Keeps.lift_bind (Keeps.bind (P := fun _ _ => True) (Keeps.emit ?_ trivial) ?_)
      · exact .callVoid hf ha
      · intro kinds₁ _ _ _
        exact .pure (.undefined _)
    · have hgives : (f.returnTy != .void) = true := by simpa using hvoid
      have hty : f.returnTy.toIr ≠ .void := by
        cases hreturn : f.returnTy <;> rw [hreturn] at hvoid hplain <;>
          first | exact absurd rfl hvoid | cases hplain; done | nofun
      rw [if_pos hgives]
      refine Keeps.lift_bind (Keeps.bind (P := fun k v => HasTy env k v f.returnTy)
        (Keeps.emitValue (.value f.returnTy.toIr) ?_ id) ?_)
      · intro hlast hmore
        exact .call hf hty (Ir.Value.forall₂_hasKind_mono hmore ha) hlast
      · intro kinds₁ value _ hvalue
        exact .pure hvalue
  · intro kinds₁ result _ hresult
    exact .pure hresult

end ShaderLang.Lowering
