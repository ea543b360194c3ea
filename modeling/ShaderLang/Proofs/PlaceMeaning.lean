import ShaderLang.Proofs.ExprMeaning
import ShaderLang.Lowering.Expr

/-!
# What places mean

The code that reads, writes or steps a place does to the contents of the variables what is meant:
whole variables and elements at once, lanes one after the other.
-/

namespace ShaderLang

open Ir (Arithmetic Datum Machine World)

namespace Meaning.Place

/-- The place is in a variable. -/
def Belongs (k : Nat) : Place → Prop
  | whole address _ | lanes address _ => address.Belongs k

variable {A : Arithmetic} {k : Nat} {w w' : World} {p : Place}

theorem value_underlies (h : w.Underlies k w') (hp : p.Belongs k) : p.value w' = p.value w := by
  cases p with
  | whole address ty => exact h.read hp
  | lanes address selected => rw [value, value, h.read hp]

theorem writeLane_underlies {address : Datum} (h : w.Underlies k w') (ha : address.Belongs k)
    (lane : Nat) (d : Datum) :
    (writeLane address lane d w).Underlies k (writeLane address lane d w') := by
  rw [writeLane, writeLane, h.read ha]
  exact h.write ha _

/-- Changes that are made one after the other. -/
theorem foldl_underlies {ι : Type} {f : World → ι → World}
    (hf : ∀ i w w', w.Underlies k w' → (f w i).Underlies k (f w' i)) (xs : List ι)
    (h : w.Underlies k w') : (xs.foldl f w).Underlies k (xs.foldl f w') := by
  induction xs generalizing w w' with
  | nil => exact h
  | cons i xs ih => exact ih (hf i w w' h)

theorem write_underlies (h : w.Underlies k w') (hp : p.Belongs k) (t : Ty) (d : Datum) :
    (p.write t d w).Underlies k (p.write t d w') := by
  cases p with
  | whole address ty => exact h.write hp d
  | lanes address selected =>
    unfold write
    dsimp only
    split
    · exact foldl_underlies (fun i _ _ h => writeLane_underlies h hp i.1 _) _ h
    · exact foldl_underlies (fun lane _ _ h => writeLane_underlies h hp lane _) _ h

theorem stepped_underlies (h : w.Underlies k w') (hp : p.Belongs k) (A : Arithmetic) (op : ArithOp) :
    (p.stepped A op w').1 = (p.stepped A op w).1 ∧
      (p.stepped A op w).2.Underlies k (p.stepped A op w').2 := by
  cases p with
  | whole address ty =>
    rw [stepped, stepped, h.read hp]
    exact ⟨rfl, h.write hp _⟩
  | lanes address selected =>
    have hlane : ∀ lane w w', w.Underlies k w' →
        (stepLane A op address w lane).Underlies k (stepLane A op address w' lane) := by
      intro lane w w' h
      rw [stepLane, stepLane, h.read hp]
      exact writeLane_underlies h hp lane _
    have hsteps := foldl_underlies hlane selected h
    exact ⟨by rw [stepped, stepped, hsteps.read hp], hsteps⟩

end Meaning.Place

namespace Lowering

open Ir (Build Builder State)

/-- A place, and what it stands for. -/
inductive HoldsPlace (m : Machine) (k n : Nat) (s : State) : Place → Meaning.Place → Prop where
  | whole {address : Ir.Value} {ty : Ty} {d : Datum} (ha : m.Holds n s address d)
      (hd : d.Belongs k) : HoldsPlace m k n s (.whole address ty) (.whole d ty)
  | lanes {address : Ir.Value} {baseTy : Ty} {selected : List Nat} {d : Datum}
      (ha : m.Holds n s address d) (hd : d.Belongs k) :
    HoldsPlace m k n s (.lanes address baseTy selected) (.lanes d selected)

variable {m : Machine} {k n n' : Nat} {s s' : State} {b : Builder} {w : World}
  {address v v' : Ir.Value} {a : TypedValue} {p : Place} {q : Meaning.Place} {t baseTy : Ty}
  {d d' : Datum} {ι : Type}

theorem HoldsPlace.later (h : HoldsPlace m k n s p q) (hs : s.Later n n' s') :
    HoldsPlace m k n' s' p q := by
  cases h with
  | whole ha hd => exact .whole (ha.later hs) hd
  | lanes ha hd => exact .lanes (ha.later hs) hd

theorem HoldsPlace.belongs (h : HoldsPlace m k n s p q) : q.Belongs k := by
  cases h with
  | whole ha hd => exact hd
  | lanes ha hd => exact hd

/-! ## Reading -/

theorem load_gives (ty : Ir.Ty) (ha : m.Holds n s address d) :
    Gives m (liftM (Build.load ty address)) n s (s.world.read d) s.world :=
  emitValue_gives rfl (by rw [Machine.run, ha.read])

theorem selectLanes_gives (lanes : List Nat) (hv : m.Holds n s v d) :
    GivesTyped m (selectLanes v lanes) n s (Swizzle.resultTy lanes.length)
      (Meaning.selected d lanes) s.world := by
  match lanes with
  | [lane] => exact (extractLane_gives lane hv).typed _
  | [] | _ :: _ :: _ => exact (shuffle_gives _ hv).typed _

theorem selectFrom_gives {lanes : List Nat} (hshape : t.isShaped = true)
    (hlanes : ∀ lane ∈ lanes, lane < t.lanes) (ha : HoldsTyped m n s a t d) :
    GivesTyped m (selectFrom a lanes) n s (Swizzle.resultTy lanes.length)
      (Meaning.selected d lanes) s.world := by
  unfold selectFrom
  rw [if_pos (by simpa [ha.ty, hshape] using hlanes)]
  exact selectLanes_gives lanes ha.value

theorem loadPlace_gives (hp : HoldsPlace m k n s p q) :
    GivesTyped m p.load n s p.ty (q.value s.world) s.world := by
  cases hp with
  | whole ha hd => exact (load_gives _ ha).typed _
  | lanes ha hd =>
    refine (load_gives _ ha).bind fun base n₁ s₁ _ hbase hw₁ => ?_
    rw [← hw₁] at hbase ⊢
    exact selectLanes_gives _ hbase

theorem load_realizes (hp : HoldsPlace m k b.nextTemp s p q) :
    Realizes m k p.load q.load b s w fun n s a d => HoldsTyped m n s a p.ty d := by
  apply Realizes.of_executes
  intro hw
  refine (loadPlace_gives hp).imp fun a n' s' _ h => ?_
  rw [Meaning.Place.value_underlies hw hp.belongs] at h
  exact ⟨h.2 ▸ hw, h.1⟩

/-! ## Writing -/

theorem store_executes (ha : m.Holds n s address d) (hv : m.Holds n s v d') :
    Executes m (liftM (Build.store address v)) n s fun _ _ s' => s'.world = s.world.write d d' :=
  Executes.emit rfl (w := s.world.write d d') (by rw [Machine.run, ha.read, hv.read]) rfl

/-- Actions on the members of a list, each of which changes the world. -/
theorem forM_executes {f : ι → Emit Unit} {g : World → ι → World} (xs : List ι)
    (hf : ∀ i ∈ xs, ∀ n' s', s.Later n n' s' →
      Executes m (f i) n' s' fun _ _ s'' => s''.world = g s'.world i) :
    Executes m (xs.forM f) n s fun _ _ s' => s'.world = xs.foldl g s.world := by
  induction xs generalizing n s with
  | nil => exact .pure rfl
  | cons i xs ih =>
    refine Executes.bind (hf i List.mem_cons_self n s (.refl n s)) fun _ n₁ s₁ h₁ hw₁ => ?_
    rw [List.foldl_cons, ← hw₁]
    exact ih fun i hi n' s' hs => hf i (List.mem_cons_of_mem _ hi) n' s' (h₁.trans hs)

theorem storeLane_executes (baseTy : Ty) (lane : Nat) (ha : m.Holds n s address d)
    (hv : m.Holds n s v d') : Executes m (storeLane address baseTy lane v) n s fun _ _ s' =>
      s'.world = Meaning.writeLane d lane d' s.world := by
  refine (load_gives _ ha).bind fun base n₁ s₁ h₁ hbase hw₁ => ?_
  refine (insertLane_gives lane hbase (hv.later h₁)).bind fun updated n₂ s₂ h₂ hupdated hw₂ => ?_
  rw [← hw₁, ← hw₂] at hupdated
  rw [Meaning.writeLane, ← hw₁, ← hw₂]
  exact store_executes (ha.later (h₁.trans h₂)) hupdated

/-- A scalar goes into every lane of a selection. -/
theorem storeLanes_scalar_executes (baseTy : Ty) (lanes : List Nat) (ha : m.Holds n s address d)
    (ht : t.isScalar = true) (hv : HoldsTyped m n s a t d') :
    Executes m (Place.storeLanes address baseTy lanes a) n s fun r n' s' =>
      HoldsTyped m n' s' r .float (Meaning.scalar m.arithmetic t .float d') ∧
        s'.world = (Meaning.Place.lanes d lanes).write .float
          (Meaning.scalar m.arithmetic t .float d') s.world := by
  have hshape : t.isShaped = false := by cases t <;> first | rfl | cases ht
  unfold Place.storeLanes
  rw [hv.ty, hshape, if_neg Bool.false_ne_true]
  refine (coerce_gives (.inr ⟨ht, .inl rfl⟩) hv).bind fun x n₁ s₁ h₁ hx hw₁ => ?_
  rw [Meaning.brought_scalar rfl] at hx
  have hstores : Executes m (lanes.forM (storeLane address baseTy · x)) n₁ s₁ fun _ _ s' =>
      s'.world = lanes.foldl (fun w lane => Meaning.writeLane d lane
        (Meaning.scalar m.arithmetic t .float d') w) s₁.world :=
    forM_executes lanes fun lane _ n' s' h' =>
      storeLane_executes baseTy lane (ha.later (h₁.trans h')) (hx.later h')
  refine Executes.bind hstores fun _ n₂ s₂ h₂ hw₂ => ?_
  refine .pure ⟨⟨rfl, hx.later h₂⟩, ?_⟩
  rw [hw₂, hw₁]
  rfl

theorem resultTy_eq_float {count : Nat} (hne : Swizzle.resultTy count ≠ .error)
    (hshape : ¬ (Swizzle.resultTy count).isShaped = true) : Swizzle.resultTy count = .float := by
  match count with
  | 1 => rfl
  | 2 | 3 | 4 => exact absurd rfl hshape
  | 0 | n + 5 => exact absurd rfl hne

/-- A vector of as many lanes goes into a selection lane by lane. -/
theorem storeLanes_shaped_executes (baseTy : Ty) (lanes : List Nat) (ha : m.Holds n s address d)
    (hshape : t.isShaped = true) (hlanes : t.lanes = lanes.length) (hv : HoldsTyped m n s a t d') :
    Executes m (Place.storeLanes address baseTy lanes a) n s fun r n' s' =>
      HoldsTyped m n' s' r t d' ∧ s'.world = (Meaning.Place.lanes d lanes).write t d' s.world := by
  unfold Place.storeLanes
  rw [hv.ty, if_pos hshape]
  simp only [hlanes, if_true]
  have hstores := forM_executes (m := m) (n := n) (s := s) (f := fun p => do
      let source ← Build.extractLane a.value p.2
      storeLane address baseTy p.1 source)
    (g := fun w p => Meaning.writeLane d p.1 (d'.lane p.2) w) lanes.zipIdx
  refine Executes.bind (hstores ?_) fun _ n₂ s₂ h₂ hw₂ => ?_
  · rintro ⟨lane, i⟩ - n' s' h'
    refine (extractLane_gives i (hv.value.later h')).bind fun source n'' s'' h'' hsource hw => ?_
    rw [← hw]
    exact storeLane_executes baseTy lane (ha.later (h'.trans h'')) hsource
  · refine .pure ⟨hv.later h₂, ?_⟩
    rw [hw₂, Meaning.Place.write, hshape]
    rfl

/-- A value of the type of a place is written to it. -/
theorem storePlace_executes (hp : HoldsPlace m k n s p q) (hne : p.ty ≠ .error)
    (hv : HoldsTyped m n s a p.ty d) :
    Executes m (p.store a) n s fun r n' s' =>
      HoldsTyped m n' s' r p.ty d ∧ s'.world = q.write p.ty d s.world := by
  cases hp with
  | whole ha hd =>
    refine (coerce_gives (.inl rfl) hv).bind fun x n₁ s₁ h₁ hx hw₁ => ?_
    rw [brought_self] at hx
    refine Executes.bind (store_executes (ha.later h₁) hx) fun _ n₂ s₂ h₂ hw₂ => ?_
    exact .pure ⟨⟨rfl, hx.later h₂⟩, by rw [hw₂, hw₁]; rfl⟩
  | @lanes address baseTy selected d' ha hd =>
    have hty : (Place.lanes address baseTy selected).ty = Swizzle.resultTy selected.length := rfl
    rw [hty] at hne hv ⊢
    by_cases hshape : (Swizzle.resultTy selected.length).isShaped = true
    · exact storeLanes_shaped_executes baseTy selected ha hshape (Swizzle.lanes_resultTy hne) hv
    · rw [resultTy_eq_float hne hshape] at hv ⊢
      exact storeLanes_scalar_executes baseTy selected ha rfl hv

theorem store_realizes (hp : HoldsPlace m k b.nextTemp s p q) (hne : p.ty ≠ .error)
    (hv : HoldsTyped m b.nextTemp s a p.ty d) :
    Realizes m k (p.store a) (q.store p.ty d) b s w fun n s a d => HoldsTyped m n s a p.ty d := by
  apply Realizes.of_executes
  intro hw
  refine (storePlace_executes hp hne hv).imp fun r n' s' _ h => ?_
  rw [h.2]
  exact ⟨Meaning.Place.write_underlies hw hp.belongs p.ty d, h.1⟩

/-! ## Stepping -/

theorem unitOf_gives (ht : t.isArithmetic = true) :
    Gives m (unitOf t) n s (Meaning.unit t) s.world := by
  have hone : m.Holds n s (.float 1.0) (.float 1.0) := .constant rfl rfl
  cases t with
  | int | float => exact .pure (.constant rfl rfl)
  | vec2 | vec3 | vec4 | mat2 | mat3 | mat4 => exact splat_gives (by decide) hone
  | void | bool | array | error => cases ht

theorem stepLane_executes (op : ArithOp) (baseTy : Ty) (lane : Nat) (ha : m.Holds n s address d) :
    Executes m (stepLane op address baseTy lane) n s fun _ _ s' =>
      s'.world = Meaning.Place.stepLane m.arithmetic op d s.world lane := by
  refine (load_gives _ ha).bind fun base n₁ s₁ h₁ hbase hw₁ => ?_
  refine (extractLane_gives lane hbase).bind fun x n₂ s₂ h₂ hx hw₂ => ?_
  refine (binary_gives (arithInst false op) .f32 hx (.constant rfl rfl)).bind
    fun stepped n₃ s₃ h₃ hstepped hw₃ => ?_
  refine (insertLane_gives lane (hbase.later (h₂.trans h₃)) hstepped).bind
    fun updated n₄ s₄ h₄ hupdated hw₄ => ?_
  refine (store_executes (ha.later (h₁.trans (h₂.trans (h₃.trans h₄)))) hupdated).imp
    fun _ _ _ _ hw => ?_
  rw [hw, hw₄, hw₃, hw₂, hw₁]
  have hrun := run_arithInst m.arithmetic op .float ((s.world.read d).lane lane) (.float 1.0)
  rw [Meaning.Place.stepLane, ← hrun]
  rfl

theorem stepLanes_executes (op : ArithOp) (baseTy : Ty) (lanes : List Nat)
    (ha : m.Holds n s address d) :
    Executes m (lanes.forM (stepLane op address baseTy)) n s fun _ _ s' =>
      s'.world = lanes.foldl (Meaning.Place.stepLane m.arithmetic op d) s.world :=
  forM_executes lanes fun lane _ _ _ h' => stepLane_executes op baseTy lane (ha.later h')

/-- What a step gives, and what it leaves behind. -/
theorem stepPlace_executes (op : ArithOp) (givesOld : Bool) (hp : HoldsPlace m k n s p q)
    (ht : p.ty.isArithmetic = true) :
    Executes m (p.step op givesOld) n s fun r n' s' =>
      HoldsTyped m n' s' r p.ty
        (if givesOld then q.value s.world else (q.stepped m.arithmetic op s.world).1) ∧
        s'.world = (q.stepped m.arithmetic op s.world).2 := by
  cases hp with
  | @whole address ty d ha hd =>
    refine (load_gives _ ha).bind fun current n₁ s₁ h₁ hcurrent hw₁ => ?_
    refine (unitOf_gives ht).bind fun unit n₂ s₂ h₂ hunit hw₂ => ?_
    refine (binary_gives _ _ (hcurrent.later h₂) hunit).bind fun updated n₃ s₃ h₃ hupdated hw₃ => ?_
    rw [run_arithInst] at hupdated
    refine Executes.bind (store_executes (ha.later (h₁.trans (h₂.trans h₃))) hupdated)
      fun _ n₄ s₄ h₄ hw₄ => ?_
    refine .pure ⟨⟨rfl, ?_⟩, by rw [hw₄, hw₃, hw₂, hw₁]; rfl⟩
    cases givesOld with
    | true => exact hcurrent.later (h₂.trans (h₃.trans h₄))
    | false => exact hupdated.later h₄
  | @lanes address baseTy selected d ha hd =>
    have hp : HoldsPlace m k n s (.lanes address baseTy selected) (.lanes d selected) := .lanes ha hd
    cases givesOld with
    | true =>
      refine (loadPlace_gives hp).bind fun before n₁ s₁ h₁ hbefore hw₁ => ?_
      refine Executes.bind (stepLanes_executes op baseTy selected (ha.later h₁))
        fun _ n₂ s₂ h₂ hw₂ => ?_
      exact .pure ⟨hbefore.later h₂, by rw [hw₂, hw₁]; rfl⟩
    | false =>
      refine Executes.bind (stepLanes_executes op baseTy selected ha) fun _ n₁ s₁ h₁ hw₁ => ?_
      refine (loadPlace_gives (hp.later h₁)).imp fun r n₂ s₂ _ h => ?_
      rw [hw₁] at h
      exact h

theorem step_realizes (op : ArithOp) (givesOld : Bool) (hp : HoldsPlace m k b.nextTemp s p q)
    (ht : p.ty.isArithmetic = true) :
    Realizes m k (p.step op givesOld) (q.step m.arithmetic op givesOld) b s w
      fun n s a d => HoldsTyped m n s a p.ty d := by
  apply Realizes.of_executes
  intro hw
  obtain ⟨hvalue, hworld⟩ := Meaning.Place.stepped_underlies hw hp.belongs m.arithmetic op
  refine (stepPlace_executes op givesOld hp ht).imp fun r n' s' _ h => ?_
  rw [hvalue, Meaning.Place.value_underlies hw hp.belongs] at h
  rw [h.2]
  exact ⟨hworld, h.1⟩

/-! ## Parts of places -/

theorem elementPlace_realizes (ty : Ty) (ha : m.Holds b.nextTemp s address d) (hd : d.Belongs k)
    (hi : HoldsTyped m b.nextTemp s a .int d') :
    Realizes m k (elementPlace address ty a) (pure (.whole (d.element d') ty)) b s w
      fun n s p q => HoldsPlace m k n s p q ∧ p.ty = ty := by
  apply Realizes.of_executes
  intro hw
  refine (coerce_gives (.inl rfl) hi).bind fun index n₁ s₁ h₁ hindex hw₁ => ?_
  rw [brought_self] at hindex
  have haddress : Gives m (liftM (Build.elementAddress address index)) n₁ s₁ (d.element d') s₁.world :=
    emitValue_gives rfl (by rw [Machine.run, (ha.later h₁).read, hindex.read])
  refine haddress.bind fun v n₂ s₂ h₂ hv hw₂ => ?_
  refine .pure ⟨?_, .whole hv (hd.element d'), rfl⟩
  rw [hw₂, hw₁]
  exact hw

/-! ## Calls -/

/-- A call gives a value if it is asked for one. -/
theorem call_executes (callee : String) {values : List Ir.Value} {ds : List Datum}
    (h : values.map (m.read s) = ds) (givesValue : Bool) :
    Executes m (liftM (Build.call callee values givesValue)) n s fun r n' s' =>
      s'.world = m.invoke callee ds s.world ∧
        m.Holds n' s' (r.getD .undefined)
          (if givesValue then m.result callee ds s.world else .undefined) := by
  subst h
  cases givesValue with
  | true =>
    refine Linear.call (fun _ => ⟨fun t ht => ?_, rfl, .temp m n _ _⟩) (fun h => by cases h)
    exact if_neg (Nat.ne_of_lt ht)
  | false =>
    exact Linear.call (fun h => by cases h) fun _ => ⟨fun _ _ => rfl, rfl, .constant rfl rfl⟩

theorem callFn_realizes (f : FnDecl) (generated : String) {values : List Ir.Value}
    {ds : List Datum} (h : List.Forall₂ (m.Holds b.nextTemp s) values ds) :
    Realizes m k (callFn f generated values)
      (do let d ← Meaning.call m generated ds; return Meaning.ofTy f.returnTy d) b s w
      fun n s a d => HoldsTyped m n s a f.returnTy d := by
  have hread : values.map (m.read s) = ds := by
    induction h with
    | nil => rfl
    | cons hv _ ih => rw [List.map_cons, hv.read, ih]
  have hofTy : ∀ d, Meaning.ofTy f.returnTy d = if f.returnTy != .void then d else .undefined := by
    intro d
    unfold Meaning.ofTy
    by_cases hvoid : f.returnTy = .void <;> simp [hvoid]
  apply Realizes.of_executes
  intro hw
  refine Executes.bind (call_executes generated hread _) fun r n₁ s₁ _ hr => ?_
  refine .pure ⟨?_, rfl, ?_⟩
  · rw [hr.1]
    exact hw.invoke m generated ds
  · have hd := hr.2
    rw [← hofTy, hw.result] at hd
    exact hd

end Lowering

end ShaderLang
