import ShaderLang.Proofs.Ledger
import ShaderLang.Proofs.SoundStraight

/-!
# Straight-line code in a ledger

`Tracks` says of an action: wherever it succeeds in a function that a ledger covers, a ledger that
says more covers what it adds. Coercions and operations on values write to slots of their own only,
so nothing is asked of their operands but that they are known (`Ledger.Knows`). What writes to a place
asks for more: its address must not be that of a constant variable (`Ledger.Opens`).
-/

namespace ShaderLang.Lowering

open Ir (Build Builder Inst Ledger Rules Terminator)

variable {α β ι : Type} {rules : Rules} {l l' l'' : Ledger} {b b' b'' : Builder}

/-- What has been added goes by a ledger that says more. -/
structure Recorded (rules : Rules) (l : Ledger) (b : Builder) (l' : Ledger) (b' : Builder) :
    Prop where
  more : l.Extends l'
  covers : l'.Covers rules b'
  lasts : b.Lasts b'
  within : Within b b'

theorem Recorded.refl (h : l.Covers rules b) : Recorded rules l b l b :=
  ⟨.refl l, h, .refl b, .refl b⟩

theorem Recorded.trans (h : Recorded rules l b l' b') (h' : Recorded rules l' b' l'' b'') :
    Recorded rules l b l'' b'' :=
  ⟨h.more.trans h'.more, h'.covers, h.lasts.trans h'.lasts, h.within.trans h'.within⟩

/-- Wherever the action succeeds in a function that the ledger covers, a ledger that says more covers
what it adds, and `Q` holds of that ledger, of the result and of the builder behind it. -/
def Tracks (rules : Rules) (l : Ledger) (x : Emit α) (b : Builder)
    (Q : Ledger → α → Builder → Prop) : Prop :=
  l.Covers rules b → Ensures x b fun a b' => ∃ l', Recorded rules l b l' b' ∧ Q l' a b'

namespace Tracks

variable {x : Emit α} {f : α → Emit β} {P Q : Ledger → α → Builder → Prop}
  {R : Ledger → β → Builder → Prop}

theorem imp (h : Tracks rules l x b P)
    (hPQ : ∀ l' a b', l.Extends l' → P l' a b' → Q l' a b') : Tracks rules l x b Q :=
  fun hb => (h hb).imp fun a b' _ ⟨l', hr, hP⟩ => ⟨l', hr, hPQ l' a b' hr.more hP⟩

theorem pure {a : α} (h : Q l a b) : Tracks rules l (Pure.pure a) b Q :=
  fun hb => .pure ⟨l, .refl hb, h⟩

theorem throw {fault : Fault} : Tracks rules l (MonadExcept.throw fault) b Q :=
  fun _ => .throw

/-- The continuation is run where the action has succeeded. -/
theorem bind_run (hx : Tracks rules l x b P)
    (hf : ∀ l' a b', x b = .ok a b' → Recorded rules l b l' b' → P l' a b' →
      Tracks rules l' (f a) b' R) : Tracks rules l (x >>= f) b R := by
  intro hb
  apply (hx hb).bind
  rintro a b' hrun ⟨l', hr, hP⟩
  apply (hf l' a b' hrun hr hP hr.covers).imp
  rintro c b'' - ⟨l'', hr', hR⟩
  exact ⟨l'', hr.trans hr', hR⟩

theorem bind (hx : Tracks rules l x b P)
    (hf : ∀ l' a b', l.Extends l' → P l' a b' → Tracks rules l' (f a) b' R) :
    Tracks rules l (x >>= f) b R :=
  hx.bind_run fun l' a b' _ hr hP => hf l' a b' hr.more hP

theorem get_bind {k : Builder → Emit β} (h : Tracks rules l (k b) b R) :
    Tracks rules l (get >>= k) b R :=
  fun hb => .get_bind (h hb)

theorem orFault {a : Option α} {fault : Fault} (h : ∀ v, a = some v → Q l v b) :
    Tracks rules l (Lowering.orFault a fault) b Q := by
  cases a with
  | none => exact throw
  | some v => exact pure (h v rfl)

theorem lift_bind {x : Build α} {f : α → Build β}
    (h : Tracks rules l ((liftM x : Emit α) >>= fun a => liftM (f a)) b R) :
    Tracks rules l (liftM (x >>= f)) b R := by
  rw [Emit.lift_bind]
  exact h

/-! ## Operations of the builder -/

/-- An instruction is added behind those that are in the block already. -/
theorem emit_here {inst : Inst} (hi : l.Admits rules (here b) (offset b) inst) :
    Tracks rules l (liftM (Build.emit inst)) b fun l' _ b' =>
      l' = l ∧ b'.Has (here b) (offset b) inst := by
  refine fun hb => .intro fun _ b' hx => ?_
  replace hx := Emit.lift_eq_ok hx
  have hopen := Build.isOpen_of_emit hx
  have heq := Build.emit_eq_ok hx
  rw [← hb.length] at heq
  subst heq
  obtain ⟨hid, content, hcontent, hsize⟩ := isAt_here hopen.placed
  refine ⟨l, ⟨.refl l, hb.append (.refl l) ?_, .append b _ _, by simp, by simp⟩, rfl,
    content.append [inst], ?_, ?_⟩
  · intro id block hid' hblock
    rw [hid] at hid'
    cases hid'
    rw [hcontent] at hblock
    cases hblock
    exact hsize ▸ hi
  · rw [Builder.block?_append, if_pos hid, hcontent]
    rfl
  · simp [← hsize]

theorem emit {inst : Inst} {Q : Ledger → Unit → Builder → Prop}
    (hi : ∀ block index, l.Admits rules block index inst)
    (h : ∀ b', Q l () b') : Tracks rules l (liftM (Build.emit inst)) b Q := by
  refine (emit_here (hi _ _)).imp ?_
  rintro _ _ b' - ⟨rfl, -⟩
  exact h b'

/-- An instruction with a result, of which the ledger says more. -/
theorem emitValue {inst : Nat → Inst} {Q : Ledger → Ir.Value → Builder → Prop} (hl : l.Extends l')
    (hlength : l'.roots.length = l.roots.length + 1)
    (hi : ∀ block index, l'.Admits rules block index (inst l.roots.length))
    (h : ∀ b', Q l' l.fresh b') : Tracks rules l (liftM (Build.emitValue inst)) b Q := by
  refine fun hb => .intro fun v b' hx => ?_
  obtain ⟨rfl, heq⟩ := Build.emitValue_eq_ok (Emit.lift_eq_ok hx)
  rw [← hb.length, ← hlength] at heq
  subst heq
  rw [← hb.fresh_eq]
  exact ⟨l', ⟨hl, hb.append hl fun id block _ _ => hi id _, .append b _ _, by simp, by simp⟩, h _⟩

theorem terminate {t : Terminator} {Q : Ledger → Unit → Builder → Prop}
    (ht : ∀ v ∈ t.operands, l.Knows v) (h : ∀ b', Q l () b') :
    Tracks rules l (liftM (Build.terminate t)) b Q := by
  refine fun hb => .intro fun _ b' hx => ?_
  obtain rfl := Build.terminate_eq_ok (Emit.lift_eq_ok hx)
  exact ⟨l, ⟨.refl l, hb.close fun v hv => (ht v hv).1, .close b t, by simp, by simp⟩, h _⟩

theorem createBlock {stem : String} :
    Tracks rules l (liftM (Build.createBlock stem)) b fun l' _ _ => l' = l := by
  refine fun hb => .intro fun id b' hx => ?_
  obtain ⟨hopen, rfl⟩ := Build.createBlock_eq_ok (Emit.lift_eq_ok hx)
  exact ⟨l, ⟨.refl l, hb.addBlock hopen stem, .addBlock hopen stem, by simp, by simp⟩, rfl⟩

theorem position {id : Nat} :
    Tracks rules l (liftM (Build.position id)) b fun l' _ _ => l' = l := by
  refine fun hb => .intro fun _ b' hx => ?_
  cases hx
  exact ⟨l, ⟨.refl l, hb.moveTo id, .moveTo b id, rfl, rfl⟩, rfl⟩

theorem allocaIn {id : Nat} {ty : Ir.Ty} {name : String} (hname : rules.reads → Token.IsName name) :
    Tracks rules l (liftM (Build.allocaIn id ty name)) b fun l' v _ => l'.Opens v := by
  refine fun hb => .intro fun v b' hx => ?_
  obtain ⟨rfl, rfl⟩ := Build.allocaIn_eq_ok (Emit.lift_eq_ok hx)
  rw [← hb.fresh_eq]
  exact ⟨l.addTemp, ⟨.addTemp l, hb.allocIn id ty hname, .allocIn b id ty name, by simp, by simp⟩,
    Ir.Ledger.opens_addTemp⟩

/-- An instruction that neither writes nor gives the address of an element. -/
theorem value {inst : Nat → Inst} (hsimple : ∀ n, (inst n).isSimple = true)
    (hoperands : ∀ n, ∀ v ∈ (inst n).operands, l.Knows v)
    (hnames : rules.reads → ∀ n, ∀ name ∈ (inst n).names, Token.IsName name) :
    Tracks rules l (liftM (Build.emitValue inst)) b fun l' v _ => l'.Opens v := by
  have hl : l.Extends l.addTemp := .addTemp l
  refine emitValue hl (by simp [Ir.Ledger.addTemp, Ir.Ledger.grow]) (fun block index => ?_)
    fun _ => Ir.Ledger.opens_addTemp
  exact .of_simple (hsimple _) (fun v hv => (hoperands _ v hv).mono hl) fun h => hnames h _

theorem alloca {ty : Ir.Ty} {name : String} (hname : rules.reads → Token.IsName name) :
    Tracks rules l (liftM (Build.alloca ty name)) b fun l' v _ => l'.Opens v :=
  value (fun _ => rfl) (by simp [Inst.operands]) (by simpa [Inst.names] using hname)

theorem load {ty : Ir.Ty} {address : Ir.Value} (ha : l.Knows address) :
    Tracks rules l (liftM (Build.load ty address)) b fun l' v _ => l'.Opens v :=
  value (fun _ => rfl) (by simpa [Inst.operands] using ha) (by simp [Inst.names])

theorem binary {op : Ir.BinaryOp} {ty : Ir.Ty} {left right : Ir.Value} (hl : l.Knows left)
    (hr : l.Knows right) :
    Tracks rules l (liftM (Build.binary op ty left right)) b fun l' v _ => l'.Knows v :=
  (value (fun _ => rfl) (by simpa [Inst.operands] using ⟨hl, hr⟩) (by simp [Inst.names])).imp
    fun _ _ _ _ h => h.knows

theorem compare {p : Ir.Predicate} {left right : Ir.Value} (hl : l.Knows left)
    (hr : l.Knows right) :
    Tracks rules l (liftM (Build.compare p left right)) b fun l' v _ => l'.Knows v :=
  (value (fun _ => rfl) (by simpa [Inst.operands] using ⟨hl, hr⟩) (by simp [Inst.names])).imp
    fun _ _ _ _ h => h.knows

theorem convert (op : Ir.Conversion) {v : Ir.Value} (hv : l.Knows v) :
    Tracks rules l (liftM (Build.convert op v)) b fun l' v _ => l'.Knows v := by
  rw [Build.convert_eq]
  split
  · next folded hfold =>
    refine pure ?_
    cases op <;> cases v <;> cases hfold <;> exact .plain rfl rfl
  · exact (value (fun _ => rfl) (by simpa [Inst.operands] using hv) (by simp [Inst.names])).imp
      fun _ _ _ _ h => h.knows

theorem extractLane {vector : Ir.Value} (lane : Nat) (hv : l.Knows vector) :
    Tracks rules l (liftM (Build.extractLane vector lane)) b fun l' v _ => l'.Knows v := by
  rw [Build.extractLane_eq]
  split
  · next folded hfold =>
    refine pure ?_
    cases vector <;> try cases hfold
    obtain ⟨x, -, rfl⟩ := Option.map_eq_some_iff.mp hfold
    exact .plain rfl rfl
  · exact (value (fun _ => rfl) (by simpa [Inst.operands] using hv) (by simp [Inst.names])).imp
      fun _ _ _ _ h => h.knows

theorem insertLane {vector x : Ir.Value} (lane : Nat) (hv : l.Knows vector) (hx : l.Knows x) :
    Tracks rules l (liftM (Build.insertLane vector x lane)) b fun l' v _ => l'.Knows v :=
  (value (fun _ => rfl) (by simpa [Inst.operands] using ⟨hv, hx⟩) (by simp [Inst.names])).imp
    fun _ _ _ _ h => h.knows

theorem shuffle {vector : Ir.Value} (mask : List Nat) (hv : l.Knows vector) :
    Tracks rules l (liftM (Build.shuffle vector mask)) b fun l' v _ => l'.Knows v :=
  (value (fun _ => rfl) (by simpa [Inst.operands] using hv) (by simp [Inst.names])).imp
    fun _ _ _ _ h => h.knows

/-- The address of an element may be written through if that of the array may. -/
theorem elementAddress {base index : Ir.Value} (hb : l.Knows base) (hi : l.Knows index) :
    Tracks rules l (liftM (Build.elementAddress base index)) b fun l' v _ =>
      l'.Knows v ∧ (l.Opens base → l'.Opens v) := by
  obtain ⟨root, hroot⟩ := Option.isSome_iff_exists.mp hb.2
  have hself := l.root?_root hroot
  have hl := Ir.Ledger.Extends.grow l root [] (.inr hself) (by simp)
  have hlast : l.fresh.root? (l.grow root [] (.inr hself) (by simp)).roots = some root := by
    simp [Ir.Ledger.grow, Ir.Ledger.fresh, Ir.Value.root?]
  refine emitValue hl (by simp [Ir.Ledger.grow]) (fun block id => ?_) fun _ => ⟨⟨rfl, ?_⟩, ?_⟩
  · refine ⟨.inr ?_, by simp [Inst.names], ?_, by simp⟩
    · simpa [Inst.operands] using ⟨hb.1, hi.1⟩
    · rintro t base' position ⟨⟩
      exact ⟨root, hl.root? hroot, hlast⟩
  · rw [hlast]
    rfl
  · rintro ⟨-, root', hroot', hopen⟩
    rw [hroot] at hroot'
    cases hroot'
    refine ⟨rfl, root, hlast, fun s hs => hopen s ?_⟩
    simpa [Ir.Ledger.grow] using hs

theorem store {address value : Ir.Value} (ha : l.Opens address) (hv : l.Knows value) :
    Tracks rules l (liftM (Build.store address value)) b fun l' _ _ => l' = l := by
  obtain ⟨hplain, root, hroot, hopen⟩ := ha
  refine emit (fun block index => ⟨.inr ?_, by simp [Inst.names], nofun, ?_⟩) fun _ => rfl
  · simpa [Inst.operands] using ⟨hplain, hv.1⟩
  · rintro _ _ ⟨⟩
    exact ⟨root, hroot, fun s hs hslot => absurd hslot (hopen s hs)⟩

section

variable {f : Unit → Emit β}

theorem store_bind {address value : Ir.Value} (ha : l.Opens address) (hv : l.Knows value)
    (h : ∀ b', Tracks rules l (f ()) b' R) :
    Tracks rules l (liftM (Build.store address value) >>= f) b R := by
  refine bind (store ha hv) ?_
  rintro _ _ b' - rfl
  exact h b'

theorem terminate_bind {t : Terminator} (ht : ∀ v ∈ t.operands, l.Knows v)
    (h : ∀ b', Tracks rules l (f ()) b' R) :
    Tracks rules l (liftM (Build.terminate t) >>= f) b R := by
  refine bind (terminate (Q := fun l' _ _ => l' = l) ht fun _ => rfl) ?_
  rintro _ _ b' - rfl
  exact h b'

theorem createBlock_bind {stem : String} {f : Nat → Emit β}
    (h : ∀ id b', Tracks rules l (f id) b' R) :
    Tracks rules l (liftM (Build.createBlock stem) >>= f) b R := by
  refine bind createBlock ?_
  rintro _ id b' - rfl
  exact h id b'

theorem position_bind {id : Nat} (h : ∀ b', Tracks rules l (f ()) b' R) :
    Tracks rules l (liftM (Build.position id) >>= f) b R := by
  refine bind position ?_
  rintro _ _ b' - rfl
  exact h b'

end

/-! ## Loops -/

theorem foldlM {f : α → ι → Emit α} {I : Ledger → α → Prop} (xs : List ι) :
    ∀ {l : Ledger} {b : Builder} {a : α}, (∀ l' a b' i, l.Extends l' → i ∈ xs → I l' a →
      Tracks rules l' (f a i) b' fun l'' a _ => I l'' a) → I l a →
      Tracks rules l (xs.foldlM f a) b fun l' a _ => I l' a := by
  induction xs with
  | nil =>
    intro l b a _ h
    exact pure h
  | cons i rest ih =>
    intro l b a hf h
    rw [List.foldlM_cons]
    refine bind (hf l a b i (.refl l) List.mem_cons_self h) ?_
    intro l₁ a₁ b₁ hl₁ h₁
    refine ih ?_ h₁
    intro l₂ a₂ b₂ j hl₂ hj
    exact hf l₂ a₂ b₂ j (hl₁.trans hl₂) (List.mem_cons_of_mem _ hj)

theorem forM {f : ι → Emit Unit} (xs : List ι) :
    ∀ {l : Ledger} {b : Builder}, (∀ l' b' i, l.Extends l' → i ∈ xs →
      Tracks rules l' (f i) b' fun _ _ _ => True) →
      Tracks rules l (xs.forM f) b fun _ _ _ => True := by
  induction xs with
  | nil =>
    intro l b _
    exact pure trivial
  | cons i rest ih =>
    intro l b hf
    change Tracks rules l (f i >>= fun _ => rest.forM f) b _
    refine bind (hf l b i (.refl l) List.mem_cons_self) ?_
    intro l₁ _ b₁ hl₁ _
    refine ih ?_
    intro l₂ b₂ j hl₂ hj
    exact hf l₂ b₂ j (hl₁.trans hl₂) (List.mem_cons_of_mem _ hj)

theorem mapM {f : ι → Emit α} {P : Ledger → α → Prop}
    (hmono : ∀ l l' a, l.Extends l' → P l a → P l' a) (xs : List ι) :
    ∀ {l : Ledger} {b : Builder}, (∀ l' b' i, l.Extends l' → i ∈ xs →
      Tracks rules l' (f i) b' fun l'' a _ => P l'' a) →
      Tracks rules l (xs.mapM f) b fun l' as _ => ∀ a ∈ as, P l' a := by
  induction xs with
  | nil =>
    intro l b _
    exact pure (by simp)
  | cons i rest ih =>
    intro l b hf
    rw [List.mapM_cons]
    refine bind (hf l b i (.refl l) List.mem_cons_self) ?_
    intro l₁ a b₁ hl₁ ha
    refine bind (ih fun l₂ b₂ j hl₂ hj =>
      hf l₂ b₂ j (hl₁.trans hl₂) (List.mem_cons_of_mem _ hj)) ?_
    intro l₂ as b₂ hl₂ has
    refine pure ?_
    intro a' ha'
    rcases List.mem_cons.mp ha' with rfl | ha'
    · exact hmono _ _ _ hl₂ ha
    · exact has a' ha'

end Tracks

/-! ## Coercions -/

theorem isName_spill : Token.IsName "spill" := by
  decide

theorem isName_fill : Token.IsName "fill" := by
  decide

theorem isName_cond : Token.IsName "cond" := by
  decide

theorem spill_tracks {array : TypedValue} (h : l.Knows array.value) :
    Tracks rules l (spill array) b fun l' v _ => l'.Opens v := by
  refine Tracks.bind (.alloca fun _ => isName_spill) ?_
  intro l₁ slot b₁ hl₁ hslot
  exact .store_bind hslot (h.mono hl₁) fun _ => .pure hslot

theorem splat_tracks {scalar : Ir.Value} (h : l.Knows scalar) (lanes : Nat) :
    Tracks rules l (splat scalar lanes) b fun l' v _ => l'.Knows v := by
  refine Tracks.foldlM _ ?_ (.plain rfl rfl)
  intro l₁ v b₁ lane hl₁ _ hv
  exact .insertLane lane hv (h.mono hl₁)

theorem convertScalar_tracks {scalar : TypedValue} (h : l.Knows scalar.value) (target : Ty) :
    Tracks rules l (convertScalar scalar target) b fun l' v _ => l'.Knows v := by
  unfold convertScalar
  split
  · exact .pure h
  · split
    · exact .convert _ h
    · exact .convert _ h
    · exact .convert _ h
    · exact .convert _ h
    · exact .compare h (.plain rfl rfl)
    · exact .compare h (.plain rfl rfl)
    · exact .throw

theorem scalarOf_tracks {value : Ir.Value} {t : Ty} (h : l.Knows value) :
    Tracks rules l (scalarOf value t) b fun l' a _ => l'.Knows a.value := by
  induction t generalizing value l b with
  | int | float | bool => exact .pure h
  | void | error => exact .pure (.plain rfl rfl)
  | vec2 | vec3 | vec4 | mat2 | mat3 | mat4 =>
    refine Tracks.bind (.extractLane 0 h) ?_
    intro l₁ lane b₁ _ hlane
    exact .pure hlane
  | array element length ih =>
    have harray : l.Knows (TypedValue.mk value (.array element length)).value := h
    refine Tracks.bind (spill_tracks harray) ?_
    intro l₁ slot b₁ _ hslot
    refine Tracks.bind (.elementAddress hslot.knows (.plain rfl rfl)) ?_
    intro l₂ first b₂ _ ⟨hfirst, _⟩
    refine Tracks.bind (.load hfirst) ?_
    intro l₃ value b₃ _ hvalue
    exact ih hvalue.knows

theorem coerce_tracks {typed : TypedValue} (h : l.Knows typed.value) (target : Ty) :
    Tracks rules l (coerce typed target) b fun l' v _ => l'.Knows v := by
  induction target generalizing typed l b with
  | error =>
    unfold coerce
    split
    · exact .pure h
    · exact .throw
  | void =>
    unfold coerce
    split
    · exact .pure h
    · exact .pure (.plain rfl rfl)
  | int | float | bool =>
    unfold coerce
    split
    · exact .pure h
    · refine Tracks.bind (scalarOf_tracks h) ?_
      intro l₁ scalar b₁ _ hscalar
      exact convertScalar_tracks hscalar _
  | vec2 | vec3 | vec4 | mat2 | mat3 | mat4 =>
    unfold coerce
    split
    · exact .pure h
    · dsimp only
      split
      · split
        · exact .pure h
        · refine Tracks.bind (.extractLane 0 h) ?_
          intro l₁ lane b₁ _ hlane
          exact splat_tracks hlane _
      · refine Tracks.bind (scalarOf_tracks h) ?_
        intro l₁ scalar b₁ _ hscalar
        refine Tracks.bind (convertScalar_tracks hscalar .float) ?_
        intro l₂ lane b₂ _ hlane
        exact splat_tracks hlane _
  | array element length ih =>
    unfold coerce
    split
    · exact .pure h
    · refine Tracks.bind (.alloca fun _ => isName_fill) ?_
      intro l₁ slot b₁ hl₁ hslot
      dsimp only
      split
      · next source sourceLength hty =>
        refine Tracks.bind (spill_tracks (h.mono hl₁)) ?_
        intro l₂ spilled b₂ hl₂ hspilled
        replace hslot := hslot.mono hl₂
        refine Tracks.bind (P := fun _ _ _ => True) (Tracks.forM _ ?_) ?_
        · intro l₃ b₃ k hl₃ _
          refine Tracks.bind (.elementAddress (hspilled.mono hl₃).knows (.plain rfl rfl)) ?_
          intro l₄ address b₄ hl₄ ⟨haddress, _⟩
          refine Tracks.bind (.load haddress) ?_
          intro l₅ value b₅ hl₅ hvalue
          have hsource : l₅.Knows (TypedValue.mk value source).value := hvalue.knows
          refine Tracks.bind (ih hsource) ?_
          intro l₆ value b₆ hl₆ hvalue
          replace hslot := hslot.mono (hl₃.trans (hl₄.trans (hl₅.trans hl₆)))
          refine Tracks.bind (.elementAddress hslot.knows (.plain rfl rfl)) ?_
          intro l₇ address b₇ hl₇ ⟨_, haddress⟩
          exact (Tracks.store (haddress hslot) (hvalue.mono hl₇)).imp fun _ _ _ _ _ => trivial
        · intro l₃ _ b₃ hl₃ _
          exact (Tracks.load (hslot.mono hl₃).knows).imp fun _ _ _ _ h => h.knows
      · refine Tracks.bind (ih (h.mono hl₁)) ?_
        intro l₂ value b₂ hl₂ hvalue
        replace hslot := hslot.mono hl₂
        refine Tracks.bind (P := fun _ _ _ => True) (Tracks.forM _ ?_) ?_
        · intro l₃ b₃ k hl₃ _
          replace hslot := hslot.mono hl₃
          refine Tracks.bind (.elementAddress hslot.knows (.plain rfl rfl)) ?_
          intro l₄ address b₄ hl₄ ⟨_, haddress⟩
          exact (Tracks.store (haddress hslot) ((hvalue.mono hl₃).mono hl₄)).imp
            fun _ _ _ _ _ => trivial
        · intro l₃ _ b₃ hl₃ _
          exact (Tracks.load (hslot.mono hl₃).knows).imp fun _ _ _ _ h => h.knows

theorem arithmeticView_tracks {typed : TypedValue} (h : l.Knows typed.value) :
    Tracks rules l (arithmeticView typed) b fun l' a _ => l'.Knows a.value := by
  unfold arithmeticView
  split
  · exact .pure h
  · refine Tracks.bind (scalarOf_tracks h) ?_
    intro l₁ scalar b₁ _ hscalar
    split
    · refine Tracks.bind (.convert _ hscalar) ?_
      intro l₂ value b₂ _ hvalue
      exact .pure hvalue
    · exact .pure hscalar

/-! ## Operations -/

theorem zeroOf_tracks (t : Ty) : Tracks rules l (zeroOf t) b fun l' v _ => l'.Knows v := by
  unfold zeroOf
  split
  · exact .pure (.plain rfl rfl)
  · exact .pure (.plain rfl rfl)
  · split
    · exact .pure (.plain rfl rfl)
    · exact .throw

theorem unitOf_tracks (t : Ty) : Tracks rules l (unitOf t) b fun l' v _ => l'.Knows v := by
  unfold unitOf
  split
  · exact .pure (.plain rfl rfl)
  · exact .pure (.plain rfl rfl)
  · split
    · exact splat_tracks (.plain rfl rfl) _
    · exact .throw

theorem arith_tracks (op : ArithOp) {left right : TypedValue} (hl : l.Knows left.value)
    (hr : l.Knows right.value) :
    Tracks rules l (arith op left right) b fun l' a _ => l'.Knows a.value := by
  refine Tracks.bind (arithmeticView_tracks hl) ?_
  intro l₁ left b₁ hl₁ hleft
  refine Tracks.bind (arithmeticView_tracks (hr.mono hl₁)) ?_
  intro l₂ right b₂ hl₂ hright
  refine Tracks.bind (coerce_tracks (hleft.mono hl₂) _) ?_
  intro l₃ lhs b₃ hl₃ hlhs
  refine Tracks.bind (coerce_tracks (hright.mono hl₃) _) ?_
  intro l₄ rhs b₄ hl₄ hrhs
  refine Tracks.bind (.binary (hlhs.mono hl₄) hrhs) ?_
  intro l₅ value b₅ _ hvalue
  exact .pure hvalue

theorem compareLane_tracks (op : CompareOp) {left right : Ir.Value} (lane : Nat)
    (hl : l.Knows left) (hr : l.Knows right) :
    Tracks rules l (compareLane op left right lane) b fun l' v _ => l'.Knows v := by
  refine Tracks.bind (.extractLane lane hl) ?_
  intro l₁ x b₁ hl₁ hx
  refine Tracks.bind (.extractLane lane (hr.mono hl₁)) ?_
  intro l₂ y b₂ hl₂ hy
  exact .compare (hx.mono hl₂) hy

theorem compareLanes_tracks (op : CompareOp) {left right : Ir.Value} (lanes : Nat)
    (hl : l.Knows left) (hr : l.Knows right) :
    Tracks rules l (compareLanes op left right lanes) b fun l' a _ => l'.Knows a.value := by
  cases lanes with
  | zero => exact .throw
  | succ lanes =>
    refine Tracks.bind (compareLane_tracks op 0 hl hr) ?_
    intro l₁ first b₁ hl₁ hfirst
    refine Tracks.bind (Tracks.foldlM (I := fun l v => l.Knows v) _ ?_ hfirst) ?_
    · intro l₂ result b₂ lane hl₂ _ hresult
      have hl₂ := hl₁.trans hl₂
      refine Tracks.bind (compareLane_tracks op (lane + 1) (hl.mono hl₂) (hr.mono hl₂)) ?_
      intro l₃ holds b₃ hl₃ hholds
      exact .binary (hresult.mono hl₃) hholds
    · intro l₂ value b₂ _ hvalue
      exact .pure hvalue

theorem compare_tracks (op : CompareOp) {left right : TypedValue} (hl : l.Knows left.value)
    (hr : l.Knows right.value) :
    Tracks rules l (compare op left right) b fun l' a _ => l'.Knows a.value := by
  unfold compare
  split
  · refine Tracks.bind (.compare hl hr) ?_
    intro l₁ value b₁ _ hvalue
    exact .pure hvalue
  · refine Tracks.bind (arithmeticView_tracks hl) ?_
    intro l₁ left b₁ hl₁ hleft
    refine Tracks.bind (arithmeticView_tracks (hr.mono hl₁)) ?_
    intro l₂ right b₂ hl₂ hright
    replace hleft := hleft.mono hl₂
    split
    · refine Tracks.bind (coerce_tracks hleft _) ?_
      intro l₃ lhs b₃ hl₃ hlhs
      refine Tracks.bind (coerce_tracks (hright.mono hl₃) _) ?_
      intro l₄ rhs b₄ hl₄ hrhs
      exact compareLanes_tracks op _ (hlhs.mono hl₄) hrhs
    · split
      · refine Tracks.bind (.compare hleft hright) ?_
        intro l₃ value b₃ _ hvalue
        exact .pure hvalue
      · refine Tracks.bind (coerce_tracks hleft _) ?_
        intro l₃ lhs b₃ hl₃ hlhs
        refine Tracks.bind (coerce_tracks (hright.mono hl₃) _) ?_
        intro l₄ rhs b₄ hl₄ hrhs
        refine Tracks.bind (.compare (hlhs.mono hl₄) hrhs) ?_
        intro l₅ value b₅ _ hvalue
        exact .pure hvalue

theorem logic_tracks (op : LogicOp) {left right : TypedValue} (hl : l.Knows left.value)
    (hr : l.Knows right.value) :
    Tracks rules l (logic op left right) b fun l' a _ => l'.Knows a.value := by
  refine Tracks.bind (coerce_tracks hl _) ?_
  intro l₁ lhs b₁ hl₁ hlhs
  refine Tracks.bind (coerce_tracks (hr.mono hl₁) _) ?_
  intro l₂ rhs b₂ hl₂ hrhs
  refine Tracks.bind (.binary (hlhs.mono hl₂) hrhs) ?_
  intro l₃ value b₃ _ hvalue
  exact .pure hvalue

theorem binary_tracks (op : BinaryOp) {left right : TypedValue} (hl : l.Knows left.value)
    (hr : l.Knows right.value) :
    Tracks rules l (binary op left right) b fun l' a _ => l'.Knows a.value := by
  cases op with
  | arith op => exact arith_tracks op hl hr
  | compare op => exact compare_tracks op hl hr
  | logic op => exact logic_tracks op hl hr

theorem signed_tracks (op : ArithOp) {operand : TypedValue} (h : l.Knows operand.value) :
    Tracks rules l (signed op operand) b fun l' a _ => l'.Knows a.value := by
  refine Tracks.bind (arithmeticView_tracks h) ?_
  intro l₁ operand b₁ hl₁ hoperand
  refine Tracks.bind (zeroOf_tracks operand.ty) ?_
  intro l₂ zero b₂ hl₂ hzero
  refine Tracks.bind (.binary hzero (hoperand.mono hl₂)) ?_
  intro l₃ value b₃ _ hvalue
  exact .pure hvalue

theorem negated_tracks {operand : TypedValue} (h : l.Knows operand.value) :
    Tracks rules l (negated operand) b fun l' a _ => l'.Knows a.value := by
  refine Tracks.bind (coerce_tracks h .bool) ?_
  intro l₁ operand b₁ hl₁ hoperand
  refine Tracks.bind (.binary hoperand (.plain rfl rfl)) ?_
  intro l₂ value b₂ _ hvalue
  exact .pure hvalue

/-! ## Constructors -/

theorem argumentLanes_tracks {argument : TypedValue} (h : l.Knows argument.value) :
    Tracks rules l (argumentLanes argument) b fun l' lanes _ => ∀ v ∈ lanes, l'.Knows v := by
  unfold argumentLanes
  split
  · refine Tracks.mapM (P := fun l v => l.Knows v) (fun _ _ _ hl hv => hv.mono hl) _ ?_
    intro l₁ b₁ lane hl₁ _
    exact .extractLane lane (h.mono hl₁)
  · refine Tracks.bind (coerce_tracks h .float) ?_
    intro l₁ lane b₁ _ hlane
    exact .pure (by simpa using hlane)

theorem vectorOfLanes_tracks {lanes : List Ir.Value} (h : ∀ v ∈ lanes, l.Knows v) :
    Tracks rules l (vectorOfLanes lanes) b fun l' v _ => l'.Knows v := by
  unfold vectorOfLanes
  split
  · exact .pure (.plain rfl rfl)
  · refine Tracks.foldlM (I := fun l v => l.Knows v) _ ?_ (.plain rfl rfl)
    rintro l₁ vector b₁ ⟨value, lane⟩ hl₁ hmem hvector
    exact .insertLane lane hvector ((h value (List.fst_mem_of_mem_zipIdx hmem)).mono hl₁)

theorem knows_of_mem_fitLanes {lanes : List Ir.Value} (h : ∀ v ∈ lanes, l.Knows v) (width : Nat) :
    ∀ v ∈ fitLanes width lanes, l.Knows v := by
  intro v hv
  rcases List.mem_append.mp (List.mem_of_mem_take hv) with hv | hv
  · exact h v hv
  · rw [List.eq_of_mem_replicate hv]
    exact .plain rfl rfl

theorem concatenated_tracks (width : Nat) {arguments : List TypedValue}
    (h : ∀ a ∈ arguments, l.Knows a.value) :
    Tracks rules l (concatenated width arguments) b fun l' v _ => l'.Knows v := by
  refine Tracks.bind (P := fun l lanes _ => ∀ some ∈ lanes, ∀ v ∈ some, l.Knows v) ?_ ?_
  · refine Tracks.mapM (P := fun l some => ∀ v ∈ some, l.Knows v) ?_ _ ?_
    · intro _ _ _ hl hknown v hv
      exact (hknown v hv).mono hl
    · intro l₁ b₁ a hl₁ ha
      exact argumentLanes_tracks ((h a ha).mono hl₁)
  · intro l₁ lanes b₁ _ hlanes
    refine vectorOfLanes_tracks (knows_of_mem_fitLanes ?_ width)
    intro v hv
    obtain ⟨some, hsome, hv⟩ := List.mem_flatten.mp hv
    exact hlanes some hsome v hv

theorem shaped_tracks (width : Nat) {arguments : List TypedValue}
    (h : ∀ a ∈ arguments, l.Knows a.value) :
    Tracks rules l (shaped width arguments) b fun l' v _ => l'.Knows v := by
  unfold shaped
  split
  · next single =>
    split
    · exact concatenated_tracks width h
    · refine Tracks.bind (coerce_tracks (h single (by simp)) .float) ?_
      intro l₁ scalar b₁ _ hscalar
      split
      · exact .pure (.plain rfl rfl)
      · exact splat_tracks hscalar width
  · exact concatenated_tracks width h

theorem construct_tracks (target : Ty) {arguments : List TypedValue}
    (h : ∀ a ∈ arguments, l.Knows a.value) :
    Tracks rules l (construct target arguments) b fun l' a _ => l'.Knows a.value := by
  unfold construct
  split
  · refine Tracks.bind (shaped_tracks target.lanes h) ?_
    intro l₁ value b₁ _ hvalue
    exact .pure hvalue
  · split
    · exact .throw
    · next first rest =>
      split
      · refine Tracks.bind (coerce_tracks (h first List.mem_cons_self) target) ?_
        intro l₁ value b₁ _ hvalue
        exact .pure hvalue
      · exact .throw

/-! ## Selections -/

theorem selectLanes_tracks {vector : Ir.Value} (h : l.Knows vector) (lanes : List Nat) :
    Tracks rules l (selectLanes vector lanes) b fun l' a _ => l'.Knows a.value := by
  unfold selectLanes
  split
  · refine Tracks.bind (.extractLane _ h) ?_
    intro l₁ value b₁ _ hvalue
    exact .pure hvalue
  · refine Tracks.bind (.shuffle _ h) ?_
    intro l₁ value b₁ _ hvalue
    exact .pure hvalue

theorem selectFrom_tracks {base : TypedValue} (h : l.Knows base.value) (lanes : List Nat) :
    Tracks rules l (selectFrom base lanes) b fun l' a _ => l'.Knows a.value := by
  unfold selectFrom
  split
  · exact selectLanes_tracks h lanes
  · refine Tracks.bind (coerce_tracks h .vec4) ?_
    intro l₁ vector b₁ _ hvector
    exact selectLanes_tracks hvector lanes

/-! ## Places -/

theorem loadLanes_tracks {address : Ir.Value} (h : l.Knows address) (baseTy : Ty)
    (selected : List Nat) :
    Tracks rules l (loadLanes address baseTy selected) b fun l' a _ => l'.Knows a.value := by
  refine Tracks.bind (.load h) ?_
  intro l₁ base b₁ _ hbase
  exact selectLanes_tracks hbase.knows selected

theorem storeLane_tracks {address value : Ir.Value} (h : l.Opens address) (baseTy : Ty) (lane : Nat)
    (hv : l.Knows value) :
    Tracks rules l (storeLane address baseTy lane value) b fun _ _ _ => True := by
  refine Tracks.bind (.load h.knows) ?_
  intro l₁ base b₁ hl₁ hbase
  refine Tracks.bind (.insertLane lane hbase.knows (hv.mono hl₁)) ?_
  intro l₂ updated b₂ hl₂ hupdated
  exact (Tracks.store (h.mono (hl₁.trans hl₂)) hupdated).imp fun _ _ _ _ _ => trivial

theorem stepLane_tracks (op : ArithOp) {address : Ir.Value} (h : l.Opens address) (baseTy : Ty)
    (lane : Nat) : Tracks rules l (stepLane op address baseTy lane) b fun _ _ _ => True := by
  refine Tracks.bind (.load h.knows) ?_
  intro l₁ base b₁ hl₁ hbase
  refine Tracks.bind (.extractLane lane hbase.knows) ?_
  intro l₂ x b₂ hl₂ hx
  refine Tracks.bind (.binary hx (.plain rfl rfl)) ?_
  intro l₃ stepped b₃ hl₃ hstepped
  refine Tracks.bind (.insertLane lane (hbase.knows.mono (hl₂.trans hl₃)) hstepped) ?_
  intro l₄ updated b₄ hl₄ hupdated
  have hl := hl₁.trans (hl₂.trans (hl₃.trans hl₄))
  exact (Tracks.store (h.mono hl) hupdated).imp fun _ _ _ _ _ => trivial

namespace Place

theorem load_tracks {place : Place} (h : l.Knows place.address) :
    Tracks rules l place.load b fun l' a _ => l'.Knows a.value := by
  cases place with
  | whole address ty =>
    refine Tracks.bind (.load h) ?_
    intro l₁ value b₁ _ hvalue
    exact .pure hvalue.knows
  | lanes address baseTy selected => exact loadLanes_tracks h baseTy selected

theorem storeLanes_tracks {address : Ir.Value} (h : l.Opens address) (baseTy : Ty)
    (selected : List Nat) {value : TypedValue} (hv : l.Knows value.value) :
    Tracks rules l (storeLanes address baseTy selected value) b fun l' a _ => l'.Knows a.value := by
  unfold storeLanes
  split
  · refine Tracks.bind (P := fun _ _ _ => True) (Tracks.forM _ ?_) ?_
    · rintro l₁ b₁ ⟨lane, i⟩ hl₁ _
      refine Tracks.bind (.extractLane _ (hv.mono hl₁)) ?_
      intro l₂ source b₂ hl₂ hsource
      exact storeLane_tracks (h.mono (hl₁.trans hl₂)) baseTy lane hsource
    · intro l₁ _ b₁ hl₁ _
      exact .pure (hv.mono hl₁)
  · refine Tracks.bind (coerce_tracks hv .float) ?_
    intro l₁ scalar b₁ hl₁ hscalar
    refine Tracks.bind (P := fun _ _ _ => True) (Tracks.forM _ ?_) ?_
    · intro l₂ b₂ lane hl₂ _
      exact storeLane_tracks (h.mono (hl₁.trans hl₂)) baseTy lane (hscalar.mono hl₂)
    · intro l₂ _ b₂ hl₂ _
      exact .pure (hscalar.mono hl₂)

theorem store_tracks {place : Place} {value : TypedValue} (h : l.Opens place.address)
    (hv : l.Knows value.value) :
    Tracks rules l (place.store value) b fun l' a _ => l'.Knows a.value := by
  cases place with
  | whole address ty =>
    refine Tracks.bind (coerce_tracks hv ty) ?_
    intro l₁ stored b₁ hl₁ hstored
    exact .store_bind (h.mono hl₁) hstored fun _ => .pure hstored
  | lanes address baseTy selected => exact storeLanes_tracks h baseTy selected hv

theorem step_tracks (op : ArithOp) (givesOld : Bool) {place : Place} (h : l.Opens place.address) :
    Tracks rules l (place.step op givesOld) b fun l' a _ => l'.Knows a.value := by
  cases place with
  | whole address ty =>
    refine Tracks.bind (.load h.knows) ?_
    intro l₁ current b₁ hl₁ hcurrent
    refine Tracks.bind (unitOf_tracks ty) ?_
    intro l₂ unit b₂ hl₂ hunit
    replace hcurrent := hcurrent.knows.mono hl₂
    refine Tracks.bind (.binary hcurrent hunit) ?_
    intro l₃ updated b₃ hl₃ hupdated
    refine .store_bind (h.mono (hl₁.trans (hl₂.trans hl₃))) hupdated fun b₄ => .pure ?_
    cases givesOld with
    | true => exact hcurrent.mono hl₃
    | false => exact hupdated
  | lanes address baseTy selected =>
    have hsteps : ∀ {l' b'}, l.Extends l' →
        Tracks rules l' (selected.forM (stepLane op address baseTy)) b' fun _ _ _ => True := by
      intro l' b' hl
      refine Tracks.forM _ ?_
      intro l₁ b₁ lane hl₁ _
      exact stepLane_tracks op (h.mono (hl.trans hl₁)) baseTy lane
    cases givesOld with
    | true =>
      refine Tracks.bind (loadLanes_tracks h.knows baseTy selected) ?_
      intro l₁ before b₁ hl₁ hbefore
      refine Tracks.bind (hsteps hl₁) ?_
      intro l₂ _ b₂ hl₂ _
      exact .pure (hbefore.mono hl₂)
    | false =>
      refine Tracks.bind (hsteps (.refl l)) ?_
      intro l₁ _ b₁ hl₁ _
      exact loadLanes_tracks (h.mono hl₁).knows baseTy selected

end Place

theorem elementPlace_tracks {array : Ir.Value} (ty : Ty) {index : TypedValue} (ha : l.Knows array)
    (hi : l.Knows index.value) :
    Tracks rules l (elementPlace array ty index) b fun l' place _ =>
      l'.Knows place.address ∧ (l.Opens array → l'.Opens place.address) := by
  refine Tracks.bind (coerce_tracks hi .int) ?_
  intro l₁ index b₁ hl₁ hindex
  refine Tracks.bind (.elementAddress (ha.mono hl₁) hindex) ?_
  intro l₂ address b₂ _ ⟨haddress, hopen⟩
  exact .pure ⟨haddress, fun h => hopen (h.mono hl₁)⟩

theorem callFn_tracks (f : FnDecl) {generated : String} {arguments : List Ir.Value}
    (hname : rules.reads → Token.IsName generated) (ha : ∀ v ∈ arguments, l.Knows v) :
    Tracks rules l (callFn f generated arguments) b fun l' a _ => l'.Knows a.value := by
  refine Tracks.bind (P := fun l r _ => l.Knows (r.getD .undefined)) ?_ ?_
  · unfold Build.call
    split
    · refine Tracks.lift_bind (Tracks.bind (.value (fun _ => rfl) (fun _ => ha) ?_) ?_)
      · simpa [Inst.names] using hname
      · intro l₁ value b₁ _ hvalue
        exact .pure hvalue.knows
    · refine Tracks.lift_bind (Tracks.bind (P := fun _ _ _ => True) (.emit ?_ fun _ => trivial) ?_)
      · intro block index
        exact .of_simple rfl ha (by simpa [Inst.names] using hname)
      · intro l₁ _ b₁ _ _
        exact .pure (.plain rfl rfl)
  · intro l₁ result b₁ _ hresult
    exact .pure hresult

end ShaderLang.Lowering
