import ShaderLang.Proofs.PlaceMeaning

/-!
# What conditionals mean

Control leaves the block in which a conditional begins for one of its arms, and comes out of either
one at the same place, with the value of that arm in the slot for the result. The slot is added to a
block that was closed before; it is there when an arm begins.
-/

namespace ShaderLang.Lowering

open Ir (Build Builder Datum Inst Machine State World)

variable {m : Machine} {k n : Nat} {b b₁ b₂ b' : Builder} {s s₁ s₂ s' : State} {w : World}
  {a ifTrue ifFalse : TypedValue} {t ty : Ty} {d : Datum}

theorem moment_eq {id : Nat} {content : Ir.Block} (hid : b.insertion = some id)
    (hcontent : b.block? id = some content) (s : State) :
    moment b s = ⟨id, content.insts.size, s⟩ := by
  rw [moment, offset, here_eq hid, hcontent]
  rfl

theorem branch_eq (hb : b.IsOpen) (target : Nat) :
    (liftM (Build.branch target) : Emit Unit) b = .ok () (b.close (.branch target)) :=
  Emit.lift_eq (Build.terminate_eq hb _)

/-- Code that fills a block and closes it leads from where the block ended to the beginning of
another one. -/
structure Finishes (m : Machine) (b : Builder) (block : Nat) (s : State) (target : Nat) (b' : Builder)
    (s' : State) : Prop where
  closes : b.Closes block b'
  spans : s.Spans b.nextTemp b'.nextTemp s'
  comes : ∀ fn, Receives (b.moveTo block).Reaches fn b' →
    m.Comes fn (moment (b.moveTo block) s) ⟨target, 0, s'⟩

theorem Carries.finishes {block : Nat} (h : Carries m (b.moveTo block) s b₁ s₁) (target : Nat) :
    Finishes m b block s target (b₁.close (.branch target)) s₁ where
  closes := h.flows.closes _
  spans := by simpa using h.spans
  comes fn hfn := by
    have hopen := h.flows.isOpen
    obtain ⟨last, hlast, content, hcontent, -⟩ := id hopen
    have hclose : (b₁.close (.branch target)).block? last = some (content.close (.branch target)) := by
      rw [Ir.Builder.block?_close, if_pos hlast, hcontent]
      rfl
    have hfreezes := Freezes.of_extends ((Ir.Builder.Extends.refl b₁).close hopen (.branch target))
      hopen (S := (b.moveTo block).Reaches)
    have hcode := h.comes fn (hfn.part (fun _ => id) hfreezes)
    have hclosed := hfn.closed (h.flows.ext.current hlast) hclose rfl
    have hleave := Machine.comes_terminator (m := m) (s := s₁) hclosed rfl rfl
    rw [moment_eq hlast hcontent] at hcode
    exact hcode.trans hleave

/-! ## The ends of the arms -/

theorem write_slot_read {j : Nat} (hj : j < w.slots.length) (d : Datum) :
    (w.write (.address (.slot j) []) d).read (.address (.slot j) []) = d := by
  simp [World.write, World.modifyRoot, World.read, World.root, Datum.setAtPath, Datum.atPath, hj]

theorem endArm_finishes {block j : Nat} (joined : Nat) {slot : Ir.Value} (hblock : b.Unfinished block)
    (hbecomes : t.becomes ty) (hslot : m.Holds b.nextTemp s slot (.address (.slot j) []))
    (ha : HoldsTyped m b.nextTemp s a t d) :
    ∃ b' s', endArm block joined slot ty a b = .ok () b' ∧ Finishes m b block s joined b' s' ∧
      s'.world = s.world.write (.address (.slot j) []) (Meaning.brought m.arithmetic t ty d) := by
  have hopen : (b.moveTo block).IsOpen := Ir.Builder.isOpen_moveTo.mpr hblock
  have hstore : Executes m (do let value ← coerce a ty; Build.store slot value) b.nextTemp s
      fun _ _ s' => s'.world =
        s.world.write (.address (.slot j) []) (Meaning.brought m.arithmetic t ty d) := by
    refine (coerce_gives hbecomes ha).bind fun value n₁ s₁ h₁ hvalue hw₁ => ?_
    rw [← hw₁]
    exact store_executes (hslot.later h₁) hvalue
  obtain ⟨_, code, n', hcode, hx, -, hworld⟩ := hstore
  have hcarries : Carries m (b.moveTo block) s ((b.moveTo block).append code n') (m.runAll code s) :=
    .append hopen hcode
  refine ⟨_, _, ?_, hcarries.finishes joined, hworld⟩
  have hrun := hx (b.moveTo block) hopen rfl
  rw [Emit.bind_eq_ok] at hrun
  obtain ⟨value, b₁, hcoerce, hstore⟩ := hrun
  unfold endArm
  rw [Emit.bind_eq (Emit.lift_eq (Build.position_eq block)), Emit.bind_eq hcoerce, Emit.bind_eq hstore]
  exact Emit.lift_eq (Build.terminate_eq hcarries.flows.isOpen _)

/-! ## Joining -/

section

variable {fn : Ir.Function} {block target : Nat} {S : Nat → Prop}

theorem Finishes.freezes (h : Finishes m b block s target b₁ s₁) (hblock : b.Unfinished block) :
    Freezes S b b₁ := by
  have hmove : Freezes S b (b.moveTo block) := .of_same fun _ => rfl
  exact hmove.trans (.of_extends h.closes.ext (Ir.Builder.isOpen_moveTo.mpr hblock))

/-- Other blocks stay as they are. -/
theorem Finishes.kept (h : Finishes m b block s target b₁ s₁) {id : Nat} (hid : id < b.blockCount)
    (hne : id ≠ block) : b₁.block? id = b.block? id :=
  h.closes.ext.kept id hid (by simpa using hne.symm)

/-- The code of an arm has got into a function with all that came behind it. -/
theorem Finishes.comes_in (h : Finishes m b block s target b₁ s₁) (hblock : n ≤ block)
    (hcount : n ≤ b.blockCount) (hfreezes : Freezes (n ≤ ·) b₁ b₂) (hfn : Receives (n ≤ ·) fn b₂) :
    m.Comes fn (moment (b.moveTo block) s) ⟨target, 0, s₁⟩ := by
  have hreaches : ∀ id, (b.moveTo block).Reaches id → n ≤ id := by
    rintro id (hid | hle)
    · cases hid
      exact hblock
    · exact Nat.le_trans hcount hle
  exact h.comes fn ((hfn.part (fun _ => id) hfreezes).part hreaches
    (.of_same fun _ => rfl))

theorem moment_moveTo {id : Nat} (h : b₁.block? id = b.block? id) (s : State) :
    moment (b₁.moveTo id) s = moment (b.moveTo id) s := by
  rw [moment, moment, offset, offset, here_eq rfl, here_eq rfl, Ir.Builder.block?_moveTo,
    Ir.Builder.block?_moveTo, h]

/-- Coming back to the insertion point. -/
theorem moment_here (h : b₁.block? (here b) = b.block? (here b)) (s : State) :
    moment (b₁.moveTo (here b)) s = moment b s := by
  rw [moment_moveTo h, moment, moment, offset, offset, here_eq rfl, Ir.Builder.block?_moveTo]

end

/-- Both arms of a conditional are filled and not closed yet. Its blocks are those from `n` on, and
the one in which control goes on behind it is empty. -/
structure Pending (n origin trueEnd falseEnd : Nat) (b : Builder) : Prop where
  origin_lt : origin < n
  count : n + 2 < b.blockCount
  le_true : n ≤ trueEnd
  openTrue : b.Unfinished trueEnd
  le_false : n ≤ falseEnd
  openFalse : b.Unfinished falseEnd
  ne : falseEnd ≠ trueEnd
  joined_ne : n + 2 ≠ trueEnd ∧ n + 2 ≠ falseEnd
  joined : ∃ content, b.block? (n + 2) = some content ∧ content.insts = #[] ∧
    content.terminator = none

/-- Control has come out of both arms. -/
structure Joined (m : Machine) (n origin trueEnd falseEnd : Nat) (b : Builder) (sTrue sFalse : State)
    (b' : Builder) (sTrue' sFalse' : State) : Prop where
  isOpen : b'.IsOpen
  reaches : ∀ id, b'.Reaches id → n ≤ id
  freezes : Freezes (n ≤ ·) b b'
  origin : b'.block? origin = b.block? origin
  comesTrue : ∀ fn, Receives (n ≤ ·) fn b' →
    m.Comes fn (moment (b.moveTo trueEnd) sTrue) (moment b' sTrue')
  comesFalse : ∀ fn, Receives (n ≤ ·) fn b' →
    m.Comes fn (moment (b.moveTo falseEnd) sFalse) (moment b' sFalse')

namespace Pending

variable {origin trueEnd falseEnd : Nat} {sTrue sFalse sTrue' sFalse' : State}

theorem allocIn (h : Pending n origin trueEnd falseEnd b) (ty : Ir.Ty) (name : String) :
    Pending n origin trueEnd falseEnd (b.allocIn origin ty name) where
  origin_lt := h.origin_lt
  count := by simpa using h.count
  le_true := h.le_true
  openTrue := (Builder.Unfinished.allocIn origin ty name).mpr h.openTrue
  le_false := h.le_false
  openFalse := (Builder.Unfinished.allocIn origin ty name).mpr h.openFalse
  ne := h.ne
  joined_ne := h.joined_ne
  joined := by
    have hlt := h.origin_lt
    rw [Ir.Builder.block?_allocIn, if_neg (by omega)]
    exact h.joined

theorem joins (h : Pending n origin trueEnd falseEnd b)
    (htrue : Finishes m b trueEnd sTrue (n + 2) b₁ sTrue')
    (hfalse : Finishes m b₁ falseEnd sFalse (n + 2) b₂ sFalse') :
    Joined m n origin trueEnd falseEnd b sTrue sFalse (b₂.moveTo (n + 2)) sTrue' sFalse' := by
  have hlt := h.origin_lt
  have hcount := h.count
  have hle := h.le_true
  have hle' := h.le_false
  have hcount₁ : b.blockCount ≤ b₁.blockCount := htrue.closes.ext.blockCount_le
  have hun₁ : b₁.Unfinished falseEnd := (htrue.closes.unfinished _).mpr ⟨h.openFalse, h.ne⟩
  have hkept : ∀ id, id < b.blockCount → id ≠ trueEnd → id ≠ falseEnd →
      b₂.block? id = b.block? id := fun id hid hT hF =>
    (hfalse.kept (Nat.lt_of_lt_of_le hid hcount₁) hF).trans (htrue.kept hid hT)
  have hfreezes₁ : Freezes (n ≤ ·) b b₁ := htrue.freezes h.openTrue
  have hfreezes₂ : Freezes (n ≤ ·) b₁ b₂ := hfalse.freezes hun₁
  obtain ⟨content, hcontent, hempty, hnone⟩ := h.joined
  have hjoined : b₂.block? (n + 2) = some content :=
    (hkept _ hcount h.joined_ne.1 h.joined_ne.2).trans hcontent
  have hmoment : ∀ s, moment (b₂.moveTo (n + 2)) s = ⟨n + 2, 0, s⟩ := fun s => by
    rw [moment_eq (b := b₂.moveTo (n + 2)) rfl hjoined, hempty]
    rfl
  have hcount₂ : b₁.blockCount ≤ b₂.blockCount := hfalse.closes.ext.blockCount_le
  refine ⟨?_, ?_, hfreezes₁.trans hfreezes₂, hkept origin (by omega) (by omega) (by omega), ?_, ?_⟩
  · exact Ir.Builder.isOpen_moveTo.mpr ⟨content, hjoined, hnone⟩
  · rintro id (hid | hle)
    · cases hid
      omega
    · rw [Ir.Builder.blockCount_moveTo] at hle
      omega
  · intro fn hfn
    rw [hmoment]
    exact htrue.comes_in hle (by omega) hfreezes₂ hfn
  · intro fn hfn
    rw [hmoment, ← moment_moveTo (htrue.kept h.openFalse.lt h.ne)]
    exact hfalse.comes_in hle' (by omega) (.of_same fun _ => rfl) hfn

end Pending

/-- Code is added behind both arms. -/
theorem Joined.append {origin trueEnd falseEnd n' : Nat} {sTrue sFalse sTrue' sFalse' : State}
    (h : Joined m n origin trueEnd falseEnd b sTrue sFalse b' sTrue' sFalse') (hlt : origin < n)
    {code : List Inst} (hcode : Numbered b'.nextTemp code n') :
    Joined m n origin trueEnd falseEnd b sTrue sFalse (b'.append code n') (m.runAll code sTrue')
      (m.runAll code sFalse') := by
  have hcarries : ∀ s, Carries m b' s (b'.append code n') (m.runAll code s) :=
    fun s => .append h.isOpen hcode
  have hext := (hcarries sTrue').flows.ext
  have hfreezes : Freezes (n ≤ ·) b' (b'.append code n') := .of_extends hext h.isOpen
  have hcomes : ∀ fn s, Receives (n ≤ ·) fn (b'.append code n') →
      m.Comes fn (moment b' s) (moment (b'.append code n') (m.runAll code s)) :=
    fun fn s hfn => (hcarries s).comes fn (hfn.part h.reaches (.of_same fun _ => rfl))
  refine ⟨(hcarries sTrue').flows.isOpen, ?_, h.freezes.trans hfreezes, ?_, ?_, ?_⟩
  · exact fun id hid => h.reaches id (reaches_of_extends hext hid)
  · have hne : b'.insertion ≠ some origin := fun hins =>
      absurd (h.reaches origin (.inl hins)) (Nat.not_le.mpr hlt)
    rw [Ir.Builder.block?_append, if_neg hne, h.origin]
  · exact fun fn hfn =>
      (h.comesTrue fn (hfn.part (fun _ => id) hfreezes)).trans (hcomes fn sTrue' hfn)
  · exact fun fn hfn =>
      (h.comesFalse fn (hfn.part (fun _ => id) hfreezes)).trans (hcomes fn sFalse' hfn)

/-- What is added to the block in which a conditional of a type begins: the slot for the result. -/
def slotCode (ty : Ty) (result : Nat) : List Inst :=
  if ty = .void then [] else [.alloca result ty.toIr "cond"]

theorem slotCode_spans (m : Machine) (ty : Ty) (result : Nat) (s : State) :
    s.Spans result (result + 1) (m.runAll (slotCode ty result) s) := by
  unfold slotCode
  split
  · exact (State.Spans.refl result s).widen (Nat.le_refl _) (Nat.le_succ _)
  · exact .of_code (.of_result rfl) m s

theorem slotCode_underlies (h : w.Underlies k s.world) (m : Machine) (ty : Ty) (result : Nat) :
    w.Underlies k (m.runAll (slotCode ty result) s).world := by
  unfold slotCode
  split
  · exact h
  · exact h.alloc ty.toIr

/-- An arm that ends in a state with its value, of a type that becomes that of the conditional. What
comes behind both arms is not touched. -/
structure EndsWith (m : Machine) (b : Builder) (s₀ s : State) (a : TypedValue) (t ty : Ty)
    (d : Datum) : Prop where
  above : ∀ i, b.nextTemp ≤ i → s.temps i = s₀.temps i
  slots : s₀.world.slots.length ≤ s.world.slots.length
  holds : HoldsTyped m b.nextTemp s a t d
  becomes : t.becomes ty

/-- From the end of an arm on, the value of the arm becomes that of the conditional. -/
structure Emerges (m : Machine) (k : Nat) (b : Builder) (s : State) (b' : Builder) (s' : State)
    (r : TypedValue) (ty : Ty) (d : Datum) : Prop where
  spans : s.Spans b.nextTemp b'.nextTemp s'
  world : ∀ w : World, w.Underlies k s.world → w.Underlies k s'.world
  holds : HoldsTyped m b'.nextTemp s' r ty d

/-- Behind the arms, control has come out of either one with its value. -/
structure Meets (m : Machine) (k n origin trueEnd falseEnd : Nat) (b : Builder)
    (s sTrue sFalse : State) (r : TypedValue) (ty : Ty) (dTrue dFalse : Datum) (b' : Builder)
    (sTrue' sFalse' : State) : Prop where
  joins : Joins b origin trueEnd falseEnd (n + 2) b'
  freezes : Freezes (n ≤ ·) b b'
  origin : b'.block? origin = (b.block? origin).map (·.append (slotCode ty b.nextTemp))
  slot : s.Spans b.nextTemp b'.nextTemp (m.runAll (slotCode ty b.nextTemp) s)
  comesTrue : ∀ fn, Receives (n ≤ ·) fn b' →
    m.Comes fn (moment (b.moveTo trueEnd) sTrue) (moment b' sTrue')
  comesFalse : ∀ fn, Receives (n ≤ ·) fn b' →
    m.Comes fn (moment (b.moveTo falseEnd) sFalse) (moment b' sFalse')
  emergesTrue : Emerges m k b sTrue b' sTrue' r ty dTrue
  emergesFalse : Emerges m k b sFalse b' sFalse' r ty dFalse

section

variable {origin trueEnd falseEnd : Nat} {sTrue sFalse : State} {tTrue tFalse : Ty}
  {dTrue dFalse : Datum}

/-- Arms without a value just go on. -/
theorem joinArms_void (h : Pending n origin trueEnd falseEnd b)
    (hty : armTy ifTrue.ty ifFalse.ty = .void) :
    ∃ b', joinArms origin trueEnd falseEnd (n + 2) ifTrue ifFalse b = .ok ⟨.undefined, .void⟩ b' ∧
      Meets m k n origin trueEnd falseEnd b s sTrue sFalse ⟨.undefined, .void⟩ .void .undefined
        .undefined b' sTrue sFalse := by
  have hopen := Ir.Builder.isOpen_moveTo.mpr h.openTrue
  have htrue : Finishes m b trueEnd sTrue (n + 2) _ sTrue := (Carries.refl hopen sTrue).finishes (n + 2)
  have hun := (htrue.closes.unfinished falseEnd).mpr ⟨h.openFalse, h.ne⟩
  have hopen' := Ir.Builder.isOpen_moveTo.mpr hun
  have hfalse : Finishes m _ falseEnd sFalse (n + 2) _ sFalse :=
    (Carries.refl hopen' sFalse).finishes (n + 2)
  have hjoined := h.joins htrue hfalse
  have hrun : joinArms origin trueEnd falseEnd (n + 2) ifTrue ifFalse b =
      .ok ⟨.undefined, .void⟩ (((((b.moveTo trueEnd).close (.branch (n + 2))).moveTo falseEnd).close
        (.branch (n + 2))).moveTo (n + 2)) := by
    unfold joinArms
    simp only [hty, if_true]
    rw [Emit.bind_eq (Emit.lift_eq (Build.position_eq trueEnd)),
      Emit.bind_eq (branch_eq hopen _), Emit.bind_eq (Emit.lift_eq (Build.position_eq falseEnd)),
      Emit.bind_eq (branch_eq hopen' _),
      Emit.bind_eq (Emit.lift_eq (Build.position_eq (n + 2)))]
    rfl
  have hemerges : ∀ s (b' : Builder), b'.nextTemp = b.nextTemp →
      Emerges m k b s b' s ⟨.undefined, .void⟩ .void .undefined := fun s b' hb' =>
    ⟨hb' ▸ .refl _ s, fun _ h => h, rfl, .constant rfl rfl⟩
  exact ⟨_, hrun, {
    joins := .of_closes (fun _ h _ => h) (fun _ => Iff.rfl) htrue.closes hfalse.closes
    freezes := hjoined.freezes
    origin := by
      rw [hjoined.origin]
      simp [slotCode]
    slot := .refl _ s
    comesTrue := hjoined.comesTrue
    comesFalse := hjoined.comesFalse
    emergesTrue := hemerges sTrue _ (by simp)
    emergesFalse := hemerges sFalse _ (by simp) }⟩

/-- What was stored in the slot is read again behind the arms. -/
theorem load_emerges {b₀ : Builder} {j : Nat} (hk : k ≤ j) (hnext : b₀.nextTemp = b.nextTemp + 1)
    (hslot : s'.temps b.nextTemp = .address (.slot j) []) (hj : j < s.world.slots.length)
    (hspans : s.Spans b₀.nextTemp b₁.nextTemp s')
    (hworld : s'.world = s.world.write (.address (.slot j) []) d) :
    Emerges m k b s
      (b₁.append [.load b₁.nextTemp ty.toIr (.temp b.nextTemp)] (b₁.nextTemp + 1))
      (m.runAll [.load b₁.nextTemp ty.toIr (.temp b.nextTemp)] s') ⟨.temp b₁.nextTemp, ty⟩ ty d where
  spans := by
    rw [Ir.Builder.nextTemp_append]
    exact (hspans.widen (by omega) (Nat.le_refl _)).trans (.of_code (.of_result rfl) m s')
  world w hw := by
    have hwrite := hw.write_behind hk [] d
    rw [← hworld] at hwrite
    exact hwrite
  holds := by
    refine ⟨rfl, ?_⟩
    have hread : s'.world.read (s'.temps b.nextTemp) = d := by
      rw [hslot, hworld]
      exact write_slot_read hj d
    rw [Ir.Builder.nextTemp_append, Machine.runAll_cons, Machine.runAll_nil, Machine.run, ← hread]
    exact .temp m b₁.nextTemp s' _

/-- The value of either arm is stored in the slot and read again behind. -/
theorem joinArms_slot (h : Pending n origin trueEnd falseEnd b)
    (hty : armTy ifTrue.ty ifFalse.ty = ty) (hvoid : ty ≠ .void) (hk : k ≤ s.world.slots.length)
    (htrue : EndsWith m b (m.runAll (slotCode ty b.nextTemp) s) sTrue ifTrue tTrue ty dTrue)
    (hfalse : EndsWith m b (m.runAll (slotCode ty b.nextTemp) s) sFalse ifFalse tFalse ty dFalse) :
    ∃ r b' sTrue' sFalse', joinArms origin trueEnd falseEnd (n + 2) ifTrue ifFalse b = .ok r b' ∧
      Meets m k n origin trueEnd falseEnd b s sTrue sFalse r ty
        (Meaning.brought m.arithmetic tTrue ty dTrue) (Meaning.brought m.arithmetic tFalse ty dFalse)
        b' sTrue' sFalse' := by
  have hcode : slotCode ty b.nextTemp = [.alloca b.nextTemp ty.toIr "cond"] := if_neg hvoid
  have hlt := h.origin_lt
  have hcount := h.count
  -- The address of the slot is known from the beginning of the arms on.
  have haddress : ∀ s₁, (∀ i, b.nextTemp ≤ i →
      s₁.temps i = (m.runAll (slotCode ty b.nextTemp) s).temps i) →
      m.Holds (b.nextTemp + 1) s₁ (.temp b.nextTemp) (.address (.slot s.world.slots.length) []) := by
    intro s₁ habove
    refine ⟨fun t ht => Option.some.inj ht ▸ Nat.lt_succ_self _, ?_⟩
    rw [Machine.read, habove _ (Nat.le_refl _), hcode]
    exact if_pos rfl
  have hslots : s.world.slots.length < (m.runAll (slotCode ty b.nextTemp) s).world.slots.length := by
    rw [hcode]
    simp [Machine.run, State.set, World.alloc]
  have hpending := h.allocIn ty.toIr "cond"
  obtain ⟨b₁, sTrue', hrun₁, hfinish₁, hworld₁⟩ := endArm_finishes (n + 2) hpending.openTrue
    htrue.becomes (haddress _ htrue.above) (htrue.holds.later ⟨Nat.le_succ _, fun _ _ => rfl⟩)
  have hle₁ := hfinish₁.spans.later.le
  have hun₁ := (hfinish₁.closes.unfinished falseEnd).mpr ⟨hpending.openFalse, h.ne⟩
  obtain ⟨b₂, sFalse', hrun₂, hfinish₂, hworld₂⟩ := endArm_finishes (n + 2) hun₁ hfalse.becomes
    ((haddress _ hfalse.above).later ⟨hle₁, fun _ _ => rfl⟩)
    (hfalse.holds.later ⟨Nat.le_trans (Nat.le_succ _) hle₁, fun _ _ => rfl⟩)
  have hle₂ := hfinish₂.spans.later.le
  have hmet := hpending.joins hfinish₁ hfinish₂
  have hnumbered : Numbered (b₂.moveTo (n + 2)).nextTemp
      [.load b₂.nextTemp ty.toIr (.temp b.nextTemp)] (b₂.nextTemp + 1) := .of_result rfl
  have hjoined := hmet.append hlt hnumbered
  have hjoins : Joins b origin trueEnd falseEnd (n + 2) (b₂.moveTo (n + 2)) :=
    .of_closes (fun _ h ho => h.allocIn ho _ _) (fun _ => Ir.Builder.Unfinished.allocIn _ _ _)
      hfinish₁.closes hfinish₂.closes
  have hload : (liftM (Build.load ty.toIr (.temp b.nextTemp)) : Emit Ir.Value) (b₂.moveTo (n + 2)) =
      .ok (.temp b₂.nextTemp) ((b₂.moveTo (n + 2)).append
        [.load b₂.nextTemp ty.toIr (.temp b.nextTemp)] (b₂.nextTemp + 1)) :=
    Emit.lift_eq (Build.emitValue_eq hmet.isOpen _)
  have hrun : joinArms origin trueEnd falseEnd (n + 2) ifTrue ifFalse b = .ok ⟨.temp b₂.nextTemp, ty⟩
      ((b₂.moveTo (n + 2)).append [.load b₂.nextTemp ty.toIr (.temp b.nextTemp)] (b₂.nextTemp + 1)) := by
    unfold joinArms
    simp only [hty, if_neg hvoid]
    rw [Emit.bind_eq (Emit.lift_eq (Build.allocaIn_eq (by omega) _ _)), Emit.bind_eq hrun₁,
      Emit.bind_eq hrun₂, Emit.bind_eq (Emit.lift_eq (Build.position_eq (n + 2))), Emit.bind_eq hload]
    rfl
  have hmoment : ∀ {id : Nat}, n ≤ id → ∀ s,
      moment ((b.allocIn origin ty.toIr "cond").moveTo id) s = moment (b.moveTo id) s := by
    intro id hid s
    apply moment_moveTo
    rw [Ir.Builder.block?_allocIn, if_neg (by omega)]
  have hslot₁ := (hfinish₁.spans.later.temps _ (Nat.lt_succ_self _)).trans
    (haddress _ htrue.above).read
  have hslot₂ := (hfinish₂.spans.later.temps _ (Nat.lt_of_succ_le hle₁)).trans
    (haddress _ hfalse.above).read
  exact ⟨_, _, _, _, hrun, {
    joins := hjoins.append hmet.isOpen _ (Nat.le_succ _)
    freezes := (Freezes.allocIn (fun id hid => by omega) _ _).trans hjoined.freezes
    origin := by rw [hjoined.origin, Ir.Builder.block?_allocIn, if_pos rfl, hcode]
    slot := by
      rw [Ir.Builder.nextTemp_append]
      exact (slotCode_spans m ty b.nextTemp s).widen
        (Nat.le_refl _) (Nat.le_succ_of_le (Nat.le_trans hle₁ hle₂))
    comesTrue := fun fn hfn => by
      rw [← hmoment h.le_true]
      exact hjoined.comesTrue fn hfn
    comesFalse := fun fn hfn => by
      rw [← hmoment h.le_false]
      exact hjoined.comesFalse fn hfn
    emergesTrue := load_emerges hk rfl hslot₁ (Nat.lt_of_lt_of_le hslots htrue.slots)
      (hfinish₁.spans.widen (Nat.le_refl _) hle₂) hworld₁
    emergesFalse := load_emerges hk rfl hslot₂ (Nat.lt_of_lt_of_le hslots hfalse.slots)
      (hfinish₂.spans.widen hle₁ (Nat.le_refl _)) hworld₂ }⟩

/-- Control comes out of either arm with its value, if the arms have any. -/
theorem joinArms_meets (h : Pending n origin trueEnd falseEnd b)
    (hty : armTy ifTrue.ty ifFalse.ty = ty) (hk : k ≤ s.world.slots.length)
    (htrue : EndsWith m b (m.runAll (slotCode ty b.nextTemp) s) sTrue ifTrue tTrue ty dTrue)
    (hfalse : EndsWith m b (m.runAll (slotCode ty b.nextTemp) s) sFalse ifFalse tFalse ty dFalse) :
    ∃ r b' sTrue' sFalse', joinArms origin trueEnd falseEnd (n + 2) ifTrue ifFalse b = .ok r b' ∧
      Meets m k n origin trueEnd falseEnd b s sTrue sFalse r ty
        (Meaning.ofTy ty (Meaning.brought m.arithmetic tTrue ty dTrue))
        (Meaning.ofTy ty (Meaning.brought m.arithmetic tFalse ty dFalse)) b' sTrue' sFalse' := by
  by_cases hvoid : ty = .void
  · subst hvoid
    obtain ⟨b', hrun, hmeets⟩ := joinArms_void h hty
    exact ⟨_, b', sTrue, sFalse, hrun, hmeets⟩
  · have hofTy : ∀ d, Meaning.ofTy ty d = d := fun d => if_neg hvoid
    rw [hofTy, hofTy]
    exact joinArms_slot h hty hvoid hk htrue hfalse

end

/-! ## Going into an arm -/

/-- The blocks of a conditional are added, and control goes to one of its arms. -/
def split (b : Builder) (condition : Ir.Value) : Builder :=
  b.fork ["cond.then", "cond.else", "cond.end"]
    (.condBranch condition b.blockCount (b.blockCount + 1))

/-- The arms of a conditional are lowered one after the other. -/
structure Filled (b : Builder) (condition : Ir.Value) (b₁ b₂ : Builder) : Prop where
  isOpen : b.IsOpen
  flowsTrue : ((split b condition).moveTo b.blockCount).Flows b₁
  flowsFalse : (b₁.moveTo (b.blockCount + 1)).Flows b₂

section

variable {condition : Ir.Value} {fn : Ir.Function}

theorem blockCount_split (condition : Ir.Value) (hb : b.IsOpen) :
    (split b condition).blockCount = b.blockCount + 3 :=
  Ir.Builder.blockCount_fork _ _ hb

theorem unfinished_split (hb : b.IsOpen) (id : Nat) : (split b condition).Unfinished id ↔
    b.Waits id ∨ b.blockCount ≤ id ∧ id < b.blockCount + 3 :=
  Ir.Builder.unfinished_fork _ _ hb id

/-- The new blocks are empty. -/
theorem block?_split (condition : Ir.Value) (hb : b.IsOpen) {id : Nat} (hle : b.blockCount ≤ id)
    (hlt : id < b.blockCount + 3) : ∃ content, (split b condition).block? id = some content ∧
      content.insts = #[] ∧ content.terminator = none := by
  have hfresh : Draft.Fresh ⟨split b condition, []⟩ id := Draft.fresh_fork hb (by simp) hle hlt
  exact hfresh.content

/-- The block of the other arm waits until the first one has been lowered. -/
theorem isOpen_false (hb : b.IsOpen) (h : ((split b condition).moveTo b.blockCount).Flows b₁) :
    (b₁.moveTo (b.blockCount + 1)).IsOpen := by
  have hwaits := (h.waits (b.blockCount + 1)).mpr
    ⟨(unfinished_split hb _).mpr (by omega), by simp⟩
  exact Ir.Builder.isOpen_moveTo.mpr hwaits.1

/-- Control goes from where a conditional begins to one of its arms, behind what was added to the
block later. -/
theorem comes_arm (hb : b.IsOpen) (code : List Inst) (hfn : fn.blocks[here b]? =
      ((split b condition).block? (here b)).map (·.append code)) (s : State) :
    m.Comes fn (moment b s) ⟨if (m.read (m.runAll code s) condition).isTrue then b.blockCount
      else b.blockCount + 1, 0, m.runAll code s⟩ := by
  obtain ⟨id, hid, block, hblock, -⟩ := id hb
  have hsplit : (split b condition).block? id =
      some (block.close (.condBranch condition b.blockCount (b.blockCount + 1))) := by
    rw [split, Ir.Builder.fork, Ir.Builder.block?_close, Ir.Builder.insertion_addBlocks, if_pos hid,
      Ir.Builder.block?_addBlocks_of_lt _ hb.isSome (Ir.Builder.lt_blockCount hblock), hblock]
    rfl
  rw [here_eq hid, hsplit, Option.map_some] at hfn
  have hcode := Machine.comes_code (m := m) (s := s) hfn block.insts.toList code [] (by simp)
  have hleave := Machine.comes_terminator (m := m) (s := m.runAll code s) hfn rfl rfl
  rw [Array.length_toList] at hcode
  have hsize : ((block.close (.condBranch condition b.blockCount (b.blockCount + 1))).append
      code).insts.size = block.insts.size + code.length := by simp
  rw [hsize] at hleave
  rw [moment_eq hid hblock]
  exact hcode.trans hleave

namespace Filled

variable {b₃ : Builder} (h : Filled b condition b₁ b₂)

include h

theorem le_true : b.blockCount ≤ here b₁ := by
  rcases h.flowsTrue.ext.current (insertion_here h.flowsTrue.isOpen) with hid | hle
  · exact Nat.le_of_eq (Option.some.inj hid)
  · rw [Ir.Builder.blockCount_moveTo, blockCount_split _ h.isOpen] at hle
    omega

theorem count : b.blockCount + 3 ≤ b₁.blockCount := by
  rw [← blockCount_split condition h.isOpen]
  exact h.flowsTrue.ext.blockCount_le

/-- Going on from the end of the first arm. -/
theorem moment_end (s : State) : moment (b₂.moveTo (here b₁)) s = moment b₁ s := by
  have hne : b₁.insertion ≠ some (b.blockCount + 1) := by
    have hwaits := (h.flowsTrue.waits (b.blockCount + 1)).mpr
      ⟨(unfinished_split h.isOpen _).mpr (by omega), by simp⟩
    exact hwaits.2
  rw [insertion_here h.flowsTrue.isOpen] at hne
  apply moment_here
  exact h.flowsFalse.ext.kept _ (unfinished_here h.flowsTrue.isOpen).lt (by
    intro heq
    exact hne heq.symm)

theorem count' : b₁.blockCount ≤ b₂.blockCount :=
  h.flowsFalse.ext.blockCount_le

theorem le_false : b.blockCount ≤ here b₂ := by
  have hcount := h.count
  rcases h.flowsFalse.ext.current (insertion_here h.flowsFalse.isOpen) with hid | hle
  · exact Nat.le_of_succ_le (Nat.le_of_eq (Option.some.inj hid))
  · rw [Ir.Builder.blockCount_moveTo] at hle
    omega

/-- Of the blocks that were there, those of the arms were filled, and no other ones. -/
theorem kept {id : Nat} (hid : id < b.blockCount + 3) (htrue : id ≠ b.blockCount)
    (hfalse : id ≠ b.blockCount + 1) : b₂.block? id = (split b condition).block? id := by
  have hcount := h.count
  rw [h.flowsFalse.ext.kept id (by simpa using (by omega : id < b₁.blockCount))
    (by simpa using hfalse.symm)]
  have hsplit := blockCount_split condition h.isOpen
  exact h.flowsTrue.ext.kept id (by simpa [hsplit] using hid) (by simpa using htrue.symm)

theorem armsEnd : ArmsEnd (split b condition) b.blockCount (here b₁) (here b₂) b₂ :=
  .of_flows ((unfinished_split h.isOpen _).mpr (by omega)) h.flowsTrue
    (insertion_here h.flowsTrue.isOpen) h.flowsFalse (insertion_here h.flowsFalse.isOpen)

theorem pending : Pending b.blockCount (here b) (here b₁) (here b₂) b₂ where
  origin_lt := (unfinished_here h.isOpen).lt
  count := by
    have hcount := h.count
    have hcount' := h.count'
    omega
  le_true := h.le_true
  openTrue := (h.armsEnd.unfinished _).mpr (.inr (.inl rfl))
  le_false := h.le_false
  openFalse := (h.armsEnd.unfinished _).mpr (.inr (.inr rfl))
  ne := h.armsEnd.ne
  joined_ne := h.armsEnd.new _ ((unfinished_split h.isOpen _).mpr (by omega)) (by omega) (by omega)
  joined := by
    rw [h.kept (by omega) (by omega) (by omega)]
    exact block?_split _ h.isOpen (by omega) (by omega)

/-- The arms begin where control goes to. -/
theorem moment_true (s : State) :
    moment ((split b condition).moveTo b.blockCount) s = ⟨b.blockCount, 0, s⟩ := by
  obtain ⟨content, hcontent, hempty, -⟩ :=
    block?_split condition h.isOpen (Nat.le_refl _) (by omega)
  rw [moment_eq (b := (split b condition).moveTo b.blockCount) rfl hcontent, hempty]
  rfl

theorem moment_false (s : State) :
    moment (b₁.moveTo (b.blockCount + 1)) s = ⟨b.blockCount + 1, 0, s⟩ := by
  obtain ⟨content, hcontent, hempty, -⟩ :=
    block?_split condition h.isOpen (Nat.le_succ _) (by omega)
  have hsplit := blockCount_split condition h.isOpen
  have hkept := h.flowsTrue.ext.kept (b.blockCount + 1) (by simp [hsplit]) (by simp)
  rw [moment_eq (b := b₁.moveTo (b.blockCount + 1)) rfl (hkept.trans hcontent), hempty]
  rfl

/-- What has got into a function behind both arms had got there behind each of them. -/
theorem receives_true (hfn : Receives (b.blockCount ≤ ·) fn b₂) :
    Receives ((split b condition).moveTo b.blockCount).Reaches fn b₁ := by
  have hmove : Freezes (b.blockCount ≤ ·) b₁ (b₁.moveTo (b.blockCount + 1)) := .of_same fun _ => rfl
  have hfreezes := hmove.trans (.of_extends h.flowsFalse.ext
    (isOpen_false h.isOpen h.flowsTrue))
  refine (hfn.part (fun _ => id) hfreezes).part ?_ (.of_same fun _ => rfl)
  rintro id (hid | hle)
  · exact Nat.le_of_eq (Option.some.inj hid)
  · rw [Ir.Builder.blockCount_moveTo, blockCount_split _ h.isOpen] at hle
    omega

theorem receives_false (hfn : Receives (b.blockCount ≤ ·) fn b₂) :
    Receives (b₁.moveTo (b.blockCount + 1)).Reaches fn b₂ := by
  have hcount := h.count
  refine hfn.part ?_ (.of_same fun _ => rfl)
  rintro id (hid | hle)
  · exact Nat.le_of_succ_le (Nat.le_of_eq (Option.some.inj hid))
  · rw [Ir.Builder.blockCount_moveTo] at hle
    omega

theorem flows (hjoins : Joins b₂ (here b) (here b₁) (here b₂) (b.blockCount + 2) b₃) : b.Flows b₃ := by
  obtain ⟨hun, hext⟩ := h.armsEnd.joins hjoins
  have hsplit : b.Extends (split b condition) := (Ir.Builder.Extends.refl b).fork _ _ h.isOpen
  exact flows_behind_arms (.refl h.isOpen) rfl hjoins.insertion hun
    (hext b hsplit (.inl (insertion_here h.isOpen)) (Nat.le_refl _))

variable {sTrue sFalse sTrue' sFalse' : State} {r : TypedValue} {dTrue dFalse : Datum}

/-- Control goes into an arm. -/
theorem comes_in (hmeets : Meets m k b.blockCount (here b) (here b₁) (here b₂) b₂ s sTrue sFalse r ty
      dTrue dFalse b₃ sTrue' sFalse') (hfn : Receives b.Reaches fn b₃) :
    m.Comes fn (moment b s)
      ⟨if (m.read (m.runAll (slotCode ty b₂.nextTemp) s) condition).isTrue then b.blockCount
        else b.blockCount + 1, 0, m.runAll (slotCode ty b₂.nextTemp) s⟩ := by
  have hlt := (unfinished_here h.isOpen).lt
  have horigin := hmeets.origin
  rw [h.kept (by omega) (by omega) (by omega)] at horigin
  apply comes_arm h.isOpen
  obtain ⟨content, hcontent, -, hterm⟩ := Draft.block?_fork h.isOpen
    ["cond.then", "cond.else", "cond.end"] (.condBranch condition b.blockCount (b.blockCount + 1))
  have hsplit : (split b condition).block? (here b) = some content := hcontent
  rw [hsplit, Option.map_some] at horigin ⊢
  exact hfn.closed (.inl (insertion_here h.isOpen)) horigin (by
    simp [Ir.Block.isTerminated, Ir.Block.append, hterm])

/-- Control goes through an arm and comes out behind both. -/
theorem carries {first last : Builder} {s' s'' : State}
    (hmeets : Meets m k b.blockCount (here b) (here b₁) (here b₂) b₂ s sTrue sFalse r ty dTrue dFalse
      b₃ sTrue' sFalse')
    (hbegins : moment first (m.runAll (slotCode ty b₂.nextTemp) s) =
      ⟨if (m.read (m.runAll (slotCode ty b₂.nextTemp) s) condition).isTrue then b.blockCount
        else b.blockCount + 1, 0, m.runAll (slotCode ty b₂.nextTemp) s⟩)
    (harm : Carries m first (m.runAll (slotCode ty b₂.nextTemp) s) last s')
    (hfirst : b.nextTemp ≤ first.nextTemp) (hlast : last.nextTemp ≤ b₂.nextTemp)
    (hreceives : ∀ fn, Receives (b.blockCount ≤ ·) fn b₂ → Receives first.Reaches fn last)
    (hcomes : ∀ fn, Receives (b.blockCount ≤ ·) fn b₃ → m.Comes fn (moment last s') (moment b₃ s''))
    (hspans : s'.Spans b₂.nextTemp b₃.nextTemp s'') : Carries m b s b₃ s'' where
  flows := h.flows hmeets.joins
  spans := by
    have hle := harm.spans.later.le
    have hle' := hspans.later.le
    have hlow : b.nextTemp ≤ b₂.nextTemp := Nat.le_trans hfirst (Nat.le_trans hle hlast)
    exact ((hmeets.slot.widen hlow (Nat.le_refl _)).again
      (harm.spans.widen hfirst (Nat.le_trans hlast hle'))).again (hspans.widen hlow (Nat.le_refl _))
  comes fn hfn := by
    have hnew : Receives (b.blockCount ≤ ·) fn b₃ := hfn.part (fun _ => .inr) (.of_same fun _ => rfl)
    have hin := h.comes_in hmeets hfn
    rw [← hbegins] at hin
    exact (hin.trans (harm.comes fn (hreceives fn (hnew.part (fun _ => id) hmeets.freezes)))).trans
      (hcomes fn hnew)

end Filled

/-! ## Both arms -/

/-- The part of a conditional behind its test. -/
def branches (g : SymbolTable) (condition : Ir.Value) (ifTrue ifFalse : Expr) : Emit TypedValue := do
  let origin ← orFault (← get).insertion .conditionalOutsideBlock
  let trueBlock ← Build.createBlock "cond.then"
  let falseBlock ← Build.createBlock "cond.else"
  let joined ← Build.createBlock "cond.end"
  Build.condBranch condition trueBlock falseBlock
  arms g ifTrue ifFalse origin trueBlock falseBlock joined

variable {g : SymbolTable} {ifTrue ifFalse : Expr} {trueValue falseValue : TypedValue}

theorem conditional_eq (span : Span) (test : Expr) :
    expr g (.conditional span test ifTrue ifFalse) =
      expr g test >>= fun value => coerce value .bool >>= fun condition =>
        branches g condition ifTrue ifFalse := by
  rw [expr]
  rfl

theorem createBlock_eq (hb : b.openFn.isSome) (stems : List String) (stem : String) :
    (liftM (Build.createBlock stem) : Emit Nat) (b.addBlocks stems) =
      .ok (b.blockCount + stems.length) (b.addBlocks (stems ++ [stem])) := by
  rw [Emit.lift_eq (Build.createBlock_eq (by simpa) stem), Ir.Builder.blockCount_addBlocks stems hb]
  simp only [Ir.Builder.addBlocks, List.foldl_append, List.foldl_cons, List.foldl_nil]

theorem branches_eq (hb : b.IsOpen) : branches g condition ifTrue ifFalse b =
    arms g ifTrue ifFalse (here b) b.blockCount (b.blockCount + 1) (b.blockCount + 2)
      (split b condition) := by
  have hsome := hb.isSome
  have hbranch : (liftM (Build.condBranch condition b.blockCount (b.blockCount + 1)) : Emit Unit)
      (b.addBlocks ["cond.then", "cond.else", "cond.end"]) = .ok () (split b condition) :=
    Emit.lift_eq (Build.terminate_eq (hb.addBlocks _) _)
  unfold branches
  refine (Emit.bind_eq (rfl : (get : Emit Builder) b = .ok b b)).trans ?_
  rw [insertion_here hb, orFault, pure_bind]
  refine (Emit.bind_eq (createBlock_eq hsome [] "cond.then")).trans ?_
  refine (Emit.bind_eq (createBlock_eq hsome ["cond.then"] "cond.else")).trans ?_
  refine (Emit.bind_eq (createBlock_eq hsome ["cond.then", "cond.else"] "cond.end")).trans ?_
  exact Emit.bind_eq hbranch

theorem arms_eq {origin n : Nat} {a₁ a₂ : TypedValue}
    (htrue : expr g ifTrue (b.moveTo n) = .ok a₁ b₁) (hopen₁ : b₁.IsOpen)
    (hfalse : expr g ifFalse (b₁.moveTo (n + 1)) = .ok a₂ b₂) (hopen₂ : b₂.IsOpen) :
    arms g ifTrue ifFalse origin n (n + 1) (n + 2) b =
      joinArms origin (here b₁) (here b₂) (n + 2) a₁ a₂ b₂ := by
  unfold arms
  rw [Emit.bind_eq (Emit.lift_eq (Build.position_eq n)), Emit.bind_eq htrue,
    Emit.bind_eq (currentBlockD_eq (insertion_here hopen₁)),
    Emit.bind_eq (Emit.lift_eq (Build.position_eq (n + 1))), Emit.bind_eq hfalse,
    Emit.bind_eq (currentBlockD_eq (insertion_here hopen₂))]

variable {tTrue tFalse : Ty} {rTrue rFalse : StateM World Datum}

/-- An arm that was gone through ends with its value. -/
theorem Carries.endsWith {first : Builder}
    (h : Carries m first s₁ b₁ s₂) (hle : b₁.nextTemp ≤ b.nextTemp)
    (ha : HoldsTyped m b₁.nextTemp s₂ a t d) (hbecomes : t.becomes ty) :
    EndsWith m b s₁ s₂ a t ty d where
  above i hi := h.spans.above i (Nat.le_trans hle hi)
  slots := h.spans.slots
  holds := ha.later ⟨hle, fun _ _ => rfl⟩
  becomes := hbecomes

theorem becomes_of_convertsTo {t u : Ty} (h : t.convertsTo u = true) (ht : t ≠ .error)
    (hu : u ≠ .error) : t.becomes u := by
  rcases converts_cases h ht hu with rfl | ⟨rfl, rfl⟩
  · exact .inl rfl
  · exact .inr ⟨rfl, .inl rfl⟩

theorem becomes_of_common? {t u r : Ty} (h : t.common? u = some r) (hr : r ≠ .error) :
    t.becomes r ∧ u.becomes r := by
  unfold Ty.common? at h
  split at h
  · cases h
    exact absurd rfl hr
  · next herror =>
    obtain ⟨ht, hu⟩ : t ≠ .error ∧ u ≠ .error := by simpa using herror
    split at h
    · next heq =>
      obtain rfl : t = u := by simpa using heq
      cases h
      exact ⟨.inl rfl, .inl rfl⟩
    · split at h
      · next hconverts =>
        cases h
        exact ⟨becomes_of_convertsTo hconverts ht hu, .inl rfl⟩
      · split at h
        · next hconverts =>
          cases h
          exact ⟨.inl rfl, becomes_of_convertsTo hconverts hu ht⟩
        · cases h

/-- Of the arms of a conditional the one is run that its test chooses, and no other. -/
theorem branches_realizes {test : Datum} (hcond : m.Holds b.nextTemp s condition test)
    (hcommon : tTrue.common? tFalse = some ty) (hne : ty ≠ .error)
    (htrue : ∀ b' s', s.Later b.nextTemp b'.nextTemp s' →
      Realizes m k (expr g ifTrue) rTrue b' s' w fun n s a d => HoldsTyped m n s a tTrue d)
    (hfalse : ∀ b' s', s.Later b.nextTemp b'.nextTemp s' →
      Realizes m k (expr g ifFalse) rFalse b' s' w fun n s a d => HoldsTyped m n s a tFalse d) :
    Realizes m k (branches g condition ifTrue ifFalse)
      (if test.isTrue then do
        let d ← rTrue
        return Meaning.ofTy ty (Meaning.brought m.arithmetic tTrue ty d)
      else do
        let d ← rFalse
        return Meaning.ofTy ty (Meaning.brought m.arithmetic tFalse ty d)) b s w
      fun n s a d => HoldsTyped m n s a ty d := by
  intro hb hw
  have hnext : (split b condition).nextTemp = b.nextTemp := by simp [split, Ir.Builder.fork]
  have hopen : ((split b condition).moveTo b.blockCount).IsOpen :=
    Ir.Builder.isOpen_moveTo.mpr ((unfinished_split hb _).mpr (by omega))
  -- The arms are lowered, whatever the state is in which they will run.
  obtain ⟨a₁, b₁, _, hx₁, hc₁, -⟩ := htrue ((split b condition).moveTo b.blockCount) s
    ⟨Nat.le_of_eq hnext.symm, fun _ _ => rfl⟩ hopen hw
  have hle₁ : b.nextTemp ≤ b₁.nextTemp := hnext ▸ hc₁.spans.later.le
  have hopen' := isOpen_false hb hc₁.flows
  obtain ⟨a₂, b₂, _, hx₂, hc₂, -⟩ := hfalse (b₁.moveTo (b.blockCount + 1)) s
    ⟨hle₁, fun _ _ => rfl⟩ hopen' hw
  have hle₂ : b₁.nextTemp ≤ b₂.nextTemp := hc₂.spans.later.le
  have hfilled : Filled b condition b₁ b₂ := ⟨hb, hc₁.flows, hc₂.flows⟩
  -- They run behind the code that adds the slot.
  have hslot := slotCode_spans m ty b₂.nextTemp s
  have hw₀ := slotCode_underlies hw m ty b₂.nextTemp
  have htemps : ∀ t < b.nextTemp, (m.runAll (slotCode ty b₂.nextTemp) s).temps t = s.temps t :=
    fun t ht => hslot.later.temps t (by omega)
  generalize hs₀ : m.runAll (slotCode ty b₂.nextTemp) s = s₀ at hw₀ htemps
  obtain ⟨sTrue, hcarries₁, hw₁, ha₁⟩ :=
    (htrue ((split b condition).moveTo b.blockCount) s₀
      ⟨Nat.le_of_eq hnext.symm, htemps⟩).exists_carries hopen hw₀ hx₁
  obtain ⟨sFalse, hcarries₂, hw₂, ha₂⟩ :=
    (hfalse (b₁.moveTo (b.blockCount + 1)) s₀ ⟨hle₁, htemps⟩).exists_carries hopen' hw₀ hx₂
  obtain ⟨hbecomes₁, hbecomes₂⟩ : tTrue.becomes ty ∧ tFalse.becomes ty :=
    becomes_of_common? hcommon hne
  have hty : armTy a₁.ty a₂.ty = ty := by
    rw [ha₁.ty, ha₂.ty]
    exact armTy_eq hcommon hne
  obtain ⟨r, b₃, sTrue', sFalse', hrun, hmeets⟩ := joinArms_meets (m := m) (k := k) (s := s)
    hfilled.pending hty (hw.length ▸ hw.slots.length_le)
    (hs₀ ▸ hcarries₁.endsWith hle₂ ha₁ hbecomes₁)
    (hs₀ ▸ hcarries₂.endsWith (Nat.le_refl _) ha₂ hbecomes₂)
  have hbranches := ((branches_eq hb).trans
    (arms_eq hx₁ hc₁.flows.isOpen hx₂ hc₂.flows.isOpen)).trans hrun
  have hread : m.read s₀ condition = test :=
    (hcond.later ⟨Nat.le_refl _, htemps⟩).read
  cases htest : test.isTrue with
  | true =>
    refine ⟨r, b₃, sTrue', hbranches, ?_, hmeets.emergesTrue.world _ hw₁, hmeets.emergesTrue.holds⟩
    rw [← hs₀] at hread hcarries₁
    refine hfilled.carries hmeets ?_ hcarries₁ (Nat.le_of_eq hnext.symm) hle₂
      (fun fn => hfilled.receives_true) ?_ hmeets.emergesTrue.spans
    · rw [hread, htest, if_pos rfl]
      exact hfilled.moment_true _
    · intro fn hfn
      rw [← hfilled.moment_end]
      exact hmeets.comesTrue fn hfn
  | false =>
    refine ⟨r, b₃, sFalse', hbranches, ?_, hmeets.emergesFalse.world _ hw₂, hmeets.emergesFalse.holds⟩
    rw [← hs₀] at hread hcarries₂
    refine hfilled.carries hmeets ?_ hcarries₂ hle₁ (Nat.le_refl _)
      (fun fn => hfilled.receives_false) ?_ hmeets.emergesFalse.spans
    · rw [hread, htest, if_neg Bool.false_ne_true]
      exact hfilled.moment_false _
    · intro fn hfn
      rw [← moment_here (b := b₂) rfl]
      exact hmeets.comesFalse fn hfn

end

end ShaderLang.Lowering
