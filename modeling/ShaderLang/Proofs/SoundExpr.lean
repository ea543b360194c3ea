import ShaderLang.Proofs.ExprTotal
import ShaderLang.Proofs.SoundStraight

/-!
# What expressions read

Code for an expression reads slots and values that are computed above it, for every expression and
every table of known slots (`expr_adds`). The arms of a conditional are filled below the block that
it began in; the slot in which they leave their value belongs to that block, so that both arms and
what follows them know it.
-/

namespace ShaderLang

namespace Ir.Spot

/-- The addresses that a table gives are known. -/
def KnowsTable (s : Spot) (g : SymbolTable) : Prop :=
  ∀ name symbol address, g.lookup? name = some symbol → symbol.storage = some (.address address) →
    s.Knows address

variable {s s' : Spot} {g : SymbolTable}

theorem Before.knowsTable (h : s.Before s') (hg : s.KnowsTable g) : s'.KnowsTable g := by
  intro name symbol address hsymbol hstorage
  exact h.knows (hg name symbol address hsymbol hstorage)

namespace KnowsTable

theorem push (h : s.KnowsTable g) : s.KnowsTable g.push := by
  intro name symbol address hsymbol
  rw [SymbolTable.lookup?_push] at hsymbol
  exact h name symbol address hsymbol

theorem declare (h : s.KnowsTable g) {symbol : Symbol}
    (hsymbol : ∀ address, symbol.storage = some (.address address) → s.Knows address) :
    s.KnowsTable (g.declare symbol) := by
  intro name found address hfound hstorage
  rw [SymbolTable.lookup?_declare] at hfound
  split at hfound
  · cases hfound
    exact hsymbol address hstorage
  · exact h name found address hfound hstorage

theorem declareVar (h : s.KnowsTable g) {v : VarDecl} {address : Value} (ha : s.Knows address) :
    s.KnowsTable (g.declare ((Symbol.ofVar v).withStorage (.address address))) := by
  apply h.declare
  rintro _ ⟨⟩
  exact ha

theorem declareFn (h : s.KnowsTable g) {f : FnDecl} {name : String} :
    s.KnowsTable (g.declare ((Symbol.ofFn f).withStorage (.function name))) := by
  apply h.declare
  rintro _ ⟨⟩

end KnowsTable

end Ir.Spot

namespace Lowering

open Ir (Build Builder Layout Spot)

variable {strict : Prop} {s : Spot} {g : SymbolTable}

theorem variablePlace_adds {name : String} (h : s.KnowsTable g) :
    Adds strict s (variablePlace g name) fun s' place => s'.Knows place.address := by
  unfold variablePlace
  split
  · exact .throw nofun
  · next symbol hsymbol =>
    split
    · next address v haddress _ => exact .pure (h name symbol address hsymbol haddress)
    · exact .throw nofun

theorem function?_adds {name : String} : Adds strict s (function? g name) fun _ _ => True := by
  unfold function?
  split
  · exact .throw nofun
  · split
    · exact .pure trivial
    · exact .throw nofun

theorem callFn_adds {f : FnDecl} {generated : String} {arguments : List Ir.Value}
    (h : ∀ v ∈ arguments, s.Knows v) :
    Adds strict s (callFn f generated arguments) fun s' a => s'.Knows a.value := by
  apply (Adds.call h).bind
  intro s₁ result h₁ hresult
  apply Adds.pure
  cases result with
  | none => exact knows_undefined
  | some value => exact hresult value rfl

theorem elementPlace_adds {array : Ir.Value} {ty : Ty} {index : TypedValue} (ha : s.Knows array)
    (hi : s.Knows index.value) :
    Adds strict s (elementPlace array ty index) fun s' place => s'.Knows place.address := by
  apply (coerce_adds hi).bind
  intro s₁ position h₁ hposition
  apply (Adds.elementAddress (h₁.knows ha) hposition).bind
  intro s₂ address h₂ haddress
  exact .pure haddress

/-! ## Conditionals -/

/-- One block, and what follows it, is filled and closed under a layout that says more. -/
structure Ends (strict : Prop) (l : Layout) (b : Builder) (id : Nat) (l' : Layout) (b' : Builder) :
    Prop where
  layout : l.Extends l'
  sound : b'.Sound strict l'
  closes : b.Closes id b'

variable {l : Layout} {b : Builder}

theorem Ends.of_flows {id : Nat} {s' : Spot} {b' : Builder} {t : Ir.Terminator}
    (hbefore : Spot.Before ⟨l, id⟩ s') (hfills : b'.Fills strict s')
    (hflows : (b.moveTo id).Flows b') (ht : s'.Allows strict t) :
    Ends strict l b id s'.layout (b'.close t) :=
  ⟨hbefore.layout, (hfills.close ht).sound, hflows.closes t⟩

theorem endArm_runs {block joined : Nat} {slot : Ir.Value} {ty : Ty} {value : TypedValue}
    (hs : b.Sound strict l) (hun : b.Unfinished block) (hslot : Spot.Knows ⟨l, block⟩ slot)
    (hvalue : Spot.Knows ⟨l, block⟩ value.value) (hleads : Spot.Leads ⟨l, block⟩ joined) :
    Runs (endArm block joined slot ty value) b fun _ b' => ∃ l', Ends strict l b block l' b' := by
  apply Runs.position_bind
  apply (coerce_adds hvalue _ (.moveTo hs hun)).bind
  rintro stored b₁ ⟨s₁, h₁, hfills₁, hflows₁, hstored⟩
  apply (Adds.store (h₁.knows hslot) hstored b₁ hfills₁).bind
  rintro _ b₂ ⟨s₂, h₂, hfills₂, hflows₂, -⟩
  apply Runs.terminate hfills₂.isOpen
  exact ⟨s₂.layout, .of_flows (h₁.trans h₂) hfills₂ (hflows₁.trans hflows₂)
    (.branch ((h₁.trans h₂).leads hleads))⟩

theorem joinArms_runs {origin trueEnd falseEnd joined : Nat} {ifTrue ifFalse : TypedValue}
    (hs : b.Sound strict l) (horigin : origin < b.blockCount) (htrue : b.Unfinished trueEnd)
    (hfalse : b.Unfinished falseEnd) (hjoined : b.Unfinished joined) (hne : falseEnd ≠ trueEnd)
    (hjt : joined ≠ trueEnd) (hjf : joined ≠ falseEnd) (hct : l.Above origin trueEnd)
    (hcf : l.Above origin falseEnd) (hcj : l.Child origin joined)
    (hkt : Spot.Knows ⟨l, trueEnd⟩ ifTrue.value) (hkf : Spot.Knows ⟨l, falseEnd⟩ ifFalse.value) :
    Runs (joinArms origin trueEnd falseEnd joined ifTrue ifFalse) b fun a b' =>
      ∃ l', l.Extends l' ∧ b'.Fills strict ⟨l', joined⟩ ∧ Spot.Knows ⟨l', joined⟩ a.value ∧
        Joins b origin trueEnd falseEnd joined b' := by
  unfold joinArms
  generalize armTy ifTrue.ty ifFalse.ty = ty
  dsimp only
  split
  · have hfills := Builder.Fills.moveTo hs htrue
    have hend := Ends.of_flows (.refl _) hfills (.refl hfills.isOpen)
      (.branch (hcj.leads hct))
    have hfills' := Builder.Fills.moveTo hend.sound ((hend.closes.unfinished falseEnd).mpr
      ⟨hfalse, hne⟩)
    have hend' := Ends.of_flows (.refl _) hfills' (.refl hfills'.isOpen)
      (.branch (hcj.leads hcf))
    apply Runs.position_bind
    apply Runs.terminate_bind hfills.isOpen
    apply Runs.position_bind
    apply Runs.terminate_bind hfills'.isOpen
    apply Runs.position_bind
    apply Runs.pure
    have hun : (((b.moveTo trueEnd).close (.branch joined)).moveTo falseEnd).close (.branch joined)
        |>.Unfinished joined :=
      (hend'.closes.unfinished joined).mpr ⟨(hend.closes.unfinished joined).mpr ⟨hjoined, hjt⟩, hjf⟩
    exact ⟨l, .refl l, .moveTo hend'.sound hun, knows_undefined,
      .of_closes (fun _ h _ => h) (fun _ => Iff.rfl) hend.closes hend'.closes⟩
  · have hun : ∀ id, (b.allocIn origin ty.toIr "cond").Unfinished id ↔ b.Unfinished id :=
      fun id => Builder.Unfinished.allocIn origin ty.toIr "cond"
    have hmore := Layout.Extends.addTemp l origin
    have hslot : Spot.Knows ⟨l.addTemp origin, origin⟩ (.temp b.nextTemp) := hs.knows_next origin
    have hbelow : ∀ {id}, l.Above origin id →
        Spot.Before ⟨l.addTemp origin, origin⟩ ⟨l.addTemp origin, id⟩ :=
      fun h => ⟨.refl _, hmore.above h⟩
    have hsame : ∀ id, Spot.Before ⟨l, id⟩ ⟨l.addTemp origin, id⟩ := fun id => .of_extends hmore id
    apply Runs.bind_ok (Emit.lift_eq (Build.allocaIn_eq horigin _ _)) ⟨by simp, by simp⟩
    apply (endArm_runs (hs.allocIn horigin ty.toIr "cond") ((hun _).mpr htrue)
      ((hbelow hct).knows hslot) ((hsame _).knows hkt) ((hsame _).leads (hcj.leads hct))).bind
    rintro _ b₂ ⟨l₂, hend⟩
    have hsame' : ∀ id, Spot.Before ⟨l.addTemp origin, id⟩ ⟨l₂, id⟩ :=
      fun id => .of_extends hend.layout id
    apply (endArm_runs hend.sound
      ((hend.closes.unfinished _).mpr ⟨(hun _).mpr hfalse, hne⟩)
      ((hsame' _).knows ((hbelow hcf).knows hslot)) (((hsame _).trans (hsame' _)).knows hkf)
      (((hsame _).trans (hsame' _)).leads (hcj.leads hcf))).bind
    rintro _ b₃ ⟨l₃, hend'⟩
    have hjoins : Joins b origin trueEnd falseEnd joined (b₃.moveTo joined) :=
      .of_closes (fun _ h ho => h.allocIn ho _ _) hun hend.closes hend'.closes
    have hfills : (b₃.moveTo joined).Fills strict ⟨l₃, joined⟩ := by
      apply Builder.Fills.moveTo hend'.sound
      rw [hend'.closes.unfinished, hend.closes.unfinished, hun]
      exact ⟨⟨hjoined, hjt⟩, hjf⟩
    have hjoinedSlot : Spot.Knows ⟨l₃, joined⟩ (.temp b.nextTemp) := by
      have hlayout := hend.layout.trans hend'.layout
      apply Spot.Before.knows _ hslot
      exact ⟨hlayout, hlayout.above (hmore.above hcj.above)⟩
    apply Runs.position_bind
    have hload : (Ir.Inst.load (b₃.moveTo joined).nextTemp ty.toIr (.temp b.nextTemp)).result? =
      some (b₃.moveTo joined).nextTemp := rfl
    apply Runs.bind_ok (Emit.lift_eq (Build.emitValue_eq hfills.isOpen _)) ⟨by simp, by simp⟩
    apply Runs.pure
    refine ⟨l₃.addTemp joined, ?_, ?_, ?_, ?_⟩
    · exact hmore.trans (hend.layout.trans (hend'.layout.trans (.addTemp _ _)))
    · exact hfills.appendValue hload (by simpa [Ir.Inst.operands] using hjoinedSlot)
    · exact hfills.sound.knows_next joined
    · exact {
        insertion := by simp
        unfinished := fun id => by rw [Builder.Unfinished.append, hjoins.unfinished]
        ext := fun b₀ hb₀ ho ht hf hj =>
          (hjoins.ext b₀ hb₀ ho ht hf hj).append hfills.isOpen _ (Nat.le_succ _) }

section

variable {ifTrue ifFalse : Expr}
  (htrue : ∀ s : Spot, s.KnowsTable g → Adds strict s (expr g ifTrue) fun s' a => s'.Knows a.value)
  (hfalse : ∀ s : Spot, s.KnowsTable g →
    Adds strict s (expr g ifFalse) fun s' a => s'.Knows a.value)

include htrue hfalse

theorem arms_runs {origin n : Nat} (hs : b.Sound strict l) (hg : Spot.KnowsTable ⟨l, origin⟩ g)
    (horigin : origin < b.blockCount) (hun : ∀ id, n ≤ id → id < n + 3 → b.Unfinished id)
    (hchild : ∀ id, n ≤ id → id < n + 3 → l.Child origin id) :
    Runs (arms g ifTrue ifFalse origin n (n + 1) (n + 2)) b fun a b' =>
      ∃ l', l.Extends l' ∧ b'.Fills strict ⟨l', n + 2⟩ ∧ Spot.Knows ⟨l', n + 2⟩ a.value ∧
        (∀ id, b'.Unfinished id ↔ b.Unfinished id ∧ id ≠ n ∧ id ≠ n + 1) ∧
        ∀ b₀ : Builder, b₀.Extends b → b₀.Reaches origin → b₀.blockCount ≤ n → b₀.Extends b' := by
  have hn₁ := hun (n + 1) (by omega) (by omega)
  have hn₂ := hun (n + 2) (by omega) (by omega)
  have hbelow : Spot.Before ⟨l, origin⟩ ⟨l, n⟩ := .child (.refl l) (hchild n (by omega) (by omega))
  apply Runs.position_bind
  apply (htrue ⟨l, n⟩ (hbelow.knowsTable hg) _ (.moveTo hs (hun n (by omega) (by omega)))).bind
  rintro trueValue b₁ ⟨⟨l₁, trueEnd⟩, h₁, hfills₁, hflows₁, hvalue₁⟩
  apply Runs.bind_ok (currentBlockD_eq hfills₁.insertion) (.refl b₁)
  have hbelow' : Spot.Before ⟨l, origin⟩ ⟨l₁, n + 1⟩ :=
    .child h₁.layout (h₁.layout.child (hchild (n + 1) (by omega) (by omega)))
  have hn₁' : b₁.Unfinished (n + 1) := ((hflows₁.waits (n + 1)).mpr ⟨hn₁, by simp⟩).1
  apply Runs.position_bind
  apply (hfalse ⟨l₁, n + 1⟩ (hbelow'.knowsTable hg) _ (.moveTo hfills₁.sound hn₁')).bind
  rintro falseValue b₂ ⟨⟨l₂, falseEnd⟩, h₂, hfills₂, hflows₂, hvalue₂⟩
  apply Runs.bind_ok (currentBlockD_eq hfills₂.insertion) (.refl b₂)
  have hend := ArmsEnd.of_flows hn₁ hflows₁ hfills₁.insertion hflows₂ hfills₂.insertion
  have hcount₁ := hflows₁.ext.blockCount_le
  have hcount₂ := hflows₂.ext.blockCount_le
  simp only [Builder.blockCount_moveTo] at hcount₁ hcount₂
  have hlayout := h₁.layout.trans h₂.layout
  have hjoined := hend.new (n + 2) hn₂ (by omega) (by omega)
  have habove : l₂.Above origin trueEnd := h₂.layout.above (hbelow.trans h₁).above
  apply (joinArms_runs hfills₂.sound (by omega) ((hend.unfinished _).mpr (.inr (.inl rfl)))
    ((hend.unfinished _).mpr (.inr (.inr rfl)))
    ((hend.unfinished _).mpr (.inl ⟨hn₂, by omega, by omega⟩)) hend.ne hjoined.1 hjoined.2
    habove (hbelow'.trans h₂).above (hlayout.child (hchild (n + 2) (by omega) (by omega)))
    (Spot.Before.knows (.of_extends h₂.layout trueEnd) hvalue₁) hvalue₂).imp
  rintro a b₃ ⟨l₃, h₃, hfills₃, hvalue₃, hjoins⟩
  exact ⟨l₃, hlayout.trans h₃, hfills₃, hvalue₃, hend.joins hjoins⟩

theorem conditional_adds {span : Span} {test : Expr} (hg : s.KnowsTable g)
    (htest : Adds strict s (expr g test) fun s' a => s'.Knows a.value) :
    Adds strict s (expr g (.conditional span test ifTrue ifFalse)) fun s' a =>
      s'.Knows a.value := by
  rw [expr]
  intro b hb
  apply (htest b hb).bind
  rintro value b₁ ⟨s₁, h₁, hfills₁, hflows₁, hvalue⟩
  apply (coerce_adds hvalue b₁ hfills₁).bind
  rintro cond b₂ ⟨⟨l₂, origin⟩, h₂, hfills₂, hflows₂, hcond⟩
  have hflow := hflows₁.trans hflows₂
  have hopen := hfills₂.isOpen
  have horigin : b₂.insertion = some origin := hfills₂.insertion
  apply Runs.get_bind
  have hfound : orFault b₂.insertion .conditionalOutsideBlock b₂ = .ok origin b₂ := by
    rw [horigin]
    rfl
  apply Runs.bind_ok hfound (.refl b₂)
  apply Runs.createBlock_bind [] hopen.isSome
  apply Runs.createBlock_bind ["cond.then"] hopen.isSome
  apply Runs.createBlock_bind ["cond.then", "cond.else"] hopen.isSome
  apply Runs.terminate_bind (hopen.addBlocks _)
  change Runs (arms g ifTrue ifFalse origin b₂.blockCount (b₂.blockCount + 1) (b₂.blockCount + 2))
    (b₂.fork ["cond.then", "cond.else", "cond.end"]
      (.condBranch cond b₂.blockCount (b₂.blockCount + 1))) _
  have hfork := hfills₂.fork ["cond.then", "cond.else", "cond.end"]
    (.condBranch cond b₂.blockCount (b₂.blockCount + 1)) (by decide) ?_
  · have hbefore := h₁.trans h₂
    have hext := hflow.ext.fork ["cond.then", "cond.else", "cond.end"]
      (.condBranch cond b₂.blockCount (b₂.blockCount + 1)) hopen
    have hsame := Spot.Before.of_extends hfork.layout origin
    apply (arms_runs htrue hfalse hfork.sound ((hbefore.trans hsame).knowsTable hg) ?_ ?_
      hfork.child).imp
    · rintro a b₃ ⟨l₃, h₃, hfills₃, hvalue₃, hun₃, hext₃⟩
      have hbehind := (hfork.before (b₂.blockCount + 2) (by omega) (by simp)).trans
        (.of_extends h₃ _)
      exact ⟨⟨l₃, b₂.blockCount + 2⟩, hbefore.trans hbehind, hfills₃,
        flows_behind_arms hflow rfl hfills₃.insertion hun₃
          (hext₃ b hext (hflow.ext.current horigin) hflow.ext.blockCount_le), hvalue₃⟩
    · rw [hfork.blockCount]
      exact Nat.lt_add_right _ hfills₂.unfinished.lt
    · intro id hle hlt
      exact (hfork.unfinished id).mpr (.inr ⟨hle, hlt⟩)
  · intro l hl hchild
    apply Spot.Allows.condBranch (Spot.Before.knows (.of_extends hl origin) hcond)
    · exact (hchild _ (by omega) (by simp)).leads .refl
    · exact (hchild _ (by omega) (by simp)).leads .refl

end

/-! ## Expressions -/

mutual

/-- Code for an expression reads what is known where it begins, and what it has computed itself. -/
theorem expr_adds {s : Spot} (hg : s.KnowsTable g) (e : Expr) :
    Adds strict s (expr g e) fun s' a => s'.Knows a.value := by
  match e with
  | .int _ n =>
    rw [expr]
    exact .pure knows_int
  | .float _ x =>
    rw [expr]
    exact .pure knows_float
  | .bool _ b =>
    rw [expr]
    exact .pure (Spot.knows_of_temp?_eq_none rfl)
  | .var _ name =>
    rw [expr]
    apply (variablePlace_adds hg).bind
    intro s₁ place h₁ hplace
    exact Place.load_adds hplace
  | .index _ base position =>
    rw [expr]
    apply (placeOf_adds hg base).bind
    intro s₁ place h₁ hplace
    apply (Place.elementTy_adds hplace).bind
    rintro s₂ ⟨address, ty⟩ h₂ haddress
    apply (expr_adds ((h₁.trans h₂).knowsTable hg) position).bind
    intro s₃ index h₃ hindex
    apply (elementPlace_adds (h₃.knows haddress) hindex).bind
    intro s₄ element h₄ helement
    exact Place.load_adds helement
  | .binary _ op left right =>
    rw [expr]
    apply (expr_adds hg left).bind
    intro s₁ lhs h₁ hlhs
    apply (expr_adds (h₁.knowsTable hg) right).bind
    intro s₂ rhs h₂ hrhs
    exact binary_adds (h₂.knows hlhs) hrhs
  | .unary _ op operand =>
    cases op with
    | plus | minus =>
      rw [expr]
      apply (expr_adds hg operand).bind
      intro s₁ value h₁ hvalue
      exact signed_adds hvalue
    | not =>
      rw [expr]
      apply (expr_adds hg operand).bind
      intro s₁ value h₁ hvalue
      exact negated_adds hvalue
    | step direction =>
      rw [expr]
      apply (placeOf_adds hg operand).bind
      intro s₁ place h₁ hplace
      exact Place.step_adds hplace
  | .assign _ op target value =>
    rw [expr]
    apply (placeOf_adds hg target).bind
    intro s₁ place h₁ hplace
    cases op with
    | plain =>
      apply (expr_adds (h₁.knowsTable hg) value).bind
      intro s₂ result h₂ hresult
      exact Place.store_adds (h₂.knows hplace) hresult
    | compound op =>
      apply (Place.load_adds hplace).bind
      intro s₂ current h₂ hcurrent
      apply (expr_adds ((h₁.trans h₂).knowsTable hg) value).bind
      intro s₃ rhs h₃ hrhs
      apply (arith_adds (h₃.knows hcurrent) hrhs).bind
      intro s₄ result h₄ hresult
      exact Place.store_adds ((h₂.trans (h₃.trans h₄)).knows hplace) hresult
  | .stepAfter _ direction operand =>
    rw [expr]
    apply (placeOf_adds hg operand).bind
    intro s₁ place h₁ hplace
    exact Place.step_adds hplace
  | .conditional _ test ifTrue ifFalse =>
    exact conditional_adds (fun _ h => expr_adds h ifTrue) (fun _ h => expr_adds h ifFalse) hg
      (expr_adds hg test)
  | .field _ base name =>
    rw [expr]
    apply (maskOf_adds (Q := fun s' _ => s'.KnowsTable g) fun _ => hg).bind
    intro s₁ lanes h₁ hg₁
    apply (expr_adds hg₁ base).bind
    intro s₂ value h₂ hvalue
    exact selectFrom_adds hvalue
  | .call _ callee arguments =>
    rw [expr]
    apply function?_adds.bind
    rintro s₁ ⟨f, generated⟩ h₁ -
    apply (actuals_adds (h₁.knowsTable hg) f.formals arguments).bind
    intro s₂ values h₂ hvalues
    exact callFn_adds hvalues
  | .construct _ target arguments =>
    rw [expr]
    apply (exprs_adds hg arguments).bind
    intro s₁ values h₁ hvalues
    exact construct_adds hvalues

theorem exprs_adds {s : Spot} (hg : s.KnowsTable g) (es : List Expr) :
    Adds strict s (exprs g es) fun s' as => ∀ a ∈ as, s'.Knows a.value := by
  match es with
  | [] =>
    rw [exprs]
    exact .pure (by simp)
  | e :: rest =>
    rw [exprs]
    apply (expr_adds hg e).bind
    intro s₁ value h₁ hvalue
    apply (exprs_adds (h₁.knowsTable hg) rest).bind
    intro s₂ values h₂ hvalues
    apply Adds.pure
    intro a ha
    rcases List.mem_cons.mp ha with rfl | ha
    · exact h₂.knows hvalue
    · exact hvalues a ha

theorem actuals_adds {s : Spot} (hg : s.KnowsTable g) (formals : List VarDecl) (es : List Expr) :
    Adds strict s (actuals g formals es) fun s' vs => ∀ v ∈ vs, s'.Knows v := by
  match es, formals with
  | [], _ =>
    rw [actuals]
    exact .pure (by simp)
  | e :: rest, [] =>
    rw [actuals]
    exact .pure (by simp)
  | e :: rest, formal :: formals =>
    rw [actuals]
    apply (expr_adds hg e).bind
    intro s₁ value h₁ hvalue
    apply (coerce_adds hvalue).bind
    intro s₂ actual h₂ hactual
    apply (actuals_adds ((h₁.trans h₂).knowsTable hg) formals rest).bind
    intro s₃ others h₃ hothers
    apply Adds.pure
    intro v hv
    rcases List.mem_cons.mp hv with rfl | hv
    · exact h₃.knows hactual
    · exact hothers v hv

theorem placeOf_adds {s : Spot} (hg : s.KnowsTable g) (e : Expr) :
    Adds strict s (placeOf g e) fun s' place => s'.Knows place.address := by
  match e with
  | .var _ name =>
    rw [placeOf]
    exact variablePlace_adds hg
  | .index _ base position =>
    rw [placeOf]
    apply (placeOf_adds hg base).bind
    intro s₁ place h₁ hplace
    apply (Place.elementTy_adds hplace).bind
    rintro s₂ ⟨address, ty⟩ h₂ haddress
    apply (expr_adds ((h₁.trans h₂).knowsTable hg) position).bind
    intro s₃ index h₃ hindex
    exact elementPlace_adds (h₃.knows haddress) hindex
  | .field _ base name =>
    rw [placeOf]
    apply (maskOf_adds (Q := fun s' _ => s'.KnowsTable g) fun _ => hg).bind
    intro s₁ mask h₁ hg₁
    apply (placeOf_adds hg₁ base).bind
    intro s₂ place h₂ hplace
    exact Place.select_adds hplace
  | .int .. | .float .. | .bool .. | .binary .. | .unary .. | .assign .. | .stepAfter ..
  | .conditional .. | .call .. | .construct .. => exact .throw nofun

end

end Lowering

end ShaderLang
