import ShaderLang.Proofs.Effectless
import ShaderLang.Proofs.Lanes
import ShaderLang.Proofs.Preservation

/-!
# Swizzles as lenses

A chain of swizzles on a vector variable names some of its lanes. To read it as a place is to read
it as a value. If the lanes are distinct, an assignment to the chain is a lawful write to the
variable: the chain then reads what was assigned, whatever that was computed from, and the other
lanes are as before (`Site.IsLens`, and `Program.lower_swizzles` for programs).
-/

namespace ShaderLang

open Check Lowering
open Ir (Builder Datum Machine Root State World)
open Ir.Datum (ofLanes)

/-- A chain of swizzles on a variable and the lanes that it comes to: a swizzle of a chain picks
from the lanes of that chain. -/
inductive Expr.Selects : Expr → String → List Nat → Prop where
  | single {span varSpan : Span} {name field : Ident} {mask : List Nat}
      (hfield : field.name ≠ "") (hmask : Swizzle.mask? field.name = some mask) :
      Selects (.field span (.var varSpan name) field) name.name mask
  | further {span : Span} {base : Expr} {name : String} {field : Ident}
      {inner mask lanes : List Nat} (hbase : Selects base name inner) (hfield : field.name ≠ "")
      (hmask : Swizzle.mask? field.name = some mask)
      (hlanes : mask.mapM (inner[·]?) = some lanes) :
      Selects (.field span base field) name lanes

/-- The variable at the root of a chain of swizzles. -/
def Expr.swizzled? : Expr → Option Ident
  | .field _ (.var _ name) _ => some name
  | .field _ base _ => base.swizzled?
  | _ => none

namespace Lowering

variable {m : Machine} {k : Nat} {b : Builder} {s : State} {w : World} {x : Emit TypedValue}
  {t : Ty} {d : Datum} {a : TypedValue} {slot : Ir.Value} {root : Root} {lanes : List Nat}

/-! ## Evaluation without effects -/

/-- The code comes to a value of a type, and leaves the variables and the calls as they are. -/
def Evaluates (m : Machine) (b : Builder) (s : State) (x : Emit TypedValue) (t : Ty) (d : Datum) :
    Prop :=
  ∃ a b' s', x b = .ok a b' ∧ Carries m b s b' s' ∧ HoldsTyped m b'.nextTemp s' a t d ∧
    s.world.Underlies s.world.slots.length s'.world

namespace Evaluates

theorem of_realizes {r : StateM World Datum}
    (h : Realizes m s.world.slots.length x r b s s.world fun n s a d => HoldsTyped m n s a t d)
    (hb : b.IsOpen) (hr : (r s.world).2 = s.world) : Evaluates m b s x t (r s.world).1 := by
  obtain ⟨a, b', s', hx, hcarries, hworld, ha⟩ := h hb (.refl s.world)
  rw [hr] at hworld
  exact ⟨a, b', s', hx, hcarries, ha, hworld⟩

theorem of_givesTyped (h : GivesTyped m x b.nextTemp s t d s.world) (hb : b.IsOpen) :
    Evaluates m b s x t d :=
  of_realizes (.of_givesTyped h) hb rfl

theorem realizes (h : Evaluates m b s x t d) : Realizes m s.world.slots.length x (pure d) b s
    s.world fun n s a d => HoldsTyped m n s a t d :=
  fun _ _ =>
    let ⟨a, b', s', hx, hcarries, ha, hworld⟩ := h
    ⟨a, b', s', hx, hcarries, hworld, ha⟩

end Evaluates

/-! ## Writing lanes of a variable -/

/-- Lanes of a variable are replaced by those of a value. -/
def putLanes (m : Machine) (root : Root) (lanes : List Nat) (t : Ty) (d : Datum) : World → Datum :=
  fun w => (w.root root).setLanes (lanes.zip (Meaning.lanesOf m.arithmetic t d))

theorem isScalar_of_lanes (hlanes : t.lanes ≠ 0) (hshape : t.isShaped = false) :
    t.isScalar = true := by
  cases t <;> first | rfl | exact absurd rfl hlanes | cases hshape

/-- A value with as many lanes as are selected goes into them. -/
theorem storeLanes_realizes (baseTy : Ty) (ha : m.Holds b.nextTemp s slot (.address root []))
    (hroot : (Datum.address root []).Belongs k) (hv : HoldsTyped m b.nextTemp s a t d)
    (hlanes : t.lanes = lanes.length) (hne : lanes ≠ []) :
    Realizes m k (Place.storeLanes slot baseTy lanes a)
      (modify fun w => w.write (.address root []) (putLanes m root lanes t d w)) b s w
      fun _ _ _ _ => True := by
  apply Realizes.of_executes
  intro hw
  have hplace : (Meaning.Place.lanes (.address root []) lanes).Belongs k := hroot
  have hthere : (Datum.address root []).Belongs w.slots.length := hw.length ▸ hroot
  cases hshape : t.isShaped with
  | true =>
    refine (storeLanes_shaped_executes baseTy lanes ha hshape hlanes hv).imp fun r n' s' _ h => ?_
    have hwrite := Meaning.Place.write_underlies hw hplace t d
    rw [Meaning.write_lanes_shaped m.arithmetic hthere hshape hlanes] at hwrite
    exact ⟨h.2 ▸ hwrite, trivial⟩
  | false =>
    have hscalar := isScalar_of_lanes (hlanes ▸ List.length_pos_iff.mpr hne |>.ne') hshape
    have hone : lanes.length = 1 := by
      rw [← hlanes]
      cases t <;> first | rfl | cases hscalar
    obtain ⟨lane, rfl⟩ := List.length_eq_one_iff.mp hone
    refine (storeLanes_scalar_executes baseTy [lane] ha hscalar hv).imp fun r n' s' _ h => ?_
    have hwrite := Meaning.Place.write_underlies hw hplace .float
      (Meaning.scalar m.arithmetic t .float d)
    rw [Meaning.write_lanes_scalar m.arithmetic hthere hshape] at hwrite
    exact ⟨h.2 ▸ hwrite, trivial⟩

end Lowering

/-! ## Chains -/

/-- What the checker and the lowering make of a chain of swizzles on a variable. -/
structure Site.Locates (σ : Site) (target : Expr) (v : VarDecl) (slot : Ir.Value)
    (lanes : List Nat) : Prop where
  lt : ∀ lane ∈ lanes, lane < v.ty.lanes
  ty : typeOf σ.checked target = Swizzle.resultTy lanes.length
  hasValues : (Swizzle.resultTy lanes.length).hasValues = true
  place : placeOf σ.lowered target = pure (.lanes slot v.ty lanes)
  value : ∀ (m : Machine) (n : Nat) (s : State) (root : Root), m.Holds n s slot (.address root []) →
    GivesTyped m (Lowering.expr σ.lowered target) n s (Swizzle.resultTy lanes.length)
      (Meaning.selected (s.world.root root) lanes) s.world

section

variable {σ : Site} {span varSpan : Span} {name field : Ident} {base target : Expr} {v : VarDecl}
  {slot : Ir.Value} {inner mask lanes : List Nat}

theorem Site.Locates.single (hσ : σ.Agrees) (hd : Declared σ.checked) (hfield : field.name ≠ "")
    (hmask : Swizzle.mask? field.name = some mask)
    (hc : Clean σ.checked (.field span (.var varSpan name) field)) :
    ∃ v slot, σ.scopes.find? name.name = some (.var v slot) ∧ v.ty.isVector = true ∧
      σ.Locates (.field span (.var varSpan name) field) v slot mask := by
  obtain ⟨hcb, hissues⟩ := clean_field.mp hc
  have hbase := hasValues_of_rootVariable? hd (e := .var varSpan name) trivial hcb rfl
  obtain ⟨v, slot, hfind, hchecked, -, hplace, hexpr⟩ := hσ.resolves hcb
  have htypeOf : typeOf σ.checked (.var varSpan name) = v.ty := by
    obtain ⟨symbol, hsymbol, hdecl⟩ := Option.map_eq_some_iff.mp hchecked
    simp [typeOf, Typing.variableTy?, hsymbol, Symbol.var?, hdecl]
  rw [htypeOf] at hissues hbase
  obtain ⟨hvec, mask', hmask', hle, hlt, hty⟩ :=
    Swizzle.of_issues_eq_nil hissues (Ty.ne_error_of_hasValues hbase)
  obtain rfl : mask = mask' := Option.some.inj (hmask.symm.trans hmask')
  have hshape : v.ty.isShaped = true := by simp [Ty.isShaped, hvec]
  refine ⟨v, slot, hfind, hvec, hlt, by rw [typeOf, htypeOf, hty],
    Swizzle.hasValues_resultTy (Swizzle.resultTy_length_ne_zero hmask hfield) hle, ?_, ?_⟩
  · rw [placeOf, maskOf, hmask, orFault, pure_bind, hplace, pure_bind]
    rfl
  · intro m n s root hslot
    rw [Lowering.expr, maskOf, hmask, orFault, pure_bind, hexpr]
    refine ((load_gives _ hslot).typed v.ty).bind fun a n' s' _ ha hw => ?_
    rw [World.read_root] at ha
    have hselect := selectFrom_gives hshape hlt ha
    rwa [hw] at hselect

/-- The place composes both masks, and so does one selection after the other. -/
theorem Site.Locates.further (hin : σ.Locates base v slot inner) (hfield : field.name ≠ "")
    (hmask : Swizzle.mask? field.name = some mask) (hlanes : mask.mapM (inner[·]?) = some lanes)
    (hc : Clean σ.checked (.field span base field)) :
    σ.Locates (.field span base field) v slot lanes := by
  obtain ⟨hcb, hissues⟩ := clean_field.mp hc
  rw [hin.ty] at hissues
  obtain ⟨hvec, mask', hmask', hle, hlt, hty⟩ :=
    Swizzle.of_issues_eq_nil hissues (Ty.ne_error_of_hasValues hin.hasValues)
  obtain rfl : mask = mask' := Option.some.inj (hmask.symm.trans hmask')
  have hshape : (Swizzle.resultTy inner.length).isShaped = true := by simp [Ty.isShaped, hvec]
  have hinner : inner.length ≠ 1 := fun h => by simp [h, Swizzle.resultTy, Ty.isVector] at hvec
  obtain ⟨hlength, hmem⟩ := length_mapM_getElem? hlanes
  refine ⟨fun lane hlane => hin.lt lane (hmem lane hlane), ?_, ?_, ?_, ?_⟩
  · rw [typeOf, hin.ty, hty, hlength]
  · rw [hlength]
    exact Swizzle.hasValues_resultTy (Swizzle.resultTy_length_ne_zero hmask hfield) hle
  · rw [placeOf, maskOf, hmask, orFault, pure_bind, hin.place, pure_bind, Place.select, hlanes]
    rfl
  · intro m n s root hslot
    rw [Lowering.expr, maskOf, hmask, orFault, pure_bind, hlength]
    refine (hin.value m n s root hslot).bind fun a n' s' _ ha hw => ?_
    have hselect := selectFrom_gives hshape hlt ha
    rwa [hw, Meaning.selected_selected hinner hlanes] at hselect

theorem Expr.Selects.locates {name : String} (hσ : σ.Agrees) (hd : Declared σ.checked)
    (h : target.Selects name lanes) (hc : Clean σ.checked target) :
    ∃ v slot, σ.scopes.find? name = some (.var v slot) ∧ v.ty.isVector = true ∧
      σ.Locates target v slot lanes := by
  induction h with
  | single hfield hmask => exact Site.Locates.single hσ hd hfield hmask hc
  | further _ hfield hmask hlanes ih =>
    obtain ⟨v, slot, hfind, hvec, hin⟩ := ih (clean_field.mp hc).1
    exact ⟨v, slot, hfind, hvec, hin.further hfield hmask hlanes hc⟩

/-- Every chain of swizzles in which nothing is wrong comes to lanes of its variable, if each swizzle
has letters, as it has wherever it is read. -/
theorem Expr.exists_selects (hσ : σ.Agrees) (hd : Declared σ.checked) {root : Ident} {e : Expr}
    (hr : e.AsRead) (hc : Clean σ.checked e) (h : e.swizzled? = some root) :
    ∃ lanes, e.Selects root.name lanes := by
  fun_induction Expr.swizzled? e with
  | case1 _ _ variableName field =>
    cases h
    obtain ⟨hcb, hissues⟩ := clean_field.mp hc
    have hbase := hasValues_of_rootVariable? hd hr.1 hcb rfl
    obtain ⟨-, mask, hmask, -⟩ :=
      Swizzle.of_issues_eq_nil hissues (Ty.ne_error_of_hasValues hbase)
    exact ⟨mask, .single hr.2 hmask⟩
  | case2 _ base field _ ih =>
    obtain ⟨hcb, hissues⟩ := clean_field.mp hc
    obtain ⟨inner, hinner⟩ := ih hr.1 hcb h
    obtain ⟨v, slot, -, -, hin⟩ := hinner.locates hσ hd hcb
    have hne := Ty.ne_error_of_hasValues hin.hasValues
    rw [hin.ty] at hissues
    obtain ⟨-, mask, hmask, -, hlt, -⟩ := Swizzle.of_issues_eq_nil hissues hne
    rw [Swizzle.lanes_resultTy hne] at hlt
    obtain ⟨lanes, hlanes, -⟩ := mapM_getElem?_isSome hlt
    exact ⟨lanes, .further hinner hr.2 hmask hlanes⟩
  | case3 => cases h

/-- The last swizzle counts from the one before it. -/
example (span : Span) (v : Ident) : Expr.Selects
    (.field span (.field span (.var span v) ⟨"wzyx", span⟩) ⟨"yx", span⟩) v.name [2, 3] := by
  have hinner : Swizzle.mask? "wzyx" = some [3, 2, 1, 0] := by decide
  have hmask : Swizzle.mask? "yx" = some [1, 0] := by decide
  exact .further (.single (by simp) hinner) (by simp) hmask rfl

end

/-! ## Lenses -/

/-- A running function has come to an insertion point from a place in a program on, and every
variable in scope is at its root. -/
structure Site.Behind (σ : Site) (m : Machine) (roots : String → Root) (b : Builder) (s : State) :
    Prop where
  isOpen : b.IsOpen
  le : σ.builder.nextTemp ≤ b.nextTemp
  rooted : σ.Rooted m roots s

/-- As a place and as a value, an expression reads the same. -/
def Site.Reads (σ : Site) (m : Machine) (b : Builder) (s : State) (target : Expr) (d : Datum) :
    Prop :=
  Evaluates m b s (placeOf σ.lowered target >>= Place.load) (typeOf σ.checked target) d ∧
    Evaluates m b s (Lowering.expr σ.lowered target) (typeOf σ.checked target) d

/-- The code of an assignment leads from one insertion point to another, and changes what the
variable at a root holds and nothing else. -/
structure Site.Assigns (σ : Site) (m : Machine) (b : Builder) (s : State) (target value : Expr)
    (root : Root) (contents : Datum) (b' : Builder) (s' : State) : Prop where
  lowered : ∀ span, ∃ a, Lowering.expr σ.lowered (.assign span .plain target value) b = .ok a b'
  carries : Carries m b s b' s'
  world : (s.world.write (.address root []) contents).Underlies s.world.slots.length s'.world

/-- The lanes of a variable that an expression names, from a place in a program on: reading it as a
place and as a value gives them, and if they are distinct, an assignment is a lawful write. -/
structure Site.IsLens (σ : Site) (target : Expr) (name : String) (lanes : List Nat) : Prop where
  place : ∃ v slot, σ.scopes.find? name = some (.var v slot) ∧ v.ty.isVector = true ∧
    (∀ lane ∈ lanes, lane < v.ty.lanes) ∧
    placeOf σ.lowered target = pure (.lanes slot v.ty lanes)
  reads : ∀ m roots b s, σ.Behind m roots b s →
    σ.Reads m b s target (Meaning.selected (s.world.root (roots name)) lanes)
  /-- What was assigned is read, and the other lanes are as before. -/
  writes : lanes.Nodup → ∀ m roots b s, σ.Behind m roots b s → ∀ value t d,
    Evaluates m b s (Lowering.expr σ.lowered value) t d → t.lanes = lanes.length →
    ∃ contents b' s', σ.Assigns m b s target value (roots name) contents b' s' ∧
      σ.Reads m b' s' target (ofLanes (Meaning.lanesOf m.arithmetic t d)) ∧
      (t = typeOf σ.checked target → d.IsSelection lanes.length → σ.Reads m b' s' target d) ∧
      ∀ lane ∉ lanes, contents.lane lane = (s.world.root (roots name)).lane lane
  /-- What is assigned to itself changes nothing. -/
  keeps : lanes.Nodup → ∀ m roots b s, σ.Behind m roots b s →
    ∃ contents b' s', σ.Assigns m b s target target (roots name) contents b' s' ∧
      (∀ lane, contents.lane lane = (s.world.root (roots name)).lane lane) ∧
      ∀ xs, s.world.root (roots name) = .vector xs → (∀ lane ∈ lanes, lane < xs.length) →
        s.world.Underlies s.world.slots.length s'.world

namespace Site

variable {σ : Site} {m : Machine} {roots : String → Root} {b b' : Builder} {s s' : State}
  {target value : Expr} {name : String} {v : VarDecl} {slot : Ir.Value} {lanes : List Nat} {t : Ty}
  {d : Datum}

theorem Behind.holds (hσ : σ.Agrees) (h : σ.Behind m roots b s)
    (hfind : σ.scopes.find? name = some (.var v slot)) :
    m.Holds b.nextTemp s slot (.address (roots name) []) where
  below t ht := Nat.lt_of_lt_of_le (hσ.slots name v slot t hfind ht) h.le
  read := (h.rooted name v slot hfind).1

/-- More code has been run. -/
theorem Behind.carried (hσ : σ.Agrees) (h : σ.Behind m roots b s) (hc : Carries m b s b' s') :
    σ.Behind m roots b' s' where
  isOpen := hc.flows.isOpen
  le := Nat.le_trans h.le hc.spans.later.le
  rooted name v slot hfind := by
    refine ⟨((h.holds hσ hfind).later hc.spans.later).read, ?_⟩
    have hroot := (h.rooted name v slot hfind).2
    cases hr : roots name with
    | global => trivial
    | slot index =>
      rw [hr] at hroot
      exact Nat.lt_of_lt_of_le hroot hc.spans.slots

namespace Locates

theorem length_ne_zero (hin : σ.Locates target v slot lanes) : lanes.length ≠ 0 := by
  intro h
  have hvalues := hin.hasValues
  rw [h] at hvalues
  cases hvalues

/-- Both ways to read a chain come to the same lanes. -/
theorem reads (hin : σ.Locates target v slot lanes) (hσ : σ.Agrees)
    (hfind : σ.scopes.find? name = some (.var v slot)) (h : σ.Behind m roots b s) :
    σ.Reads m b s target (Meaning.selected (s.world.root (roots name)) lanes) := by
  have hslot := h.holds hσ hfind
  refine ⟨.of_givesTyped ?_ h.isOpen, .of_givesTyped ?_ h.isOpen⟩
  · rw [hin.place, pure_bind, hin.ty]
    have hplace : HoldsPlace m s.world.slots.length b.nextTemp s (.lanes slot v.ty lanes)
        (.lanes (.address (roots name) []) lanes) := .lanes hslot (h.rooted name v slot hfind).2
    have hload := loadPlace_gives hplace
    rwa [Meaning.Place.value, World.read_root] at hload
  · rw [hin.ty]
    exact hin.value m _ s _ hslot

/-- A value is assigned to a chain lane by lane. -/
theorem assigns (hin : σ.Locates target v slot lanes) (hσ : σ.Agrees)
    (hfind : σ.scopes.find? name = some (.var v slot)) (h : σ.Behind m roots b s)
    (hvalue : Evaluates m b s (Lowering.expr σ.lowered value) t d) (ht : t.lanes = lanes.length) :
    ∃ b' s', σ.Assigns m b s target value (roots name) (putLanes m (roots name) lanes t d s.world)
      b' s' := by
  have hslot := h.holds hσ hfind
  have hroot := (h.rooted name v slot hfind).2
  have hne : lanes ≠ [] := List.ne_nil_of_length_pos (Nat.pos_of_ne_zero hin.length_ne_zero)
  have hrun := hvalue.realizes.andThen fun a b' s' hs ha =>
    storeLanes_realizes v.ty (hslot.later hs) hroot ha ht hne
  obtain ⟨a, b', s', hx, hcarries, hworld, -⟩ := hrun h.isOpen (.refl s.world)
  refine ⟨b', s', fun span => ⟨a, ?_⟩, hcarries, hworld⟩
  rw [Lowering.expr, hin.place, pure_bind]
  exact hx

end Locates

theorem Assigns.root_eq {root : Root} {contents : Datum}
    (h : σ.Assigns m b s target value root contents b' s')
    (hroot : (Datum.address root []).Belongs s.world.slots.length) :
    s'.world.root root = contents := by
  rw [← World.read_root, h.world.read hroot, World.read_root, World.root_write hroot]

theorem Locates.isLens (hin : σ.Locates target v slot lanes) (hσ : σ.Agrees)
    (hfind : σ.scopes.find? name = some (.var v slot)) (hvec : v.ty.isVector = true) :
    σ.IsLens target name lanes where
  place := ⟨v, slot, hfind, hvec, hin.lt, hin.place⟩
  reads m roots b s h := hin.reads hσ hfind h
  writes hnodup m roots b s h value t d hvalue ht := by
    have hroot := (h.rooted name v slot hfind).2
    have hlength : (Meaning.lanesOf m.arithmetic t d).length = lanes.length :=
      (Meaning.length_lanesOf (ht ▸ hin.length_ne_zero) d).trans ht
    obtain ⟨b', s', hassigns⟩ := hin.assigns hσ hfind h hvalue ht
    have hreads := hin.reads hσ hfind (h.carried hσ hassigns.carries)
    rw [hassigns.root_eq hroot, putLanes, Meaning.selected_setLanes hnodup hlength] at hreads
    refine ⟨_, b', s', hassigns, hreads, ?_, fun lane hlane => ?_⟩
    · rintro rfl ⟨xs, hxs, rfl⟩
      have hne := Ty.ne_error_of_hasValues hin.hasValues
      rw [hin.ty] at hreads
      rw [← hxs] at hreads hne
      rwa [Meaning.lanesOf_ofLanes _ hne] at hreads
    · refine Ir.Datum.lane_setLanes_of_notMem ?_
      rwa [List.map_fst_zip (Nat.le_of_eq hlength.symm)]
  keeps hnodup m roots b s h := by
    have hwidth : (typeOf σ.checked target).lanes = lanes.length :=
      hin.ty ▸ Swizzle.lanes_resultTy (Ty.ne_error_of_hasValues hin.hasValues)
    obtain ⟨b', s', hassigns⟩ := hin.assigns hσ hfind h (hin.reads hσ hfind h).2 hwidth
    rw [putLanes, hin.ty, Meaning.lanesOf_selected _ (Ty.ne_error_of_hasValues hin.hasValues)]
      at hassigns
    refine ⟨_, b', s', hassigns, Meaning.lane_setLanes_self hnodup _, fun xs hxs hlt => ?_⟩
    have hworld := hassigns.world
    rwa [hxs, Meaning.setLanes_self hnodup hlt, ← hxs, World.write_root] at hworld

/-- Wherever the code of an expression is put from here on, it comes to what the expression means
and leaves the variables and the calls as they are. -/
def IsEffectless (σ : Site) (e : Expr) : Prop :=
  ∀ m roots b s, σ.Behind m roots b s →
    Evaluates m b s (Lowering.expr σ.lowered e) (typeOf σ.checked e)
      (Meaning.expr m σ.checked roots e s.world).1

theorem isEffectless_of_isPure (hσ : σ.Agrees) (hd : Declared σ.checked) {e : Expr} (he : e.IsPure)
    (hc : Clean σ.checked e) (ht : HasTypes σ.checked e) : σ.IsEffectless e := by
  intro m roots b s h
  have hrun := expr_realizes (w := s.world) hσ.stored hd hc ht (hσ.rooted h.le h.rooted)
  exact .of_realizes hrun h.isOpen (Meaning.expr_leaves he s.world)

end Site

/-! ## Programs -/

/-- In a program that the checker finds nothing wrong with, every chain of swizzles on a variable is
a lens, and every expression that writes and calls nothing is evaluated without effects. -/
theorem Program.lower_swizzles {source : String} {p : Program} (hp : ofText? source = .ok p)
    (hclean : p.findings = []) (moduleName : String) :
    p.EachSite (∃ fault, p.lower moduleName = .error fault)
      (fun σ _ =>
        (∀ target name lanes, target.Selects name lanes → Clean σ.checked target →
          σ.IsLens target name lanes) ∧
        ∀ e, e.IsPure → Clean σ.checked e → HasTypes σ.checked e → σ.IsEffectless e)
      moduleName := by
  apply Program.eachSite_of_agrees ?_ hclean
  · intro fault l hfault
    exact ⟨fault, by simp [Program.lower, hfault]⟩
  · intro σ _ hσ hd _
    have hdeclared := hd (asRead_of_ofText hp)
    refine ⟨fun target name lanes hselects hc => ?_, fun e he hc ht => ?_⟩
    · obtain ⟨v, slot, hfind, hvec, hin⟩ := hselects.locates hσ hdeclared hc
      exact hin.isLens hσ hfind hvec
    · exact Site.isEffectless_of_isPure hσ hdeclared he hc ht

/-- Two lanes of a variable are exchanged through a chain. -/
theorem Program.lower_swizzles_of_exchange : ∃ p,
    ofText? "void f(vec3 v) { v.zyx.xy = v.yz; }" = .ok p ∧
      p.findings = [] ∧ p.EachSite (∃ fault, p.lower "m" = .error fault)
        (fun σ _ =>
          (∀ target name lanes, target.Selects name lanes → Clean σ.checked target →
            σ.IsLens target name lanes) ∧
          ∀ e, e.IsPure → Clean σ.checked e → HasTypes σ.checked e → σ.IsEffectless e) "m" := by
  obtain ⟨p, hp, hclean⟩ : ∃ p,
      ofText? "void f(vec3 v) { v.zyx.xy = v.yz; }" = .ok p ∧
        p.findings = [] :=
    ⟨_, by cbv, by cbv⟩
  exact ⟨p, hp, hclean, lower_swizzles hp hclean "m"⟩

end ShaderLang
