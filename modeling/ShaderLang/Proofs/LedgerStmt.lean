import ShaderLang.Proofs.LedgerExpr
import ShaderLang.Proofs.Names
import ShaderLang.Proofs.Sites

/-!
# The code of statements in a ledger

A constant variable is sealed when its slot is added. The seal says in advance where its first value
will be stored: the initializer has yet to be evaluated, but it cannot see the variable, so the store
behind it is the only one that goes there (`localVar_tracks`).

`EachLocal` says something of every local variable in a statement, with its slot and the store of its
first value; it follows the lowering action by action. `stmt_tracks` says that the ledger behind the
statement has the seals of all constant ones.
-/

namespace ShaderLang

open Lowering
open Ir (Build Builder Inst Ledger Rules Seal Writing)

/-! ## Declarations in the order of the lowering -/

namespace Lowering

/-- The slot of a local variable and its first value, before that is stored. -/
def localInit (g : SymbolTable) (v : VarDecl) : Emit (Ir.Value × Option Ir.Value) := do
  let slot ← Build.alloca v.ty.toIr v.name.name
  match v.init with
  | some init =>
    let value ← expr g init
    let value ← coerce value v.ty
    return (slot, some value)
  | none => return (slot, none)

/-- A slot, and the store of a first value into it that comes next. -/
def sealHere (b : Builder) (slot : Ir.Value) (first : Option Ir.Value) : Seal :=
  ⟨slot, first.map fun value => ⟨here b, offset b, value⟩⟩

end Lowering

section EachLocal

variable (P : VarDecl → Seal → Prop)

/-- Something holds of a local variable and of the store of its first value. -/
def VarDecl.EachLocal (g : SymbolTable) (b : Builder) (v : VarDecl) : Prop :=
  Leads False (localInit g v) b fun r b => P v (sealHere b r.1 r.2)

/-- Something holds of the variable that a `for` loop begins with. -/
def ForInit.EachLocal (g : SymbolTable) (b : Builder) : Option ForInit → Prop
  | some (.declare v) => v.EachLocal P g b
  | _ => True

mutual

/-- Something holds of every local variable in a statement. -/
def Stmt.EachLocal (context : Context) (g : SymbolTable) (b : Builder) (s : Stmt) : Prop :=
  Leads False ensureOpen b fun _ b =>
  match s with
  | .expr .. | .empty _ | .breakStmt _ | .continueStmt _ | .returnStmt .. => True
  | .declare v => v.EachLocal P g b
  | .block _ body => Stmt.AllEachLocal context g.push b body
  | .ifThen _ test ifTrue =>
    Leads False (condition g test) b fun value b =>
    Leads False (Build.createBlock "if.then") b fun trueBlock b =>
    Leads False (Build.createBlock "if.footer") b fun footer b =>
    Leads False (Build.condBranch value trueBlock footer) b fun _ b =>
    Leads False (Build.position trueBlock) b fun _ b =>
    Stmt.EachLocal context g.push b ifTrue
  | .ifElse _ test ifTrue ifFalse =>
    Leads False (condition g test) b fun value b =>
    Leads False (Build.createBlock "if.then") b fun trueBlock b =>
    Leads False (Build.createBlock "if.else") b fun falseBlock b =>
    Leads False (Build.createBlock "if.footer") b fun footer b =>
    Leads False (Build.condBranch value trueBlock falseBlock) b fun _ b =>
    Leads False (Build.position trueBlock) b fun _ b =>
    Stmt.EachLocal context g.push b ifTrue ∧
    Leads False (stmt context g.push ifTrue) b fun _ b =>
    Leads False (branchIfOpen footer) b fun _ b =>
    Leads False (Build.position falseBlock) b fun _ b =>
    Stmt.EachLocal context g.push b ifFalse
  | .whileLoop _ test body =>
    Leads False (Build.createBlock "while.head") b fun head b =>
    Leads False (Build.createBlock "while.body") b fun bodyBlock b =>
    Leads False (Build.createBlock "while.footer") b fun footer b =>
    Leads False (Build.branch head) b fun _ b =>
    Leads False (Build.position head) b fun _ b =>
    Leads False (loopTest g (some test) bodyBlock footer) b fun _ b =>
    Leads False (Build.position bodyBlock) b fun _ b =>
    Stmt.EachLocal (context.inside ⟨footer, some head⟩) g.push b body
  | .forLoop _ init test step body =>
    ForInit.EachLocal P g.push b init ∧
    Leads False (forInit g.push init) b fun inner b =>
    Leads False (Build.createBlock "for.head") b fun head b =>
    Leads False (Build.createBlock "for.body") b fun bodyBlock b =>
    Leads False (blockFor step "for.step") b fun stepBlock b =>
    Leads False (Build.createBlock "for.footer") b fun footer b =>
    Leads False (Build.branch head) b fun _ b =>
    Leads False (Build.position head) b fun _ b =>
    Leads False (loopTest inner test bodyBlock footer) b fun _ b =>
    Leads False (Build.position bodyBlock) b fun _ b =>
    Stmt.EachLocal (context.inside ⟨footer, some (stepBlock.getD head)⟩) inner.push b body
  | .switch _ value arms =>
    Leads False (Lowering.expr g value) b fun found b =>
    Leads False (coerce found .int) b fun found b =>
    Leads False (armBlocks arms) b fun blocks b =>
    Leads False (Build.createBlock "switch.footer") b fun footer b =>
    Leads False (dispatch footer arms blocks) b fun cases b =>
    Leads False (Build.switch found cases.1 cases.2) b fun _ b =>
    Stmt.ArmsEachLocal (context.inside ⟨footer, none⟩) g b footer blocks arms
  termination_by structural s

/-- Something holds of every local variable in these statements. -/
def Stmt.AllEachLocal (context : Context) (g : SymbolTable) (b : Builder) : List Stmt → Prop
  | [] => True
  | s :: rest =>
    Stmt.EachLocal context g b s ∧
    Leads False (stmt context g s) b fun g b => Stmt.AllEachLocal context g b rest
  termination_by structural s => s

/-- Something holds of every local variable in these arms. -/
def Stmt.ArmsEachLocal (context : Context) (g : SymbolTable) (b : Builder) (footer : Nat)
    (blocks : List Nat) : List (Arm (List Stmt)) → Prop
  | [] => True
  | ⟨_, body, _⟩ :: rest =>
    match blocks with
    | [] => False
    | next :: blocks =>
      Leads False (Build.position next) b fun _ b =>
      Stmt.AllEachLocal context g.push b body ∧
      Leads False (stmts context g.push body) b fun _ b =>
      Leads False (branchIfOpen (blocks.headD footer)) b fun _ b =>
      Stmt.ArmsEachLocal context g b footer blocks rest
  termination_by structural s => s

end

end EachLocal

theorem Leads.of_ok {α : Type} {fails : Prop} {x : Emit α} {b b' : Builder} {a : α}
    {Q : α → Builder → Prop} (hx : x b = .ok a b') (h : Q a b') : Leads fails x b Q := by
  unfold Leads
  rw [hx]
  exact h

variable {rules : Rules} {l l' : Ledger} {b b' : Builder} {c g : SymbolTable}

/-! ## Seals -/

namespace Ir.Ledger

/-- The ledger knows a slot, which is sealed with the store of a first value if the variable is
constant, and open otherwise. -/
structure Allots (l : Ledger) (isConst : Bool) (slot : Ir.Value) (first : Option Writing) : Prop where
  plain : slot.isPlain l.globals = true
  root : slot.root? l.roots = some slot
  opens : isConst = false → l.Opens slot
  mem : isConst = true → ⟨slot, first⟩ ∈ l.seals
  only : ∀ s ∈ l.seals, s.slot = slot → s.first = first

namespace Allots

variable {isConst : Bool} {slot : Ir.Value} {first : Option Writing}

theorem knows (h : l.Allots isConst slot first) : l.Knows slot :=
  ⟨h.plain, by rw [h.root]; rfl⟩

theorem mono (h : l.Allots isConst slot first) (hl : l.Extends l') :
    l'.Allots isConst slot first where
  plain := by rw [hl.globals, h.plain]
  root := hl.root? h.root
  opens hconst := (h.opens hconst).mono hl
  mem hconst := hl.seals _ (h.mem hconst)
  only s hs hslot := h.only s (hl.seal_of_root? h.root hs hslot) hslot

/-- A new slot is allotted to any variable, with any store to come. -/
theorem grow (l : Ledger) (isConst : Bool) (first : Option Writing) :
    ∃ l', l.Extends l' ∧ l'.roots.length = l.roots.length + 1 ∧
      l'.Allots isConst l.fresh first := by
  refine ⟨l.grow l.fresh (if isConst then [⟨l.fresh, first⟩] else []) (.inl rfl) ?_, .grow .., ?_,
    rfl, ?_, ?_, ?_, ?_⟩
  · cases isConst <;> simp
  · simp [Ledger.grow]
  · simp [Ledger.grow, fresh, Ir.Value.root?]
  · rintro rfl
    exact opens_addTemp
  · rintro rfl
    simp [Ledger.grow]
  · intro s hs hslot
    rcases List.mem_append.mp hs with hs | hs
    · have hsealed := l.sealed s hs
      rw [hslot, root?_fresh] at hsealed
      cases hsealed
    · cases isConst with
      | false => cases hs
      | true => rw [List.mem_singleton.mp hs]

end Allots

end Ir.Ledger

/-- The ledger has the seal of a constant variable, and the store of the first value is there. -/
structure Sealed (l : Ledger) (b : Builder) (v : VarDecl) (s : Seal) : Prop where
  mem : v.isConst = true → s ∈ l.seals
  first : ∀ w ∈ s.first, b.Has w.block w.index (.store s.slot w.value)

/-- Something holds of whatever follows from the seals, as soon as a function has got this far, and
whatever comes behind it. -/
def Later (l : Ledger) (b : Builder) (K : (VarDecl → Seal → Prop) → Prop) : Prop :=
  ∀ l' b' P, l.Extends l' → b.Lasts b' → (∀ v s, Sealed l' b' v s → P v s) → K P

namespace Later

variable {K K' : (VarDecl → Seal → Prop) → Prop}

theorem mono (h : Later l b K) (hr : Recorded rules l b l' b') : Later l' b' K :=
  fun l'' b'' P hl hb => h l'' b'' P (hr.more.trans hl) (hr.lasts.trans hb)

theorem imp (h : Later l b K) (hK : ∀ P, K P → K' P) : Later l b K' :=
  fun l' b' P hl hb hP => hK P (h l' b' P hl hb hP)

theorem and (h : Later l b K) (h' : Later l b K') : Later l b fun P => K P ∧ K' P :=
  fun l' b' P hl hb hP => ⟨h l' b' P hl hb hP, h' l' b' P hl hb hP⟩

theorem always (h : ∀ P, K P) : Later l b K :=
  fun _ _ P _ _ _ => h P

end Later

namespace Lowering

/-! ## Local variables -/

theorem Tracks.alloca_allots {ty : Ir.Ty} {name : String}
    (hname : rules.reads → Token.IsName name) (isConst : Bool) (first : Option Writing) :
    Tracks rules l (liftM (Build.alloca ty name)) b fun l' slot _ => l'.Allots isConst slot first := by
  obtain ⟨l', hl, hlength, hallots⟩ := Ir.Ledger.Allots.grow l isConst first
  refine Tracks.emitValue hl hlength (fun block index => ?_) fun _ => hallots
  exact .of_simple rfl (by simp [Inst.operands]) (by simpa [Inst.names] using hname)

/-- The one store that the seal of a constant variable names. -/
theorem Tracks.store_first {isConst : Bool} {slot value : Ir.Value}
    (h : l.Allots isConst slot (some ⟨here b, offset b, value⟩))
    (hv : here b = 0 ∧ offset b < rules.prologue ∨ value.isPlain l.globals = true) :
    Tracks rules l (liftM (Build.store slot value)) b fun l' _ b' =>
      l' = l ∧ b'.Has (here b) (offset b) (.store slot value) := by
  refine Tracks.emit_here ⟨hv.imp id fun hv => ?_, by simp [Inst.names], nofun, ?_⟩
  · simpa [Inst.operands] using ⟨h.plain, hv⟩
  · rintro _ _ ⟨⟩
    exact ⟨slot, h.root, h.only⟩

open Check hiding stmt stmts armBodies forInit discard

theorem localVar_tracks (hg : g.Governed rules.reads l) (hs : Stored c g) {v : VarDecl}
    (hn : rules.reads → v.IsNamed) (hc : CleanVar c v) :
    Tracks rules l (localVar g v) b fun l' g' b' => g'.Governed rules.reads l' ∧
      Stored (c.declare (.ofVar v)) g' ∧
      Later l' b' fun P => v.EachLocal P g b := by
  refine fun hb => .intro fun g' b' hx => ?_
  unfold localVar at hx
  obtain ⟨slot, b₁, halloca, hrest⟩ := Emit.bind_eq_ok.mp hx
  cases hinit : v.init with
  | none =>
    simp only [hinit] at hrest
    cases hrest
    have hlocal : localInit g v b = .ok (slot, none) b' := by
      rw [localInit, Emit.bind_eq halloca]
      simp only [hinit]
      rfl
    obtain ⟨l₁, hr₁, hallots⟩ :=
      (Tracks.alloca_allots hn v.isConst none hb).ok_imp halloca
    refine ⟨l₁, hr₁, (hg.mono hr₁.more).declareVar hallots.knows hallots.opens, hs.declareVar v slot,
      fun l'' b'' P hl _ hP => .of_ok hlocal (hP _ _ ?_)⟩
    exact ⟨(hallots.mono hl).mem, nofun⟩
  | some e =>
    simp only [hinit] at hrest
    obtain ⟨a, b₂, hexpr, hrest⟩ := Emit.bind_eq_ok.mp hrest
    obtain ⟨value, b₃, hcoerce, hrest⟩ := Emit.bind_eq_ok.mp hrest
    obtain ⟨_, b₄, hstore, hrest⟩ := Emit.bind_eq_ok.mp hrest
    cases hrest
    have hlocal : localInit g v b = .ok (slot, some value) b₃ := by
      rw [localInit, Emit.bind_eq halloca]
      simp only [hinit]
      rw [Emit.bind_eq hexpr, Emit.bind_eq hcoerce]
      rfl
    -- The run says where the store will be; the initializer is then followed with that in the ledger.
    obtain ⟨l₁, hr₁, hallots⟩ :=
      (Tracks.alloca_allots hn v.isConst (some ⟨here b₃, offset b₃, value⟩) hb).ok_imp halloca
    obtain ⟨l₂, hr₂, ha⟩ :=
      (expr_tracks (hg.mono hr₁.more) hs (hc.init e hinit) hr₁.covers).ok_imp hexpr
    obtain ⟨l₃, hr₃, hvalue⟩ := (coerce_tracks ha v.ty hr₂.covers).ok_imp hcoerce
    replace hallots := hallots.mono (hr₂.more.trans hr₃.more)
    obtain ⟨l₄, hr₄, rfl, hhas⟩ :=
      (Tracks.store_first hallots (.inr hvalue.1) hr₃.covers).ok_imp hstore
    have hr := hr₁.trans (hr₂.trans (hr₃.trans hr₄))
    refine ⟨l₄, hr, (hg.mono hr.more).declareVar hallots.knows hallots.opens, hs.declareVar v slot,
      fun l'' b'' P hl hlasts hP => .of_ok hlocal (hP _ _ ⟨(hallots.mono hl).mem, ?_⟩)⟩
    rintro w ⟨⟩
    exact hlasts _ _ _ hhas

/-! ## Parts of statements -/

theorem ensureOpen_tracks : Tracks rules l ensureOpen b fun l' _ _ => l' = l := by
  refine .get_bind ?_
  split
  · exact .createBlock_bind fun dead b₁ => .position
  · exact .pure rfl

theorem Tracks.ensureOpen_bind {β : Type} {f : Unit → Emit β} {R : Ledger → β → Builder → Prop}
    (h : ∀ b', ensureOpen b = .ok () b' → Tracks rules l (f ()) b' R) :
    Tracks rules l (ensureOpen >>= f) b R := by
  refine bind_run ensureOpen_tracks ?_
  rintro _ _ b' hrun - rfl
  exact h b' hrun

theorem branchIfOpen_tracks (target : Nat) :
    Tracks rules l (branchIfOpen target) b fun l' _ _ => l' = l := by
  refine .get_bind ?_
  split
  · exact .pure rfl
  · exact .terminate (by simp [Ir.Terminator.operands]) fun _ => rfl

theorem branch_tracks (target : Nat) :
    Tracks rules l (liftM (Build.branch target)) b fun l' _ _ => l' = l :=
  .terminate (by simp [Ir.Terminator.operands]) fun _ => rfl

theorem condBranch_tracks {value : Ir.Value} (h : l.Knows value) (ifTrue ifFalse : Nat) :
    Tracks rules l (liftM (Build.condBranch value ifTrue ifFalse)) b fun l' _ _ => l' = l :=
  .terminate (by simpa [Ir.Terminator.operands] using h) fun _ => rfl

theorem blockFor_tracks {α : Type} (content : Option α) (stem : String) :
    Tracks rules l (blockFor content stem) b fun l' _ _ => l' = l := by
  cases content with
  | none => exact .pure rfl
  | some x => exact .createBlock_bind fun block b₁ => .pure rfl

/-- What the action returns in any case. -/
theorem Tracks.and_returns {α : Type} {x : Emit α} {P : Ledger → α → Builder → Prop} {Q : α → Prop}
    (h : Tracks rules l x b P) (hx : Returns x Q) : Tracks rules l x b fun _ a _ => Q a :=
  fun hb => (h hb).imp fun _ _ hrun ⟨l', hr, _⟩ => ⟨l', hr, hx.ok_imp hrun⟩

theorem armBlocks_tracks {Body : Type} (arms : List (Arm Body)) :
    Tracks rules l (armBlocks arms) b fun _ blocks _ => blocks.length = arms.length := by
  refine (Tracks.mapM (P := fun _ _ => True) (fun _ _ _ _ _ => trivial) arms ?_).and_returns
    (armBlocks_returns arms)
  intro l₁ b₁ arm _ _
  exact Tracks.createBlock.imp fun _ _ _ _ _ => trivial

theorem dispatch_tracks {Body : Type} (arms : List (Arm Body)) (default : Nat) (blocks : List Nat) :
    Tracks rules l (dispatch default arms blocks) b fun l' _ _ => l' = l := by
  induction arms generalizing default blocks b with
  | nil =>
    rw [dispatch]
    · exact .pure rfl
    · simp
  | cons arm rest ih =>
    cases blocks with
    | nil =>
      rw [dispatch]
      · exact .pure rfl
      · simp
    | cons block blocks =>
      rw [dispatch]
      split
      · exact ih block blocks
      · refine Tracks.bind (P := fun l' _ _ => l' = l) (.orFault fun _ _ => rfl) ?_
        rintro _ value b₁ - rfl
        refine Tracks.bind (ih default blocks) ?_
        rintro _ r b₂ - rfl
        exact .pure rfl

section

variable (hg : g.Governed rules.reads l) (hs : Stored c g)

include hg hs

theorem condition_tracks {e : Expr} (hc : Clean c e) :
    Tracks rules l (condition g e) b fun l' v _ => l'.Knows v := by
  refine Tracks.bind (expr_tracks hg hs hc) ?_
  intro l₁ value b₁ _ hvalue
  exact coerce_tracks hvalue .bool

theorem discard_tracks {e : Expr} (hc : Clean c e) :
    Tracks rules l (discard g e) b fun _ _ _ => True := by
  refine Tracks.bind (expr_tracks hg hs hc) ?_
  intro l₁ _ b₁ _ _
  exact .pure trivial

theorem forInit_tracks {init : Option ForInit}
    (hn : rules.reads → ∀ i ∈ init, i.IsNamed) (hc : CleanInit c init) :
    Tracks rules l (forInit g init) b fun l' g' b' => g'.Governed rules.reads l' ∧
      Stored (c.behindInit init) g' ∧
      Later l' b' fun P => ForInit.EachLocal P g b init := by
  match init with
  | none => exact .pure ⟨hg, hs, .always fun _ => trivial⟩
  | some (.expr e) =>
    refine Tracks.bind (discard_tracks hg hs hc) ?_
    intro l₁ _ b₁ hl₁ _
    exact .pure ⟨hg.mono hl₁, hs, .always fun _ => trivial⟩
  | some (.declare v) => exact localVar_tracks hg hs (fun hreads => hn hreads _ rfl) hc

theorem loopTest_tracks {test : Option Expr} (body exit : Nat) (hc : ∀ e ∈ test, Clean c e) :
    Tracks rules l (loopTest g test body exit) b fun _ _ _ => True := by
  cases test with
  | none => exact (branch_tracks body).imp fun _ _ _ _ _ => trivial
  | some e =>
    refine Tracks.bind (condition_tracks hg hs (hc e rfl)) ?_
    intro l₁ value b₁ _ hvalue
    exact (condBranch_tracks hvalue body exit).imp fun _ _ _ _ _ => trivial

theorem loopStep_tracks (head : Nat) (block : Option Nat) {step : Option Expr}
    (hc : ∀ e ∈ step, Clean c e) :
    Tracks rules l (loopStep g head block step) b fun _ _ _ => True := by
  unfold loopStep
  split
  · next block e =>
    refine .position_bind fun b₁ => ?_
    refine Tracks.bind (discard_tracks hg hs (hc e rfl)) ?_
    intro l₁ _ b₂ _ _
    exact (branch_tracks head).imp fun _ _ _ _ _ => trivial
  · exact .pure trivial

theorem returnValue_tracks (returnTy : Ty) {value : Option Expr} (hc : ∀ e ∈ value, Clean c e) :
    Tracks rules l (returnValue g returnTy value) b fun l' v _ => ∀ x ∈ v, l'.Knows x := by
  cases value with
  | none => exact .pure nofun
  | some e =>
    refine Tracks.bind (expr_tracks hg hs (hc e rfl)) ?_
    intro l₁ value b₁ _ hvalue
    split
    · exact .pure nofun
    · refine Tracks.bind (coerce_tracks hvalue returnTy) ?_
      intro l₂ value b₂ _ hvalue
      refine .pure ?_
      rintro _ ⟨⟩
      exact hvalue

end

/-! ## Statements -/

mutual

/-- A ledger covers the code of a clean statement; behind it, it has the seals of the constant
variables in the statement. -/
theorem stmt_tracks {l : Ledger} {b : Builder} {c g : SymbolTable} {context : Check.Context}
    {context' : Context} (hg : g.Governed rules.reads l) (hs : Stored c g) {s : Stmt}
    (hn : rules.reads → s.IsNamed) (hc : CleanStmt context c s) :
    Tracks rules l (stmt context' g s) b fun l' g' b' => g'.Governed rules.reads l' ∧
      Stored (c.behind s) g' ∧
      Later l' b' fun P => s.EachLocal P context' g b := by
  match s with
  | .expr _ e =>
    rw [stmt]
    refine .ensureOpen_bind fun b₀ h₀ => ?_
    refine Tracks.bind (discard_tracks hg hs (cleanStmt_expr.mp hc)) ?_
    intro l₁ _ b₁ hl₁ _
    exact .pure ⟨hg.mono hl₁, hs, Later.always fun _ => .of_ok h₀ trivial⟩
  | .empty _ =>
    rw [stmt]
    refine .ensureOpen_bind fun b₀ h₀ => ?_
    exact .pure ⟨hg, hs, Later.always fun _ => .of_ok h₀ trivial⟩
  | .declare v =>
    rw [stmt]
    refine .ensureOpen_bind fun b₀ h₀ => ?_
    refine (localVar_tracks hg hs hn (cleanStmt_declare hc)).imp ?_
    rintro l₁ g' b₁ - ⟨hg, hs, hlater⟩
    exact ⟨hg, hs, hlater.imp fun _ h => .of_ok h₀ h⟩
  | .block _ body =>
    rw [stmt]
    refine .ensureOpen_bind fun b₀ h₀ => ?_
    refine Tracks.bind (stmts_tracks hg.push hs.push hn (cleanStmt_block.mp hc)) ?_
    intro l₁ _ b₁ hl₁ hlater
    exact .pure ⟨hg.mono hl₁, hs, hlater.imp fun _ h => .of_ok h₀ h⟩
  | .ifThen _ test ifTrue =>
    rw [stmt]
    refine .ensureOpen_bind fun b₀ h₀ => ?_
    obtain ⟨⟨hctest, -⟩, hctrue⟩ := cleanStmt_ifThen.mp hc
    refine Tracks.bind_run (condition_tracks hg hs hctest) ?_
    intro l₁ value b₁ h₁ hr₁ hvalue
    replace hg := hg.mono hr₁.more
    refine Tracks.bind_run .createBlock ?_
    rintro _ trueBlock b₂ h₂ - rfl
    refine Tracks.bind_run .createBlock ?_
    rintro _ footer b₃ h₃ - rfl
    refine Tracks.bind_run (condBranch_tracks hvalue trueBlock footer) ?_
    rintro _ _ b₄ h₄ - rfl
    refine Tracks.bind_run .position ?_
    rintro _ _ b₅ h₅ - rfl
    refine Tracks.bind (stmt_tracks hg.push hs.push hn hctrue) ?_
    rintro l₆ _ b₆ hl₆ ⟨-, -, htrue⟩
    refine Tracks.bind_run (branchIfOpen_tracks footer) ?_
    rintro _ _ b₇ - hr₇ rfl
    refine Tracks.bind_run .position ?_
    rintro _ _ b₈ - hr₈ rfl
    refine .pure ⟨hg.mono hl₆, hs, ((htrue.mono hr₇).mono hr₈).imp fun _ h => .of_ok h₀ ?_⟩
    exact .of_ok h₁ <| .of_ok h₂ <| .of_ok h₃ <| .of_ok h₄ <| .of_ok h₅ h
  | .ifElse _ test ifTrue ifFalse =>
    rw [stmt]
    refine .ensureOpen_bind fun b₀ h₀ => ?_
    obtain ⟨⟨hctest, -⟩, hctrue, hcfalse⟩ := cleanStmt_ifElse.mp hc
    refine Tracks.bind_run (condition_tracks hg hs hctest) ?_
    intro l₁ value b₁ h₁ hr₁ hvalue
    replace hg := hg.mono hr₁.more
    refine Tracks.bind_run .createBlock ?_
    rintro _ trueBlock b₂ h₂ - rfl
    refine Tracks.bind_run .createBlock ?_
    rintro _ falseBlock b₃ h₃ - rfl
    refine Tracks.bind_run .createBlock ?_
    rintro _ footer b₄ h₄ - rfl
    refine Tracks.bind_run (condBranch_tracks hvalue trueBlock falseBlock) ?_
    rintro _ _ b₅ h₅ - rfl
    refine Tracks.bind_run .position ?_
    rintro _ _ b₆ h₆ - rfl
    refine Tracks.bind_run (stmt_tracks hg.push hs.push (fun h => (hn h).1) hctrue) ?_
    rintro l₇ _ b₇ h₇ hr₇ ⟨-, -, htrue⟩
    replace hg := hg.mono hr₇.more
    refine Tracks.bind_run (branchIfOpen_tracks footer) ?_
    rintro _ _ b₈ h₈ hr₈ rfl
    refine Tracks.bind_run .position ?_
    rintro _ _ b₉ h₉ hr₉ rfl
    refine Tracks.bind_run (stmt_tracks hg.push hs.push (fun h => (hn h).2) hcfalse) ?_
    rintro l₁₀ _ b₁₀ - hr₁₀ ⟨-, -, hfalse⟩
    refine Tracks.bind_run (branchIfOpen_tracks footer) ?_
    rintro _ _ b₁₁ - hr₁₁ rfl
    refine Tracks.bind_run .position ?_
    rintro _ _ b₁₂ - hr₁₂ rfl
    have hlater := (((htrue.mono hr₈).mono hr₉).mono hr₁₀).and hfalse
    refine .pure ⟨hg.mono hr₁₀.more, hs, ((hlater.mono hr₁₁).mono hr₁₂).imp fun _ h => .of_ok h₀ ?_⟩
    refine .of_ok h₁ <| .of_ok h₂ <| .of_ok h₃ <| .of_ok h₄ <| .of_ok h₅ <| .of_ok h₆ ⟨h.1, ?_⟩
    exact .of_ok h₇ <| .of_ok h₈ <| .of_ok h₉ h.2
  | .whileLoop _ test body =>
    rw [stmt]
    refine .ensureOpen_bind fun b₀ h₀ => ?_
    obtain ⟨⟨hctest, -⟩, hcbody⟩ := cleanStmt_whileLoop.mp hc
    refine Tracks.bind_run .createBlock ?_
    rintro _ head b₁ h₁ - rfl
    refine Tracks.bind_run .createBlock ?_
    rintro _ bodyBlock b₂ h₂ - rfl
    refine Tracks.bind_run .createBlock ?_
    rintro _ footer b₃ h₃ - rfl
    refine Tracks.bind_run (branch_tracks head) ?_
    rintro _ _ b₄ h₄ - rfl
    refine Tracks.bind_run .position ?_
    rintro _ _ b₅ h₅ - rfl
    refine Tracks.bind_run (loopTest_tracks hg hs bodyBlock footer ?_) ?_
    · rintro _ ⟨⟩
      exact hctest
    rintro l₆ _ b₆ h₆ hr₆ -
    replace hg := hg.mono hr₆.more
    refine Tracks.bind_run .position ?_
    rintro _ _ b₇ h₇ - rfl
    refine Tracks.bind (stmt_tracks hg.push hs.push hn hcbody) ?_
    rintro l₈ _ b₈ hl₈ ⟨-, -, hbody⟩
    refine Tracks.bind_run (branchIfOpen_tracks head) ?_
    rintro _ _ b₉ - hr₉ rfl
    refine Tracks.bind_run .position ?_
    rintro _ _ b₁₀ - hr₁₀ rfl
    refine .pure ⟨hg.mono hl₈, hs, ((hbody.mono hr₉).mono hr₁₀).imp fun _ h => .of_ok h₀ ?_⟩
    exact .of_ok h₁ <| .of_ok h₂ <| .of_ok h₃ <| .of_ok h₄ <| .of_ok h₅ <| .of_ok h₆ <| .of_ok h₇ h
  | .forLoop _ init test step body =>
    rw [stmt]
    refine .ensureOpen_bind fun b₀ h₀ => ?_
    obtain ⟨hcinit, hctest, hcstep, hcbody⟩ := cleanStmt_forLoop hc
    refine Tracks.bind_run (forInit_tracks hg.push hs.push (fun h => (hn h).1) hcinit) ?_
    rintro l₁ inner b₁ h₁ hr₁ ⟨hginner, hsinner, hinit⟩
    replace hg := hg.mono hr₁.more
    refine Tracks.bind_run .createBlock ?_
    rintro _ head b₂ h₂ hr₂ rfl
    refine Tracks.bind_run .createBlock ?_
    rintro _ bodyBlock b₃ h₃ hr₃ rfl
    refine Tracks.bind_run (blockFor_tracks step "for.step") ?_
    rintro _ stepBlock b₄ h₄ hr₄ rfl
    refine Tracks.bind_run .createBlock ?_
    rintro _ footer b₅ h₅ hr₅ rfl
    refine Tracks.bind_run (branch_tracks head) ?_
    rintro _ _ b₆ h₆ hr₆ rfl
    refine Tracks.bind_run .position ?_
    rintro _ _ b₇ h₇ hr₇ rfl
    refine Tracks.bind_run (loopTest_tracks hginner hsinner bodyBlock footer hctest) ?_
    rintro l₈ _ b₈ h₈ hr₈ -
    replace hg := hg.mono hr₈.more
    replace hginner := hginner.mono hr₈.more
    refine Tracks.bind_run .position ?_
    rintro _ _ b₉ h₉ hr₉ rfl
    refine Tracks.bind_run (stmt_tracks hginner.push hsinner.push (fun h => (hn h).2) hcbody) ?_
    rintro l₁₀ _ b₁₀ - hr₁₀ ⟨-, -, hbody⟩
    replace hg := hg.mono hr₁₀.more
    refine Tracks.bind_run (branchIfOpen_tracks _) ?_
    rintro _ _ b₁₁ - hr₁₁ rfl
    refine Tracks.bind_run (loopStep_tracks (hginner.mono hr₁₀.more) hsinner head stepBlock hcstep) ?_
    rintro l₁₂ _ b₁₂ - hr₁₂ -
    refine Tracks.bind_run .position ?_
    rintro _ _ b₁₃ - hr₁₃ rfl
    have hbefore := hr₂.trans <| hr₃.trans <| hr₄.trans <| hr₅.trans <| hr₆.trans <| hr₇.trans <|
      hr₈.trans <| hr₉.trans hr₁₀
    have hbehind := hr₁₁.trans (hr₁₂.trans hr₁₃)
    have hlater := ((hinit.mono hbefore).and hbody).mono hbehind
    refine .pure ⟨hg.mono hr₁₂.more, hs, hlater.imp fun _ h => .of_ok h₀ ⟨h.1, ?_⟩⟩
    refine .of_ok h₁ <| .of_ok h₂ <| .of_ok h₃ <| .of_ok h₄ <| .of_ok h₅ <| .of_ok h₆ <| .of_ok h₇ ?_
    exact .of_ok h₈ <| .of_ok h₉ h.2
  | .switch _ value arms =>
    rw [stmt]
    refine .ensureOpen_bind fun b₀ h₀ => ?_
    obtain ⟨hcvalue, -, -, hcarms⟩ := cleanStmt_switch hc
    refine Tracks.bind_run (expr_tracks hg hs hcvalue) ?_
    intro l₁ found b₁ h₁ hr₁ hfound
    refine Tracks.bind_run (coerce_tracks hfound .int) ?_
    intro l₂ value b₂ h₂ hr₂ hvalue
    refine Tracks.bind_run (armBlocks_tracks arms) ?_
    intro l₃ blocks b₃ h₃ hr₃ hlength
    replace hg := hg.mono (hr₁.more.trans (hr₂.more.trans hr₃.more))
    refine Tracks.bind_run .createBlock ?_
    rintro _ footer b₄ h₄ - rfl
    refine Tracks.bind_run (dispatch_tracks arms footer blocks) ?_
    rintro l₅ ⟨default, cases⟩ b₅ h₅ - rfl
    have hswitch : Tracks rules l₅ (liftM (Build.switch value default cases)) b₅
        fun l' _ _ => l' = l₅ :=
      .terminate (by simpa [Ir.Terminator.operands] using hvalue.mono hr₃.more) fun _ => rfl
    refine Tracks.bind_run hswitch ?_
    rintro _ _ b₆ h₆ - rfl
    refine Tracks.bind_run (armBodies_tracks hg hs hn hcarms hlength) ?_
    rintro l₇ _ b₇ - hr₇ harms
    refine Tracks.bind_run .position ?_
    rintro _ _ b₈ - hr₈ rfl
    refine .pure ⟨hg.mono hr₇.more, hs, (harms.mono hr₈).imp fun _ h => .of_ok h₀ ?_⟩
    exact .of_ok h₁ <| .of_ok h₂ <| .of_ok h₃ <| .of_ok h₄ <| .of_ok h₅ <| .of_ok h₆ h
  | .breakStmt _ | .continueStmt _ =>
    rw [stmt]
    refine .ensureOpen_bind fun b₀ h₀ => ?_
    refine Tracks.bind (P := fun l' _ _ => l' = l) (.orFault fun _ _ => rfl) ?_
    rintro _ target b₁ - rfl
    refine Tracks.bind (branch_tracks target) ?_
    rintro _ _ b₂ - rfl
    exact .pure ⟨hg, hs, Later.always fun _ => .of_ok h₀ trivial⟩
  | .returnStmt _ value =>
    rw [stmt]
    refine .ensureOpen_bind fun b₀ h₀ => ?_
    refine Tracks.bind (returnValue_tracks hg hs context'.returnTy (cleanStmt_returnStmt hc).1) ?_
    intro l₁ value b₁ hl₁ hvalue
    refine .terminate_bind ?_ fun b₂ => ?_
    · cases value with
      | none => simp [Ir.Terminator.operands]
      | some x => simpa [Ir.Terminator.operands] using hvalue x rfl
    exact .pure ⟨hg.mono hl₁, hs, Later.always fun _ => .of_ok h₀ trivial⟩

theorem stmts_tracks {l : Ledger} {b : Builder} {c g : SymbolTable} {context : Check.Context}
    {context' : Context} (hg : g.Governed rules.reads l) (hs : Stored c g) {body : List Stmt}
    (hn : rules.reads → Stmt.AllNamed body) (hc : CleanStmts context c body) :
    Tracks rules l (stmts context' g body) b fun l' _ b' =>
      Later l' b' fun P => Stmt.AllEachLocal P context' g b body := by
  match body with
  | [] => exact .pure (.always fun _ => trivial)
  | s :: rest =>
    obtain ⟨hcs, hcrest⟩ := cleanStmts_cons.mp hc
    rw [stmts]
    refine Tracks.bind_run (stmt_tracks hg hs (fun h => (hn h).1) hcs) ?_
    rintro l₁ g' b₁ h₁ - ⟨hg', hs', hfirst⟩
    intro hb
    refine (stmts_tracks hg' hs' (fun h => (hn h).2) hcrest hb).imp ?_
    rintro _ b₂ - ⟨l₂, hr₂, hlater⟩
    exact ⟨l₂, hr₂, ((hfirst.mono hr₂).and hlater).imp fun _ h => ⟨h.1, .of_ok h₁ h.2⟩⟩

theorem armBodies_tracks {l : Ledger} {b : Builder} {c g : SymbolTable} {context : Check.Context}
    {context' : Context} (hg : g.Governed rules.reads l) (hs : Stored c g) {footer : Nat}
    {blocks : List Nat} {arms : List (Arm (List Stmt))} (hn : rules.reads → Stmt.ArmsNamed arms)
    (hc : CleanArms context c arms) (hlength : blocks.length = arms.length) :
    Tracks rules l (armBodies context' g footer blocks arms) b fun l' _ b' =>
      Later l' b' fun P => Stmt.ArmsEachLocal P context' g b footer blocks arms := by
  match arms, blocks, hlength with
  | [], _, _ => exact .pure (.always fun _ => trivial)
  | ⟨label, body, _⟩ :: rest, block :: blocks, hlength =>
    obtain ⟨hcbody, hcrest⟩ := cleanArms_cons.mp hc
    rw [armBodies]
    refine Tracks.bind_run .position ?_
    rintro _ _ b₁ h₁ - rfl
    refine Tracks.bind_run (stmts_tracks hg.push hs.push (fun h => (hn h).1) hcbody) ?_
    intro l₂ _ b₂ h₂ hr₂ hbody
    refine Tracks.bind_run (branchIfOpen_tracks _) ?_
    rintro _ _ b₃ h₃ hr₃ rfl
    intro hb
    refine (armBodies_tracks (hg.mono hr₂.more) hs (fun h => (hn h).2) hcrest
      (Nat.succ.inj hlength) hb).imp ?_
    rintro _ b₄ - ⟨l₄, hr₄, hlater⟩
    refine ⟨l₄, hr₄, (((hbody.mono hr₃).mono hr₄).and hlater).imp fun _ h => ?_⟩
    rw [Stmt.ArmsEachLocal]
    exact .of_ok h₁ ⟨h.1, .of_ok h₂ <| .of_ok h₃ h.2⟩

end

end Lowering

end ShaderLang
