import ShaderLang.Proofs.Climb
import ShaderLang.Proofs.Everywhere
import ShaderLang.Proofs.ProgramTotal
import ShaderLang.Proofs.Returns

/-!
# Where expressions stand

The checker and the lowering go through the body of a function in different orders, each with a
symbol table of its own. A `Site` is where both have got to when they come to an expression: the
scopes around it, the two tables, and the builder of the lowering. `EachSite` says something of every
expression in a program at its site; it follows the lowering action by action. At every site both
tables agree with the scopes, and the slots of the variables are there (`Site.Agrees`), so that what
follows from that holds of every expression of a clean program (`Program.eachSite_of_agrees`).
-/

namespace ShaderLang

open Lowering
open Ir (Builder Build)

/-! ## Scopes as they are written -/

/-- A declaration that has been passed, of a variable with the address of its slot. -/
inductive Binding where
  | var (v : VarDecl) (slot : Ir.Value)
  | fn (f : FnDecl)

namespace Binding

/-- What is declared. -/
def decl : Binding → Decl
  | var v _ => .var v
  | fn f => .fn f

/-- The declared name. -/
def name (b : Binding) : String :=
  b.decl.name.name

/-- The declaration as the lowering keeps it. -/
def symbol : Binding → Symbol
  | var v slot => (Symbol.ofVar v).withStorage (.address slot)
  | fn f => (Symbol.ofFn f).withStorage (.function f.name.name)

end Binding

/-- The declarations that have been passed in the scopes around a place, the latest first, and the
innermost scope first. None is forgotten while its scope is open. -/
structure Scopes where
  inner : List Binding
  outer : List (List Binding)

namespace Scopes

/-- Nothing is declared yet. -/
def empty : Scopes :=
  ⟨[], []⟩

/-- One more scope is opened. -/
def push (ρ : Scopes) : Scopes :=
  ⟨[], ρ.inner :: ρ.outer⟩

/-- One more declaration is passed. -/
def declare (ρ : Scopes) (b : Binding) : Scopes :=
  { ρ with inner := b :: ρ.inner }

/-- The latest declaration of a name in the innermost scope that declares it. -/
def find? (ρ : Scopes) (name : String) : Option Binding :=
  (ρ.inner :: ρ.outer).findSome? fun scope => scope.find? (·.name == name)

@[simp]
theorem find?_empty (name : String) : empty.find? name = none :=
  rfl

@[simp]
theorem find?_push (ρ : Scopes) (name : String) : ρ.push.find? name = ρ.find? name := by
  rw [find?, push, List.findSome?_cons]
  rfl

theorem find?_declare (ρ : Scopes) (b : Binding) (name : String) :
    (ρ.declare b).find? name = if b.name = name then some b else ρ.find? name := by
  rw [find?, declare, List.findSome?_cons, List.find?_cons, find?, List.findSome?_cons]
  by_cases h : b.name = name
  · rw [if_pos h, beq_iff_eq.mpr h]
  · rw [if_neg h, beq_eq_false_iff_ne.mpr h]

/-- The slots of the variables are among the first so many temporary values, unless they are no
temporary values. -/
def Below (ρ : Scopes) (n : Nat) : Prop :=
  ∀ name v slot t, ρ.find? name = some (.var v slot) → slot.temp? = some t → t < n

namespace Below

variable {ρ : Scopes} {n m : Nat}

theorem empty (n : Nat) : Scopes.empty.Below n :=
  fun _ _ _ _ h => absurd h (by simp)

theorem mono (h : ρ.Below n) (hnm : n ≤ m) : ρ.Below m :=
  fun name v slot t hv ht => Nat.lt_of_lt_of_le (h name v slot t hv ht) hnm

theorem push (h : ρ.Below n) : ρ.push.Below n := by
  intro name v slot t hv
  rw [find?_push] at hv
  exact h name v slot t hv

theorem declareVar (h : ρ.Below n) (v : VarDecl) {slot : Ir.Value}
    (hslot : ∀ t, slot.temp? = some t → t < n) : (ρ.declare (.var v slot)).Below n := by
  intro name v' slot' t hv
  rw [find?_declare] at hv
  split at hv
  · cases hv
    exact hslot t
  · exact h name v' slot' t hv

theorem declareFn (h : ρ.Below n) (f : FnDecl) : (ρ.declare (.fn f)).Below n := by
  intro name v slot t hv
  rw [find?_declare] at hv
  split at hv
  · cases hv
  · exact h name v slot t hv

end Below

end Scopes

/-! ## Sites -/

/-- Where the checker and the lowering have got to. -/
structure Site where
  scopes : Scopes
  checked : SymbolTable
  lowered : SymbolTable
  builder : Builder

namespace Site

/-- The same place, with what has been added to the builder since. -/
def withBuilder (σ : Site) (b : Builder) : Site :=
  { σ with builder := b }

/-- One scope further in. -/
def push (σ : Site) (b : Builder) : Site :=
  ⟨σ.scopes.push, σ.checked.push, σ.lowered.push, b⟩

/-- The beginning of a program. -/
def start (moduleName : String) : Site :=
  ⟨.empty, .empty, .empty, .new moduleName⟩

end Site

/-- What holds of the result of an action and of the builder behind it, unless the action fails:
then it is said what else holds. -/
def Leads {α : Type} (fails : Prop) (x : Emit α) (b : Builder) (Q : α → Builder → Prop) : Prop :=
  match x b with
  | .ok a b' => Q a b'
  | .error _ _ => fails

section EachSite

variable (fails : Prop) (P : Site → Expr → Prop)

/-- The site behind a declaration of a local variable. -/
def VarDecl.Behind (σ : Site) (v : VarDecl) (k : Site → Prop) : Prop :=
  Leads fails (Build.alloca v.ty.toIr v.name.name) σ.builder fun slot _ =>
    Leads fails (localVar σ.lowered v) σ.builder fun g b =>
      k ⟨σ.scopes.declare (.var v slot), (Check.varDecl σ.checked v).value, g, b⟩

/-- The slot of a local variable comes before its initializer. -/
def VarDecl.EachSite (σ : Site) (v : VarDecl) : Prop :=
  Leads fails (Build.alloca v.ty.toIr v.name.name) σ.builder fun _ b =>
    ∀ e ∈ v.init, P (σ.withBuilder b) e

/-- The site behind what a `for` loop begins with. -/
def ForInit.Behind (σ : Site) (init : Option ForInit) (k : Site → Prop) : Prop :=
  match init with
  | some (.declare v) => v.Behind fails σ k
  | init => Leads fails (forInit σ.lowered init) σ.builder fun g b =>
      k ⟨σ.scopes, (Check.forInit σ.checked init).value, g, b⟩

/-- The expression that a `for` loop begins with, at its site. -/
def ForInit.EachSite (σ : Site) : Option ForInit → Prop
  | some (.expr e) => P σ e
  | some (.declare v) => v.EachSite fails P σ
  | none => True

/-- The site behind a statement. -/
def Stmt.Behind (context : Check.Context) (context' : Context) (σ : Site) (s : Stmt)
    (k : Site → Prop) : Prop :=
  match s with
  | .declare v => Leads fails ensureOpen σ.builder fun _ b => v.Behind fails (σ.withBuilder b) k
  | s => Leads fails (stmt context' σ.lowered s) σ.builder fun g b =>
      k ⟨σ.scopes, (Check.stmt context σ.checked s).value, g, b⟩

mutual

/-- Something holds of every expression of a statement, at its site. -/
def Stmt.EachSite (context : Check.Context) (context' : Context) (σ : Site) (s : Stmt) : Prop :=
  Leads fails ensureOpen σ.builder fun _ b =>
  match s with
  | .expr _ e => P (σ.withBuilder b) e
  | .empty _ | .breakStmt _ | .continueStmt _ => True
  | .declare v => v.EachSite fails P (σ.withBuilder b)
  | .block _ body => Stmt.AllEachSite context context' (σ.push b) body
  | .ifThen _ test ifTrue =>
    P (σ.withBuilder b) test ∧
    Leads fails (condition σ.lowered test) b fun value b =>
    Leads fails (Build.createBlock "if.then") b fun trueBlock b =>
    Leads fails (Build.createBlock "if.footer") b fun footer b =>
    Leads fails (Build.condBranch value trueBlock footer) b fun _ b =>
    Leads fails (Build.position trueBlock) b fun _ b =>
    Stmt.EachSite context context' (σ.push b) ifTrue
  | .ifElse _ test ifTrue ifFalse =>
    P (σ.withBuilder b) test ∧
    Leads fails (condition σ.lowered test) b fun value b =>
    Leads fails (Build.createBlock "if.then") b fun trueBlock b =>
    Leads fails (Build.createBlock "if.else") b fun falseBlock b =>
    Leads fails (Build.createBlock "if.footer") b fun footer b =>
    Leads fails (Build.condBranch value trueBlock falseBlock) b fun _ b =>
    Leads fails (Build.position trueBlock) b fun _ b =>
    Stmt.EachSite context context' (σ.push b) ifTrue ∧
    Leads fails (stmt context' σ.lowered.push ifTrue) b fun _ b =>
    Leads fails (branchIfOpen footer) b fun _ b =>
    Leads fails (Build.position falseBlock) b fun _ b =>
    Stmt.EachSite context context' (σ.push b) ifFalse
  | .whileLoop _ test body =>
    Leads fails (Build.createBlock "while.head") b fun head b =>
    Leads fails (Build.createBlock "while.body") b fun bodyBlock b =>
    Leads fails (Build.createBlock "while.footer") b fun footer b =>
    Leads fails (Build.branch head) b fun _ b =>
    Leads fails (Build.position head) b fun _ b =>
    P (σ.withBuilder b) test ∧
    Leads fails (loopTest σ.lowered (some test) bodyBlock footer) b fun _ b =>
    Leads fails (Build.position bodyBlock) b fun _ b =>
    Stmt.EachSite (context.inside .loop) (context'.inside ⟨footer, some head⟩) (σ.push b) body
  | .forLoop _ init test step body =>
    ForInit.EachSite fails P (σ.push b) init ∧
    ForInit.Behind fails (σ.push b) init fun inner =>
    Leads fails (Build.createBlock "for.head") inner.builder fun head b =>
    Leads fails (Build.createBlock "for.body") b fun bodyBlock b =>
    Leads fails (blockFor step "for.step") b fun stepBlock b =>
    Leads fails (Build.createBlock "for.footer") b fun footer b =>
    Leads fails (Build.branch head) b fun _ b =>
    Leads fails (Build.position head) b fun _ b =>
    (∀ e ∈ test, P (inner.withBuilder b) e) ∧
    Leads fails (loopTest inner.lowered test bodyBlock footer) b fun _ b =>
    Leads fails (Build.position bodyBlock) b fun _ b =>
    let inside := context'.inside ⟨footer, some (stepBlock.getD head)⟩
    Stmt.EachSite (context.inside .loop) inside (inner.push b) body ∧
    Leads fails (stmt inside inner.lowered.push body) b fun _ b =>
    Leads fails (branchIfOpen (stepBlock.getD head)) b fun _ b =>
    ∀ e ∈ step, ∃ block, stepBlock = some block ∧
      Leads fails (Build.position block) b fun _ b => P (inner.withBuilder b) e
  | .switch _ value arms =>
    P (σ.withBuilder b) value ∧
    Leads fails (Lowering.expr σ.lowered value) b fun found b =>
    Leads fails (coerce found .int) b fun found b =>
    Leads fails (armBlocks arms) b fun blocks b =>
    Leads fails (Build.createBlock "switch.footer") b fun footer b =>
    Leads fails (dispatch footer arms blocks) b fun cases b =>
    Leads fails (Build.switch found cases.1 cases.2) b fun _ b =>
    Stmt.ArmsEachSite (context.inside .switch) (context'.inside ⟨footer, none⟩) (σ.withBuilder b)
      footer blocks arms
  | .returnStmt _ value => ∀ e ∈ value, P (σ.withBuilder b) e
  termination_by structural s

/-- Something holds of every expression of these statements, at its site. -/
def Stmt.AllEachSite (context : Check.Context) (context' : Context) (σ : Site) : List Stmt → Prop
  | [] => True
  | s :: rest =>
    Stmt.EachSite context context' σ s ∧
      s.Behind fails context context' σ fun σ => Stmt.AllEachSite context context' σ rest
  termination_by structural s => s

/-- Something holds of every expression in these arms, at its site. -/
def Stmt.ArmsEachSite (context : Check.Context) (context' : Context) (σ : Site) (footer : Nat)
    (blocks : List Nat) : List (Arm (List Stmt)) → Prop
  | [] => True
  | ⟨label, body, _⟩ :: rest =>
    match blocks with
    | [] => False
    | next :: blocks =>
      (∀ e ∈ label, P σ e) ∧
      Leads fails (Build.position next) σ.builder fun _ b =>
      Stmt.AllEachSite context context' (σ.push b) body ∧
      Leads fails (stmts context' σ.lowered.push body) b fun _ b =>
      Leads fails (branchIfOpen (blocks.headD footer)) b fun _ b =>
      Stmt.ArmsEachSite context context' (σ.withBuilder b) footer blocks rest
  termination_by structural s => s

end

/-- The site behind the formal parameters of a function. -/
def VarDecl.AllBehind (σ : Site) (vs : List VarDecl) (k : Site → Prop) : Prop :=
  match vs with
  | [] => k σ
  | v :: rest =>
    Leads fails (Build.alloca v.ty.toIr v.name.name) σ.builder fun slot _ =>
    Leads fails (formals σ.lowered [v]) σ.builder fun g b =>
    VarDecl.AllBehind
      ⟨σ.scopes.declare (.var v slot), (Check.varDecl σ.checked v).value, g, b⟩ rest k

/-- The site at which a function has been declared and nothing in it has been looked at. -/
def Site.atFn (σ : Site) (f : FnDecl) : Site :=
  ⟨σ.scopes.declare (.fn f), (Check.declare σ.checked (.ofFn f)).value,
    σ.lowered.declare ((Symbol.ofFn f).withStorage (.function f.name.name)), σ.builder⟩

/-- Something holds of every expression in the body of a function, at its site. -/
def FnDecl.EachSite (σ : Site) (f : FnDecl) : Prop :=
  Leads fails (Build.beginFunction f.name.name
    (f.formals.map fun formal => (formal.name.name, formal.ty.toIr)) f.returnTy.toIr) σ.builder
    fun _ b =>
  Leads fails (Build.createBlock "entry") b fun entry b =>
  Leads fails (Build.position entry) b fun _ b =>
  VarDecl.AllBehind fails ((σ.atFn f).push b) f.formals fun inner =>
  Stmt.AllEachSite fails P ⟨f.returnTy, []⟩ ⟨f.returnTy, []⟩ (inner.push inner.builder) f.body.stmts

/-- The site behind a declaration at the top of a program. -/
def Decl.Behind (σ : Site) (d : Decl) (k : Site → Prop) : Prop :=
  match d with
  | .var v => Leads fails (globalVar σ.lowered v) σ.builder fun g b =>
      k ⟨σ.scopes.declare (.var v (.global v.name.name)), (Check.varDecl σ.checked v).value, g, b⟩
  | .fn f => Leads fails (fnBody (σ.atFn f).lowered f) σ.builder fun _ b => k ((σ.atFn f).withBuilder b)

/-- Something holds of every expression in the body of a function of these declarations, at its
site. -/
def Decl.AllEachSite (σ : Site) : List Decl → Prop
  | [] => True
  | d :: rest =>
    (∀ f, d = .fn f → f.EachSite fails P σ) ∧ d.Behind fails σ fun σ => Decl.AllEachSite σ rest

/-- Something holds of every expression in the body of a function of the program, at its site. -/
def Program.EachSite (p : Program) (moduleName : String) : Prop :=
  Decl.AllEachSite fails P (.start moduleName) p

end EachSite

namespace Leads

variable {α β : Type} {fails : Prop} {x : Emit α} {f : α → Emit β} {b b' : Builder}
  {P Q : α → Builder → Prop} {R : β → Builder → Prop}

theorem imp (h : Leads fails x b P) (hPQ : ∀ a b', x b = .ok a b' → P a b' → Q a b') :
    Leads fails x b Q := by
  unfold Leads at h ⊢
  cases hx : x b with
  | ok a b' =>
    rw [hx] at h
    exact hPQ a b' hx h
  | error fault b' =>
    rw [hx] at h
    exact h

/-- Only that the action does not fail. -/
theorem any (h : Leads fails x b P) : Leads fails x b fun _ _ => True :=
  h.imp fun _ _ _ _ => trivial

theorem bind_iff :
    Leads fails (x >>= f) b R ↔ Leads fails x b fun a b' => Leads fails (f a) b' R := by
  unfold Leads
  cases hx : x b with
  | ok a b' => rw [Emit.bind_eq hx]
  | error fault b' =>
    have hfail : (x >>= f) b = .error fault b' := by simp [Bind.bind, EStateM.bind, hx]
    rw [hfail]

theorem and_returns {Q : α → Prop} (h : Leads fails x b P) (hx : Returns x Q) :
    Leads fails x b fun a b' => P a b' ∧ Q a :=
  h.imp fun _ _ hxb hP => ⟨hP, hx.ok_imp hxb⟩

end Leads

/-! ## Agreement -/

/-- What a name means is the same for both tables and for the scopes, and the slots of the variables
come before the temporary values that are still to come. -/
structure Site.Agrees (σ : Site) : Prop where
  checked : ∀ name, (σ.checked.lookup? name).map Symbol.decl = (σ.scopes.find? name).map Binding.decl
  lowered : ∀ name, σ.lowered.lookup? name = (σ.scopes.find? name).map Binding.symbol
  slots : σ.scopes.Below σ.builder.nextTemp

namespace Site.Agrees

variable {σ : Site} {b b' : Builder}

theorem start (moduleName : String) : (Site.start moduleName).Agrees :=
  ⟨fun _ => rfl, fun _ => rfl, .empty _⟩

/-- More code has been added. -/
theorem climb (h : (σ.withBuilder b).Agrees) (hle : Climbs b b') : (σ.withBuilder b').Agrees :=
  ⟨h.checked, h.lowered, h.slots.mono hle⟩

theorem push (h : (σ.withBuilder b).Agrees) : (σ.push b).Agrees where
  checked := by simpa [Site.push, Site.withBuilder] using h.checked
  lowered := by simpa [Site.push, Site.withBuilder] using h.lowered
  slots := h.slots.push

/-- A declaration that all three know. -/
theorem declare (h : σ.Agrees) (binding : Binding) {s : Symbol} (hs : s.decl = binding.decl)
    (hslots : (σ.scopes.declare binding).Below b.nextTemp) :
    (Site.mk (σ.scopes.declare binding) (σ.checked.declare s)
      (σ.lowered.declare binding.symbol) b).Agrees where
  checked name := by
    have hname : s.name = binding.name := congrArg (·.name.name) hs
    rw [SymbolTable.lookup?_declare, Scopes.find?_declare, hname]
    split
    · rw [Option.map_some, Option.map_some, hs]
    · exact h.checked name
  lowered name := by
    have hname : binding.symbol.name = binding.name := by cases binding <;> rfl
    rw [SymbolTable.lookup?_declare, Scopes.find?_declare, hname]
    split
    · rfl
    · exact h.lowered name
  slots := hslots

theorem atFn (h : σ.Agrees) (f : FnDecl) : (σ.atFn f).Agrees := by
  unfold Site.atFn
  rw [Check.value_declare]
  exact h.declare (.fn f) rfl (h.slots.declareFn f)

end Site.Agrees

/-- The site moves on with an action that adds code. -/
theorem Leads.next {α : Type} {fails : Prop} {σ : Site} {x : Emit α} {b : Builder}
    {P Q : α → Builder → Prop} (h : Leads fails x b P) (hσ : (σ.withBuilder b).Agrees)
    (hx : Advances Climbs x)
    (hPQ : ∀ a b', (σ.withBuilder b').Agrees → P a b' → Q a b') : Leads fails x b Q :=
  h.imp fun a b' hrun hP => hPQ a b' (hσ.climb ((hx b).ok_imp hrun)) hP

/-! ## Every site -/

namespace Check

variable {c : SymbolTable}

/-- The label of a case is a clean expression, though the checker does not look into it. -/
theorem clean_and_int_of_constInt? :
    ∀ {e : Expr}, e.constInt?.isSome = true → Clean c e ∧ typeOf c e = .int
  | .int .., _ => ⟨rfl, rfl⟩
  | .unary span op operand, h => by
    cases op with
    | plus | minus =>
      obtain ⟨hclean, hty⟩ := clean_and_int_of_constInt? (e := operand) (by
        simpa [Expr.constInt?] using h)
      exact ⟨clean_unary.mpr ⟨hclean, by simp, by rw [hty]; rfl⟩, by rw [typeOf, hty]; rfl⟩
    | step d | not => cases h

end Check

namespace Lowering

theorem armBlocks_returns {Body : Type} (arms : List (Arm Body)) :
    Returns (armBlocks arms) fun blocks => blocks.length = arms.length := by
  unfold armBlocks
  induction arms with
  | nil => exact .pure rfl
  | cons arm rest ih =>
    rw [List.mapM_cons]
    apply Returns.andThen
    intro block
    apply ih.bind
    intro blocks hlength
    exact .pure (by rw [List.length_cons, List.length_cons, hlength])

theorem blockFor_returns {α : Type} (content : Option α) (stem : String) :
    Returns (blockFor content stem) fun block => block.isSome = content.isSome := by
  cases content with
  | none => exact .pure rfl
  | some x => exact .andThen fun _ => .pure rfl

end Lowering

namespace Lowering

variable {g g' : SymbolTable} {b b' : Builder}

/-- The slot that is added is the last temporary value that there is. -/
theorem slot_below {ty : Ir.Ty} {name : String} {slot : Ir.Value} {b₁ : Builder}
    (h : (liftM (Build.alloca ty name) : Emit Ir.Value) b = .ok slot b₁) (hle : Climbs b₁ b') :
    ∀ t, slot.temp? = some t → t < b'.nextTemp := by
  obtain ⟨rfl, rfl⟩ := Build.emitValue_eq_ok (Emit.lift_eq_ok h)
  rw [Climbs, Builder.nextTemp_append] at hle
  rintro t ⟨⟩
  exact hle

/-- A local variable is declared with the slot that was added for it first. -/
theorem slot_of_localVar {v : VarDecl} (h : localVar g v b = .ok g' b') :
    ∃ slot b₁, (liftM (Build.alloca v.ty.toIr v.name.name) : Emit Ir.Value) b = .ok slot b₁ ∧
      g' = g.declare (Binding.var v slot).symbol ∧ Climbs b₁ b' := by
  unfold localVar at h
  obtain ⟨slot, b₁, hslot, hrest⟩ := Emit.bind_eq_ok.mp h
  refine ⟨slot, b₁, hslot, ?_⟩
  cases hv : v.init with
  | none =>
    simp only [hv] at hrest
    exact ⟨Returns.ok_imp (Q := (· = g.declare _)) (.pure rfl) hrest,
      (Advances.pure _ b₁).ok_imp hrest⟩
  | some e =>
    simp only [hv] at hrest
    refine ⟨Returns.ok_imp (Q := (· = g.declare _))
      (.andThen fun _ => .andThen fun _ => .andThen fun _ => .pure rfl) hrest, ?_⟩
    refine (Advances.bind (R := Climbs) (expr_advances g e) (fun _ => ?_) b₁).ok_imp hrest
    exact .bind (coerce_advances _ _) fun _ => .bind (.emit _) fun _ => .pure _

end Lowering

open Check (Clean CleanVar CleanInit CleanStmt CleanStmts CleanArms)

-- If a program is one that the grammar reads, as `reads` says, then the checker's table is one of
-- declarations as the grammar reads them.
variable {fails reads : Prop} {P : Site → Expr → Prop} {context : Check.Context}
  {context' : Lowering.Context} {σ : Site} {k : Site → Prop}
  {Q : SymbolTable → Builder → Prop}

theorem VarDecl.behind_of_leads {v : VarDecl} (hσ : σ.Agrees)
    (h : Leads fails (localVar σ.lowered v) σ.builder Q)
    (hk : ∀ σ' : Site, σ'.Agrees → σ'.checked = σ.checked.declare (.ofVar v) →
      Q σ'.lowered σ'.builder → k σ') : v.Behind fails σ k := by
  have hlocal := h
  unfold localVar at hlocal
  rw [Leads.bind_iff] at hlocal
  apply hlocal.imp
  intro slot b₁ hslot _
  apply h.imp
  intro g b hg hQ
  have hclimbs : Climbs σ.builder b := (localVar_advances σ.lowered v σ.builder).ok_imp hg
  obtain ⟨slot', b₁', hslot', rfl, hrest⟩ := slot_of_localVar hg
  rw [hslot] at hslot'
  cases hslot'
  rw [Check.value_varDecl]
  refine hk _ (hσ.declare (.var v slot) rfl ?_) rfl hQ
  exact (hσ.slots.mono hclimbs).declareVar v (slot_below hslot hrest)

theorem ForInit.behind_of_leads {init : Option ForInit} (hσ : σ.Agrees)
    (h : Leads fails (forInit σ.lowered init) σ.builder Q)
    (hk : ∀ σ' : Site, σ'.Agrees → σ'.checked = σ.checked.behindInit init →
      Q σ'.lowered σ'.builder → k σ') : ForInit.Behind fails σ init k := by
  match init with
  | some (.declare v) => exact VarDecl.behind_of_leads hσ h hk
  | none | some (.expr e) =>
    unfold ForInit.Behind
    refine (h.and_returns (forInit_returns (by simp))).next hσ (forInit_climbs _ _) ?_
    rintro g b hσ ⟨hQ, rfl⟩
    exact hk _ hσ rfl hQ

theorem Stmt.behind_of_leads {s : Stmt} (hσ : σ.Agrees)
    (h : Leads fails (stmt context' σ.lowered s) σ.builder Q)
    (hk : ∀ σ' : Site, σ'.Agrees → σ'.checked = σ.checked.behind s →
      Q σ'.lowered σ'.builder → k σ') : s.Behind fails context context' σ k := by
  cases s with
  | declare v =>
    rw [stmt, Leads.bind_iff] at h
    refine h.next hσ ensureOpen_climbs fun _ b hσ h => ?_
    exact VarDecl.behind_of_leads hσ h hk
  | _ =>
    refine (h.and_returns (stmt_returns context' (by simp))).next hσ (stmt_climbs _ _ _) ?_
    rintro g b hσ ⟨hQ, rfl⟩
    rw [Check.value_stmt]
    exact hk _ hσ rfl hQ

theorem VarDecl.eachSite {v : VarDecl}
    (hP : ∀ σ e, σ.Agrees → (reads → Declared σ.checked) → Clean σ.checked e → P σ e)
    (hσ : σ.Agrees) (hd : reads → Declared σ.checked) (hc : CleanVar σ.checked v)
    (h : Leads fails (localVar σ.lowered v) σ.builder Q) : v.EachSite fails P σ := by
  unfold localVar at h
  rw [Leads.bind_iff] at h
  refine h.next hσ (.emitValue _) fun slot b hσ _ e he => ?_
  exact hP _ e hσ hd (hc.init e he)

theorem ForInit.eachSite {init : Option ForInit}
    (hP : ∀ σ e, σ.Agrees → (reads → Declared σ.checked) → Clean σ.checked e → P σ e)
    (hσ : σ.Agrees) (hd : reads → Declared σ.checked) (hc : CleanInit σ.checked init)
    (h : Leads fails (forInit σ.lowered init) σ.builder Q) : ForInit.EachSite fails P σ init := by
  match init with
  | none => trivial
  | some (.expr e) => exact hP σ e hσ hd hc
  | some (.declare v) => exact VarDecl.eachSite hP hσ hd hc h

mutual

/-- Both tables agree with the scopes at every expression of a clean statement. -/
theorem Stmt.eachSite {context : Check.Context} {context' : Lowering.Context} {σ : Site} {s : Stmt}
    (hP : ∀ σ e, σ.Agrees → (reads → Declared σ.checked) → Clean σ.checked e → P σ e)
    (hσ : σ.Agrees) (hd : reads → Declared σ.checked) (hr : reads → s.AsRead)
    (hc : CleanStmt context σ.checked s)
    (h : Leads fails (stmt context' σ.lowered s) σ.builder fun _ _ => True) :
    s.EachSite fails P context context' σ := by
  match s with
  | .expr _ e =>
    rw [stmt, Leads.bind_iff] at h
    rw [Stmt.EachSite]
    refine h.next hσ ensureOpen_climbs fun _ b hσ _ => ?_
    exact hP _ e hσ hd (Check.cleanStmt_expr.mp hc)
  | .empty _ | .breakStmt _ | .continueStmt _ =>
    rw [stmt, Leads.bind_iff] at h
    rw [Stmt.EachSite]
    exact h.any
  | .declare v =>
    rw [stmt, Leads.bind_iff] at h
    rw [Stmt.EachSite]
    refine h.next hσ ensureOpen_climbs fun _ b hσ h => ?_
    exact VarDecl.eachSite hP hσ hd (Check.cleanStmt_declare hc) h
  | .block _ body =>
    simp only [stmt, Leads.bind_iff] at h
    rw [Stmt.EachSite]
    refine h.next hσ ensureOpen_climbs fun _ b hσ h => ?_
    exact Stmt.allEachSite hP hσ.push (fun h => (hd h).push) hr (Check.cleanStmt_block.mp hc) h.any
  | .ifThen _ test ifTrue =>
    obtain ⟨⟨htest, -⟩, htrue⟩ := Check.cleanStmt_ifThen.mp hc
    simp only [stmt, Leads.bind_iff] at h
    rw [Stmt.EachSite]
    refine h.next hσ ensureOpen_climbs fun _ b hσ h => ⟨hP _ test hσ hd htest, ?_⟩
    refine h.next hσ (condition_advances _ _) fun value b hσ h => ?_
    refine h.next hσ (Climbs.createBlock _) fun trueBlock b hσ h => ?_
    refine h.next hσ (Climbs.createBlock _) fun footer b hσ h => ?_
    refine h.next hσ (Climbs.terminate _) fun _ b hσ h => ?_
    refine h.next hσ (Climbs.position _) fun _ b hσ h => ?_
    exact Stmt.eachSite hP hσ.push (fun h => (hd h).push) (fun h => (hr h).2) htrue h.any
  | .ifElse _ test ifTrue ifFalse =>
    obtain ⟨⟨htest, -⟩, htrue, hfalse⟩ := Check.cleanStmt_ifElse.mp hc
    simp only [stmt, Leads.bind_iff] at h
    rw [Stmt.EachSite]
    refine h.next hσ ensureOpen_climbs fun _ b hσ h => ⟨hP _ test hσ hd htest, ?_⟩
    refine h.next hσ (condition_advances _ _) fun value b hσ h => ?_
    refine h.next hσ (Climbs.createBlock _) fun trueBlock b hσ h => ?_
    refine h.next hσ (Climbs.createBlock _) fun falseBlock b hσ h => ?_
    refine h.next hσ (Climbs.createBlock _) fun footer b hσ h => ?_
    refine h.next hσ (Climbs.terminate _) fun _ b hσ h => ?_
    refine h.next hσ (Climbs.position _) fun _ b hσ h => ⟨?_, ?_⟩
    · exact Stmt.eachSite hP hσ.push (fun h => (hd h).push) (fun h => (hr h).2.1) htrue h.any
    · refine h.next hσ (stmt_climbs _ _ _) fun _ b hσ h => ?_
      refine h.next hσ (branchIfOpen_climbs _) fun _ b hσ h => ?_
      refine h.next hσ (Climbs.position _) fun _ b hσ h => ?_
      exact Stmt.eachSite hP hσ.push (fun h => (hd h).push) (fun h => (hr h).2.2) hfalse h.any
  | .whileLoop _ test body =>
    obtain ⟨⟨htest, -⟩, hbody⟩ := Check.cleanStmt_whileLoop.mp hc
    simp only [stmt, Leads.bind_iff] at h
    rw [Stmt.EachSite]
    refine h.next hσ ensureOpen_climbs fun _ b hσ h => ?_
    refine h.next hσ (Climbs.createBlock _) fun head b hσ h => ?_
    refine h.next hσ (Climbs.createBlock _) fun bodyBlock b hσ h => ?_
    refine h.next hσ (Climbs.createBlock _) fun footer b hσ h => ?_
    refine h.next hσ (Climbs.terminate _) fun _ b hσ h => ?_
    refine h.next hσ (Climbs.position _) fun _ b hσ h => ⟨hP _ test hσ hd htest, ?_⟩
    refine h.next hσ (loopTest_climbs _ _ _ _) fun _ b hσ h => ?_
    refine h.next hσ (Climbs.position _) fun _ b hσ h => ?_
    exact Stmt.eachSite hP hσ.push (fun h => (hd h).push) (fun h => (hr h).2) hbody h.any
  | .forLoop _ init test step body =>
    obtain ⟨hinit, htest, hstep, hbody⟩ := Check.cleanStmt_forLoop hc
    simp only [stmt, Leads.bind_iff] at h
    rw [Stmt.EachSite]
    refine h.next hσ ensureOpen_climbs fun _ b hσ h => ?_
    refine ⟨ForInit.eachSite hP hσ.push (fun h => (hd h).push) hinit h, ?_⟩
    apply ForInit.behind_of_leads hσ.push h
    intro inner hinner hchecked h
    rw [Site.push] at hchecked
    have hdeclared : reads → Declared inner.checked := fun h =>
      hchecked ▸ (hd h).push.behindInit (hr h).1 hinit
    rw [← hchecked] at htest hstep hbody
    refine h.next hinner (Climbs.createBlock _) fun head b hσ h => ?_
    refine h.next hσ (Climbs.createBlock _) fun bodyBlock b hσ h => ?_
    refine (h.and_returns (blockFor_returns step "for.step")).next hσ (blockFor_climbs _ _) ?_
    rintro stepBlock b hσ ⟨h, hblock⟩
    refine h.next hσ (Climbs.createBlock _) fun footer b hσ h => ?_
    refine h.next hσ (Climbs.terminate _) fun _ b hσ h => ?_
    refine h.next hσ (Climbs.position _) fun _ b hσ h => ?_
    refine ⟨fun e he => hP _ e hσ hdeclared (htest e he), ?_⟩
    refine h.next hσ (loopTest_climbs _ _ _ _) fun _ b hσ h => ?_
    refine h.next hσ (Climbs.position _) fun _ b hσ h => ⟨?_, ?_⟩
    · exact Stmt.eachSite hP hσ.push (fun h => (hdeclared h).push) (fun h => (hr h).2.2.2) hbody
        h.any
    · refine h.next hσ (stmt_climbs _ _ _) fun _ b hσ h => ?_
      refine h.next hσ (branchIfOpen_climbs _) fun _ b hσ h e he => ?_
      obtain rfl := Option.mem_def.mp he
      obtain ⟨block, rfl⟩ := Option.isSome_iff_exists.mp hblock
      refine ⟨block, rfl, ?_⟩
      simp only [loopStep, Leads.bind_iff] at h
      refine h.next hσ (Climbs.position _) fun _ b hσ _ => ?_
      exact hP _ e hσ hdeclared (hstep e rfl)
  | .switch _ value arms =>
    obtain ⟨hvalue, -, hlabels, harms⟩ := Check.cleanStmt_switch hc
    have hconst := Check.constInt?_of_labels hlabels
    simp only [stmt, Leads.bind_iff] at h
    rw [Stmt.EachSite]
    refine h.next hσ ensureOpen_climbs fun _ b hσ h => ⟨hP _ value hσ hd hvalue, ?_⟩
    refine h.next hσ (expr_advances _ _) fun found b hσ h => ?_
    refine h.next hσ (coerce_advances _ _) fun found b hσ h => ?_
    refine (h.and_returns (armBlocks_returns arms)).next hσ (armBlocks_climbs _) ?_
    rintro blocks b hσ ⟨h, hlength⟩
    refine h.next hσ (Climbs.createBlock _) fun footer b hσ h => ?_
    refine h.next hσ (dispatch_climbs _ _ _) fun cases b hσ h => ?_
    refine h.next hσ (Climbs.terminate _) fun _ b hσ h => ?_
    exact Stmt.armsEachSite hP hσ hd (fun h => (hr h).2) hconst harms hlength h.any
  | .returnStmt _ value =>
    obtain ⟨hvalue, -⟩ := Check.cleanStmt_returnStmt hc
    rw [stmt, Leads.bind_iff] at h
    rw [Stmt.EachSite]
    refine h.next hσ ensureOpen_climbs fun _ b hσ _ e he => ?_
    exact hP _ e hσ hd (hvalue e he)

theorem Stmt.allEachSite {context : Check.Context} {context' : Lowering.Context} {σ : Site}
    {body : List Stmt}
    (hP : ∀ σ e, σ.Agrees → (reads → Declared σ.checked) → Clean σ.checked e → P σ e)
    (hσ : σ.Agrees) (hd : reads → Declared σ.checked) (hr : reads → Stmt.AllAsRead body)
    (hc : CleanStmts context σ.checked body)
    (h : Leads fails (stmts context' σ.lowered body) σ.builder fun _ _ => True) :
    Stmt.AllEachSite fails P context context' σ body := by
  match body with
  | [] => trivial
  | s :: rest =>
    obtain ⟨hs, hrest⟩ := Check.cleanStmts_cons.mp hc
    rw [stmts, Leads.bind_iff] at h
    rw [Stmt.AllEachSite]
    refine ⟨Stmt.eachSite hP hσ hd (fun h => (hr h).1) hs h.any, Stmt.behind_of_leads hσ h ?_⟩
    intro σ' hσ' hchecked h'
    have hdeclared : reads → Declared σ'.checked := fun h => hchecked ▸ (hd h).behind (hr h).1 hs
    exact Stmt.allEachSite hP hσ' hdeclared (fun h => (hr h).2) (hchecked ▸ hrest) h'

theorem Stmt.armsEachSite {context : Check.Context} {context' : Lowering.Context} {σ : Site}
    {footer : Nat} {blocks : List Nat} {arms : List (Arm (List Stmt))}
    (hP : ∀ σ e, σ.Agrees → (reads → Declared σ.checked) → Clean σ.checked e → P σ e)
    (hσ : σ.Agrees) (hd : reads → Declared σ.checked) (hr : reads → Stmt.ArmsAsRead arms)
    (hconst : ∀ arm ∈ arms, ∀ label ∈ arm.label, label.constInt?.isSome = true)
    (hc : CleanArms context σ.checked arms) (hlength : blocks.length = arms.length)
    (h : Leads fails (armBodies context' σ.lowered footer blocks arms) σ.builder fun _ _ => True) :
    Stmt.ArmsEachSite fails P context context' σ footer blocks arms := by
  match arms, blocks, hlength with
  | [], _, _ => trivial
  | ⟨label, body, span⟩ :: rest, next :: blocks, hlength =>
    obtain ⟨hbody, hrest⟩ := Check.cleanArms_cons.mp hc
    simp only [armBodies, Leads.bind_iff] at h
    rw [Stmt.ArmsEachSite]
    refine ⟨fun e he => hP σ e hσ hd ?_, ?_⟩
    · exact (Check.clean_and_int_of_constInt? (hconst _ List.mem_cons_self e he)).1
    · refine h.next hσ (Climbs.position _) fun _ b hσ h => ⟨?_, ?_⟩
      · exact Stmt.allEachSite hP hσ.push (fun h => (hd h).push) (fun h => (hr h).1) hbody h.any
      · refine h.next hσ (stmts_climbs _ _ _) fun _ b hσ h => ?_
        refine h.next hσ (branchIfOpen_climbs _) fun _ b hσ h => ?_
        exact Stmt.armsEachSite hP hσ hd (fun h => (hr h).2)
          (fun arm harm => hconst arm (List.mem_cons_of_mem _ harm)) hrest (Nat.succ.inj hlength) h

end

/-! ## Functions and programs -/

namespace Lowering

variable {g g' : SymbolTable} {b b' : Builder}

theorem formals_cons (v : VarDecl) (rest : List VarDecl) :
    formals g (v :: rest) = formals g [v] >>= fun g => formals g rest := by
  simp [formals]

/-- A formal parameter is declared with the slot that was added for it first. -/
theorem slot_of_formals {v : VarDecl} (h : formals g [v] b = .ok g' b') :
    ∃ slot b₁, (liftM (Build.alloca v.ty.toIr v.name.name) : Emit Ir.Value) b = .ok slot b₁ ∧
      g' = g.declare (Binding.var v slot).symbol ∧ Climbs b₁ b' := by
  rw [formals] at h
  obtain ⟨slot, b₁, hslot, hrest⟩ := Emit.bind_eq_ok.mp h
  refine ⟨slot, b₁, hslot, ?_, ?_⟩
  · exact Returns.ok_imp (Q := (· = g.declare _)) (.andThen fun _ => .pure rfl) hrest
  · exact (Advances.bind (R := Climbs) (.emit _) (fun _ => .pure _) b₁).ok_imp hrest

theorem globalVar_returns (v : VarDecl) : Returns (globalVar g v) fun g' =>
    g' = g.declare (Binding.var v (.global v.name.name)).symbol := by
  have haddress : ∀ init, Returns (liftM (Build.addGlobal v.name.name v.ty.toIr init))
      (· = Ir.Value.global v.name.name) :=
    fun init b => .of_ok (Emit.lift_eq (Build.addGlobal_eq _ _ _)) rfl
  unfold globalVar
  cases v.init with
  | none =>
    apply Returns.andThen
    intro init
    apply (haddress init).bind
    rintro _ rfl
    exact .pure rfl
  | some e =>
    apply Returns.andThen
    intro value
    apply Returns.andThen
    intro init
    apply (haddress init).bind
    rintro _ rfl
    exact .pure rfl

/-- If a failure of a run that begins with this action is said to be something, so is a failure of
the action. -/
theorem Run.leads_of_bind {α β : Type} {x : SymbolTable → Emit α} {f : α → Run β} {l : Lowering}
    {fails : Prop} (h : ∀ fault l', (Run.ofEmit x >>= f) l = .error fault l' → fails) :
    Leads fails (x l.symbols) l.builder fun a b =>
      ∀ fault l', f a { l with builder := b } = .error fault l' → fails := by
  unfold Leads
  cases hx : x l.symbols l.builder with
  | ok a b =>
    have hrun : Run.ofEmit x l = .ok a { l with builder := b } := by simp [Run.ofEmit, hx]
    intro fault l' hf
    exact h fault l' ((Run.bind_eq hrun).trans hf)
  | error fault b =>
    have hrun : Run.ofEmit x l = .error fault { l with builder := b } := by simp [Run.ofEmit, hx]
    exact h fault _ (Run.bind_eq_error hrun)

end Lowering

theorem VarDecl.allBehind_of_leads {vs : List VarDecl} (hσ : σ.Agrees)
    (h : Leads fails (formals σ.lowered vs) σ.builder Q)
    (hk : ∀ σ' : Site, σ'.Agrees → σ'.checked = σ.checked.declareVars vs →
      Q σ'.lowered σ'.builder → k σ') : VarDecl.AllBehind fails σ vs k := by
  induction vs generalizing σ with
  | nil => exact hk σ hσ rfl h
  | cons v rest ih =>
    rw [formals_cons, Leads.bind_iff] at h
    have hslot := h
    rw [formals, Leads.bind_iff] at hslot
    rw [VarDecl.AllBehind]
    apply hslot.imp
    intro slot b₁ hslot _
    apply h.imp
    intro g b hg h
    have hclimbs : Climbs σ.builder b := (formals_climbs σ.lowered [v] σ.builder).ok_imp hg
    obtain ⟨slot', b₁', hslot', rfl, hrest⟩ := slot_of_formals hg
    rw [hslot] at hslot'
    cases hslot'
    rw [Check.value_varDecl]
    refine ih (hσ.declare (.var v slot) rfl ?_) h hk
    exact (hσ.slots.mono hclimbs).declareVar v (slot_below hslot hrest)

theorem FnDecl.eachSite {f : FnDecl}
    (hP : ∀ σ e, σ.Agrees → (reads → Declared σ.checked) → Clean σ.checked e → P σ e)
    (hσ : σ.Agrees) (hglobal : σ.scopes.Below 0) (hd : reads → Declared σ.checked)
    (hr : reads → f.AsRead) (hc : Check.CleanFn σ.checked f)
    (h : Leads fails (fnBody (σ.atFn f).lowered f) σ.builder fun _ _ => True) :
    f.EachSite fails P σ := by
  unfold fnBody at h
  simp only [Leads.bind_iff] at h
  unfold FnDecl.EachSite
  apply h.imp
  intro _ b _ h
  apply h.imp
  intro entry b _ h
  apply h.imp
  intro _ b _ h
  have hinside : ((σ.atFn f).withBuilder b).Agrees :=
    ⟨(hσ.atFn f).checked, (hσ.atFn f).lowered, (hglobal.declareFn f).mono (Nat.zero_le _)⟩
  apply VarDecl.allBehind_of_leads hinside.push h
  intro inner hinner hchecked h
  have hinside : inner.checked.push = σ.checked.insideFn f := by
    rw [hchecked, Site.push, Site.atFn, Check.value_declare]
    rfl
  apply Stmt.allEachSite hP hinner.push ?_ (fun h => (hr h).body) ?_ h.any
  · intro h
    rw [Site.push, hinside]
    exact Check.declared_insideFn (hd h) (hr h) hc
  · rw [Site.push, hinside]
    exact hc.body

theorem Decl.allEachSite {p : Program}
    (hP : ∀ σ e, σ.Agrees → (reads → Declared σ.checked) → Clean σ.checked e → P σ e)
    (hσ : σ.Agrees) (hglobal : σ.scopes.Below 0) (hd : reads → Declared σ.checked)
    (hr : reads → p.AsRead) (hc : Check.CleanProgram σ.checked p)
    (h : ∀ fault l, Lowering.program p ⟨σ.lowered, σ.builder⟩ = .error fault l → fails) :
    Decl.AllEachSite fails P σ p := by
  induction p generalizing σ with
  | nil => trivial
  | cons d rest ih =>
    obtain ⟨hclean, hrest⟩ := Check.cleanProgram_cons hc
    have hdeclared : reads → Declared (σ.checked.behindDecl d) := fun h =>
      Check.declared_behindDecl (hd h) (hr h d List.mem_cons_self) hclean
    have hreads : reads → Program.AsRead rest := fun h d hd => hr h d (List.mem_cons_of_mem _ hd)
    rw [Decl.AllEachSite]
    cases d with
    | var v =>
      have hrun : Lowering.program (.var v :: rest) = Run.ofEmit (globalVar · v) >>= fun symbols =>
          modify (fun l => { l with symbols }) >>= fun _ => Lowering.program rest := by
        rw [← bind_assoc]
        rfl
      rw [hrun] at h
      have hleads := Run.leads_of_bind h
      refine ⟨by simp, ?_⟩
      unfold Decl.Behind
      apply (hleads.and_returns (globalVar_returns v)).imp
      rintro _ b _ ⟨h, rfl⟩
      rw [Check.value_varDecl]
      have hglobal : (σ.scopes.declare (.var v (.global v.name.name))).Below 0 :=
        hglobal.declareVar v nofun
      exact ih (hσ.declare (.var v (.global v.name.name)) rfl (hglobal.mono (Nat.zero_le _)))
        hglobal hdeclared hreads hrest h
    | fn f =>
      have hleads := Run.leads_of_bind (x := (fnBody · f)) (f := fun _ => Lowering.program rest)
        (l := ⟨(σ.atFn f).lowered, σ.builder⟩) h
      refine ⟨?_, ?_⟩
      · rintro f ⟨⟩
        exact FnDecl.eachSite hP hσ hglobal hd (fun h => hr h _ List.mem_cons_self) hclean
          hleads.any
      · unfold Decl.Behind
        apply hleads.imp
        intro _ b _ h
        have hglobal := hglobal.declareFn f
        have hbehind : ((σ.atFn f).withBuilder b).Agrees :=
          ⟨(hσ.atFn f).checked, (hσ.atFn f).lowered, hglobal.mono (Nat.zero_le _)⟩
        apply ih hbehind hglobal ?_ hreads ?_ h
        all_goals rw [Site.withBuilder, Site.atFn, Check.value_declare]
        · exact hdeclared
        · exact hrest

/-- What follows from the agreement of both tables with the scopes holds of every expression in the
functions of a clean program, as far as the lowering gets. -/
theorem Program.eachSite_of_agrees {p : Program} {moduleName : String}
    (hP : ∀ σ e, σ.Agrees → (p.AsRead → Declared σ.checked) → Clean σ.checked e → P σ e)
    (hclean : p.findings = [])
    (h : ∀ fault l, Lowering.program p (.new moduleName) = .error fault l → fails) :
    p.EachSite fails P moduleName :=
  Decl.allEachSite hP (.start moduleName) (.empty 0) (fun _ => .empty) id hclean h

end ShaderLang
