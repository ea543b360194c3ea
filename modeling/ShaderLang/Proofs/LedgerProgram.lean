import ShaderLang.Proofs.LedgerStmt
import ShaderLang.Proofs.RoutedProgram

/-!
# Constant variables are written once

Every function that is lowered has a ledger (`Logged`), which begins with seals of the constant
global variables: nothing writes those. From it follows what writes a constant variable, if one
counts all stores to its slot and to what is addressed in it (`Function.Writes`): the store of its
first value where it is declared, and for a formal parameter that of the argument where the function
is entered (`Program.lower_writes_constants_once`).
-/

namespace ShaderLang

open Lowering
open Ir (Build Builder Inst Ledger Rules Seal Writing)

namespace Ir

/-! ## What a function writes -/

namespace Function

/-- An instruction stands in a function, in a block and behind that many others. -/
def Has (fn : Function) (block index : Nat) (inst : Inst) : Prop :=
  ∃ content, fn.blocks[block]? = some content ∧ content.insts[index]? = some inst

/-- The addresses that are computed from a slot: itself, and those of elements. -/
inductive Derives (fn : Function) (slot : Value) : Value → Prop where
  | self : Derives fn slot slot
  | element {block index t : Nat} {base position : Value}
      (inst : fn.Has block index (.elementAddress t base position)) (base : Derives fn slot base) :
      Derives fn slot (.temp t)

/-- A store that goes to a slot or to something in it. -/
def Writes (fn : Function) (slot : Value) (w : Writing) : Prop :=
  ∃ address, fn.Derives slot address ∧ fn.Has w.block w.index (.store address w.value)

end Function

variable {rules : Rules} {l : Ledger} {fn : Function}

/-- All that is in a function goes by the ledger. -/
def Ledger.CoversFunction (rules : Rules) (l : Ledger) (fn : Function) : Prop :=
  ∀ id block, fn.blocks[id]? = some block → l.CoversBlock rules id block

namespace Ledger.CoversFunction

theorem admits (h : l.CoversFunction rules fn) {block index : Nat} {inst : Inst}
    (hi : fn.Has block index inst) : l.Admits rules block index inst := by
  obtain ⟨content, hcontent, hinst⟩ := hi
  exact (h block content hcontent).insts index inst hinst

/-- What is addressed in a slot has it for its root. -/
theorem root_of_derives (h : l.CoversFunction rules fn) {slot address : Value}
    (hslot : slot.root? l.roots = some slot) (hd : fn.Derives slot address) :
    address.root? l.roots = some slot := by
  induction hd with
  | self => exact hslot
  | element inst _ ih =>
    obtain ⟨root, hbase, ht⟩ := (h.admits inst).element _ _ _ rfl
    rw [ih] at hbase
    cases hbase
    exact ht

/-- Only the store that its seal names writes a constant variable. -/
theorem first_of_writes (h : l.CoversFunction rules fn) {s : Seal} (hs : s ∈ l.seals) {w : Writing}
    (hw : fn.Writes s.slot w) : s.first = some w := by
  obtain ⟨address, hderives, hstore⟩ := hw
  have haddress := h.root_of_derives (l.sealed s hs) hderives
  obtain ⟨root, hroot, hseals⟩ := (h.admits hstore).store _ _ rfl
  rw [haddress] at hroot
  cases hroot
  exact hseals s hs rfl

end Ledger.CoversFunction

/-- The seals of the global variables that are constant: no function writes them. -/
def Ledger.ofGlobals (globals constants : List String) : Ledger where
  globals := globals
  roots := []
  seals := constants.map fun name => ⟨.global name, none⟩
  rooted root h := by cases h
  sealed s hs := by
    obtain ⟨name, -, rfl⟩ := List.mem_map.mp hs
    rfl

theorem Ledger.opens_ofGlobals {globals constants : List String} {name : String}
    (hname : name ∈ globals) (h : name ∉ constants) :
    (Ledger.ofGlobals globals constants).Opens (.global name) := by
  refine ⟨decide_eq_true hname, .global name, rfl, ?_⟩
  intro s hs heq
  obtain ⟨other, hother, rfl⟩ := List.mem_map.mp hs
  cases heq
  exact h hother

end Ir

section EachLocal

/-- Something holds of every formal parameter and of the store of its argument. -/
def VarDecl.EachFormal (P : VarDecl → Seal → Prop) (b : Builder) : List VarDecl → Prop
  | [] => True
  | v :: rest =>
    Leads False (Build.alloca v.ty.toIr v.name.name) b fun slot b =>
    P v (sealHere b slot (some (.param v.name.name))) ∧
    Leads False (Build.store slot (.param v.name.name)) b fun _ b =>
    VarDecl.EachFormal P b rest

/-- Something holds of every formal parameter and of every local variable of a function. -/
def FnDecl.EachLocal (P : VarDecl → Seal → Prop) (g : SymbolTable) (b : Builder) (f : FnDecl) : Prop :=
  Leads False (Build.beginFunction f.name.name (paramsOf f) f.returnTy.toIr) b fun _ b =>
  Leads False (Build.createBlock "entry") b fun entry b =>
  Leads False (Build.position entry) b fun _ b =>
  VarDecl.EachFormal P b f.formals ∧
  Leads False (Lowering.formals g.push f.formals) b fun inner b =>
  Stmt.AllEachLocal P ⟨f.returnTy, []⟩ inner.push b f.body.stmts

/-- Something holds of every formal parameter and of every local variable of these declarations. -/
def Decl.AllEachLocal (P : FnDecl → VarDecl → Seal → Prop) (g : SymbolTable) (b : Builder) :
    List Decl → Prop
  | [] => True
  | .var v :: rest => Leads False (globalVar g v) b fun g b => Decl.AllEachLocal P g b rest
  | .fn f :: rest =>
    let inside := g.declare ((Symbol.ofFn f).withStorage (.function f.name.name))
    f.EachLocal (P f) inside b ∧
    Leads False (fnBody inside f) b fun _ b => Decl.AllEachLocal P inside b rest

/-- Something holds of every formal parameter and of every local variable of a program. -/
def Program.EachLocal (P : FnDecl → VarDecl → Seal → Prop) (p : Program) (moduleName : String) : Prop :=
  Decl.AllEachLocal P .empty (.new moduleName) p

end EachLocal

namespace Lowering

variable {rules : Rules} {reads : Prop} {l l₀ : Ledger} {b b' : Builder} {c g : SymbolTable}

/-! ## The beginning of a function -/

@[simp]
theorem here_append (code : List Inst) (next : Nat) : here (b.append code next) = here b := by
  simp [here]

theorem offset_append (hb : b.IsOpen) (code : List Inst) (next : Nat) :
    offset (b.append code next) = offset b + code.length := by
  obtain ⟨id, hid, block, hblock, -⟩ := hb
  rw [offset, offset, here_append, here_eq hid, Builder.block?_append, if_pos hid, hblock]
  simp

/-- One more instruction is in the block at the insertion point. -/
structure Steps (b b' : Builder) : Prop where
  isOpen : b'.IsOpen
  here : here b' = here b
  offset : offset b' = offset b + 1

theorem Steps.append (hb : b.IsOpen) (inst : Inst) (next : Nat) : Steps b (b.append [inst] next) :=
  ⟨(Builder.IsOpen.append _ _).mpr hb, here_append _ _, offset_append hb _ _⟩

theorem steps_of_emit {inst : Inst} (hx : (liftM (Build.emit inst) : Emit Unit) b = .ok () b') :
    Steps b b' := by
  replace hx := Emit.lift_eq_ok hx
  obtain rfl := Build.emit_eq_ok hx
  exact .append (Build.isOpen_of_emit hx) inst _

theorem steps_of_emitValue {inst : Nat → Inst} {v : Ir.Value} (hb : b.IsOpen)
    (hx : (liftM (Build.emitValue inst) : Emit Ir.Value) b = .ok v b') : Steps b b' := by
  obtain ⟨-, rfl⟩ := Build.emitValue_eq_ok (Emit.lift_eq_ok hx)
  exact .append hb _ _

/-- The arguments of a function go into slots before anything else is done. -/
def prologue (n : Nat) : List VarDecl → List Inst
  | [] => []
  | v :: rest =>
    .alloca n v.ty.toIr v.name.name :: .store (.temp n) (.param v.name.name) :: prologue (n + 1) rest

theorem length_prologue (n : Nat) (vs : List VarDecl) : (prologue n vs).length = 2 * vs.length := by
  induction vs generalizing n with
  | nil => rfl
  | cons v rest ih =>
    rw [prologue, List.length_cons, List.length_cons, ih, List.length_cons]
    omega

theorem formals_append (hb : b.IsOpen) (vs : List VarDecl) : ∃ g',
    formals g vs b = .ok g' (b.append (prologue b.nextTemp vs) (b.nextTemp + vs.length)) := by
  induction vs generalizing g b with
  | nil => exact ⟨g, by rw [prologue, List.length_nil, Nat.add_zero, Builder.append_nil]; rfl⟩
  | cons v rest ih =>
    have hslot := Emit.lift_eq (Build.emitValue_eq hb (.alloca · v.ty.toIr v.name.name))
    have hb₁ := (Builder.IsOpen.append [.alloca b.nextTemp v.ty.toIr v.name.name]
      (b.nextTemp + 1)).mpr hb
    have hstore := Emit.lift_eq (Build.emit_eq hb₁ (.store (.temp b.nextTemp) (.param v.name.name)))
    obtain ⟨g', hrest⟩ := ih (g := g.declare _) ((Builder.IsOpen.append _ _).mpr hb₁)
    refine ⟨g', ?_⟩
    rw [formals, Build.alloca, Emit.bind_eq hslot, Build.store, Emit.bind_eq hstore, hrest]
    simp only [Builder.nextTemp_append, Builder.append_append, prologue, List.length_cons,
      List.cons_append, List.nil_append, Nat.add_assoc, Nat.add_comm 1]

theorem formals_tracks (hb : b.IsOpen) (hg : g.Governed rules.reads l) (hs : Stored c g)
    {vs : List VarDecl} (hn : rules.reads → ∀ v ∈ vs, v.IsNamed) (hhere : here b = 0)
    (hoffset : offset b + 2 * vs.length ≤ rules.prologue) :
    Tracks rules l (formals g vs) b fun l' g' b' => g'.Governed rules.reads l' ∧
      Stored (c.declareVars vs) g' ∧
      Later l' b' fun P => VarDecl.EachFormal P b vs := by
  induction vs generalizing c g l b with
  | nil => exact .pure ⟨hg, hs, .always fun _ => trivial⟩
  | cons v rest ih =>
    rw [List.length_cons] at hoffset
    rw [formals]
    refine Tracks.bind_run (Tracks.alloca_allots (fun h => hn h v List.mem_cons_self) v.isConst
      (some ⟨here b, offset b + 1, .param v.name.name⟩)) ?_
    intro l₁ slot b₁ h₁ hr₁ hallots
    have hsteps₁ := steps_of_emitValue hb h₁
    rw [← hsteps₁.here, ← hsteps₁.offset] at hallots
    refine Tracks.bind_run (Tracks.store_first hallots (.inl ⟨hsteps₁.here.trans hhere, ?_⟩)) ?_
    · rw [hsteps₁.offset]
      omega
    rintro l₂ _ b₂ h₂ hr₂ ⟨rfl, hhas⟩
    have hsteps₂ := steps_of_emit h₂
    have hg' := (hg.mono hr₁.more).declareVar hallots.knows hallots.opens
    intro hcovers
    refine (ih hsteps₂.isOpen hg' (hs.declareVar v slot)
      (fun h w hw => hn h w (List.mem_cons_of_mem _ hw)) ?_ ?_ hcovers).imp ?_
    · rw [hsteps₂.here, hsteps₁.here, hhere]
    · rw [hsteps₂.offset, hsteps₁.offset]
      omega
    rintro g' b₃ - ⟨l₃, hr₃, hg'', hs'', hlater⟩
    refine ⟨l₃, hr₃, hg'', hs'', fun l₄ b₄ P hl₄ hb₄ hP => .of_ok h₁ ⟨hP _ _ ⟨?_, ?_⟩, ?_⟩⟩
    · exact (hallots.mono (hr₃.more.trans hl₄)).mem
    · rintro w ⟨⟩
      exact hb₄ _ _ _ (hr₃.lasts _ _ _ hhas)
    · exact .of_ok h₂ (hlater l₄ b₄ P hl₄ hb₄ hP)

theorem closeBody_tracks (returnTy : Ty) :
    Tracks rules l (closeBody returnTy) b fun _ _ _ => True := by
  refine .get_bind ?_
  split
  · exact .pure trivial
  · split
    · exact .terminate (by simp [Ir.Terminator.operands]) fun _ => trivial
    · exact .terminate (by simp [Ir.Terminator.operands]) fun _ => trivial

/-! ## Functions -/

/-- The instructions that may read the parameters of a function are those of its prologue. -/
def rulesOf (reads : Prop) (f : FnDecl) : Rules :=
  ⟨2 * f.formals.length, reads⟩

/-- A function that was lowered goes by a ledger that goes on from one of the global variables. -/
structure Logged (l₀ : Ledger) (reads : Prop) (f : FnDecl) (fn : Ir.Function) (l : Ledger) :
    Prop where
  name : fn.name = f.name.name
  params : fn.params = paramsOf f
  returnTy : fn.returnTy = f.returnTy.toIr
  more : l₀.Extends l
  covers : l.CoversFunction (rulesOf reads f) fn
  entry : ∀ index inst, (prologue 0 f.formals)[index]? = some inst → fn.Has 0 index inst

/-- The ledger of a function has the seal of a constant variable, and the store of the first value is
there. -/
structure SealedIn (l : Ledger) (fn : Ir.Function) (v : VarDecl) (s : Seal) : Prop where
  mem : v.isConst = true → s ∈ l.seals
  first : ∀ w ∈ s.first, fn.Has w.block w.index (.store s.slot w.value)

theorem has_openFn {fn : Ir.Function} (h : b.openFn = some fn) {block index : Nat} {inst : Inst} :
    b.Has block index inst ↔ fn.Has block index inst := by
  simp [Builder.Has, Ir.Function.Has, Builder.block?, h]

theorem covers_begun (hroots : l₀.roots = []) (f : FnDecl) : l₀.Covers rules (begun b f) := by
  have hempty : l₀.Covers rules (b.begin f.name.name (paramsOf f) f.returnTy.toIr) := by
    refine ⟨by rw [hroots]; rfl, ?_⟩
    intro id block hid
    simp [Builder.block?, Builder.begin] at hid
  exact (hempty.addBlock rfl "entry").moveTo 0

theorem beginning_eq_begun {f : FnDecl} {b₁ b₂ b₃ : Builder} {entry : Nat}
    (hbegin : (liftM (Build.beginFunction f.name.name (paramsOf f) f.returnTy.toIr) : Emit Unit) b =
      .ok () b₁)
    (hblock : (liftM (Build.createBlock "entry") : Emit Nat) b₁ = .ok entry b₂)
    (hposition : (liftM (Build.position entry) : Emit Unit) b₂ = .ok () b₃) : b₃ = begun b f := by
  obtain rfl := beginFunction_eq_ok (Emit.lift_eq_ok hbegin)
  rw [Emit.lift_eq (Build.createBlock_eq rfl "entry")] at hblock
  cases hblock
  rw [Emit.lift_eq (Build.position_eq _)] at hposition
  cases hposition
  rfl

theorem has_prologue {f : FnDecl} {index : Nat} {inst : Inst}
    (h : (prologue 0 f.formals)[index]? = some inst) (next : Nat) :
    ((begun b f).append (prologue 0 f.formals) next).Has 0 index inst := by
  refine ⟨(Ir.Block.empty 0 "entry").append (prologue 0 f.formals), ?_, by simpa using h⟩
  rw [Builder.block?_append, if_pos (isAt_begun b f).1]
  rfl

theorem fnBody_logs {f : FnDecl} (hroots : l₀.roots = []) (hg : g.Governed reads l₀)
    (hs : Stored (c.declare (.ofFn f)) g) (hn : reads → f.IsNamed) (hc : Check.CleanFn c f)
    (hx : fnBody g f b = .ok () b') : ∃ fn l, b'.output = b.output.addFunction fn ∧
      Logged l₀ reads f fn l ∧ ∀ P, (∀ v s, SealedIn l fn v s → P v s) → f.EachLocal P g b := by
  unfold fnBody at hx
  obtain ⟨_, b₁, hbegin, hx⟩ := Emit.bind_eq_ok.mp hx
  obtain ⟨entry, b₂, hblock, hx⟩ := Emit.bind_eq_ok.mp hx
  obtain ⟨_, b₃, hposition, hx⟩ := Emit.bind_eq_ok.mp hx
  obtain ⟨inner, b₄, hformals, hx⟩ := Emit.bind_eq_ok.mp hx
  obtain ⟨_, b₅, hstmts, hx⟩ := Emit.bind_eq_ok.mp hx
  obtain ⟨_, b₆, hclose, hfinish⟩ := Emit.bind_eq_ok.mp hx
  obtain rfl := beginning_eq_begun hbegin hblock hposition
  have hopen := isOpen_begun b f
  obtain ⟨hid, hentry⟩ := isAt_begun b f
  have hhere : here (begun b f) = 0 := here_eq hid
  have hoffset : offset (begun b f) = 0 := by
    rw [offset, hhere]
    rfl
  -- The prologue is read off the run; what comes behind it is followed with the ledger.
  obtain ⟨g', hprologue⟩ := formals_append (g := g.push) hopen f.formals
  rw [hformals] at hprologue
  obtain ⟨rfl, rfl⟩ : inner = g' ∧ b₄ = _ := by simpa using hprologue
  have hcovers : l₀.Covers (rulesOf reads f) (begun b f) := covers_begun hroots f
  obtain ⟨l₁, hr₁, hg₁, hs₁, hlater₁⟩ := (formals_tracks hopen hg.push hs.push
    (fun h => (hn h).formals) hhere (by rw [hoffset, Nat.zero_add]; exact Nat.le_refl _)
    hcovers).ok_imp hformals
  obtain ⟨l₂, hr₂, hlater₂⟩ := (stmts_tracks hg₁.push hs₁.push (fun h => (hn h).body) hc.body
    hr₁.covers).ok_imp hstmts
  obtain ⟨l₃, hr₃, -⟩ := (closeBody_tracks f.returnTy hr₂.covers).ok_imp hclose
  obtain ⟨fn, hfn, houtput⟩ := finishFunction_eq_ok (Emit.lift_eq_ok hfinish)
  have hr := hr₁.trans (hr₂.trans hr₃)
  refine ⟨fn, l₃, ?_, ?_, fun P hP => ?_⟩
  · rw [houtput, hr.within.output]
    rfl
  · have hheader := hr.within.header
    simp only [begun, Builder.header_moveTo, Builder.header_addBlock] at hheader
    simp only [Builder.header, hfn, Builder.begin, Option.map_some, Option.some.injEq,
      Prod.mk.injEq] at hheader
    refine ⟨hheader.1, hheader.2.1, hheader.2.2, hr.more, ?_, fun index inst hinst => ?_⟩
    · intro id block hblock
      exact hr.covers.blocks id block (by simpa [Builder.block?, hfn] using hblock)
    · exact (has_openFn hfn).mp (hr₃.lasts _ _ _ (hr₂.lasts _ _ _ (has_prologue hinst _)))
  · have hsealed : ∀ v s, Sealed l₃ b₆ v s → P v s := fun v s h =>
      hP v s ⟨h.mem, fun w hw => (has_openFn hfn).mp (h.first w hw)⟩
    refine .of_ok hbegin <| .of_ok hblock <| .of_ok hposition ⟨?_, .of_ok hformals ?_⟩
    · exact (hlater₁.mono (hr₂.trans hr₃)) l₃ b₆ P (.refl _) (.refl _) hsealed
    · exact (hlater₂.mono hr₃) l₃ b₆ P (.refl _) (.refl _) hsealed

/-! ## Programs -/

theorem decl_fn_ok {f : FnDecl} {lo lo' : Lowering} (hx : decl (.fn f) lo = .ok () lo') :
    ∃ b', fnBody (lo.symbols.declare ((Symbol.ofFn f).withStorage (.function f.name.name))) f
      lo.builder = .ok () b' ∧
      lo' = ⟨lo.symbols.declare ((Symbol.ofFn f).withStorage (.function f.name.name)), b'⟩ := by
  obtain ⟨_, l₁, hdeclare, hx⟩ := Run.bind_eq_ok hx
  cases hdeclare
  exact Run.ofEmit_eq_ok hx

theorem decl_var_ok {v : VarDecl} {lo lo' : Lowering} (hx : decl (.var v) lo = .ok () lo') :
    ∃ init, globalVar lo.symbols v lo.builder = .ok lo'.symbols lo'.builder ∧
      lo' = ⟨lo.symbols.declare ((Symbol.ofVar v).withStorage (.address (.global v.name.name))),
        { lo.builder with
          output := lo.builder.output.addGlobal ⟨v.name.name, v.ty.toIr, init⟩ }⟩ := by
  obtain ⟨g', l₁, hrun, hmodify⟩ := Run.bind_eq_ok hx
  obtain ⟨b', hvar, rfl⟩ := Run.ofEmit_eq_ok hrun
  cases hmodify
  rcases globalVar_cases (g := lo.symbols) (b := lo.builder) v with hfail | ⟨init, hok⟩
  · rw [hfail] at hvar
    cases hvar
  · refine ⟨init, hvar, ?_⟩
    rw [hok] at hvar
    cases hvar
    rfl

/-- A function stays in the module while functions of other names are added. -/
theorem function?_keeps {p : Program} {lo lo' : Lowering} {name : String} {c : SymbolTable}
    (hc : Check.CleanProgram c p)
    (hx : program p lo = .ok () lo') (hne : ∀ d ∈ p, d.name.name ≠ name) :
    lo'.builder.output.function? name = lo.builder.output.function? name := by
  induction p generalizing lo c with
  | nil =>
    cases hx
    rfl
  | cons d rest ih =>
    obtain ⟨hcd, hcrest⟩ := Check.cleanProgram_cons hc
    obtain ⟨_, lo₁, hdecl, hrest⟩ := Run.bind_eq_ok hx
    rw [ih hcrest hrest fun d' hd' => hne d' (List.mem_cons_of_mem _ hd')]
    cases d with
    | var v =>
      obtain ⟨init, -, rfl⟩ := decl_var_ok hdecl
      rfl
    | fn f =>
      obtain ⟨b', hbody, rfl⟩ := decl_fn_ok hdecl
      obtain ⟨fn, houtput, hname, -⟩ := fnBody_enacts (Check.CleanFn.body hcd) hbody
      rw [houtput, Ir.Module.function?_addFunction, hname]
      exact if_neg (hne (.fn f) List.mem_cons_self)

/-- The global variables among these declarations. -/
def globalNames (p : Program) : List String :=
  p.filterMap fun
    | .var v => some v.name.name
    | .fn _ => none

theorem mem_globalNames {p : Program} {name : String} :
    name ∈ globalNames p ↔ ∃ v, .var v ∈ p ∧ v.name.name = name := by
  simp only [globalNames, List.mem_filterMap]
  constructor
  · rintro ⟨d, hd, hname⟩
    cases d with
    | var v => exact ⟨v, hd, by simpa using hname⟩
    | fn f => cases hname
  · rintro ⟨v, hv, rfl⟩
    exact ⟨.var v, hv, rfl⟩

/-- The constant global variables among these declarations. -/
def constants (p : Program) : List String :=
  p.filterMap fun
    | .var v => if v.isConst then some v.name.name else none
    | .fn _ => none

theorem mem_constants {p : Program} {name : String} :
    name ∈ constants p ↔ ∃ v, .var v ∈ p ∧ v.isConst = true ∧ v.name.name = name := by
  simp only [constants, List.mem_filterMap]
  constructor
  · rintro ⟨d, hd, hname⟩
    cases d with
    | var v =>
      by_cases hconst : v.isConst = true
      · exact ⟨v, hd, hconst, by simpa [hconst] using hname⟩
      · simp [hconst] at hname
    | fn f => cases hname
  · rintro ⟨v, hv, hconst, rfl⟩
    exact ⟨.var v, hv, by simp [hconst]⟩

/-- What is known of the global variables of a program wherever a function of it begins. -/
def ledgerOf (p : Program) : Ledger :=
  .ofGlobals (globalNames p) (constants p)

/-- Every function that the program adds has a ledger, and what follows from the seals in it holds of
its formal parameters and local variables. -/
theorem program_logs {p : Program} {globals names : List String} {lo lo' : Lowering}
    {P : FnDecl → VarDecl → Seal → Prop} (hg : lo.symbols.Governed reads (.ofGlobals globals names))
    (hs : Stored c lo.symbols) (hn : reads → p.IsNamed) (hc : Check.CleanProgram c p)
    (hglobals : ∀ v, .var v ∈ p → v.name.name ∈ globals)
    (hnames : ∀ v, .var v ∈ p → v.isConst = false → v.name.name ∉ names)
    (hP : ∀ f fn l v s, .fn f ∈ p → lo'.builder.output.function? f.name.name = some fn →
      Logged (.ofGlobals globals names) reads f fn l → SealedIn l fn v s → P f v s)
    (hx : program p lo = .ok () lo') :
    Decl.AllEachLocal P lo.symbols lo.builder p ∧
      ∀ fn ∈ lo'.builder.output.functions, fn ∈ lo.builder.output.functions ∨
        ∃ f l, .fn f ∈ p ∧ Logged (.ofGlobals globals names) reads f fn l := by
  induction p generalizing c lo with
  | nil =>
    cases hx
    exact ⟨trivial, fun fn hfn => .inl hfn⟩
  | cons d rest ih =>
    obtain ⟨hnew, -⟩ := List.nodup_cons.mp (Check.nodup_of_cleanProgram hc).1
    obtain ⟨hcd, hcrest⟩ := Check.cleanProgram_cons hc
    obtain ⟨_, lo₁, hdecl, hrest⟩ := Run.bind_eq_ok hx
    have hnrest : reads → Program.IsNamed rest := fun h d' hd' => hn h d' (List.mem_cons_of_mem _ hd')
    have hglobals' : ∀ v, .var v ∈ rest → v.name.name ∈ globals :=
      fun v hv => hglobals v (List.mem_cons_of_mem _ hv)
    have hnames' : ∀ v, .var v ∈ rest → v.isConst = false → v.name.name ∉ names :=
      fun v hv => hnames v (List.mem_cons_of_mem _ hv)
    have hP' : ∀ f fn l v s, .fn f ∈ rest → lo'.builder.output.function? f.name.name = some fn →
        Logged (.ofGlobals globals names) reads f fn l → SealedIn l fn v s → P f v s :=
      fun f fn l v s hf => hP f fn l v s (List.mem_cons_of_mem _ hf)
    cases d with
    | var v =>
      obtain ⟨init, hvar, rfl⟩ := decl_var_ok hdecl
      have hname := hglobals v List.mem_cons_self
      have hg' := hg.declareVar (v := v) (a := .global v.name.name) (.plain (decide_eq_true hname) rfl)
        fun hconst => Ir.Ledger.opens_ofGlobals hname (hnames v List.mem_cons_self hconst)
      obtain ⟨hlocals, hfunctions⟩ := ih hg' (hs.declareVar v _) hnrest hcrest hglobals' hnames' hP' hrest
      refine ⟨.of_ok hvar hlocals, fun fn hfn => ?_⟩
      exact (hfunctions fn hfn).imp id fun ⟨f, l, hf, hl⟩ => ⟨f, l, List.mem_cons_of_mem _ hf, hl⟩
    | fn f =>
      obtain ⟨b', hbody, rfl⟩ := decl_fn_ok hdecl
      have hg' := hg.declareFn (f := f) fun h => (hn h _ List.mem_cons_self).name
      obtain ⟨fn, l, houtput, hlogged, hlocals⟩ := fnBody_logs rfl hg' (hs.declareFn f)
        (fun h => hn h _ List.mem_cons_self) hcd hbody
      obtain ⟨hlater, hfunctions⟩ := ih hg' (hs.declareFn f) hnrest hcrest hglobals' hnames' hP' hrest
      have hmodule : lo'.builder.output.function? f.name.name = some fn := by
        rw [function?_keeps hcrest hrest, houtput, Ir.Module.function?_addFunction,
          if_pos hlogged.name]
        intro d' hd' heq
        exact hnew (List.mem_map.mpr ⟨d', hd', heq⟩)
      refine ⟨⟨hlocals _ fun v s => hP f fn l v s List.mem_cons_self hmodule hlogged,
        .of_ok hbody hlater⟩, fun fn' hfn' => ?_⟩
      rcases hfunctions fn' hfn' with hold | ⟨f', l', hf', hl'⟩
      · simp only [houtput] at hold
        rcases Ir.Module.mem_addFunction hold with hold | rfl
        · exact .inl hold
        · exact .inr ⟨f, l, List.mem_cons_self, hlogged⟩
      · exact .inr ⟨f', l', List.mem_cons_of_mem _ hf', hl'⟩

end Lowering

namespace Ir.Ledger

/-- A constant variable is written by the store that its seal names, and by no other one. -/
theorem CoversFunction.writes_iff {rules : Rules} {l : Ledger} {fn : Function}
    (h : l.CoversFunction rules fn) {s : Seal} (hs : s ∈ l.seals)
    (hfirst : ∀ w ∈ s.first, fn.Has w.block w.index (.store s.slot w.value)) (w : Writing) :
    fn.Writes s.slot w ↔ s.first = some w :=
  ⟨h.first_of_writes hs, fun hw => ⟨s.slot, .self, hfirst w hw⟩⟩

end Ir.Ledger

namespace Program

variable {p : Program} {m : Ir.Module} {moduleName : String}

theorem notMem_constants (hclean : p.findings = []) {v : VarDecl} (hv : .var v ∈ p)
    (hconst : v.isConst = false) : v.name.name ∉ constants p := by
  intro hmem
  obtain ⟨v', hv', hconst', hname⟩ := mem_constants.mp hmem
  have heq := List.inj_on_of_nodup_map (Check.nodup_of_cleanProgram hclean).1 hv' hv hname
  cases heq
  rw [hconst] at hconst'
  cases hconst'

/-- What is found of a program without findings when it is followed with its ledgers. -/
theorem logs_of_lower (hclean : p.findings = []) (hm : p.lower moduleName = .ok m) {reads : Prop}
    (hn : reads → p.IsNamed) {P : FnDecl → VarDecl → Seal → Prop}
    (hP : ∀ f fn l v s, .fn f ∈ p → m.function? f.name.name = some fn →
      Logged (ledgerOf p) reads f fn l → SealedIn l fn v s → P f v s) :
    p.EachLocal P moduleName ∧
      ∀ fn ∈ m.functions, ∃ f l, .fn f ∈ p ∧ Logged (ledgerOf p) reads f fn l := by
  unfold lower at hm
  split at hm
  · next lo hx =>
    cases hm
    have hg : SymbolTable.empty.Governed reads (ledgerOf p) := by
      constructor
      · intro name s v a hlookup
        simp at hlookup
      · intro _ name s f hlookup
        simp at hlookup
    obtain ⟨hlocals, hfunctions⟩ := program_logs hg .empty hn hclean
      (fun v hv => mem_globalNames.mpr ⟨v, hv, rfl⟩)
      (fun v hv hconst => notMem_constants hclean hv hconst) hP hx
    refine ⟨hlocals, fun fn hfn => (hfunctions fn hfn).resolve_left ?_⟩
    simp [Lowering.new, Builder.new, Ir.Module.empty]
  · cases hm

/-- No function writes a constant global variable. A constant local variable is written once, where
it is declared, with its first value, or not at all if it has none, and a constant formal parameter
once, where the function is entered, with the argument. -/
theorem lower_writes_constants_once (hclean : p.findings = []) (hm : p.lower moduleName = .ok m) :
    (∀ v, .var v ∈ p → v.isConst = true →
      ∀ fn ∈ m.functions, ∀ w, ¬ fn.Writes (.global v.name.name) w) ∧
    p.EachLocal (fun f v s => v.isConst = true → ∃ fn, m.function? f.name.name = some fn ∧
      ∀ w, fn.Writes s.slot w ↔ s.first = some w) moduleName := by
  have hsealed : ∀ f fn l v s, .fn f ∈ p → m.function? f.name.name = some fn →
      Logged (ledgerOf p) False f fn l → SealedIn l fn v s → v.isConst = true →
        ∃ fn, m.function? f.name.name = some fn ∧ ∀ w, fn.Writes s.slot w ↔ s.first = some w :=
    fun f fn l v s _ hfn hlogged hsealed hconst =>
      ⟨fn, hfn, hlogged.covers.writes_iff (hsealed.mem hconst) hsealed.first⟩
  obtain ⟨hlocals, hfunctions⟩ := logs_of_lower hclean hm False.elim hsealed
  refine ⟨fun v hv hconst fn hfn w hw => ?_, hlocals⟩
  obtain ⟨f, l, -, hlogged⟩ := hfunctions fn hfn
  have hseal : ⟨.global v.name.name, none⟩ ∈ l.seals :=
    hlogged.more.seals _ (List.mem_map.mpr ⟨_, mem_constants.mpr ⟨v, hv, hconst, rfl⟩, rfl⟩)
  cases hlogged.covers.first_of_writes hseal hw

/-- A constant of each kind, beside variables that are written. -/
theorem lower_writes_constants_once_of_shadowed : ∃ p m,
    ofText? "const int k = 1; int f(const int a) { const int b = a + k; { int a = b; a += 2; } return b; }" = .ok p ∧
      p.findings = [] ∧ p.lower "m" = .ok m ∧
      (∀ v, .var v ∈ p → v.isConst = true →
        ∀ fn ∈ m.functions, ∀ w, ¬ fn.Writes (.global v.name.name) w) ∧
      p.EachLocal (fun f v s => v.isConst = true → ∃ fn, m.function? f.name.name = some fn ∧
        ∀ w, fn.Writes s.slot w ↔ s.first = some w) "m" := by
  obtain ⟨p, hp, hclean, m, hm⟩ : ∃ p,
      ofText? "const int k = 1; int f(const int a) { const int b = a + k; { int a = b; a += 2; } return b; }" = .ok p ∧
        p.findings = [] ∧ ∃ m, p.lower "m" = .ok m :=
    ⟨_, by cbv, by cbv, _, by cbv⟩
  exact ⟨p, m, hp, hclean, hm, lower_writes_constants_once hclean hm⟩

end Program

end ShaderLang
