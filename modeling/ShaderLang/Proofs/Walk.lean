import Mathlib.Logic.Function.Iterate
import ShaderLang.Lowering.Stmt
import ShaderLang.Proofs.Control
import ShaderLang.Proofs.Emission

/-!
# Walking through a function

A plan says where in a finished function the code of each action stands. Following it, one walks from
block to block as the terminators say, and does an action where its code begins; an oracle answers
the tests that terminators go by. Nothing is passed over: an action is done only where the last one
ended, and a terminator followed only behind all instructions of its block.

`Follows` says of a place in a function that the walk from there does what a `Control` says, and
comes to the right one of several exits.
-/

namespace ShaderLang.Lowering

open Ir (Build Builder Terminator)

/-! ## Plans -/

/-- The code of an action, with the operand that is its result. -/
def actionCode (returnTy : Ty) (symbols : SymbolTable) : Action → Emit (Option Ir.Value)
  | .evaluate e => do
    discard symbols e
    return none
  | .declare v => do
    let _ ← localVar symbols v
    return none
  | .test e => do
    let value ← condition symbols e
    return some value
  | .select e => do
    let value ← expr symbols e
    let value ← coerce value .int
    return some value
  | .giveBack _ value => returnValue symbols returnTy value

/-- Where the code of an action begins and ends: blocks, and how many of their instructions stand
before. -/
structure Mark where
  action : Action
  block : Nat
  index : Nat
  endBlock : Nat
  endIndex : Nat
  result : Option Ir.Value

/-- The actions of a function, those of each block in order. -/
abbrev Plan := List Mark

/-- The actions that begin in a block. -/
def Plan.within (plan : Plan) (block : Nat) : List Mark :=
  plan.filter (·.block = block)

/-- The insertion point is in a block behind that many instructions. -/
def IsAt (b : Builder) (block index : Nat) : Prop :=
  b.insertion = some block ∧ ∃ content, b.block? block = some content ∧ content.insts.size = index

/-- What is being built has got into a function: closed blocks as they were, others grown. -/
def Includes (fn : Ir.Function) (b : Builder) : Prop :=
  ∀ id block, b.block? id = some block → ∃ block', fn.blocks[id]? = some block' ∧
    block.Grows block' ∧ (block.isTerminated = true → block' = block)

/-- The terminator of a block, for control that has come behind that many instructions. -/
def terminatorBehind? (fn : Ir.Function) (block index : Nat) : Option Terminator :=
  fn.blocks[block]?.bind fun content =>
    if content.insts.size = index then content.terminator else none

/-- What stands behind the code of an action that has a result. -/
def Decides (fn : Ir.Function) (mark : Mark) : Prop :=
  match mark.action with
  | .evaluate _ | .declare _ => True
  | .test _ => ∃ value ifTrue ifFalse, mark.result = some value ∧
    terminatorBehind? fn mark.endBlock mark.endIndex = some (.condBranch value ifTrue ifFalse)
  | .select _ => ∃ value default cases, mark.result = some value ∧
    terminatorBehind? fn mark.endBlock mark.endIndex = some (.switch value default cases)
  | .giveBack .. =>
    terminatorBehind? fn mark.endBlock mark.endIndex = some (.ret mark.result)

/-- At its place in the function stands the code of the action, and behind it a terminator that goes
by the result, if it has one. -/
structure Mark.Valid (returnTy : Ty) (fn : Ir.Function) (mark : Mark) : Prop where
  placed : ∃ symbols b b', actionCode returnTy symbols mark.action b = .ok mark.result b' ∧
    IsAt b mark.block mark.index ∧ IsAt b' mark.endBlock mark.endIndex ∧ Includes fn b'
  decides : Decides fn mark

/-! ## Walks -/

/-- A place in a function: so many instructions of a block stand before, and these actions of the
block are still to be done. -/
structure Point where
  block : Nat
  index : Nat
  left : List Mark

/-- The beginning of a block. -/
def Plan.enter (plan : Plan) (block : Nat) : Point :=
  ⟨block, 0, plan.within block⟩

/-- How far a walk has come, and what was done on it. -/
inductive Walk where
  | at (point : Point) (history : History)
  | ended (ending : Ending) (history : History)
  /-- The plan does not fit the function. -/
  | lost (history : History)

namespace Walk

/-- What was done. -/
def history : Walk → History
  | «at» _ h | ended _ h | lost h => h

end Walk

section

variable (fn : Ir.Function) (plan : Plan) (oracle : Oracle)

/-- How a walk goes on from an action that has just been done. -/
def proceed (mark : Mark) (left : List Mark) (h : History) : Walk :=
  match mark.action, terminatorBehind? fn mark.endBlock mark.endIndex with
  | .evaluate _, _ | .declare _, _ =>
    .at ⟨mark.endBlock, mark.endIndex,
      if mark.endBlock = mark.block then left else plan.within mark.endBlock⟩ h
  | .test _, some (.condBranch _ ifTrue ifFalse) =>
    .at (plan.enter (if oracle.holds h then ifTrue else ifFalse)) h
  | .select _, some (.switch _ default cases) =>
    .at (plan.enter ((cases.lookup (oracle.selects h)).getD default)) h
  | .giveBack span _, some (.ret _) => .ended (.returned span) h
  | _, _ => .lost h

/-- Where control goes behind all actions of a block. -/
def depart (terminator : Option Terminator) (h : History) : Walk :=
  match terminator with
  | some (.branch target) => .at (plan.enter target) h
  | some (.ret none) | some .unreachable => .ended .fellOff h
  | _ => .lost h

/-- One step of a walk: the next action of the block is done, or behind them all the terminator
followed. -/
def advance : Walk → Walk
  | .at ⟨_, index, mark :: left⟩ h =>
    if mark.index = index then proceed fn plan oracle mark left (mark.action :: h) else .lost h
  | .at ⟨block, index, []⟩ h => depart plan (terminatorBehind? fn block index) h
  | .ended ending h => .ended ending h
  | .lost h => .lost h

/-- The walk from a point, after so many steps. -/
def walk (start : Point) (h : History) (steps : Nat) : Walk :=
  (advance fn plan oracle)^[steps] (.at start h)

variable {fn plan oracle} {p q : Point} {h : History}

theorem history_advance (w : Walk) : w.history <:+ (advance fn plan oracle w).history := by
  match w with
  | .ended .. | .lost _ => exact List.suffix_rfl
  | .at ⟨_, _, []⟩ h =>
    rw [advance]
    unfold depart
    split <;> exact List.suffix_rfl
  | .at ⟨_, _, mark :: left⟩ h =>
    rw [advance]
    split
    · have hproceed : (proceed fn plan oracle mark left (mark.action :: h)).history =
          mark.action :: h := by
        unfold proceed
        split <;> rfl
      rw [hproceed]
      exact List.suffix_cons _ _
    · exact List.suffix_rfl

theorem history_walk {m n : Nat} (hmn : m ≤ n) :
    (walk fn plan oracle p h m).history <:+ (walk fn plan oracle p h n).history := by
  induction hmn with
  | refl => exact List.suffix_rfl
  | step _ ih =>
    apply ih.trans
    rw [walk, walk, Function.iterate_succ_apply']
    exact history_advance _

theorem walk_add (m n : Nat) : walk fn plan oracle p h (m + n) =
    (advance fn plan oracle)^[n] (walk fn plan oracle p h m) := by
  rw [walk, walk, Nat.add_comm, Function.iterate_add_apply]

theorem walk_trans {m n : Nat} {h' : History} (hm : walk fn plan oracle p h m = .at q h') :
    walk fn plan oracle p h (m + n) = walk fn plan oracle q h' n := by
  rw [walk_add, hm, walk]

/-- A walk that has ended stays where it is. -/
theorem walk_ended {m n : Nat} {ending : Ending} {h' : History}
    (hm : walk fn plan oracle p h m = .ended ending h') (hmn : m ≤ n) :
    walk fn plan oracle p h n = .ended ending h' := by
  obtain ⟨k, rfl⟩ := Nat.exists_eq_add_of_le hmn
  rw [walk_add, hm]
  exact Function.iterate_fixed rfl k

theorem walk_lost {m n : Nat} {h' : History} (hm : walk fn plan oracle p h m = .lost h')
    (hmn : m ≤ n) : walk fn plan oracle p h n = .lost h' := by
  obtain ⟨k, rfl⟩ := Nat.exists_eq_add_of_le hmn
  rw [walk_add, hm]
  exact Function.iterate_fixed rfl k

end

/-! ## Following a course -/

/-- Where control may go from a statement: behind it, if it comes there, and where `break` and
`continue` lead. -/
structure Exits where
  behind : Option Point
  breakTo : Option Nat
  continueTo : Option Nat

/-- A walk of so many steps has come to the exit that a course leads to. If the course is unfinished,
the walk has made a number of steps at least. -/
inductive Arrives (plan : Plan) (exits : Exits) (least steps : Nat) : Course → Walk → Prop where
  | behind {p : Point} {h : History} (hp : exits.behind = some p) :
    Arrives plan exits least steps ⟨h, .behind⟩ (.at p h)
  | broken {target : Nat} {h : History} (ht : exits.breakTo = some target) :
    Arrives plan exits least steps ⟨h, .broken⟩ (.at (plan.enter target) h)
  | continued {target : Nat} {h : History} (ht : exits.continueTo = some target) :
    Arrives plan exits least steps ⟨h, .continued⟩ (.at (plan.enter target) h)
  | returned {span : Span} {h : History} :
    Arrives plan exits least steps ⟨h, .returned span⟩ (.ended (.returned span) h)
  | unfinished {p : Point} {h : History} (hle : least ≤ steps) :
    Arrives plan exits least steps ⟨h, .unfinished⟩ (.at p h)

section

variable (fn : Ir.Function) (plan : Plan) (oracle : Oracle)

/-- From a point, the walk does what a course says. -/
def Follows (least : Nat) (p : Point) (control : Control) (exits : Exits) : Prop :=
  ∀ h, ∃ steps, Arrives plan exits least steps (control h) (walk fn plan oracle p h steps)

/-- The walk comes from one point to another and does nothing on the way. -/
def Passes (p q : Point) : Prop :=
  ∀ h, ∃ steps, walk fn plan oracle p h steps = .at q h

end

variable {fn : Ir.Function} {plan : Plan} {oracle : Oracle} {least : Nat} {p q : Point}
  {control first second : Control} {exits : Exits}

theorem Arrives.mono {least' steps steps' : Nat} {course : Course} {w : Walk}
    (harrives : Arrives plan exits least' steps course w)
    (hle : least' ≤ steps → least ≤ steps') : Arrives plan exits least steps' course w := by
  cases harrives with
  | behind hp => exact .behind hp
  | broken ht => exact .broken ht
  | continued ht => exact .continued ht
  | returned => exact .returned
  | unfinished h => exact .unfinished (hle h)

theorem Passes.refl (p : Point) : Passes fn plan oracle p p :=
  fun _ => ⟨0, rfl⟩

theorem Passes.of_advance (hp : ∀ h, advance fn plan oracle (.at p h) = .at q h) :
    Passes fn plan oracle p q :=
  fun h => ⟨1, hp h⟩

namespace Follows

theorem mono {least' : Nat} (hfollows : Follows fn plan oracle least' p control exits)
    (hle : least ≤ least') : Follows fn plan oracle least p control exits := by
  intro h
  obtain ⟨steps, harrives⟩ := hfollows h
  exact ⟨steps, harrives.mono fun hsteps => Nat.le_trans hle hsteps⟩

/-- The walk to where a course begins comes first. -/
theorem before (hpass : Passes fn plan oracle p q)
    (hfollows : Follows fn plan oracle least q control exits) :
    Follows fn plan oracle least p control exits := by
  intro h
  obtain ⟨m, hm⟩ := hpass h
  obtain ⟨n, harrives⟩ := hfollows h
  refine ⟨m + n, ?_⟩
  rw [walk_trans hm]
  exact harrives.mono fun hle => by omega

/-- Behind the course, the walk goes on to another exit. -/
theorem onward {exits' : Exits} (hfollows : Follows fn plan oracle least p control exits)
    (hbehind : ∀ q ∈ exits.behind, ∃ q' ∈ exits'.behind, Passes fn plan oracle q q')
    (hbreak : exits'.breakTo = exits.breakTo) (hcontinue : exits'.continueTo = exits.continueTo) :
    Follows fn plan oracle least p control exits' := by
  intro h
  obtain ⟨m, harrives⟩ := hfollows h
  generalize hcourse : control h = course at harrives
  generalize hw : walk fn plan oracle p h m = w at harrives
  cases harrives with
  | behind hp =>
    obtain ⟨q', hq', hpass⟩ := hbehind _ hp
    obtain ⟨n, hn⟩ := hpass _
    refine ⟨m + n, ?_⟩
    rw [walk_trans hw, hn]
    exact .behind hq'
  | broken ht => exact ⟨m, hw ▸ .broken (hbreak.trans ht)⟩
  | continued ht => exact ⟨m, hw ▸ .continued (hcontinue.trans ht)⟩
  | returned => exact ⟨m, hw ▸ .returned⟩
  | unfinished hle => exact ⟨m, hw ▸ .unfinished hle⟩

theorem skip {breakTo continueTo : Option Nat} :
    Follows fn plan oracle least p .skip ⟨some p, breakTo, continueTo⟩ :=
  fun _ => ⟨0, .behind rfl⟩

theorem broken {target : Nat} (hpass : Passes fn plan oracle p (plan.enter target))
    (ht : exits.breakTo = some target) :
    Follows fn plan oracle least p (fun h => ⟨h, .broken⟩) exits := by
  intro h
  obtain ⟨steps, hsteps⟩ := hpass h
  exact ⟨steps, hsteps ▸ .broken ht⟩

theorem continued {target : Nat} (hpass : Passes fn plan oracle p (plan.enter target))
    (ht : exits.continueTo = some target) :
    Follows fn plan oracle least p (fun h => ⟨h, .continued⟩) exits := by
  intro h
  obtain ⟨steps, hsteps⟩ := hpass h
  exact ⟨steps, hsteps ▸ .continued ht⟩

theorem andThen {behind : Option Point}
    (hfirst : Follows fn plan oracle least p first ⟨behind, exits.breakTo, exits.continueTo⟩)
    (hsecond : ∀ q ∈ behind, Follows fn plan oracle least q second exits) :
    Follows fn plan oracle least p (first.andThen second) exits := by
  intro h
  obtain ⟨m, harrives⟩ := hfirst h
  unfold Control.andThen
  generalize hw : walk fn plan oracle p h m = w at harrives
  generalize first h = course at harrives
  cases harrives with
  | behind hp =>
    obtain ⟨n, harrives⟩ := hsecond _ hp _
    refine ⟨m + n, ?_⟩
    rw [walk_trans hw]
    exact harrives.mono fun hle => by omega
  | broken ht => exact ⟨m, hw ▸ .broken ht⟩
  | continued ht => exact ⟨m, hw ▸ .continued ht⟩
  | returned => exact ⟨m, hw ▸ .returned⟩
  | unfinished hle => exact ⟨m, hw ▸ .unfinished hle⟩

theorem continuable {target : Nat} {breakTo continueTo : Option Nat}
    (hfollows : Follows fn plan oracle least p control
      ⟨some (plan.enter target), breakTo, some target⟩) :
    Follows fn plan oracle least p control.continuable
      ⟨some (plan.enter target), breakTo, continueTo⟩ := by
  intro h
  obtain ⟨m, harrives⟩ := hfollows h
  refine ⟨m, ?_⟩
  unfold Control.continuable
  generalize walk fn plan oracle p h m = w at harrives
  generalize control h = course at harrives
  cases harrives with
  | behind hp => exact .behind hp
  | broken ht => exact .broken ht
  | continued ht =>
    cases ht
    exact .behind rfl
  | returned => exact .returned
  | unfinished hle => exact .unfinished hle

theorem breakable {target : Nat} {breakTo continueTo : Option Nat}
    (hfollows : Follows fn plan oracle least p control
      ⟨some (plan.enter target), some target, continueTo⟩) :
    Follows fn plan oracle least p control.breakable
      ⟨some (plan.enter target), breakTo, continueTo⟩ := by
  intro h
  obtain ⟨m, harrives⟩ := hfollows h
  refine ⟨m, ?_⟩
  unfold Control.breakable
  generalize walk fn plan oracle p h m = w at harrives
  generalize control h = course at harrives
  cases harrives with
  | behind hp => exact .behind hp
  | broken ht =>
    cases ht
    exact .behind rfl
  | continued ht => exact .continued ht
  | returned => exact .returned
  | unfinished hle => exact .unfinished hle

/-- The first step of the walk, and how it goes on from there. -/
theorem of_advance {h h' : History} {course : Course}
    (hstep : advance fn plan oracle (.at p h) = .at q h')
    (hrest : ∃ steps, Arrives plan exits least steps course (walk fn plan oracle q h' steps)) :
    ∃ steps, Arrives plan exits (least + 1) steps course (walk fn plan oracle p h steps) := by
  obtain ⟨n, harrives⟩ := hrest
  have hone : walk fn plan oracle p h 1 = .at q h' := hstep
  refine ⟨1 + n, ?_⟩
  rw [walk_trans hone]
  exact harrives.mono fun hle => by omega

end Follows

/-! ### Tests -/

section

variable (fn : Ir.Function) (plan : Plan) (oracle : Oracle)

/-- A test is done at the point, and control goes to one of two blocks. -/
def Asks (p : Point) (test : Expr) (ifTrue ifFalse : Nat) : Prop :=
  ∀ h, advance fn plan oracle (.at p h) =
    .at (plan.enter (if oracle.holds (.test test :: h) then ifTrue else ifFalse)) (.test test :: h)

/-- Control goes to a block if a test holds, or always if there is none. -/
def Guards (p : Point) (test : Option Expr) (body exit : Nat) : Prop :=
  match test with
  | some test => Asks fn plan oracle p test body exit
  | none => ∀ h, advance fn plan oracle (.at p h) = .at (plan.enter body) h

/-- The value of a `switch` is found at the point, and control goes to the block for it. -/
def Dispatches (p : Point) (value : Expr) (target : Int64 → Nat) : Prop :=
  ∀ h, advance fn plan oracle (.at p h) =
    .at (plan.enter (target (oracle.selects (.select value :: h)))) (.select value :: h)

end

namespace Follows

theorem choose {test : Expr} {ifTrue ifFalse : Nat}
    (hask : Asks fn plan oracle p test ifTrue ifFalse)
    (htrue : Follows fn plan oracle least (plan.enter ifTrue) first exits)
    (hfalse : Follows fn plan oracle least (plan.enter ifFalse) second exits) :
    Follows fn plan oracle (least + 1) p (.choose oracle test first second) exits := by
  intro h
  apply of_advance (hask h)
  unfold Control.choose
  split
  · exact htrue _
  · exact hfalse _

theorem guarded {test : Option Expr} {body exit : Nat} {breakTo continueTo : Option Nat}
    (hguard : Guards fn plan oracle p test body exit)
    (hbody : Follows fn plan oracle least (plan.enter body) control
      ⟨some (plan.enter exit), breakTo, continueTo⟩) :
    Follows fn plan oracle (least + 1) p (.guarded oracle test control)
      ⟨some (plan.enter exit), breakTo, continueTo⟩ := by
  cases test with
  | some test => exact choose hguard hbody skip
  | none => exact fun h => of_advance (hguard h) (hbody h)

/-- A loop, of which each round makes at least one step. -/
theorem loop {test : Option Expr} {step body : Control} {head bodyBlock next footer rounds : Nat}
    (hguard : Guards fn plan oracle (plan.enter head) test bodyBlock footer)
    (hbody : Follows fn plan oracle least (plan.enter bodyBlock) body
      ⟨some (plan.enter next), some footer, some next⟩)
    (hstep : ∀ breakTo continueTo, Follows fn plan oracle least (plan.enter next) step
      ⟨some (plan.enter head), breakTo, continueTo⟩)
    (hrounds : rounds ≤ least) (breakTo continueTo : Option Nat) :
    Follows fn plan oracle rounds (plan.enter head) (.loop oracle test step body rounds)
      ⟨some (plan.enter footer), breakTo, continueTo⟩ := by
  induction rounds generalizing breakTo with
  | zero => exact fun _ => ⟨0, .unfinished (Nat.le_refl 0)⟩
  | succ rounds ih =>
    have hle : rounds ≤ least := by omega
    apply breakable
    apply guarded hguard
    apply andThen
    · exact (hbody.mono hle).continuable
    · rintro _ ⟨⟩
      apply andThen
      · exact (hstep _ _).mono hle
      · rintro _ ⟨⟩
        exact ih hle (some footer)

end Follows

/-! ### Switches -/

section

variable (fn : Ir.Function) (plan : Plan) (oracle : Oracle)

/-- Arms in their blocks: each goes on to the next one, the last to what stands behind them all. -/
def ArmsFollow (least footer : Nat) (continueTo : Option Nat) :
    List (Arm Control) → List Nat → Prop
  | arm :: arms, block :: blocks =>
    Follows fn plan oracle least (plan.enter block) arm.body
      ⟨some (plan.enter (blocks.headD footer)), some footer, continueTo⟩ ∧
        ArmsFollow least footer continueTo arms blocks
  | [], [] => True
  | _, _ => False

end

namespace ArmsFollow

variable {footer : Nat} {continueTo : Option Nat} {arms : List (Arm Control)} {blocks : List Nat}

theorem drop (harms : ArmsFollow fn plan oracle least footer continueTo arms blocks) (k : Nat) :
    ArmsFollow fn plan oracle least footer continueTo (arms.drop k) (blocks.drop k) := by
  induction k generalizing arms blocks with
  | zero => exact harms
  | succ k ih =>
    match arms, blocks, harms with
    | [], [], _ => exact trivial
    | _ :: arms, _ :: blocks, harms => exact ih harms.2

theorem fallThrough (harms : ArmsFollow fn plan oracle least footer continueTo arms blocks) :
    Follows fn plan oracle least (plan.enter (blocks.headD footer)) (.fallThrough arms)
      ⟨some (plan.enter footer), some footer, continueTo⟩ := by
  induction arms generalizing blocks with
  | nil =>
    match blocks, harms with
    | [], _ => exact .skip
  | cons arm arms ih =>
    match blocks, harms with
    | block :: blocks, ⟨hbody, hrest⟩ =>
      apply Follows.andThen
      · exact hbody
      · rintro _ ⟨⟩
        exact ih hrest

end ArmsFollow

namespace Follows

/-- The arms that are entered for a value are those from some block on. -/
theorem switch {value : Expr} {arms : List (Arm Control)} {blocks : List Nat} {footer : Nat}
    {target : Int64 → Nat} {breakTo continueTo : Option Nat}
    (hselect : Dispatches fn plan oracle p value target)
    (harms : ArmsFollow fn plan oracle least footer continueTo arms blocks)
    (htarget : ∀ n, ∃ k, Control.entered n arms = arms.drop k ∧
      target n = (blocks.drop k).headD footer) :
    Follows fn plan oracle (least + 1) p (.switch oracle value arms)
      ⟨some (plan.enter footer), breakTo, continueTo⟩ := by
  intro h
  apply of_advance (hselect h)
  obtain ⟨k, hentered, hk⟩ := htarget (oracle.selects (.select value :: h))
  unfold Control.switch
  rw [hentered, hk]
  exact (harms.drop k).fallThrough.breakable _

end Follows

end ShaderLang.Lowering
