import ShaderLang.Proofs.DistinctLabels

/-!
# The course of a body

Where control goes in the statements of a body. Whatever is evaluated on the way is one action, of
which only the name is known, and an oracle answers each test and gives each value that a `switch`
looks at; it may go by all that was done before. What remains is the order of the actions and the
way in which the body is left.

A body need not come to an end. It is followed for a number of rounds of each loop; where they do not
suffice, what was done up to there is a beginning of what the body does.
-/

namespace ShaderLang

/-- Something that a statement does in one go. -/
inductive Action where
  /-- The value of an expression is dropped: that of a statement, or of what a `for` loop begins
  with or goes on with. -/
  | evaluate (e : Expr)
  /-- A local variable comes into being, with its initial value. -/
  | declare (v : VarDecl)
  /-- A test, which holds or does not. -/
  | test (e : Expr)
  /-- The value by which a `switch` selects an arm. -/
  | select (e : Expr)
  /-- The value with which a `return` leaves the function, if it has one. -/
  | giveBack (span : Span) (value : Option Expr)

/-- Whether control just goes on behind an action, whatever its value is. -/
def Action.IsPlain : Action → Prop
  | evaluate _ | declare _ => True
  | test _ | select _ | giveBack .. => False

/-- What was done, the last action first. -/
abbrev History := List Action

/-- The answers to tests and the values of switches. They may depend on all that was done, up to the
question itself. -/
structure Oracle where
  holds : History → Bool
  selects : History → Int64

/-- How a statement is left. -/
inductive Exit where
  /-- Control goes on behind it. -/
  | behind
  | broken
  | continued
  /-- By the `return` at that place. -/
  | returned (span : Span)
  /-- There were too few rounds to say. -/
  | unfinished

/-- What was done in the end, and how a statement is left. -/
structure Course where
  history : History
  exit : Exit

/-- The course of a statement that begins behind given actions. -/
abbrev Control := History → Course

namespace Control

/-- Nothing is done. -/
def skip : Control := fun h => ⟨h, .behind⟩

/-- The statement is left at once. -/
def leave (exit : Exit) : Control := fun h => ⟨h, exit⟩

/-- One action is done. -/
def perform (a : Action) : Control := fun h => ⟨a :: h, .behind⟩

/-- One after the other, unless the first is left in another way. -/
def andThen (first second : Control) : Control := fun h =>
  match first h with
  | ⟨h', .behind⟩ => second h'
  | course => course

/-- What `continue` leaves, to go on behind it. -/
def continuable (body : Control) : Control := fun h =>
  match body h with
  | ⟨h', .continued⟩ => ⟨h', .behind⟩
  | course => course

/-- What `break` leaves, to go on behind it. -/
def breakable (body : Control) : Control := fun h =>
  match body h with
  | ⟨h', .broken⟩ => ⟨h', .behind⟩
  | course => course

section

variable (oracle : Oracle)

/-- One of two ways, after a test. -/
def choose (test : Expr) (ifTrue ifFalse : Control) : Control := fun h =>
  if oracle.holds (.test test :: h) then ifTrue (.test test :: h) else ifFalse (.test test :: h)

/-- Something is done if a test holds, or always if there is none. -/
def guarded : Option Expr → Control → Control
  | some test, body => choose oracle test body skip
  | none, body => body

/-- A loop, for a number of rounds. -/
def loop (test : Option Expr) (step body : Control) : Nat → Control
  | 0 => leave .unfinished
  | rounds + 1 =>
    breakable <| guarded oracle test <|
      body.continuable.andThen <| step.andThen <| loop test step body rounds

/-- Arms one after the other. -/
def fallThrough : List (Arm Control) → Control
  | [] => skip
  | arm :: rest => arm.body.andThen (fallThrough rest)

/-- The arms that are gone through for a value: from the one with that label on, or else from the
default on, wherever that stands. -/
def entered {Body : Type} (value : Int64) (arms : List (Arm Body)) : List (Arm Body) :=
  if arms.any (·.value? == some value) then arms.dropWhile (·.value? != some value)
  else arms.dropWhile (!·.isDefault)

/-- Some of the arms, depending on a value. -/
def switch (value : Expr) (arms : List (Arm Control)) : Control := fun h =>
  breakable (fallThrough (entered (oracle.selects (.select value :: h)) arms)) (.select value :: h)

end

end Control

namespace ForInit

/-- The action of what a `for` loop begins with. -/
def action : ForInit → Action
  | expr e => .evaluate e
  | declare v => .declare v

end ForInit

namespace Stmt

open Control

variable (oracle : Oracle) (rounds : Nat)

mutual

/-- The course of a statement. -/
def control : Stmt → Control
  | .expr _ e => perform (.evaluate e)
  | .empty _ => skip
  | .declare v => perform (.declare v)
  | .block _ body => allControl body
  | .ifThen _ test ifTrue => choose oracle test (control ifTrue) skip
  | .ifElse _ test ifTrue ifFalse => choose oracle test (control ifTrue) (control ifFalse)
  | .whileLoop _ test body => loop oracle (some test) skip (control body) rounds
  | .forLoop _ init test step body =>
    (init.elim skip (perform ·.action)).andThen <|
      loop oracle test (step.elim skip (perform <| .evaluate ·)) (control body) rounds
  | .switch _ value arms => Control.switch oracle value (armControls arms)
  | .breakStmt _ => leave .broken
  | .continueStmt _ => leave .continued
  | .returnStmt span value => (perform (.giveBack span value)).andThen (leave (.returned span))
  termination_by structural s => s

/-- The course of statements one after the other. -/
def allControl : List Stmt → Control
  | [] => skip
  | s :: rest => (control s).andThen (allControl rest)
  termination_by structural s => s

/-- The arms of a `switch` with their courses. -/
def armControls : List (Arm (List Stmt)) → List (Arm Control)
  | [] => []
  | ⟨label, body, span⟩ :: rest => ⟨label, allControl body, span⟩ :: armControls rest
  termination_by structural s => s

end

end Stmt

/-- How a function is left. -/
inductive Ending where
  /-- By the `return` at that place. -/
  | returned (span : Span)
  /-- Behind its last statement. -/
  | fellOff

/-- How a function is left if its body is left that way. -/
def Exit.ending? : Exit → Option Ending
  | behind => some .fellOff
  | returned span => some (.returned span)
  | broken | continued | unfinished => none

namespace FnDecl

variable (f : FnDecl) (oracle : Oracle)

/-- The course of the body of a function. -/
def course (rounds : Nat) : Course :=
  Stmt.allControl oracle rounds f.body.stmts []

/-- These are the first actions that the body performs. -/
def Performs (h : History) : Prop :=
  ∃ rounds, h <:+ (f.course oracle rounds).history

/-- The body performs these actions and no more, and is left that way. -/
def Ends (ending : Ending) (h : History) : Prop :=
  ∃ rounds, (f.course oracle rounds).history = h ∧
    (f.course oracle rounds).exit.ending? = some ending

end FnDecl

end ShaderLang
