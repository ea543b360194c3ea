import ShaderLang.Lowering.Expr

/-!
# Lowering statements

Each loop and each `switch` has a block behind it to which `break` goes; each loop also has one to
which `continue` goes, and a `switch` passes `continue` on to the loop around it. Statements behind
a jump are put into a block that nothing leads to.
-/

namespace ShaderLang.Lowering

open Ir (Build)

/-- The blocks to which a loop or a `switch` is left, and where a loop goes on. -/
structure Frame where
  breakTo : Nat
  continueTo : Option Nat
  deriving DecidableEq

/-- What surrounds a statement: the type that its function returns, and the loops and switches that
it stands in, the innermost one first. -/
structure Context where
  returnTy : Ty
  frames : List Frame

namespace Context

/-- The same surroundings inside one more loop or switch. -/
def inside (c : Context) (frame : Frame) : Context :=
  { c with frames := frame :: c.frames }

/-- The block to which `break` goes. -/
def breakTo? (c : Context) : Option Nat :=
  c.frames.head?.map Frame.breakTo

/-- The block to which `continue` goes. -/
def continueTo? (c : Context) : Option Nat :=
  c.frames.findSome? Frame.continueTo

end Context

/-- Goes to a block, unless control has gone elsewhere. -/
def branchIfOpen (target : Nat) : Emit Unit := do
  if (← get).isTerminated then
    return ()
  else
    Build.branch target

/-- Behind a jump, goes on in a block of its own. -/
def ensureOpen : Emit Unit := do
  if (← get).isTerminated then
    let dead ← Build.createBlock "dead"
    Build.position dead
  else
    return ()

/-- Evaluates a test. -/
def condition (symbols : SymbolTable) (test : Expr) : Emit Ir.Value := do
  let value ← expr symbols test
  coerce value .bool

/-- Evaluates an expression for its effects. -/
def discard (symbols : SymbolTable) (e : Expr) : Emit Unit := do
  let _ ← expr symbols e

/-- A slot for a local variable, with its initial value. The initializer does not see the
variable. -/
def localVar (symbols : SymbolTable) (v : VarDecl) : Emit SymbolTable := do
  let address ← Build.alloca v.ty.toIr v.name.name
  match v.init with
  | some init =>
    let value ← expr symbols init
    let value ← coerce value v.ty
    Build.store address value
  | none => pure ()
  return symbols.declare ((Symbol.ofVar v).withStorage (.address address))

/-- What a `for` loop begins with. -/
def forInit (symbols : SymbolTable) : Option ForInit → Emit SymbolTable
  | some (.expr e) => do
    discard symbols e
    return symbols
  | some (.declare v) => localVar symbols v
  | none => return symbols

/-- A block that is created only if something is there to go into it. -/
def blockFor {α : Type} (content : Option α) (stem : String) : Emit (Option Nat) :=
  match content with
  | some _ => do
    let block ← Build.createBlock stem
    return some block
  | none => return none

/-- Goes to the body of a loop if the test holds, or always if there is none. -/
def loopTest (symbols : SymbolTable) (test : Option Expr) (body exit : Nat) : Emit Unit :=
  match test with
  | some test => do
    let value ← condition symbols test
    Build.condBranch value body exit
  | none => Build.branch body

/-- The step of a loop, from which it goes back to its head. -/
def loopStep (symbols : SymbolTable) (head : Nat) (block : Option Nat) (step : Option Expr) :
    Emit Unit :=
  match block, step with
  | some block, some step => do
    Build.position block
    discard symbols step
    Build.branch head
  | _, _ => return ()

/-- One block for each arm of a `switch`. -/
def armBlocks {Body : Type} (arms : List (Arm Body)) : Emit (List Nat) :=
  arms.mapM fun arm =>
    Build.createBlock (if arm.isDefault then "switch.default" else "switch.case")

/-- The labels with their blocks, and the block of the last default; without one, what stands behind
the `switch`. -/
def dispatch {Body : Type} (default : Nat) :
    List (Arm Body) → List Nat → Emit (Nat × List (Int64 × Nat))
  | arm :: arms, block :: blocks =>
    match arm.label with
    | none => dispatch block arms blocks
    | some label => do
      let value ← orFault label.constInt? .caseNotConstant
      let (default, cases) ← dispatch default arms blocks
      return (default, (value, block) :: cases)
  | _, _ => return (default, [])

/-- The value that a `return` gives back; a function of no value evaluates it all the same. -/
def returnValue (symbols : SymbolTable) (returnTy : Ty) : Option Expr → Emit (Option Ir.Value)
  | none => return none
  | some e => do
    let value ← expr symbols e
    if returnTy = .void then
      return none
    else
      let value ← coerce value returnTy
      return some value

mutual

/-- Adds the code of a statement. -/
def stmt (context : Context) (symbols : SymbolTable) (s : Stmt) : Emit SymbolTable := do
  ensureOpen
  match s with
  | .expr _ e =>
    discard symbols e
    return symbols
  | .empty _ => return symbols
  | .declare v => localVar symbols v
  | .block _ body =>
    stmts context symbols.push body
    return symbols
  | .ifThen _ test ifTrue =>
    let value ← condition symbols test
    let trueBlock ← Build.createBlock "if.then"
    let footer ← Build.createBlock "if.footer"
    Build.condBranch value trueBlock footer
    Build.position trueBlock
    let _ ← stmt context symbols.push ifTrue
    branchIfOpen footer
    Build.position footer
    return symbols
  | .ifElse _ test ifTrue ifFalse =>
    let value ← condition symbols test
    let trueBlock ← Build.createBlock "if.then"
    let falseBlock ← Build.createBlock "if.else"
    let footer ← Build.createBlock "if.footer"
    Build.condBranch value trueBlock falseBlock
    Build.position trueBlock
    let _ ← stmt context symbols.push ifTrue
    branchIfOpen footer
    Build.position falseBlock
    let _ ← stmt context symbols.push ifFalse
    branchIfOpen footer
    Build.position footer
    return symbols
  | .whileLoop _ test body =>
    let head ← Build.createBlock "while.head"
    let bodyBlock ← Build.createBlock "while.body"
    let footer ← Build.createBlock "while.footer"
    Build.branch head
    Build.position head
    loopTest symbols (some test) bodyBlock footer
    Build.position bodyBlock
    let _ ← stmt (context.inside ⟨footer, some head⟩) symbols.push body
    branchIfOpen head
    Build.position footer
    return symbols
  | .forLoop _ init test step body =>
    let inner ← forInit symbols.push init
    let head ← Build.createBlock "for.head"
    let bodyBlock ← Build.createBlock "for.body"
    let stepBlock ← blockFor step "for.step"
    let footer ← Build.createBlock "for.footer"
    Build.branch head
    Build.position head
    loopTest inner test bodyBlock footer
    let next := stepBlock.getD head
    Build.position bodyBlock
    let _ ← stmt (context.inside ⟨footer, some next⟩) inner.push body
    branchIfOpen next
    loopStep inner head stepBlock step
    Build.position footer
    return symbols
  | .switch _ value arms =>
    let value ← expr symbols value
    let value ← coerce value .int
    let blocks ← armBlocks arms
    let footer ← Build.createBlock "switch.footer"
    let (default, cases) ← dispatch footer arms blocks
    Build.switch value default cases
    armBodies (context.inside ⟨footer, none⟩) symbols footer blocks arms
    Build.position footer
    return symbols
  | .breakStmt _ =>
    let target ← orFault context.breakTo? .breakOutside
    Build.branch target
    return symbols
  | .continueStmt _ =>
    let target ← orFault context.continueTo? .continueOutside
    Build.branch target
    return symbols
  | .returnStmt _ value =>
    let value ← returnValue symbols context.returnTy value
    Build.ret value
    return symbols
  termination_by structural s

/-- Adds the code of statements one after the other. -/
def stmts (context : Context) (symbols : SymbolTable) : List Stmt → Emit Unit
  | [] => return ()
  | s :: rest => do
    let symbols ← stmt context symbols s
    stmts context symbols rest
  termination_by structural s => s

/-- Adds the code of the arms of a `switch`. An arm that is not left goes on with the next one. -/
def armBodies (context : Context) (symbols : SymbolTable) (footer : Nat) (blocks : List Nat) :
    List (Arm (List Stmt)) → Emit Unit
  | [] => return ()
  | ⟨_, body, _⟩ :: rest =>
    match blocks with
    | [] => return ()
    | block :: blocks => do
      Build.position block
      stmts context symbols.push body
      branchIfOpen (blocks.headD footer)
      armBodies context symbols footer blocks rest
  termination_by structural s => s

end

end ShaderLang.Lowering
