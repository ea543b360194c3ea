import ShaderLang.Ir.Module

/-!
# Building modules

A builder holds a module, the function that is being filled and the block to which instructions are
added. Operations fail rather than break the form of a function: nothing is added behind a
terminator, and a function with an open block does not get into the module.

An operation that fails may still have used up the index of a temporary value or the name of a
block.
-/

namespace ShaderLang.Ir

/-- A module under construction. -/
structure Builder where
  output : Module
  /-- The function that is being filled. -/
  openFn : Option Function
  /-- The block to which instructions are added. -/
  insertion : Option Nat
  /-- The index of the next temporary value. -/
  nextTemp : Nat
  /-- What the blocks of the open function were named after, the last one first. -/
  stems : List String

namespace Builder

/-- Why an operation fails. -/
inductive Fault where
  | noOpenFunction
  | stillOpen (function : String)
  | noInsertionBlock
  | unknownBlock (id : Nat)
  | afterTerminator (block : String)
  | alreadyTerminated (block : String)
  | unterminated (block function : String)
  deriving DecidableEq

/-- How messages speak of a fault. -/
def Fault.reason : Fault → String
  | noOpenFunction => "no open function"
  | stillOpen function => "function '" ++ function ++ "' still open"
  | noInsertionBlock => "no insertion block"
  | unknownBlock id => "unknown block " ++ toString id
  | afterTerminator block => "instruction after terminator in '" ++ block ++ "'"
  | alreadyTerminated block => "block '" ++ block ++ "' is already terminated"
  | unterminated block function =>
    "block '" ++ block ++ "' in '" ++ function ++ "' has no terminator"

/-- A builder with an empty module. -/
def new (name : String) : Builder :=
  ⟨.empty name, none, none, 0, []⟩

/-- The block to which instructions are added, if it exists. -/
def insertionBlock? (b : Builder) : Option Block := do
  let f ← b.openFn
  let id ← b.insertion
  f.blocks[id]?

/-- Whether the block to which instructions are added is closed. -/
def isTerminated (b : Builder) : Bool :=
  b.insertionBlock?.any Block.isTerminated

/-- Changes one block of the open function. -/
def modifyBlock (b : Builder) (id : Nat) (f : Block → Block) : Builder :=
  { b with openFn := b.openFn.map fun fn => { fn with blocks := fn.blocks.modify id f } }

end Builder

/-- An operation on a builder. What it did before it failed stays done. -/
abbrev Build (α : Type) := EStateM Builder.Fault Builder α

namespace Build

/-- Adds a global variable, or replaces the one of that name. -/
def addGlobal (name : String) (ty : Ty) (init : Option Value) : Build Value := do
  modify fun b => { b with output := b.output.addGlobal ⟨name, ty, init⟩ }
  return .global name

/-- Opens a function. Temporary values and names of blocks begin anew. -/
def beginFunction (name : String) (params : List (String × Ty)) (returnTy : Ty) : Build Unit := do
  match (← get).openFn with
  | some f => throw (.stillOpen f.name)
  | none =>
    modify fun b => { b with
      openFn := some ⟨name, params, returnTy, #[]⟩
      insertion := none
      nextTemp := 0
      stems := [] }

/-- Closes the open function and adds it to the module. If one of its blocks has no terminator, it
is dropped instead. -/
def finishFunction : Build Unit := do
  match (← get).openFn with
  | none => throw .noOpenFunction
  | some f =>
    modify fun b => { b with openFn := none }
    match f.blocks.find? (!·.isTerminated) with
    | some block => throw (.unterminated block.name f.name)
    | none => modify fun b => { b with insertion := none, output := b.output.addFunction f }

/-- Adds an empty block. The first one named after a stem has the stem for its name, each further
one a number behind it. -/
def createBlock (stem : String) : Build Nat := do
  let used := (← get).stems.count stem
  modify fun b => { b with stems := stem :: b.stems }
  match (← get).openFn with
  | none => throw .noOpenFunction
  | some f =>
    let id := f.blocks.size
    let name := if used = 0 then stem else stem ++ "." ++ toString used
    modify fun b => { b with
      openFn := b.openFn.map fun fn => { fn with blocks := fn.blocks.push (.empty id name) } }
    return id

/-- Chooses the block to which instructions are added. It need not exist yet. -/
def position (block : Nat) : Build Unit :=
  modify fun b => { b with insertion := some block }

/-- The position and the contents of the block to which instructions are added. -/
def insertionPoint : Build (Nat × Block) := do
  let b ← get
  match b.insertion with
  | none => throw .noInsertionBlock
  | some id =>
    match b.openFn with
    | none => throw .noOpenFunction
    | some f =>
      match f.blocks[id]? with
      | none => throw (.unknownBlock id)
      | some block => return (id, block)

/-- Adds an instruction. -/
def emit (inst : Inst) : Build Unit := do
  let (id, block) ← insertionPoint
  if block.isTerminated then
    throw (.afterTerminator block.name)
  else
    modify (·.modifyBlock id fun b => { b with insts := b.insts.push inst })

/-- Closes the block. -/
def terminate (terminator : Terminator) : Build Unit := do
  let (id, block) ← insertionPoint
  if block.isTerminated then
    throw (.alreadyTerminated block.name)
  else
    modify (·.modifyBlock id fun b => { b with terminator := some terminator })

/-- Takes the index of a new temporary value. -/
def newTemp : Build Nat :=
  modifyGet fun b => (b.nextTemp, { b with nextTemp := b.nextTemp + 1 })

/-- Adds an instruction that gives a new temporary value. -/
def emitValue (inst : Nat → Inst) : Build Value := do
  let result ← newTemp
  emit (inst result)
  return .temp result

/-- A slot in memory. -/
def alloca (ty : Ty) (name : String) : Build Value :=
  emitValue (.alloca · ty name)

/-- A slot in memory, added to a given block even if that is closed. -/
def allocaIn (block : Nat) (ty : Ty) (name : String) : Build Value := do
  let result ← newTemp
  match (← get).openFn with
  | none => throw .noOpenFunction
  | some f =>
    if block < f.blocks.size then
      modify (·.modifyBlock block fun b =>
        { b with insts := b.insts.push (.alloca result ty name) })
      return .temp result
    else
      throw (.unknownBlock block)

/-- Reads from memory. -/
def load (ty : Ty) (address : Value) : Build Value :=
  emitValue (.load · ty address)

/-- Writes to memory. -/
def store (address value : Value) : Build Unit :=
  emit (.store address value)

/-- An operation on two operands. -/
def binary (op : BinaryOp) (ty : Ty) (left right : Value) : Build Value :=
  emitValue (.binary · op ty left right)

/-- A comparison. -/
def compare (predicate : Predicate) (left right : Value) : Build Value :=
  emitValue (.compare · predicate left right)

/-- A conversion. A constant of the right kind is converted at once. -/
def convert (op : Conversion) (value : Value) : Build Value :=
  match op, value with
  | .intToFloat, .int n => return .float (floatOfInt n)
  | .floatToInt, .float x => return .int (intOfFloat x)
  | .boolToInt, .bool b => return .int (if b then 1 else 0)
  | .boolToFloat, .bool b => return .float (if b then 1.0 else 0.0)
  | _, _ => emitValue (.convert · op value)

/-- One lane of a vector. A lane of a constant is read at once. -/
def extractLane (vector : Value) (lane : Nat) : Build Value :=
  let constant? :=
    match vector with
    | .vector lanes => lanes[lane]?
    | _ => none
  match constant? with
  | some x => return .float x
  | none => emitValue (.extractLane · vector lane)

/-- A vector with one lane replaced. -/
def insertLane (vector value : Value) (lane : Nat) : Build Value :=
  emitValue (.insertLane · vector value lane)

/-- Several lanes of a vector, as a vector. -/
def shuffle (vector : Value) (mask : List Nat) : Build Value :=
  emitValue (.shuffle · vector mask)

/-- The address of an element. -/
def elementAddress (base index : Value) : Build Value :=
  emitValue (.elementAddress · base index)

/-- A call, with a value if the function gives one. -/
def call (callee : String) (arguments : List Value) (givesValue : Bool) : Build (Option Value) := do
  if givesValue then
    let value ← emitValue (.call · callee arguments)
    return some value
  else
    emit (.call none callee arguments)
    return none

/-- Goes to another block. -/
def branch (target : Nat) : Build Unit :=
  terminate (.branch target)

/-- Goes to one of two blocks. -/
def condBranch (condition : Value) (ifTrue ifFalse : Nat) : Build Unit :=
  terminate (.condBranch condition ifTrue ifFalse)

/-- Goes to the block of a case. -/
def switch (value : Value) (default : Nat) (cases : List (Int64 × Nat)) : Build Unit :=
  terminate (.switch value default cases)

/-- Returns from the function. -/
def ret (value : Option Value) : Build Unit :=
  terminate (.ret value)

/-- Marks the end of a block that is never reached. -/
def unreachable : Build Unit :=
  terminate .unreachable

end Build

end ShaderLang.Ir
