import ShaderLang.Lowering.Constant
import ShaderLang.Lowering.Stmt

/-!
# Lowering programs

A lowering goes through the declarations of one program or several and fills one module. If it fails
inside a function, that function stays open, so that no other one can be begun; what was finished
before stays in the module.
-/

namespace ShaderLang

/-- The names declared so far and the module that is filled. -/
structure Lowering where
  symbols : SymbolTable
  builder : Ir.Builder

namespace Lowering

open Ir (Build)

/-- Nothing is declared, and the module is empty. -/
def new (moduleName : String) : Lowering :=
  ⟨.empty, .new moduleName⟩

/-- Adds a global variable. -/
def globalVar (symbols : SymbolTable) (v : VarDecl) : Emit SymbolTable := do
  let init ←
    match v.init with
    | some e => do
      let value ← orFault (constant? v.ty e) .notConstant
      pure (some value)
    | none => pure none
  let address ← Build.addGlobal v.name.name v.ty.toIr init
  return symbols.declare ((Symbol.ofVar v).withStorage (.address address))

/-- Slots for the formal parameters of a function, into which the arguments are stored. -/
def formals (symbols : SymbolTable) : List VarDecl → Emit SymbolTable
  | [] => return symbols
  | v :: rest => do
    let address ← Build.alloca v.ty.toIr v.name.name
    Build.store address (.param v.name.name)
    formals (symbols.declare ((Symbol.ofVar v).withStorage (.address address))) rest

/-- Ends a function whose last statement does not leave it. Only one that gives no value may come
to its end. -/
def closeBody (returnTy : Ty) : Emit Unit := do
  if (← get).isTerminated then
    return ()
  else if returnTy = .void then
    Build.ret none
  else
    Build.unreachable

/-- Adds a function whose symbol is declared. -/
def fnBody (symbols : SymbolTable) (f : FnDecl) : Emit Unit := do
  let params := f.formals.map fun formal => (formal.name.name, formal.ty.toIr)
  Build.beginFunction f.name.name params f.returnTy.toIr
  let entry ← Build.createBlock "entry"
  Build.position entry
  let inner ← formals symbols.push f.formals
  stmts ⟨f.returnTy, []⟩ inner.push f.body.stmts
  closeBody f.returnTy
  Build.finishFunction

/-- A program that is lowered, and the symbols and the module with all that was added, also if that
ends in a fault. -/
abbrev Run (α : Type) := EStateM Fault Lowering α

/-- Adds code to the module. -/
def Run.ofEmit {α : Type} (action : SymbolTable → Emit α) : Run α := fun l =>
  match action l.symbols l.builder with
  | .ok value builder => .ok value { l with builder }
  | .error fault builder => .error fault { l with builder }

/-- Adds a declaration. A function is declared before its body is lowered. -/
def decl : Decl → Run Unit
  | .var v => do
    let symbols ← Run.ofEmit (globalVar · v)
    modify fun l => { l with symbols }
  | .fn f => do
    modify fun l => { l with
      symbols := l.symbols.declare ((Symbol.ofFn f).withStorage (.function f.name.name)) }
    Run.ofEmit (fnBody · f)

/-- Adds all declarations of a program. -/
def program (p : Program) : Run Unit :=
  p.forM decl

end Lowering

/-- The module of a program, lowered as it is. -/
def Program.lower (p : Program) (moduleName : String) : Except Lowering.Fault Ir.Module :=
  match Lowering.program p (.new moduleName) with
  | .ok _ l => .ok l.builder.output
  | .error fault _ => .error fault

end ShaderLang
