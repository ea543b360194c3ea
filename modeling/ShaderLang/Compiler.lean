import ShaderLang.Check.Stmt
import ShaderLang.Container
import ShaderLang.Grammar
import ShaderLang.Lowering.Program

/-!
# Compiling

A source text is taken all the way: it is read, checked, lowered and put into a container. A program
in which something is wrong is not lowered.
-/

namespace ShaderLang

/-- Why a source text is not compiled, or bytes are not read. -/
inductive Error where
  | unreadable (failure : Grammar.Failure)
  | lowering (fault : Lowering.Fault)
  | unchecked (findings : List Finding)
  | container (fault : Container.Fault)

/-- A span as messages of failures show it. -/
def Span.text (s : Span) : String :=
  "Span \x7b start: " ++ toString s.start ++ ", end: " ++ toString s.stop ++ " \x7d"

/-- Which part of reading a text failed. -/
def Grammar.Failure.stage : Grammar.Failure → String
  | .fault _ => "Lexer"
  | _ => "Parser"

/-- A failure in words. -/
def Grammar.Failure.message (f : Grammar.Failure) : String :=
  f.stage ++ " error at " ++ f.span.text ++ ": " ++ f.reason

/-- An error in words. -/
def Error.message : Error → String
  | unreadable failure => failure.message
  | lowering fault => "Code generation error: " ++ fault.reason
  | unchecked findings =>
    "refusing to generate code: program has " ++ toString findings.length
      ++ " unresolved diagnostic(s)"
  | container fault => "Malformed container: " ++ fault.reason

/-- The name of a module that is not given another one. -/
def defaultModuleName : String :=
  "shader"

/-- A module and the container of its text. -/
structure Compiled where
  output : Ir.Module
  bytes : List UInt8

/-- Lowers a program in which nothing is wrong. -/
def Program.compile (p : Program) (moduleName : String) : Except Error Ir.Module :=
  match p.findings with
  | [] => (p.lower moduleName).mapError .lowering
  | findings => .error (.unchecked findings)

namespace Compiler

/-- What is asked for: the name of the module, and whether the text is checked only. -/
structure Options where
  moduleName : String
  checkOnly : Bool

/-- All that is wrong with a source text that can be read. -/
def check (source : String) : Except Error (List Finding) :=
  match Program.ofText? source with
  | .ok p => .ok p.findings
  | .error failure => .error (.unreadable failure)

/-- Compiles a source text. -/
def compile (moduleName source : String) : Except Error Compiled := do
  let p ← (Program.ofText? source).mapError .unreadable
  let output ← p.compile moduleName
  return ⟨output, output.toContainer⟩

/-- Does what is asked for. A check gives nothing if nothing is wrong. -/
def run (options : Options) (source : String) : Except Error (Option Compiled) := do
  if options.checkOnly then
    match ← check source with
    | [] => return none
    | findings => throw (.unchecked findings)
  else
    let compiled ← compile options.moduleName source
    return some compiled

end Compiler

end ShaderLang
