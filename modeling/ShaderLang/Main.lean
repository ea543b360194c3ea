import ShaderLang.CommandLine

/-!
# The compiler as a program

Reads a file, compiles it and writes the container. All that is said goes to the error stream.
-/

open ShaderLang

/-- Writes lines to the error stream. -/
def complain (lines : List String) : IO Unit :=
  lines.forM IO.eprintln

/-- Does what a command asks for and gives the exit code. -/
def execute (c : Command) : IO UInt32 := do
  let source ← try IO.FS.readFile c.input catch e =>
    complain ["error: reading " ++ c.input ++ ": " ++ toString e]
    return 1
  if c.showTokens then
    complain (["=== Tokens ==="] ++ Command.tokenLines source ++ ["=== End Tokens ===\n"])
  match Compiler.run c.options source with
  | .error e =>
    complain (Command.report e)
    return 1
  | .ok none => return 0
  | .ok (some compiled) =>
    if c.showModule then
      complain ["=== IR ===", compiled.output.text, "=== End IR ===\n"]
    try
      IO.FS.writeBinFile c.containerPath ⟨compiled.bytes.toArray⟩
      return 0
    catch e =>
      complain ["error: writing " ++ c.containerPath ++ ": " ++ toString e]
      return 1

/-- The program. -/
def main (arguments : List String) : IO UInt32 :=
  match Command.ofArguments? arguments with
  | .ok c => execute c
  | .error fault => do
    complain ["error: " ++ fault.message, "", Command.usage]
    return 2
