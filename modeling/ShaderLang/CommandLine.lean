import ShaderLang.Compiler

/-!
# The command line

What the arguments of the compiler ask for, and where a container goes that is given no place of
its own. Reading and writing files is not done here.
-/

namespace ShaderLang

/-- What the compiler is asked to do with a file. -/
structure Command where
  input : String
  output? : Option String
  checkOnly : Bool
  showTokens : Bool
  showModule : Bool
  deriving DecidableEq

namespace Command

/-- Why arguments ask for nothing. -/
inductive Fault where
  | noInput
  | noValue (option : String)
  | unknownOption (option : String)
  | extraInput (argument : String)
  deriving DecidableEq

/-- A fault in words. -/
def Fault.message : Fault → String
  | noInput => "an input file is required"
  | noValue option => "a value is required for '" ++ option ++ "'"
  | unknownOption option => "unexpected argument '" ++ option ++ "'"
  | extraInput argument => "unexpected argument '" ++ argument ++ "'"

/-- How the compiler is called. -/
def usage : String :=
  "Usage: shaderlang [OPTIONS] <INPUT>\n\n"
    ++ "Options:\n"
    ++ "  -o, --output <OUTPUT>  Output container file (defaults to the input with a .shbin extension)\n"
    ++ "      --check            Only run the checker; write nothing\n"
    ++ "      --dump-ir          Dump IR (for debugging)\n"
    ++ "      --dump-tokens      Dump tokens (for debugging)\n"

/-- What is known before any argument is read. -/
structure Draft where
  input? : Option String
  output? : Option String
  checkOnly : Bool
  showTokens : Bool
  showModule : Bool

/-- Nothing is asked for yet. -/
def Draft.empty : Draft :=
  ⟨none, none, false, false, false⟩

/-- Takes an argument that is not an option. -/
def Draft.withInput (d : Draft) (argument : String) : Except Fault Draft :=
  match d.input? with
  | none => .ok { d with input? := some argument }
  | some _ => .error (.extraInput argument)

/-- Takes arguments one after the other. -/
def Draft.read (d : Draft) : List String → Except Fault Draft
  | [] => .ok d
  | "--check" :: rest => { d with checkOnly := true }.read rest
  | "--dump-ir" :: rest => { d with showModule := true }.read rest
  | "--dump-tokens" :: rest => { d with showTokens := true }.read rest
  | "-o" :: path :: rest => { d with output? := some path }.read rest
  | "--output" :: path :: rest => { d with output? := some path }.read rest
  | argument :: rest =>
    if argument = "-o" ∨ argument = "--output" then
      .error (.noValue argument)
    else if argument.startsWith "-" then
      .error (.unknownOption argument)
    else do
      let d ← d.withInput argument
      d.read rest

/-- What arguments ask for. -/
def ofArguments? (arguments : List String) : Except Fault Command := do
  let d ← Draft.empty.read arguments
  match d.input? with
  | some input => return ⟨input, d.output?, d.checkOnly, d.showTokens, d.showModule⟩
  | none => throw .noInput

/-- The last part of a path. -/
def fileName (path : List Char) : List Char :=
  (path.reverse.takeWhile (· ≠ '/')).reverse

/-- What stands before the last part of a path, its slash included. -/
def directory (path : List Char) : List Char :=
  (path.reverse.dropWhile (· ≠ '/')).reverse

/-- A file name without what follows its last dot. A dot in front of a name begins no extension. -/
def stem (name : List Char) : List Char :=
  let front := (name.reverse.dropWhile (· ≠ '.')).reverse.dropLast
  if front.isEmpty then name else front

/-- A module is named for its file. -/
def moduleName (c : Command) : String :=
  match stem (fileName c.input.toList) with
  | [] => defaultModuleName
  | name => String.ofList name

/-- The path of the container; without a place of its own it stands beside the input. -/
def containerPath (c : Command) : String :=
  let path := c.input.toList
  c.output?.getD (String.ofList (directory path ++ stem (fileName path)) ++ ".shbin")

/-- What the compiler is asked for. -/
def options (c : Command) : Compiler.Options :=
  ⟨c.moduleName, c.checkOnly⟩

/-- What is wrong, a line for each thing. -/
def report (e : Error) : List String :=
  match e with
  | .unchecked findings => findings.map fun finding => "error: " ++ finding.text
  | e => ["error: " ++ e.message]

/-- The tokens of a text as they are shown, up to the first fault. -/
def tokenLines (source : String) : List String :=
  match (Token.Stream.ofText source).tokens? with
  | .ok tokens => tokens.map fun token => token.span.text ++ " " ++ token.kind.describe
  | .error _ => []

end Command

end ShaderLang
