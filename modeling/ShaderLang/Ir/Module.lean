import ShaderLang.Ir.Inst

/-!
# Modules

A module holds the global variables and the functions of one compiled program, and can be written
as text. In the text blocks are named, not numbered.
-/

namespace ShaderLang.Ir

/-- Instructions that run one after the other, and the terminator behind them once there is one. -/
structure Block where
  id : Nat
  name : String
  insts : Array Inst
  terminator : Option Terminator
  deriving Inhabited

namespace Block

/-- A block without instructions. -/
def empty (id : Nat) (name : String) : Block :=
  ⟨id, name, #[], none⟩

/-- Whether the block is closed by a terminator. -/
def isTerminated (b : Block) : Bool :=
  b.terminator.isSome

/-- The blocks that may come next. -/
def successors (b : Block) : List Nat :=
  (b.terminator.map Terminator.successors).getD []

end Block

/-- A function; control enters its first block. -/
structure Function where
  name : String
  params : List (String × Ty)
  returnTy : Ty
  blocks : Array Block
  deriving Inhabited

namespace Function

/-- The first block of a name. -/
def blockNamed? (f : Function) (name : String) : Option Block :=
  f.blocks.find? (·.name == name)

/-- The block that control enters. -/
def entry? (f : Function) : Option Block :=
  f.blocks[0]?

/-- All instructions, block by block. -/
def insts (f : Function) : List Inst :=
  f.blocks.toList.flatMap (·.insts.toList)

/-- The name of a block in the text; one that does not exist has no name. -/
def blockName (f : Function) (id : Nat) : String :=
  (f.blocks[id]?.map Block.name).getD "?"

/-- The lines of one block. -/
def blockLines (f : Function) (b : Block) : List String :=
  (b.name ++ ":") :: b.insts.toList.map Inst.text
    ++ (b.terminator.map (Terminator.text f.blockName)).toList

/-- The lines of the written form. -/
def lines (f : Function) : List String :=
  ("define " ++ f.returnTy.text ++ " @" ++ f.name ++ "("
      ++ commaText (f.params.map fun (name, ty) => ty.text ++ " %" ++ name) ++ ") \x7b")
    :: f.blocks.toList.flatMap f.blockLines ++ ["\x7d"]

end Function

/-- A global variable; without an initial value it begins as zero. -/
structure Global where
  name : String
  ty : Ty
  init : Option Value
  deriving Inhabited

namespace Global

/-- The written form. -/
def text (g : Global) : String :=
  "@" ++ g.name ++ " = global " ++ g.ty.text ++ " "
    ++ (g.init.map Value.text).getD "zeroinitializer"

end Global

/-- The intermediate form of one program. -/
structure Module where
  name : String
  globals : List Global
  functions : List Function
  deriving Inhabited

namespace Module

/-- A module without contents. -/
def empty (name : String) : Module :=
  ⟨name, [], []⟩

/-- The function of a name. -/
def function? (m : Module) (name : String) : Option Function :=
  m.functions.find? (·.name == name)

/-- The global variable of a name. -/
def global? (m : Module) (name : String) : Option Global :=
  m.globals.find? (·.name == name)

/-- Adds a global variable behind the others. It takes the place of one with the same name. -/
def addGlobal (m : Module) (g : Global) : Module :=
  { m with globals := m.globals.filter (·.name != g.name) ++ [g] }

/-- Adds a function behind the others. It takes the place of one with the same name. -/
def addFunction (m : Module) (f : Function) : Module :=
  { m with functions := m.functions.filter (·.name != f.name) ++ [f] }

/-- The lines of the written form: the name, the global variables, and each function behind an empty
line. -/
def lines (m : Module) : List String :=
  ("; module " ++ m.name) :: m.globals.map Global.text
    ++ m.functions.flatMap fun f => "" :: f.lines

/-- The written form; every line is ended by a line feed. -/
def text (m : Module) : String :=
  String.join (m.lines.map (· ++ "\n"))

end Module

end ShaderLang.Ir
