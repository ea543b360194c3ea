import ShaderLang.Ir.Ty
import ShaderLang.Ir.Value

/-!
# Instructions

What a block consists of: instructions, most of which give a temporary value, and one terminator,
which says where control goes next. Blocks are named by their position in the function.
-/

namespace ShaderLang.Ir

/-- The operations on two operands of one type, lane by lane on vectors. -/
inductive BinaryOp where
  | add | sub | mul | sdiv
  | fadd | fsub | fmul | fdiv
  | and | or | xor
  deriving DecidableEq

namespace BinaryOp

/-- All operations. -/
def all : List BinaryOp :=
  [add, sub, mul, sdiv, fadd, fsub, fmul, fdiv, and, or, xor]

/-- The written form. -/
def text : BinaryOp → String
  | add => "add"
  | sub => "sub"
  | mul => "mul"
  | sdiv => "sdiv"
  | fadd => "fadd"
  | fsub => "fsub"
  | fmul => "fmul"
  | fdiv => "fdiv"
  | and => "and"
  | or => "or"
  | xor => "xor"

end BinaryOp

/-- The comparisons: of integers with a sign, or of floating-point numbers, where none holds of
NaN. -/
inductive Predicate where
  | eq | ne | slt | sle | sgt | sge
  | oeq | one | olt | ole | ogt | oge
  deriving DecidableEq

namespace Predicate

/-- All comparisons. -/
def all : List Predicate :=
  [eq, ne, slt, sle, sgt, sge, oeq, one, olt, ole, ogt, oge]

/-- Whether floating-point numbers are compared. -/
def isFloat : Predicate → Bool
  | oeq | one | olt | ole | ogt | oge => true
  | _ => false

/-- The written form. -/
def text : Predicate → String
  | eq => "icmp eq"
  | ne => "icmp ne"
  | slt => "icmp slt"
  | sle => "icmp sle"
  | sgt => "icmp sgt"
  | sge => "icmp sge"
  | oeq => "fcmp oeq"
  | one => "fcmp one"
  | olt => "fcmp olt"
  | ole => "fcmp ole"
  | ogt => "fcmp ogt"
  | oge => "fcmp oge"

end Predicate

/-- The conversions between scalars. A truth value counts as zero or one. -/
inductive Conversion where
  | intToFloat
  | floatToInt
  | boolToInt
  | boolToFloat
  deriving DecidableEq

namespace Conversion

/-- All conversions. -/
def all : List Conversion :=
  [intToFloat, floatToInt, boolToInt, boolToFloat]

/-- The written form. -/
def text : Conversion → String
  | intToFloat => "sitofp"
  | floatToInt => "fptosi"
  | boolToInt => "zext"
  | boolToFloat => "uitofp"

end Conversion

/-- An instruction. The first field of those that give a value is the index of that value. -/
inductive Inst where
  /-- A slot in memory for a value of a type. -/
  | alloca (result : Nat) (ty : Ty) (name : String)
  | load (result : Nat) (ty : Ty) (address : Value)
  | store (address value : Value)
  | binary (result : Nat) (op : BinaryOp) (ty : Ty) (left right : Value)
  | compare (result : Nat) (predicate : Predicate) (left right : Value)
  | convert (result : Nat) (op : Conversion) (value : Value)
  | extractLane (result : Nat) (vector : Value) (lane : Nat)
  | insertLane (result : Nat) (vector value : Value) (lane : Nat)
  | shuffle (result : Nat) (vector : Value) (mask : List Nat)
  /-- The address of an element of the array at an address. -/
  | elementAddress (result : Nat) (base index : Value)
  | call (result : Option Nat) (callee : String) (arguments : List Value)
  deriving Inhabited

namespace Inst

/-- The index of the value that an instruction gives. -/
def result? : Inst → Option Nat
  | alloca result .. | load result .. | binary result .. | compare result .. | convert result ..
  | extractLane result .. | insertLane result .. | shuffle result .. | elementAddress result .. =>
    some result
  | call result .. => result
  | store .. => none

/-- What an instruction does, without its result. -/
def effectText : Inst → String
  | alloca _ ty name => "alloca " ++ ty.text ++ " ; " ++ name
  | load _ ty address => "load " ++ ty.text ++ ", " ++ address.text
  | store address value => "store " ++ value.text ++ ", " ++ address.text
  | binary _ op ty left right =>
    op.text ++ " " ++ ty.text ++ " " ++ left.text ++ ", " ++ right.text
  | compare _ predicate left right => predicate.text ++ " " ++ left.text ++ ", " ++ right.text
  | convert _ op value => op.text ++ " " ++ value.text
  | extractLane _ vector lane => "extractelement " ++ vector.text ++ ", " ++ toString lane
  | insertLane _ vector value lane =>
    "insertelement " ++ vector.text ++ ", " ++ value.text ++ ", " ++ toString lane
  | shuffle _ vector mask =>
    "shufflevector " ++ vector.text ++ ", <" ++ commaText (mask.map toString) ++ ">"
  | elementAddress _ base index => "getelementptr " ++ base.text ++ ", 0, " ++ index.text
  | call _ callee arguments =>
    "call @" ++ callee ++ "(" ++ commaText (arguments.map Value.text) ++ ")"

/-- The written form. -/
def text (i : Inst) : String :=
  match i.result? with
  | some result => "  " ++ tempText result ++ " = " ++ i.effectText
  | none => "  " ++ i.effectText

end Inst

/-- Where control goes at the end of a block. -/
inductive Terminator where
  | branch (target : Nat)
  | condBranch (condition : Value) (ifTrue ifFalse : Nat)
  /-- To the block of the case that equals the value, or else to the default. -/
  | switch (value : Value) (default : Nat) (cases : List (Int64 × Nat))
  | ret (value : Option Value)
  | unreachable
  deriving Inhabited

namespace Terminator

/-- The blocks that may come next. -/
def successors : Terminator → List Nat
  | branch target => [target]
  | condBranch _ ifTrue ifFalse => [ifTrue, ifFalse]
  | switch _ default cases => default :: cases.map Prod.snd
  | ret _ | unreachable => []

/-- The written form, with a name for each block. -/
def text (blockName : Nat → String) : Terminator → String
  | branch target => "  br %" ++ blockName target
  | condBranch condition ifTrue ifFalse =>
    "  br " ++ condition.text ++ ", %" ++ blockName ifTrue ++ ", %" ++ blockName ifFalse
  | switch value default cases =>
    "  switch " ++ value.text ++ ", %" ++ blockName default ++ " ["
      ++ commaText (cases.map fun (label, target) =>
          toString label.toInt ++ ": %" ++ blockName target)
      ++ "]"
  | ret (some value) => "  ret " ++ value.text
  | ret none => "  ret void"
  | unreachable => "  unreachable"

end Terminator

end ShaderLang.Ir
