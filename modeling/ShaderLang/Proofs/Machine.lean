import ShaderLang.Ir.Inst
import ShaderLang.Syntax.Expr

/-!
# Running instructions

What instructions do to the temporary values and to the memory of a running function. Every
instruction does something in every state: where its operands are of the wrong kind, or were never
written, its result is undefined, a store that goes nowhere changes nothing, and what is computed
from an undefined value is undefined again.

Arithmetic and comparisons of scalars are a parameter (`Arithmetic`), and so is what a call gives and
does to the global variables (`Machine`).
-/

namespace ShaderLang.Ir

/-! ## Data -/

/-- What an address begins with: a global variable or a slot. -/
inductive Root where
  | global (name : String)
  | slot (index : Nat)
  deriving DecidableEq

/-- What an operand stands for. -/
inductive Datum where
  | int (n : Int64)
  | float (x : Float)
  | bool (b : Bool)
  /-- A vector; the lanes that were never written are not there. -/
  | vector (lanes : List (Option Float))
  | array (elements : List Datum)
  /-- The address of a variable, or of an element of an element of it and so on. -/
  | address (root : Root) (path : List Int64)
  | undefined
  deriving Inhabited

namespace Datum

/-- The lanes of a vector; an undefined one has none yet. -/
def lanes : Datum → List (Option Float)
  | vector lanes => lanes
  | _ => []

/-- What a lane holds that the value is written to. -/
def toLane : Datum → Option Float
  | float x => some x
  | _ => none

/-- What is read from a lane. -/
def ofLane : Option Float → Datum
  | some x => float x
  | none => undefined

/-- One lane of a vector. -/
def lane (d : Datum) (k : Nat) : Datum :=
  ofLane (d.lanes[k]?.join)

/-- A vector with one lane replaced, or with one lane more. -/
def setLane (d value : Datum) (k : Nat) : Datum :=
  vector ((d.lanes ++ List.replicate (k + 1 - d.lanes.length) none).set k value.toLane)

/-- Some lanes of a vector. -/
def shuffle (d : Datum) (mask : List Nat) : Datum :=
  vector (mask.map (d.lanes[·]?.join))

/-- An operation on two integers. -/
def ints (f : Int64 → Int64 → Int64) : Datum → Datum → Datum
  | int a, int b => int (f a b)
  | _, _ => undefined

/-- An operation on what two lanes hold. -/
def onLanes (f : Float → Float → Float) : Option Float → Option Float → Option Float
  | some x, some y => some (f x y)
  | _, _ => none

/-- An operation on two floating-point numbers, or on two vectors lane by lane. -/
def floats (f : Float → Float → Float) : Datum → Datum → Datum
  | float a, float b => float (f a b)
  | vector a, vector b => vector (List.zipWith (onLanes f) a b)
  | _, _ => undefined

/-- An operation on two truth values. -/
def bools (f : Bool → Bool → Bool) : Datum → Datum → Datum
  | bool a, bool b => bool (f a b)
  | _, _ => undefined

/-- The contents of a new slot. An array is there with all its elements. -/
def fresh : Ty → Datum
  | .array element count => array (List.replicate count (fresh element))
  | _ => undefined

/-- The address of an element of the array at an address. -/
def element : Datum → Datum → Datum
  | address root path, int index => address root (path ++ [index])
  | _, _ => undefined

/-- The position in a list that an index means, if it is not negative. -/
def position? (index : Int64) : Option Nat :=
  if 0 ≤ index then some index.toNatClampNeg else none

/-- What a variable holds at the end of a path. -/
def atPath : Datum → List Int64 → Datum
  | d, [] => d
  | array elements, index :: path =>
    match (position? index).bind (elements[·]?) with
    | some element => element.atPath path
    | none => undefined
  | _, _ :: _ => undefined

/-- A variable with what it holds at the end of a path replaced, if the path leads somewhere. -/
def setAtPath (value : Datum) : Datum → List Int64 → Datum
  | _, [] => value
  | array elements, index :: path =>
    match position? index with
    | some k => array (elements.modify k (setAtPath value · path))
    | none => array elements
  | d, _ :: _ => d

end Datum

/-! ## Scalars -/

/-- Arithmetic and comparisons of scalars. -/
structure Arithmetic where
  ints : ArithOp → Int64 → Int64 → Int64
  floats : ArithOp → Float → Float → Float
  compareInts : CompareOp → Int64 → Int64 → Bool
  compareFloats : CompareOp → Float → Float → Bool

/-- Integers wrap around, and nothing compares to NaN. -/
def Arithmetic.native : Arithmetic where
  ints
    | .add => (· + ·)
    | .sub => (· - ·)
    | .mul => (· * ·)
    | .div => (· / ·)
  floats
    | .add => (· + ·)
    | .sub => (· - ·)
    | .mul => (· * ·)
    | .div => (· / ·)
  compareInts
    | .eq, a, b => a == b
    | .ne, a, b => a != b
    | .lt, a, b => a < b
    | .le, a, b => a ≤ b
    | .gt, a, b => b < a
    | .ge, a, b => b ≤ a
  compareFloats
    | .eq, x, y => x == y
    | .ne, x, y => x < y || y < x
    | .lt, x, y => x < y
    | .le, x, y => x ≤ y
    | .gt, x, y => y < x
    | .ge, x, y => y ≤ x

/-- What a binary instruction computes. -/
def BinaryOp.run (A : Arithmetic) : BinaryOp → Datum → Datum → Datum
  | .add => .ints (A.ints .add)
  | .sub => .ints (A.ints .sub)
  | .mul => .ints (A.ints .mul)
  | .sdiv => .ints (A.ints .div)
  | .fadd => .floats (A.floats .add)
  | .fsub => .floats (A.floats .sub)
  | .fmul => .floats (A.floats .mul)
  | .fdiv => .floats (A.floats .div)
  | .and => .bools (· && ·)
  | .or => .bools (· || ·)
  | .xor => .bools (· != ·)

/-- The relation that a comparison asks for. -/
def Predicate.relation : Predicate → CompareOp
  | .eq | .oeq => .eq
  | .ne | .one => .ne
  | .slt | .olt => .lt
  | .sle | .ole => .le
  | .sgt | .ogt => .gt
  | .sge | .oge => .ge

/-- What a comparison computes. Truth values are equal or not. -/
def Predicate.run (A : Arithmetic) (p : Predicate) : Datum → Datum → Datum
  | .int a, .int b => if p.isFloat then .undefined else .bool (A.compareInts p.relation a b)
  | .float x, .float y => if p.isFloat then .bool (A.compareFloats p.relation x y) else .undefined
  | .bool a, .bool b =>
    match p with
    | .eq => .bool (a == b)
    | .ne => .bool (a != b)
    | _ => .undefined
  | _, _ => .undefined

/-- What a conversion computes. -/
def Conversion.run : Conversion → Datum → Datum
  | .intToFloat, .int n => .float (floatOfInt n)
  | .floatToInt, .float x => .int (intOfFloat x)
  | .boolToInt, .bool b => .int (if b then 1 else 0)
  | .boolToFloat, .bool b => .float (if b then 1.0 else 0.0)
  | _, _ => .undefined

/-! ## States -/

/-- What outlives an expression: the contents of the variables, which are the global ones and the
slots in the order of their allocation, and the calls so far. -/
structure World where
  globals : String → Datum
  slots : List Datum
  calls : List (String × List Datum)

namespace World

/-- The contents of a whole variable. -/
def root (w : World) : Root → Datum
  | .global name => w.globals name
  | .slot index => w.slots[index]?.getD .undefined

/-- A whole variable is changed. -/
def modifyRoot (w : World) (f : Datum → Datum) : Root → World
  | .global name =>
    { w with globals := fun other => if other = name then f (w.globals name) else w.globals other }
  | .slot index => { w with slots := w.slots.modify index f }

/-- What is read at an address. -/
def read (w : World) : Datum → Datum
  | .address root path => (w.root root).atPath path
  | _ => .undefined

/-- A write to an address. -/
def write (w : World) (address value : Datum) : World :=
  match address with
  | .address root path => w.modifyRoot (Datum.setAtPath value · path) root
  | _ => w

/-- One slot more. -/
def alloc (w : World) (ty : Ty) : World :=
  { w with slots := w.slots ++ [Datum.fresh ty] }

end World

/-- A running function. -/
structure State where
  temps : Nat → Datum
  world : World

/-- A temporary value is given. -/
def State.set (s : State) (t : Nat) (d : Datum) : State :=
  { s with temps := fun other => if other = t then d else s.temps other }

/-- What instructions depend on besides the state: the arithmetic, the arguments of the function,
and what a call gives and does to the global variables. -/
structure Machine where
  arithmetic : Arithmetic
  params : String → Datum
  call : String → List Datum → (String → Datum) → Datum × (String → Datum)

namespace Machine

/-- Calls do nothing, and there are no arguments. -/
def idle : Machine where
  arithmetic := .native
  params _ := .undefined
  call _ _ globals := (.undefined, globals)

/-- What an operand stands for. -/
def read (m : Machine) (s : State) : Value → Datum
  | .temp index => s.temps index
  | .int n => .int n
  | .float x => .float x
  | .bool b => .bool b
  | .vector lanes => .vector (lanes.map some)
  | .undefined => .undefined
  | .param name => m.params name
  | .global name => .address (.global name) []
  | .function _ => .undefined

/-- What a call gives. -/
def result (m : Machine) (callee : String) (arguments : List Datum) (w : World) : Datum :=
  (m.call callee arguments w.globals).1

/-- What a call does. -/
def invoke (m : Machine) (callee : String) (arguments : List Datum) (w : World) : World :=
  { w with
    globals := (m.call callee arguments w.globals).2
    calls := w.calls ++ [(callee, arguments)] }

/-- The state after an instruction. -/
def run (m : Machine) (s : State) : Inst → State
  | .alloca result ty _ =>
    { s with world := s.world.alloc ty }.set result (.address (.slot s.world.slots.length) [])
  | .load result _ address => s.set result (s.world.read (m.read s address))
  | .store address value =>
    { s with world := s.world.write (m.read s address) (m.read s value) }
  | .binary result op _ left right =>
    s.set result (op.run m.arithmetic (m.read s left) (m.read s right))
  | .compare result predicate left right =>
    s.set result (predicate.run m.arithmetic (m.read s left) (m.read s right))
  | .convert result op value => s.set result (op.run (m.read s value))
  | .extractLane result vector lane => s.set result ((m.read s vector).lane lane)
  | .insertLane result vector value lane =>
    s.set result ((m.read s vector).setLane (m.read s value) lane)
  | .shuffle result vector mask => s.set result ((m.read s vector).shuffle mask)
  | .elementAddress result base index =>
    s.set result ((m.read s base).element (m.read s index))
  | .call result callee arguments =>
    let arguments := arguments.map (m.read s)
    let behind := { s with world := m.invoke callee arguments s.world }
    match result with
    | some result => behind.set result (m.result callee arguments s.world)
    | none => behind

/-- The state after several instructions. -/
def runAll (m : Machine) (code : List Inst) (s : State) : State :=
  code.foldl m.run s

variable (m : Machine)

@[simp]
theorem runAll_nil (s : State) : m.runAll [] s = s :=
  rfl

@[simp]
theorem runAll_cons (inst : Inst) (code : List Inst) (s : State) :
    m.runAll (inst :: code) s = m.runAll code (m.run s inst) :=
  rfl

@[simp]
theorem runAll_append (code code' : List Inst) (s : State) :
    m.runAll (code ++ code') s = m.runAll code' (m.runAll code s) :=
  List.foldl_append

end Machine

end ShaderLang.Ir
