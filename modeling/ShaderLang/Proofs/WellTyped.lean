import Mathlib.Data.List.Forall2
import ShaderLang.Ir.Module

/-!
# Well-typed modules

When a module type-checks. The temporary values of a function are given *kinds*, in the order of
their indices: a temporary value is a value of a type, or the address of something of a type.
Unspecified contents are of any type; a global variable is an address, and nothing but a call names
a function.
-/

namespace ShaderLang.Ir

/-- What an operand is. -/
inductive Kind where
  | value (ty : Ty)
  | address (pointee : Ty)
  deriving DecidableEq

/-- The types of what the functions of a module can name. -/
structure Interface where
  globals : String → Option Ty
  functions : String → Option (List Ty × Ty)

def Module.interface (m : Module) : Interface where
  globals name := (m.global? name).map Global.ty
  functions name := (m.function? name).map fun f => (f.params.map Prod.snd, f.returnTy)

/-- What a function is typed in. -/
structure TypingEnv where
  interface : Interface
  params : List (String × Ty)
  returnTy : Ty

inductive Value.HasKind (env : TypingEnv) (kinds : List Kind) : Value → Kind → Prop where
  | temp {index : Nat} {kind : Kind} (h : kinds[index]? = some kind) :
      HasKind env kinds (.temp index) kind
  | int (n : Int64) : HasKind env kinds (.int n) (.value .i32)
  | float (x : Float) : HasKind env kinds (.float x) (.value .f32)
  | bool (b : Bool) : HasKind env kinds (.bool b) (.value .i1)
  | vector (lanes : List Float) :
      HasKind env kinds (.vector lanes) (.value (.vector .f32 lanes.length))
  | undefined (ty : Ty) : HasKind env kinds .undefined (.value ty)
  | param {name : String} {ty : Ty} (h : env.params.lookup name = some ty) :
      HasKind env kinds (.param name) (.value ty)
  | global {name : String} {ty : Ty} (h : env.interface.globals name = some ty) :
      HasKind env kinds (.global name) (.address ty)

/-- The types that an operation applies to. -/
def BinaryOp.AppliesTo : BinaryOp → Ty → Prop
  | add, ty | sub, ty | mul, ty | sdiv, ty => ty = .i32
  | fadd, ty | fsub, ty | fmul, ty | fdiv, ty => ty = .f32 ∨ ∃ lanes, ty = .vector .f32 lanes
  | and, ty | or, ty | xor, ty => ty = .i1

/-- The types whose values a predicate compares. -/
def Predicate.Compares (p : Predicate) (ty : Ty) : Prop :=
  if p.isFloat then ty = .f32 else ty = .i32 ∨ ty = .i1

namespace Conversion

def source : Conversion → Ty
  | intToFloat => .i32
  | floatToInt => .f32
  | boolToInt | boolToFloat => .i1

def target : Conversion → Ty
  | intToFloat | boolToFloat => .f32
  | floatToInt | boolToInt => .i32

end Conversion

section

variable (env : TypingEnv) (kinds : List Kind)

inductive Inst.Typed : Inst → Prop where
  | alloca {result : Nat} {ty : Ty} {name : String} (h : kinds[result]? = some (.address ty)) :
      Typed (.alloca result ty name)
  | load {result : Nat} {ty : Ty} {address : Value} (ha : address.HasKind env kinds (.address ty))
      (h : kinds[result]? = some (.value ty)) : Typed (.load result ty address)
  | store {address value : Value} {ty : Ty} (ha : address.HasKind env kinds (.address ty))
      (hv : value.HasKind env kinds (.value ty)) : Typed (.store address value)
  | binary {result : Nat} {op : BinaryOp} {ty : Ty} {left right : Value} (hop : op.AppliesTo ty)
      (hl : left.HasKind env kinds (.value ty)) (hr : right.HasKind env kinds (.value ty))
      (h : kinds[result]? = some (.value ty)) : Typed (.binary result op ty left right)
  | compare {result : Nat} {predicate : Predicate} {ty : Ty} {left right : Value}
      (hp : predicate.Compares ty) (hl : left.HasKind env kinds (.value ty))
      (hr : right.HasKind env kinds (.value ty)) (h : kinds[result]? = some (.value .i1)) :
      Typed (.compare result predicate left right)
  | convert {result : Nat} {op : Conversion} {value : Value}
      (hv : value.HasKind env kinds (.value op.source))
      (h : kinds[result]? = some (.value op.target)) : Typed (.convert result op value)
  | extractLane {result lane lanes : Nat} {element : Ty} {vector : Value}
      (hv : vector.HasKind env kinds (.value (.vector element lanes))) (hlane : lane < lanes)
      (h : kinds[result]? = some (.value element)) : Typed (.extractLane result vector lane)
  | insertLane {result lane lanes : Nat} {element : Ty} {vector value : Value}
      (hv : vector.HasKind env kinds (.value (.vector element lanes)))
      (hx : value.HasKind env kinds (.value element)) (hlane : lane < lanes)
      (h : kinds[result]? = some (.value (.vector element lanes))) :
      Typed (.insertLane result vector value lane)
  | shuffle {result lanes : Nat} {element : Ty} {vector : Value} {mask : List Nat}
      (hv : vector.HasKind env kinds (.value (.vector element lanes)))
      (hmask : ∀ lane ∈ mask, lane < lanes)
      (h : kinds[result]? = some (.value (.vector element mask.length))) :
      Typed (.shuffle result vector mask)
  | elementAddress {result count : Nat} {element : Ty} {base index : Value}
      (hb : base.HasKind env kinds (.address (.array element count)))
      (hi : index.HasKind env kinds (.value .i32))
      (h : kinds[result]? = some (.address element)) : Typed (.elementAddress result base index)
  | call {result : Nat} {callee : String} {arguments : List Value} {params : List Ty} {ty : Ty}
      (hcallee : env.interface.functions callee = some (params, ty)) (hty : ty ≠ .void)
      (ha : List.Forall₂ (fun v t => v.HasKind env kinds (.value t)) arguments params)
      (h : kinds[result]? = some (.value ty)) : Typed (.call (some result) callee arguments)
  | callVoid {callee : String} {arguments : List Value} {params : List Ty}
      (hcallee : env.interface.functions callee = some (params, .void))
      (ha : List.Forall₂ (fun v t => v.HasKind env kinds (.value t)) arguments params) :
      Typed (.call none callee arguments)

inductive Terminator.Typed : Terminator → Prop where
  | branch (target : Nat) : Typed (.branch target)
  | condBranch {condition : Value} {ifTrue ifFalse : Nat}
      (h : condition.HasKind env kinds (.value .i1)) : Typed (.condBranch condition ifTrue ifFalse)
  | switch {value : Value} {default : Nat} {cases : List (Int64 × Nat)}
      (h : value.HasKind env kinds (.value .i32)) : Typed (.switch value default cases)
  | ret {value : Value} (hty : env.returnTy ≠ .void)
      (h : value.HasKind env kinds (.value env.returnTy)) : Typed (.ret (some value))
  | retVoid (hty : env.returnTy = .void) : Typed (.ret none)
  | unreachable : Typed .unreachable

structure Block.Typed (block : Block) : Prop where
  insts : ∀ inst ∈ block.insts, inst.Typed env kinds
  terminator : ∀ t ∈ block.terminator, t.Typed env kinds

end

/-- Every instruction and every terminator of a function type-checks under these kinds. -/
def Function.Typed (i : Interface) (kinds : List Kind) (f : Function) : Prop :=
  ∀ block ∈ f.blocks, block.Typed ⟨i, f.params, f.returnTy⟩ kinds

/-- The initial value of a global variable is a constant of its type. -/
def Global.Typed (i : Interface) (g : Global) : Prop :=
  ∀ v ∈ g.init, v.isConstant = true ∧ v.HasKind ⟨i, [], .void⟩ [] (.value g.ty)

structure Module.TypedIn (i : Interface) (m : Module) : Prop where
  functions : ∀ f ∈ m.functions, ∃ kinds, f.Typed i kinds
  globals : ∀ g ∈ m.globals, g.Typed i

/-- Each function of a module type-checks under some assignment of kinds, where what it names is in
the same module. -/
def Module.Typed (m : Module) : Prop :=
  m.TypedIn m.interface

/-! ## More temporary values -/

section

variable {env : TypingEnv} {kinds kinds' : List Kind}

theorem getElem?_of_isPrefix (h : kinds <+: kinds') {index : Nat} {kind : Kind}
    (hk : kinds[index]? = some kind) : kinds'[index]? = some kind := by
  obtain ⟨rest, rfl⟩ := h
  have hlt := (List.getElem?_eq_some_iff.mp hk).1
  rw [List.getElem?_append_left hlt]
  exact hk

theorem Value.HasKind.mono (h : kinds <+: kinds') {v : Value} {kind : Kind}
    (hv : v.HasKind env kinds kind) : v.HasKind env kinds' kind := by
  cases hv with
  | temp hk => exact .temp (getElem?_of_isPrefix h hk)
  | int n => exact .int n
  | float x => exact .float x
  | bool b => exact .bool b
  | vector lanes => exact .vector lanes
  | undefined ty => exact .undefined ty
  | param hp => exact .param hp
  | global hg => exact .global hg

theorem Value.forall₂_hasKind_mono (h : kinds <+: kinds') {vs : List Value} {ts : List Ty}
    (hv : List.Forall₂ (fun v t => v.HasKind env kinds (.value t)) vs ts) :
    List.Forall₂ (fun v t => v.HasKind env kinds' (.value t)) vs ts := by
  induction hv with
  | nil => exact .nil
  | cons hhead _ ih => exact .cons (hhead.mono h) ih

theorem Inst.Typed.mono (h : kinds <+: kinds') {inst : Inst} (hi : inst.Typed env kinds) :
    inst.Typed env kinds' := by
  have hk : ∀ {index kind}, kinds[index]? = some kind → kinds'[index]? = some kind :=
    getElem?_of_isPrefix h
  cases hi with
  | alloca hr => exact .alloca (hk hr)
  | load ha hr => exact .load (ha.mono h) (hk hr)
  | store ha hv => exact .store (ha.mono h) (hv.mono h)
  | binary hop hl hr hres => exact .binary hop (hl.mono h) (hr.mono h) (hk hres)
  | compare hp hl hr hres => exact .compare hp (hl.mono h) (hr.mono h) (hk hres)
  | convert hv hr => exact .convert (hv.mono h) (hk hr)
  | extractLane hv hlane hr => exact .extractLane (hv.mono h) hlane (hk hr)
  | insertLane hv hx hlane hr => exact .insertLane (hv.mono h) (hx.mono h) hlane (hk hr)
  | shuffle hv hmask hr => exact .shuffle (hv.mono h) hmask (hk hr)
  | elementAddress hb hi hr => exact .elementAddress (hb.mono h) (hi.mono h) (hk hr)
  | call hc hty ha hr => exact .call hc hty (Value.forall₂_hasKind_mono h ha) (hk hr)
  | callVoid hc ha => exact .callVoid hc (Value.forall₂_hasKind_mono h ha)

theorem Terminator.Typed.mono (h : kinds <+: kinds') {t : Terminator} (ht : t.Typed env kinds) :
    t.Typed env kinds' := by
  cases ht with
  | branch target => exact .branch target
  | condBranch hc => exact .condBranch (hc.mono h)
  | switch hv => exact .switch (hv.mono h)
  | ret hty hv => exact .ret hty (hv.mono h)
  | retVoid hty => exact .retVoid hty
  | unreachable => exact .unreachable

theorem Block.Typed.mono (h : kinds <+: kinds') {block : Block} (hb : block.Typed env kinds) :
    block.Typed env kinds' where
  insts inst hi := (hb.insts inst hi).mono h
  terminator t ht := (hb.terminator t ht).mono h

end

end ShaderLang.Ir
