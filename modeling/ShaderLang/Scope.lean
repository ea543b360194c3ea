import ShaderLang.Ir.Value
import ShaderLang.Syntax.Program

/-!
# Scopes

A symbol table is a stack of scopes, of which the last one, the global scope, always stays. A name
means what the innermost scope that knows it says. The checker and the lowering each walk a program
with a table of their own; only the lowering gives its symbols a storage.
-/

namespace ShaderLang

/-- Where the lowering keeps what a symbol stands for. -/
inductive Storage where
  /-- The address of a variable. -/
  | address (value : Ir.Value)
  /-- The name of a generated function. -/
  | function (name : String)

/-- A declared name. -/
structure Symbol where
  decl : Decl
  storage : Option Storage

namespace Symbol

/-- The symbol of a variable without storage. -/
def ofVar (v : VarDecl) : Symbol :=
  ⟨.var v, none⟩

/-- The symbol of a function without storage. -/
def ofFn (f : FnDecl) : Symbol :=
  ⟨.fn f, none⟩

/-- The symbol with a storage. -/
def withStorage (s : Symbol) (storage : Storage) : Symbol :=
  { s with storage := some storage }

/-- The name. -/
def name (s : Symbol) : String :=
  s.decl.name.name

/-- Where the name is declared. -/
def span (s : Symbol) : Span :=
  s.decl.name.span

/-- The type of a variable, or the type that a function returns. -/
def ty (s : Symbol) : Ty :=
  match s.decl with
  | .var v => v.ty
  | .fn f => f.returnTy

/-- The declaration, if it is that of a variable. -/
def var? (s : Symbol) : Option VarDecl :=
  match s.decl with
  | .var v => some v
  | .fn _ => none

/-- The declaration, if it is that of a function. -/
def fn? (s : Symbol) : Option FnDecl :=
  match s.decl with
  | .fn f => some f
  | .var _ => none

end Symbol

/-- The names declared between the same two braces; no two of its symbols have one name. -/
structure Scope where
  symbols : List Symbol

namespace Scope

/-- A scope without names. -/
def empty : Scope :=
  ⟨[]⟩

/-- The symbol of a name. -/
def find? (s : Scope) (name : String) : Option Symbol :=
  s.symbols.find? (·.name == name)

/-- Adds a symbol. It takes the place of one with the same name. -/
def insert (s : Scope) (symbol : Symbol) : Scope :=
  ⟨symbol :: s.symbols.filter (·.name != symbol.name)⟩

/-- The number of names. -/
def size (s : Scope) : Nat :=
  s.symbols.length

@[simp]
theorem find?_empty (name : String) : empty.find? name = none :=
  rfl

theorem find?_insert (s : Scope) (symbol : Symbol) (name : String) :
    (s.insert symbol).find? name = if symbol.name = name then some symbol else s.find? name := by
  by_cases h : symbol.name = name
  · simp [find?, insert, h]
  · simp only [find?, insert, List.find?_cons, h, if_false, List.find?_filter]
    have : (symbol.name == name) = false := by simpa using h
    simp only [this]
    congr 1
    funext t
    by_cases ht : t.name = name
    · simp [ht, Ne.symm h]
    · simp [ht]

end Scope

/-- A stack of scopes: the innermost one, and those around it. -/
structure SymbolTable where
  inner : Scope
  outer : List Scope

namespace SymbolTable

/-- The global scope alone, without names. -/
def empty : SymbolTable :=
  ⟨.empty, []⟩

/-- Opens a scope. -/
def push (t : SymbolTable) : SymbolTable :=
  ⟨.empty, t.inner :: t.outer⟩

/-- Closes the innermost scope, which is given back with the rest. The global scope stays. -/
def pop? (t : SymbolTable) : Option (Scope × SymbolTable) :=
  match t.outer with
  | [] => none
  | next :: outer => some (t.inner, ⟨next, outer⟩)

/-- Whether only the global scope is open. -/
def isGlobal (t : SymbolTable) : Bool :=
  t.outer.isEmpty

/-- Declares a symbol in the innermost scope. -/
def declare (t : SymbolTable) (symbol : Symbol) : SymbolTable :=
  { t with inner := t.inner.insert symbol }

/-- The symbol that a declaration of this name in the innermost scope would replace. -/
def conflict? (t : SymbolTable) (name : String) : Option Symbol :=
  t.inner.find? name

/-- What a name means here. -/
def lookup? (t : SymbolTable) (name : String) : Option Symbol :=
  (t.inner :: t.outer).findSome? (·.find? name)

@[simp]
theorem lookup?_empty (name : String) : empty.lookup? name = none := by
  simp [lookup?, empty]

@[simp]
theorem lookup?_push (t : SymbolTable) (name : String) : t.push.lookup? name = t.lookup? name := by
  rw [lookup?, push, List.findSome?_cons, Scope.find?_empty]
  rfl

theorem lookup?_declare (t : SymbolTable) (symbol : Symbol) (name : String) :
    (t.declare symbol).lookup? name = if symbol.name = name then some symbol else t.lookup? name := by
  simp only [lookup?, declare]
  rw [List.findSome?_cons, List.findSome?_cons, Scope.find?_insert]
  by_cases h : symbol.name = name <;> simp [h]

@[simp]
theorem pop?_push (t : SymbolTable) : t.push.pop? = some (.empty, t) :=
  rfl

end SymbolTable

end ShaderLang
