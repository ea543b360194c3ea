import ShaderLang.Proofs.Reading

/-!
# The variables of a program

All declarations of variables in a program, wherever they stand, in the order of the text: global
variables, formal parameters, what a `for` loop begins with, and what is declared among statements.
-/

namespace ShaderLang

/-- The variables that a `for` loop begins with. -/
def ForInit.variables : ForInit → List VarDecl
  | .expr _ => []
  | .declare v => [v]

mutual

/-- The variables declared in a statement. -/
def Stmt.variables : Stmt → List VarDecl
  | .expr .. | .empty _ | .breakStmt _ | .continueStmt _ | .returnStmt .. => []
  | .declare v => [v]
  | .block _ body => Stmt.allVariables body
  | .ifThen _ _ ifTrue => ifTrue.variables
  | .ifElse _ _ ifTrue ifFalse => ifTrue.variables ++ ifFalse.variables
  | .whileLoop _ _ body => body.variables
  | .forLoop _ init _ _ body => init.toList.flatMap ForInit.variables ++ body.variables
  | .switch _ _ arms => Stmt.armVariables arms

/-- The variables declared in statements. -/
def Stmt.allVariables : List Stmt → List VarDecl
  | [] => []
  | s :: rest => s.variables ++ Stmt.allVariables rest

/-- The variables declared in the arms of a `switch`. -/
def Stmt.armVariables : List (Arm (List Stmt)) → List VarDecl
  | [] => []
  | ⟨_, body, _⟩ :: rest => Stmt.allVariables body ++ Stmt.armVariables rest

end

/-- The variables of a declaration: itself, or the formal parameters of a function and what is
declared in its body. -/
def Decl.variables : Decl → List VarDecl
  | .var v => [v]
  | .fn f => f.formals ++ Stmt.allVariables f.body.stmts

/-- The variables of a program. -/
def Program.variables (p : Program) : List VarDecl :=
  p.flatMap Decl.variables

/-! ## Variables of a program that was read -/

theorem ForInit.AsRead.of_mem_variables {init : ForInit} (h : init.AsRead) {v : VarDecl}
    (hv : v ∈ init.variables) : v.AsRead := by
  cases init with
  | expr e => cases hv
  | declare w =>
    obtain rfl := List.mem_singleton.mp hv
    exact h

mutual

theorem Stmt.AsRead.of_mem_variables {s : Stmt} (h : s.AsRead) {v : VarDecl}
    (hv : v ∈ s.variables) : v.AsRead := by
  match s with
  | .expr .. | .empty _ | .breakStmt _ | .continueStmt _ | .returnStmt .. => cases hv
  | .declare w =>
    obtain rfl := List.mem_singleton.mp hv
    exact h
  | .block _ body => exact Stmt.AllAsRead.of_mem_allVariables h hv
  | .ifThen _ _ ifTrue => exact Stmt.AsRead.of_mem_variables h.2 hv
  | .ifElse _ _ ifTrue ifFalse =>
    rcases List.mem_append.mp hv with hv | hv
    · exact Stmt.AsRead.of_mem_variables h.2.1 hv
    · exact Stmt.AsRead.of_mem_variables h.2.2 hv
  | .whileLoop _ _ body => exact Stmt.AsRead.of_mem_variables h.2 hv
  | .forLoop _ init _ _ body =>
    rcases List.mem_append.mp hv with hv | hv
    · obtain ⟨i, hi, hv⟩ := List.mem_flatMap.mp hv
      exact (h.1 i (Option.mem_toList.mp hi)).of_mem_variables hv
    · exact Stmt.AsRead.of_mem_variables h.2.2.2 hv
  | .switch _ _ arms => exact Stmt.ArmsAsRead.of_mem_armVariables h.2 hv

theorem Stmt.AllAsRead.of_mem_allVariables {ss : List Stmt} (h : Stmt.AllAsRead ss) {v : VarDecl}
    (hv : v ∈ Stmt.allVariables ss) : v.AsRead := by
  match ss with
  | [] => cases hv
  | s :: rest =>
    rcases List.mem_append.mp hv with hv | hv
    · exact Stmt.AsRead.of_mem_variables h.1 hv
    · exact Stmt.AllAsRead.of_mem_allVariables h.2 hv

theorem Stmt.ArmsAsRead.of_mem_armVariables {arms : List (Arm (List Stmt))}
    (h : Stmt.ArmsAsRead arms) {v : VarDecl} (hv : v ∈ Stmt.armVariables arms) : v.AsRead := by
  match arms with
  | [] => cases hv
  | ⟨_, body, _⟩ :: rest =>
    rcases List.mem_append.mp hv with hv | hv
    · exact Stmt.AllAsRead.of_mem_allVariables h.1 hv
    · exact Stmt.ArmsAsRead.of_mem_armVariables h.2 hv

end

theorem Decl.AsRead.of_mem_variables {d : Decl} (h : d.AsRead) {v : VarDecl}
    (hv : v ∈ d.variables) : v.AsRead := by
  cases d with
  | var w =>
    obtain rfl := List.mem_singleton.mp hv
    exact h
  | fn f =>
    rcases List.mem_append.mp hv with hv | hv
    · exact h.formals v hv
    · exact h.body.of_mem_allVariables hv

theorem Program.AsRead.of_mem_variables {p : Program} (h : p.AsRead) {v : VarDecl}
    (hv : v ∈ p.variables) : v.AsRead := by
  obtain ⟨d, hd, hv⟩ := List.mem_flatMap.mp hv
  exact (h d hd).of_mem_variables hv

end ShaderLang
