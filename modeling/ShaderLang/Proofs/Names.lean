import ShaderLang.Proofs.Reading

/-!
# Declared names

Every name that a program declares is a name of the language: letters, digits and underscores
(`Program.isNamed_of_ofText`).
-/

namespace ShaderLang

/-- The name of a variable is a name. -/
def VarDecl.IsNamed (v : VarDecl) : Prop :=
  Token.IsName v.name.name

/-- What a `for` loop begins with declares a name, if anything. -/
def ForInit.IsNamed : ForInit → Prop
  | .expr _ => True
  | .declare v => v.IsNamed

mutual

/-- A statement declares names only. -/
def Stmt.IsNamed : Stmt → Prop
  | .declare v => v.IsNamed
  | .block _ body => Stmt.AllNamed body
  | .ifThen _ _ ifTrue => ifTrue.IsNamed
  | .ifElse _ _ ifTrue ifFalse => ifTrue.IsNamed ∧ ifFalse.IsNamed
  | .whileLoop _ _ body => body.IsNamed
  | .forLoop _ init _ _ body => (∀ i ∈ init, i.IsNamed) ∧ body.IsNamed
  | .switch _ _ arms => Stmt.ArmsNamed arms
  | .expr .. | .empty _ | .breakStmt _ | .continueStmt _ | .returnStmt .. => True

/-- Statements declare names only. -/
def Stmt.AllNamed : List Stmt → Prop
  | [] => True
  | s :: rest => s.IsNamed ∧ Stmt.AllNamed rest

/-- Arms declare names only. -/
def Stmt.ArmsNamed : List (Arm (List Stmt)) → Prop
  | [] => True
  | ⟨_, body, _⟩ :: rest => Stmt.AllNamed body ∧ Stmt.ArmsNamed rest

end

/-- A function and all that is declared in it have names. -/
structure FnDecl.IsNamed (f : FnDecl) : Prop where
  name : Token.IsName f.name.name
  formals : ∀ v ∈ f.formals, v.IsNamed
  body : Stmt.AllNamed f.body.stmts

/-- A declaration and all that is declared in it have names. -/
def Decl.IsNamed : Decl → Prop
  | .var v => v.IsNamed
  | .fn f => f.IsNamed

/-- All that a program declares has a name. -/
def Program.IsNamed (p : Program) : Prop :=
  ∀ d ∈ p, d.IsNamed

namespace Grammar

open Cursor Outcome

/-! ## Declarations and statements -/

theorem head_named (c : Cursor) (hc : c.Proper) :
    (head c).All fun d => Token.IsName d.name.name := by
  unfold head
  refine (qualifier_all c hc).bind fun q c₁ h₁ _ hc₁ => ?_
  refine (ty_all c₁ hc₁).bind fun t c₂ h₂ _ hc₂ => ?_
  exact hc₂.ident.map fun _ _ hname => hname

theorem varRest_named {d : Head} (hd : Token.IsName d.name.name) (hty : d.ty.isPlain = true)
    (c : Cursor) (hc : c.Proper) : (varRest d c).All VarDecl.IsNamed := by
  unfold varRest
  refine (arraySuffix_all hty c hc).bind fun t c₁ h₁ _ hc₁ => ?_
  refine (initializer_all c₁ hc₁).bind fun init c₂ h₂ _ hc₂ => ?_
  exact (hc₂.expect _).map fun _ _ _ => hd

theorem Outcome.All.and {bound : Nat} {α : Type} {P Q : α → Prop} {x : Outcome bound α}
    (hP : x.All P) (hQ : x.All Q) : x.All fun a => P a ∧ Q a := by
  cases x with
  | ok value next _ => exact ⟨⟨hP.1, hQ.1⟩, hP.2⟩
  | error => trivial

theorem varDecl_named (c : Cursor) (hc : c.Proper) : (varDecl c).All VarDecl.IsNamed := by
  unfold varDecl
  refine ((head_named c hc).and (head_all c hc)).bind fun d c₁ h₁ hd hc₁ => ?_
  exact (varRest_named hd.1 hd.2 c₁ hc₁).map fun _ _ hv => hv

theorem formal_named (c : Cursor) (hc : c.Proper) : (formal c).All VarDecl.IsNamed := by
  unfold formal
  refine ((head_named c hc).and (head_all c hc)).bind fun d c₁ h₁ hd hc₁ => ?_
  exact (arraySuffix_all hd.2 c₁ hc₁).map fun _ _ _ => hd.1

theorem forInit_named (c : Cursor) (hc : c.Proper) :
    (forInit c).All fun init => ∀ i ∈ init, i.IsNamed := by
  unfold forInit
  split
  · exact (hc.expect _).map fun _ _ _ => by simp
  · split
    · trivial
    · exact (varDecl_named c hc).map fun v _ hv => by simpa [ForInit.IsNamed] using hv
    · refine (expr_all c hc).bind fun e c₁ h₁ _ hc₁ => ?_
      exact (hc₁.expect _).map fun _ _ _ => by simp [ForInit.IsNamed]

mutual

theorem block_named (c : Cursor) (hc : c.Proper) :
    (block c).All fun b => Stmt.AllNamed b.stmts := by
  rw [block]
  refine (hc.expect _).bind fun _ c₁ h₁ _ hc₁ => ?_
  exact (blockBody_named c₁ hc₁).map fun _ _ hb => hb
  termination_by (c.left, 1)

theorem blockBody_named (c : Cursor) (hc : c.Proper) : (blockBody c).All Stmt.AllNamed := by
  rw [blockBody]
  split
  · exact (hc.expect _).map fun _ _ _ => trivial
  · split
    · trivial
    · refine (stmt_named c hc).bind fun first c₁ h₁ hf hc₁ => ?_
      exact (blockBody_named c₁ hc₁).map fun _ _ ho => ⟨hf, ho⟩
  termination_by (c.left, 3)

theorem stmt_named (c : Cursor) (hc : c.Proper) : (stmt c).All Stmt.IsNamed := by
  rw [stmt]
  split
  · trivial
  · exact (varDecl_named c hc).map fun _ _ hv => hv
  · dsimp only
    split
    · exact (block_named c hc).map fun _ _ hb => hb
    · exact (hc.expect _).map fun _ _ _ => trivial
    · refine (hc.advance _).bind fun _ c₁ h₁ _ hc₁ => ?_
      refine (test_all c₁ hc₁).bind fun condition c₂ h₂ _ hc₂ => ?_
      refine (stmt_named c₂ hc₂).bind fun ifTrue c₃ h₃ ht hc₃ => ?_
      split
      · refine (hc₃.advance _).bind fun _ c₄ h₄ _ hc₄ => ?_
        exact (stmt_named c₄ hc₄).map fun _ _ hf => ⟨ht, hf⟩
      · exact ⟨ht, hc₃⟩
    · refine (hc.advance _).bind fun _ c₁ h₁ _ hc₁ => ?_
      refine (test_all c₁ hc₁).bind fun condition c₂ h₂ _ hc₂ => ?_
      exact (stmt_named c₂ hc₂).map fun _ _ hb => hb
    · refine (hc.advance _).bind fun _ c₁ h₁ _ hc₁ => ?_
      refine (hc₁.expect _).bind fun _ c₂ h₂ _ hc₂ => ?_
      refine (forInit_named c₂ hc₂).bind fun init c₃ h₃ hi hc₃ => ?_
      refine (exprUnless_all _ c₃ hc₃).bind fun condition c₄ h₄ _ hc₄ => ?_
      refine (hc₄.expect _).bind fun _ c₅ h₅ _ hc₅ => ?_
      refine (exprUnless_all _ c₅ hc₅).bind fun step c₆ h₆ _ hc₆ => ?_
      refine (hc₆.expect _).bind fun _ c₇ h₇ _ hc₇ => ?_
      exact (stmt_named c₇ hc₇).map fun _ _ hb => ⟨hi, hb⟩
    · refine (hc.advance _).bind fun _ c₁ h₁ _ hc₁ => ?_
      refine (test_all c₁ hc₁).bind fun value c₂ h₂ _ hc₂ => ?_
      refine (hc₂.expect _).bind fun _ c₃ h₃ _ hc₃ => ?_
      exact (arms_named c₃ hc₃).map fun _ _ ha => ha
    · refine (hc.advance _).bind fun _ c₁ h₁ _ hc₁ => ?_
      exact (hc₁.expect _).map fun _ _ _ => trivial
    · refine (hc.advance _).bind fun _ c₁ h₁ _ hc₁ => ?_
      exact (hc₁.expect _).map fun _ _ _ => trivial
    · refine (hc.advance _).bind fun _ c₁ h₁ _ hc₁ => ?_
      refine (exprUnless_all _ c₁ hc₁).bind fun value c₂ h₂ _ hc₂ => ?_
      exact (hc₂.expect _).map fun _ _ _ => trivial
    · refine (expr_all c hc).bind fun e c₁ h₁ _ hc₁ => ?_
      exact (hc₁.expect _).map fun _ _ _ => trivial
  termination_by (c.left, 2)

theorem arms_named (c : Cursor) (hc : c.Proper) : (arms c).All Stmt.ArmsNamed := by
  rw [arms]
  split
  · exact (hc.expect _).map fun _ _ _ => trivial
  · refine (label_all c hc).bind fun label c₁ h₁ _ hc₁ => ?_
    refine (armBody_named c₁ hc₁).bind fun body c₂ h₂ hb hc₂ => ?_
    exact (arms_named c₂ hc₂).map fun _ _ ho => ⟨hb, ho⟩
  termination_by (c.left, 0)

theorem armBody_named (c : Cursor) (hc : c.Proper) : (armBody c).All Stmt.AllNamed := by
  rw [armBody]
  split
  · exact ⟨trivial, hc⟩
  · refine (stmt_named c hc).bind fun first c₁ h₁ hf hc₁ => ?_
    exact (armBody_named c₁ hc₁).map fun _ _ ho => ⟨hf, ho⟩
  termination_by (c.left, 3)

end

/-! ## Programs -/

theorem formalList_named (c : Cursor) (hc : c.Proper) :
    (formalList c).All fun vs => ∀ v ∈ vs, v.IsNamed := by
  rw [formalList]
  refine (formal_named c hc).bind fun first c₁ h₁ hf hc₁ => ?_
  split
  · refine (hc₁.advance _).bind fun _ c₂ h₂ _ hc₂ => ?_
    exact (formalList_named c₂ hc₂).map fun others _ ho => List.forall_mem_cons.mpr ⟨hf, ho⟩
  · exact ⟨by simpa using hf, hc₁⟩
  termination_by c.left

theorem formals_named (c : Cursor) (hc : c.Proper) :
    (formals c).All fun vs => ∀ v ∈ vs, v.IsNamed := by
  unfold formals
  split
  · exact ⟨by simp, hc⟩
  · split
    · split
      · trivial
      · split
        · exact (hc.advance _).map fun _ _ _ => by simp
        · exact (formalList_named c hc).map fun _ _ h => h
    · exact (formalList_named c hc).map fun _ _ h => h

theorem fnRest_named {d : Head} (hd : Token.IsName d.name.name) (c : Cursor) (hc : c.Proper) :
    (fnRest d c).All FnDecl.IsNamed := by
  unfold fnRest
  refine (hc.expect _).bind fun _ c₁ h₁ _ hc₁ => ?_
  refine (formals_named c₁ hc₁).bind fun formals c₂ h₂ hformals hc₂ => ?_
  refine (hc₂.expect _).bind fun _ c₃ h₃ _ hc₃ => ?_
  exact (block_named c₃ hc₃).map fun _ _ hb => ⟨hd, hformals, hb⟩

theorem decl_named (c : Cursor) (hc : c.Proper) : (decl c).All Decl.IsNamed := by
  unfold decl
  refine ((head_named c hc).and (head_all c hc)).bind fun d c₁ h₁ hd hc₁ => ?_
  split
  · split
    · trivial
    · exact (fnRest_named hd.1 c₁ hc₁).map fun _ _ hf => hf
  · exact (varRest_named hd.1 hd.2 c₁ hc₁).map fun _ _ hv => hv

theorem decls_named (c : Cursor) (hc : c.Proper) : (decls c).All Program.IsNamed := by
  rw [decls]
  split
  · exact ⟨by simp [Program.IsNamed], hc⟩
  · refine (decl_named c hc).bind fun first c₁ h₁ hf hc₁ => ?_
    exact (decls_named c₁ hc₁).map fun others _ ho => List.forall_mem_cons.mpr ⟨hf, ho⟩
  termination_by c.left

end Grammar

/-- All that a program declares that was read has a name of the language. -/
theorem Program.isNamed_of_ofText {source : String} {p : Program} (h : ofText? source = .ok p) :
    p.IsNamed := by
  unfold ofText? at h
  split at h
  · cases h
  · next c hc =>
    have hall := Grammar.decls_named c (Grammar.Cursor.named_of_ofText? hc)
    revert h hall
    cases Grammar.decls c with
    | ok value next left_lt =>
      intro h hall
      cases h
      exact hall.1
    | error => intro h; cases h

end ShaderLang
