import ShaderLang.Proofs.ProgramTotal

/-!
# Distinct labels

The labels of each `switch` in a statement without findings have distinct values: the checker
compares each one with those before it, and reads its value as the lowering does.
-/

namespace ShaderLang

/-- The value of the label of an arm, if it has one and that is an integer constant. -/
def Arm.value? {Body : Type} (arm : Arm Body) : Option Int64 :=
  arm.label.bind Expr.constInt?

mutual

/-- The labels of each `switch` in the statement have distinct values. -/
def Stmt.HasDistinctLabels : Stmt → Prop
  | .switch _ _ arms => (arms.filterMap Arm.value?).Nodup ∧ Stmt.ArmsHaveDistinctLabels arms
  | .block _ body => Stmt.AllHaveDistinctLabels body
  | .ifThen _ _ ifTrue => ifTrue.HasDistinctLabels
  | .ifElse _ _ ifTrue ifFalse => ifTrue.HasDistinctLabels ∧ ifFalse.HasDistinctLabels
  | .whileLoop _ _ body | .forLoop _ _ _ _ body => body.HasDistinctLabels
  | .expr .. | .empty _ | .declare _ | .breakStmt _ | .continueStmt _ | .returnStmt .. => True

def Stmt.AllHaveDistinctLabels : List Stmt → Prop
  | [] => True
  | s :: rest => s.HasDistinctLabels ∧ Stmt.AllHaveDistinctLabels rest

def Stmt.ArmsHaveDistinctLabels : List (Arm (List Stmt)) → Prop
  | [] => True
  | ⟨_, body, _⟩ :: rest => Stmt.AllHaveDistinctLabels body ∧ Stmt.ArmsHaveDistinctLabels rest

end

/-- The labels of each `switch` in a declaration have distinct values. -/
def Decl.HasDistinctLabels : Decl → Prop
  | .var _ => True
  | .fn f => Stmt.AllHaveDistinctLabels f.body.stmts

namespace Check

/-- Labels that are neither repeated nor seen before. -/
theorem nodup_of_labels {Body : Type} {c : SymbolTable} {seen : List Int64} {hasDefault : Bool}
    {arms : List (Arm Body)} (h : (labels c seen hasDefault arms).findings = []) :
    (arms.filterMap Arm.value?).Nodup ∧ ∀ value ∈ arms.filterMap Arm.value?, value ∉ seen := by
  induction arms generalizing seen hasDefault with
  | nil => simp
  | cons arm rest ih =>
    rw [labels] at h
    split at h
    · next hnone =>
      have hvalue : arm.value? = none := by rw [Arm.value?, hnone]; rfl
      rw [List.filterMap_cons_none hvalue]
      exact ih (List.append_eq_nil_iff.mp h).2
    · next label hlabel =>
      split at h
      · next value hconst =>
        have hvalue : arm.value? = some value := by rw [Arm.value?, hlabel]; exact hconst
        simp only [Report.findings_bind, List.append_eq_nil_iff,
          Report.findings_noteIf_eq_nil] at h
        obtain ⟨hnodup, hrest⟩ := ih h.2
        have hnew : value ∉ seen := by simpa using h.1
        rw [List.filterMap_cons_some hvalue]
        constructor
        · apply List.nodup_cons.mpr
          refine ⟨?_, hnodup⟩
          intro hmem
          exact hrest value hmem List.mem_cons_self
        · intro other hother
          rcases List.mem_cons.mp hother with rfl | hother
          · exact hnew
          · intro hmem
            exact hrest other hother (List.mem_cons_of_mem _ hmem)
      · simp [Report.note] at h

mutual

theorem CleanStmt.hasDistinctLabels {c : SymbolTable} {context : Context} {s : Stmt}
    (h : CleanStmt context c s) : s.HasDistinctLabels := by
  match s with
  | .switch _ _ arms =>
    obtain ⟨-, -, hlabels, harms⟩ := cleanStmt_switch h
    exact ⟨(nodup_of_labels hlabels).1, CleanArms.haveDistinctLabels harms⟩
  | .block _ body => exact CleanStmts.haveDistinctLabels (cleanStmt_block.mp h)
  | .ifThen _ _ ifTrue =>
    rw [Stmt.HasDistinctLabels]
    exact CleanStmt.hasDistinctLabels (cleanStmt_ifThen.mp h).2
  | .ifElse _ _ ifTrue ifFalse =>
    obtain ⟨-, htrue, hfalse⟩ := cleanStmt_ifElse.mp h
    exact ⟨CleanStmt.hasDistinctLabels htrue, CleanStmt.hasDistinctLabels hfalse⟩
  | .whileLoop _ _ body =>
    rw [Stmt.HasDistinctLabels]
    exact CleanStmt.hasDistinctLabels (cleanStmt_whileLoop.mp h).2
  | .forLoop _ _ _ _ body =>
    obtain ⟨-, -, -, hbody⟩ := cleanStmt_forLoop h
    rw [Stmt.HasDistinctLabels]
    exact CleanStmt.hasDistinctLabels hbody
  | .expr .. | .empty _ | .declare _ | .breakStmt _ | .continueStmt _ | .returnStmt .. => trivial

theorem CleanStmts.haveDistinctLabels {c : SymbolTable} {context : Context} {body : List Stmt}
    (h : CleanStmts context c body) : Stmt.AllHaveDistinctLabels body := by
  match body with
  | [] => trivial
  | s :: rest =>
    obtain ⟨hs, hrest⟩ := cleanStmts_cons.mp h
    exact ⟨CleanStmt.hasDistinctLabels hs, CleanStmts.haveDistinctLabels hrest⟩

theorem CleanArms.haveDistinctLabels {c : SymbolTable} {context : Context}
    {arms : List (Arm (List Stmt))} (h : CleanArms context c arms) :
    Stmt.ArmsHaveDistinctLabels arms := by
  match arms with
  | [] => trivial
  | ⟨_, body, _⟩ :: rest =>
    obtain ⟨hbody, hrest⟩ := cleanArms_cons.mp h
    exact ⟨CleanStmts.haveDistinctLabels hbody, CleanArms.haveDistinctLabels hrest⟩

end

theorem CleanProgram.haveDistinctLabels {c : SymbolTable} {p : Program} (h : CleanProgram c p) :
    ∀ d ∈ p, d.HasDistinctLabels := by
  induction p generalizing c with
  | nil => simp
  | cons d rest ih =>
    obtain ⟨hd, hrest⟩ := cleanProgram_cons h
    intro d' hd'
    rcases List.mem_cons.mp hd' with rfl | hd'
    · cases d' with
      | var v => trivial
      | fn f => exact CleanStmts.haveDistinctLabels (CleanFn.body hd)
    · exact ih hrest d' hd'

end Check

end ShaderLang
