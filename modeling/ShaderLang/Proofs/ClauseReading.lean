import ShaderLang.Proofs.Clause
import ShaderLang.Proofs.PhraseReading

/-!
# Reading clauses

The rules for statements and declarations read clauses, and all of them: what `decls` reads is
a program on the tokens that it takes (`decls_covers`), and where the tokens of a program stand, up
to the end of the text, `decls` reads it (`ProgramClause.decls_gives`).
-/

namespace ShaderLang.Grammar

open Cursor Outcome

/-! ## What is read is a clause -/

theorem qualifier_covers (c : Cursor) :
    (qualifier c).Covers c fun ts q n => (ts = [] ∧ q = none ∧ n = c) ∨
      ∃ t qualifier, ts = [t] ∧ t = c.current ∧ q = some qualifier ∧
        t.kind.qualifier? = some qualifier := by
  unfold qualifier
  split
  · next q hq =>
    refine (c.advance_covers _).map ?_
    rintro _ _ n - ⟨rfl, rfl, -⟩
    exact .inr ⟨_, q, rfl, rfl, rfl, hq⟩
  · exact .ok (.inl ⟨rfl, rfl, rfl⟩)

theorem ty_covers (c : Cursor) :
    (ty c).Covers c fun ts target _ =>
      ∃ t, ts = [t] ∧ t = c.current ∧ t.kind.ty? = some target := by
  unfold ty
  split
  · next target ht =>
    refine (c.advance_covers _).map ?_
    rintro _ _ n - ⟨rfl, rfl, -⟩
    exact ⟨_, rfl, rfl, ht⟩
  · trivial

theorem head_covers (c : Cursor) : (head c).Covers c fun ts d _ => HeadClause ts d := by
  unfold head
  refine (qualifier_covers c).bind ?_
  intro ts q c₁ h₁ _ hq
  refine (ty_covers c₁).bind ?_
  rintro _ target c₂ h₂ - ⟨t, rfl, rfl, ht⟩
  refine c₂.ident_covers.map ?_
  rintro _ name c₃ - ⟨n, text, rfl, hn, rfl, -⟩
  rcases hq with ⟨rfl, rfl, rfl⟩ | ⟨t, qualifier, rfl, rfl, rfl, hq⟩
  · exact .plain ht hn
  · exact .qualified hq ht hn

theorem arraySuffix_covers (element : Ty) (c : Cursor) :
    (arraySuffix element c).Covers c fun ts target _ => ArrayClause element ts target := by
  unfold arraySuffix
  split
  · next ho =>
    refine (c.advance_covers _).bind ?_
    rintro _ _ c₁ h₁ - ⟨rfl, rfl, -⟩
    refine (c₁.choose_covers _ _).bind ?_
    rintro _ length c₂ h₂ - ⟨n, rfl, hn, -⟩
    refine (c₂.expect_covers _).map ?_
    rintro _ k c₃ - ⟨rfl, hk, -⟩
    split at hn
    · next value hvalue =>
      split at hn
      · next hpos =>
        cases hn
        exact .some (kind_of_isAt ho) hvalue hpos hk
      · cases hn
    · cases hn
  · exact .ok .none

theorem initializer_covers (c : Cursor) :
    (initializer c).Covers c fun ts e _ => InitClause ts e := by
  unfold initializer
  split
  · next ho =>
    refine (c.advance_covers _).bind ?_
    rintro _ _ c₁ h₁ - ⟨rfl, rfl, -⟩
    refine (expr_covers c₁).map ?_
    intro ts e c₂ _ he
    exact .some (kind_of_isAt ho) he
  · exact .ok .none

theorem varRest_covers {d : Head} {ts : List Token} (hd : HeadClause ts d) (c : Cursor) :
    (varRest d c).Covers c fun us v _ => VarClause (ts ++ us) v := by
  obtain ⟨t, rest, hts, hstart, -⟩ := hd.exists_start
  unfold varRest
  refine (arraySuffix_covers _ c).bind ?_
  intro us target c₁ h₁ _ ha
  refine (initializer_covers c₁).bind ?_
  intro vs init c₂ h₂ _ hi
  refine (c₂.expect_covers _).map ?_
  rintro _ s c₃ hs₃ ⟨rfl, hs, -⟩
  rw [hstart, hs₃.spanFrom_eq (by simp) t (rest ++ (us ++ vs))]
  have := VarClause.mk hd ha hi hs
  rw [hts] at this ⊢
  simpa using this

theorem varDecl_covers (c : Cursor) : (varDecl c).Covers c fun ts v _ => VarClause ts v := by
  unfold varDecl
  refine (head_covers c).bind ?_
  intro ts d c₁ h₁ _ hd
  exact (varRest_covers hd c₁).map fun _ _ _ _ hv => hv

theorem formal_covers (c : Cursor) : (formal c).Covers c fun ts v _ => FormalClause ts v := by
  unfold formal
  refine (head_covers c).bind ?_
  intro ts d c₁ h₁ hts₁ hd
  refine (arraySuffix_covers _ c₁).map ?_
  intro us target c₂ hus₂ ha
  obtain ⟨t, rest, rfl, hstart, -⟩ := hd.exists_start
  have hspan := (hts₁.append hus₂).spanFrom_current (by simp)
  rw [hts₁.current_eq, ← hstart] at hspan
  rw [hspan]
  exact .mk hd ha

theorem exprUnless_covers (m : Mark) (c : Cursor) :
    (exprUnless m c).Covers c fun ts e _ => OptionClause ts e := by
  unfold exprUnless
  split
  · exact .ok .none
  · exact (expr_covers c).map fun _ _ _ _ he => .some he

theorem test_covers (c : Cursor) : (test c).Covers c fun ts e _ => TestClause ts e := by
  unfold test
  refine (c.expect_covers _).bind ?_
  rintro _ o c₁ h₁ - ⟨rfl, ho, -⟩
  refine (expr_covers c₁).bind ?_
  intro ts e c₂ h₂ _ he
  refine (c₂.expect_covers _).map ?_
  rintro _ k c₃ - ⟨rfl, hk, -⟩
  exact .mk ho he hk

theorem forInit_covers (c : Cursor) : (forInit c).Covers c fun ts init _ => ForClause ts init := by
  unfold forInit
  split
  · refine (c.expect_covers _).map ?_
    rintro _ s c₁ - ⟨rfl, hs, -⟩
    exact .none hs
  · split
    · trivial
    · exact (varDecl_covers c).map fun _ _ _ _ hv => .declare hv
    · refine (expr_covers c).bind ?_
      intro ts e c₁ h₁ _ he
      refine (c₁.expect_covers _).map ?_
      rintro _ s c₂ - ⟨rfl, hs, -⟩
      exact .expr he hs

theorem kind_of_isAtWord {c : Cursor} {word : Keyword} (h : c.isAtWord word = true) :
    c.current.kind = .keyword word := by
  unfold isAtWord Token.Kind.isKeyword at h
  split at h
  · next heq => rw [heq, eq_of_beq h]
  · cases h

theorem label_covers (c : Cursor) : (label c).Covers c fun ts e _ => LabelClause ts e := by
  unfold label
  split
  · next hk =>
    refine (c.advance_covers _).bind ?_
    rintro _ _ c₁ h₁ - ⟨rfl, rfl, -⟩
    refine (expr_covers c₁).bind ?_
    intro ts e c₂ h₂ _ he
    refine (c₂.expect_covers _).map ?_
    rintro _ k c₃ - ⟨rfl, hc, -⟩
    exact .case (kind_of_isAtWord hk) he hc
  · split
    · next hk =>
      refine (c.advance_covers _).bind ?_
      rintro _ _ c₁ h₁ - ⟨rfl, rfl, -⟩
      refine (c₁.expect_covers _).map ?_
      rintro _ k c₂ - ⟨rfl, hc, -⟩
      exact .default (kind_of_isAtWord hk) hc
    · trivial

/-- A statement on these tokens, and the word that a dangling one would take does not follow. -/
def StmtRead (ts : List Token) (s : Stmt) (n : Cursor) : Prop :=
  ∃ dangling, StmtClause dangling ts s ∧ (dangling = true → ¬n.isAtWord .elseWord = true)

mutual

theorem block_covers (c : Cursor) : (block c).Covers c fun ts b _ => BlockClause ts b := by
  rw [block]
  refine (c.expect_covers _).bind ?_
  rintro _ o c₁ h₁ - ⟨rfl, ho, -⟩
  refine (blockBody_covers c₁).map ?_
  rintro _ body c₂ hts₂ ⟨ts, k, rfl, hb, hk⟩
  rw [hts₂.spanFrom_eq (by simp) o []]
  exact .mk ho hb hk
  termination_by (c.left, 1)

theorem blockBody_covers (c : Cursor) :
    (blockBody c).Covers c fun ts body _ =>
      ∃ us k, ts = us ++ [k] ∧ StmtsClause us body ∧ k.kind = .mark .closeBrace := by
  rw [blockBody]
  split
  · refine (c.expect_covers _).map ?_
    rintro _ k c₁ - ⟨rfl, hk, -⟩
    exact ⟨[], k, rfl, .nil, hk⟩
  · split
    · trivial
    · refine (stmt_covers c).bind ?_
      rintro ts first c₁ h₁ - ⟨dangling, hf, -⟩
      refine (blockBody_covers c₁).map ?_
      rintro _ others c₂ - ⟨us, k, rfl, ho, hk⟩
      exact ⟨ts ++ us, k, by simp, .cons hf ho, hk⟩
  termination_by (c.left, 3)

theorem stmt_covers (c : Cursor) : (stmt c).Covers c StmtRead := by
  rw [stmt]
  split
  · trivial
  · exact (varDecl_covers c).map fun _ _ _ _ hv => ⟨false, .declare hv, nofun⟩
  · dsimp only
    split
    · refine (block_covers c).map ?_
      rintro _ _ c₁ hts₁ ⟨ho, hb, hk⟩
      rw [hts₁.spanFrom_current (by simp)]
      exact ⟨false, .block ho hb hk, nofun⟩
    · refine (c.expect_covers _).map ?_
      rintro _ s c₁ hts₁ ⟨rfl, hs, -⟩
      rw [hts₁.spanFrom_current (by simp)]
      exact ⟨false, .empty hs, nofun⟩
    · next hk =>
      refine (c.advance_covers _).bind ?_
      rintro _ _ c₁ h₁ - ⟨rfl, rfl, -⟩
      refine (test_covers c₁).bind ?_
      intro ts test c₂ h₂ _ ht
      refine (stmt_covers c₂).bind ?_
      rintro us ifTrue c₃ h₃ hus₃ ⟨dangling, hu, helse⟩
      split
      · next hl =>
        obtain rfl : dangling = false := by
          cases dangling
          · rfl
          · exact absurd hl (helse rfl)
        refine (c₃.advance_covers _).bind ?_
        rintro _ _ c₄ h₄ - ⟨rfl, rfl, -⟩
        refine (stmt_covers c₄).map ?_
        rintro vs ifFalse c₅ hvs₅ ⟨dangling, hv, helse'⟩
        rw [hvs₅.spanFrom_eq hv.ne_nil c.current (ts ++ (us ++ [c₃.current]))]
        refine ⟨dangling, ?_, helse'⟩
        simpa using StmtClause.ifElse hk ht hu (kind_of_isAtWord hl) hv
      · next hl =>
        refine .ok ⟨true, ?_, fun _ => hl⟩
        rw [hus₃.spanFrom_eq hu.ne_nil c.current ts]
        simpa using StmtClause.ifThen hk ht hu
    · next hk =>
      refine (c.advance_covers _).bind ?_
      rintro _ _ c₁ h₁ - ⟨rfl, rfl, -⟩
      refine (test_covers c₁).bind ?_
      intro ts test c₂ h₂ _ ht
      refine (stmt_covers c₂).map ?_
      rintro us body c₃ hus₃ ⟨dangling, hb, helse⟩
      rw [hus₃.spanFrom_eq hb.ne_nil c.current ts]
      refine ⟨dangling, ?_, helse⟩
      simpa using StmtClause.whileLoop hk ht hb
    · next hk =>
      refine (c.advance_covers _).bind ?_
      rintro _ _ c₁ h₁ - ⟨rfl, rfl, -⟩
      refine (c₁.expect_covers _).bind ?_
      rintro _ o c₂ h₂ - ⟨rfl, ho, -⟩
      refine (forInit_covers c₂).bind ?_
      intro is init c₃ h₃ _ hi
      refine (exprUnless_covers _ c₃).bind ?_
      intro ts test c₄ h₄ _ ht
      refine (c₄.expect_covers _).bind ?_
      rintro _ s c₅ h₅ - ⟨rfl, hs, -⟩
      refine (exprUnless_covers _ c₅).bind ?_
      intro us step c₆ h₆ _ hu
      refine (c₆.expect_covers _).bind ?_
      rintro _ k c₇ h₇ - ⟨rfl, hc, -⟩
      refine (stmt_covers c₇).map ?_
      rintro vs body c₈ hvs₈ ⟨dangling, hb, helse⟩
      rw [hvs₈.spanFrom_eq hb.ne_nil c.current (o :: (is ++ (ts ++ s :: (us ++ [k]))))]
      refine ⟨dangling, ?_, helse⟩
      simpa using StmtClause.forLoop hk ho hi ht hs hu hc hb
    · next hk =>
      refine (c.advance_covers _).bind ?_
      rintro _ _ c₁ h₁ - ⟨rfl, rfl, -⟩
      refine (test_covers c₁).bind ?_
      intro ts value c₂ h₂ _ hv
      refine (c₂.expect_covers _).bind ?_
      rintro _ o c₃ h₃ - ⟨rfl, ho, -⟩
      refine (arms_covers c₃).map ?_
      intro us arms c₄ hus₄ ha
      rw [hus₄.spanFrom_eq ha.ne_nil c.current (ts ++ [o])]
      refine ⟨false, ?_, nofun⟩
      simpa using StmtClause.switch hk hv ho ha
    · next hk =>
      refine (c.advance_covers _).bind ?_
      rintro _ _ c₁ h₁ - ⟨rfl, rfl, -⟩
      refine (c₁.expect_covers _).map ?_
      rintro _ s c₂ hs₂ ⟨rfl, hs, -⟩
      rw [hs₂.spanFrom_eq (by simp) c.current []]
      exact ⟨false, .breakStmt hk hs, nofun⟩
    · next hk =>
      refine (c.advance_covers _).bind ?_
      rintro _ _ c₁ h₁ - ⟨rfl, rfl, -⟩
      refine (c₁.expect_covers _).map ?_
      rintro _ s c₂ hs₂ ⟨rfl, hs, -⟩
      rw [hs₂.spanFrom_eq (by simp) c.current []]
      exact ⟨false, .continueStmt hk hs, nofun⟩
    · next hk =>
      refine (c.advance_covers _).bind ?_
      rintro _ _ c₁ h₁ - ⟨rfl, rfl, -⟩
      refine (exprUnless_covers _ c₁).bind ?_
      intro ts value c₂ h₂ _ hv
      refine (c₂.expect_covers _).map ?_
      rintro _ s c₃ hs₃ ⟨rfl, hs, -⟩
      rw [hs₃.spanFrom_eq (by simp) c.current ts]
      exact ⟨false, .returnStmt hk hv hs, nofun⟩
    · refine (expr_covers c).bind ?_
      intro ts e c₁ h₁ hts₁ he
      refine (c₁.expect_covers _).map ?_
      rintro _ s c₂ hs₂ ⟨rfl, hs, -⟩
      rw [(hts₁.append hs₂).spanFrom_current (by simp)]
      exact ⟨false, .expr he hs, nofun⟩
  termination_by (c.left, 2)

theorem arms_covers (c : Cursor) : (arms c).Covers c fun ts arms _ => ArmsClause ts arms := by
  rw [arms]
  split
  · refine (c.expect_covers _).map ?_
    rintro _ k c₁ - ⟨rfl, hk, -⟩
    exact .nil hk
  · refine (label_covers c).bind ?_
    intro ts label c₁ h₁ hts₁ hl
    refine (armBody_covers c₁).bind ?_
    intro us body c₂ h₂ hus₂ hb
    refine (arms_covers c₂).map ?_
    intro vs others c₃ _ ho
    rw [(hts₁.append hus₂).spanFrom_current (by cases hl <;> simp)]
    exact .cons hl hb ho
  termination_by (c.left, 0)

theorem armBody_covers (c : Cursor) :
    (armBody c).Covers c fun ts body _ => StmtsClause ts body := by
  rw [armBody]
  split
  · exact .ok .nil
  · refine (stmt_covers c).bind ?_
    rintro ts first c₁ h₁ - ⟨dangling, hf, -⟩
    refine (armBody_covers c₁).map ?_
    intro us others c₂ _ ho
    exact .cons hf ho
  termination_by (c.left, 3)

end

theorem formalList_covers (c : Cursor) :
    (formalList c).Covers c fun ts vs _ => FormalListClause ts vs := by
  rw [formalList]
  refine (formal_covers c).bind ?_
  intro ts first c₁ h₁ _ hf
  split
  · next ho =>
    refine (c₁.advance_covers _).bind ?_
    rintro _ _ c₂ h₂ - ⟨rfl, rfl, -⟩
    refine (formalList_covers c₂).map ?_
    intro us others c₃ _ hvs
    exact .cons hf (kind_of_isAt ho) hvs
  · exact .ok (by simpa using .one hf)
  termination_by c.left

theorem formals_covers (c : Cursor) : (formals c).Covers c fun ts vs _ => FormalsClause ts vs := by
  unfold formals
  split
  · exact .ok .none
  · split
    · next hk =>
      split
      · trivial
      · split
        · refine (c.advance_covers _).map ?_
          rintro _ _ c₁ - ⟨rfl, rfl, -⟩
          exact .void (kind_of_isAtWord hk)
        · exact (formalList_covers c).map fun _ _ _ _ hvs => .some hvs
    · exact (formalList_covers c).map fun _ _ _ _ hvs => .some hvs

theorem fnRest_covers {d : Head} {ts : List Token} (hd : HeadClause ts d)
    (hq : d.qualifier = none) (c : Cursor) :
    (fnRest d c).Covers c fun us f _ => DeclClause (ts ++ us) (.fn f) := by
  obtain ⟨t, rest, hts, hstart, -⟩ := hd.exists_start
  unfold fnRest
  refine (c.expect_covers _).bind ?_
  rintro _ o c₁ h₁ - ⟨rfl, ho, -⟩
  refine (formals_covers c₁).bind ?_
  intro us formals c₂ h₂ _ hf
  refine (c₂.expect_covers _).bind ?_
  rintro _ k c₃ h₃ - ⟨rfl, hk, -⟩
  refine (block_covers c₃).map ?_
  intro vs body c₄ hvs₄ hb
  rw [hstart, hvs₄.spanFrom_eq (by cases hb; simp) t (rest ++ o :: (us ++ [k]))]
  have := DeclClause.fn hd hq ho hf hk hb
  rw [hts] at this ⊢
  simpa using this

theorem decl_covers (c : Cursor) : (decl c).Covers c fun ts d _ => DeclClause ts d := by
  unfold decl
  refine (head_covers c).bind ?_
  intro ts d c₁ h₁ hts₁ hd
  split
  · split
    · trivial
    · next hq => exact (fnRest_covers hd (by simpa using hq) c₁).map fun _ _ _ _ hf => hf
  · exact (varRest_covers hd c₁).map fun _ _ _ _ hv => .var hv

theorem decls_covers (c : Cursor) :
    (decls c).Covers c fun ts p n => ProgramClause ts p ∧ n.current.kind.isEnd = true := by
  rw [decls]
  split
  · next hend => exact .ok ⟨.nil, hend⟩
  · refine (decl_covers c).bind ?_
    intro ts first c₁ h₁ _ hd
    refine (decls_covers c₁).map ?_
    rintro us others c₂ - ⟨hp, hend⟩
    exact ⟨.cons hd hp, hend⟩
  termination_by c.left

/-! ## A clause is read -/

section

variable {c n : Cursor} {t : Token} {ts us : List Token}

theorem Cursor.isAtWord_of_kind {word : Keyword} (h : c.current.kind = .keyword word) :
    c.isAtWord word = true := by
  simp [isAtWord, Token.Kind.isKeyword, h]

theorem qualifier?_of_ty? {k : Token.Kind} {target : Ty} (h : k.ty? = some target) :
    k.qualifier? = none := by
  obtain ⟨word, rfl, hword⟩ := exists_keyword_of_ty? h
  cases word <;> first | rfl | cases hword

theorem ty_gives {target : Ty} (h : c.next? = some n) (ht : c.current.kind.ty? = some target) :
    (ty c).Gives target n := by
  unfold ty
  simp only [ht]
  exact (advance_gives h _).map

theorem HeadClause.head_gives {d : Head} (h : HeadClause ts d) (hts : c.Takes ts n) :
    (head c).Gives d n := by
  unfold head
  cases h with
  | plain ht hn =>
    obtain ⟨rfl, c₁, hc₁, hname⟩ := hts.uncons
    have hq : (qualifier c).Gives none c := by
      unfold qualifier
      simp only [qualifier?_of_ty? ht]
      exact .ok
    exact hq.bind fun _ => (ty_gives hc₁ ht).bind fun _ => (ident_gives hname hn).map
  | @qualified q t _ qualifier _ _ hq ht hn =>
    obtain ⟨rfl, c₁, hc₁, hrest⟩ := hts.uncons
    obtain ⟨rfl, c₂, hc₂, hname⟩ := hrest.uncons
    have hq : (Grammar.qualifier c).Gives (some qualifier) c₁ := by
      unfold Grammar.qualifier
      simp only [hq]
      exact (advance_gives hc₁ _).map
    exact hq.bind fun _ => (ty_gives hc₂ ht).bind fun _ => (ident_gives hname hn).map

theorem ArrayClause.arraySuffix_gives {element target : Ty} (h : ArrayClause element ts target)
    (hts : c.Takes ts n) (hn : n.current.kind ≠ .mark .openBracket) :
    (arraySuffix element c).Gives target n := by
  unfold arraySuffix
  cases h with
  | none =>
    cases hts
    rw [if_neg (isAt_eq_false hn)]
    exact .ok
  | some ho hlength hpos hk =>
    obtain ⟨rfl, c₁, hc₁, hrest⟩ := hts.uncons
    obtain ⟨rfl, c₂, hc₂, hlast⟩ := hrest.uncons
    rw [if_pos (isAt_of_kind ho)]
    refine (advance_gives hc₁ _).bind fun _ => ?_
    refine (choose_gives (.one hc₂) ?_ _).bind fun _ => (expect_gives hlast hk).map
    simp [hlength, hpos]

theorem InitClause.initializer_gives {e : Option Expr} (h : InitClause ts e) (hts : c.Takes ts n)
    (hn : n.current.kind = .mark .semicolon) : (initializer c).Gives e n := by
  unfold initializer
  cases h with
  | none =>
    cases hts
    rw [if_neg (isAt_eq_false (by simp [hn]))]
    exact .ok
  | some ho he =>
    obtain ⟨rfl, c₁, hc₁, hrest⟩ := hts.uncons
    rw [if_pos (isAt_of_kind ho)]
    refine (advance_gives hc₁ _).bind fun _ => Gives.map (he.expr_gives hrest ?_)
    rw [hn]
    exact endsExpr_of_mem_closers (by decide)

/-- What follows the name of a variable is neither a parenthesis nor, behind the brackets of an
array, another bracket. -/
theorem InitClause.kind_current {e : Option Expr} {s : Token} (h : InitClause ts e)
    (hts : c.Takes (ts ++ [s]) n) (hs : s.kind = .mark .semicolon) :
    c.current.kind = .mark .assign ∨ c.current.kind = .mark .semicolon := by
  cases h with
  | none => exact .inr (hts.current_eq ▸ hs)
  | some ho => exact .inl (hts.current_eq ▸ ho)

theorem ArrayClause.not_isAt_openParen {element target : Ty} {vs : List Token} {s : Token}
    {init : Option Expr} (ha : ArrayClause element us target) (hi : InitClause vs init)
    (hs : s.kind = .mark .semicolon) (hts : c.Takes (us ++ (vs ++ [s])) n) :
    ¬c.isAt .openParen = true := by
  refine isAt_eq_false fun hkind => ?_
  cases ha with
  | none => rcases hi.kind_current hts hs with h | h <;> simp [h] at hkind
  | some ho => simp [hts.current_eq, ho] at hkind

theorem varRest_gives {d : Head} {vs : List Token} {target : Ty} {init : Option Expr} {s : Token}
    (ha : ArrayClause d.ty us target) (hi : InitClause vs init) (hs : s.kind = .mark .semicolon)
    (hts : c.Takes (us ++ (vs ++ [s])) n) :
    (varRest d c).Gives ⟨d.name, target, d.qualifier, init, n.spanFrom d.start⟩ n := by
  obtain ⟨c₁, hc₁, hrest⟩ := hts.split
  obtain ⟨c₂, hc₂, hlast⟩ := hrest.split
  unfold varRest
  refine Gives.bind (ha.arraySuffix_gives hc₁ ?_) fun _ => ?_
  · rcases hi.kind_current hrest hs with h | h <;> simp [h]
  refine Gives.bind (hi.initializer_gives hc₂ (hlast.current_eq ▸ hs)) fun _ => ?_
  exact (expect_gives hlast hs).map

theorem VarClause.varDecl_gives {v : VarDecl} (h : VarClause ts v) (hts : c.Takes ts n) :
    (varDecl c).Gives v n := by
  cases h with
  | mk hd ha hi hs =>
    obtain ⟨t, rest, hcons, hstart, -⟩ := hd.exists_start
    obtain ⟨c₁, hc₁, hrest⟩ := hts.split
    unfold varDecl
    refine Gives.bind (hd.head_gives hc₁) fun _ => ?_
    rw [← hts.spanFrom_current (by simp), hc₁.current_of_head? (by rw [hcons]; rfl), ← hstart]
    exact (varRest_gives ha hi hs hrest).map

theorem FormalClause.formal_gives {v : VarDecl} (h : FormalClause ts v) (hts : c.Takes ts n)
    (hn : n.current.kind ≠ .mark .openBracket) : (formal c).Gives v n := by
  cases h with
  | mk hd ha =>
    obtain ⟨t, rest, hcons, hstart, -⟩ := hd.exists_start
    obtain ⟨c₁, hc₁, hrest⟩ := hts.split
    unfold formal
    refine Gives.bind (hd.head_gives hc₁) fun _ => ?_
    rw [← hts.spanFrom_current (by simp [hcons]), hc₁.current_of_head? (by rw [hcons]; rfl),
      ← hstart]
    exact Gives.map (ha.arraySuffix_gives hrest hn)

theorem OptionClause.exprUnless_gives {e : Option Expr} {m : Mark} (h : OptionClause ts e)
    (hts : c.Takes ts n) (hn : n.current.kind = .mark m) (hm : m ∈ closers) :
    (exprUnless m c).Gives e n := by
  unfold exprUnless
  cases h with
  | none =>
    cases hts
    rw [if_pos (isAt_of_kind hn)]
    exact .ok
  | some he =>
    obtain ⟨t, ht⟩ := he.opens
    rw [if_neg (not_isAt_of_opens ht hts hm)]
    refine Gives.map (he.expr_gives hts ?_)
    rw [hn]
    exact endsExpr_of_mem_closers hm

theorem TestClause.test_gives {e : Expr} (h : TestClause ts e) (hts : c.Takes ts n) :
    (test c).Gives e n := by
  cases h with
  | mk ho he hk =>
    obtain ⟨rfl, c₁, hc₁, hrest⟩ := hts.uncons
    obtain ⟨c₂, hc₂, hlast⟩ := hrest.split
    unfold test
    refine (expect_gives (.one hc₁) ho).bind fun _ => ?_
    refine Gives.bind (he.expr_gives hc₂ (hlast.endsExpr hk (by decide))) fun _ => ?_
    exact (expect_gives hlast hk).map

theorem HeadClause.startsDeclaration {d : Head} (h : HeadClause ts d) (hts : c.Takes (ts ++ us) n) :
    c.current.kind.startsDeclaration = true := by
  obtain ⟨t, rest, rfl, -, ht⟩ := h.exists_start
  rw [hts.current_eq]
  exact ht

theorem not_isAt_of_startsDeclaration (h : c.current.kind.startsDeclaration = true) (m : Mark) :
    ¬c.isAt m = true := by
  refine isAt_eq_false fun hkind => ?_
  rw [hkind] at h
  cases h

/-- Behind the first token of a head stands a type or a name. -/
theorem HeadClause.peek {d : Head} (h : HeadClause ts d) (hts : c.Takes (ts ++ us) n) :
    ∃ k, c.peek = .ok k ∧ ∀ m, k.isMark m = false := by
  cases h with
  | plain _ hk | qualified _ hk =>
    obtain ⟨-, c₁, hc₁, hrest⟩ := hts.uncons
    refine ⟨_, peek_of_next? hc₁, fun m => ?_⟩
    rw [hrest.current_eq]
    unfold Token.Kind.isMark
    split
    · next hmark =>
      rw [hmark] at hk
      cases hk
    · rfl

theorem atDeclaration_eq_false (h : c.current.kind.startsDeclaration = false) :
    atDeclaration c = .ok false := by
  rw [Token.Kind.startsDeclaration, Bool.or_eq_false_iff] at h
  simp [atDeclaration, h]

/-- A type in front of a name begins a declaration. -/
theorem VarClause.atDeclaration_eq_true {v : VarDecl} (h : VarClause ts v) (hts : c.Takes ts n) :
    atDeclaration c = .ok true := by
  cases h with
  | mk hd =>
    cases hd with
    | @plain _ _ _ text ht hn =>
      obtain ⟨rfl, c₁, hc₁, hrest⟩ := hts.uncons
      have htype : c.current.kind.isType = true := by simp [Token.Kind.isType, ht]
      have hqualifier : c.current.kind.isQualifier = false := by
        simp [Token.Kind.isQualifier, qualifier?_of_ty? ht]
      have hpeek : c.peek = .ok (.name text) := by rw [peek_of_next? hc₁, hrest.current_eq, hn]
      simp [atDeclaration, htype, hqualifier, hpeek, Except.map, Token.Kind.isMark]
    | qualified hq =>
      obtain ⟨rfl, -⟩ := hts.uncons
      simp [atDeclaration, Token.Kind.isQualifier, hq]

theorem isQualifier_eq_false_of_startsExpr {k : Token.Kind} (h : startsExpr k = true) :
    k.isQualifier = false := by
  cases k with
  | keyword word => cases word <;> first | rfl | cases h
  | _ => rfl

/-- A type in front of a parenthesis begins an expression. -/
theorem Phrase.atDeclaration_eq_false {r : Rank} {e : Expr} (h : Phrase r ts e)
    (hts : c.Takes ts n) : atDeclaration c = .ok false := by
  obtain ⟨t, ht⟩ := h.opens
  obtain ⟨rest, rfl⟩ := List.head?_eq_some_iff.mp ht.head
  obtain ⟨rfl, c₁, hc₁, hrest⟩ := hts.uncons
  have hqualifier := isQualifier_eq_false_of_startsExpr ht.starts
  by_cases htype : c.current.kind.isType = true
  · have hopen := ht.construct htype
    rw [List.drop_one, List.tail_cons] at hopen
    obtain ⟨o, ho, hkind⟩ := Option.map_eq_some_iff.mp hopen
    have hpeek : c.peek = .ok (.mark .openParen) := by
      rw [peek_of_next? hc₁, hrest.current_of_head? ho, hkind]
    simp [atDeclaration, htype, hqualifier, hpeek, Except.map, Token.Kind.isMark]
  · simp [atDeclaration, htype, hqualifier]

theorem ForClause.forInit_gives {init : Option ForInit} (h : ForClause ts init)
    (hts : c.Takes ts n) : (forInit c).Gives init n := by
  unfold forInit
  cases h with
  | none hs =>
    rw [if_pos (isAt_of_kind (hts.current_eq ▸ hs))]
    exact (expect_gives hts hs).map
  | declare hv =>
    have hdeclared := hv.atDeclaration_eq_true hts
    have hread := hv.varDecl_gives hts
    cases hv with
    | mk hd =>
      rw [if_neg (not_isAt_of_startsDeclaration (hd.startsDeclaration hts) _), hdeclared]
      exact hread.map
  | expr he hs =>
    obtain ⟨c₁, hc₁, hlast⟩ := hts.split
    obtain ⟨t, ht⟩ := he.opens
    rw [if_neg (not_isAt_of_opens ht hc₁ (by decide)), he.atDeclaration_eq_false hc₁]
    refine Gives.bind (he.expr_gives hc₁ (hlast.endsExpr hs (by decide))) fun _ => ?_
    exact (expect_gives hlast hs).map

theorem LabelClause.label_gives {label : Option Expr} (h : LabelClause ts label)
    (hts : c.Takes ts n) : (Grammar.label c).Gives label n := by
  unfold Grammar.label
  cases h with
  | case hk he hc =>
    obtain ⟨rfl, c₁, hc₁, hrest⟩ := hts.uncons
    obtain ⟨c₂, hc₂, hlast⟩ := hrest.split
    rw [if_pos (isAtWord_of_kind hk)]
    refine (advance_gives hc₁ _).bind fun _ => ?_
    refine Gives.bind (he.expr_gives hc₂ (hlast.endsExpr hc (by decide))) fun _ => ?_
    exact (expect_gives hlast hc).map
  | default hk hc =>
    obtain ⟨rfl, c₁, hc₁, hlast⟩ := hts.uncons
    rw [if_neg (by simp [isAtWord, Token.Kind.isKeyword, hk]), if_pos (isAtWord_of_kind hk)]
    refine (advance_gives hc₁ _).bind fun _ => ?_
    exact (expect_gives hlast hc).map

theorem StmtClause.startsStmt_current {dangling : Bool} {s : Stmt} (h : StmtClause dangling ts s)
    (hts : c.Takes (ts ++ us) n) : startsStmt c.current.kind = true := by
  obtain ⟨t, rest, rfl, ht⟩ := h.exists_start
  rw [hts.current_eq]
  exact ht

theorem not_isAt_of_startsStmt (h : startsStmt c.current.kind = true) :
    ¬c.isAt .closeBrace = true := by
  refine isAt_eq_false fun hkind => ?_
  rw [hkind] at h
  cases h

theorem not_isAtEnd_of_startsStmt (h : startsStmt c.current.kind = true) : ¬c.isAtEnd = true := by
  unfold isAtEnd Token.Kind.isEnd
  split
  · next hkind =>
    rw [hkind] at h
    cases h
  · exact Bool.false_ne_true

theorem not_isAtWord_of_startsStmt (h : startsStmt c.current.kind = true) {word : Keyword}
    (hword : startsStmt (.keyword word) = false) : ¬c.isAtWord word = true := fun hat => by
  rw [kind_of_isAtWord hat, hword] at h
  cases h

/-- The word that a dangling statement takes does not come next in a row of statements. -/
theorem StmtsClause.not_isAtWord {ss : List Stmt} (h : StmtsClause ts ss) (hts : c.Takes ts n)
    (hn : ¬n.isAtWord .elseWord = true) : ¬c.isAtWord .elseWord = true := by
  cases h with
  | nil =>
    cases hts
    exact hn
  | cons hf => exact not_isAtWord_of_startsStmt (hf.startsStmt_current hts) rfl

/-- What arms end with or go on with ends a row of statements. -/
def EndsBody (c : Cursor) : Prop :=
  (c.isAtWord .caseWord || c.isAtWord .defaultWord || c.isAt .closeBrace || c.isAtEnd) = true

theorem not_endsBody_of_startsStmt (h : startsStmt c.current.kind = true) : ¬EndsBody c := by
  simp [EndsBody, not_isAt_of_startsStmt h, not_isAtEnd_of_startsStmt h,
    not_isAtWord_of_startsStmt h (show startsStmt (.keyword .caseWord) = false from rfl),
    not_isAtWord_of_startsStmt h (show startsStmt (.keyword .defaultWord) = false from rfl)]

theorem EndsBody.not_isAtWord (h : EndsBody c) : ¬c.isAtWord .elseWord = true := fun hat => by
  have hkind := kind_of_isAtWord hat
  simp [EndsBody, isAtWord, isAt, isAtEnd, Token.Kind.isKeyword, Token.Kind.isMark,
    Token.Kind.isEnd, hkind] at h

theorem LabelClause.not_isAt {label : Option Expr} (h : LabelClause ts label)
    (hts : c.Takes (ts ++ us) n) (m : Mark) : ¬c.isAt m = true := by
  refine isAt_eq_false fun hkind => ?_
  cases h with
  | case hk | default hk =>
    rw [hts.current_eq, hk] at hkind
    cases hkind

theorem ArmsClause.endsBody {arms : List (Arm (List Stmt))} (h : ArmsClause ts arms)
    (hts : c.Takes ts n) : EndsBody c := by
  cases h with
  | nil hc => simp [EndsBody, isAt_of_kind (hts.current_eq ▸ hc)]
  | cons hl =>
    cases hl with
    | case hk => simp [EndsBody, isAtWord_of_kind (hts.current_eq ▸ hk)]
    | default hk => simp [EndsBody, isAtWord_of_kind (hts.current_eq ▸ hk)]

end

theorem block_gives {c c₁ n : Cursor} {body : List Stmt} (h : c.next? = some c₁)
    (ho : c.current.kind = .mark .openBrace) (hb : (blockBody c₁).Gives body n) :
    (block c).Gives ⟨body, n.spanFrom c.current.span⟩ n := by
  rw [block]
  exact (expect_gives (.one h) ho).bind fun _ => hb.map

mutual

theorem StmtClause.stmt_gives {dangling : Bool} {ts : List Token} {s : Stmt}
    (h : StmtClause dangling ts s) {c n : Cursor} (hts : c.Takes ts n)
    (hn : dangling = true → ¬n.isAtWord .elseWord = true) : (stmt c).Gives s n := by
  have hspan := fun hne => hts.spanFrom_current hne
  match h with
  | .declare hv =>
    rw [stmt, hv.atDeclaration_eq_true hts]
    exact Gives.map (hv.varDecl_gives hts)
  | .block ho hb hk =>
    rw [← hspan (by simp)]
    obtain ⟨rfl, c₁, hc₁, hrest⟩ := hts.uncons
    obtain ⟨c₂, hc₂, hlast⟩ := hrest.split
    rw [stmt, atDeclaration_eq_false (by rw [ho]; rfl)]
    simp only [ho]
    exact Gives.map (block_gives hc₁ ho (hb.blockBody_gives hc₂ hlast hk))
  | .empty hs =>
    rw [← hspan (by simp), stmt, atDeclaration_eq_false (by rw [hts.current_eq, hs]; rfl)]
    simp only [hts.current_eq ▸ hs]
    exact (expect_gives hts hs).map
  | .ifThen hk ht hu =>
    rw [← hspan (by simp)]
    obtain ⟨rfl, c₁, hc₁, hrest⟩ := hts.uncons
    obtain ⟨c₂, hc₂, hlast⟩ := hrest.split
    rw [stmt, atDeclaration_eq_false (by rw [hk]; rfl)]
    simp only [hk]
    refine (advance_gives hc₁ _).bind fun _ => ?_
    refine Gives.bind (ht.test_gives hc₂) fun _ => ?_
    refine Gives.bind (hu.stmt_gives hlast fun _ => hn rfl) fun _ => ?_
    rw [if_neg (hn rfl)]
    exact .ok
  | .ifElse hk ht hu hl hv =>
    rw [← hspan (by simp)]
    obtain ⟨rfl, c₁, hc₁, hrest⟩ := hts.uncons
    obtain ⟨c₂, hc₂, hrest⟩ := hrest.split
    obtain ⟨c₃, hc₃, hrest⟩ := hrest.split
    obtain ⟨rfl, c₄, hc₄, hlast⟩ := hrest.uncons
    rw [stmt, atDeclaration_eq_false (by rw [hk]; rfl)]
    simp only [hk]
    refine (advance_gives hc₁ _).bind fun _ => ?_
    refine Gives.bind (ht.test_gives hc₂) fun _ => ?_
    refine Gives.bind (hu.stmt_gives hc₃ nofun) fun _ => ?_
    rw [if_pos (isAtWord_of_kind hl)]
    refine (advance_gives hc₄ _).bind fun _ => ?_
    exact Gives.map (hv.stmt_gives hlast hn)
  | .whileLoop hk ht hb =>
    rw [← hspan (by simp)]
    obtain ⟨rfl, c₁, hc₁, hrest⟩ := hts.uncons
    obtain ⟨c₂, hc₂, hlast⟩ := hrest.split
    rw [stmt, atDeclaration_eq_false (by rw [hk]; rfl)]
    simp only [hk]
    refine (advance_gives hc₁ _).bind fun _ => ?_
    refine Gives.bind (ht.test_gives hc₂) fun _ => ?_
    exact Gives.map (hb.stmt_gives hlast hn)
  | .forLoop hk ho hi ht hs hu hc hb =>
    rw [← hspan (by simp)]
    obtain ⟨rfl, c₁, hc₁, hrest⟩ := hts.uncons
    obtain ⟨rfl, c₂, hc₂, hrest⟩ := hrest.uncons
    obtain ⟨c₃, hc₃, hrest⟩ := hrest.split
    obtain ⟨c₄, hc₄, hrest⟩ := hrest.split
    obtain ⟨rfl, c₅, hc₅, hrest⟩ := hrest.uncons
    obtain ⟨c₆, hc₆, hrest⟩ := hrest.split
    obtain ⟨rfl, c₇, hc₇, hlast⟩ := hrest.uncons
    rw [stmt, atDeclaration_eq_false (by rw [hk]; rfl)]
    simp only [hk]
    refine (advance_gives hc₁ _).bind fun _ => ?_
    refine (expect_gives (.one hc₂) ho).bind fun _ => ?_
    refine Gives.bind (hi.forInit_gives hc₃) fun _ => ?_
    refine Gives.bind (ht.exprUnless_gives hc₄ hs (by decide)) fun _ => ?_
    refine (expect_gives (.one hc₅) hs).bind fun _ => ?_
    refine Gives.bind (hu.exprUnless_gives hc₆ hc (by decide)) fun _ => ?_
    refine (expect_gives (.one hc₇) hc).bind fun _ => ?_
    exact Gives.map (hb.stmt_gives hlast hn)
  | .switch hk hv ho ha =>
    rw [← hspan (by simp)]
    obtain ⟨rfl, c₁, hc₁, hrest⟩ := hts.uncons
    obtain ⟨c₂, hc₂, hrest⟩ := hrest.split
    obtain ⟨rfl, c₃, hc₃, hlast⟩ := hrest.uncons
    rw [stmt, atDeclaration_eq_false (by rw [hk]; rfl)]
    simp only [hk]
    refine (advance_gives hc₁ _).bind fun _ => ?_
    refine Gives.bind (hv.test_gives hc₂) fun _ => ?_
    refine (expect_gives (.one hc₃) ho).bind fun _ => ?_
    exact Gives.map (ha.arms_gives hlast)
  | .breakStmt hk hs | .continueStmt hk hs =>
    rw [← hspan (by simp)]
    obtain ⟨rfl, c₁, hc₁, hlast⟩ := hts.uncons
    rw [stmt, atDeclaration_eq_false (by rw [hk]; rfl)]
    simp only [hk]
    exact (advance_gives hc₁ _).bind fun _ => (expect_gives hlast hs).map
  | .returnStmt hk hv hs =>
    rw [← hspan (by simp)]
    obtain ⟨rfl, c₁, hc₁, hrest⟩ := hts.uncons
    obtain ⟨c₂, hc₂, hlast⟩ := hrest.split
    rw [stmt, atDeclaration_eq_false (by rw [hk]; rfl)]
    simp only [hk]
    refine (advance_gives hc₁ _).bind fun _ => ?_
    refine Gives.bind (hv.exprUnless_gives hc₂ (hlast.current_eq ▸ hs) (by decide)) fun _ => ?_
    exact (expect_gives hlast hs).map
  | .expr he hs =>
    rw [← hspan (by simp)]
    obtain ⟨c₁, hc₁, hlast⟩ := hts.split
    obtain ⟨t, ht⟩ := he.opens
    have hstarts := ht.starts
    rw [← hc₁.current_of_head? ht.head] at hstarts
    rw [stmt, he.atDeclaration_eq_false hc₁]
    dsimp only
    split
    case h_10 =>
      refine Gives.bind (he.expr_gives hc₁ (hlast.endsExpr hs (by decide))) fun _ => ?_
      exact (expect_gives hlast hs).map
    all_goals
      rename_i hkind
      rw [hkind] at hstarts
      cases hstarts

theorem StmtsClause.blockBody_gives {ts : List Token} {ss : List Stmt} (h : StmtsClause ts ss)
    {c m n : Cursor} {k : Token} (hts : c.Takes ts m) (hlast : m.Takes [k] n)
    (hk : k.kind = .mark .closeBrace) : (blockBody c).Gives ss n := by
  rw [blockBody]
  match h with
  | .nil =>
    cases hts
    rw [if_pos (isAt_of_kind (hlast.current_eq ▸ hk))]
    exact (expect_gives hlast hk).map
  | .cons hf ho =>
    have hstarts := hf.startsStmt_current hts
    obtain ⟨c₁, hc₁, hrest⟩ := hts.split
    rw [if_neg (not_isAt_of_startsStmt hstarts), if_neg (not_isAtEnd_of_startsStmt hstarts)]
    have helse : ¬c₁.isAtWord .elseWord = true := ho.not_isAtWord hrest fun hat => by
      have := (hlast.current_eq ▸ hk).symm.trans (kind_of_isAtWord hat)
      cases this
    refine Gives.bind (hf.stmt_gives hc₁ fun _ => helse) fun _ => ?_
    exact Gives.map (ho.blockBody_gives hrest hlast hk)

theorem StmtsClause.armBody_gives {ts : List Token} {ss : List Stmt} (h : StmtsClause ts ss)
    {c n : Cursor} (hts : c.Takes ts n) (hn : EndsBody n) : (armBody c).Gives ss n := by
  rw [armBody]
  match h with
  | .nil =>
    cases hts
    split
    · exact .ok
    · exact absurd hn ‹_›
  | .cons hf ho =>
    have hstarts := hf.startsStmt_current hts
    obtain ⟨c₁, hc₁, hrest⟩ := hts.split
    split
    · exact absurd ‹_› (not_endsBody_of_startsStmt hstarts)
    refine Gives.bind (hf.stmt_gives hc₁ fun _ => ho.not_isAtWord hrest hn.not_isAtWord) fun _ => ?_
    exact Gives.map (ho.armBody_gives hrest hn)

theorem ArmsClause.arms_gives {ts : List Token} {as : List (Arm (List Stmt))}
    (h : ArmsClause ts as) {c n : Cursor} (hts : c.Takes ts n) : (arms c).Gives as n := by
  rw [arms]
  match h with
  | .nil hk =>
    rw [if_pos (isAt_of_kind (hts.current_eq ▸ hk))]
    exact (expect_gives hts hk).map
  | .cons hl hb ho =>
    obtain ⟨c₁, hc₁, hrest⟩ := hts.split
    obtain ⟨c₂, hc₂, hlast⟩ := hrest.split
    rw [if_neg (hl.not_isAt hts _), ← (hc₁.append hc₂).spanFrom_current (by cases hl <;> simp)]
    refine Gives.bind (hl.label_gives hc₁) fun _ => ?_
    refine Gives.bind (hb.armBody_gives hc₂ (ho.endsBody hlast)) fun _ => ?_
    exact Gives.map (ho.arms_gives hlast)

end

section

variable {c n : Cursor} {ts : List Token}

theorem BlockClause.block_gives {b : Block} (h : BlockClause ts b) (hts : c.Takes ts n) :
    (block c).Gives b n := by
  cases h with
  | mk ho hb hk =>
    rw [← hts.spanFrom_current (by simp)]
    obtain ⟨rfl, c₁, hc₁, hrest⟩ := hts.uncons
    obtain ⟨c₂, hc₂, hlast⟩ := hrest.split
    exact Grammar.block_gives hc₁ ho (hb.blockBody_gives hc₂ hlast hk)

theorem FormalListClause.formalList_gives {vs : List VarDecl} (h : FormalListClause ts vs)
    (hts : c.Takes ts n) (hn : n.current.kind = .mark .closeParen) :
    (formalList c).Gives vs n := by
  induction h generalizing c with
  | one hv =>
    rw [formalList]
    refine Gives.bind (hv.formal_gives hts (by simp [hn])) fun _ => ?_
    rw [if_neg (isAt_eq_false (by simp [hn]))]
    exact .ok
  | cons hv ho _ ih =>
    obtain ⟨c₁, hc₁, hrest⟩ := hts.split
    obtain ⟨rfl, c₂, hc₂, hlast⟩ := hrest.uncons
    rw [formalList]
    refine Gives.bind (hv.formal_gives hc₁ (by simp [ho])) fun _ => ?_
    rw [if_pos (isAt_of_kind ho)]
    refine (advance_gives hc₂ _).bind fun _ => ?_
    exact Gives.map (ih hlast)

/-- A first formal parameter is no closing parenthesis, and the word `void` in front of a name is
its type. -/
theorem FormalListClause.exists_head {vs : List VarDecl} (h : FormalListClause ts vs) :
    ∃ hs us d, ts = hs ++ us ∧ HeadClause hs d := by
  cases h with
  | one hv =>
    cases hv with
    | mk hd => exact ⟨_, _, _, rfl, hd⟩
  | cons hv =>
    cases hv with
    | mk hd => exact ⟨_, _, _, List.append_assoc _ _ _, hd⟩

theorem FormalsClause.formals_gives {vs : List VarDecl} (h : FormalsClause ts vs)
    (hts : c.Takes ts n) (hn : n.current.kind = .mark .closeParen) : (formals c).Gives vs n := by
  unfold formals
  cases h with
  | none =>
    cases hts
    rw [if_pos (isAt_of_kind hn)]
    exact .ok
  | void hk =>
    obtain ⟨rfl, c₁, hc₁, hlast⟩ := hts.uncons
    cases hlast
    have hpeek : c.peek = .ok (.mark .closeParen) := by rw [peek_of_next? hc₁, hn]
    rw [if_neg (isAt_eq_false (by simp [hk])), if_pos (isAtWord_of_kind hk), hpeek]
    simp only [Token.Kind.isMark, beq_self_eq_true, ↓reduceIte]
    exact (advance_gives hc₁ _).map
  | some hvs =>
    obtain ⟨hs, us, d, rfl, hd⟩ := hvs.exists_head
    have hread := hvs.formalList_gives hts hn
    obtain ⟨k, hpeek, hk⟩ := hd.peek hts
    rw [if_neg (not_isAt_of_startsDeclaration (hd.startsDeclaration hts) _), hpeek]
    simp only [hk, Bool.false_eq_true, ↓reduceIte]
    split <;> exact hread.map

theorem DeclClause.decl_gives {d : Decl} (h : DeclClause ts d) (hts : c.Takes ts n) :
    (decl c).Gives d n := by
  unfold decl
  cases h with
  | var hv =>
    cases hv with
    | mk hd ha hi hs =>
      obtain ⟨t, rest, hcons, hstart, -⟩ := hd.exists_start
      obtain ⟨c₁, hc₁, hrest⟩ := hts.split
      refine Gives.bind (hd.head_gives hc₁) fun _ => ?_
      rw [if_neg (ha.not_isAt_openParen hi hs hrest), ← hts.spanFrom_current (by simp),
        hc₁.current_of_head? (by rw [hcons]; rfl), ← hstart]
      exact (varRest_gives ha hi hs hrest).map
  | fn hd hq ho hf hk hb =>
    obtain ⟨t, rest, hcons, hstart, -⟩ := hd.exists_start
    obtain ⟨c₁, hc₁, hrest⟩ := hts.split
    obtain ⟨rfl, c₂, hc₂, hrest⟩ := hrest.uncons
    obtain ⟨c₃, hc₃, hrest⟩ := hrest.split
    obtain ⟨rfl, c₄, hc₄, hlast⟩ := hrest.uncons
    refine Gives.bind (hd.head_gives hc₁) fun _ => ?_
    rw [if_pos (isAt_of_kind ho), if_neg (by simp [hq]), ← hts.spanFrom_current (by simp),
      hc₁.current_of_head? (by rw [hcons]; rfl), ← hstart]
    refine Gives.map ?_
    unfold fnRest
    refine (expect_gives (.one hc₂) ho).bind fun _ => ?_
    refine Gives.bind (hf.formals_gives hc₃ hk) fun _ => ?_
    refine (expect_gives (.one hc₄) hk).bind fun _ => ?_
    exact Gives.map (hb.block_gives hlast)

theorem ProgramClause.decls_gives {p : Program} (h : ProgramClause ts p) (hts : c.Takes ts n)
    (hn : n.current.kind.isEnd = true) : (decls c).Gives p n := by
  induction h generalizing c with
  | nil =>
    cases hts
    rw [decls, isAtEnd, if_pos hn]
    exact .ok
  | cons hd _ ih =>
    obtain ⟨c₁, hc₁, hrest⟩ := hts.split
    rw [decls, isAtEnd, hc₁.isEnd_eq_false hd.ne_nil, if_neg nofun]
    exact Gives.bind (hd.decl_gives hc₁) fun _ => Gives.map (ih hrest)

end

end ShaderLang.Grammar
