import ShaderLang.Proofs.Taking

/-!
# Reading phrases

The rules for expressions read phrases, and all of them. Whatever `expr` reads is a phrase on the
tokens that it takes (`expr_covers`), and where a phrase stands that no token behind it continues,
`expr` reads it and nothing more (`Phrase.expr_gives`).

The operators behind a left operand are a loop, and so are subscripts, fields and steps. For these
a phrase is not read at once: reading it comes down to the loop in the place behind it
(`IsRead`), which may go on there.
-/

namespace ShaderLang.Grammar

open Cursor Outcome

/-! ## What is read is a phrase -/

/-- No operator of at least this level stands here. -/
def Cursor.EndsLevel (c : Cursor) (level : Nat) : Prop :=
  ∀ op, binaryOp? c.current.kind = some op → op.level < level

mutual

theorem expr_covers (c : Cursor) : (expr c).Covers c fun ts e _ => Phrase .assignment ts e := by
  rw [expr]
  refine (conditional_covers c).bind ?_
  intro ts target c₁ h₁ _ ht
  split
  · exact .ok (by simpa using .value ht)
  · next op hop =>
    refine (c₁.advance_covers _).bind ?_
    rintro _ _ c₂ h₂ - ⟨rfl, rfl, -⟩
    refine (expr_covers c₂).bind ?_
    intro us value c₃ h₃ _ hv
    exact .ok (by simpa using .assign ht hop hv)
  termination_by (c.left, 6)

theorem conditional_covers (c : Cursor) :
    (conditional c).Covers c fun ts e _ => Phrase .conditional ts e := by
  rw [conditional]
  refine (binary_covers 0 c).bind ?_
  intro ts test c₁ h₁ _ ⟨ht, _⟩
  split
  · next hq =>
    refine (c₁.advance_covers _).bind ?_
    rintro _ _ c₂ h₂ - ⟨rfl, rfl, -⟩
    refine (expr_covers c₂).bind ?_
    intro us ifTrue c₃ h₃ _ hu
    refine (c₃.expect_covers _).bind ?_
    rintro _ t c₄ h₄ - ⟨rfl, hc, -⟩
    refine (conditional_covers c₄).bind ?_
    intro vs ifFalse c₅ h₅ _ hv
    exact .ok (by simpa using .conditional ht (kind_of_isAt hq) hu hc hv)
  · exact .ok (by simpa using .decided ht)
  termination_by (c.left, 5)

theorem binary_covers (level : Nat) (c : Cursor) :
    (binary level c).Covers c fun ts e n => Phrase (.binary level) ts e ∧ n.EndsLevel level := by
  rw [binary]
  refine (unary_covers c).bind ?_
  intro ts left c₁ h₁ _ hl
  exact (operators_covers level left c₁ ts (.operand hl) fun _ _ => .operand hl).map
    fun _ _ _ _ he => he
  termination_by (c.left, 4)

/-- The loop keeps the left operand a phrase, of the level that the next operator asks for. -/
theorem operators_covers (level : Nat) (left : Expr) (c : Cursor) (ts : List Token)
    (hl : Phrase (.binary level) ts left)
    (hnext : ∀ op, binaryOp? c.current.kind = some op → Phrase (.binary op.level) ts left) :
    (operators level left c).Covers c fun us e n =>
      Phrase (.binary level) (ts ++ us) e ∧ n.EndsLevel level := by
  rw [operators]
  split
  · next hop => exact .ok ⟨by simpa using hl, by simp [EndsLevel, hop]⟩
  · next op hop =>
    split
    · next hlt =>
      refine .ok ⟨by simpa using hl, fun op' hop' => ?_⟩
      cases hop.symm.trans hop'
      exact hlt
    · next hle =>
      refine (c.advance_covers _).bind ?_
      rintro _ _ c₁ h₁ - ⟨rfl, rfl, -⟩
      refine (binary_covers (op.level + 1) c₁).bind ?_
      intro us right c₂ h₂ _ ⟨hr, hends⟩
      have joined {looser : Nat} (hloose : looser ≤ op.level) : Phrase (.binary looser) _ _ :=
        .binary hop hloose (hnext op hop) hr
      exact (operators_covers level _ c₂ _ (joined (by omega)) fun op' hop' =>
        joined (by have := hends op' hop'; omega)).map fun _ _ _ _ he => by simpa using he
  termination_by (c.left, 0)

theorem unary_covers (c : Cursor) : (unary c).Covers c fun ts e _ => Phrase .unary ts e := by
  rw [unary]
  split
  · exact (suffixed_covers c).imp fun _ _ _ he => .unsigned he
  · next op hop =>
    refine (c.advance_covers _).bind ?_
    rintro _ _ c₁ h₁ - ⟨rfl, rfl, -⟩
    refine (unary_covers c₁).bind ?_
    intro ts operand c₂ h₂ _ he
    exact .ok (by simpa using .signed hop he)
  termination_by (c.left, 3)

theorem suffixed_covers (c : Cursor) :
    (suffixed c).Covers c fun ts e _ => Phrase .suffixed ts e := by
  rw [suffixed]
  refine (primary_covers c).bind ?_
  intro ts base c₁ h₁ _ hb
  exact (suffixes_covers base c₁ ts (.plain hb)).map fun _ _ _ _ he => he
  termination_by (c.left, 2)

theorem suffixes_covers (base : Expr) (c : Cursor) (ts : List Token)
    (hb : Phrase .suffixed ts base) :
    (suffixes base c).Covers c fun us e _ => Phrase .suffixed (ts ++ us) e := by
  rw [suffixes]
  split
  · next ho =>
    refine (c.advance_covers _).bind ?_
    rintro _ _ c₁ h₁ - ⟨rfl, rfl, -⟩
    refine (expr_covers c₁).bind ?_
    intro us position c₂ h₂ _ hp
    refine (c₂.expect_covers _).bind ?_
    rintro _ t c₃ h₃ - ⟨rfl, hc, hprev⟩
    rw [spanFrom, hprev]
    exact (suffixes_covers _ c₃ _ (.index hb (kind_of_isAt ho) hp hc)).map fun _ _ _ _ he => by
      simpa using he
  · split
    · next ho =>
      refine (c.advance_covers _).bind ?_
      rintro _ _ c₁ h₁ - ⟨rfl, rfl, -⟩
      refine c₁.ident_covers.bind ?_
      rintro _ _ c₂ h₂ - ⟨t, text, rfl, hn, rfl, -⟩
      exact (suffixes_covers _ c₂ _ (.field hb (kind_of_isAt ho) hn)).map fun _ _ _ _ he => by
        simpa using he
    · split
      · exact .ok (by simpa using hb)
      · next direction ho =>
        refine (c.advance_covers _).bind ?_
        rintro _ _ c₁ h₁ - ⟨rfl, rfl, hprev⟩
        rw [spanFrom, hprev]
        exact (suffixes_covers _ c₁ _ (.stepAfter hb ho)).map fun _ _ _ _ he => by simpa using he
  termination_by (c.left, 0)

theorem primary_covers (c : Cursor) : (primary c).Covers c fun ts e _ => Phrase .primary ts e := by
  rw [primary]
  refine (c.advance_covers _).bind ?_
  rintro _ t c₁ h₁ - ⟨rfl, -, hprev⟩
  have hspan : c₁.spanFrom t.span = t.span := by rw [spanFrom, hprev, Span.merge_self]
  split
  · next hkind => exact .ok (.atom (by simp [atom?, hkind, hspan]))
  · next hkind => exact .ok (.atom (by simp [atom?, hkind, hspan]))
  · next hkind => exact .ok (.atom (by simp [atom?, hkind, hspan]))
  · next hkind => exact .ok (.atom (by simp [atom?, hkind, hspan]))
  · next word _ _ hkind =>
    split
    · next target hty =>
      refine (arguments_covers c₁).map ?_
      rintro _ es c₂ - ⟨o, k, ts, rfl, ho, hes, hk, hprev⟩
      rw [spanFrom, hprev]
      exact .construct (by rw [hkind]; exact hty) ho hes hk
    · trivial
  · next text hkind =>
    dsimp only
    split
    · refine (arguments_covers c₁).map ?_
      rintro _ es c₂ - ⟨o, k, ts, rfl, ho, hes, hk, hprev⟩
      rw [spanFrom, hprev]
      exact .call hkind ho hes hk
    · exact .ok (.atom (by simp [atom?, hkind, hspan]))
  · next ho =>
    refine (expr_covers c₁).bind ?_
    intro ts inner c₂ h₂ _ he
    refine (c₂.expect_covers _).map ?_
    rintro _ k c₃ - ⟨rfl, hk, hprev⟩
    rw [spanFrom, hprev]
    exact .parens ho he hk
  · trivial
  termination_by (c.left, 1)

theorem arguments_covers (c : Cursor) :
    (arguments c).Covers c fun ts es n => ∃ o k us, ts = o :: (us ++ [k]) ∧
      o.kind = .mark .openParen ∧ Arguments us es ∧ k.kind = .mark .closeParen ∧
      n.previous = k.span := by
  rw [arguments]
  refine (c.expect_covers _).bind ?_
  rintro _ o c₁ h₁ - ⟨rfl, ho, -⟩
  split
  · refine (c₁.expect_covers _).map ?_
    rintro _ k c₂ - ⟨rfl, hk, hprev⟩
    exact ⟨o, k, [], rfl, ho, .none, hk, hprev⟩
  · refine (commaList_covers c₁).bind ?_
    intro us es c₂ h₂ _ hes
    refine (c₂.expect_covers _).map ?_
    rintro _ k c₃ - ⟨rfl, hk, hprev⟩
    exact ⟨o, k, us, rfl, ho, .some hes, hk, hprev⟩
  termination_by (c.left, 0)

theorem commaList_covers (c : Cursor) : (commaList c).Covers c fun ts es _ => Phrases ts es := by
  rw [commaList]
  refine (expr_covers c).bind ?_
  intro ts first c₁ h₁ _ hf
  split
  · next ho =>
    refine (c₁.advance_covers _).bind ?_
    rintro _ _ c₂ h₂ - ⟨rfl, rfl, -⟩
    refine (commaList_covers c₂).map ?_
    intro us others c₃ _ hes
    simpa using .cons hf (kind_of_isAt ho) hes
  · exact .ok (by simpa using .one hf)
  termination_by (c.left, 7)

end

/-! ## A phrase is read -/

/-- No subscript, field or step goes on behind an operand, and no arguments behind a name. -/
structure EndsOperand (k : Token.Kind) : Prop where
  call : k ≠ .mark .openParen
  index : k ≠ .mark .openBracket
  field : k ≠ .mark .dot
  step : step? k = none

/-- Nothing that binds tighter than an assignment goes on. -/
structure EndsConditional (k : Token.Kind) : Prop extends EndsOperand k where
  binary : binaryOp? k = none
  question : k ≠ .mark .question

/-- No expression goes on. -/
structure EndsExpr (k : Token.Kind) : Prop extends EndsConditional k where
  assign : assignOp? k = none

/-- The marks that expressions are closed by. -/
def closers : List Mark :=
  [.closeParen, .closeBracket, .comma, .colon, .semicolon]

theorem endsExpr_of_mem_closers {m : Mark} (h : m ∈ closers) : EndsExpr (.mark m) := by
  simp only [closers, List.mem_cons, List.not_mem_nil, or_false] at h
  rcases h with rfl | rfl | rfl | rfl | rfl <;>
    exact ⟨⟨⟨nofun, nofun, nofun, rfl⟩, rfl, nofun⟩, rfl⟩

theorem endsExpr_endOfText : EndsExpr .endOfText :=
  ⟨⟨⟨nofun, nofun, nofun, rfl⟩, rfl, nofun⟩, rfl⟩

theorem endsConditional_of_assignOp? {k : Token.Kind} {op : AssignOp} (h : assignOp? k = some op) :
    EndsConditional k := by
  cases k with
  | mark m =>
    cases m <;> simp only [assignOp?, reduceCtorEq] at h <;>
      exact ⟨⟨nofun, nofun, nofun, rfl⟩, rfl, nofun⟩
  | _ => cases h

theorem endsOperand_of_binaryOp? {k : Token.Kind} {op : BinaryOp} (h : binaryOp? k = some op) :
    EndsOperand k := by
  cases k with
  | mark m =>
    cases m <;> simp only [binaryOp?, reduceCtorEq] at h <;> exact ⟨nofun, nofun, nofun, rfl⟩
  | _ => cases h

theorem Cursor.endsLevel_of_none {c : Cursor} (h : binaryOp? c.current.kind = none) (level : Nat) :
    c.EndsLevel level := fun op hop => by
  rw [h] at hop
  cases hop

theorem Cursor.isAt_eq_false {c : Cursor} {m : Mark} (h : c.current.kind ≠ .mark m) :
    ¬c.isAt m = true :=
  fun hm => h (kind_of_isAt hm)

/-- How an expression of a rank that stands between two cursors is read, if the token behind it ends
it. Left operands and bases are handed to the loop that goes on behind them. -/
def IsRead (c : Cursor) (e : Expr) (n : Cursor) : Rank → Prop
  | .primary => n.current.kind ≠ .mark .openParen → (primary c).Gives e n
  | .suffixed =>
    n.current.kind ≠ .mark .openParen →
      ∀ v m, (suffixes e n).Gives v m → (suffixed c).Gives v m
  | .unary => EndsOperand n.current.kind → (unary c).Gives e n
  | .binary level =>
    EndsOperand n.current.kind → n.EndsLevel (level + 1) → ∀ looser ≤ level,
      ∀ v m, (operators looser e n).Gives v m → (binary looser c).Gives v m
  | .conditional => EndsConditional n.current.kind → (conditional c).Gives e n
  | .assignment => EndsExpr n.current.kind → (expr c).Gives e n

theorem suffixes_gives {e : Expr} {n : Cursor} (h : EndsOperand n.current.kind) :
    (suffixes e n).Gives e n := by
  rw [suffixes, if_neg (isAt_eq_false h.index), if_neg (isAt_eq_false h.field)]
  simp only [h.step]
  exact .ok

theorem operators_gives {level : Nat} {e : Expr} {n : Cursor} (h : n.EndsLevel level) :
    (operators level e n).Gives e n := by
  rw [operators]
  split
  · exact .ok
  · next op hop =>
    rw [if_pos (h op hop)]
    exact .ok

theorem exists_keyword_of_ty? {k : Token.Kind} {t : Ty} (h : k.ty? = some t) :
    ∃ word, k = .keyword word ∧ word.ty? = some t := by
  cases k with
  | keyword word => exact ⟨word, rfl, h⟩
  | _ => cases h

/-- What an expression begins with is no mark that expressions are closed by. -/
theorem not_isAt_of_opens {r : Rank} {t : Token} {ts : List Token} {c n : Cursor} {m : Mark}
    (h : Opens r ts t) (hts : c.Takes ts n) (hm : m ∈ closers) : ¬c.isAt m = true := by
  refine isAt_eq_false fun hkind => ?_
  have hstarts := h.starts
  rw [← hts.current_of_head? h.head, hkind] at hstarts
  revert hstarts hm
  cases m <;> decide

theorem Cursor.Takes.endsExpr {c n : Cursor} {t : Token} {m : Mark} {ts : List Token}
    (h : c.Takes (t :: ts) n) (ht : t.kind = .mark m) (hm : m ∈ closers) :
    EndsExpr c.current.kind := by
  rw [h.current_eq, ht]
  exact endsExpr_of_mem_closers hm

mutual

theorem Phrase.isRead {r : Rank} {ts : List Token} {e : Expr} (h : Phrase r ts e) {c n : Cursor}
    (hts : c.Takes ts n) : IsRead c e n r := by
  match h with
  | .atom ht =>
    intro hn
    obtain ⟨rfl, k, hk, hkn⟩ := hts.uncons
    cases hkn
    have hspan : n.spanFrom c.current.span = c.current.span := by
      rw [spanFrom, previous_of_next? hk, Span.merge_self]
    rw [primary]
    refine (advance_gives hk _).bind fun _ => ?_
    unfold atom? at ht
    split at ht <;> cases ht <;> next hkind =>
      simp only [hkind, hspan, isAt_eq_false hn]
      exact .ok
  | @Phrase.call _ o _ ts _ _ ht ho hes hk =>
    intro hn
    obtain ⟨rfl, c₁, hc₁, hrest⟩ := hts.uncons
    rw [primary]
    refine (advance_gives hc₁ _).bind fun _ => ?_
    simp only [ht, isAt_of_kind (hrest.current_eq ▸ ho), ↓reduceIte]
    rw [← Takes.previous_eq (c.current :: o :: ts) hts]
    exact (hes.isRead hrest ho hk).map
  | @Phrase.construct _ o _ ts _ _ ht ho hes hk =>
    intro hn
    obtain ⟨rfl, c₁, hc₁, hrest⟩ := hts.uncons
    rw [primary]
    refine (advance_gives hc₁ _).bind fun _ => ?_
    rw [← Takes.previous_eq (c.current :: o :: ts) hts]
    obtain ⟨word, hword, hty⟩ := exists_keyword_of_ty? ht
    simp only [hword]
    cases word <;> cases hty <;> exact (hes.isRead hrest ho hk).map
  | @Phrase.parens _ _ ts _ ho he hk =>
    intro hn
    obtain ⟨rfl, c₁, hc₁, hrest⟩ := hts.uncons
    obtain ⟨c₂, hc₂, hlast⟩ := hrest.split
    rw [primary]
    refine (advance_gives hc₁ _).bind fun _ => ?_
    simp only [ho]
    refine Gives.bind (he.isRead hc₂ (hlast.endsExpr hk (by decide))) fun _ => ?_
    rw [← Takes.previous_eq (c.current :: ts) hts]
    exact (expect_gives hlast hk).map
  | .plain he =>
    intro hn v m hv
    rw [suffixed]
    exact Gives.bind (he.isRead hts hn) fun _ => hv.map
  | .index hb ho hp hk =>
    intro hn v m hv
    obtain ⟨c₁, hc₁, hrest⟩ := hts.split
    obtain ⟨rfl, c₂, hc₂, hrest⟩ := hrest.uncons
    obtain ⟨c₃, hc₃, hlast⟩ := hrest.split
    refine hb.isRead hc₁ (by simp [ho]) v m ?_
    rw [suffixes, if_pos (isAt_of_kind ho)]
    refine (advance_gives hc₂ _).bind fun _ => ?_
    refine Gives.bind (hp.isRead hc₃ (hlast.endsExpr hk (by decide))) fun _ => ?_
    refine (expect_gives hlast hk).bind fun _ => ?_
    rw [spanFrom, Takes.previous_eq [] hlast]
    exact hv.map
  | .field hb ho hn =>
    intro _ v m hv
    obtain ⟨c₁, hc₁, hrest⟩ := hts.split
    obtain ⟨rfl, c₂, hc₂, hlast⟩ := hrest.uncons
    refine hb.isRead hc₁ (by simp [ho]) v m ?_
    rw [suffixes, if_neg (isAt_eq_false (by simp [ho])), if_pos (isAt_of_kind ho)]
    refine (advance_gives hc₂ _).bind fun _ => ?_
    exact (ident_gives hlast hn).bind fun _ => hv.map
  | .stepAfter hb ho =>
    intro _ v m hv
    obtain ⟨c₁, hc₁, hrest⟩ := hts.split
    obtain ⟨rfl, c₂, hc₂, hlast⟩ := hrest.uncons
    cases hlast
    have hends : ∀ m : Mark, step? (.mark m) = none → c₁.current.kind ≠ .mark m := by
      intro m hm hkind
      rw [hkind, hm] at ho
      cases ho
    refine hb.isRead hc₁ (hends _ rfl) v m ?_
    rw [suffixes, if_neg (isAt_eq_false (hends _ rfl)), if_neg (isAt_eq_false (hends _ rfl))]
    simp only [ho]
    refine (advance_gives hc₂ _).bind fun _ => ?_
    rw [spanFrom, previous_of_next? hc₂]
    exact hv.map
  | .unsigned he =>
    intro hn
    obtain ⟨t, ht⟩ := he.opens
    rw [unary]
    simp only [hts.current_of_head? ht.head, ht.unsigned rfl]
    exact he.isRead hts hn.call e n (suffixes_gives hn)
  | .signed ho he =>
    intro hn
    obtain ⟨rfl, c₁, hc₁, hrest⟩ := hts.uncons
    rw [unary]
    simp only [ho]
    refine (advance_gives hc₁ _).bind fun _ => ?_
    exact Gives.bind (he.isRead hrest hn) fun _ => .ok
  | .operand he =>
    intro hn _ looser _ v m hv
    rw [binary]
    exact Gives.bind (he.isRead hts hn) fun _ => hv.map
  | @Phrase.binary _ _ _ _ op _ _ ho hop hl hr =>
    intro hn hends looser hle v m hv
    obtain ⟨c₁, hc₁, hrest⟩ := hts.split
    obtain ⟨rfl, c₂, hc₂, hrest⟩ := hrest.uncons
    have hlevel : c₁.EndsLevel (op.level + 1) := fun op' hop' => by
      cases ho.symm.trans hop'
      omega
    refine hl.isRead hc₁ (endsOperand_of_binaryOp? ho) hlevel looser (by omega) v m ?_
    rw [operators]
    simp only [ho]
    rw [if_neg (by omega)]
    refine (advance_gives hc₂ _).bind fun _ => ?_
    have hends' : n.EndsLevel (op.level + 1) := fun op' hop' =>
      Nat.lt_of_lt_of_le (hends op' hop') (by omega)
    refine Gives.bind (hr.isRead hrest hn (fun op' hop' => Nat.lt_succ_of_lt (hends' op' hop'))
      _ (Nat.le_refl _) _ _ (operators_gives hends')) fun _ => hv.map
  | .decided he =>
    intro hn
    rw [conditional]
    refine Gives.bind (he.isRead hts hn.toEndsOperand (endsLevel_of_none hn.binary _) 0
      (Nat.le_refl 0) e n (operators_gives (endsLevel_of_none hn.binary 0))) fun _ => ?_
    rw [if_neg (isAt_eq_false hn.question)]
    exact .ok
  | .conditional ht hq hu hk hv =>
    intro hn
    obtain ⟨c₁, hc₁, hrest⟩ := hts.split
    obtain ⟨rfl, c₂, hc₂, hrest⟩ := hrest.uncons
    obtain ⟨c₃, hc₃, hrest⟩ := hrest.split
    obtain ⟨rfl, c₄, hc₄, hlast⟩ := hrest.uncons
    have hbinary : binaryOp? c₁.current.kind = none := by rw [hq]; rfl
    rw [conditional]
    refine Gives.bind (ht.isRead hc₁ ?_ (endsLevel_of_none hbinary _) 0
      (Nat.le_refl 0) _ _ (operators_gives (endsLevel_of_none hbinary 0))) fun _ => ?_
    · rw [hq]
      exact ⟨nofun, nofun, nofun, rfl⟩
    rw [if_pos (isAt_of_kind hq)]
    refine (advance_gives hc₂ _).bind fun _ => ?_
    refine Gives.bind (hu.isRead hc₃ (hrest.endsExpr hk (by decide))) fun _ => ?_
    refine (expect_gives (.one hc₄) hk).bind fun _ => ?_
    exact Gives.bind (hv.isRead hlast hn) fun _ => .ok
  | .value he =>
    intro hn
    rw [expr]
    refine Gives.bind (he.isRead hts hn.toEndsConditional) fun _ => ?_
    simp only [hn.assign]
    exact .ok
  | .assign ht ho hv =>
    intro hn
    obtain ⟨c₁, hc₁, hrest⟩ := hts.split
    obtain ⟨rfl, c₂, hc₂, hlast⟩ := hrest.uncons
    rw [expr]
    refine Gives.bind (ht.isRead hc₁ (endsConditional_of_assignOp? ho)) fun _ => ?_
    simp only [ho]
    refine (advance_gives hc₂ _).bind fun _ => ?_
    exact Gives.bind (hv.isRead hlast hn) fun _ => .ok

theorem Arguments.isRead {ts : List Token} {es : List Expr} (h : Arguments ts es) {o k : Token}
    {c n : Cursor} (hts : c.Takes (o :: (ts ++ [k])) n) (ho : o.kind = .mark .openParen)
    (hk : k.kind = .mark .closeParen) : (arguments c).Gives es n := by
  obtain ⟨rfl, c₁, hc₁, hrest⟩ := hts.uncons
  rw [arguments]
  refine (expect_gives (.one hc₁) ho).bind fun _ => ?_
  match h with
  | .none =>
    rw [if_pos (isAt_of_kind (hrest.current_eq ▸ hk))]
    exact (expect_gives hrest hk).map
  | .some hes =>
    obtain ⟨c₂, hc₂, hlast⟩ := hrest.split
    obtain ⟨t, ht⟩ := hes.opens
    rw [if_neg (not_isAt_of_opens ht hc₂ (by decide))]
    refine Gives.bind (hes.isRead hc₂ (hlast.current_eq ▸ hk)) fun _ => ?_
    exact (expect_gives hlast hk).map

theorem Phrases.isRead {ts : List Token} {es : List Expr} (h : Phrases ts es) {c n : Cursor}
    (hts : c.Takes ts n) (hn : n.current.kind = .mark .closeParen) : (commaList c).Gives es n := by
  rw [commaList]
  match h with
  | .one he =>
    refine Gives.bind (he.isRead hts ?_) fun _ => ?_
    · rw [hn]
      exact endsExpr_of_mem_closers (by decide)
    rw [if_neg (isAt_eq_false (by simp [hn]))]
    exact .ok
  | .cons he ho hes =>
    obtain ⟨c₁, hc₁, hrest⟩ := hts.split
    obtain ⟨rfl, c₂, hc₂, hlast⟩ := hrest.uncons
    refine Gives.bind (he.isRead hc₁ (hrest.endsExpr ho (by decide))) fun _ => ?_
    rw [if_pos (isAt_of_kind ho)]
    refine (advance_gives hc₂ _).bind fun _ => ?_
    exact Gives.bind (hes.isRead hlast hn) fun _ => .ok

end

/-- Where a phrase stands that no token behind it continues, it is read, and nothing more. -/
theorem Phrase.expr_gives {ts : List Token} {e : Expr} (h : Phrase .assignment ts e) {c n : Cursor}
    (hts : c.Takes ts n) (hn : EndsExpr n.current.kind) : (expr c).Gives e n :=
  h.isRead hts hn

end ShaderLang.Grammar
