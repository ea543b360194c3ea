import ShaderLang.Proofs.RoundTrip

/-!
# Operators and their levels

Operands with binary operators between them are read as one tree, and the levels of the operators
say which (`Grammar.expr_of_alternates`): what is to the left of an operator binds at least as
tightly, and what is to the right of it binds more tightly, so that operators of one level associate
to the left. It is the only such tree with these tokens from left to right.
-/

namespace ShaderLang

open Grammar (atom? binaryOp? Phrase)

/-! ## Trees of operators -/

namespace Expr

/-- The operators of a tree, from left to right. -/
def operators : Expr → List BinaryOp
  | .binary _ op left right => left.operators ++ op :: right.operators
  | _ => []

/-- At every operator of a tree, those to the left bind at least as tightly, and those to the right
more tightly. -/
def IsGrouped : Expr → Prop
  | .binary _ op left right =>
    (∀ o ∈ left.operators, op.level ≤ o.level) ∧ (∀ o ∈ right.operators, op.level < o.level) ∧
      left.IsGrouped ∧ right.IsGrouped
  | _ => True

/-- The tokens are a tree from left to right: operands of one token each, and operators. An
operation covers both its operands. -/
inductive SpelledBy : Expr → List Token → Prop
  | atom {e : Expr} {t : Token} (ht : atom? t = some e) : SpelledBy e [t]
  | binary {left right : Expr} {ts us : List Token} {o : Token} {op : BinaryOp}
      (hl : SpelledBy left ts) (ho : binaryOp? o.kind = some op) (hr : SpelledBy right us) :
      SpelledBy (.binary (left.span.merge right.span) op left right) (ts ++ o :: us)

/-- A tree with one more operator behind it, and an operand behind that. The operator goes down on
the right past all that are looser. -/
def extend : Expr → BinaryOp → Expr → Expr
  | .binary span root left right, op, operand =>
    if root.level < op.level then
      .binary (left.span.merge (right.extend op operand).span) root left (right.extend op operand)
    else
      .binary (span.merge operand.span) op (.binary span root left right) operand
  | e, op, operand => .binary (e.span.merge operand.span) op e operand

variable {e operand : Expr} {op : BinaryOp} {ts : List Token}

theorem operators_of_atom? {t : Token} (h : atom? t = some e) : e.operators = [] := by
  unfold atom? at h
  split at h <;> cases h <;> rfl

theorem isGrouped_of_atom? {t : Token} (h : atom? t = some e) : e.IsGrouped := by
  unfold atom? at h
  split at h <;> cases h <;> trivial

/-- The operator at the top of a tree is one of the loosest. -/
theorem IsGrouped.level_le {span : Span} {left right : Expr}
    (h : (Expr.binary span op left right).IsGrouped) :
    ∀ o ∈ (Expr.binary span op left right).operators, op.level ≤ o.level := by
  obtain ⟨hleft, hright, -, -⟩ := h
  simp only [operators, List.mem_append, List.mem_cons]
  rintro o (ho | rfl | ho)
  · exact hleft o ho
  · exact Nat.le_refl _
  · exact Nat.le_of_lt (hright o ho)

theorem operators_extend (e : Expr) (op : BinaryOp) (h : operand.operators = []) :
    (e.extend op operand).operators = e.operators ++ [op] := by
  fun_induction extend e op operand with
  | case1 span root left right op operand hlt ih => simp [operators, ih h]
  | case2 span root left right op operand hle => simp [operators, h]
  | case3 e op operand hne => simp [operators, h]

/-- What is behind a tree is read into it where the levels want it. -/
theorem IsGrouped.extend (he : e.IsGrouped) (op : BinaryOp) (h : operand.operators = [])
    (ho : operand.IsGrouped) : (e.extend op operand).IsGrouped := by
  fun_induction Expr.extend e op operand with
  | case1 span root left right op operand hlt ih =>
    obtain ⟨hleft, hright, hl, hr⟩ := he
    refine ⟨hleft, ?_, hl, ih hr h ho⟩
    rw [operators_extend right op h]
    simp only [List.mem_append, List.mem_singleton]
    rintro o (hmem | rfl)
    · exact hright o hmem
    · exact hlt
  | case2 span root left right op operand hle =>
    refine ⟨fun o hmem => ?_, by simp [h], he, ho⟩
    exact Nat.le_trans (Nat.le_of_not_lt hle) (he.level_le o hmem)
  | case3 e op operand hne =>
    have hnone : e.operators = [] := by
      cases e with
      | binary span op left right => exact absurd rfl (hne span op left right)
      | _ => rfl
    exact ⟨by simp [hnone], by simp [h], he, ho⟩

theorem SpelledBy.extend {o t : Token} (he : e.SpelledBy ts) (hop : binaryOp? o.kind = some op)
    (ht : atom? t = some operand) : (e.extend op operand).SpelledBy (ts ++ [o, t]) := by
  induction he with
  | @atom e s hs =>
    have hextend : e.extend op operand = .binary (e.span.merge operand.span) op e operand := by
      unfold Grammar.atom? at hs
      split at hs <;> cases hs <;> rfl
    rw [hextend]
    exact .binary (.atom hs) hop (.atom ht)
  | @binary left right ts us o' root hl ho hr _ ih =>
    unfold Expr.extend
    split
    · simpa using SpelledBy.binary hl ho ih
    · exact .binary (.binary hl ho hr) hop (.atom ht)

/-- A tree whose operators stand where their levels want them is an expression of the grammar. -/
theorem SpelledBy.phrase {level : Nat} (he : e.SpelledBy ts) (hgrouped : e.IsGrouped)
    (hlevel : ∀ o ∈ e.operators, level ≤ o.level) : Phrase (.binary level) ts e := by
  induction he generalizing level with
  | atom ht => exact .operand (.unsigned (.plain (.atom ht)))
  | @binary left right ts us o op hl ho hr ihl ihr =>
    obtain ⟨hleft, hright, hgl, hgr⟩ := hgrouped
    exact .binary ho (hlevel op (by simp [operators])) (ihl hgl hleft) (ihr hgr hright)

end Expr

namespace Grammar

/-- The tokens are operands of one token each, with binary operators between them. -/
inductive Alternates : List Token → Prop
  | one {t : Token} (ht : (atom? t).isSome = true) : Alternates [t]
  | more {ts : List Token} {o t : Token} (hts : Alternates ts)
      (ho : (binaryOp? o.kind).isSome = true) (ht : (atom? t).isSome = true) :
      Alternates (ts ++ [o, t])

variable {ts : List Token}

/-- Operands and operators in alternation are the tokens of a tree. -/
theorem Alternates.exists_tree (h : Alternates ts) : ∃ e : Expr, e.SpelledBy ts ∧ e.IsGrouped := by
  induction h with
  | one ht =>
    obtain ⟨e, he⟩ := Option.isSome_iff_exists.mp ht
    exact ⟨e, .atom he, Expr.isGrouped_of_atom? he⟩
  | more _ ho ht ih =>
    obtain ⟨e, hspelled, hgrouped⟩ := ih
    obtain ⟨op, hop⟩ := Option.isSome_iff_exists.mp ho
    obtain ⟨operand, ht⟩ := Option.isSome_iff_exists.mp ht
    exact ⟨e.extend op operand, hspelled.extend hop ht,
      hgrouped.extend op (Expr.operators_of_atom? ht) (Expr.isGrouped_of_atom? ht)⟩

theorem Alternates.ne_nil (h : Alternates ts) : ts ≠ [] := by
  cases h <;> simp

theorem isEnd_of_atom? {t : Token} (h : (atom? t).isSome = true) : t.kind.isEnd = false := by
  obtain ⟨kind, span⟩ := t
  cases kind <;> first | rfl | cases h

theorem isEnd_of_binaryOp? {k : Token.Kind} (h : (binaryOp? k).isSome = true) :
    k.isEnd = false := by
  cases k <;> first | rfl | cases h

theorem Alternates.isEnd (h : Alternates ts) : ∀ t ∈ ts, t.kind.isEnd = false := by
  induction h with
  | one ht => simpa using isEnd_of_atom? ht
  | more _ ho ht ih =>
    simp only [List.mem_append, List.mem_cons, List.not_mem_nil, or_false]
    rintro u (hu | rfl | rfl)
    · exact ih u hu
    · exact isEnd_of_binaryOp? ho
    · exact isEnd_of_atom? ht

/-- A tree whose operators stand where their levels want them is read from its tokens, to their
end. -/
theorem gives_of_spelledBy {e : Expr} (hspelled : e.SpelledBy ts) (hgrouped : e.IsGrouped)
    (hts : Alternates ts) (stop : Nat) :
    ∃ n h, expr (.ofTokens ts stop) = .ok e n h ∧ n.left = 0 := by
  obtain ⟨t, rest, rfl⟩ := List.exists_cons_of_ne_nil hts.ne_nil
  obtain ⟨n, htakes, hend, hleft⟩ :=
    Cursor.exists_takes (c := Cursor.ofTokens (t :: rest) stop) rfl rfl hts.isEnd
  have hphrase : Phrase (.binary 0) (t :: rest) e :=
    hspelled.phrase hgrouped fun o _ => Nat.zero_le o.level
  obtain ⟨h, hread⟩ := hphrase.ofBinary.expr_gives htakes (hend ▸ endsExpr_endOfText)
  exact ⟨n, h, hread, hleft⟩

/-- The text of these tokens is read from the cursor in front of them. -/
theorem Cursor.ofText?_eq_ofTokens {source : String}
    (h : Token.Scan.scanFrom 0 source.toList = ts.map .ok) :
    Cursor.ofText? source = .ok (.ofTokens ts source.utf8ByteSize) := by
  cases ts with
  | nil => rw [ofText?, Token.Stream.ofText, h]; rfl
  | cons t rest => rw [ofText?, Token.Stream.ofText, h]; rfl

/-- Operands with binary operators between them are read as one expression, up to the end. It is the
one tree with these tokens from left to right in which, at every operator, what is to the left binds
at least as tightly and what is to the right more tightly. -/
theorem expr_of_alternates (hts : Alternates ts) :
    ∃ e : Expr, (∀ e' : Expr, e'.SpelledBy ts ∧ e'.IsGrouped ↔ e' = e) ∧
      (∀ stop, ∃ n h, expr (.ofTokens ts stop) = .ok e n h ∧ n.left = 0) ∧
      ∀ source : String, Token.Scan.scanFrom 0 source.toList = ts.map .ok →
        ∃ c n h, Cursor.ofText? source = .ok c ∧ expr c = .ok e n h ∧ n.left = 0 := by
  obtain ⟨e, hspelled, hgrouped⟩ := hts.exists_tree
  have hread := gives_of_spelledBy hspelled hgrouped hts
  refine ⟨e, fun e' => ⟨fun ⟨hspelled', hgrouped'⟩ => ?_, ?_⟩, hread, fun source hsource => ?_⟩
  · obtain ⟨n, h, heq, -⟩ := hread 0
    obtain ⟨n', h', heq', -⟩ := gives_of_spelledBy hspelled' hgrouped' hts 0
    rw [heq] at heq'
    cases heq'
    rfl
  · rintro rfl
    exact ⟨hspelled, hgrouped⟩
  · obtain ⟨n, h, heq, hleft⟩ := hread source.utf8ByteSize
    exact ⟨_, n, h, Cursor.ofText?_eq_ofTokens hsource, heq, hleft⟩

/-- Operators of four levels, tighter ones on either side of looser ones. -/
theorem expr_of_alternates_of_levels :
    let source := "a == b - c * 2 - d || e"
    let place (kind : Token.Kind) (start stop : Nat) : Token := ⟨kind, ⟨start, stop⟩⟩
    let ts := [place (.name "a") 0 1, place (.mark .equal) 2 4, place (.name "b") 5 6,
      place (.mark .minus) 7 8, place (.name "c") 9 10, place (.mark .star) 11 12,
      place (.int 2) 13 14, place (.mark .minus) 15 16, place (.name "d") 17 18,
      place (.mark .either) 19 21, place (.name "e") 22 23]
    Alternates ts ∧ Token.Scan.scanFrom 0 source.toList = ts.map .ok ∧
      ∃ e : Expr, (∀ e' : Expr, e'.SpelledBy ts ∧ e'.IsGrouped ↔ e' = e) ∧
        (∀ stop, ∃ n h, expr (.ofTokens ts stop) = .ok e n h ∧ n.left = 0) ∧
        ∀ source : String, Token.Scan.scanFrom 0 source.toList = ts.map .ok →
          ∃ c n h, Cursor.ofText? source = .ok c ∧ expr c = .ok e n h ∧ n.left = 0 := by
  intro source place ts
  have hts : Alternates ts :=
    .more (.more (.more (.more (.more (.one rfl) rfl rfl) rfl rfl) rfl rfl) rfl rfl) rfl rfl
  exact ⟨hts, by cbv, expr_of_alternates hts⟩

end Grammar

/-- Of two operators of one level the later one is on top, whatever is tighter around them. -/
example : Expr.ofText? "a - b * 2 - c" = .ok
    (.binary ⟨0, 13⟩ (.arith .sub)
      (.binary ⟨0, 9⟩ (.arith .sub) (.var ⟨0, 1⟩ ⟨"a", ⟨0, 1⟩⟩)
        (.binary ⟨4, 9⟩ (.arith .mul) (.var ⟨4, 5⟩ ⟨"b", ⟨4, 5⟩⟩) (.int ⟨8, 9⟩ 2)))
      (.var ⟨12, 13⟩ ⟨"c", ⟨12, 13⟩⟩)) := by
  cbv

end ShaderLang
