import Mathlib
import ShaderLang.Proofs.ClauseReading
import ShaderLang.Proofs.Slice

/-!
# Spans are faithful

The span of an expression in a program that was read delimits a slice of the source text, and the
slice on its own is read as the same expression, but for spans that are counted from its beginning.
So is the slice of a declaration (`Program.isFaithful_of_ofText`).
-/

namespace ShaderLang

/-- The span of an expression is not empty, has the spans of all expressions within in it, and
delimits a slice of the source that is read to its end as the same expression. -/
structure Expr.IsFaithful (source : String) (e : Expr) : Prop where
  nonempty : e.span.start < e.span.stop
  contains : e.Everywhere fun inner => e.span.Contains inner.span
  reread : ∃ slice, e.span.Delimits source slice ∧
    ∃ c next h, Grammar.Cursor.ofText? slice = .ok c ∧
      Grammar.expr c = .ok (e.mapSpans (.back e.span.start)) next h ∧ next.left = 0

/-- The span of a declaration delimits a slice of the source that is read as a program of this
declaration alone. -/
def Decl.IsFaithful (source : String) (d : Decl) : Prop :=
  ∃ slice, d.span.Delimits source slice ∧
    Program.ofText? slice = .ok [d.mapSpans (.back d.span.start)]

namespace Grammar

open Cursor Outcome
open Token (InOrder extent)
open Token.Scan (scanFrom)

variable {c n : Cursor} {t : Token} {ts us : List Token} {source text : String}

namespace Cursor

theorem exists_takes (hc : c.current = t) (hpending : c.rest.pending = ts.map .ok)
    (hends : ∀ u ∈ t :: ts, u.kind.isEnd = false) :
    ∃ n, c.Takes (t :: ts) n ∧ n.current.kind = .endOfText ∧ n.left = 0 := by
  have hend : c.current.kind.isEnd = false := hc ▸ hends t List.mem_cons_self
  induction ts generalizing c t with
  | nil =>
    refine ⟨⟨c.rest.endToken, c.current.span, c.rest⟩, ?_, rfl, ?_⟩
    · rw [← hc]
      exact .one (by simp_all [next?])
    · simp_all [left, Token.Stream.endToken, Token.Kind.isEnd]
  | cons u rest ih =>
    have hu : u.kind.isEnd = false := hends u (by simp)
    obtain ⟨n, hn, hkind, hleft⟩ := ih
      (c := ⟨u, c.current.span, { c.rest with pending := rest.map .ok }⟩) rfl rfl
      (fun v hv => hends v (List.mem_cons_of_mem t hv)) hu
    refine ⟨n, ?_, hkind, hleft⟩
    rw [← hc]
    exact .cons (by simp_all [next?]) hn

/-- A text that consists of these tokens is read from the first of them to its end. -/
theorem exists_ofText? (h : scanFrom 0 text.toList = ts.map .ok) (hne : ts ≠ []) :
    ∃ c n, Cursor.ofText? text = .ok c ∧ c.Takes ts n ∧ n.current.kind = .endOfText ∧
      n.left = 0 := by
  obtain ⟨t, rest, rfl⟩ := List.exists_cons_of_ne_nil hne
  obtain ⟨n, hn⟩ := exists_takes (t := t)
    (c := ⟨t, default, ⟨rest.map .ok, text.utf8ByteSize⟩⟩) rfl rfl fun u hu =>
      Token.Scan.isEnd_of_mem_scanFrom (h ▸ List.mem_map_of_mem hu)
  refine ⟨_, n, ?_, hn⟩
  rw [Cursor.ofText?, Token.Stream.ofText, h]
  rfl

theorem pending_of_takes (h : c.Takes (t :: ts) n) (hn : n.current.kind.isEnd = true)
    (hends : ∀ u, .ok u ∈ c.rest.pending → u.kind.isEnd = false) :
    c.current = t ∧ c.rest.pending = ts.map .ok := by
  induction ts generalizing c t with
  | nil =>
    obtain ⟨hc, m, hm, hmn⟩ := h.uncons
    cases hmn
    refine ⟨hc, ?_⟩
    unfold next? at hm
    split at hm
    · cases hm
    · split at hm
      · next hnil => exact hnil
      · next u others hcons =>
        cases hm
        rw [hends u (by simp [hcons])] at hn
        cases hn
      · cases hm
  | cons u rest ih =>
    obtain ⟨hc, m, hm, hrest⟩ := h.uncons
    refine ⟨hc, ?_⟩
    have hend := hrest.isEnd_eq_false (by simp)
    unfold next? at hm
    split at hm
    · cases hm
    · split at hm
      · cases hm
        cases hend
      · next v others hcons =>
        cases hm
        obtain ⟨hv, hothers⟩ := ih hrest fun w hw => hends w (by simp [hcons, hw])
        change v = u at hv
        change others = rest.map .ok at hothers
        rw [hcons, hv, hothers, List.map_cons]
      · cases hm

/-- Where the tokens of a text are taken up to its end, they are all that it consists of. -/
theorem scan_of_takes (h : Cursor.ofText? source = .ok c) (hts : c.Takes ts n)
    (hn : n.current.kind.isEnd = true) : scanFrom 0 source.toList = ts.map .ok := by
  have hends {u : Token} (hu : .ok u ∈ scanFrom 0 source.toList) : u.kind.isEnd = false :=
    Token.Scan.isEnd_of_mem_scanFrom hu
  unfold Cursor.ofText? Token.Stream.next Token.Stream.ofText at h
  dsimp only at h
  cases hscan : scanFrom 0 source.toList with
  | nil =>
    rw [hscan] at h
    cases h
    cases hts with
    | nil => rfl
    | cons hnext => cases isEnd_of_next? hnext
  | cons first others =>
    rw [hscan] at h hends
    cases first with
    | error => cases h
    | ok t =>
      cases h
      cases ts with
      | nil =>
        cases hts
        rw [hends List.mem_cons_self] at hn
        cases hn
      | cons u rest =>
        obtain ⟨hu, hrest⟩ := pending_of_takes hts hn fun v hv => hends (List.mem_cons_of_mem _ hv)
        change t = u at hu
        change others = rest.map .ok at hrest
        rw [hu, hrest, List.map_cons]

end Cursor

/-- What stands in a text as a phrase is read from its slice. -/
theorem Phrase.isFaithful {e : Expr} (h : Phrase .assignment us e)
    (hscan : scanFrom 0 source.toList = ts.map .ok) (hus : us <:+: ts) : e.IsFaithful source := by
  have horder : InOrder us := (Token.Scan.inOrder_of_scanFrom hscan).1.within hus
  have hspan := h.span_eq horder
  refine ⟨?_, ?_, ?_⟩
  · rw [hspan]
    exact horder.extent_nonempty h.ne_nil
  · refine h.everywhere fun vs x hvs hx => ?_
    rw [hspan, hx.span_eq (horder.within hvs)]
    exact Token.extent_contains hx.ne_nil hvs
  · obtain ⟨slice, hslice, hback⟩ := Token.Scan.exists_slice hscan hus h.ne_nil
    obtain ⟨c, n, hc, htakes, hn, hleft⟩ := exists_ofText? hback (by simpa using h.ne_nil)
    rw [← hspan] at hslice htakes
    obtain ⟨hlt, hread⟩ := (h.mapSpan (Span.keepsMerge_back _)).expr_gives htakes
      (hn ▸ endsExpr_endOfText)
    exact ⟨slice, hslice, c, n, hlt, hc, hread, hleft⟩

/-- What stands in a text as a declaration is read from its slice. -/
theorem DeclClause.isFaithful {d : Decl} (h : DeclClause us d)
    (hscan : scanFrom 0 source.toList = ts.map .ok) (hus : us <:+: ts) : d.IsFaithful source := by
  have horder : InOrder us := (Token.Scan.inOrder_of_scanFrom hscan).1.within hus
  have hspan : d.span = extent us := h.span_eq.trans (horder.reach_eq h.ne_nil)
  obtain ⟨slice, hslice, hback⟩ := Token.Scan.exists_slice hscan hus h.ne_nil
  obtain ⟨c, n, hc, htakes, hn, -⟩ := exists_ofText? hback (by simpa using h.ne_nil)
  rw [← hspan] at hslice htakes
  have hprogram := ProgramClause.cons (h.mapSpan (Span.keepsMerge_back d.span.start)) .nil
  rw [List.append_nil] at hprogram
  obtain ⟨hlt, hread⟩ := hprogram.decls_gives htakes (by rw [hn]; rfl)
  refine ⟨slice, hslice, ?_⟩
  rw [Program.ofText?, hc]
  simp only [hread, toExcept]

end Grammar

/-- In a program that was read, the spans of all expressions and of all declarations are
faithful. -/
theorem Program.isFaithful_of_ofText {source : String} {p : Program}
    (h : Program.ofText? source = .ok p) :
    p.Everywhere (Expr.IsFaithful source) ∧ ∀ d ∈ p, d.IsFaithful source := by
  unfold Program.ofText? at h
  split at h
  · cases h
  next c hc =>
  have hcovers := Grammar.decls_covers c
  cases hread : Grammar.decls c with
  | error => rw [hread] at h; cases h
  | ok value n hlt =>
    rw [hread] at h hcovers
    cases h
    obtain ⟨ts, hts, hp, hn⟩ := hcovers
    have hscan := Grammar.Cursor.scan_of_takes hc hts hn
    refine ⟨fun d hd => ?_, fun d hd => ?_⟩ <;> obtain ⟨us, hus, hclause⟩ := hp.exists_mem d hd
    · exact hclause.everywhere fun vs x hvs hx => hx.isFaithful hscan (hvs.trans hus)
    · exact hclause.isFaithful hscan hus

/-- Parentheses belong to the span of what stands between them, also where it is an operand. -/
theorem Program.isFaithful_of_parenthesized :
    let source := "int x = (1 + a) * 3;"
    let sum := Expr.binary ⟨8, 15⟩ (.arith .add) (.int ⟨9, 10⟩ 1) (.var ⟨13, 14⟩ ⟨"a", ⟨13, 14⟩⟩)
    let p : Program := [.var ⟨⟨"x", ⟨4, 5⟩⟩, .int, none,
      some (.binary ⟨8, 19⟩ (.arith .mul) sum (.int ⟨18, 19⟩ 3)), ⟨0, 20⟩⟩]
    Program.ofText? source = .ok p ∧ p.Everywhere (Expr.IsFaithful source) ∧
      ∀ d ∈ p, d.IsFaithful source :=
  have h : Program.ofText? "int x = (1 + a) * 3;" = .ok _ := by cbv
  ⟨h, isFaithful_of_ofText h⟩

end ShaderLang
