import ShaderLang.Grammar
import ShaderLang.Proofs.Everywhere

/-!
# Phrases

The grammar of expressions as a relation: `Phrase r ts e` says that the tokens `ts` are an
expression of the rank `r`, and that they stand for `e`. Unlike the rules that read, a phrase says
nothing of the tokens around it, and the operators that associate to the left recur on the left.

A phrase keeps its shape when the spans of its tokens are changed (`Phrase.mapSpan`), the span of an
expression is the extent of its phrase (`Phrase.span_eq`), and every expression in a phrase is
a phrase on some of its tokens (`Phrase.everywhere`).
-/

namespace ShaderLang

/-! ## Changes of spans -/

namespace Span

/-- A change of spans under which what covers two spans goes on to cover both and no more. -/
def KeepsMerge (f : Span → Span) : Prop :=
  ∀ a b, f (a.merge b) = (f a).merge (f b)

/-- The span as counted from a later offset. -/
def back (offset : Nat) (s : Span) : Span :=
  ⟨s.start - offset, s.stop - offset⟩

/-- Whether all of a span lies in another one. -/
structure Contains (s inner : Span) : Prop where
  start_le : s.start ≤ inner.start
  le_stop : inner.stop ≤ s.stop

theorem keepsMerge_back (offset : Nat) : KeepsMerge (back offset) := by
  intro a b
  simp only [back, merge, mk.injEq]
  omega

theorem KeepsMerge.merge {f : Span → Span} (hf : KeepsMerge f) (a b : Span) :
    f (a.merge b) = (f a).merge (f b) :=
  hf a b

theorem Contains.merge_left {s inner : Span} (h : s.Contains inner) (t : Span) :
    (s.merge t).Contains inner :=
  ⟨Nat.le_trans (Nat.min_le_left _ _) h.1, Nat.le_trans h.2 (Nat.le_max_left _ _)⟩

theorem Contains.merge_right {s inner : Span} (h : s.Contains inner) (t : Span) :
    (t.merge s).Contains inner :=
  merge_comm s t ▸ h.merge_left t

theorem Contains.refl (s : Span) : s.Contains s :=
  ⟨Nat.le_refl _, Nat.le_refl _⟩

end Span

/-- The token with its span changed. -/
def Token.mapSpan (f : Span → Span) (t : Token) : Token :=
  ⟨t.kind, f t.span⟩

/-- The name with its span changed. -/
def Ident.mapSpan (f : Span → Span) (name : Ident) : Ident :=
  ⟨name.name, f name.span⟩

@[simp]
theorem Token.kind_mapSpan (f : Span → Span) (t : Token) : (t.mapSpan f).kind = t.kind :=
  rfl

@[simp]
theorem Token.span_mapSpan (f : Span → Span) (t : Token) : (t.mapSpan f).span = f t.span :=
  rfl

mutual

/-- The expression with all spans in it changed. -/
def Expr.mapSpans (f : Span → Span) : Expr → Expr
  | .int span n => .int (f span) n
  | .float span x => .float (f span) x
  | .bool span b => .bool (f span) b
  | .var span name => .var (f span) (name.mapSpan f)
  | .binary span op left right => .binary (f span) op (left.mapSpans f) (right.mapSpans f)
  | .unary span op operand => .unary (f span) op (operand.mapSpans f)
  | .assign span op target value => .assign (f span) op (target.mapSpans f) (value.mapSpans f)
  | .stepAfter span direction operand => .stepAfter (f span) direction (operand.mapSpans f)
  | .conditional span test ifTrue ifFalse =>
    .conditional (f span) (test.mapSpans f) (ifTrue.mapSpans f) (ifFalse.mapSpans f)
  | .index span base position => .index (f span) (base.mapSpans f) (position.mapSpans f)
  | .field span base name => .field (f span) (base.mapSpans f) (name.mapSpan f)
  | .call span callee arguments =>
    .call (f span) (callee.mapSpan f) (Expr.mapAllSpans f arguments)
  | .construct span target arguments => .construct (f span) target (Expr.mapAllSpans f arguments)

/-- The expressions with all spans in them changed. -/
def Expr.mapAllSpans (f : Span → Span) : List Expr → List Expr
  | [] => []
  | e :: rest => e.mapSpans f :: Expr.mapAllSpans f rest

end

@[simp]
theorem Expr.span_mapSpans (f : Span → Span) (e : Expr) : (e.mapSpans f).span = f e.span := by
  cases e <;> rfl

@[simp]
theorem Expr.mapSpans_withSpan (f : Span → Span) (e : Expr) (span : Span) :
    (e.withSpan span).mapSpans f = (e.mapSpans f).withSpan (f span) := by
  cases e <;> rfl

/-! ## The extent of tokens -/

namespace Token

/-- The smallest span that covers a row of tokens. -/
def extent : List Token → Span
  | [] => default
  | [t] => t.span
  | t :: u :: rest => t.span.merge (extent (u :: rest))

/-- The span from the first of these tokens to the last one. -/
def reach : List Token → Span
  | [] => default
  | t :: ts => t.span.merge ((t :: ts).getLast (List.cons_ne_nil t ts)).span

/-- The tokens stand one behind the other, and none of them is empty. -/
structure InOrder (ts : List Token) : Prop where
  apart : ts.Pairwise fun t u => t.span.stop ≤ u.span.start
  nonempty : ∀ t ∈ ts, t.span.start < t.span.stop

variable {ts us : List Token}

theorem InOrder.tail {t : Token} (h : InOrder (t :: ts)) : InOrder ts :=
  ⟨h.1.of_cons, fun u hu => h.2 u (List.mem_cons_of_mem t hu)⟩

theorem InOrder.left (h : InOrder (ts ++ us)) : InOrder ts :=
  ⟨(List.pairwise_append.mp h.1).1, fun t ht => h.2 t (List.mem_append_left us ht)⟩

theorem InOrder.right (h : InOrder (ts ++ us)) : InOrder us :=
  ⟨(List.pairwise_append.mp h.1).2.1, fun t ht => h.2 t (List.mem_append_right ts ht)⟩

theorem InOrder.within (h : InOrder ts) (hus : us <:+: ts) : InOrder us := by
  obtain ⟨before, behind, rfl⟩ := hus
  exact h.left.right

theorem extent_cons (t : Token) (hne : us ≠ []) :
    extent (t :: us) = t.span.merge (extent us) := by
  cases us with
  | nil => exact absurd rfl hne
  | cons => rfl

theorem extent_append (hts : ts ≠ []) (hus : us ≠ []) :
    extent (ts ++ us) = (extent ts).merge (extent us) := by
  induction ts with
  | nil => exact absurd rfl hts
  | cons t rest ih =>
    cases rest with
    | nil => exact extent_cons t hus
    | cons u rest =>
      rw [List.cons_append, extent_cons t (by simp), ih (by simp), extent_cons t (by simp),
        Span.merge_assoc]

theorem extent_contains (hne : us ≠ []) (h : us <:+: ts) : (extent ts).Contains (extent us) := by
  obtain ⟨before, behind, rfl⟩ := h
  have hleft : (extent (before ++ us)).Contains (extent us) := by
    cases before with
    | nil => exact .refl _
    | cons t rest =>
      rw [extent_append (by simp) hne]
      exact (Span.Contains.refl _).merge_right _
  cases behind with
  | nil => simpa using hleft
  | cons t rest =>
    rw [extent_append (by simp [hne]) (by simp)]
    exact hleft.merge_left _

theorem InOrder.extent_nonempty (h : InOrder ts) (hne : ts ≠ []) :
    (extent ts).start < (extent ts).stop := by
  obtain ⟨t, rest, rfl⟩ := List.exists_cons_of_ne_nil hne
  have hin : (extent (t :: rest)).Contains (extent [t]) :=
    extent_contains (by simp) ⟨[], rest, rfl⟩
  have ht := h.2 t List.mem_cons_self
  exact Nat.lt_of_le_of_lt hin.1 (Nat.lt_of_lt_of_le ht hin.2)

theorem exists_extent_start (hne : ts ≠ []) : ∃ t ∈ ts, (extent ts).start = t.span.start := by
  induction ts with
  | nil => exact absurd rfl hne
  | cons t rest ih =>
    cases rest with
    | nil => exact ⟨t, List.mem_cons_self, rfl⟩
    | cons u rest =>
      obtain ⟨v, hv, hstart⟩ := ih (by simp)
      rcases Nat.le_total t.span.start (extent (u :: rest)).start with h | h
      · exact ⟨t, List.mem_cons_self, Nat.min_eq_left h⟩
      · exact ⟨v, List.mem_cons_of_mem t hv, (Nat.min_eq_right h).trans hstart⟩

theorem exists_extent_stop (hne : ts ≠ []) : ∃ t ∈ ts, (extent ts).stop = t.span.stop := by
  induction ts with
  | nil => exact absurd rfl hne
  | cons t rest ih =>
    cases rest with
    | nil => exact ⟨t, List.mem_cons_self, rfl⟩
    | cons u rest =>
      obtain ⟨v, hv, hstop⟩ := ih (by simp)
      rcases Nat.le_total t.span.stop (extent (u :: rest)).stop with h | h
      · exact ⟨v, List.mem_cons_of_mem t hv, (Nat.max_eq_right h).trans hstop⟩
      · exact ⟨t, List.mem_cons_self, Nat.max_eq_left h⟩

theorem InOrder.extent_le (h : InOrder (ts ++ us)) (hts : ts ≠ []) (hus : us ≠ []) :
    (extent ts).stop ≤ (extent us).start := by
  obtain ⟨t, ht, hstop⟩ := exists_extent_stop hts
  obtain ⟨u, hu, hstart⟩ := exists_extent_start hus
  rw [hstop, hstart]
  exact (List.pairwise_append.mp h.1).2.2 t ht u hu

theorem InOrder.extent_le_tail {t : Token} (h : InOrder (t :: ts)) (hts : ts ≠ []) :
    t.span.stop ≤ (extent ts).start :=
  (show InOrder ([t] ++ ts) from h).extent_le (by simp) hts

/-- Tokens in order are covered by what covers the first and the last ones. -/
theorem extent_eq (ts ms us : List Token) (h : InOrder (ts ++ (ms ++ us))) (hts : ts ≠ [])
    (hus : us ≠ []) : (extent ts).merge (extent us) = extent (ts ++ (ms ++ us)) := by
  rw [extent_append hts (by simp [hus])]
  by_cases hms : ms = []
  · rw [hms, List.nil_append]
  rw [extent_append hms hus]
  have h₁ := h.extent_le hts (by simp [hus])
  have h₂ := h.right.extent_le hms hus
  have h₃ := h.left.extent_nonempty hts
  have h₄ := h.right.left.extent_nonempty hms
  have h₅ := h.right.right.extent_nonempty hus
  rw [extent_append hms hus] at h₁
  simp only [Span.merge, Span.mk.injEq] at h₁ ⊢
  omega

/-- In order, the first and the last token have all others between them. -/
theorem InOrder.reach_eq (h : InOrder ts) (hne : ts ≠ []) : reach ts = extent ts := by
  obtain ⟨t, rest, rfl⟩ := List.exists_cons_of_ne_nil hne
  by_cases hrest : rest = []
  · subst hrest
    exact Span.merge_self t.span
  obtain ⟨ms, u, rfl⟩ : ∃ ms u, rest = ms ++ [u] :=
    ⟨_, _, (List.dropLast_concat_getLast hrest).symm⟩
  simpa [reach, extent, List.getLast_cons] using
    extent_eq [t] ms [u] h (by simp) (by simp)

theorem reach_map {f : Span → Span} (hf : Span.KeepsMerge f) (hne : ts ≠ []) :
    reach (ts.map (·.mapSpan f)) = f (reach ts) := by
  obtain ⟨t, rest, rfl⟩ := List.exists_cons_of_ne_nil hne
  have hlast : ((t :: rest).map (·.mapSpan f)).getLast (by simp) =
      ((t :: rest).getLast hne).mapSpan f := by
    rw [List.getLast_map]
  rw [reach, hf.merge]
  exact congrArg (fun u => (f t.span).merge u.span) hlast

end Token

namespace Grammar

/-! ## The relation -/

/-- How tightly an expression holds together without parentheses. -/
inductive Rank where
  | primary
  | suffixed
  | unary
  | binary (level : Nat)
  | conditional
  | assignment
  deriving DecidableEq

/-- The expression that a single token stands for. -/
def atom? (t : Token) : Option Expr :=
  match t.kind with
  | .int n => some (.int t.span n)
  | .float x => some (.float t.span x)
  | .keyword .trueWord => some (.bool t.span true)
  | .keyword .falseWord => some (.bool t.span false)
  | .name text => some (.var t.span ⟨text, t.span⟩)
  | _ => none

mutual

/-- The tokens are an expression of the rank, and the expression is what they stand for. -/
inductive Phrase : Rank → List Token → Expr → Prop
  | atom {t : Token} {e : Expr} (ht : atom? t = some e) : Phrase .primary [t] e
  | call {t o c : Token} {ts : List Token} {text : String} {es : List Expr}
      (ht : t.kind = .name text) (ho : o.kind = .mark .openParen) (hes : Arguments ts es)
      (hc : c.kind = .mark .closeParen) :
      Phrase .primary (t :: o :: (ts ++ [c])) (.call (t.span.merge c.span) ⟨text, t.span⟩ es)
  | construct {t o c : Token} {ts : List Token} {target : Ty} {es : List Expr}
      (ht : t.kind.ty? = some target) (ho : o.kind = .mark .openParen) (hes : Arguments ts es)
      (hc : c.kind = .mark .closeParen) :
      Phrase .primary (t :: o :: (ts ++ [c])) (.construct (t.span.merge c.span) target es)
  | parens {o c : Token} {ts : List Token} {e : Expr} (ho : o.kind = .mark .openParen)
      (he : Phrase .assignment ts e) (hc : c.kind = .mark .closeParen) :
      Phrase .primary (o :: (ts ++ [c])) (e.withSpan (o.span.merge c.span))
  | plain {ts : List Token} {e : Expr} (he : Phrase .primary ts e) : Phrase .suffixed ts e
  | index {o c : Token} {ts us : List Token} {base position : Expr}
      (hb : Phrase .suffixed ts base) (ho : o.kind = .mark .openBracket)
      (hp : Phrase .assignment us position) (hc : c.kind = .mark .closeBracket) :
      Phrase .suffixed (ts ++ o :: (us ++ [c])) (.index (base.span.merge c.span) base position)
  | field {o n : Token} {ts : List Token} {base : Expr} {text : String}
      (hb : Phrase .suffixed ts base) (ho : o.kind = .mark .dot) (hn : n.kind = .name text) :
      Phrase .suffixed (ts ++ [o, n]) (.field (base.span.merge n.span) base ⟨text, n.span⟩)
  | stepAfter {o : Token} {ts : List Token} {base : Expr} {direction : Step}
      (hb : Phrase .suffixed ts base) (ho : step? o.kind = some direction) :
      Phrase .suffixed (ts ++ [o]) (.stepAfter (base.span.merge o.span) direction base)
  | unsigned {ts : List Token} {e : Expr} (he : Phrase .suffixed ts e) : Phrase .unary ts e
  | signed {o : Token} {ts : List Token} {op : UnaryOp} {operand : Expr}
      (ho : unaryOp? o.kind = some op) (he : Phrase .unary ts operand) :
      Phrase .unary (o :: ts) (.unary (o.span.merge operand.span) op operand)
  | operand {level : Nat} {ts : List Token} {e : Expr} (he : Phrase .unary ts e) :
      Phrase (.binary level) ts e
  | binary {level : Nat} {o : Token} {ts us : List Token} {op : BinaryOp} {left right : Expr}
      (ho : binaryOp? o.kind = some op) (hop : level ≤ op.level)
      (hl : Phrase (.binary op.level) ts left) (hr : Phrase (.binary (op.level + 1)) us right) :
      Phrase (.binary level) (ts ++ o :: us) (.binary (left.span.merge right.span) op left right)
  | decided {ts : List Token} {e : Expr} (he : Phrase (.binary 0) ts e) : Phrase .conditional ts e
  | conditional {q c : Token} {ts us vs : List Token} {test ifTrue ifFalse : Expr}
      (ht : Phrase (.binary 0) ts test) (hq : q.kind = .mark .question)
      (hu : Phrase .assignment us ifTrue) (hc : c.kind = .mark .colon)
      (hv : Phrase .conditional vs ifFalse) :
      Phrase .conditional (ts ++ q :: (us ++ c :: vs))
        (.conditional (test.span.merge ifFalse.span) test ifTrue ifFalse)
  | value {ts : List Token} {e : Expr} (he : Phrase .conditional ts e) : Phrase .assignment ts e
  | assign {o : Token} {ts us : List Token} {op : AssignOp} {target value : Expr}
      (ht : Phrase .conditional ts target) (ho : assignOp? o.kind = some op)
      (hv : Phrase .assignment us value) :
      Phrase .assignment (ts ++ o :: us) (.assign (target.span.merge value.span) op target value)

/-- The tokens between the parentheses behind a name, and the arguments that they stand for. -/
inductive Arguments : List Token → List Expr → Prop
  | none : Arguments [] []
  | some {ts : List Token} {es : List Expr} (hes : Phrases ts es) : Arguments ts es

/-- The tokens are expressions with commas between them, one or more. -/
inductive Phrases : List Token → List Expr → Prop
  | one {ts : List Token} {e : Expr} (he : Phrase .assignment ts e) : Phrases ts [e]
  | cons {o : Token} {ts us : List Token} {e : Expr} {es : List Expr}
      (he : Phrase .assignment ts e) (ho : o.kind = .mark .comma) (hes : Phrases us es) :
      Phrases (ts ++ o :: us) (e :: es)

end

variable {ts us : List Token} {e : Expr} {level : Nat}

/-! ## Ranks -/

/-- Operators of a tighter level are operators of a looser one. -/
theorem Phrase.loosen {other : Nat} (h : Phrase (.binary level) ts e) (hle : other ≤ level) :
    Phrase (.binary other) ts e := by
  cases h with
  | operand he => exact .operand he
  | binary ho hop hl hr => exact .binary ho (Nat.le_trans hle hop) hl hr

theorem Phrase.ofBinary (h : Phrase (.binary level) ts e) : Phrase .assignment ts e :=
  .value (.decided (h.loosen (Nat.zero_le level)))

theorem Phrase.ofUnary (h : Phrase .unary ts e) : Phrase .assignment ts e :=
  ofBinary (.operand h : Phrase (.binary 0) ts e)

/-- Whatever its rank, a phrase is an expression. -/
theorem Phrase.toAssignment {r : Rank} (h : Phrase r ts e) : Phrase .assignment ts e := by
  cases r with
  | primary => exact ofUnary (.unsigned (.plain h))
  | suffixed => exact ofUnary (.unsigned h)
  | unary => exact h.ofUnary
  | binary level => exact h.ofBinary
  | conditional => exact .value h
  | assignment => exact h

/-! ## Changes of spans -/

theorem atom?_mapSpan (f : Span → Span) {t : Token} (h : atom? t = some e) :
    atom? (t.mapSpan f) = some (e.mapSpans f) := by
  obtain ⟨kind, span⟩ := t
  unfold atom? at h ⊢
  simp only [Token.kind_mapSpan] at h ⊢
  split at h <;> cases h <;> rfl

mutual

/-- The spans of an expression follow those of its tokens. -/
theorem Phrase.mapSpan {f : Span → Span} (hf : Span.KeepsMerge f) {r : Rank} {ts : List Token}
    {e : Expr} (h : Phrase r ts e) :
    Phrase r (ts.map (·.mapSpan f)) (e.mapSpans f) := by
  match h with
  | .atom ht => exact .atom (atom?_mapSpan f ht)
  | .call (t := t) (o := o) (c := c) ht ho hes hc =>
    simpa [Expr.mapSpans, Ident.mapSpan, hf.merge] using
      Phrase.call (t := t.mapSpan f) (o := o.mapSpan f) (c := c.mapSpan f) ht ho (hes.mapSpan hf) hc
  | .construct (t := t) (o := o) (c := c) ht ho hes hc =>
    simpa [Expr.mapSpans, hf.merge] using
      Phrase.construct (t := t.mapSpan f) (o := o.mapSpan f) (c := c.mapSpan f) ht ho
        (hes.mapSpan hf) hc
  | .parens (o := o) (c := c) ho he hc =>
    simpa [hf.merge] using
      Phrase.parens (o := o.mapSpan f) (c := c.mapSpan f) ho (he.mapSpan hf) hc
  | .plain he => exact .plain (he.mapSpan hf)
  | .index (o := o) (c := c) hb ho hp hc =>
    simpa [Expr.mapSpans, hf.merge] using
      Phrase.index (o := o.mapSpan f) (c := c.mapSpan f) (hb.mapSpan hf) ho (hp.mapSpan hf) hc
  | .field (o := o) (n := n) hb ho hn =>
    simpa [Expr.mapSpans, Ident.mapSpan, hf.merge] using
      Phrase.field (o := o.mapSpan f) (n := n.mapSpan f) (hb.mapSpan hf) ho hn
  | .stepAfter (o := o) hb ho =>
    simpa [Expr.mapSpans, hf.merge] using Phrase.stepAfter (o := o.mapSpan f) (hb.mapSpan hf) ho
  | .unsigned he => exact .unsigned (he.mapSpan hf)
  | .signed (o := o) ho he =>
    simpa [Expr.mapSpans, hf.merge] using Phrase.signed (o := o.mapSpan f) ho (he.mapSpan hf)
  | .operand he => exact .operand (he.mapSpan hf)
  | .binary (o := o) ho hop hl hr =>
    simpa [Expr.mapSpans, hf.merge] using
      Phrase.binary (o := o.mapSpan f) ho hop (hl.mapSpan hf) (hr.mapSpan hf)
  | .decided he => exact .decided (he.mapSpan hf)
  | .conditional (q := q) (c := c) ht hq hu hc hv =>
    simpa [Expr.mapSpans, hf.merge] using
      Phrase.conditional (q := q.mapSpan f) (c := c.mapSpan f) (ht.mapSpan hf) hq (hu.mapSpan hf) hc
        (hv.mapSpan hf)
  | .value he => exact .value (he.mapSpan hf)
  | .assign (o := o) ht ho hv =>
    simpa [Expr.mapSpans, hf.merge] using
      Phrase.assign (o := o.mapSpan f) (ht.mapSpan hf) ho (hv.mapSpan hf)

theorem Arguments.mapSpan {f : Span → Span} (hf : Span.KeepsMerge f) {ts : List Token}
    {es : List Expr} (h : Arguments ts es) :
    Arguments (ts.map (·.mapSpan f)) (Expr.mapAllSpans f es) := by
  match h with
  | .none => exact .none
  | .some hes => exact .some (hes.mapSpan hf)

theorem Phrases.mapSpan {f : Span → Span} (hf : Span.KeepsMerge f) {ts : List Token}
    {es : List Expr} (h : Phrases ts es) :
    Phrases (ts.map (·.mapSpan f)) (Expr.mapAllSpans f es) := by
  match h with
  | .one he => exact .one (he.mapSpan hf)
  | .cons (o := o) he ho hes =>
    simpa [Expr.mapAllSpans] using
      Phrases.cons (o := o.mapSpan f) (he.mapSpan hf) ho (hes.mapSpan hf)

end

/-! ## What a phrase begins with -/

/-- The tokens that an expression may begin with. -/
def startsExpr (k : Token.Kind) : Bool :=
  match k with
  | .int _ | .float _ | .name _ | .keyword .trueWord | .keyword .falseWord => true
  | .mark .openParen => true
  | k => k.isType || (unaryOp? k).isSome

/-- Whether no operator stands in front of an expression of this rank. -/
def Rank.isUnsigned : Rank → Bool
  | .primary | .suffixed => true
  | _ => false

/-- What is known of the first token of a phrase: whether an operator can be in front, and that
a parenthesis is behind a type. -/
structure Opens (r : Rank) (ts : List Token) (t : Token) : Prop where
  head : ts.head? = some t
  starts : startsExpr t.kind = true
  construct : t.kind.isType = true → (ts.drop 1).head?.map Token.kind = some (.mark .openParen)
  unsigned : r.isUnsigned = true → unaryOp? t.kind = none

namespace Opens

variable {r q : Rank} {t : Token}

theorem append (h : Opens r ts t) (us : List Token) : Opens r (ts ++ us) t := by
  obtain ⟨rest, rfl⟩ := List.head?_eq_some_iff.mp h.head
  refine ⟨rfl, h.starts, fun ht => ?_, h.unsigned⟩
  have hc := h.construct ht
  cases rest with
  | nil => cases hc
  | cons => exact hc

theorem weaken (h : Opens r ts t) (hq : q.isUnsigned = true → r.isUnsigned = true) : Opens q ts t :=
  ⟨h.head, h.starts, h.construct, fun h' => h.unsigned (hq h')⟩

theorem ofAtom (h : atom? t = some e) : Opens .primary [t] t := by
  refine ⟨rfl, ?_, fun ht => ?_, fun _ => ?_⟩ <;> unfold atom? at h <;> split at h <;>
    simp_all [startsExpr, Token.Kind.isType, Token.Kind.ty?, Keyword.ty?, unaryOp?]

theorem ofType {target : Ty} (h : t.kind.ty? = some target) {o : Token}
    (ho : o.kind = .mark .openParen) (us : List Token) : Opens .primary (t :: o :: us) t := by
  refine ⟨rfl, ?_, fun _ => by simp [ho], fun _ => ?_⟩ <;>
    obtain ⟨kind, span⟩ := t <;> cases kind with
    | keyword word => cases word <;> first | rfl | cases h
    | _ => cases h

end Opens

theorem Phrase.opens {r : Rank} {ts : List Token} {e : Expr} (h : Phrase r ts e) :
    ∃ t, Opens r ts t := by
  match h with
  | .atom ht => exact ⟨_, .ofAtom ht⟩
  | .call (t := t) ht ho .. =>
    exact ⟨t, rfl, by simp [ht, startsExpr], by simp [ho], by simp [ht, unaryOp?]⟩
  | .construct ht ho .. => exact ⟨_, .ofType ht ho _⟩
  | .parens (o := o) ho .. =>
    exact ⟨o, rfl, by simp [ho, startsExpr], by simp [ho, Token.Kind.isType, Token.Kind.ty?],
      by simp [ho, unaryOp?]⟩
  | .plain he => exact he.opens.imp fun _ h => h.weaken fun _ => rfl
  | .unsigned he | .operand he | .decided he | .value he =>
    exact he.opens.imp fun _ h => h.weaken fun h' => nomatch h'
  | .index hb .. | .field hb .. | .stepAfter hb _ =>
    exact hb.opens.imp fun _ h => h.append _
  | .binary _ _ hb _ | .conditional hb .. | .assign hb .. =>
    exact hb.opens.imp fun _ h => (h.append _).weaken fun h' => nomatch h'
  | .signed (o := o) ho _ =>
    obtain ⟨kind, span⟩ := o
    cases kind with
    | mark m => exact ⟨_, rfl, by cases m <;> (first | rfl | cases ho), nofun, nofun⟩
    | _ => cases ho

theorem Phrase.ne_nil {r : Rank} (h : Phrase r ts e) : ts ≠ [] := by
  obtain ⟨t, ht⟩ := h.opens
  rintro rfl
  cases ht.head

theorem Phrases.opens {es : List Expr} (h : Phrases ts es) : ∃ t, Opens .assignment ts t := by
  cases h with
  | one he => exact he.opens
  | cons he => exact he.opens.imp fun _ h => h.append _

/-! ## The extent of a phrase -/

theorem span_of_atom? {t : Token} (h : atom? t = some e) : e.span = t.span := by
  unfold atom? at h
  split at h <;> cases h <;> rfl

/-- An expression covers the tokens of its phrase. -/
theorem Phrase.span_eq {r : Rank} {ts : List Token} {e : Expr} (h : Phrase r ts e)
    (hts : Token.InOrder ts) : e.span = Token.extent ts := by
  match h with
  | .atom ht => exact span_of_atom? ht
  | .call (t := t) (o := o) (c := c) .. =>
    exact Token.extent_eq [t] (o :: _) [c] hts (List.cons_ne_nil _ _) (List.cons_ne_nil _ _)
  | .construct (t := t) (o := o) (c := c) .. =>
    exact Token.extent_eq [t] (o :: _) [c] hts (List.cons_ne_nil _ _) (List.cons_ne_nil _ _)
  | .parens (o := o) (c := c) .. =>
    rw [Expr.span_withSpan]
    exact Token.extent_eq [o] _ [c] hts (List.cons_ne_nil _ _) (List.cons_ne_nil _ _)
  | .plain he | .unsigned he | .operand he | .decided he | .value he => exact he.span_eq hts
  | .index (o := o) (c := c) hb .. =>
    change Span.merge _ _ = _
    rw [hb.span_eq hts.left]
    exact Token.extent_eq _ (o :: _) [c] hts hb.ne_nil (List.cons_ne_nil _ _)
  | .field (o := o) (n := n) hb .. =>
    change Span.merge _ _ = _
    rw [hb.span_eq hts.left]
    exact Token.extent_eq _ [o] [n] hts hb.ne_nil (List.cons_ne_nil _ _)
  | .stepAfter (o := o) hb _ =>
    change Span.merge _ _ = _
    rw [hb.span_eq hts.left]
    exact Token.extent_eq _ [] [o] hts hb.ne_nil (List.cons_ne_nil _ _)
  | .signed (o := o) _ he =>
    change Span.merge _ _ = _
    rw [he.span_eq hts.tail]
    exact Token.extent_eq [o] [] _ hts (List.cons_ne_nil _ _) he.ne_nil
  | .binary (o := o) _ _ hl hr =>
    change Span.merge _ _ = _
    rw [hl.span_eq hts.left, hr.span_eq hts.right.tail]
    exact Token.extent_eq _ [o] _ hts hl.ne_nil hr.ne_nil
  | @Phrase.conditional q c ts us vs _ _ _ ht _ _ _ hv =>
    have hcons : q :: (us ++ c :: vs) = (q :: (us ++ [c])) ++ vs := by
      rw [List.cons_append, List.append_assoc, List.singleton_append]
    rw [hcons] at hts ⊢
    change Span.merge _ _ = _
    rw [ht.span_eq hts.left, hv.span_eq hts.right.right]
    exact Token.extent_eq _ _ _ hts ht.ne_nil hv.ne_nil
  | .assign (o := o) ht _ hv =>
    change Span.merge _ _ = _
    rw [ht.span_eq hts.left, hv.span_eq hts.right.tail]
    exact Token.extent_eq _ [o] _ hts ht.ne_nil hv.ne_nil

/-! ## Phrases in a phrase -/

mutual

/-- What holds of every phrase on some of the tokens holds of every expression in a phrase. -/
theorem Phrase.everywhere {P : Expr → Prop} {r : Rank} {ts : List Token} {e : Expr}
    (h : Phrase r ts e) (hP : ∀ us x, us <:+: ts → Phrase .assignment us x → P x) :
    e.Everywhere P := by
  have hself : P e := hP ts e (List.infix_refl ts) h.toAssignment
  have inside {us : List Token} (hus : us <:+: ts) (vs : List Token) (x : Expr) (hvs : vs <:+: us)
      (hx : Phrase .assignment vs x) : P x := hP vs x (hvs.trans hus) hx
  match h with
  | .atom ht =>
    unfold atom? at ht
    split at ht <;> cases ht <;> exact hself
  | .call (t := t) (o := o) (c := c) _ _ hes _ =>
    exact ⟨hself, hes.everywhere (inside ⟨[t, o], [c], by simp⟩)⟩
  | .construct (t := t) (o := o) (c := c) _ _ hes _ =>
    exact ⟨hself, hes.everywhere (inside ⟨[t, o], [c], by simp⟩)⟩
  | .parens (o := o) (c := c) _ he _ =>
    exact (he.everywhere (inside ⟨[o], [c], by simp⟩)).withSpan hself
  | .plain he | .unsigned he | .operand he | .decided he | .value he => exact he.everywhere hP
  | @Phrase.index o c ts us _ _ hb _ hp _ =>
    exact ⟨hself, hb.everywhere (inside ⟨[], o :: (us ++ [c]), by simp⟩),
      hp.everywhere (inside ⟨ts ++ [o], [c], by simp⟩)⟩
  | .field (o := o) (n := n) hb _ _ =>
    exact ⟨hself, hb.everywhere (inside ⟨[], [o, n], by simp⟩)⟩
  | .stepAfter (o := o) hb _ => exact ⟨hself, hb.everywhere (inside ⟨[], [o], by simp⟩)⟩
  | .signed (o := o) _ he => exact ⟨hself, he.everywhere (inside ⟨[o], [], by simp⟩)⟩
  | @Phrase.binary _ o ts us _ _ _ _ _ hl hr =>
    exact ⟨hself, hl.everywhere (inside ⟨[], o :: us, by simp⟩),
      hr.everywhere (inside ⟨ts ++ [o], [], by simp⟩)⟩
  | @Phrase.conditional q c ts us vs _ _ _ ht _ hu _ hv =>
    exact ⟨hself, ht.everywhere (inside ⟨[], q :: (us ++ c :: vs), by simp⟩),
      hu.everywhere (inside ⟨ts ++ [q], c :: vs, by simp⟩),
      hv.everywhere (inside ⟨ts ++ q :: (us ++ [c]), [], by simp⟩)⟩
  | @Phrase.assign o ts us _ _ _ ht _ hv =>
    exact ⟨hself, ht.everywhere (inside ⟨[], o :: us, by simp⟩),
      hv.everywhere (inside ⟨ts ++ [o], [], by simp⟩)⟩

theorem Arguments.everywhere {P : Expr → Prop} {ts : List Token} {es : List Expr}
    (h : Arguments ts es) (hP : ∀ us x, us <:+: ts → Phrase .assignment us x → P x) :
    Expr.AllEverywhere P es := by
  match h with
  | .none => trivial
  | .some hes => exact hes.everywhere hP

theorem Phrases.everywhere {P : Expr → Prop} {ts : List Token} {es : List Expr} (h : Phrases ts es)
    (hP : ∀ us x, us <:+: ts → Phrase .assignment us x → P x) : Expr.AllEverywhere P es := by
  match h with
  | .one he => exact ⟨he.everywhere hP, trivial⟩
  | @Phrases.cons o ts us _ _ he _ hes =>
    exact ⟨he.everywhere fun vs x hvs => hP vs x (hvs.trans ⟨[], o :: us, by simp⟩),
      hes.everywhere fun vs x hvs => hP vs x (hvs.trans ⟨ts ++ [o], [], by simp⟩)⟩

end

end Grammar

end ShaderLang
