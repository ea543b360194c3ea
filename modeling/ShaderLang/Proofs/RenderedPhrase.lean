import Mathlib
import ShaderLang.Proofs.Phrase
import ShaderLang.Proofs.Rendering

/-!
# Rendered phrases

What an expression is rendered as is a phrase again, and stands for the same expression, but for
spans (`Phrase.renders`). `Renders` says this of any tokens that have the kinds in question,
wherever they stand; a phrase in parentheses may stand in any place, and one without them where it
is admitted (`Renders.put`).
-/

namespace ShaderLang

/-! ## Agreement up to spans -/

/-- The expression without its spans. -/
def Expr.unplaced (e : Expr) : Expr :=
  e.mapSpans fun _ => default

/-- The expressions without their spans. -/
def Expr.allUnplaced (es : List Expr) : List Expr :=
  Expr.mapAllSpans (fun _ => default) es

@[simp]
theorem Expr.tokens_withSpan (style : Style) (e : Expr) (span : Span) :
    (e.withSpan span).tokens style = e.tokens style := by
  cases e <;> rfl

/-- The rank of what stands in a place. -/
def Slot.rank : Slot → Grammar.Rank
  | whole | value | middle => .assignment
  | alternative => .conditional
  | test => .binary 0
  | operand => .primary

namespace Grammar

/-! ## Tokens of given kinds -/

/-- The end of the text is not among these kinds. -/
def Solid (kinds : List Token.Kind) : Prop :=
  ∀ k ∈ kinds, k.isEnd = false

@[simp]
theorem solid_nil : Solid [] :=
  fun _ hk => absurd hk List.not_mem_nil

@[simp]
theorem solid_cons {k : Token.Kind} {kinds : List Token.Kind} :
    Solid (k :: kinds) ↔ k.isEnd = false ∧ Solid kinds :=
  List.forall_mem_cons

@[simp]
theorem solid_append {kinds others : List Token.Kind} :
    Solid (kinds ++ others) ↔ Solid kinds ∧ Solid others :=
  List.forall_mem_append

@[simp]
theorem solid_words (word : Option Keyword) : Solid (word.toList.map .keyword) := by
  cases word <;> simp [Token.Kind.isEnd]

/-- Something holds of all tokens that have these kinds. -/
def ForTokens (kinds : List Token.Kind) (Q : List Token → Prop) : Prop :=
  ∀ ts, ts.map Token.kind = kinds → Q ts

/-- The tokens that have these kinds stand for values that agree with the given one. -/
structure Renders {α : Type} (unplaced : α → α) (P : List Token → α → Prop)
    (kinds : List Token.Kind) (a : α) : Prop where
  solid : Solid kinds
  reads : ForTokens kinds fun ts => ∃ b, P ts b ∧ unplaced b = unplaced a

section

variable {α : Type} {unplaced : α → α} {P : List Token → α → Prop} {Q : List Token → Prop}
  {kinds others : List Token.Kind} {k : Token.Kind} {a : α}

theorem ForTokens.nil (h : Q []) : ForTokens [] Q := by
  intro ts hts
  rw [List.map_eq_nil_iff.mp hts]
  exact h

theorem ForTokens.cons (h : ∀ t, t.kind = k → ForTokens kinds fun ts => Q (t :: ts)) :
    ForTokens (k :: kinds) Q := by
  intro ts hts
  obtain ⟨t, us, rfl, ht, hus⟩ := List.map_eq_cons_iff.mp hts
  exact h t ht us hus

theorem ForTokens.single (h : ∀ t, t.kind = k → Q [t]) : ForTokens [k] Q :=
  .cons fun t ht => .nil (h t ht)

theorem Renders.last (h : Renders unplaced P kinds a)
    (hQ : ∀ ts b, P ts b → unplaced b = unplaced a → Q ts) : ForTokens kinds Q := by
  intro ts hts
  obtain ⟨b, hb, heq⟩ := h.reads ts hts
  exact hQ ts b hb heq

theorem Renders.before (h : Renders unplaced P kinds a)
    (hQ : ∀ ts b, P ts b → unplaced b = unplaced a → ForTokens others fun us => Q (ts ++ us)) :
    ForTokens (kinds ++ others) Q := by
  intro ts hts
  obtain ⟨us, vs, rfl, hus, hvs⟩ := List.map_eq_append_iff.mp hts
  obtain ⟨b, hb, heq⟩ := h.reads us hus
  exact hQ us b hb heq vs hvs

end

/-! ## Expressions -/

/-- The rank that an expression has without parentheses around it. -/
def rank : Expr → Rank
  | .int .. | .float .. | .bool .. | .var .. | .call .. | .construct .. => .primary
  | .index .. | .field .. | .stepAfter .. => .suffixed
  | .unary .. => .unary
  | .binary _ op .. => .binary op.level
  | .conditional .. => .conditional
  | .assign .. => .assignment

@[simp]
theorem rank_withSpan (e : Expr) (span : Span) : rank (e.withSpan span) = rank e := by
  cases e <;> rfl

@[simp]
theorem unplaced_withSpan (e : Expr) (span : Span) : (e.withSpan span).unplaced = e.unplaced := by
  cases e <;> rfl

variable {style : Style} {ts us : List Token} {e : Expr} {r : Rank}

/-- A primary expression may stand anywhere. -/
theorem Phrase.ofPrimary (h : Phrase .primary ts e) (r : Rank) : Phrase r ts e := by
  have hunary : Phrase .unary ts e := .unsigned (.plain h)
  cases r with
  | primary => exact h
  | suffixed => exact .plain h
  | unary => exact hunary
  | binary level => exact .operand hunary
  | conditional => exact .decided (.operand hunary)
  | assignment => exact hunary.ofUnary

theorem Phrase.toConditional (h : Phrase r ts e) (hr : r ≠ .assignment) :
    Phrase .conditional ts e := by
  cases r with
  | primary => exact h.ofPrimary _
  | suffixed => exact .decided (.operand (.unsigned h))
  | unary => exact .decided (.operand h)
  | binary level => exact .decided (h.loosen (Nat.zero_le level))
  | conditional => exact h
  | assignment => exact absurd rfl hr

theorem Phrase.toBinary (h : Phrase r ts e) (hr : r ≠ .assignment) (hr' : r ≠ .conditional) :
    Phrase (.binary 0) ts e := by
  cases r with
  | primary => exact h.ofPrimary _
  | suffixed => exact .operand (.unsigned h)
  | unary => exact .operand h
  | binary level => exact h.loosen (Nat.zero_le level)
  | conditional => exact absurd rfl hr'
  | assignment => exact absurd rfl hr

/-- What a place admits without parentheses has the rank of the place. -/
theorem Phrase.ofAdmits {slot : Slot} (hslot : slot.admits e = true) {e' : Expr}
    (h : Phrase (rank e) ts e') : Phrase slot.rank ts e' := by
  cases slot with
  | whole | value | middle => exact h.toAssignment
  | alternative =>
    refine h.toConditional ?_
    cases e <;> simp_all [Slot.admits, rank]
  | test =>
    refine h.toBinary ?_ ?_ <;> cases e <;> simp_all [Slot.admits, rank]
  | operand => cases e <;> first | exact h | cases hslot

theorem Renders.put (h : Renders Expr.unplaced (Phrase (rank e)) (e.tokens style) e)
    (slot : Slot) :
    Renders Expr.unplaced (Phrase slot.rank) (style.put slot e (e.tokens style)) e := by
  unfold Style.put
  split
  · next hbare =>
    rw [Bool.and_eq_true] at hbare
    exact ⟨h.solid, h.last fun ts e' he' heq => ⟨e', he'.ofAdmits hbare.1, heq⟩⟩
  · refine ⟨by simp [h.solid, Token.Kind.isEnd], ?_⟩
    refine .cons fun o ho => h.before fun ts e' he' heq => .single fun c hc => ?_
    exact ⟨_, (Phrase.parens ho he'.toAssignment hc).ofPrimary _, by rw [unplaced_withSpan, heq]⟩

theorem word?_of_ty? {k : Token.Kind} {target : Ty} (h : k.ty? = some target) :
    target.word?.toList.map .keyword = [k] := by
  cases k with
  | keyword word => cases word <;> cases h <;> rfl
  | _ => cases h

theorem atom_renders {t : Token} (h : atom? t = some e) :
    Renders Expr.unplaced (Phrase (rank e)) (e.tokens style) e := by
  have htokens : e.tokens style = [t.kind] ∧ rank e = .primary ∧ t.kind.isEnd = false := by
    unfold atom? at h
    split at h <;> cases h <;> simp_all [Expr.tokens, rank, Token.Kind.isEnd]
  have hplaced (s : Span) : (e.mapSpans fun _ => s).unplaced = e.unplaced := by
    unfold atom? at h
    split at h <;> cases h <;> rfl
  obtain ⟨htokens, hrank, hend⟩ := htokens
  rw [htokens, hrank]
  refine ⟨by simp [hend], .single fun u hu => ⟨_, .atom ?_, hplaced u.span⟩⟩
  have hmoved := atom?_mapSpan (fun _ => u.span) h
  rwa [Token.mapSpan, ← hu] at hmoved

mutual

/-- An expression that was read is rendered by its tokens. -/
theorem Phrase.renders (style : Style) {r : Rank} {ts : List Token} {e : Expr} (h : Phrase r ts e) :
    Renders Expr.unplaced (Phrase (rank e)) (e.tokens style) e := by
  match h with
  | .atom ht => exact atom_renders ht
  | @Phrase.call _ _ _ _ text _ _ _ hes _ =>
    have hall := hes.renders style
    refine ⟨by simp [Expr.tokens, hall.solid, Token.Kind.isEnd], ?_⟩
    refine .cons fun t ht => .cons fun o ho => hall.before fun ts es hes heq =>
      .single fun c hc => ?_
    exact ⟨_, .call ht ho hes hc, congrArg (Expr.call default ⟨text, default⟩) heq⟩
  | @Phrase.construct _ _ _ _ target _ hk _ hes _ =>
    have hall := hes.renders style
    refine ⟨by simp [Expr.tokens, hall.solid, Token.Kind.isEnd], ?_⟩
    rw [Expr.tokens, word?_of_ty? hk]
    refine .cons fun t ht => .cons fun o ho => hall.before fun ts es hes heq =>
      .single fun c hc => ?_
    exact ⟨_, .construct (ht ▸ hk) ho hes hc, congrArg (Expr.construct default target) heq⟩
  | .parens _ he _ =>
    -- Of parentheses only the span remains, and the place of the expression brings them back.
    have hinner := he.renders style
    rw [rank_withSpan, Expr.tokens_withSpan]
    exact ⟨hinner.solid,
      hinner.last fun ts e' he' heq => ⟨e', he', heq.trans (unplaced_withSpan ..).symm⟩⟩
  | .plain he | .unsigned he | .operand he | .decided he | .value he => exact he.renders style
  | .index hb _ hp _ =>
    have hbase := (hb.renders style).put .operand
    have hposition := (hp.renders style).put .whole
    refine ⟨by simp [Expr.tokens, hbase.solid, hposition.solid, Token.Kind.isEnd], ?_⟩
    refine hbase.before fun ts b hb heq => .cons fun o ho =>
      hposition.before fun us p hp heq' => .single fun c hc => ?_
    exact ⟨_, .index (hb.ofPrimary _) ho hp hc, congrArg₂ (Expr.index default) heq heq'⟩
  | @Phrase.field _ _ _ _ text hb _ _ =>
    have hbase := (hb.renders style).put .operand
    refine ⟨by simp [Expr.tokens, hbase.solid, Token.Kind.isEnd], ?_⟩
    refine hbase.before fun ts b hb heq => .cons fun o ho => .single fun n hn => ?_
    exact ⟨_, .field (hb.ofPrimary _) ho hn,
      congrArg (fun b => Expr.field default b ⟨text, default⟩) heq⟩
  | @Phrase.stepAfter _ _ _ direction hb _ =>
    have hbase := (hb.renders style).put .operand
    refine ⟨by simp [Expr.tokens, hbase.solid, Token.Kind.isEnd], ?_⟩
    refine hbase.before fun ts b hb heq => .single fun o ho => ?_
    exact ⟨_, .stepAfter (hb.ofPrimary _) (by rw [ho, step?_mark]),
      congrArg (Expr.stepAfter default direction) heq⟩
  | @Phrase.signed _ _ op _ _ he =>
    have hoperand := (he.renders style).put .operand
    refine ⟨by simp [Expr.tokens, hoperand.solid, Token.Kind.isEnd], ?_⟩
    refine .cons fun o ho => hoperand.last fun ts e he heq => ?_
    exact ⟨_, .signed (by rw [ho, unaryOp?_mark]) (he.ofPrimary _),
      congrArg (Expr.unary default op) heq⟩
  | @Phrase.binary _ _ _ _ op _ _ _ _ hl hr =>
    have hleft := (hl.renders style).put .operand
    have hright := (hr.renders style).put .operand
    refine ⟨by simp [Expr.tokens, hleft.solid, hright.solid, Token.Kind.isEnd], ?_⟩
    refine hleft.before fun ts l hl heq => .cons fun o ho => hright.last fun us r hr heq' => ?_
    exact ⟨_, .binary (by rw [ho, binaryOp?_mark]) (Nat.le_refl _) (hl.ofPrimary _)
      (hr.ofPrimary _), congrArg₂ (Expr.binary default op) heq heq'⟩
  | .conditional ht _ hu _ hv =>
    have htest := (ht.renders style).put .test
    have htrue := (hu.renders style).put .middle
    have hfalse := (hv.renders style).put .alternative
    refine ⟨by simp [Expr.tokens, htest.solid, htrue.solid, hfalse.solid, Token.Kind.isEnd], ?_⟩
    refine htest.before fun ts t ht heq => .cons fun q hq =>
      htrue.before fun us u hu heq' => .cons fun c hc => hfalse.last fun vs v hv heq'' => ?_
    refine ⟨_, .conditional ht hq hu hc hv, ?_⟩
    change Expr.conditional default t.unplaced u.unplaced v.unplaced = _
    rw [heq, heq', heq'']
    rfl
  | @Phrase.assign _ _ _ op _ _ ht _ hv =>
    have htarget := (ht.renders style).put .operand
    have hvalue := (hv.renders style).put .value
    refine ⟨by simp [Expr.tokens, htarget.solid, hvalue.solid, Token.Kind.isEnd], ?_⟩
    refine htarget.before fun ts t ht heq => .cons fun o ho => hvalue.last fun us v hv heq' => ?_
    exact ⟨_, .assign (ht.ofPrimary _) (by rw [ho, assignOp?_mark]) hv,
      congrArg₂ (Expr.assign default op) heq heq'⟩

/-- Arguments that were read are rendered by their tokens. -/
theorem Arguments.renders (style : Style) {ts : List Token} {es : List Expr} (h : Arguments ts es) :
    Renders Expr.allUnplaced Arguments (Expr.listTokens style es) es := by
  match h with
  | .none => exact ⟨solid_nil, .nil ⟨[], .none, rfl⟩⟩
  | .some hes =>
    have hall := hes.renders style
    exact ⟨hall.solid, hall.last fun ts es hes heq => ⟨es, .some hes, heq⟩⟩

theorem Phrases.renders (style : Style) {ts : List Token} {es : List Expr} (h : Phrases ts es) :
    Renders Expr.allUnplaced Phrases (Expr.listTokens style es) es := by
  match h with
  | .one he =>
    have hone := (he.renders style).put .whole
    exact ⟨hone.solid, hone.last fun ts e he heq => ⟨[e], .one he, congrArg (· :: []) heq⟩⟩
  | @Phrases.cons _ _ _ _ es he _ hes =>
    have hfirst := (he.renders style).put .whole
    have hothers := hes.renders style
    obtain ⟨f, rest, rfl⟩ : ∃ f rest, es = f :: rest := by cases hes <;> exact ⟨_, _, rfl⟩
    refine ⟨by simp [Expr.listTokens, hfirst.solid, hothers.solid, Token.Kind.isEnd], ?_⟩
    refine hfirst.before fun ts e he heq => .cons fun o ho =>
      hothers.last fun us es hes heq' => ?_
    exact ⟨e :: es, .cons he ho hes, congrArg₂ List.cons heq heq'⟩

end

end Grammar

end ShaderLang
