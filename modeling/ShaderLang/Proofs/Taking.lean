import ShaderLang.Proofs.Phrase

/-!
# Taking tokens

Between two cursors lie the tokens that were taken (`Cursor.Takes`). What a rule of the grammar
reads is described by them from both sides: `Outcome.Covers` says that whatever is read stands for
the tokens that were taken for it, and `Outcome.Gives` that a certain value is read.
-/

namespace ShaderLang.Grammar

namespace Cursor

/-- The cursor behind the token in front. There is none at the end of the text, nor in front of
a fault. -/
def next? (c : Cursor) : Option Cursor :=
  if c.current.kind.isEnd then none
  else
    match c.rest.pending with
    | [] => some ⟨c.rest.endToken, c.current.span, c.rest⟩
    | .ok token :: others => some ⟨token, c.current.span, { c.rest with pending := others }⟩
    | .error _ :: _ => none

/-- The tokens that are taken on the way from one cursor to another. -/
inductive Takes : Cursor → List Token → Cursor → Prop
  | nil {c : Cursor} : Takes c [] c
  | cons {c c₁ n : Cursor} {ts : List Token} (h : c.next? = some c₁) (hts : Takes c₁ ts n) :
      Takes c (c.current :: ts) n

variable {c c₁ m n : Cursor} {t : Token} {ts us : List Token}

theorem previous_of_next? (h : c.next? = some n) : n.previous = c.current.span := by
  unfold next? at h
  split at h
  · cases h
  · split at h <;> cases h <;> rfl

theorem isEnd_of_next? (h : c.next? = some n) : c.current.kind.isEnd = false := by
  unfold next? at h
  split at h
  · cases h
  · next hend => simpa using hend

/-- The token that the look-ahead shows is the one that comes next. -/
theorem peek_of_next? (h : c.next? = some n) : c.peek = .ok n.current.kind := by
  unfold next? at h
  unfold peek Token.Stream.next
  split at h
  · cases h
  · split at h <;> cases h <;> simp_all [Except.map]

namespace Takes

theorem one (h : c.next? = some n) : c.Takes [c.current] n :=
  .cons h .nil

theorem append (h : c.Takes ts m) (h' : m.Takes us n) : c.Takes (ts ++ us) n := by
  induction h with
  | nil => exact h'
  | cons hnext _ ih => exact .cons hnext (ih h')

theorem split (h : c.Takes (ts ++ us) n) : ∃ m, c.Takes ts m ∧ m.Takes us n := by
  induction ts generalizing c with
  | nil => exact ⟨c, .nil, h⟩
  | cons t rest ih =>
    cases h with
    | cons hnext hrest =>
      obtain ⟨m, hm, hus⟩ := ih hrest
      exact ⟨m, .cons hnext hm, hus⟩

theorem uncons (h : c.Takes (t :: ts) n) :
    c.current = t ∧ ∃ m, c.next? = some m ∧ m.Takes ts n := by
  cases h with
  | cons hnext hts => exact ⟨rfl, _, hnext, hts⟩

theorem current_eq (h : c.Takes (t :: ts) n) : c.current = t :=
  h.uncons.1

theorem current_of_head? (h : c.Takes ts n) (ht : ts.head? = some t) : c.current = t := by
  obtain ⟨rest, rfl⟩ := List.head?_eq_some_iff.mp ht
  exact h.current_eq

theorem isEnd_eq_false (h : c.Takes ts n) (hne : ts ≠ []) : c.current.kind.isEnd = false := by
  cases h with
  | nil => exact absurd rfl hne
  | cons hnext => exact isEnd_of_next? hnext

theorem previous_eq (ts : List Token) (h : c.Takes (ts ++ [t]) n) : n.previous = t.span := by
  obtain ⟨m, -, hm⟩ := h.split
  obtain ⟨rfl, k, hk, hn⟩ := hm.uncons
  cases hn
  exact previous_of_next? hk

/-- What is taken last ends the span from any token in front. -/
theorem spanFrom_eq (h : m.Takes us n) (hne : us ≠ []) (t : Token) (ts : List Token) :
    n.spanFrom t.span = Token.reach (t :: (ts ++ us)) := by
  obtain ⟨vs, u, rfl⟩ : ∃ vs u, us = vs ++ [u] := ⟨_, _, (List.dropLast_concat_getLast hne).symm⟩
  rw [spanFrom, previous_eq vs h]
  simp [Token.reach, List.getLast_cons]

theorem spanFrom_current (h : c.Takes ts n) (hne : ts ≠ []) :
    n.spanFrom c.current.span = Token.reach ts := by
  obtain ⟨t, rest, rfl⟩ := List.exists_cons_of_ne_nil hne
  rw [h.current_eq]
  simpa [Token.reach] using h.spanFrom_eq hne t []

end Takes

end Cursor

namespace Outcome

variable {bound other : Nat} {α β : Type}

/-! ## What was read -/

/-- What was read stands in a relation to the tokens that were taken and to the cursor behind
them. -/
def Covers (c : Cursor) (P : List Token → α → Cursor → Prop) : Outcome bound α → Prop
  | .ok value next _ => ∃ ts, c.Takes ts next ∧ P ts value next
  | .error .. => True

variable {c : Cursor} {P : List Token → α → Cursor → Prop} {Q : List Token → β → Cursor → Prop}

theorem Covers.ok {value : α} {h : c.left < bound} (hP : P [] value c) :
    (Outcome.ok value c h).Covers c P :=
  ⟨[], .nil, hP⟩

theorem Covers.bind {x : Outcome bound α}
    {f : (value : α) → (next : Cursor) → next.left < bound → Outcome other β} (hx : x.Covers c P)
    (hf : ∀ ts value next h, c.Takes ts next → P ts value next →
      (f value next h).Covers next fun us b m => Q (ts ++ us) b m) :
    (x.bind f).Covers c Q := by
  cases x with
  | error => trivial
  | ok value next h =>
    obtain ⟨ts, hts, hP⟩ := hx
    have hb := hf ts value next h hts hP
    rw [bind_ok]
    cases hx' : f value next h with
    | error => trivial
    | ok b m hm =>
      rw [hx'] at hb
      obtain ⟨us, hus, hQ⟩ := hb
      exact ⟨ts ++ us, hts.append hus, hQ⟩

theorem Covers.map {f : α → Cursor → β} {h : bound ≤ other} {x : Outcome bound α}
    (hx : x.Covers c P)
    (hf : ∀ ts value next, c.Takes ts next → P ts value next → Q ts (f value next) next) :
    (x.map f h).Covers c Q :=
  hx.bind fun ts value next _ hts hP => .ok (by simpa using hf ts value next hts hP)

theorem Covers.imp {P' : List Token → α → Cursor → Prop} {x : Outcome bound α} (hx : x.Covers c P)
    (h : ∀ ts value next, P ts value next → P' ts value next) : x.Covers c P' := by
  cases x with
  | error => trivial
  | ok value next _ =>
    obtain ⟨ts, hts, hP⟩ := hx
    exact ⟨ts, hts, h ts value next hP⟩

/-! ## What will be read -/

/-- Reading succeeds with this value, and goes on from this cursor. -/
def Gives (x : Outcome bound α) (value : α) (next : Cursor) : Prop :=
  ∃ h, x = .ok value next h

variable {value : α} {b : β} {n m : Cursor}

theorem Gives.ok {h : n.left < bound} : (Outcome.ok value n h).Gives value n :=
  ⟨h, rfl⟩

theorem Gives.bind {x : Outcome bound α}
    {f : (value : α) → (next : Cursor) → next.left < bound → Outcome other β}
    (hx : x.Gives value n) (hf : ∀ h, (f value n h).Gives b m) : (x.bind f).Gives b m := by
  obtain ⟨h, rfl⟩ := hx
  exact hf h

theorem Gives.map {f : α → Cursor → β} {h : bound ≤ other} {x : Outcome bound α}
    (hx : x.Gives value n) : (x.map f h).Gives (f value n) n :=
  hx.bind fun _ => .ok

end Outcome

namespace Cursor

open Outcome

variable {c n : Cursor} {t : Token} {ts : List Token}

theorem advance_covers (c : Cursor) (wanted : Wanted) :
    (c.advance wanted).Covers c fun ts t n => ts = [t] ∧ t = c.current ∧ n.previous = t.span := by
  unfold Cursor.advance
  split
  · trivial
  · next hend =>
    split
    · next hnil =>
      exact ⟨[c.current], .one (by simp [next?, hend, hnil]), rfl, rfl, rfl⟩
    · next token others hcons =>
      exact ⟨[c.current], .one (by simp [next?, hend, hcons]), rfl, rfl, rfl⟩
    · trivial

theorem kind_of_isAt {m : Mark} (h : c.isAt m = true) : c.current.kind = .mark m := by
  unfold isAt Token.Kind.isMark at h
  split at h
  · next heq => rw [heq, eq_of_beq h]
  · cases h

theorem isAt_of_kind {m : Mark} (h : c.current.kind = .mark m) : c.isAt m = true := by
  simp [isAt, Token.Kind.isMark, h]

theorem expect_covers (c : Cursor) (m : Mark) :
    (c.expect m).Covers c fun ts t n => ts = [t] ∧ t.kind = .mark m ∧ n.previous = t.span := by
  unfold Cursor.expect
  split
  · next hm =>
    refine (c.advance_covers _).imp fun ts t n ⟨hts, ht, hn⟩ => ⟨hts, ?_, hn⟩
    subst ht
    exact kind_of_isAt hm
  · trivial

theorem choose_covers {α : Type} (c : Cursor) (wanted : Wanted) (f : Token → Option α) :
    (c.choose wanted f).Covers c fun ts a n =>
      ∃ t, ts = [t] ∧ f t = some a ∧ n.previous = t.span := by
  refine (c.advance_covers _).bind ?_
  rintro _ t n h - ⟨rfl, -, hn⟩
  split
  · next a ha => exact .ok ⟨t, rfl, ha, hn⟩
  · trivial

theorem ident_covers (c : Cursor) :
    c.ident.Covers c fun ts name n =>
      ∃ t text, ts = [t] ∧ t.kind = .name text ∧ name = ⟨text, t.span⟩ ∧ n.previous = t.span := by
  refine (c.choose_covers _ _).imp ?_
  rintro _ name n ⟨t, rfl, hname, hn⟩
  split at hname
  · next text htext =>
    cases hname
    exact ⟨t, text, rfl, htext, rfl, hn⟩
  · cases hname

theorem advance_gives (h : c.next? = some n) (wanted : Wanted) :
    (c.advance wanted).Gives c.current n := by
  unfold next? at h
  unfold Cursor.advance
  split at h
  · cases h
  · next hend =>
    rw [dif_neg hend]
    split at h <;> cases h <;> split <;> simp_all <;> exact .ok

theorem expect_gives {m : Mark} (h : c.Takes [t] n) (ht : t.kind = .mark m) :
    (c.expect m).Gives t n := by
  obtain ⟨rfl, k, hk, hn⟩ := h.uncons
  cases hn
  rw [expect, if_pos (isAt_of_kind ht)]
  exact advance_gives hk _

theorem choose_gives {α : Type} {f : Token → Option α} {a : α} (h : c.Takes [t] n)
    (ht : f t = some a) (wanted : Wanted) : (c.choose wanted f).Gives a n := by
  obtain ⟨rfl, k, hk, hn⟩ := h.uncons
  cases hn
  refine (advance_gives hk _).bind fun _ => ?_
  rw [ht]
  exact .ok

theorem ident_gives {text : String} (h : c.Takes [t] n) (ht : t.kind = .name text) :
    c.ident.Gives ⟨text, t.span⟩ n :=
  choose_gives h (by simp [ht]) _

end Cursor

end ShaderLang.Grammar
