import Mathlib
import ShaderLang.Proofs.Faithful
import ShaderLang.Proofs.RenderedClause

/-!
# Reading what was rendered

A program can be read from tokens as from a text. Where tokens are read as a program, the tokens
that it is rendered as, in any style and with any spans, are read as the same program, but for spans
(`Program.ofTokens?_tokens`).
-/

namespace ShaderLang

/-! ## Reading tokens -/

namespace Grammar

/-- The cursor in front of the first of these tokens, behind which the text ends. -/
def Cursor.ofTokens (ts : List Token) (stop : Nat) : Cursor :=
  match ts with
  | [] => ⟨⟨.endOfText, .point stop⟩, default, ⟨[], stop⟩⟩
  | t :: rest => ⟨t, default, ⟨rest.map .ok, stop⟩⟩

end Grammar

/-- Reads a program from its tokens. -/
def Program.ofTokens? (ts : List Token) (stop : Nat) : Except Grammar.Failure Program :=
  (Grammar.decls (.ofTokens ts stop)).toExcept

/-- A text is read as its tokens are. -/
theorem Program.ofText?_eq_ofTokens? {source : String} {ts : List Token}
    (h : Token.Scan.scanFrom 0 source.toList = ts.map .ok) :
    ofText? source = ofTokens? ts source.utf8ByteSize := by
  cases ts with
  | nil =>
    rw [ofText?, Grammar.Cursor.ofText?, Token.Stream.ofText, h]
    rfl
  | cons t rest =>
    rw [ofText?, Grammar.Cursor.ofText?, Token.Stream.ofText, h]
    rfl

namespace Grammar

/-- From tokens none of which ends the text, everything is taken up to the end. -/
theorem Cursor.exists_takes_ofTokens {ts : List Token} (h : ∀ t ∈ ts, t.kind.isEnd = false)
    (stop : Nat) : ∃ n, (Cursor.ofTokens ts stop).Takes ts n ∧ n.current.kind.isEnd = true := by
  cases ts with
  | nil => exact ⟨_, .nil, rfl⟩
  | cons t rest =>
    obtain ⟨n, hn, hend, -⟩ := exists_takes (c := Cursor.ofTokens (t :: rest) stop) rfl rfl h
    exact ⟨n, hn, by rw [hend]; rfl⟩

/-- What is a program by the grammar is read as that program. -/
theorem ProgramClause.ofTokens?_eq {ts : List Token} {p : Program} (h : ProgramClause ts p)
    (hends : ∀ t ∈ ts, t.kind.isEnd = false) (stop : Nat) : Program.ofTokens? ts stop = .ok p := by
  obtain ⟨n, hts, hn⟩ := Cursor.exists_takes_ofTokens hends stop
  obtain ⟨hlt, hread⟩ := h.decls_gives hts hn
  rw [Program.ofTokens?, hread]
  rfl

/-- What is read is a program by the grammar. -/
theorem exists_programClause {ts : List Token} {stop : Nat} {p : Program}
    (h : Program.ofTokens? ts stop = .ok p) : ∃ us, ProgramClause us p := by
  unfold Program.ofTokens? at h
  have hcovers := decls_covers (Cursor.ofTokens ts stop)
  cases hread : decls (Cursor.ofTokens ts stop) with
  | error =>
    rw [hread] at h
    cases h
  | ok value n hlt =>
    rw [hread] at h hcovers
    cases h
    obtain ⟨us, -, hp, -⟩ := hcovers
    exact ⟨us, hp⟩

end Grammar

/-- Reading undoes rendering: a program that was read from some tokens is read again from its own
tokens. -/
theorem Program.ofTokens?_tokens {ts us : List Token} {stop : Nat} {p : Program}
    (h : ofTokens? ts stop = .ok p) (style : Style) (hus : us.map Token.kind = p.tokens style)
    (stop' : Nat) : ∃ q, ofTokens? us stop' = .ok q ∧ q.unplaced = p.unplaced := by
  obtain ⟨vs, hp⟩ := Grammar.exists_programClause h
  have hrenders := hp.renders style
  obtain ⟨q, hq, heq⟩ := hrenders.reads us hus
  have hends (t : Token) (ht : t ∈ us) : t.kind.isEnd = false :=
    hrenders.solid t.kind (hus ▸ List.mem_map_of_mem ht)
  exact ⟨q, hq.ofTokens?_eq hends stop', heq⟩

/-- An `else` behind two `if`s, a sum in front of a product, and a conditional behind the colon of
another one, with no more parentheses than it takes. -/
theorem Program.ofTokens?_tokens_of_dangling :
    let source := "void f() \x7b if (a) if (b) x = (y + z) * w; else x = b ? y : c ? z : w; \x7d"
    let ts := (Token.Scan.scanFrom 0 source.toList).filterMap Except.toOption
    let place (k : Token.Kind) : Token := ⟨k, default⟩
    let style : Style := fun _ _ => false
    ∃ p, ofTokens? ts 0 = .ok p ∧
      ∃ q, ofTokens? ((p.tokens style).map place) 0 = .ok q ∧ q.unplaced = p.unplaced := by
  intro source ts place style
  obtain ⟨p, hread⟩ : ∃ p, ofTokens? ts 0 = .ok p := ⟨_, by unfold ts source; cbv⟩
  refine ⟨p, hread, ofTokens?_tokens hread style ?_ 0⟩
  rw [List.map_map]
  exact List.map_id _

end ShaderLang
