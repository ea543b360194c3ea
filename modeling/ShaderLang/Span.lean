/-!
# Spans

A span is a half-open range of byte offsets into a source text. Every token, every node of the
syntax and every finding carries one.
-/

namespace ShaderLang

/-- The bytes from `start` up to, but not including, `stop`. -/
structure Span where
  start : Nat
  stop : Nat
  deriving DecidableEq, Inhabited

namespace Span

/-- The empty span at one offset. -/
def point (offset : Nat) : Span :=
  ⟨offset, offset⟩

/-- The smallest span that covers both. -/
def merge (a b : Span) : Span :=
  ⟨min a.start b.start, max a.stop b.stop⟩

/-- The number of bytes covered; a span whose ends are crossed covers none. -/
def length (s : Span) : Nat :=
  s.stop - s.start

/-- Whether no byte is covered. -/
def isEmpty (s : Span) : Bool :=
  s.length == 0

theorem merge_comm (a b : Span) : a.merge b = b.merge a := by
  simp [merge, Nat.min_comm, Nat.max_comm]

theorem merge_assoc (a b c : Span) : (a.merge b).merge c = a.merge (b.merge c) := by
  simp [merge, Nat.min_assoc, Nat.max_assoc]

@[simp]
theorem merge_self (a : Span) : a.merge a = a := by
  simp [merge]

end Span

end ShaderLang
