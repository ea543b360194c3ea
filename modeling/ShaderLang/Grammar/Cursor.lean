import ShaderLang.Syntax.Expr
import ShaderLang.Token.Scan

/-!
# Reading tokens

The rules of the grammar are functions on a cursor, a place between the tokens of a text. A rule
gives an outcome: a value and the cursor behind what was read, or a failure. Every outcome comes with
a bound on the tokens that are left, and no rule goes on without taking one, so reading always ends.
-/

namespace ShaderLang.Grammar

/-- What the grammar asks for at some place. -/
inductive Wanted where
  | mark (mark : Mark)
  | identifier
  | ty
  | expression
  | arrayLength
  | arm
  deriving DecidableEq

/-- How messages speak of what is asked for. -/
def Wanted.describe : Wanted → String
  | mark m => (Token.Kind.mark m).describe
  | identifier => "identifier"
  | ty => "type"
  | expression => "expression"
  | arrayLength => "positive array length"
  | arm => "'case' or 'default'"

/-- Why a text is not read. -/
inductive Failure where
  /-- A stretch of the text is no token. -/
  | fault (fault : Token.Fault)
  /-- Another token stands where something is asked for. -/
  | unexpected (wanted : Wanted) (found : Token)
  /-- A qualifier stands in front of a function. -/
  | qualifiedFunction (span : Span)
  /-- The text ends inside a block. -/
  | unterminatedBlock (span : Span)

namespace Failure

/-- Where the text stops being readable. -/
def span : Failure → Span
  | fault f => f.span
  | unexpected _ found => found.span
  | qualifiedFunction span | unterminatedBlock span => span

/-- What is wrong there. -/
def reason : Failure → String
  | fault f => f.reason
  | unexpected wanted found => "expected " ++ wanted.describe ++ ", found " ++ found.kind.describe
  | qualifiedFunction _ => "functions cannot be qualified"
  | unterminatedBlock _ => "unterminated block"

end Failure

/-- A place in a text: the token in front of it, the span of the token behind it, and what comes
after the token in front. -/
structure Cursor where
  current : Token
  previous : Span
  rest : Token.Stream

namespace Cursor

/-- The number of tokens and faults that are left before the end of the text. -/
def left (c : Cursor) : Nat :=
  c.rest.pending.length + if c.current.kind.isEnd then 0 else 1

/-- Whether a mark stands here. -/
def isAt (c : Cursor) (m : Mark) : Bool :=
  c.current.kind.isMark m

/-- Whether a reserved word stands here. -/
def isAtWord (c : Cursor) (word : Keyword) : Bool :=
  c.current.kind.isKeyword word

/-- Whether the text ends here. -/
def isAtEnd (c : Cursor) : Bool :=
  c.current.kind.isEnd

/-- The span from a first token up to the last one that was taken. -/
def spanFrom (c : Cursor) (start : Span) : Span :=
  start.merge c.previous

/-- Looks at the token after the one in front. -/
def peek (c : Cursor) : Except Token.Fault Token.Kind :=
  c.rest.next.1.map Token.kind

end Cursor

/-- What a rule gives: a value and a cursor with fewer than `bound` tokens left, or a failure and the
cursor where it arose. -/
inductive Outcome (bound : Nat) (α : Type) where
  | ok (value : α) (next : Cursor) (left_lt : next.left < bound)
  | error (failure : Failure) (next : Cursor)

namespace Outcome

variable {bound other : Nat} {α β : Type}

/-- Goes on behind a value that was read. -/
def bind (x : Outcome bound α)
    (f : (value : α) → (next : Cursor) → next.left < bound → Outcome other β) : Outcome other β :=
  match x with
  | ok value next h => f value next h
  | error failure next => error failure next

/-- Turns a value that was read into another one, under a weaker bound. -/
def map (f : α → Cursor → β) (h : bound ≤ other) (x : Outcome bound α) : Outcome other β :=
  x.bind fun value next left_lt => ok (f value next) next (Nat.lt_of_lt_of_le left_lt h)

/-- The cursor at which reading stopped. -/
def cursor : Outcome bound α → Cursor
  | ok _ next _ => next
  | error _ next => next

/-- The value, or the failure. -/
def toExcept : Outcome bound α → Except Failure α
  | ok value _ _ => .ok value
  | error failure _ => .error failure

@[simp]
theorem bind_ok (value : α) (next : Cursor) (h : next.left < bound)
    (f : (value : α) → (next : Cursor) → next.left < bound → Outcome other β) :
    (ok value next h).bind f = f value next h :=
  rfl

@[simp]
theorem bind_error (failure : Failure) (next : Cursor)
    (f : (value : α) → (next : Cursor) → next.left < bound → Outcome other β) :
    (error failure next).bind f = error failure next :=
  rfl

@[simp]
theorem toExcept_map_ok (f : α → Cursor → β) (h : bound ≤ other) (value : α) (next : Cursor)
    (left_lt : next.left < bound) :
    ((ok value next left_lt).map f h).toExcept = .ok (f value next) :=
  rfl

end Outcome

namespace Cursor

/-- Takes the token in front. A fault behind it is reported now and left behind. At the end of the
text there is nothing to take, and what was wanted is missing. -/
def advance (c : Cursor) (wanted : Wanted) : Outcome c.left Token :=
  if atEnd : c.current.kind.isEnd = true then
    .error (.unexpected wanted c.current) c
  else
    match pending : c.rest.pending with
    | [] =>
      .ok c.current ⟨c.rest.endToken, c.current.span, c.rest⟩ (by
        simp only [left, pending, if_neg atEnd]
        simp [Token.Stream.endToken, Token.Kind.isEnd])
    | .ok token :: others =>
      .ok c.current ⟨token, c.current.span, { c.rest with pending := others }⟩ (by
        simp only [left, pending, if_neg atEnd, List.length_cons]
        split <;> omega)
    | .error fault :: others =>
      .error (.fault fault) { c with rest := { c.rest with pending := others } }

/-- Takes a mark. -/
def expect (c : Cursor) (m : Mark) : Outcome c.left Token :=
  if c.isAt m then c.advance (.mark m) else .error (.unexpected (.mark m) c.current) c

/-- Takes one token, of which `f` makes a value. A token that it makes none of has been taken all the
same. -/
def choose {α : Type} (c : Cursor) (wanted : Wanted) (f : Token → Option α) : Outcome c.left α :=
  (c.advance wanted).bind fun token next h =>
    match f token with
    | some value => .ok value next h
    | none => .error (.unexpected wanted token) next

/-- Takes a name. -/
def ident (c : Cursor) : Outcome c.left Ident :=
  c.choose .identifier fun token =>
    match token.kind with
    | .name text => some ⟨text, token.span⟩
    | _ => none

/-- The cursor in front of the first token of a text. A fault there is no place to read from. -/
def ofText? (source : String) : Except Token.Fault Cursor :=
  let stream := Token.Stream.ofText source
  stream.next.1.map fun token => ⟨token, default, stream.next.2⟩

end Cursor

end ShaderLang.Grammar
