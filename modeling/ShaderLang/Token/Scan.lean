import ShaderLang.Decimal.Literal
import ShaderLang.Token.Basic

/-!
# Scanning

A source text is a row of pieces: blanks, comments and tokens, each as long as possible. What begins
none of them is a fault, and scanning goes on behind it, so the whole text is always accounted for.
A comment that is never closed is one fault up to the end of the text.
-/

namespace ShaderLang.Token

/-- A stretch of text that is no piece of the language. -/
structure Fault where
  text : String
  span : Span
  deriving DecidableEq

/-- How messages speak of a fault. -/
def Fault.reason (f : Fault) : String :=
  "unexpected input '" ++ f.text ++ "'"

/-- What a piece of text is. -/
inductive Piece where
  | blank
  | token (kind : Kind)
  | fault

namespace Scan

/-- The white space between tokens. -/
def isBlank (c : Char) : Bool :=
  c == ' ' || c == '\t' || c == '\n' || c == '\r' || c == '\x0c'

/-- Whether a name may begin with this character. -/
def startsName (c : Char) : Bool :=
  c.isAlpha || c == '_'

/-- Whether a name may go on with this character. -/
def continuesName (c : Char) : Bool :=
  c.isAlphanum || c == '_'

/-- The number of characters up to the first end of a block comment, the end included. -/
def commentEnd? : List Char → Option Nat
  | '*' :: '/' :: _ => some 2
  | _ :: rest => (commentEnd? rest).map (· + 1)
  | [] => none

/-- The number of digits at the head of a text. -/
def digitCount (text : List Char) : Nat :=
  (text.takeWhile Char.isDigit).length

/-- The length of an exponent at the head of a text; an `e` without digits behind it is none. -/
def exponentLength : List Char → Nat
  | mark :: rest =>
    if mark == 'e' || mark == 'E' then
      match rest with
      | sign :: digits =>
        if sign == '+' || sign == '-' then
          if digitCount digits = 0 then 0 else 2 + digitCount digits
        else if digitCount rest = 0 then 0 else 1 + digitCount rest
      | [] => 0
    else 0
  | [] => 0

/-- The length of the letter that may end a floating-point literal. -/
def suffixLength : List Char → Nat
  | c :: _ => if c == 'f' || c == 'F' then 1 else 0
  | [] => 0

/-- A floating-point literal that takes up `length` characters without its suffix letter. -/
def floatPiece (text : List Char) (length : Nat) : Piece × Nat :=
  match Decimal.Literal.ofText? (text.take length) with
  | some literal => (.token (.float literal.value), length + suffixLength (text.drop length))
  | none => (.fault, length)

/-- The smallest number that is too large for an integer literal: two to the power of
sixty-three. -/
def intLimit : Nat :=
  0x8000000000000000

/-- A literal at the head of a text that begins with a digit. A point or an exponent makes it a
floating-point literal; an integer has to fit into 64 bits. -/
def numberPiece (text : List Char) : Piece × Nat :=
  let whole := digitCount text
  match text.drop whole with
  | '.' :: rest =>
    let fraction := digitCount rest
    floatPiece text (whole + 1 + fraction + exponentLength (rest.drop fraction))
  | rest =>
    if exponentLength rest = 0 then
      let value := Decimal.natOfDigits (text.take whole)
      (if value < intLimit then .token (.int (.ofNat value)) else .fault, whole)
    else
      floatPiece text (whole + exponentLength rest)

/-- A literal at the head of a text that begins with a point and a digit. -/
def fractionPiece (text : List Char) : Piece × Nat :=
  let fraction := digitCount (text.drop 1)
  floatPiece text (1 + fraction + exponentLength (text.drop (1 + fraction)))

/-- A name or a reserved word. -/
def wordPiece (text : List Char) : Piece × Nat :=
  let word := String.ofList (text.takeWhile continuesName)
  let kind :=
    match Keyword.ofText? word with
    | some keyword => .keyword keyword
    | none => .name word
  (.token kind, (text.takeWhile continuesName).length)

/-- A mark, of two characters if there is such a one. -/
def markPiece (c : Char) (rest : List Char) : Piece × Nat :=
  match rest.head?.bind (Mark.two? c) with
  | some mark => (.token (.mark mark), 2)
  | none =>
    match Mark.one? c with
    | some mark => (.token (.mark mark), 1)
    | none => (.fault, 1)

/-- The piece at the head of a text, with its length in characters. -/
def piece (c : Char) (rest : List Char) : Piece × Nat :=
  if isBlank c then
    (.blank, 1 + (rest.takeWhile isBlank).length)
  else if c == '/' && rest.head? == some '/' then
    (.blank, 1 + (rest.takeWhile (· != '\n')).length)
  else if c == '/' && rest.head? == some '*' then
    match commentEnd? (rest.drop 1) with
    | some length => (.blank, 2 + length)
    | none => (.fault, 1 + rest.length)
  else if c.isDigit then
    numberPiece (c :: rest)
  else if c == '.' && (rest.head?.map Char.isDigit).getD false then
    fractionPiece (c :: rest)
  else if startsName c then
    wordPiece (c :: rest)
  else
    markPiece c rest

/-- The number of bytes that a row of characters takes up. -/
def byteLength (text : List Char) : Nat :=
  text.foldr (fun c length => c.utf8Size + length) 0

/-- All tokens and faults of a text that begins at a byte offset. -/
def scanFrom (offset : Nat) : List Char → List (Except Fault Token)
  | [] => []
  | c :: rest =>
    let (what, length) := piece c rest
    let taken := c :: rest.take (length - 1)
    let stop := offset + byteLength taken
    let others := scanFrom stop (rest.drop (length - 1))
    match what with
    | .blank => others
    | .token kind => .ok ⟨kind, ⟨offset, stop⟩⟩ :: others
    | .fault => .error ⟨String.ofList taken, ⟨offset, stop⟩⟩ :: others
  termination_by text => text.length
  decreasing_by simp only [List.length_drop, List.length_cons]; omega

end Scan

/-- What is left to read of a scanned text: its tokens and faults in order, and the offset at which
it ends. -/
structure Stream where
  pending : List (Except Fault Token)
  stop : Nat

namespace Stream

/-- The tokens and faults of a source text. -/
def ofText (source : String) : Stream :=
  ⟨Scan.scanFrom 0 source.toList, source.utf8ByteSize⟩

/-- The token behind the last one of a text. -/
def endToken (s : Stream) : Token :=
  ⟨.endOfText, .point s.stop⟩

/-- Reads one token. A fault is left behind, and the end of the text never is. -/
def next (s : Stream) : Except Fault Token × Stream :=
  match s.pending with
  | [] => (.ok s.endToken, s)
  | result :: pending => (result, { s with pending })

/-- All tokens up to the end of the text, or the first fault. -/
def tokens? (s : Stream) : Except Fault (List Token) := do
  let tokens ← s.pending.mapM id
  return tokens ++ [s.endToken]

end Stream

/-- A stream with one token of look-ahead. -/
structure Lookahead where
  held : Option Token
  stream : Stream

namespace Lookahead

/-- Nothing of a source text is read yet. -/
def ofText (source : String) : Lookahead :=
  ⟨none, .ofText source⟩

/-- Reads one token. -/
def next (l : Lookahead) : Except Fault Token × Lookahead :=
  match l.held with
  | some token => (.ok token, { l with held := none })
  | none =>
    let (result, stream) := l.stream.next
    (result, ⟨none, stream⟩)

/-- Looks at the next token and holds it. A fault cannot be held: it is reported and left behind. -/
def peek (l : Lookahead) : Except Fault Token × Lookahead :=
  let (result, l) := l.next
  match result with
  | .ok token => (.ok token, { l with held := some token })
  | .error fault => (.error fault, l)

end Lookahead

end ShaderLang.Token
