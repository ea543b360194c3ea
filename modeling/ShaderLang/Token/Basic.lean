import ShaderLang.Decimal.Layout
import ShaderLang.Span
import ShaderLang.Ty.Basic

/-!
# Tokens

A token is a keyword, a mark, a literal, a name or the end of the text, with the span it takes up.
-/

namespace ShaderLang

/-- How a variable is bound to its surroundings. -/
inductive Qualifier where
  | input
  | output
  | const
  | uniform
  deriving DecidableEq

namespace Qualifier

/-- The word that stands for the qualifier. -/
def text : Qualifier → String
  | input => "in"
  | output => "out"
  | const => "const"
  | uniform => "uniform"

end Qualifier

/-- The reserved words. -/
inductive Keyword where
  | voidWord | intWord | floatWord | boolWord
  | vec2Word | vec3Word | vec4Word | mat2Word | mat3Word | mat4Word
  | inWord | outWord | constWord | uniformWord
  | ifWord | elseWord | whileWord | forWord
  | switchWord | caseWord | defaultWord
  | breakWord | continueWord | returnWord
  | trueWord | falseWord
  deriving DecidableEq

namespace Keyword

/-- All reserved words. -/
def all : List Keyword :=
  [voidWord, intWord, floatWord, boolWord, vec2Word, vec3Word, vec4Word, mat2Word, mat3Word,
    mat4Word, inWord, outWord, constWord, uniformWord, ifWord, elseWord, whileWord, forWord,
    switchWord, caseWord, defaultWord, breakWord, continueWord, returnWord, trueWord, falseWord]

/-- The spelling of a reserved word. -/
def text : Keyword → String
  | voidWord => "void"
  | intWord => "int"
  | floatWord => "float"
  | boolWord => "bool"
  | vec2Word => "vec2"
  | vec3Word => "vec3"
  | vec4Word => "vec4"
  | mat2Word => "mat2"
  | mat3Word => "mat3"
  | mat4Word => "mat4"
  | inWord => "in"
  | outWord => "out"
  | constWord => "const"
  | uniformWord => "uniform"
  | ifWord => "if"
  | elseWord => "else"
  | whileWord => "while"
  | forWord => "for"
  | switchWord => "switch"
  | caseWord => "case"
  | defaultWord => "default"
  | breakWord => "break"
  | continueWord => "continue"
  | returnWord => "return"
  | trueWord => "true"
  | falseWord => "false"

/-- The reserved word with this spelling. -/
def ofText? (word : String) : Option Keyword :=
  all.find? (·.text == word)

/-- The type that a word names. -/
def ty? : Keyword → Option Ty
  | voidWord => some .void
  | intWord => some .int
  | floatWord => some .float
  | boolWord => some .bool
  | vec2Word => some .vec2
  | vec3Word => some .vec3
  | vec4Word => some .vec4
  | mat2Word => some .mat2
  | mat3Word => some .mat3
  | mat4Word => some .mat4
  | _ => none

/-- The qualifier that a word names. -/
def qualifier? : Keyword → Option Qualifier
  | inWord => some .input
  | outWord => some .output
  | constWord => some .const
  | uniformWord => some .uniform
  | _ => none

theorem mem_all (k : Keyword) : k ∈ all := by
  cases k <;> decide

end Keyword

/-- The operators and the punctuation. -/
inductive Mark where
  | plus | minus | star | slash
  | increment | decrement
  | equal | notEqual | less | greater | lessEqual | greaterEqual
  | both | either | bang
  | assign | plusAssign | minusAssign | starAssign | slashAssign
  | openParen | closeParen | openBracket | closeBracket | openBrace | closeBrace
  | semicolon | comma | dot | colon | question
  deriving DecidableEq

namespace Mark

/-- The spelling of a mark. -/
def text : Mark → String
  | plus => "+"
  | minus => "-"
  | star => "*"
  | slash => "/"
  | increment => "++"
  | decrement => "--"
  | equal => "=="
  | notEqual => "!="
  | less => "<"
  | greater => ">"
  | lessEqual => "<="
  | greaterEqual => ">="
  | both => "&&"
  | either => "||"
  | bang => "!"
  | assign => "="
  | plusAssign => "+="
  | minusAssign => "-="
  | starAssign => "*="
  | slashAssign => "/="
  | openParen => "("
  | closeParen => ")"
  | openBracket => "["
  | closeBracket => "]"
  | openBrace => "\x7b"
  | closeBrace => "\x7d"
  | semicolon => ";"
  | comma => ","
  | dot => "."
  | colon => ":"
  | question => "?"

/-- The mark of two characters. -/
def two? : Char → Char → Option Mark
  | '+', '+' => some increment
  | '-', '-' => some decrement
  | '=', '=' => some equal
  | '!', '=' => some notEqual
  | '<', '=' => some lessEqual
  | '>', '=' => some greaterEqual
  | '&', '&' => some both
  | '|', '|' => some either
  | '+', '=' => some plusAssign
  | '-', '=' => some minusAssign
  | '*', '=' => some starAssign
  | '/', '=' => some slashAssign
  | _, _ => none

/-- The mark of one character. -/
def one? : Char → Option Mark
  | '+' => some plus
  | '-' => some minus
  | '*' => some star
  | '/' => some slash
  | '<' => some less
  | '>' => some greater
  | '!' => some bang
  | '=' => some assign
  | '(' => some openParen
  | ')' => some closeParen
  | '[' => some openBracket
  | ']' => some closeBracket
  | '{' => some openBrace
  | '}' => some closeBrace
  | ';' => some semicolon
  | ',' => some comma
  | '.' => some dot
  | ':' => some colon
  | '?' => some question
  | _ => none

end Mark

namespace Token

/-- What a token is. -/
inductive Kind where
  | keyword (word : Keyword)
  | mark (mark : Mark)
  | int (value : Int64)
  | float (value : Float)
  | name (text : String)
  | endOfText

namespace Kind

/-- Whether this is a given reserved word. -/
def isKeyword (word : Keyword) : Kind → Bool
  | keyword w => w == word
  | _ => false

/-- Whether this is a given mark. -/
def isMark (m : Mark) : Kind → Bool
  | mark n => n == m
  | _ => false

/-- Whether the text ends here. -/
def isEnd : Kind → Bool
  | endOfText => true
  | _ => false

/-- The type that this names. -/
def ty? : Kind → Option Ty
  | keyword word => word.ty?
  | _ => none

/-- The qualifier that this names. -/
def qualifier? : Kind → Option Qualifier
  | keyword word => word.qualifier?
  | _ => none

/-- Whether a type is named. -/
def isType (k : Kind) : Bool :=
  k.ty?.isSome

/-- Whether a qualifier is named. -/
def isQualifier (k : Kind) : Bool :=
  k.qualifier?.isSome

/-- Whether a declaration may begin here. -/
def startsDeclaration (k : Kind) : Bool :=
  k.isType || k.isQualifier

/-- How messages speak of a token. A number is written without an exponent. -/
def describe : Kind → String
  | keyword word => "'" ++ word.text ++ "'"
  | mark m => "'" ++ m.text ++ "'"
  | int value => "integer '" ++ toString value.toInt ++ "'"
  | float value => "float '" ++ Decimal.Layout.plain.write value ++ "'"
  | name text => "identifier '" ++ text ++ "'"
  | endOfText => "end of file"

end Kind

end Token

/-- A token and the bytes that it takes up. -/
structure Token where
  kind : Token.Kind
  span : Span

end ShaderLang
