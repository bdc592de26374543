import PlZero.Source.Position
import PlZero.Text.Quoted

/-! Tokens of the source language. Every kind has a number; numbers outside the language give a kind
of their own, which no sentence of the language contains. -/

namespace PlZero.Source

open PlZero.Text

/-- The kinds of tokens, with the payload of those that carry one. -/
inductive TokenKind where
  | endOfInput
  | integer (value : Int32)
  | identifier (name : String)
  | beginWord
  | endWord
  | varWord
  | constWord
  | printWord
  | plus
  | minus
  | times
  | divide
  | equals
  | semicolon
  | openParen
  | closeParen
  | other (number : Int)
  deriving DecidableEq, Repr

namespace TokenKind

/-- The kind with a number, with the payload it takes from a name or a value. -/
def ofNumber (number : Int) (name : String) (value : Int32) : TokenKind :=
  match number with
  | 0 => endOfInput
  | 1 => integer value
  | 2 => identifier name
  | 3 => beginWord
  | 4 => endWord
  | 5 => varWord
  | 6 => constWord
  | 7 => printWord
  | 8 => plus
  | 9 => minus
  | 10 => times
  | 11 => divide
  | 12 => equals
  | 13 => semicolon
  | 14 => openParen
  | 15 => closeParen
  | _ => other number

/-- The name of a kind in a token dump. -/
def label : TokenKind → String
  | endOfInput => "NULL_TOKEN"
  | integer _ => "UNSIGNED_INTEGER"
  | identifier _ => "IDENTIFIER"
  | beginWord => "BEGIN"
  | endWord => "END"
  | varWord => "VAR"
  | constWord => "CONST"
  | printWord => "PRINT"
  | plus => "PLUS_SIGN"
  | minus => "MINUS_SIGN"
  | times => "MULTIPLICATION_SIGN"
  | divide => "DIVISION_SIGN"
  | equals => "EQUAL_SIGN"
  | semicolon => "SEMICOLON"
  | openParen => "LEFT_BRACKET"
  | closeParen => "RIGHT_BRACKET"
  | other number => "Token(" ++ showInt number ++ ")"

/-- The label and the payload, if there is one. -/
def render : TokenKind → String
  | integer value => "UNSIGNED_INTEGER " ++ showInt value.toInt
  | identifier name => "IDENTIFIER " ++ name
  | kind => kind.label

def hasPayload : TokenKind → Bool
  | integer _ => true
  | identifier _ => true
  | _ => false

/-- How a token reads in a message. -/
def describe : TokenKind → String
  | endOfInput => "end of input"
  | integer value => showInt value.toInt
  | identifier name => "identifier " ++ quote name
  | beginWord => "'begin'"
  | endWord => "'end'"
  | varWord => "'var'"
  | constWord => "'const'"
  | printWord => "'print'"
  | plus => "'+'"
  | minus => "'-'"
  | times => "'*'"
  | divide => "'/'"
  | equals => "'='"
  | semicolon => "';'"
  | openParen => "'('"
  | closeParen => "')'"
  | kind => kind.label

/-- The reserved words, each with its kind. -/
def reserved : List (String × TokenKind) :=
  [("begin", beginWord), ("end", endWord), ("var", varWord), ("const", constWord),
    ("print", printWord)]

/-- The kind of a word: a reserved word, or else an identifier. -/
def ofWord (word : String) : TokenKind :=
  (reserved.lookup word).getD (identifier word)

/-- The kind of a punctuation character. -/
def ofMark? : Char → Option TokenKind
  | '+' => some plus
  | '-' => some minus
  | '*' => some times
  | '/' => some divide
  | '=' => some equals
  | ';' => some semicolon
  | '(' => some openParen
  | ')' => some closeParen
  | _ => none

end TokenKind

structure Token where
  kind : TokenKind
  position : Position
  deriving DecidableEq, Repr

/-- One line for each token before the end of input. -/
def dump (tokens : List Token) : String :=
  String.join
    ((tokens.takeWhile fun token => token.kind != .endOfInput).map fun token =>
      token.kind.render ++ "\n")

end PlZero.Source
