import Lox.Decimal.Shortest

/-!
# Tokens

A token has a kind, the text it was read from and the line on which that text ends. String and
number tokens carry what their text stands for. Kinds are compared without this payload.
-/

namespace Lox

/-- The reserved words. -/
inductive Keyword where
  | and | class_ | else_ | false | for_ | fun_ | if_ | nil
  | or | print | return_ | super | this | true | var | while_
  deriving DecidableEq, Repr

namespace Keyword

/-- How a reserved word is written. -/
def word : Keyword → String
  | and => "and"
  | class_ => "class"
  | else_ => "else"
  | false => "false"
  | for_ => "for"
  | fun_ => "fun"
  | if_ => "if"
  | nil => "nil"
  | or => "or"
  | print => "print"
  | return_ => "return"
  | super => "super"
  | this => "this"
  | true => "true"
  | var => "var"
  | while_ => "while"

/-- All reserved words. -/
def all : List Keyword :=
  [and, class_, else_, false, for_, fun_, if_, nil, or, print, return_, super, this, true, var,
    while_]

/-- The reserved word that is written like this. -/
def ofWord? (text : String) : Option Keyword :=
  all.find? (·.word = text)

/-- Every keyword is among all of them. -/
theorem mem_all (k : Keyword) : k ∈ all := by
  cases k <;> decide

/-- The word of a keyword is that of no other one. -/
theorem ofWord?_word (k : Keyword) : ofWord? k.word = some k := by
  cases k <;> decide

end Keyword

/-- The kinds of tokens, with the contents of a string and the value of a number. -/
inductive TokenKind where
  | leftParen | rightParen | leftBrace | rightBrace
  | comma | dot | minus | plus | semicolon | slash | star
  | bang | bangEqual | equal | equalEqual | greater | greaterEqual | less | lessEqual
  | identifier
  | string (contents : String)
  | number (value : Float)
  | keyword (word : Keyword)
  | eof
  deriving DecidableEq

namespace TokenKind

/-- The name of a kind. -/
def name : TokenKind → String
  | leftParen => "LEFT_PAREN"
  | rightParen => "RIGHT_PAREN"
  | leftBrace => "LEFT_BRACE"
  | rightBrace => "RIGHT_BRACE"
  | comma => "COMMA"
  | dot => "DOT"
  | minus => "MINUS"
  | plus => "PLUS"
  | semicolon => "SEMICOLON"
  | slash => "SLASH"
  | star => "STAR"
  | bang => "BANG"
  | bangEqual => "BANG_EQUAL"
  | equal => "EQUAL"
  | equalEqual => "EQUAL_EQUAL"
  | greater => "GREATER"
  | greaterEqual => "GREATER_EQUAL"
  | less => "LESS"
  | lessEqual => "LESS_EQUAL"
  | identifier => "IDENTIFIER"
  | string _ => "STRING"
  | number _ => "NUMBER"
  | keyword k => k.word.toUpper
  | eof => "EOF"

/-- The kind without its payload. -/
def bare : TokenKind → TokenKind
  | string _ => string ""
  | number _ => number 0
  | kind => kind

end TokenKind

/-- One lexeme with its kind and the line on which it ends. -/
structure Token where
  kind : TokenKind
  lexeme : String
  line : Nat
  deriving DecidableEq

namespace Token

/-- The token that stands after the last lexeme of a text. -/
def eof (line : Nat) : Token :=
  ⟨.eof, "", line⟩

/-- An identifier. -/
def name (lexeme : String) (line : Nat) : Token :=
  ⟨.identifier, lexeme, line⟩

/-- Two tokens agree if kind, lexeme and line do; what a string or number stands for is not
    looked at. -/
def agrees (a b : Token) : Bool :=
  a.kind.bare = b.kind.bare && a.lexeme = b.lexeme && a.line = b.line

/-- A number as the third column of a token shows it: a whole number below `2 ^ 63` with one
    decimal and no sign at zero, any other with its shortest digits and no exponent. -/
def numberText (x : Float) : String :=
  match Double.ofFloat x with
  | .nan => "NaN"
  | .infinite negative => if negative then "-inf" else "inf"
  | .finite negative magnitude =>
    let sign := if negative then "-" else ""
    match magnitude.whole? with
    | some n =>
      if n = 0 then "0.0"
      else if n < 0x8000000000000000 then sign ++ toString n ++ ".0"
      else sign ++ (magnitude.shortest .up).text .plain
    | none => sign ++ (magnitude.shortest .up).text .plain

/-- What a token stands for, as its third column shows it. -/
def literalText (t : Token) : String :=
  match t.kind with
  | .string contents => contents
  | .number value => numberText value
  | _ => "null"

/-- The three columns of a token: kind, lexeme and literal. -/
def text (t : Token) : String :=
  t.kind.name ++ " " ++ t.lexeme ++ " " ++ t.literalText

end Token

end Lox
