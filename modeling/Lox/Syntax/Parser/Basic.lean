import Lox.Diagnostic
import Lox.Syntax

/-!
# Reading tokens

A parser consumes tokens from the front of a list, hands out identities for nodes, and notes
syntax errors. A failure carries the error that caused it; what was consumed and noted before it
stays so. The token for the end of the text is never consumed.
-/

namespace Lox

/-- What a parser works on. -/
structure ParserState where
  /-- The tokens not consumed yet. -/
  rest : List Token
  /-- How many tokens have been consumed. -/
  position : Nat
  /-- How many identities have been given to nodes. -/
  nextId : Nat
  /-- The errors noted so far, oldest first. -/
  errors : Array SyntaxError

/-- A parser yields a result or fails with a syntax error. -/
abbrev Parser :=
  EStateM SyntaxError ParserState

namespace ParserState

/-- The token to be read next. After the last one the text is at its end. -/
def current (s : ParserState) : Token :=
  s.rest.headD (.eof 1)

/-- Is there nothing left but the token for the end of the text? -/
def atEnd (s : ParserState) : Bool :=
  s.current.kind = .eof

/-- Consumes a token, unless it is the one for the end of the text. -/
def advance (s : ParserState) : ParserState :=
  if s.atEnd then s else { s with rest := s.rest.tail, position := s.position + 1 }

/-- The error that a fault is at the next token. -/
def errorHere (fault : SyntaxFault) (s : ParserState) : SyntaxError :=
  ⟨fault, s.current, s.position⟩

/-- Notes an error. -/
def report (e : SyntaxError) (s : ParserState) : ParserState :=
  { s with errors := s.errors.push e }

end ParserState

namespace Parser

/-- The kind of the next token. -/
def peekKind : Parser TokenKind := do
  return (← get).current.kind

/-- How many tokens are left; a bound on the repetitions of anything that consumes one. -/
def remaining : Parser Nat := do
  return (← get).rest.length

/-- Consumes the next token and yields it. -/
def next : Parser Token := do
  let s ← get
  set s.advance
  return s.current

/-- Consumes the next token if it is of such a kind. -/
def accept? (p : TokenKind → Bool) : Parser (Option Token) := do
  let s ← get
  if !s.atEnd && p s.current.kind then
    set s.advance
    return some s.current
  else
    return none

/-- Consumes the next token if it is of this kind. Has it been one? -/
def accept (kind : TokenKind) : Parser Bool := do
  return (← accept? (· = kind)).isSome

/-- Is the next token of this kind? -/
def looksAt (kind : TokenKind) : Parser Bool := do
  let s ← get
  return !s.atEnd && s.current.kind = kind

/-- Fails because something else is expected at the next token. -/
def unexpected {α : Type} (what : Expectation) : Parser α := do
  throw ((← get).errorHere (.expected what))

/-- Consumes a token of this kind, or fails at a token of another. -/
def expect (kind : TokenKind) (what : Expectation) : Parser Token := do
  match ← accept? (· = kind) with
  | some t => return t
  | none => unexpected what

/-- Notes an error at the next token. -/
def reportHere (fault : SyntaxFault) : Parser Unit :=
  modify fun s => s.report (s.errorHere fault)

/-- An identity that no other node has. -/
def freshId : Parser NodeId :=
  modifyGet fun s => (⟨s.nextId⟩, { s with nextId := s.nextId + 1 })

/-- The most parameters of a function and arguments of a call. -/
def maxArguments : Nat :=
  255

/-- Items separated by commas, before a closing parenthesis; there may be none. More than
    `maxArguments` of them are noted as an error at each one too many. -/
def commaSeparated {α : Type} (item : Parser α) (tooMany : SyntaxFault) : Parser (List α) := do
  if ← looksAt .rightParen then return []
  else loop (← remaining) 0
where
  /-- Items of which so many precede. -/
  loop : (bound count : Nat) → Parser (List α)
    | bound, count => do
      if maxArguments ≤ count then reportHere tooMany
      let first ← item
      match bound with
      | 0 => return [first]
      | bound + 1 =>
        if ← accept .comma then return first :: (← loop bound (count + 1))
        else return [first]

end Parser

end Lox
