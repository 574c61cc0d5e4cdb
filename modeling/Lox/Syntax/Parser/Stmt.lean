import Lox.Syntax.Parser.Expr

/-!
# Parsing statements

    declaration → "class" class | "fun" function | "var" variable | statement
    class       → IDENTIFIER ( "<" IDENTIFIER )? "{" function* "}"
    function    → IDENTIFIER "(" parameters? ")" "{" declaration* "}"
    variable    → IDENTIFIER ( "=" expression )? ";"
    statement   → "for" "(" ( ";" | "var" variable | expression ";" ) expression? ";"
                    expression? ")" statement
                | "if" "(" expression ")" statement ( "else" statement )?
                | "while" "(" expression ")" statement
                | "return" expression? ";"
                | "{" declaration* "}"
                | "print" expression ";"
                | expression ";"

A declaration that fails is dropped: its error is noted and reading goes on at the next statement
boundary. As for expressions, the parsers of nested statements are only called after a token has
been consumed.
-/

namespace Lox

namespace TokenKind

/-- The keywords with which statements start. -/
def startsStatement : TokenKind → Bool
  | .keyword k =>
    k ∈ [Keyword.class_, .fun_, .var, .for_, .if_, .while_, .print, .return_]
  | _ => false

end TokenKind

namespace ParserState

/-- Consumes tokens up to a statement boundary: behind a semicolon, before a keyword that starts
    a statement, or at the end. The token before those not consumed yet is `previous`. -/
def skipStatement (previous : Token) : (rest : List Token) → (position : Nat) → List Token × Nat
  | [], position => ([], position)
  | t :: rest, position =>
    if t.kind = .eof || previous.kind = .semicolon || t.kind.startsStatement then
      (t :: rest, position)
    else skipStatement t rest (position + 1)

/-- Goes on at the next statement boundary behind the next token. -/
def recover (s : ParserState) : ParserState :=
  if s.atEnd then s
  else
    let (rest, position) := skipStatement s.current s.rest.tail (s.position + 1)
    { s with rest, position }

end ParserState

namespace Parser

/-- Declarations up to a closing brace or the end of the text, without the failed ones. -/
def declarations (nested : Parser (Option Stmt)) : (bound : Nat) → Parser (List Stmt)
  | 0 => return []
  | bound + 1 => do
    let s ← get
    if s.atEnd || s.current.kind = .rightBrace then return []
    else
      let first ← nested
      return first.toList ++ (← declarations nested bound)

/-- The statements of a block whose opening brace has been consumed. -/
def block (nested : Parser (Option Stmt)) : Parser (List Stmt) := do
  let body ← declarations nested (← remaining)
  let _ ← expect .rightBrace .blockEnd
  return body

/-- A function or method, from its name on. -/
def function (method : Bool) (nested : Parser (Option Stmt)) : Parser FunctionDecl := do
  let name ← expect .identifier (.functionName method)
  let _ ← expect .leftParen (.parametersStart method)
  let params ← commaSeparated (expect .identifier .parameterName) .tooManyParameters
  let _ ← expect .rightParen .parametersEnd
  let _ ← expect .leftBrace (.functionBodyStart method)
  return ⟨name, params, ← block nested⟩

/-- Methods up to a closing brace or the end of the text. -/
def methods (nested : Parser (Option Stmt)) : (bound : Nat) → Parser (List FunctionDecl)
  | 0 => return []
  | bound + 1 => do
    let s ← get
    if s.atEnd || s.current.kind = .rightBrace then return []
    else
      let first ← function true nested
      return first :: (← methods nested bound)

/-- A class, from its name on. -/
def classDeclaration (nested : Parser (Option Stmt)) : Parser Stmt := do
  let name ← expect .identifier .className
  let superclass ←
    if ← accept .less then
      let superName ← expect .identifier .superclassName
      pure (some (.var (← freshId) superName))
    else
      pure none
  let _ ← expect .leftBrace .classBodyStart
  let methods ← methods nested (← remaining)
  let _ ← expect .rightBrace .classBodyEnd
  return .classDecl ⟨name, superclass, methods⟩

/-- An expression over the tokens that are left. -/
def fullExpression : Parser Expr := do
  expression (← remaining)

/-- A variable declaration, from its name on. -/
def varDeclaration : Parser Stmt := do
  let name ← expect .identifier .variableName
  let initializer ← if ← accept .equal then some <$> fullExpression else pure none
  let _ ← expect .semicolon .variableEnd
  return .varDecl name initializer

/-- An expression, unless a token of this kind follows. -/
def expressionUnless (kind : TokenKind) : Parser (Option Expr) := do
  if ← looksAt kind then return none
  else some <$> fullExpression

/-- An expression as a statement. -/
def expressionStatement : Parser Stmt := do
  let value ← fullExpression
  let _ ← expect .semicolon .expressionEnd
  return .expression value

/-- What stands first in the head of a `for`, with its semicolon. -/
def forInitializer : Parser (Option Stmt) := do
  if ← accept .semicolon then return none
  else if ← accept (.keyword .var) then some <$> varDeclaration
  else some <$> expressionStatement

/-- A `for`, from its opening parenthesis on. -/
def forStatement (nested : Parser Stmt) : Parser Stmt := do
  let _ ← expect .leftParen .forStart
  let initializer ← forInitializer
  let condition ← expressionUnless .semicolon
  let _ ← expect .semicolon .forConditionEnd
  let increment ← expressionUnless .rightParen
  let _ ← expect .rightParen .forEnd
  return .forLoop initializer condition increment (← nested)

/-- An `if`, from its opening parenthesis on. An `else` belongs to the nearest `if`. -/
def ifStatement (nested : Parser Stmt) : Parser Stmt := do
  let _ ← expect .leftParen .ifStart
  let condition ← fullExpression
  let _ ← expect .rightParen .ifEnd
  let thenBranch ← nested
  let elseBranch ← if ← accept (.keyword .else_) then some <$> nested else pure none
  return .cond condition thenBranch elseBranch

/-- A `while`, from its opening parenthesis on. -/
def whileStatement (nested : Parser Stmt) : Parser Stmt := do
  let _ ← expect .leftParen .whileStart
  let condition ← fullExpression
  let _ ← expect .rightParen .whileEnd
  return .loop condition (← nested)

/-- A `return`, from behind the keyword on. -/
def returnStatement (keyword : Token) : Parser Stmt := do
  let value ← expressionUnless .semicolon
  let _ ← expect .semicolon .returnEnd
  return .ret keyword value

/-- A `print`, from behind the keyword on. -/
def printStatement : Parser Stmt := do
  let value ← fullExpression
  let _ ← expect .semicolon .printEnd
  return .print value

/-- A statement that declares nothing. -/
def plainStatement (nestedStatement : Parser Stmt) (nested : Parser (Option Stmt)) :
    Parser Stmt := do
  match ← peekKind with
  | .keyword .for_ => let _ ← next; forStatement nestedStatement
  | .keyword .if_ => let _ ← next; ifStatement nestedStatement
  | .keyword .while_ => let _ ← next; whileStatement nestedStatement
  | .keyword .return_ => returnStatement (← next)
  | .leftBrace => let _ ← next; return .block (← block nested)
  | .keyword .print => let _ ← next; printStatement
  | _ => expressionStatement

/-- A declaration or any other statement. -/
def anyStatement (nestedStatement : Parser Stmt) (nested : Parser (Option Stmt)) :
    Parser Stmt := do
  match ← peekKind with
  | .keyword .class_ => let _ ← next; classDeclaration nested
  | .keyword .fun_ => let _ ← next; return .funDecl (← function false nested)
  | .keyword .var => let _ ← next; varDeclaration
  | _ => plainStatement nestedStatement nested

/-- Runs the parser of a statement; if it fails, notes its error and goes on behind it. -/
def recovering (statement : Parser Stmt) : Parser (Option Stmt) :=
  tryCatch (some <$> statement) fun e => do
    modify fun s => (s.report e).recover
    return none

mutual

/-- A statement that declares nothing, with at most so many levels of nesting. -/
def statement : (depth : Nat) → Parser Stmt
  | 0 => unexpected .expression
  | depth + 1 => plainStatement (statement depth) (declaration depth)

/-- A declaration or any other statement, with at most so many levels of nesting. -/
def declaration : (depth : Nat) → Parser (Option Stmt)
  | 0 => recovering (unexpected .expression)
  | depth + 1 => recovering (anyStatement (statement depth) (declaration depth))

end

/-- Declarations up to the end of the text. -/
def program : (bound : Nat) → Parser (List Stmt)
  | 0 => return []
  | bound + 1 => do
    let s ← get
    if s.atEnd then return []
    else
      let first ← declaration s.rest.length
      return first.toList ++ (← program bound)

end Parser

/-- What parsing yields: the statements without the failed ones, the errors in the order in which
    they were found, and how many identities have been given to nodes. -/
structure Parsed where
  statements : List Stmt
  errors : List SyntaxError
  nextId : Nat

namespace Parsed

/-- Parses a list of tokens that ends with the one for the end of the text. Nodes get identities
    from `nextId` on. -/
def ofTokens (tokens : List Token) (nextId : Nat) : Parsed :=
  match (Parser.program tokens.length).run ⟨tokens, 0, nextId, #[]⟩ with
  | .ok statements s => ⟨statements, s.errors.toList, s.nextId⟩
  -- every declaration recovers from its own failure, so none gets here
  | .error e s => ⟨[], (s.errors.push e).toList, s.nextId⟩

end Parsed

end Lox
