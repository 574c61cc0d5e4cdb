import Lox.Syntax.Parser.Basic

/-!
# Parsing expressions

From the loosest to the tightest:

    expression → assignment
    assignment → or ( "=" assignment )?        the left side a variable or a property
    or         → and ( "or" and )*
    and        → equality ( "and" equality )*
    equality   → comparison ( ( "!=" | "==" ) comparison )*
    comparison → term ( ( ">" | ">=" | "<" | "<=" ) term )*
    term       → factor ( ( "-" | "+" ) factor )*
    factor     → unary ( ( "/" | "*" ) unary )*
    unary      → ( "!" | "-" )* call
    call       → primary ( "(" arguments? ")" | "." IDENTIFIER )*
    primary    → literal | IDENTIFIER | "this" | "super" "." IDENTIFIER | "(" expression ")"

Each level takes the parser of the expressions nested in it, which is only called after a token
has been consumed, so the number of tokens bounds the nesting.
-/

namespace Lox

namespace Parser

/-- Operands of one level, joined by its operators from left to right. -/
def leftAssociative (isOperator : TokenKind → Bool) (node : Token → Expr → Expr → Expr)
    (operand : Parser Expr) : Parser Expr := do
  let first ← operand
  loop (← remaining) first
where
  /-- Joins what follows to the operand on its left. -/
  loop : (bound : Nat) → Expr → Parser Expr
    | 0, left => return left
    | bound + 1, left => do
      match ← accept? isOperator with
      | none => return left
      | some operator => loop bound (node operator left (← operand))

/-- A literal, a name, or an expression in parentheses. -/
def primary (nested : Parser Expr) : Parser Expr := do
  match ← peekKind with
  | .keyword .false => let _ ← next; return .literal .false
  | .keyword .true => let _ ← next; return .literal .true
  | .keyword .nil => let _ ← next; return .literal .nil
  | .number value => let _ ← next; return .literal (.number value)
  | .string contents => let _ ← next; return .literal (.string contents)
  | .identifier => return .var (← freshId) (← next)
  | .keyword .this => return .this (← freshId) (← next)
  | .keyword .super =>
    let keyword ← next
    let _ ← expect .dot .superDot
    let method ← expect .identifier .superMethodName
    return .super (← freshId) keyword method
  | .leftParen =>
    let _ ← next
    let inner ← nested
    let _ ← expect .rightParen .groupEnd
    return .grouping inner
  | _ => unexpected .expression

/-- Argument lists and property accesses after an expression. -/
def postfixes (nested : Parser Expr) : (bound : Nat) → Expr → Parser Expr
  | 0, left => return left
  | bound + 1, left => do
    if ← accept .leftParen then
      let arguments ← commaSeparated nested .tooManyArguments
      let paren ← expect .rightParen .argumentsEnd
      postfixes nested bound (.call left paren arguments)
    else if ← accept .dot then
      let name ← expect .identifier .propertyName
      postfixes nested bound (.get left name)
    else
      return left

/-- A primary expression with its argument lists and property accesses. -/
def call (nested : Parser Expr) : Parser Expr := do
  let left ← primary nested
  postfixes nested (← remaining) left

/-- Is it an operator in front of its operand? -/
def isUnary (kind : TokenKind) : Bool :=
  kind = .bang || kind = .minus

/-- The operators in front of an operand. -/
def unaryOperators : (bound : Nat) → Parser (List Token)
  | 0 => return []
  | bound + 1 => do
    match ← accept? isUnary with
    | none => return []
    | some operator => return operator :: (← unaryOperators bound)

/-- An operand with the operators in front of it; the one next to it applies first. -/
def unary (nested : Parser Expr) : Parser Expr := do
  let operators ← unaryOperators (← remaining)
  return operators.foldr .unary (← call nested)

/-- Products and quotients. -/
def factor (nested : Parser Expr) : Parser Expr :=
  leftAssociative (fun k => k = .slash || k = .star) .binary (unary nested)

/-- Sums and differences. -/
def term (nested : Parser Expr) : Parser Expr :=
  leftAssociative (fun k => k = .minus || k = .plus) .binary (factor nested)

/-- Comparisons by order. -/
def comparison (nested : Parser Expr) : Parser Expr :=
  leftAssociative
    (fun k => k = .greater || k = .greaterEqual || k = .less || k = .lessEqual) .binary
    (term nested)

/-- Comparisons by equality. -/
def equality (nested : Parser Expr) : Parser Expr :=
  leftAssociative (fun k => k = .bangEqual || k = .equalEqual) .binary (comparison nested)

/-- Conjunctions. -/
def conjunction (nested : Parser Expr) : Parser Expr :=
  leftAssociative (· = .keyword .and) .logical (equality nested)

/-- Disjunctions. -/
def disjunction (nested : Parser Expr) : Parser Expr :=
  leftAssociative (· = .keyword .or) .logical (conjunction nested)

/-- An assignment, or an expression without one. Only a variable or a property can be assigned
    to; the value of any other assignment is dropped and the error noted at the equals sign. -/
def assignment (nested : Parser Expr) : Parser Expr := do
  let target ← disjunction nested
  let beforeEqual ← get
  if ← accept .equal then
    let value ← nested
    match target with
    | .var _ name => return .assign (← freshId) name value
    | .get object name => return .set object name value
    | _ =>
      -- noted after the errors in the value, although it stands before them
      modify (·.report (beforeEqual.errorHere .invalidAssignmentTarget))
      return target
  else
    return target

/-- An expression with at most so many levels of nesting. -/
def expression : (depth : Nat) → Parser Expr
  | 0 => unexpected .expression
  | depth + 1 => assignment (expression depth)

end Parser

end Lox
