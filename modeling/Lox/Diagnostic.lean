import Lox.Token.Scan

/-!
# Diagnostics

What can be wrong with a program or its run, as causes. Each cause has one wording, given by its
`message`; where it stands is part of the error that carries it. A `Diagnostic` is an error of any
stage, with the text in which it is shown.
-/

namespace Lox

/-- What the syntax asks for at some place. -/
inductive Expectation where
  | className
  | superclassName
  | classBodyStart
  | classBodyEnd
  | functionName (method : Bool)
  | parametersStart (method : Bool)
  | parameterName
  | parametersEnd
  | functionBodyStart (method : Bool)
  | variableName
  | variableEnd
  | forStart
  | forConditionEnd
  | forEnd
  | printEnd
  | expressionEnd
  | ifStart
  | ifEnd
  | whileStart
  | whileEnd
  | returnEnd
  | blockEnd
  | propertyName
  | argumentsEnd
  | superDot
  | superMethodName
  | groupEnd
  | expression
  deriving DecidableEq, Repr

namespace Expectation

/-- How declarations with parameters are called. -/
def functionWord (method : Bool) : String :=
  if method then "method" else "function"

/-- The wording of an expectation that is not met. -/
def message : Expectation → String
  | className => "Expect class name."
  | superclassName => "Expect superclass name."
  | classBodyStart => "Expect '\x7b' before class body."
  | classBodyEnd => "Expect '\x7d' after class body."
  | functionName method => "Expect " ++ functionWord method ++ " name."
  | parametersStart method => "Expect '(' after " ++ functionWord method ++ " name."
  | parameterName => "Expect parameter name."
  | parametersEnd => "Expect ')' after parameters."
  | functionBodyStart method => "Expect '\x7b' before " ++ functionWord method ++ " body."
  | variableName => "Expect variable name."
  | variableEnd => "Expect ';' after variable declaration."
  | forStart => "Expect '(' after 'for'."
  | forConditionEnd => "Expect ';' after loop condition."
  | forEnd => "Expect ')' after for clauses."
  | printEnd => "Expect ';' after value."
  | expressionEnd => "Expect ';' after expression."
  | ifStart => "Expect '(' after 'if'."
  | ifEnd => "Expect ')' after if condition."
  | whileStart => "Expect '(' after 'while'."
  | whileEnd => "Expect ')' after condition."
  | returnEnd => "Expect ';' after return value."
  | blockEnd => "Expect '\x7d' after block."
  | propertyName => "Expect property name after '.'."
  | argumentsEnd => "Expect ')' after arguments."
  | superDot => "Expect '.' after 'super'."
  | superMethodName => "Expect superclass method name."
  | groupEnd => "Expect ')' after expression."
  | expression => "Expect expression."

end Expectation

/-- What is wrong with the syntax at some token. Only an expectation that is not met ends the
    statement; the other faults are noted and reading goes on. -/
inductive SyntaxFault where
  | expected (what : Expectation)
  | invalidAssignmentTarget
  | tooManyParameters
  | tooManyArguments
  deriving DecidableEq, Repr

namespace SyntaxFault

/-- The wording of a fault. -/
def message : SyntaxFault → String
  | expected what => what.message
  | invalidAssignmentTarget => "Invalid assignment target."
  | tooManyParameters => "Can't have more than 255 parameters."
  | tooManyArguments => "Can't have more than 255 arguments."

/-- Does the fault end the statement it is in? -/
def isStructural : SyntaxFault → Bool
  | expected _ => true
  | _ => false

end SyntaxFault

/-- What is wrong with the use of a name or keyword. -/
inductive ScopeFault where
  | duplicateDeclaration
  | ownInitializer
  | topLevelReturn
  | initializerReturnsValue
  | selfInheritance
  | thisOutsideClass
  | superOutsideClass
  | superWithoutSuperclass
  deriving DecidableEq, Repr

namespace ScopeFault

/-- The wording of a fault. -/
def message : ScopeFault → String
  | duplicateDeclaration => "Already a variable with this name in this scope."
  | ownInitializer => "Can't read local variable in its own initializer."
  | topLevelReturn => "Can't return from top-level code."
  | initializerReturnsValue => "Can't return a value from an initializer."
  | selfInheritance => "A class can't inherit from itself."
  | thisOutsideClass => "Can't use 'this' outside of a class."
  | superOutsideClass => "Can't use 'super' outside of a class."
  | superWithoutSuperclass => "Can't use 'super' in a class with no superclass."

end ScopeFault

/-- What ends a run. -/
inductive RuntimeFault where
  | operandNotNumber
  | invalidUnary
  | operandsNotNumbers
  | operandsNotAddable
  | invalidBinary
  | notCallable
  | wrongArity (expected actual : Nat)
  | noProperties
  | noFields
  | undefinedProperty (name : String)
  | superclassNotClass
  | undefinedVariable (name : String)
  | uninitializedVariable (name : String)
  | superUnavailable
  | native (name message : String)
  deriving DecidableEq, Repr

namespace RuntimeFault

/-- The wording of a fault. -/
def message : RuntimeFault → String
  | operandNotNumber => "Operand must be a number."
  | invalidUnary => "Invalid unary operator."
  | operandsNotNumbers => "Operands must be numbers."
  | operandsNotAddable => "Operands must be two numbers or two strings."
  | invalidBinary => "Invalid binary operator."
  | notCallable => "Can only call functions and classes."
  | wrongArity expected actual =>
    "Expected " ++ toString expected ++ " arguments but got " ++ toString actual ++ "."
  | noProperties => "Only instances have properties."
  | noFields => "Only instances have fields."
  | undefinedProperty name => "Undefined property '" ++ name ++ "'."
  | superclassNotClass => "Superclass must be a class."
  | undefinedVariable name => "Undefined variable '" ++ name ++ "'."
  | uninitializedVariable name => "Uninitialized variable '" ++ name ++ "'."
  | superUnavailable => "Can't use 'super' here."
  | native name message => name ++ ": " ++ message

end RuntimeFault

/-- Why program output cannot be written. -/
inductive OutputFault where
  | closed
  | flushFailed
  /-- Another fault, in the words of the host. -/
  | other (message : String)
  deriving DecidableEq, Repr

namespace OutputFault

/-- The wording of a fault. -/
def message : OutputFault → String
  | closed => "output closed"
  | flushFailed => "flush failed"
  | other message => message

end OutputFault

namespace LexFault

/-- The wording of a fault. -/
def message : LexFault → String
  | unexpectedCharacter c => "Unexpected character: " ++ c.toString
  | unterminatedString => "Unterminated string."

end LexFault

/-- A syntax fault at a token, and how many tokens stand before it. -/
structure SyntaxError where
  fault : SyntaxFault
  token : Token
  position : Nat
  deriving DecidableEq

/-- A fault in the use of names at a token. -/
structure ScopeError where
  fault : ScopeFault
  token : Token
  deriving DecidableEq

/-- A fault at run time and the line to which it is attributed. -/
structure RuntimeError where
  fault : RuntimeFault
  line : Nat
  deriving DecidableEq, Repr

/-- An error of any stage. -/
inductive Diagnostic where
  | lexical (e : LexError)
  | syntactic (e : SyntaxError)
  | scoping (e : ScopeError)
  | runtime (e : RuntimeError)
  | output (e : OutputFault)
  deriving DecidableEq

/-- Where a static error is said to stand. -/
inductive Location where
  | line
  | atEnd
  | atLexeme (lexeme : String)
  deriving DecidableEq, Repr

namespace Location

/-- The location of a token. -/
def ofToken (t : Token) : Location :=
  if t.kind = .eof then .atEnd else .atLexeme t.lexeme

/-- How a location is shown. -/
def text : Location → String
  | line => ""
  | atEnd => " at end"
  | atLexeme lexeme => " at '" ++ lexeme ++ "'"

end Location

namespace Diagnostic

/-- The bare message of an error. -/
def message : Diagnostic → String
  | lexical e => e.fault.message
  | syntactic e => e.fault.message
  | scoping e => e.fault.message
  | runtime e => e.fault.message
  | output e => e.message

/-- The line that an error points at; output failures have none. -/
def line? : Diagnostic → Option Nat
  | lexical e => some e.line
  | syntactic e => some e.token.line
  | scoping e => some e.token.line
  | runtime e => some e.line
  | output _ => none

/-- The location of an error found before the program runs. -/
def location? : Diagnostic → Option Location
  | lexical _ => some .line
  | syntactic e => some (.ofToken e.token)
  | scoping e => some (.ofToken e.token)
  | runtime _ => none
  | output _ => none

/-- Is it an error of the running program? A failure of the output is none. -/
def isRuntime : Diagnostic → Bool
  | runtime _ => true
  | _ => false

/-- The text of an error that is found before the program runs. -/
def staticText (line : Nat) (location : Location) (message : String) : String :=
  "[line " ++ toString line ++ "] Error" ++ location.text ++ ": " ++ message

/-- How an error is shown. -/
def text : Diagnostic → String
  | lexical e => staticText e.line .line e.fault.message
  | syntactic e => staticText e.token.line (.ofToken e.token) e.fault.message
  | scoping e => staticText e.token.line (.ofToken e.token) e.fault.message
  | runtime e => e.fault.message ++ "\n[line " ++ toString e.line ++ "]"
  | output e => e.message

end Diagnostic

/-- The errors found so far, oldest first. -/
abbrev Report :=
  List Diagnostic

namespace Report

/-- Is there an error of the running program among them? -/
def hasRuntime (r : Report) : Bool :=
  r.any (·.isRuntime)

/-- All errors, each followed by a line break. -/
def dump (r : Report) : String :=
  String.join (r.map fun d => d.text ++ "\n")

end Report

end Lox
