import Lox.Token

/-!
# Syntax trees

Expressions, statements and declarations of Lox. A node that refers to a name by the scope it is
in (a variable, an assignment, `this`, `super`) has an identity, under which the distance to the
scope of its declaration is recorded.
-/

namespace Lox

/-- The identity of a referring node. -/
structure NodeId where
  index : Nat
  deriving DecidableEq, Repr

/-- The values written in programs. -/
inductive Literal where
  | number (value : Float)
  | string (contents : String)
  | true
  | false
  | nil
  deriving DecidableEq, Inhabited

/-- Expressions. -/
inductive Expr where
  | literal (value : Literal)
  | grouping (inner : Expr)
  | unary (operator : Token) (operand : Expr)
  | binary (operator : Token) (left right : Expr)
  /-- `or`, or for any other operator `and`. -/
  | logical (operator : Token) (left right : Expr)
  | var (id : NodeId) (name : Token)
  | assign (id : NodeId) (name : Token) (value : Expr)
  /-- Run-time errors of the call are attributed to its closing parenthesis. -/
  | call (callee : Expr) (paren : Token) (arguments : List Expr)
  | get (object : Expr) (name : Token)
  | set (object : Expr) (name : Token) (value : Expr)
  | this (id : NodeId) (keyword : Token)
  | super (id : NodeId) (keyword method : Token)
  deriving Inhabited

mutual

/-- Statements. There is no `for` among them: it is written with `while` and blocks. -/
inductive Stmt where
  | expression (value : Expr)
  | print (value : Expr)
  | varDecl (name : Token) (initializer : Option Expr)
  | block (body : List Stmt)
  | cond (condition : Expr) (thenBranch : Stmt) (elseBranch : Option Stmt)
  | loop (condition : Expr) (body : Stmt)
  | funDecl (declaration : FunctionDecl)
  | ret (keyword : Token) (value : Option Expr)
  | classDecl (declaration : ClassDecl)

/-- A function or method: its name, its parameters and its body. -/
structure FunctionDecl where
  name : Token
  params : List Token
  body : List Stmt

/-- A class: its name, the expression that names its superclass, and its methods. -/
structure ClassDecl where
  name : Token
  superclass : Option Expr
  methods : List FunctionDecl

end

instance : Inhabited Stmt :=
  ⟨.block []⟩

instance : Inhabited FunctionDecl :=
  ⟨⟨.eof 1, [], []⟩⟩

namespace FunctionDecl

/-- The number of arguments that a function takes. -/
def arity (d : FunctionDecl) : Nat :=
  d.params.length

end FunctionDecl

namespace Stmt

/-- What a `for` stands for: a loop over its body and then the increment, inside a block after the
    initializer. Parts that are missing leave no trace, a missing condition holds. -/
def forLoop (initializer : Option Stmt) (condition increment : Option Expr)
    (body : Stmt) : Stmt :=
  let body :=
    match increment with
    | some increment => .block [body, .expression increment]
    | none => body
  let loop := .loop (condition.getD (.literal .true)) body
  match initializer with
  | some initializer => .block [initializer, loop]
  | none => loop

end Stmt

end Lox
