import Lox.Syntax

/-!
# Printed trees

A tree is printed in prefix notation: every node in parentheses, with its operator or keyword
first. Groups keep their own node, so the printed form shows the parentheses of the program.
-/

namespace Lox

namespace Literal

/-- A number in a tree: a whole number with all its digits and one decimal, any other with its
    shortest digits and no exponent. -/
def numberText (x : Float) : String :=
  match Double.ofFloat x with
  | .nan => "NaN"
  | .infinite negative => if negative then "-inf" else "inf"
  | .finite negative magnitude =>
    let sign := if negative then "-" else ""
    match magnitude.whole? with
    | some n => sign ++ toString n ++ ".0"
    | none => sign ++ (magnitude.shortest .up).text .plain

/-- A literal as it is printed; a string without quotes. -/
def text : Literal → String
  | number value => numberText value
  | string contents => contents
  | true => "true"
  | false => "false"
  | nil => "nil"

end Literal

/-- Parts between parentheses, separated by blanks. -/
def parenthesized (parts : List String) : String :=
  "(" ++ " ".intercalate parts ++ ")"

namespace Expr

mutual

/-- The printed form of an expression. -/
def text : Expr → String
  | literal value => value.text
  | grouping inner => parenthesized ["group", inner.text]
  | unary operator operand => parenthesized [operator.lexeme, operand.text]
  | binary operator left right => parenthesized [operator.lexeme, left.text, right.text]
  | logical operator left right => parenthesized [operator.lexeme, left.text, right.text]
  | var _ name => name.lexeme
  | assign _ name value => parenthesized ["=", name.lexeme, value.text]
  | call callee _ arguments => parenthesized ("call" :: callee.text :: texts arguments)
  | get object name => parenthesized [".", object.text, name.lexeme]
  | set object name value =>
    parenthesized ["=", parenthesized [".", object.text, name.lexeme], value.text]
  | this _ _ => "this"
  | super _ _ method => parenthesized ["super", method.lexeme]

/-- The printed forms of several expressions. -/
def texts : List Expr → List String
  | [] => []
  | e :: rest => e.text :: texts rest

end

end Expr

namespace Stmt

/-- What stands in front of the statements of a function. -/
def functionHead (name : Token) (params : List Token) : String :=
  "fun " ++ name.lexeme ++ "(" ++ " ".intercalate (params.map (·.lexeme)) ++ ")"

mutual

/-- The printed form of a statement. -/
def text : Stmt → String
  | expression value => parenthesized [";", value.text]
  | print value => parenthesized ["print", value.text]
  | varDecl name none => parenthesized ["var", name.lexeme]
  | varDecl name (some initializer) => parenthesized ["var", name.lexeme, initializer.text]
  | block body => parenthesized ("block" :: texts body)
  | cond condition thenBranch none =>
    parenthesized ["if", condition.text, thenBranch.text]
  | cond condition thenBranch (some elseBranch) =>
    parenthesized ["if", condition.text, thenBranch.text, elseBranch.text]
  | loop condition body => parenthesized ["while", condition.text, body.text]
  | funDecl declaration => functionText declaration
  | ret _ none => parenthesized ["return"]
  | ret _ (some value) => parenthesized ["return", value.text]
  | classDecl ⟨name, none, methods⟩ =>
    parenthesized ("class" :: name.lexeme :: methodTexts methods)
  | classDecl ⟨name, some superclass, methods⟩ =>
    parenthesized ("class" :: name.lexeme :: "<" :: superclass.text :: methodTexts methods)

/-- The printed forms of several statements. -/
def texts : List Stmt → List String
  | [] => []
  | s :: rest => s.text :: texts rest

/-- The printed form of a function or method. -/
def functionText : FunctionDecl → String
  | ⟨name, params, body⟩ => parenthesized (functionHead name params :: texts body)

/-- The printed forms of the methods of a class. -/
def methodTexts : List FunctionDecl → List String
  | [] => []
  | d :: rest => functionText d :: methodTexts rest

end

end Stmt

end Lox
