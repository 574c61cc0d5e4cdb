import Lox.Syntax

/-!
# References

The referring nodes of a program, in the order of its text: an assignment before its value, the
callee before the arguments, the superclass before the methods.
-/

namespace Lox

/-- The kinds of referring nodes. -/
inductive ReferenceKind where
  | var
  | assign
  | this
  | super
  deriving DecidableEq, Repr

/-- A referring node: its identity and the token of the name that it refers to. -/
structure Reference where
  kind : ReferenceKind
  id : NodeId
  name : Token
  deriving DecidableEq

namespace Expr

mutual

/-- The references in an expression. -/
def references : Expr → List Reference
  | literal _ => []
  | grouping inner => inner.references
  | unary _ operand => operand.references
  | binary _ left right => left.references ++ right.references
  | logical _ left right => left.references ++ right.references
  | var id name => [⟨.var, id, name⟩]
  | assign id name value => ⟨.assign, id, name⟩ :: value.references
  | call callee _ arguments => callee.references ++ referencesList arguments
  | get object _ => object.references
  | set object _ value => object.references ++ value.references
  | this id keyword => [⟨.this, id, keyword⟩]
  | super id keyword _ => [⟨.super, id, keyword⟩]

/-- The references in several expressions. -/
def referencesList : List Expr → List Reference
  | [] => []
  | e :: rest => e.references ++ referencesList rest

end

/-- The references in an expression that may be missing. -/
def referencesOption : Option Expr → List Reference
  | none => []
  | some e => e.references

end Expr

namespace Stmt

mutual

/-- The references in a statement. -/
def references : Stmt → List Reference
  | expression value => value.references
  | print value => value.references
  | varDecl _ initializer => Expr.referencesOption initializer
  | block body => referencesList body
  | cond condition thenBranch none => condition.references ++ thenBranch.references
  | cond condition thenBranch (some elseBranch) =>
    condition.references ++ thenBranch.references ++ elseBranch.references
  | loop condition body => condition.references ++ body.references
  | funDecl declaration => functionReferences declaration
  | ret _ value => Expr.referencesOption value
  | classDecl ⟨_, superclass, methods⟩ =>
    Expr.referencesOption superclass ++ methodReferences methods

/-- The references in several statements. -/
def referencesList : List Stmt → List Reference
  | [] => []
  | s :: rest => s.references ++ referencesList rest

/-- The references in the body of a function or method. -/
def functionReferences : FunctionDecl → List Reference
  | ⟨_, _, body⟩ => referencesList body

/-- The references in the methods of a class. -/
def methodReferences : List FunctionDecl → List Reference
  | [] => []
  | d :: rest => functionReferences d ++ methodReferences rest

end

end Stmt

end Lox
