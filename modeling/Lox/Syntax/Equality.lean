import Lox.Syntax

/-!
# Equality of trees

Two trees are the same if they have the same shape and literals, the identities of their nodes are
the same, and their tokens agree. Numbers are compared as numbers, so a tree with a literal that
is not a number differs from itself.
-/

namespace Lox

namespace Literal

/-- Are two literals the same? -/
def same : Literal → Literal → Bool
  | number a, number b => a == b
  | string a, string b => a = b
  | true, true => .true
  | false, false => .true
  | nil, nil => .true
  | _, _ => .false

end Literal

namespace Expr

mutual

/-- Are two expressions the same? -/
def same : Expr → Expr → Bool
  | literal a, literal b => a.same b
  | grouping a, grouping b => a.same b
  | unary op a, unary op' a' => op.agrees op' && a.same a'
  | binary op a b, binary op' a' b' => a.same a' && op.agrees op' && b.same b'
  | logical op a b, logical op' a' b' => a.same a' && op.agrees op' && b.same b'
  | var id name, var id' name' => id = id' && name.agrees name'
  | assign id name a, assign id' name' a' => id = id' && name.agrees name' && a.same a'
  | call f paren as, call f' paren' as' => f.same f' && paren.agrees paren' && sameList as as'
  | get a name, get a' name' => a.same a' && name.agrees name'
  | set a name b, set a' name' b' => a.same a' && name.agrees name' && b.same b'
  | this id keyword, this id' keyword' => id = id' && keyword.agrees keyword'
  | super id keyword name, super id' keyword' name' =>
    id = id' && keyword.agrees keyword' && name.agrees name'
  | _, _ => false

/-- Are two lists of expressions the same? -/
def sameList : List Expr → List Expr → Bool
  | [], [] => true
  | a :: as, b :: bs => a.same b && sameList as bs
  | _, _ => false

end

/-- Are two optional expressions the same? -/
def sameOption : Option Expr → Option Expr → Bool
  | none, none => true
  | some a, some b => a.same b
  | _, _ => false

end Expr

namespace Token

/-- Do two lists of tokens agree? -/
def agreeList : List Token → List Token → Bool
  | [], [] => true
  | a :: as, b :: bs => a.agrees b && agreeList as bs
  | _, _ => false

end Token

namespace Stmt

mutual

/-- Are two statements the same? -/
def same : Stmt → Stmt → Bool
  | expression a, expression b => a.same b
  | print a, print b => a.same b
  | varDecl name a, varDecl name' b => name.agrees name' && Expr.sameOption a b
  | block a, block b => sameList a b
  | cond c a none, cond c' a' none => c.same c' && a.same a'
  | cond c a (some b), cond c' a' (some b') => c.same c' && a.same a' && b.same b'
  | loop c a, loop c' a' => c.same c' && a.same a'
  | funDecl a, funDecl b => sameFunction a b
  | ret keyword a, ret keyword' b => keyword.agrees keyword' && Expr.sameOption a b
  | classDecl ⟨name, superclass, methods⟩, classDecl ⟨name', superclass', methods'⟩ =>
    name.agrees name' && Expr.sameOption superclass superclass' && sameFunctions methods methods'
  | _, _ => false

/-- Are two lists of statements the same? -/
def sameList : List Stmt → List Stmt → Bool
  | [], [] => true
  | a :: as, b :: bs => a.same b && sameList as bs
  | _, _ => false

/-- Are two functions the same? -/
def sameFunction : FunctionDecl → FunctionDecl → Bool
  | ⟨name, params, body⟩, ⟨name', params', body'⟩ =>
    name.agrees name' && Token.agreeList params params' && sameList body body'

/-- Are two lists of functions the same? -/
def sameFunctions : List FunctionDecl → List FunctionDecl → Bool
  | [], [] => true
  | a :: as, b :: bs => sameFunction a b && sameFunctions as bs
  | _, _ => false

end

end Stmt

end Lox
