import Lox.Diagnostic
import Lox.NameTable
import Lox.Syntax

/-!
# Resolution of names

Before a program runs, every reference to a local name is given its distance: the number of scopes
to walk outward from the place of the reference to the scope that declares the name. References
without a distance are global. The same walk finds the misuses of names, `return`, `this` and
`super`.

The walk is a function from the static scopes around a piece of syntax to what is found in it, in
order, and for statements also to the scopes behind it.
-/

namespace Lox

/-- What kind of function body surrounds a place. -/
inductive FunctionContext where
  | none
  | function
  | method
  | initializer
  deriving DecidableEq, Repr

/-- What kind of class body surrounds a place. -/
inductive ClassContext where
  | none
  | base
  | subclass
  deriving DecidableEq, Repr

/-- The function and class bodies that surround a place. -/
structure ResolveContext where
  function : FunctionContext
  cls : ClassContext
  deriving DecidableEq, Repr

/-- The local scopes around a place, innermost first. A name stands for `true` once its value is
    available, for `false` inside its own initializer. Global names are not kept. -/
abbrev StaticScopes :=
  List (NameTable Bool)

/-- What is found on the walk: the distance of a reference, or a fault. -/
inductive Finding where
  | distance (id : NodeId) (distance : Nat)
  | fault (e : ScopeError)
  deriving DecidableEq

/-- What a declaration or statement leaves behind: the scopes after it, and what was found in
    it. -/
abbrev Resolved :=
  StaticScopes × List Finding

namespace StaticScopes

/-- Declares a name in the innermost scope. It must not be there already. -/
def declare (scopes : StaticScopes) (name : Token) : Resolved :=
  match scopes with
  | [] => ([], [])
  | innermost :: outer =>
    if innermost.contains name.lexeme then
      (scopes, [.fault ⟨.duplicateDeclaration, name⟩])
    else
      (innermost.insert name.lexeme false :: outer, [])

/-- Makes the value of a name available in the innermost scope. -/
def define (scopes : StaticScopes) (name : String) : StaticScopes :=
  match scopes with
  | [] => []
  | innermost :: outer => innermost.insert name true :: outer

/-- Declares names one after the other and makes their values available. -/
def introduce : StaticScopes → List Token → Resolved
  | scopes, [] => (scopes, [])
  | scopes, name :: rest =>
    let (declared, found) := scopes.declare name
    let (after, more) := introduce (declared.define name.lexeme) rest
    (after, found ++ more)

/-- Opens a scope in which a name has a value. -/
def openWith (scopes : StaticScopes) (name : String) : StaticScopes :=
  NameTable.empty.insert name true :: scopes

/-- The number of scopes to walk outward to the nearest one that declares a name. -/
def distance? (scopes : StaticScopes) (name : String) : Option Nat :=
  scopes.findIdx? fun scope => scope.contains name

/-- Is the place inside the initializer of this name in the innermost scope? -/
def inInitializerOf (scopes : StaticScopes) (name : String) : Bool :=
  match scopes with
  | [] => false
  | innermost :: _ => innermost.get? name = some false

/-- The distance of a reference, if it is local. -/
def refer (scopes : StaticScopes) (id : NodeId) (name : Token) : List Finding :=
  match scopes.distance? name.lexeme with
  | some d => [.distance id d]
  | none => []

end StaticScopes

namespace Expr

mutual

/-- What is found in an expression. An assignment is looked at after its value, a property that is
    set after the new value. -/
def resolve (cls : ClassContext) (scopes : StaticScopes) : Expr → List Finding
  | literal _ => []
  | grouping inner => inner.resolve cls scopes
  | unary _ operand => operand.resolve cls scopes
  | binary _ left right => left.resolve cls scopes ++ right.resolve cls scopes
  | logical _ left right => left.resolve cls scopes ++ right.resolve cls scopes
  | var id name =>
    (if scopes.inInitializerOf name.lexeme then [.fault ⟨.ownInitializer, name⟩] else []) ++
      scopes.refer id name
  | assign id name value => value.resolve cls scopes ++ scopes.refer id name
  | call callee _ arguments => callee.resolve cls scopes ++ resolveList cls scopes arguments
  | get object _ => object.resolve cls scopes
  | set object _ value => value.resolve cls scopes ++ object.resolve cls scopes
  | this id keyword =>
    match cls with
    | .none => [.fault ⟨.thisOutsideClass, keyword⟩]
    | _ => scopes.refer id keyword
  | super id keyword _ =>
    (match cls with
    | .none => [.fault ⟨.superOutsideClass, keyword⟩]
    | .base => [.fault ⟨.superWithoutSuperclass, keyword⟩]
    | .subclass => []) ++ scopes.refer id keyword

/-- What is found in several expressions. -/
def resolveList (cls : ClassContext) (scopes : StaticScopes) : List Expr → List Finding
  | [] => []
  | e :: rest => e.resolve cls scopes ++ resolveList cls scopes rest

end

/-- What is found in an expression that may be missing. -/
def resolveOption (cls : ClassContext) (scopes : StaticScopes) : Option Expr → List Finding
  | none => []
  | some e => e.resolve cls scopes

end Expr

namespace Stmt

/-- What is wrong with a `return` because of where it stands. -/
def returnFaults (inside : FunctionContext) (keyword : Token) (value : Option Expr) :
    List Finding :=
  match inside, value with
  | .none, _ => [.fault ⟨.topLevelReturn, keyword⟩]
  | .initializer, some _ => [.fault ⟨.initializerReturnsValue, keyword⟩]
  | _, _ => []

/-- What is found in the superclass of a class: it must not be the class itself. -/
def resolveSuperclass (scopes : StaticScopes) (name : Token) (superclass : Expr) :
    List Finding :=
  (match superclass with
  | .var _ superName =>
    if superName.lexeme = name.lexeme then [.fault ⟨.selfInheritance, superName⟩] else []
  | _ => []) ++ superclass.resolve .subclass scopes

/-- The scopes around the methods of a class: one with `this`, and for a subclass one with `super`
    around it. -/
def methodScopes (scopes : StaticScopes) (superclass : Option Expr) : StaticScopes :=
  match superclass with
  | none => scopes.openWith "this"
  | some _ => (scopes.openWith "super").openWith "this"

/-- What kind of class body a class has. -/
def classContext (superclass : Option Expr) : ClassContext :=
  match superclass with
  | none => .base
  | some _ => .subclass

mutual

/-- What is found in a statement, and the scopes behind it. -/
def resolve (ctx : ResolveContext) (scopes : StaticScopes) : Stmt → Resolved
  | expression value => (scopes, value.resolve ctx.cls scopes)
  | print value => (scopes, value.resolve ctx.cls scopes)
  | varDecl name initializer =>
    let (declared, found) := scopes.declare name
    (declared.define name.lexeme, found ++ Expr.resolveOption ctx.cls declared initializer)
  | block body => (scopes, (resolveList ctx (.empty :: scopes) body).2)
  | cond condition thenBranch none =>
    let found := condition.resolve ctx.cls scopes
    let (scopes, inThen) := thenBranch.resolve ctx scopes
    (scopes, found ++ inThen)
  | cond condition thenBranch (some elseBranch) =>
    let found := condition.resolve ctx.cls scopes
    let (scopes, inThen) := thenBranch.resolve ctx scopes
    let (scopes, inElse) := elseBranch.resolve ctx scopes
    (scopes, found ++ inThen ++ inElse)
  | loop condition body =>
    let found := condition.resolve ctx.cls scopes
    let (scopes, inBody) := body.resolve ctx scopes
    (scopes, found ++ inBody)
  | funDecl ⟨name, params, body⟩ =>
    let (scopes, found) := scopes.introduce [name]
    let inBody := resolveFunction { ctx with function := .function } scopes ⟨name, params, body⟩
    (scopes, found ++ inBody)
  | ret keyword value =>
    (scopes,
      returnFaults ctx.function keyword value ++ Expr.resolveOption ctx.cls scopes value)
  | classDecl ⟨name, superclass, methods⟩ =>
    let (scopes, found) := scopes.introduce [name]
    let inSuperclass :=
      match superclass with
      | none => []
      | some superclass => resolveSuperclass scopes name superclass
    let inMethods :=
      resolveMethods (classContext superclass) (methodScopes scopes superclass) methods
    (scopes, found ++ inSuperclass ++ inMethods)

/-- What is found in several statements, and the scopes behind them. -/
def resolveList (ctx : ResolveContext) (scopes : StaticScopes) : List Stmt → Resolved
  | [] => (scopes, [])
  | s :: rest =>
    let (scopes, found) := s.resolve ctx scopes
    let (scopes, more) := resolveList ctx scopes rest
    (scopes, found ++ more)

/-- What is found in a function: its parameters and its body share one scope. -/
def resolveFunction (ctx : ResolveContext) (scopes : StaticScopes) : FunctionDecl → List Finding
  | ⟨_, params, body⟩ =>
    let (scopes, found) := StaticScopes.introduce (.empty :: scopes) params
    found ++ (resolveList ctx scopes body).2

/-- What is found in the methods of a class. -/
def resolveMethods (cls : ClassContext) (scopes : StaticScopes) :
    List FunctionDecl → List Finding
  | [] => []
  | d :: rest =>
    let kind := if d.name.lexeme = "init" then .initializer else .method
    resolveFunction ⟨kind, cls⟩ scopes d ++ resolveMethods cls scopes rest

end

end Stmt

/-- The result of the walk: the distances of the local references, and the faults. -/
structure Resolution where
  distances : List (NodeId × Nat)
  errors : List ScopeError

namespace Resolution

/-- Resolves the names of a program. -/
def ofProgram (statements : List Stmt) : Resolution :=
  let found := (Stmt.resolveList ⟨.none, .none⟩ [] statements).2
  { distances := found.filterMap fun
      | .distance id d => some (id, d)
      | .fault _ => none
    errors := found.filterMap fun
      | .distance _ _ => none
      | .fault e => some e }

end Resolution

end Lox
