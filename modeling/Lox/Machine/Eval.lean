import Lox.Machine
import Lox.Machine.Operator
import Lox.Syntax.Reference

/-!
# Running programs

Statements run for their effects; a `return` travels outward as a `Flow` to the call around it.
Errors travel as aborts of the action. Every function takes a bound on the nesting of actions; with
a larger bound an action that was not exhausted does the same.

There is one evaluator. It is made of actions that may do more than to act on the machine: they may
note what happens and where. `Run.evaluator` notes nothing, and is what runs programs.
-/

namespace Lox

/-- How a statement ends. -/
inductive Flow where
  | normal
  | returned (v : Value)

namespace Run

/-- The result of an operator, or its fault on the operator's line. -/
def ofOperator (operator : Token) (result : Except RuntimeFault Value) : Run Value :=
  match result with
  | .ok v => return v
  | .error fault => fail operator fault

/-- Gives parameters their values in a scope. -/
def defineParams (scope : ScopeId) : List Token → List Value → Run Unit
  | param :: params, v :: values => do
    define scope param.lexeme v
    defineParams scope params values
  | _, _ => return ()

/-- The instance that an initializer is bound to. -/
def boundThis (c : Closure) : Run Value := do
  match (← get).scopes.binding? c.scope "this" with
  | some (.value this) => return this
  | _ => return .nil

/-- What a call yields whose body ends like this. An initializer always yields its instance. -/
def callResult (c : Closure) (flow : Flow) : Run Value := do
  if c.isInitializer then boundThis c
  else
    match flow with
    | .returned v => return v
    | .normal => return .nil

/-- The class that a value is. Where it is none, the error stands at the name of the superclass, or
    at the name of the class if the superclass is not given by a name. -/
def asSuperclass (name : Token) (superclass : Expr) : Value → Run Class
  | .class_ c => return c
  | _ =>
    match superclass with
    | .var _ superName => fail superName .superclassNotClass
    | _ => fail name .superclassNotClass

end Run

/-! ## Declarations -/

/-- What the declaration of functions and classes is made of. The states `σ` have a machine in them
    and what has been noted, and a place in the program is known by a `Γ`. -/
structure Declaring (σ Γ : Type) where
  machine : σ → Machine
  /-- Does what the action does on the machine. -/
  lift {α : Type} (action : Run α) : Act σ α
  /-- An identity for a function that is declared at this place. -/
  newClosure (place : Γ) : Act σ ObjectId
  /-- The place of the methods of a class with a superclass, in the scope in which `super` is. -/
  inSubclass (place : Γ) (name : Token) (methods : List FunctionDecl) (scope : ScopeId) : Γ

namespace Declaring

variable {σ Γ : Type} (D : Declaring σ Γ)

/-- Looks at the machine. -/
def look {α : Type} (action : Machine → Act σ α) : Act σ α := do
  action (D.machine (← get))

/-- Declares a function in the current scope. -/
def declareFunction (place : Γ) (declaration : FunctionDecl) : Act σ Closure := do
  let id ← D.newClosure place
  D.look fun m => do
    let c : Closure := ⟨id, declaration, m.current, false⟩
    D.lift (Run.defineHere declaration.name.lexeme (.function c))
    return c

/-- The methods of a class as functions inside a scope; of two of one name the later counts. -/
def closeMethods (place : Γ) (scope : ScopeId) :
    List FunctionDecl → Act σ (List (String × Closure))
  | [] => return []
  | d :: rest => do
    let id ← D.newClosure place
    let method : Closure := ⟨id, d, scope, d.name.lexeme = "init"⟩
    return (d.name.lexeme, method) :: (← closeMethods place scope rest)

/-- The scope for the methods of a class. Those of a subclass are inside a scope of their own, in
    which `super` is the superclass. -/
def openMethods : Option Class → Act σ ScopeId
  | none => D.look fun m => return m.current
  | some superclass => D.look fun m => do
    let scope ← D.lift (Run.openScope m.current)
    D.lift (Run.define scope "super" (.class_ superclass))
    return scope

/-- The place of the methods of a class. -/
def methodsPlace (place : Γ) (name : Token) (superclass : Option Class)
    (methods : List FunctionDecl) (scope : ScopeId) : Γ :=
  match superclass with
  | none => place
  | some _ => D.inSubclass place name methods scope

/-- Declares a class in the current scope. Besides the class it yields the scope of its methods. -/
def declareClass (place : Γ) (name : Token) (superclass : Option Class)
    (methods : List FunctionDecl) : Act σ (ScopeId × Class) := do
  D.lift (Run.declareHere name.lexeme)
  let scope ← D.openMethods superclass
  let closures ← D.closeMethods (D.methodsPlace place name superclass methods scope) scope methods
  let c : Class := ⟨← D.lift Run.freshObject, name.lexeme, superclass, .ofList closures⟩
  D.lift (Run.defineHere name.lexeme (.class_ c))
  return (scope, c)

end Declaring

/-! ## The evaluator -/

/-- What an evaluator is made of. Its states `σ` have a machine in them and what has been noted; a
    place in the program is known by a `Γ`, and the call expression that a call comes from by a
    `Site`. An action that is about something in the program is given what is done there. -/
structure Evaluator (σ Γ Site : Type) where
  machine : σ → Machine
  /-- Does what the action does on the machine. -/
  lift {α : Type} (action : Run α) : Act σ α
  /-- Acts in another scope and comes back from it. -/
  inScope {α : Type} (scope : ScopeId) (action : Act σ α) : Act σ α
  /-- Acts during a call on this line. -/
  duringCall {α : Type} (line : Nat) (action : Act σ α) : Act σ α
  /-- Looks up the name of a reference. -/
  naming {α : Type} (place : Γ) (reference : Reference) (action : Act σ α) : Act σ α :=
    action
  /-- A method as a function of its own, inside a scope in which `this` is the instance. -/
  bindMethod (method : Closure) (this : Value) : Act σ Closure :=
    lift (Run.bindMethod method this)
  /-- An instance without fields. -/
  newInstance (cls : Class) : Act σ Value :=
    lift (Run.newInstance cls)
  /-- Sets a field of an instance. -/
  setField (id : InstanceId) (name : String) (v : Value) : Act σ Unit :=
    lift (Run.setField id name v)
  /-- Gives parameters their values in a scope. -/
  defineParams (scope : ScopeId) (params : List Token) (values : List Value) : Act σ Unit :=
    lift (Run.defineParams scope params values)
  /-- Declares a function in the current scope. -/
  declareFunction (place : Γ) (declaration : FunctionDecl) : Act σ Closure
  /-- Declares a class in the current scope. -/
  declareClass (place : Γ) (name : Token) (superclass : Option Class)
    (methods : List FunctionDecl) : Act σ (ScopeId × Class)
  /-- Evaluates a call expression of which the callee and the arguments have their values. -/
  calling (place : Γ) (call : Expr) (action : Site → Act σ Value) : Act σ Value
  /-- Calls a host function or a class. -/
  answering (callee : Value) (arguments : List Value) (action : Act σ Value) : Act σ Value :=
    action
  /-- Calls a function, in a new scope inside the one in which it was declared. -/
  entering (site : Site) (c : Closure) (arguments : List Value)
    (action : ScopeId → Γ → Act σ Value) : Act σ Value
  /-- Executes a block, in a new scope inside the current one. -/
  inBlock (place : Γ) (body : List Stmt) (action : Γ → Act σ Flow) : Act σ Flow
  /-- Executes a statement. -/
  executing (place : Γ) (s : Stmt) (action : Act σ Flow) : Act σ Flow :=
    action
  /-- Does a round of a loop and those behind it. -/
  looping (place : Γ) (action : Act σ Flow) : Act σ Flow :=
    action
  /-- Returns from a function. -/
  returning (place : Γ) (v : Value) : Act σ Flow :=
    return .returned v

/-- Evaluates expressions from left to right. -/
def evaluateAll {σ : Type} (evaluate : Expr → Act σ Value) : List Expr → Act σ (List Value)
  | [] => return []
  | e :: rest => do
    let v ← evaluate e
    return v :: (← evaluateAll evaluate rest)

/-- Executes statements up to one that returns. -/
def executeAll {σ : Type} (execute : Stmt → Act σ Flow) : List Stmt → Act σ Flow
  | [] => return .normal
  | s :: rest => do
    match ← execute s with
    | .normal => executeAll execute rest
    | .returned v => return .returned v

namespace Evaluator

variable {σ Γ Site : Type} (E : Evaluator σ Γ Site)

/-- Looks at the machine. -/
def look {α : Type} (action : Machine → Act σ α) : Act σ α := do
  action (E.machine (← get))

/-- A property of an instance: a field, or else a method bound to the instance. -/
def readProperty (id : InstanceId) (cls : Class) (name : Token) : Act σ Value := E.look fun m =>
  match (m.fields.getD id.index .empty).get? name.lexeme with
  | some v => return v
  | none =>
    match cls.findMethod? name.lexeme with
    | some method => do return .function (← E.bindMethod method (.instance_ id cls))
    | none => E.lift (Run.fail name (.undefinedProperty name.lexeme))

/-- A method of the superclass, bound to the `this` in the scope just inside the one with
    `super`. -/
def readSuper (id : NodeId) (keyword method : Token) : Act σ Value := E.look fun m =>
  match m.distances.get? id with
  | none => E.lift (Run.fail keyword .superUnavailable)
  | some d =>
    match m.scopes.getAt? m.current d "super" with
    | some (.value (.class_ superclass)) =>
      match d with
      | 0 => E.lift (Run.fail keyword .superUnavailable)
      | inner + 1 =>
        match m.scopes.getAt? m.current inner "this" with
        | some (.value this) =>
          match superclass.findMethod? method.lexeme with
          | some found => do return .function (← E.bindMethod found this)
          | none => E.lift (Run.fail method (.undefinedProperty method.lexeme))
        | _ => E.lift (Run.fail keyword .superUnavailable)
    | _ => E.lift (Run.fail keyword .superclassNotClass)

mutual

/-- The value of an expression. -/
def evaluate (place : Γ) : (bound : Nat) → Expr → Act σ Value
  | 0, _ => throw .exhausted
  | _ + 1, .literal value => return .ofLiteral value
  | n + 1, .grouping inner => evaluate place n inner
  | n + 1, .unary operator operand => do
    let v ← evaluate place n operand
    E.lift (Run.ofOperator operator (applyUnary operator.kind v))
  | n + 1, .binary operator left right => do
    let a ← evaluate place n left
    let b ← evaluate place n right
    E.lift (Run.ofOperator operator (applyBinary operator.kind a b))
  | n + 1, .logical operator left right => do
    let a ← evaluate place n left
    if decidedByLeft operator.kind a then return a else evaluate place n right
  | _ + 1, .var id name => E.naming place ⟨.var, id, name⟩ (E.lift (Run.readVariable id name))
  | n + 1, .assign id name value => do
    let v ← evaluate place n value
    E.naming place ⟨.assign, id, name⟩ (E.lift (Run.writeVariable id name v))
    return v
  | n + 1, .call callee paren arguments => do
    let value ← evaluate place n callee
    let values ← evaluateAll (evaluate place n) arguments
    -- the arguments are evaluated first, even if there is nothing to call
    match value.arity? with
    | none => E.lift (Run.fail paren .notCallable)
    | some arity =>
      if values.length = arity then
        E.calling place (.call callee paren arguments) fun site =>
          E.duringCall paren.line (callValue site n value values)
      else E.lift (Run.fail paren (.wrongArity arity values.length))
  | n + 1, .get object name => do
    match ← evaluate place n object with
    | .instance_ id cls => E.readProperty id cls name
    | _ => E.lift (Run.fail name .noProperties)
  | n + 1, .set object name value => do
    match ← evaluate place n object with
    | .instance_ id _ =>
      -- the value only matters, and only has effects, if there are fields to set
      let v ← evaluate place n value
      E.setField id name.lexeme v
      return v
    | _ => E.lift (Run.fail name .noFields)
  | _ + 1, .this id keyword =>
    E.naming place ⟨.this, id, keyword⟩ (E.lift (Run.readVariable id keyword))
  | _ + 1, .super id keyword method =>
    E.naming place ⟨.super, id, keyword⟩ (E.readSuper id keyword method)

/-- Calls a value that can be called, with as many arguments as it takes. -/
def callValue (site : Site) : (bound : Nat) → Value → List Value → Act σ Value
  | 0, _, _ => throw .exhausted
  | _ + 1, .native info, values =>
    E.answering (.native info) values (E.lift (Run.callNative info values))
  | n + 1, .function c, values => callClosure site n c values
  | n + 1, .class_ c, values => E.answering (.class_ c) values do
    let this ← E.newInstance c
    match c.findMethod? "init" with
    | none => return this
    | some initializer =>
      let bound ← E.bindMethod initializer this
      let _ ← callClosure site n bound values
      return this
  -- other values take no call: `Value.arity?` tells before
  | _ + 1, _, _ => return .nil

/-- Calls a function: its parameters and its body share a scope inside the one in which it was
    declared. -/
def callClosure (site : Site) : (bound : Nat) → Closure → List Value → Act σ Value
  | 0, _, _ => throw .exhausted
  | n + 1, c, values => E.entering site c values fun scope place => do
    E.defineParams scope c.declaration.params values
    let flow ← E.inScope scope (executeAll (execute place n) c.declaration.body)
    E.lift (Run.callResult c flow)

/-- Executes a statement. -/
def execute (place : Γ) : (bound : Nat) → Stmt → Act σ Flow
  | 0, _ => throw .exhausted
  | n + 1, s => E.executing place s <|
    match s with
    | .expression value => do
      let _ ← evaluate place n value
      return .normal
    | .print value => do
      let v ← evaluate place n value
      E.lift (Run.emit v.text)
      return .normal
    | .varDecl name none => do
      E.lift (Run.declareHere name.lexeme)
      return .normal
    | .varDecl name (some initializer) => do
      let v ← evaluate place n initializer
      E.lift (Run.defineHere name.lexeme v)
      return .normal
    | .block body => E.inBlock place body fun place => executeAll (execute place n) body
    | .cond condition thenBranch elseBranch => do
      let v ← evaluate place n condition
      if v.isTruthy then execute place n thenBranch
      else
        match elseBranch with
        | some elseBranch => execute place n elseBranch
        | none => return .normal
    | .loop condition body => repeatWhile place n condition body
    | .funDecl declaration => do
      let _ ← E.declareFunction place declaration
      return .normal
    | .ret _ none => E.returning place .nil
    | .ret _ (some value) => do
      let v ← evaluate place n value
      E.returning place v
    | .classDecl ⟨name, none, methods⟩ => do
      let _ ← E.declareClass place name none methods
      return .normal
    | .classDecl ⟨name, some superclass, methods⟩ => do
      let v ← evaluate place n superclass
      let c ← E.lift (Run.asSuperclass name superclass v)
      let _ ← E.declareClass place name (some c) methods
      return .normal

/-- Executes a statement again and again, as long as the condition holds before. -/
def repeatWhile (place : Γ) : (bound : Nat) → Expr → Stmt → Act σ Flow
  | 0, _, _ => throw .exhausted
  | n + 1, condition, body => E.looping place do
    let v ← evaluate place n condition
    if v.isTruthy then
      match ← execute place n body with
      | .normal => repeatWhile place n condition body
      | .returned v => return .returned v
    else
      return .normal

end

/-- Executes a whole program and flushes its output. A `return` outside of functions only ends the
    statement that it is in. -/
def program (place : Γ) (bound : Nat) : List Stmt → Act σ Unit
  | [] => E.lift Run.flush
  | s :: rest => do
    let _ ← E.execute place bound s
    program place bound rest

end Evaluator

/-! ## Running -/

namespace Run

/-- Declarations, of which nothing is noted. -/
@[reducible]
def declaring : Declaring Machine Unit where
  machine m := m
  lift action := action
  newClosure _ := freshObject
  inSubclass _ _ _ _ := ()

/-- The evaluator that notes nothing. -/
@[reducible]
def evaluator : Evaluator Machine Unit Unit where
  machine m := m
  lift action := action
  inScope := inScope
  duringCall := duringCall
  declareFunction := declaring.declareFunction
  declareClass := declaring.declareClass
  calling _ _ action := action ()
  entering _ c _ action := do
    let scope ← openScope c.scope
    action scope ()
  inBlock _ _ action := do
    let scope ← openScope (← get).current
    inScope scope (action ())

/-- The methods of a class as functions inside a scope. -/
abbrev closeMethods (scope : ScopeId) (methods : List FunctionDecl) :
    Run (List (String × Closure)) :=
  declaring.closeMethods () scope methods

/-- The scope for the methods of a class. -/
abbrev openMethods (superclass : Option Class) : Run ScopeId :=
  declaring.openMethods superclass

/-- Declares a function in the current scope. -/
abbrev declareFunction (declaration : FunctionDecl) : Run Closure :=
  declaring.declareFunction () declaration

/-- Declares a class in the current scope. -/
abbrev declareClass (name : Token) (superclass : Option Class) (methods : List FunctionDecl) :
    Run (ScopeId × Class) :=
  declaring.declareClass () name superclass methods

/-- A property of an instance. -/
abbrev readProperty (id : InstanceId) (cls : Class) (name : Token) : Run Value :=
  evaluator.readProperty id cls name

/-- A method of the superclass, bound to `this`. -/
abbrev readSuper (id : NodeId) (keyword method : Token) : Run Value :=
  evaluator.readSuper id keyword method

/-- The value of an expression. -/
abbrev evaluate (bound : Nat) (e : Expr) : Run Value :=
  evaluator.evaluate () bound e

/-- Calls a value that can be called, with as many arguments as it takes. -/
abbrev callValue (bound : Nat) (callee : Value) (values : List Value) : Run Value :=
  evaluator.callValue () bound callee values

/-- Calls a function. -/
abbrev callClosure (bound : Nat) (c : Closure) (values : List Value) : Run Value :=
  evaluator.callClosure () bound c values

/-- Executes a statement. -/
abbrev execute (bound : Nat) (s : Stmt) : Run Flow :=
  evaluator.execute () bound s

/-- Executes a statement as long as a condition holds. -/
abbrev repeatWhile (bound : Nat) (condition : Expr) (body : Stmt) : Run Flow :=
  evaluator.repeatWhile () bound condition body

/-- Executes a whole program and flushes its output. -/
abbrev program (bound : Nat) (statements : List Stmt) : Run Unit :=
  evaluator.program () bound statements

end Run

end Lox
