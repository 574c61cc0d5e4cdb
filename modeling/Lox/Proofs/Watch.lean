import Lox.Proofs.Evaluators
import Lox.Proofs.Uses

/-!
# Watching a run

A watched run does what the run does, and besides keeps track of which local scopes have been opened
around the place in the program where it is: a block adds its scope to those around it, a call adds
the scope of the function to those that were around the declaration of the function when it was
executed. None of this looks at the links between the scopes of the machine. Whenever the name of a
referring node is looked up, a watched run notes the node, these scopes and the machine.

## Key results

- `Watched.program_erases`: watching changes nothing about a run
-/

namespace Lox

/-- A local scope that has been opened for a part of a program. -/
structure Activation where
  opener : Opener
  scope : ScopeId

/-- The moment at which the name of a referring node is looked up. -/
structure Sighting where
  reference : Reference
  /-- The local scopes opened around the place of the node, innermost first. -/
  activations : List Activation
  machine : Machine

/-- A machine and what has been watched on it. -/
structure Watch where
  machine : Machine
  /-- The local scopes around the declaration of each function, when it was executed. For a method
      that is bound to an instance, the one of the instance and those around the declaration. -/
  captured : ObjectId → List Activation
  /-- All lookups of names so far, the last one first. -/
  sightings : List Sighting

namespace Watch

variable (w : Watch)

/-- In another scope. -/
def at_ (e : ScopeId) : Watch :=
  { w with machine := { w.machine with current := e } }

/-- During a call on this line. -/
def onLine (line : Nat) : Watch :=
  { w with machine := { w.machine with callLine := line } }

/-- With another machine. -/
def withMachine (m : Machine) : Watch :=
  { w with machine := m }

end Watch

/-- Actions that are watched. -/
abbrev Watched :=
  Act Watch

namespace Watched

variable {α β : Type}

/-- An action on the machine at which there is nothing to watch. -/
def lift (action : Run α) : Watched α :=
  action.onPart Watch.machine Watch.withMachine

/-- A sequence is watched step by step. -/
theorem lift_bind (action : Run α) (f : α → Run β) :
    lift (action >>= f) = lift action >>= fun a => lift (f a) := by
  funext w
  show lift (EStateM.bind action f) w = EStateM.bind (lift action) (fun a => lift (f a)) w
  unfold lift Act.onPart EStateM.bind
  dsimp only
  cases action w.machine <;> rfl

/-- Notes that a name is looked up. -/
def see (reference : Reference) (acts : List Activation) : Watched Unit :=
  modify fun w => { w with sightings := ⟨reference, acts, w.machine⟩ :: w.sightings }

/-- Notes the scopes around the declaration of a function. -/
def capture (id : ObjectId) (acts : List Activation) : Watched Unit :=
  modify fun w => { w with captured := fun other => if other = id then acts else w.captured other }

/-- Acts in another scope and comes back from it. -/
def inScope (scope : ScopeId) (action : Watched α) : Watched α :=
  action.within (·.at_ scope) fun w w' => w'.at_ w.machine.current

/-- Acts during a call on this line. -/
def duringCall (line : Nat) (action : Watched α) : Watched α :=
  action.within (·.onLine line) fun w w' => w'.onLine w.machine.callLine

/-- Binds a method to an instance. -/
def bindMethod (method : Closure) (this : Value) : Watched Closure := do
  let acts := (← get).captured method.id
  let bound ← lift (Run.bindMethod method this)
  capture bound.id (⟨.this method.declaration, bound.scope⟩ :: acts)
  return bound

/-- Declarations, of which the scopes around the functions are noted. -/
@[reducible]
def declaring : Declaring Watch (List Activation) where
  machine := Watch.machine
  lift := lift
  newClosure acts := do
    let id ← lift Run.freshObject
    capture id acts
    return id
  inSubclass acts name methods scope := ⟨.super name methods, scope⟩ :: acts

/-- The evaluator that watches. A place is known by the local scopes that have been opened around
    it. -/
@[reducible]
def evaluator : Evaluator Watch (List Activation) Unit where
  machine := Watch.machine
  lift := lift
  inScope := inScope
  duringCall := duringCall
  naming acts reference action := do
    see reference acts
    action
  bindMethod := bindMethod
  declareFunction := declaring.declareFunction
  declareClass := declaring.declareClass
  calling _ _ action := action ()
  entering _ c _ action := do
    let acts := (← get).captured c.id
    let scope ← lift (Run.openScope c.scope)
    action scope (⟨.function c.declaration, scope⟩ :: acts)
  inBlock acts body action := do
    let scope ← lift (Run.openScope (← get).machine.current)
    inScope scope (action (⟨.block body, scope⟩ :: acts))

/-- The methods of a class as functions inside a scope. -/
abbrev closeMethods (acts : List Activation) (scope : ScopeId) (methods : List FunctionDecl) :
    Watched (List (String × Closure)) :=
  declaring.closeMethods acts scope methods

/-- Opens the scope for the methods of a class, if it has a superclass. -/
abbrev openMethods (superclass : Option Class) : Watched ScopeId :=
  declaring.openMethods superclass

/-- Declares a function in the current scope. -/
abbrev declareFunction (acts : List Activation) (declaration : FunctionDecl) : Watched Closure :=
  declaring.declareFunction acts declaration

/-- Declares a class in the current scope. -/
abbrev declareClass (acts : List Activation) (name : Token) (superclass : Option Class)
    (methods : List FunctionDecl) : Watched (ScopeId × Class) :=
  declaring.declareClass acts name superclass methods

/-- A property of an instance. -/
abbrev readProperty (id : InstanceId) (cls : Class) (name : Token) : Watched Value :=
  evaluator.readProperty id cls name

/-- A method of the superclass, bound to the instance. -/
abbrev readSuper (id : NodeId) (keyword method : Token) : Watched Value :=
  evaluator.readSuper id keyword method

/-- The value of an expression with these local scopes around it. -/
abbrev evaluate (acts : List Activation) (bound : Nat) (e : Expr) : Watched Value :=
  evaluator.evaluate acts bound e

/-- Calls a value that can be called. -/
abbrev callValue (bound : Nat) (callee : Value) (values : List Value) : Watched Value :=
  evaluator.callValue () bound callee values

/-- Calls a function, inside the scopes that were around its declaration. -/
abbrev callClosure (bound : Nat) (c : Closure) (values : List Value) : Watched Value :=
  evaluator.callClosure () bound c values

/-- Executes a statement with these local scopes around it. -/
abbrev execute (acts : List Activation) (bound : Nat) (s : Stmt) : Watched Flow :=
  evaluator.execute acts bound s

/-- Executes a statement as long as a condition holds. -/
abbrev repeatWhile (acts : List Activation) (bound : Nat) (condition : Expr) (body : Stmt) :
    Watched Flow :=
  evaluator.repeatWhile acts bound condition body

/-- Executes a whole program, outside of local scopes. -/
abbrev program (bound : Nat) (statements : List Stmt) : Watched Unit :=
  evaluator.program [] bound statements

/-! ## Watching changes nothing -/

/-- A watched action does on the machine what the other action does. -/
abbrev Erases (p : Watched α) (q : Run α) : Prop :=
  Act.Erases Watch.machine p q

namespace Erases

/-- Watching an action of the machine alone does the same. -/
theorem lift (action : Run α) : Erases (lift action) action :=
  .onPart (fun _ _ => rfl) action

/-- Nothing is done to the machine behind an action. -/
theorem of_note {p : Watched α} {q : Run α} {note : α → Watched Unit} (h : Erases p q)
    (hnote : ∀ a, Erases (note a) (pure ())) : Erases (do let a ← p; note a; return a) q := by
  have hbind : Erases (do let a ← p; note a; return a) (q >>= pure) :=
    h.bind fun a => (hnote a).bind fun _ => .pure a
  rwa [bind_pure] at hbind

/-- To note where a closure was made does nothing to the machine. -/
theorem capture (id : ObjectId) (acts : List Activation) :
    Erases (capture id acts) (pure ()) :=
  fun _ => rfl

/-- Watching how a method is bound does the same. -/
theorem bindMethod (method : Closure) (this : Value) :
    Erases (bindMethod method this) (Run.bindMethod method this) := fun w =>
  of_note (lift (Run.bindMethod method this))
    (fun bound => capture bound.id (⟨.this method.declaration, bound.scope⟩ :: w.captured method.id)) w

/-- Entering a scope is the same whether it is watched or not. -/
theorem inScope (scope : ScopeId) {p : Watched α} {q : Run α} (h : Erases p q) :
    Erases (inScope scope p) (Run.inScope scope q) :=
  h.within (fun _ => rfl) fun _ _ => rfl

/-- Noting a line for calls is the same whether it is watched or not. -/
theorem duringCall (line : Nat) {p : Watched α} {q : Run α} (h : Erases p q) :
    Erases (duringCall line p) (Run.duringCall line q) :=
  h.within (fun _ => rfl) fun _ _ => rfl

/-- Looking at the machine. -/
theorem look {f : Machine → Watched α} {g : Machine → Run α} (h : ∀ m, Erases (f m) (g m)) :
    Erases (evaluator.look f) (Run.evaluator.look g) :=
  .get fun w => h w.machine

/-- Watched declarations do what declarations do. -/
theorem declaring :
    Watched.declaring.Compositional Run.declaring (fun _ => ()) fun _ => Erases where
  congruent := Act.Erases.congruent Watch.machine
  quiet _ := lift _
  look h _ := look h
  newClosure acts := of_note (lift Run.freshObject) fun id => capture id acts
  inSubclass _ _ _ _ := rfl

/-- The parts of the evaluator that watches do what those of the other one do. -/
theorem evaluator :
    Watched.evaluator.Compositional Run.evaluator (fun _ => ()) id fun _ => Erases where
  congruent := Act.Erases.congruent Watch.machine
  quiet _ := lift _
  emit _ := lift _
  flush := lift _
  look h _ := look h
  inScope scope h := inScope scope h
  duringCall line h := duringCall line h
  naming _ _ h := h.after fun _ => rfl
  bindMethod := bindMethod
  newInstance cls := lift (Run.newInstance cls)
  setField id name v := lift (Run.setField id name v)
  defineParams scope params values := lift (Run.defineParams scope params values)
  declareFunction := declaring.declareFunction
  declareClass := declaring.declareClass
  calling _ _ h := h ()
  answering _ _ h := h
  -- notes on activations are not read by the machine, so they are erased with the rest
  entering _ c _ h := fun _ => (lift (Run.openScope c.scope)).bind (fun scope => h scope _) _
  inBlock _ _ h := .get fun _ => (lift _).bind fun scope => inScope scope (h _)
  executing _ _ h := h
  looping _ h := h
  returning _ _ := .pure _

end Erases

/-- Watching a program changes nothing about its run. -/
theorem program_erases (bound : Nat) (statements : List Stmt) :
    Erases (program bound statements) (Run.program bound statements) :=
  Erases.evaluator.program [] bound statements

end Watched

end Lox
