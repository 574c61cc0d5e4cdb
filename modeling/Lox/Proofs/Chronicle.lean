import Lox.Proofs.LegalSteps

/-!
# Chronicles of runs

A chronicle is kept beside a watched run: each action on the machine adds an entry that says what
has happened and how the machine was left. Of the calls, of the classes, methods and instances that
come about and of the fields that are set, the entries say all that the program can observe; all
other actions are mere steps.

## Key results

- `Logged.program_erases`: keeping a chronicle changes nothing about a run
-/

namespace Lox

/-- The declaration of a class, when it has been executed. -/
structure Declared where
  name : Token
  /-- The value of the superclass, if there is one. -/
  superclass : Option Class
  methods : List FunctionDecl
  /-- The local scopes around the declaration, innermost first. -/
  acts : List Activation
  /-- The scope in which the methods are closed. -/
  scope : ScopeId
  /-- The class that came about. -/
  cls : Class

namespace Declared

/-- The local scopes around the methods. -/
def around (d : Declared) : List Activation :=
  match d.superclass with
  | none => d.acts
  | some _ => ⟨.super d.name d.methods, d.scope⟩ :: d.acts

/-- Around the methods of a class with a superclass there is the scope of `super`. -/
theorem around_of_superclass {d : Declared} (h : d.superclass ≠ none) :
    d.around = ⟨.super d.name d.methods, d.scope⟩ :: d.acts := by
  unfold around
  split
  · rename_i hnone
    exact absurd hnone h
  · rfl

/-- The method of a name in the body of the class. The last of several counts. -/
def method? (d : Declared) (name : String) : Option FunctionDecl :=
  d.methods.reverse.find? fun method => method.name.lexeme = name

end Declared

/-- What happens in a run. -/
inductive Happening where
  /-- A value is called. -/
  | calls (callee : Value) (arguments : List Value)
  /-- A call ends that began when there were so many entries. -/
  | answers (callee : Value) (arguments : List Value) (result : Value) (since : Nat)
  /-- A scope is opened for the body of a function that is called. -/
  | enters (c : Closure) (scope : ScopeId) (acts : List Activation)
  /-- An instance is made. -/
  | makes (this : Value)
  /-- A method is bound to an instance. -/
  | binds (method : Closure) (this : Value) (bound : Closure)
  /-- A function is declared inside these local scopes. -/
  | closes (c : Closure) (acts : List Activation)
  /-- A class is declared. -/
  | declares (d : Declared)
  /-- A field of an instance is set. -/
  | sets (id : InstanceId) (name : String) (v : Value)
  /-- The name of a referring node is about to be looked up. -/
  | sees (reference : Reference) (acts : List Activation)
  /-- Anything else. -/
  | step

/-- An event, and the machine behind it. -/
structure Entry where
  event : Happening
  watch : Watch

/-- Is this the lookup of a name by a node of this kind? -/
def Entry.looksUp (kind : ReferenceKind) (x : Entry) : Bool :=
  match x.event with
  | .sees reference _ => reference.kind = kind
  | _ => false

/-- An entry that looks up a name is a sighting of it. -/
theorem Entry.event_of_looksUp {kind : ReferenceKind} {x : Entry} (h : x.looksUp kind = true) :
    ∃ id name acts, x.event = .sees ⟨kind, id, name⟩ acts := by
  obtain ⟨event, _⟩ := x
  cases event with
  | sees reference acts =>
    obtain ⟨_, id, name⟩ := reference
    obtain rfl := of_decide_eq_true h
    exact ⟨id, name, acts, rfl⟩
  | _ => cases h

/-- A watched run and all that has happened in it, the last entry first. -/
structure Chronicle where
  watch : Watch
  entries : List Entry

/-- Actions of which a chronicle is kept. -/
abbrev Logged :=
  Act Chronicle

namespace Logged

variable {α β : Type}

/-- An action of which it is told what it has done. Where it is aborted there is nothing to tell. -/
def record (event : α → Happening) (action : Watched α) : Logged α := fun c =>
  match action c.watch with
  | .ok a w => .ok a ⟨w, ⟨event a, w⟩ :: c.entries⟩
  | .error e w => .error e ⟨w, ⟨.step, w⟩ :: c.entries⟩

/-- An action on the machine that is a mere step. -/
def lift (action : Run α) : Logged α :=
  record (fun _ => .step) (Watched.lift action)

/-- Tells what happens while nothing is done. -/
def note (event : Happening) : Logged Unit :=
  record (fun _ => event) (pure ())

/-- Tells that a name is about to be looked up. -/
def see (reference : Reference) (acts : List Activation) : Logged Unit :=
  record (fun _ => .sees reference acts) (Watched.see reference acts)

/-- Tells of a call from its beginning to its end. -/
def call (callee : Value) (arguments : List Value) (body : Logged Value) : Logged Value := do
  let since := (← get).entries.length
  note (.calls callee arguments)
  let result ← body
  note (.answers callee arguments result since)
  return result

/-- Acts in another scope and comes back from it. -/
def inScope (scope : ScopeId) (action : Logged α) : Logged α :=
  action.within (fun c => { c with watch := c.watch.at_ scope })
    fun before after => { after with watch := after.watch.at_ before.watch.machine.current }

/-- Acts during a call on this line. -/
def duringCall (line : Nat) (action : Logged α) : Logged α :=
  action.within (fun c => { c with watch := c.watch.onLine line })
    fun before after => { after with watch := after.watch.onLine before.watch.machine.callLine }

/-- Binds a method to an instance. -/
def bindMethod (method : Closure) (this : Value) : Logged Closure :=
  record (fun bound => .binds method this bound) (Watched.bindMethod method this)

/-- The evaluator that keeps a chronicle. The declaration of a function or of a class is told as a
    whole. -/
@[reducible]
def evaluator : Evaluator Chronicle (List Activation) Unit where
  machine c := c.watch.machine
  lift := lift
  inScope := inScope
  duringCall := duringCall
  naming acts reference action := do
    see reference acts
    action
  bindMethod := bindMethod
  newInstance cls := record .makes (Watched.lift (Run.newInstance cls))
  setField id name v := record (fun _ => .sets id name v) (Watched.lift (Run.setField id name v))
  declareFunction acts declaration :=
    record (.closes · acts) (Watched.declareFunction acts declaration)
  declareClass acts name superclass methods :=
    record (fun d => .declares ⟨name, superclass, methods, acts, d.1, d.2⟩)
      (Watched.declareClass acts name superclass methods)
  calling _ _ action := action ()
  answering := call
  entering _ c values action := call (.function c) values do
    let acts := (← get).watch.captured c.id
    let scope ← record (.enters c · acts) (Watched.lift (Run.openScope c.scope))
    action scope (⟨.function c.declaration, scope⟩ :: acts)
  inBlock acts body action := do
    let scope ← lift (Run.openScope (← get).watch.machine.current)
    inScope scope (action (⟨.block body, scope⟩ :: acts))

/-- A property of an instance. -/
abbrev readProperty (id : InstanceId) (cls : Class) (name : Token) : Logged Value :=
  evaluator.readProperty id cls name

/-- A method of the superclass, bound to the instance. -/
abbrev readSuper (id : NodeId) (keyword method : Token) : Logged Value :=
  evaluator.readSuper id keyword method

/-- The value of an expression with these local scopes around it. -/
abbrev evaluate (acts : List Activation) (bound : Nat) (e : Expr) : Logged Value :=
  evaluator.evaluate acts bound e

/-- Calls a value that can be called. The call of a class goes on to its initializer. -/
abbrev callValue (bound : Nat) (callee : Value) (values : List Value) : Logged Value :=
  evaluator.callValue () bound callee values

/-- Calls a function, inside the scopes that were around its declaration. -/
abbrev callClosure (bound : Nat) (c : Closure) (values : List Value) : Logged Value :=
  evaluator.callClosure () bound c values

/-- Executes a statement with these local scopes around it. -/
abbrev execute (acts : List Activation) (bound : Nat) (s : Stmt) : Logged Flow :=
  evaluator.execute acts bound s

/-- Executes a statement again and again, as long as the condition holds before. -/
abbrev repeatWhile (acts : List Activation) (bound : Nat) (condition : Expr) (body : Stmt) :
    Logged Flow :=
  evaluator.repeatWhile acts bound condition body

/-- Executes a whole program, outside of local scopes. -/
abbrev program (bound : Nat) (statements : List Stmt) : Logged Unit :=
  evaluator.program [] bound statements

/-! ## A chronicle changes nothing -/

/-- An action of which a chronicle is kept does what the watched action does. -/
abbrev Erases (p : Logged α) (q : Watched α) : Prop :=
  Act.Erases Chronicle.watch p q

namespace Erases

/-- To record an event does the same. -/
theorem record (event : α → Happening) (action : Watched α) : Erases (record event action) action := by
  intro c
  unfold Logged.record
  cases action c.watch <;> rfl

/-- An action of the machine alone does the same. -/
theorem lift (action : Run α) : Erases (lift action) (Watched.lift action) :=
  .record _ _

/-- Telling of a call leaves it as it is. -/
theorem call (callee : Value) (arguments : List Value) {p : Logged Value} {q : Watched Value}
    (h : Erases p q) : Erases (call callee arguments p) q := by
  intro c
  have hp := h ⟨c.watch, ⟨.calls callee arguments, c.watch⟩ :: c.entries⟩
  show Act.forget Chronicle.watch (EStateM.bind p _ _) = _
  unfold EStateM.bind
  rw [← hp]
  dsimp only
  cases p _ <;> rfl

/-- Entering a scope is the same whether events are recorded or not. -/
theorem inScope (scope : ScopeId) {p : Logged α} {q : Watched α} (h : Erases p q) :
    Erases (inScope scope p) (Watched.inScope scope q) :=
  h.within (fun _ => rfl) fun _ _ => rfl

/-- Noting a line for calls is the same whether events are recorded or not. -/
theorem duringCall (line : Nat) {p : Logged α} {q : Watched α} (h : Erases p q) :
    Erases (duringCall line p) (Watched.duringCall line q) :=
  h.within (fun _ => rfl) fun _ _ => rfl

/-- The parts of the evaluator that keeps a chronicle do what those of the one that watches do. -/
theorem evaluator : Logged.evaluator.Compositional Watched.evaluator id id fun _ => Erases where
  congruent := Act.Erases.congruent Chronicle.watch
  quiet _ := lift _
  emit _ := lift _
  flush := lift _
  look h _ := .get fun c => h c.watch.machine
  inScope scope h := inScope scope h
  duringCall line h := duringCall line h
  -- a reference is noted before it is looked up, and the note does nothing to the machine
  naming acts reference h := .bind (record _ (Watched.see reference acts)) fun _ => h
  bindMethod method this := record _ (Watched.bindMethod method this)
  newInstance cls := record .makes (Watched.lift (Run.newInstance cls))
  setField id name v := record (fun _ => .sets id name v) (Watched.lift (Run.setField id name v))
  defineParams scope params values := lift (Run.defineParams scope params values)
  declareFunction acts declaration :=
    record (.closes · acts) (Watched.declareFunction acts declaration)
  declareClass acts name superclass methods :=
    record _ (Watched.declareClass acts name superclass methods)
  calling _ _ h := h ()
  answering callee values h := call callee values h
  -- a call of a function is noted first, and its scope once it is open
  entering _ c values h := call (.function c) values <| .get fun _ =>
    .bind (record _ (Watched.lift (Run.openScope c.scope))) fun scope => h scope _
  inBlock _ _ h := .get fun c =>
    .bind (lift (Run.openScope c.watch.machine.current)) fun scope => inScope scope (h _)
  executing _ _ h := h
  looping _ h := h
  returning _ v := .pure (Flow.returned v)

end Erases

/-- The chronicle of a program changes nothing about its watched run, and so nothing about its
    run. -/
theorem program_erases (bound : Nat) (statements : List Stmt) :
    Erases (program bound statements) (Watched.program bound statements) :=
  Erases.evaluator.program [] bound statements

end Logged

end Lox
