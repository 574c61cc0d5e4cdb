import Lox.Proofs.Evaluators

/-!
# Tracing a run

A traced run does what the run does, and besides keeps every machine that it passes through: each
time a scope is opened, a name is bound, a field is set, an identity is given, something is written,
or another scope or call is entered or left.

## Key results

- `Traced.Compositional.program`: what holds of single steps and is kept when actions are put
  together holds between programs and traced programs
- `Traced.program_erases`: tracing changes nothing about a run
-/

namespace Lox

/-- A machine and those before it, the last one first. -/
structure Trace where
  machine : Machine
  past : List Machine

namespace Trace

/-- Goes on to another machine. -/
def goOn (t : Trace) (m : Machine) : Trace :=
  ⟨m, t.machine :: t.past⟩

/-- All machines that have been passed through, in order. -/
def machines (t : Trace) : List Machine :=
  (t.machine :: t.past).reverse

end Trace

/-- Actions that are traced. -/
abbrev Traced :=
  Act Trace

namespace Traced

variable {α β : Type}

/-- An action of one step. -/
def lift (action : Run α) : Traced α :=
  action.onPart Trace.machine Trace.goOn

/-- Acts in another scope and comes back from it. -/
def inScope (scope : ScopeId) (action : Traced α) : Traced α :=
  action.within (fun t => t.goOn { t.machine with current := scope })
    fun t t' => t'.goOn { t'.machine with current := t.machine.current }

/-- Acts during a call on this line. -/
def duringCall (line : Nat) (action : Traced α) : Traced α :=
  action.within (fun t => t.goOn { t.machine with callLine := line })
    fun t t' => t'.goOn { t'.machine with callLine := t.machine.callLine }

/-- Binds a method to an instance. -/
def bindMethod (method : Closure) (this : Value) : Traced Closure := do
  let scope ← lift (Run.openScope method.scope)
  lift (Run.define scope "this" this)
  return { method with id := ← lift Run.freshObject, scope }

/-- Gives parameters their values in a scope. -/
def defineParams (scope : ScopeId) : List Token → List Value → Traced Unit
  | param :: params, v :: values => do
    lift (Run.define scope param.lexeme v)
    defineParams scope params values
  | _, _ => return ()

/-- Declarations of which each step is traced. -/
@[reducible]
def declaring : Declaring Trace Unit where
  machine := Trace.machine
  lift := lift
  newClosure _ := lift Run.freshObject
  inSubclass _ _ _ _ := ()

/-- The evaluator that traces each step. -/
@[reducible]
def evaluator : Evaluator Trace Unit Unit where
  machine := Trace.machine
  lift := lift
  inScope := inScope
  duringCall := duringCall
  bindMethod := bindMethod
  defineParams := defineParams
  declareFunction := declaring.declareFunction
  declareClass := declaring.declareClass
  calling _ _ action := action ()
  entering _ c _ action := do
    let scope ← lift (Run.openScope c.scope)
    action scope ()
  inBlock _ _ action := do
    let scope ← lift (Run.openScope (← get).machine.current)
    inScope scope (action ())

/-- The methods of a class as functions inside a scope. -/
abbrev closeMethods (scope : ScopeId) (methods : List FunctionDecl) :
    Traced (List (String × Closure)) :=
  declaring.closeMethods () scope methods

/-- Opens the scope for the methods of a class, if it has a superclass. -/
abbrev openMethods (superclass : Option Class) : Traced ScopeId :=
  declaring.openMethods superclass

/-- Declares a class in the current scope. -/
abbrev declareClass (name : Token) (superclass : Option Class) (methods : List FunctionDecl) :
    Traced (ScopeId × Class) :=
  declaring.declareClass () name superclass methods

/-- A property of an instance. -/
abbrev readProperty (id : InstanceId) (cls : Class) (name : Token) : Traced Value :=
  evaluator.readProperty id cls name

/-- A method of the superclass, bound to `this`. -/
abbrev readSuper (id : NodeId) (keyword method : Token) : Traced Value :=
  evaluator.readSuper id keyword method

/-- The value of an expression. -/
abbrev evaluate (bound : Nat) (e : Expr) : Traced Value :=
  evaluator.evaluate () bound e

/-- Calls a value that can be called. -/
abbrev callValue (bound : Nat) (callee : Value) (values : List Value) : Traced Value :=
  evaluator.callValue () bound callee values

/-- Calls a function. -/
abbrev callClosure (bound : Nat) (c : Closure) (values : List Value) : Traced Value :=
  evaluator.callClosure () bound c values

/-- Executes a statement. -/
abbrev execute (bound : Nat) (s : Stmt) : Traced Flow :=
  evaluator.execute () bound s

/-- Executes a statement as long as a condition holds. -/
abbrev repeatWhile (bound : Nat) (condition : Expr) (body : Stmt) : Traced Flow :=
  evaluator.repeatWhile () bound condition body

/-- Executes a whole program. -/
abbrev program (bound : Nat) (statements : List Stmt) : Traced Unit :=
  evaluator.program () bound statements

/-! ## Relations between runs and traced runs -/

/-- A relation that holds between each single step and the traced one, and is kept when actions are
    put together. What looks at the machine must not look at its sink. -/
structure Compositional (R : (α : Type) → Traced α → Run α → Prop) : Prop where
  pure : ∀ {α} (a : α), R α (Pure.pure a) (Pure.pure a)
  exhausted : ∀ {α}, R α (throw .exhausted) (throw .exhausted)
  quiet : ∀ {α} {action : Run α}, action.Quiet → R α (lift action) action
  emit : ∀ line, R Unit (lift (Run.emit line)) (Run.emit line)
  flush : R Unit (lift Run.flush) Run.flush
  bind : ∀ {α β} {p : Traced α} {q : Run α} {f : α → Traced β} {g : α → Run β},
    R α p q → (∀ a, R β (f a) (g a)) → R β (p >>= f) (q >>= g)
  get : ∀ {β} {f : Trace → Traced β} {g : Machine → Run β}, (∀ t, R β (f t) (g t.machine)) →
    (∀ m s, g (m.withSink s) = g m) →
    R β (do let t ← MonadState.get; f t) (do let m ← MonadState.get; g m)
  inScope : ∀ {α} {p : Traced α} {q : Run α} (scope : ScopeId), R α p q →
    R α (inScope scope p) (Run.inScope scope q)
  duringCall : ∀ {α} {p : Traced α} {q : Run α} (line : Nat), R α p q →
    R α (duringCall line p) (Run.duringCall line q)

namespace Compositional

variable {R : (α : Type) → Traced α → Run α → Prop} (hR : Compositional R)

include hR

/-- Looking at the machine. -/
theorem look {α : Type} {f : Machine → Traced α} {g : Machine → Run α} (h : ∀ m, R _ (f m) (g m))
    (hsink : ∀ m s, g (m.withSink s) = g m) : R _ (evaluator.look f) (Run.evaluator.look g) :=
  hR.get (fun t => h t.machine) hsink

/-- Parameters one after the other. -/
theorem defineParams (scope : ScopeId) (params : List Token) (values : List Value) :
    R _ (Traced.defineParams scope params values) (Run.defineParams scope params values) := by
  induction params generalizing values with
  | nil => exact hR.pure _
  | cons param params ih =>
    cases values with
    | nil => exact hR.pure _
    | cons v values => exact hR.bind (hR.quiet (.define _ _ _)) fun _ => ih values

/-- Functions and classes are declared step by step. -/
theorem declaring : Traced.declaring.Compositional Run.declaring id R where
  congruent := ⟨hR.pure, hR.exhausted, hR.bind⟩
  quiet := hR.quiet
  look := hR.look
  newClosure _ := hR.quiet .freshObject
  inSubclass _ _ _ _ := rfl

/-- The relation holds between the parts of the evaluators. -/
theorem evaluator : Traced.evaluator.Compositional Run.evaluator id id R where
  congruent := ⟨hR.pure, hR.exhausted, hR.bind⟩
  quiet := hR.quiet
  emit := hR.emit
  flush := hR.flush
  look := hR.look
  inScope := hR.inScope
  duringCall := hR.duringCall
  naming _ _ h := h
  bindMethod _ _ := hR.bind (hR.quiet (.openScope _)) fun _ =>
    hR.bind (hR.quiet (.define _ _ _)) fun _ => hR.bind (hR.quiet .freshObject) fun _ => hR.pure _
  newInstance _ := hR.quiet (.newInstance _)
  setField _ _ _ := hR.quiet (.setField _ _ _)
  defineParams := hR.defineParams
  declareFunction := hR.declaring.declareFunction
  declareClass := hR.declaring.declareClass
  calling _ _ h := h ()
  answering _ _ h := h
  entering _ _ _ h := hR.bind (hR.quiet (.openScope _)) fun scope => h scope ()
  -- nothing is noted in a trace but the machine, so each part is that of the evaluator
  inBlock _ _ h := hR.get (fun _ => hR.bind (hR.quiet (.openScope _)) fun scope =>
    hR.inScope scope (h ())) fun _ _ => rfl
  executing _ _ h := h
  looping _ h := h
  returning _ _ := hR.pure _

/-- The relation holds of every program. -/
theorem program (bound : Nat) (statements : List Stmt) :
    R _ (program bound statements) (Run.program bound statements) :=
  hR.evaluator.program () bound statements

end Compositional

/-! ## Tracing changes nothing -/

/-- A traced action does on the machine what the other action does. -/
abbrev Erases (p : Traced α) (q : Run α) : Prop :=
  Act.Erases Trace.machine p q

/-- A step is what it is without a trace. -/
theorem lift_erases (action : Run α) : Erases (lift action) action :=
  .onPart (fun _ _ => rfl) action

/-- Tracing a program changes nothing about its run. -/
theorem program_erases (bound : Nat) (statements : List Stmt) :
    Erases (program bound statements) (Run.program bound statements) :=
  Compositional.program (R := fun _ => Erases) {
    pure := .pure
    exhausted := .throw _
    quiet := fun _ => lift_erases _
    emit := fun _ => lift_erases _
    flush := lift_erases _
    bind := .bind
    get := fun h _ => .get h
    inScope := fun _ h => h.within (fun _ => rfl) fun _ _ => rfl
    duringCall := fun _ h => h.within (fun _ => rfl) fun _ _ => rfl } bound statements

end Traced

end Lox
