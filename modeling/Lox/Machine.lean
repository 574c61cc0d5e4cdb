import Lox.Distances
import Lox.Output
import Lox.Scope

/-!
# The machine

The state in which programs run: the scopes, the fields of the instances, the host's functions and
its clock, the recorded distances and the output. Actions on it may be aborted by an error, or
because the bound on their nesting is used up; what they did until then stays done.
-/

namespace Lox

/-- The fields of all instances, by identity. -/
abbrev Fields :=
  Array (NameTable Value)

/-- What the clock of the host will tell, in seconds: one reading for each call of a function of the
    host. -/
abbrev Clock :=
  Answers Float

namespace Clock

/-- A number is a clock that stands still. -/
instance : Coe Float Clock :=
  ⟨.always⟩

/-- A clock that goes on by a step from one reading to the next. -/
def ticking (now step : Float) : Clock :=
  .varying (fun index => now + Float.ofNat index * step) 0

end Clock

/-- A function that the host provides. It may look at the clock and at the fields of instances. -/
structure Native where
  name : String
  arity : Nat
  run : (now : Float) → Fields → List Value → Except String Value

/-- The state in which programs run. -/
structure Machine where
  scopes : Scopes
  /-- The scope of the global names. -/
  globals : ScopeId
  /-- The scope in which the machine is. -/
  current : ScopeId
  /-- The line of the innermost call in progress. -/
  callLine : Nat
  distances : Distances
  fields : Fields
  /-- How many identities have been given to functions and classes. -/
  nextObject : Nat
  /-- The host's functions in the order in which they were registered. -/
  natives : Array Native
  clock : Clock
  sink : Sink

/-- Why an action ends early. -/
inductive Abort where
  | runtime (e : RuntimeError)
  | output (e : OutputFault)
  /-- The bound on the nesting of actions is used up. -/
  | exhausted
  deriving DecidableEq, Repr

/-- Actions on states that have a machine in them. -/
abbrev Act (σ : Type) :=
  EStateM Abort σ

/-- Acts on a state that is prepared for it. What has been prepared is put back as it was, also when
    the action is aborted. -/
def Act.within {σ α : Type} (prepare : σ → σ) (putBack : (before after : σ) → σ)
    (action : Act σ α) : Act σ α := fun s =>
  match action (prepare s) with
  | .ok a s' => .ok a (putBack s s')
  | .error e s' => .error e (putBack s s')

/-- An action within other surroundings, spelled out. -/
theorem Act.within_apply {σ α : Type} (prepare : σ → σ) (putBack : σ → σ → σ) (action : Act σ α)
    (s : σ) :
    action.within prepare putBack s =
      match action (prepare s) with
      | .ok a s' => .ok a (putBack s s')
      | .error e s' => .error e (putBack s s') :=
  rfl

/-- An action within other surroundings that yields a value puts them back. -/
theorem Act.within_of_ok {σ α : Type} {prepare : σ → σ} {putBack : σ → σ → σ} {action : Act σ α}
    {s s' : σ} {a : α} (h : action (prepare s) = .ok a s') :
    action.within prepare putBack s = .ok a (putBack s s') := by
  rw [within_apply, h]

/-- An action within other surroundings that is aborted puts them back, too. -/
theorem Act.within_of_error {σ α : Type} {prepare : σ → σ} {putBack : σ → σ → σ}
    {action : Act σ α} {s s' : σ} {e : Abort} (h : action (prepare s) = .error e s') :
    action.within prepare putBack s = .error e (putBack s s') := by
  rw [within_apply, h]

/-- Actions on the machine. -/
abbrev Run :=
  Act Machine

/-- What looks at the state goes on in it. -/
theorem get_bind_apply {ε σ α : Type} (f : σ → EStateM ε σ α) (s : σ) :
    (do let s ← get; f s : EStateM ε σ α) s = f s s :=
  rfl

/-- A host function as programs see it that is registered at this place. -/
def Native.info (n : Native) (id : Nat) : NativeInfo :=
  ⟨id, n.name, n.arity⟩

namespace Machine

/-- Registers a host function under its name in the global scope. -/
def defineNative (m : Machine) (n : Native) : Machine :=
  { m with
    scopes := m.scopes.define m.globals n.name (.native (n.info m.natives.size))
    natives := m.natives.push n }

/-- Binds the names of host functions of which so many precede. -/
def defineAll (scopes : Scopes) (globals : ScopeId) : (id : Nat) → List Native → Scopes
  | _, [] => scopes
  | id, n :: rest =>
    defineAll (scopes.define globals n.name (.native (n.info id))) globals (id + 1) rest

/-- Replaces the global scope by a new one in which there are only the host's functions. The
    recorded distances stay. -/
def resetGlobals (m : Machine) : Machine :=
  let (scopes, globals) := m.scopes.new
  { m with
    scopes := defineAll scopes globals 0 m.natives.toList
    globals := globals
    current := globals }

/-- Records the distances of the local references of a program. -/
def install (m : Machine) (entries : List (NodeId × Nat)) : Machine :=
  { m with distances := m.distances.insertAll entries }

/-- A machine without host functions. -/
def blank (sink : Sink) (clock : Clock) : Machine :=
  let (scopes, globals) := Scopes.empty.new
  { scopes := scopes
    globals := globals
    current := globals
    callLine := 0
    distances := .empty
    fields := #[]
    nextObject := 0
    natives := #[]
    clock := clock
    sink := sink }

/-- The machine after its clock has been read. -/
def tick (m : Machine) : Machine :=
  { m with clock := m.clock.after 1 }

end Machine

namespace Run

/-- Ends a run with a fault on the line of a token. -/
def fail {α : Type} (at_ : Token) (fault : RuntimeFault) : Run α :=
  throw (.runtime ⟨fault, at_.line⟩)

/-- Acts in another scope and comes back from it. -/
def inScope {α : Type} (scope : ScopeId) (action : Run α) : Run α :=
  action.within (fun m => { m with current := scope })
    fun before after => { after with current := before.current }

/-- Acts during a call on this line, and comes back to the line of the call around it. -/
def duringCall {α : Type} (line : Nat) (action : Run α) : Run α :=
  action.within (fun m => { m with callLine := line })
    fun before after => { after with callLine := before.callLine }

/-- Opens a scope inside another. -/
def openScope (parent : ScopeId) : Run ScopeId := fun m =>
  let (scopes, scope) := m.scopes.child parent
  .ok scope { m with scopes }

/-- Gives a name a value in a scope. -/
def define (scope : ScopeId) (name : String) (v : Value) : Run Unit :=
  modify fun m => { m with scopes := m.scopes.define scope name v }

/-- Declares a name in the current scope, without a value. -/
def declareHere (name : String) : Run Unit :=
  modify fun m => { m with scopes := m.scopes.declare m.current name }

/-- Gives a name a value in the current scope. -/
def defineHere (name : String) (v : Value) : Run Unit :=
  modify fun m => { m with scopes := m.scopes.define m.current name v }

/-- An identity that no other function or class has. -/
def freshObject : Run ObjectId :=
  modifyGet fun m => (⟨m.nextObject⟩, { m with nextObject := m.nextObject + 1 })

/-- An instance without fields. -/
def newInstance (cls : Class) : Run Value :=
  modifyGet fun m =>
    (.instance_ ⟨m.fields.size⟩ cls, { m with fields := m.fields.push .empty })

/-- Sets a field of an instance. -/
def setField (id : InstanceId) (name : String) (v : Value) : Run Unit :=
  modify fun m => { m with fields := m.fields.modify id.index fun fields => fields.insert name v }

/-- A method as a function of its own, inside a scope in which `this` is the instance. -/
def bindMethod (method : Closure) (this : Value) : Run Closure := do
  let scope ← openScope method.scope
  define scope "this" this
  return { method with id := ← freshObject, scope }

/-- Does something with the sink. A fault of the sink ends the run. -/
def onSink (action : Sink → Sink × Option OutputFault) : Run Unit := fun m =>
  match action m.sink with
  | (sink, none) => .ok () { m with sink }
  | (sink, some fault) => .error (.output fault) { m with sink }

/-- Writes a line of program output. -/
def emit (line : String) : Run Unit :=
  onSink (·.write (line ++ "\n"))

/-- Flushes the program output. -/
def flush : Run Unit :=
  onSink Sink.flush

/-- What a reference is bound to: at its distance if it has one, otherwise among the globals. -/
def lookUp? (id : NodeId) (name : String) : Run (Option Binding) := do
  let m ← get
  match m.distances.get? id with
  | some d => return m.scopes.getAt? m.current d name
  | none => return m.scopes.binding? m.globals name

/-- The value of a reference. -/
def readVariable (id : NodeId) (name : Token) : Run Value := do
  match ← lookUp? id name.lexeme with
  | some (.value v) => return v
  | some .uninitialized => fail name (.uninitializedVariable name.lexeme)
  | none => fail name (.undefinedVariable name.lexeme)

/-- Gives a reference a value. A global must exist; a local name is bound in the scope at its
    distance. -/
def writeVariable (id : NodeId) (name : Token) (v : Value) : Run Unit := do
  let m ← get
  match m.distances.get? id with
  | some d =>
    match m.scopes.ancestor? m.current d with
    | some scope => define scope name.lexeme v
    | none => fail name (.undefinedVariable name.lexeme)
  | none =>
    match m.scopes.binding? m.globals name.lexeme with
    | some _ => define m.globals name.lexeme v
    | none => fail name (.undefinedVariable name.lexeme)

/-- Looks at the clock. -/
def readClock : Run Float :=
  modifyGet fun m => (m.clock.next, m.tick)

/-- What looks at the clock goes on after the clock has been read. -/
theorem readClock_bind_apply {α : Type} (f : Float → Run α) (m : Machine) :
    (do let now ← readClock; f now : Run α) m = f m.clock.next m.tick :=
  rfl

/-- Calls a function of the host. Its error is attributed to the call in progress. -/
def callNative (info : NativeInfo) (arguments : List Value) : Run Value := do
  let now ← readClock
  let m ← get
  match m.natives[info.id]? with
  -- a value with this `info` only exists once the function is registered
  | none => return .nil
  | some native =>
    match native.run now m.fields arguments with
    | .ok v => return v
    | .error message => throw (.runtime ⟨.native info.name message, m.callLine⟩)

/-- The clock is read for a host function, which changes nothing else. If it fails, its error stands
    on the line of the call. -/
theorem callNative_apply (info : NativeInfo) (arguments : List Value) (m : Machine) :
    callNative info arguments m =
      match m.natives[info.id]? with
      | none => .ok .nil m.tick
      | some native =>
        match native.run m.clock.next m.fields arguments with
        | .ok v => .ok v m.tick
        | .error message => .error (.runtime ⟨.native info.name message, m.callLine⟩) m.tick := by
  have hnatives : m.tick.natives = m.natives := rfl
  have hfields : m.tick.fields = m.fields := rfl
  rw [callNative, readClock_bind_apply, get_bind_apply, hnatives, hfields]
  cases m.natives[info.id]? with
  | none => rfl
  | some native =>
    dsimp only
    cases native.run m.clock.next m.fields arguments <;> rfl

end Run

end Lox
