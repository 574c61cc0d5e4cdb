import Lox.Proofs.Chronicle

/-!
# Journals of activations

Each call of a function is an activation of it. A journal is kept beside the chronicle of a run, and
says what is done in which activation: which statements are executed, when a round of a loop begins,
when a `return` has its value, when the activation begins and when it ends, and at which call
expression it goes on then. An activation is known by the number of notes before the one of its
beginning. Nothing is done here but to take notes.
-/

namespace Lox

/-- A call expression, and the activation in which it is evaluated, if it is in a function. -/
structure CallSite where
  activation : Option Nat
  call : Expr

/-- What is noted. -/
inductive Note where
  /-- A statement is executed. -/
  | executes (activation : Option Nat) (s : Stmt)
  /-- A round of a loop begins: the condition is evaluated. -/
  | loops (activation : Option Nat)
  /-- A `return` statement ends, with this value. -/
  | returns (activation : Option Nat) (v : Value)
  /-- An activation of a function begins. -/
  | enters (activation : Nat) (site : CallSite) (callee : Closure)
  /-- An activation ends, and the call of the function has yielded this. -/
  | leaves (activation : Nat) (callee : Closure) (result : Value)
  /-- A call expression has its value, and it goes on behind it. -/
  | goesOn (site : CallSite) (v : Value)

/-- The activation in which something is done. -/
def Note.activation? : Note → Option Nat
  | executes k _ => k
  | loops k => k
  | returns k _ => k
  | enters _ site _ => site.activation
  | leaves k _ _ => some k
  | goesOn site _ => site.activation

/-- A chronicle and the notes of the run, the last one first. -/
structure Journal where
  chronicle : Chronicle
  notes : List Note

namespace Journal

/-- The notes in the order in which they were taken. -/
def story (j : Journal) : List Note :=
  j.notes.reverse

/-- With one more note. -/
def noting (j : Journal) (n : Note) : Journal :=
  { j with notes := n :: j.notes }

/-- The journal when an action ends, also if it is aborted. -/
def after {α : Type} : EStateM.Result Abort Journal α → Journal
  | .ok _ j => j
  | .error _ j => j

/-- The notes are the story told backwards. -/
theorem notes_of_story {j : Journal} {n : Note} {earlier later : List Note}
    (h : j.story = earlier ++ n :: later) : j.notes = later.reverse ++ n :: earlier.reverse := by
  rw [← List.reverse_reverse j.notes]
  show j.story.reverse = _
  rw [h]
  simp

end Journal

/-- Actions of which a journal is kept. -/
abbrev Journaled :=
  Act Journal

namespace Journaled

variable {α : Type}

/-- Takes a note. -/
def tell (n : Note) : Journaled Unit :=
  modify fun j => j.noting n

/-- An action of which nothing is noted. -/
def lift (action : Logged α) : Journaled α :=
  action.onPart Journal.chronicle fun j c => { j with chronicle := c }

/-- A call, of which the chronicle tells the beginning and the end. -/
def call (callee : Value) (arguments : List Value) (body : Journaled Value) : Journaled Value := do
  let since := (← get).chronicle.entries.length
  lift (Logged.note (.calls callee arguments))
  let result ← body
  lift (Logged.note (.answers callee arguments result since))
  return result

/-- Acts in another scope and comes back from it. -/
def inScope (scope : ScopeId) (action : Journaled α) : Journaled α :=
  action.within (fun j => { j with chronicle.watch := j.chronicle.watch.at_ scope })
    fun before after => { after with
      chronicle.watch := after.chronicle.watch.at_ before.chronicle.watch.machine.current }

/-- Acts during a call on this line. -/
def duringCall (line : Nat) (action : Journaled α) : Journaled α :=
  action.within (fun j => { j with chronicle.watch := j.chronicle.watch.onLine line })
    fun before after => { after with
      chronicle.watch := after.chronicle.watch.onLine before.chronicle.watch.machine.callLine }

/-- Evaluates a call expression of an activation, and goes on behind it. -/
def calling (k : Option Nat) (call : Expr) (action : CallSite → Journaled Value) :
    Journaled Value := do
  let v ← action ⟨k, call⟩
  tell (.goesOn ⟨k, call⟩ v)
  return v

/-- Calls a function, in a new activation of it. -/
def entering (site : CallSite) (c : Closure) (arguments : List Value)
    (action : ScopeId → Option Nat × List Activation → Journaled Value) : Journaled Value := do
  let k := (← get).notes.length
  tell (.enters k site c)
  let result ← call (.function c) arguments do
    let acts := (← get).chronicle.watch.captured c.id
    let scope ← lift (Logged.record (.enters c · acts) (Watched.lift (Run.openScope c.scope)))
    action scope (some k, ⟨.function c.declaration, scope⟩ :: acts)
  tell (.leaves k c result)
  return result

/-- The evaluator that keeps a journal. A place is known by the activation and by the local scopes
    that have been opened around it. -/
@[reducible]
def evaluator : Evaluator Journal (Option Nat × List Activation) CallSite where
  machine j := j.chronicle.watch.machine
  lift action := lift (Logged.lift action)
  inScope := inScope
  duringCall := duringCall
  naming place reference action := do
    lift (Logged.see reference place.2)
    action
  bindMethod method this := lift (Logged.bindMethod method this)
  newInstance cls := lift (Logged.evaluator.newInstance cls)
  setField id name v := lift (Logged.evaluator.setField id name v)
  declareFunction place declaration := lift (Logged.evaluator.declareFunction place.2 declaration)
  declareClass place name superclass methods :=
    lift (Logged.evaluator.declareClass place.2 name superclass methods)
  calling place := calling place.1
  answering := call
  entering := entering
  inBlock place body action := do
    let scope ← lift (Logged.lift (Run.openScope (← get).chronicle.watch.machine.current))
    inScope scope (action (place.1, ⟨.block body, scope⟩ :: place.2))
  executing place s action := do
    tell (.executes place.1 s)
    action
  looping place action := do
    tell (.loops place.1)
    action
  returning place v := do
    tell (.returns place.1 v)
    return .returned v

/-- The value of an expression in an activation. -/
abbrev evaluate (k : Option Nat) (acts : List Activation) (bound : Nat) (e : Expr) :
    Journaled Value :=
  evaluator.evaluate (k, acts) bound e

/-- Calls a value that can be called, from a call expression. -/
abbrev callValue (site : CallSite) (bound : Nat) (callee : Value) (values : List Value) :
    Journaled Value :=
  evaluator.callValue site bound callee values

/-- Calls a function, in a new activation of it. -/
abbrev callClosure (site : CallSite) (bound : Nat) (c : Closure) (values : List Value) :
    Journaled Value :=
  evaluator.callClosure site bound c values

/-- Executes a statement in an activation. -/
abbrev execute (k : Option Nat) (acts : List Activation) (bound : Nat) (s : Stmt) :
    Journaled Flow :=
  evaluator.execute (k, acts) bound s

/-- Executes a statement again and again, as long as the condition holds before. -/
abbrev repeatWhile (k : Option Nat) (acts : List Activation) (bound : Nat) (condition : Expr)
    (body : Stmt) : Journaled Flow :=
  evaluator.repeatWhile (k, acts) bound condition body

/-- Executes a whole program, outside of functions. -/
abbrev program (bound : Nat) (statements : List Stmt) : Journaled Unit :=
  evaluator.program (none, []) bound statements

end Journaled

end Lox
