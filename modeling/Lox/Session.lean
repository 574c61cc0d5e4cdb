import Lox.Machine.Eval
import Lox.Native
import Lox.Program

/-!
# Sessions

A session runs programs one after the other on one machine and keeps a report of what went wrong.
Global names, recorded distances and the host's functions last from one program to the next.
-/

namespace Lox

/-- How a run ended. -/
inductive Status where
  | ok
  /-- The text is no program; nothing was run. -/
  | staticError
  /-- The run was ended by an error. -/
  | runtimeError
  /-- The bound on the nesting of actions was used up. -/
  | exhausted
  deriving DecidableEq, Repr

namespace Status

/-- The code with which a process exits that ended like this. -/
def exitCode : Status → Nat
  | ok => 0
  | staticError => 65
  | runtimeError => 70
  | exhausted => 75

end Status

/-- A machine with the report of what went wrong on it. -/
structure Session where
  machine : Machine
  report : Report
  /-- How many identities have been given to nodes. -/
  nextId : Nat

namespace Session

/-- A session that writes to a sink, on a host with this clock. -/
def start (sink : Sink) (clock : Clock) : Session :=
  ⟨(Machine.blank sink clock).defineNative .clock, [], 0⟩

/-- The session with another clock. -/
def withClock (s : Session) (clock : Clock) : Session :=
  { s with machine := { s.machine with clock } }

/-- Compiles a text, with a new report. The distances of a program are recorded at once. -/
def compile (s : Session) (text : String) : Session × Option Program :=
  match Program.compile text s.nextId with
  | (.ok program, nextId) =>
    (⟨s.machine.install program.distances, [], nextId⟩, some program)
  | (.error report, nextId) => (⟨s.machine, report, nextId⟩, none)

/-- Executes statements whose distances are recorded. What ends the run is added to the report. -/
def execute (bound : Nat) (s : Session) (statements : List Stmt) : Session × Status :=
  match s with
  | ⟨machine, report, nextId⟩ =>
    match (Run.program bound statements).run machine with
    | .ok _ machine => (⟨machine, report, nextId⟩, .ok)
    | .error (.runtime e) machine => (⟨machine, report ++ [.runtime e], nextId⟩, .runtimeError)
    | .error (.output e) machine => (⟨machine, report ++ [.output e], nextId⟩, .runtimeError)
    | .error .exhausted machine => (⟨machine, report, nextId⟩, .exhausted)

/-- Compiles a text and, if it is a program, executes it. -/
def run (bound : Nat) (s : Session) (text : String) : Session × Status :=
  match s.compile text with
  | (s, some program) => s.execute bound program.statements
  | (s, none) => (s, .staticError)

/-- Forgets the errors. -/
def resetReport (s : Session) : Session :=
  { s with report := [] }

/-- Registers a function of the host. -/
def defineNative (s : Session) (n : Native) : Session :=
  { s with machine := s.machine.defineNative n }

/-- Starts again with a global scope in which there are only the host's functions. -/
def resetGlobals (s : Session) : Session :=
  { s with machine := s.machine.resetGlobals }

/-- What a global name is bound to. -/
def global? (s : Session) (name : String) : Option Binding :=
  s.machine.scopes.get? s.machine.globals name

end Session

end Lox
