import Lox.Proofs.Frame

/-!
# Sessions step by step

What is done in a session is a list of actions: texts are compiled and run, statements of any origin
are executed, distances are recorded, functions of the host are registered. Whatever an action does
and however it ends, the machine is outside of all local scopes and calls before and after it.

## Key results

- `Session.execute_eq`: what an execution does to the session
- `Session.AtTop.performAll`: between two actions the current scope is the global one
- `Session.restored`: scope and call line are put back on every way out
-/

namespace Lox

/-- How the run of a program ended. -/
def Status.ofRun : EStateM.Result Abort Machine Unit → Status
  | .ok _ _ => .ok
  | .error .exhausted _ => .exhausted
  | .error _ _ => .runtimeError

/-- What there is to report of the run of a program. -/
def Report.ofRun : EStateM.Result Abort Machine Unit → Report
  | .error (.runtime e) _ => [.runtime e]
  | .error (.output e) _ => [.output e]
  | _ => []

namespace Session

/-- What can be done in a session. -/
inductive Action where
  | compile (text : String)
  | run (bound : Nat) (text : String)
  /-- Statements are executed, which may come from a text of this session or from elsewhere. -/
  | execute (bound : Nat) (statements : List Stmt)
  /-- Trees with so many nodes are made apart from the session, and distances are recorded. -/
  | install (nodes : Nat) (entries : List (NodeId × Nat))
  | resetGlobals
  | setReport (report : Report)
  | defineNative (n : Native)

/-- The session after an action. -/
def perform (s : Session) : Action → Session
  | .compile text => (s.compile text).1
  | .run bound text => (s.run bound text).1
  | .execute bound statements => (s.execute bound statements).1
  | .install nodes entries =>
    { s with machine := s.machine.install entries, nextId := s.nextId + nodes }
  | .resetGlobals => s.resetGlobals
  | .setReport report => { s with report }
  | .defineNative n => s.defineNative n

/-- The session after several actions. -/
def performAll (s : Session) (actions : List Action) : Session :=
  actions.foldl perform s

/-! ## What actions do -/

/-- An execution leaves the machine behind that the program does, whether it is aborted or not, and
    adds to the report what ended it. -/
theorem execute_eq (bound : Nat) (s : Session) (statements : List Stmt) :
    s.execute bound statements = (⟨(Run.program bound statements).after s.machine,
        s.report ++ Report.ofRun (Run.program bound statements s.machine), s.nextId⟩,
      Status.ofRun (Run.program bound statements s.machine)) := by
  have hrun : (Run.program bound statements).run s.machine =
    Run.program bound statements s.machine := rfl
  unfold execute Run.after
  dsimp only
  rw [hrun]
  -- what the report and the status say depends on nothing but the way the run ends
  cases Run.program bound statements s.machine with
  | ok a m => simp [Report.ofRun, Status.ofRun]
  | error e m => cases e <;> simp [Report.ofRun, Status.ofRun]

/-- To execute statements leaves the machine that they leave. -/
theorem machine_execute (bound : Nat) (s : Session) (statements : List Stmt) :
    (s.execute bound statements).1.machine = (Run.program bound statements).after s.machine := by
  rw [execute_eq]

/-- An execution gives no identities to nodes. -/
theorem nextId_execute (bound : Nat) (s : Session) (statements : List Stmt) :
    (s.execute bound statements).1.nextId = s.nextId := by
  rw [execute_eq]

/-- Compiling leaves the machine as it is, apart from the distances. -/
theorem machine_compile (s : Session) (text : String) :
    (s.compile text).1.machine =
      s.machine.install (((s.compile text).2.map (·.distances)).getD []) := by
  unfold compile
  cases Program.compile text s.nextId with
  | mk result n =>
    cases result with
    | ok program => rfl
    | error report => rfl

/-- A run compiles a text, and executes it if it is a program. -/
theorem run_eq (bound : Nat) (s : Session) (text : String) :
    s.run bound text = match (s.compile text).2 with
      | some program => (s.compile text).1.execute bound program.statements
      | none => ((s.compile text).1, .staticError) := by
  unfold run
  split <;> simp_all

/-- A text that is no program only leaves its report behind. -/
theorem run_of_error {s : Session} {text : String} {report : Report} {n : Nat}
    (h : Program.compile text s.nextId = (.error report, n)) (bound : Nat) :
    s.run bound text = (⟨s.machine, report, n⟩, .staticError) := by
  rw [run, compile, h]

/-- A program is executed with its distances. -/
theorem run_of_ok {s : Session} {text : String} {p : Program} {n : Nat}
    (h : Program.compile text s.nextId = (.ok p, n)) (bound : Nat) :
    s.run bound text =
      (⟨(Run.program bound p.statements).after (s.machine.install p.distances),
        Report.ofRun (Run.program bound p.statements (s.machine.install p.distances)), n⟩,
      Status.ofRun (Run.program bound p.statements (s.machine.install p.distances))) := by
  rw [run, compile, h]
  exact execute_eq bound _ p.statements

/-- Output is only added. -/
theorem sink_perform (s : Session) (a : Action) :
    s.machine.sink.Grows (s.perform a).machine.sink := by
  have hcompile : ∀ text, (s.compile text).1.machine.sink = s.machine.sink := by
    intro text
    rw [machine_compile]
    rfl
  have hexecute : ∀ (t : Session) bound statements,
      t.machine.sink.Grows (t.execute bound statements).1.machine.sink := by
    intro t bound statements
    rw [machine_execute]
    exact (Run.Tidy.program bound statements).frame.sink
  -- a run is a compilation, which prints nothing, and an execution
  cases a with
  | compile text =>
    show s.machine.sink.Grows (s.compile text).1.machine.sink
    rw [hcompile]
    exact .refl _
  | run bound text =>
    show s.machine.sink.Grows (s.run bound text).1.machine.sink
    rw [run_eq, ← hcompile text]
    cases (s.compile text).2 with
    | none => exact .refl _
    | some program => exact hexecute _ bound program.statements
  | execute bound statements => exact hexecute s bound statements
  | install nodes entries | resetGlobals | setReport report | defineNative n => exact .refl _

/-! ## Between two actions -/

/-- The machine is outside of all local scopes and calls. -/
structure AtTop (s : Session) : Prop where
  current : s.machine.current = s.machine.globals
  callLine : s.machine.callLine = 0

namespace AtTop

variable {s : Session}

/-- A session starts at the top. -/
theorem start (sink : Sink) (clock : Clock) : AtTop (.start sink clock) :=
  ⟨rfl, rfl⟩

/-- To compile a text leaves the session at the top. -/
theorem compile (h : s.AtTop) (text : String) : (s.compile text).1.AtTop := by
  have hmachine := s.machine_compile text
  constructor
  · rw [hmachine]
    exact h.current
  · rw [hmachine]
    exact h.callLine

/-- To execute statements leaves the session at the top. -/
theorem execute (h : s.AtTop) (bound : Nat) (statements : List Stmt) :
    (s.execute bound statements).1.AtTop := by
  have hframe := (Run.Tidy.program (m := s.machine) bound statements).frame
  rw [← machine_execute] at hframe
  constructor
  · rw [hframe.current, hframe.globals, h.current]
  · rw [hframe.callLine, h.callLine]

/-- An action leaves the session at the top. -/
theorem perform (h : s.AtTop) (a : Action) : (s.perform a).AtTop := by
  -- only a new stock of globals changes the scope, and then the current one is that of the globals
  cases a with
  | compile text => exact h.compile text
  | run bound text =>
    rw [Session.perform, run_eq]
    cases (s.compile text).2 with
    | none => exact h.compile text
    | some program => exact (h.compile text).execute bound program.statements
  | execute bound statements => exact h.execute bound statements
  | install nodes entries => exact ⟨h.current, h.callLine⟩
  | resetGlobals => exact ⟨rfl, h.callLine⟩
  | setReport report => exact ⟨h.current, h.callLine⟩
  | defineNative n => exact ⟨h.current, h.callLine⟩

/-- Several actions leave the session at the top. -/
theorem performAll (h : s.AtTop) (actions : List Action) : (s.performAll actions).AtTop := by
  induction actions generalizing s with
  | nil => exact h
  | cons a rest ih => exact ih (h.perform a)

end AtTop

/-! ## Every way out -/

/-- Scope and call line are put back on every way out.

    Expressions, statements, blocks, calls and whole programs leave the machine in the scope and on
    the line of the call in which it was before, whether they end normally, return or are aborted;
    so between two actions of a session the current scope is the global one. A call of a host
    function that fails is blamed on the line of its closing parenthesis, whatever its callee and
    its arguments have done before, and no run ends with an error of a host function but through
    such a call. -/
theorem restored :
    (∀ n e m, (Run.evaluate n e).Tidy m) ∧
    (∀ n s m, (Run.execute n s).Tidy m) ∧
    (∀ n scope body m, (Run.inScope scope (Lox.executeAll (Run.execute n) body)).Tidy m) ∧
    (∀ n c values m, (Run.callClosure n c values).Tidy m) ∧
    (∀ n v values (m : Machine), m.SameFrame ((Run.callValue n v values).after m)) ∧
    (∀ bound statements m, (Run.program bound statements).Tidy m) ∧
    (∀ n callee paren arguments start called invoked info values native,
      Run.evaluate n callee start = .ok (.native info) called →
      Lox.evaluateAll (Run.evaluate n) arguments called = .ok values invoked →
      values.length = info.arity → invoked.natives[info.id]? = some native →
      Run.evaluate (n + 1) (.call callee paren arguments) start =
        match native.run invoked.clock.next invoked.fields values with
        | .ok v => .ok v invoked.tick
        | .error message =>
          .error (.runtime ⟨.native info.name message, paren.line⟩) invoked.tick) ∧
    ∀ sink clock actions, ((Session.start sink clock).performAll actions).AtTop := by
  refine ⟨fun n => (Run.Tidy.all n).evaluate, fun n => (Run.Tidy.all n).execute,
    fun n scope body m => .inScope (.executeAll (Run.Tidy.all n).execute body),
    fun n => (Run.Tidy.all n).callClosure, Run.callValue_frame,
    fun bound statements m => .program bound statements, ?_,
    fun sink clock actions => (AtTop.start sink clock).performAll actions⟩
  -- the clause about host functions is the only one that speaks of two steps of a call
  intro n callee paren arguments start called invoked info values native hcallee harguments hlength
    hnative
  exact Run.evaluate_native_call hcallee harguments hlength hnative

/-- A machine with a host function that always fails. -/
private def failing : Machine :=
  (Machine.blank .unlimited (.always 0)).defineNative ⟨"fail", 1, NativeFunction.fail⟩

/-- The call `fail("a")`, of which the parenthesis is closed on the second line. -/
theorem restored_failing_call :
    Run.evaluate 2 (.call (.var ⟨0⟩ (.name "fail" 1)) ⟨.rightParen, ")", 2⟩
      [.literal (.string "a")]) failing = .error (.runtime ⟨.native "fail" "a", 2⟩) failing := by
  obtain ⟨-, -, -, -, -, -, hcall, -⟩ := restored
  exact hcall 1 _ _ _ failing failing failing ⟨0, "fail", 1⟩ [.string "a"]
    ⟨"fail", 1, NativeFunction.fail⟩ rfl rfl rfl rfl

end Session

end Lox
