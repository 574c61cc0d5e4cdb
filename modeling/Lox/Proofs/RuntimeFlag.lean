import Lox.Proofs.StageGate
import Lox.Proofs.Trace

/-!
# Exit codes and the runtime flag

A run that has started and fails ends with exit code 70, whatever has ended it. The report tells of
an error at run time only if the program itself has failed, but not if its output could not be
written. So code and flag agree unless the sink refuses what it is given.

## Key results

- `Run.Blames.program`: output only fails if the sink has refused it
- `Session.runtime_flag`: what exit code and report tell of a run
-/

namespace Lox

namespace Sink

/-- The last that has happened on the way from a sink to another one is that a write or a flush has
    been refused like this. -/
def Refuses (s : Sink) (fault : OutputFault) (s' : Sink) : Prop :=
  ∃ before, s.Grows before ∧
    ((∃ text, before.write text = (s', some fault)) ∨ before.flush = (s', some fault))

variable {s s' s'' : Sink} {fault : OutputFault}

/-- What refuses output later refuses it from now on. -/
theorem Refuses.of_grows (h : s.Grows s') (h' : s'.Refuses fault s'') : s.Refuses fault s'' := by
  obtain ⟨before, hgrows, hlast⟩ := h'
  exact ⟨before, h.trans hgrows, hlast⟩

/-- A sink with a limit, of which all flushes end alike, refuses what it is given if it is full or
    if they all fail. -/
theorem Refuses.limited (h : s.Refuses fault s') {capacity : Option Nat}
    {flushFault : Option OutputFault} (hwriter : s.writer = .limited capacity)
    (hflusher : s.flusher = .always flushFault) :
    (fault = .closed ∧ ∃ n, capacity = some n ∧ n ≤ s'.written.size) ∨ flushFault = some fault := by
  obtain ⟨before, hgrows, ⟨text, hwrite⟩ | hflush⟩ := h
  · refine .inl ?_
    -- a write that fails has filled the sink
    rcases before.write_cases text with hwhole | ⟨room, fault', hobstacle, hroom, hcut⟩
    · rw [hwhole] at hwrite
      cases hwrite
    · rw [hcut] at hwrite
      cases hwrite
      rw [hgrows.limited hwriter] at hobstacle
      cases capacity with
      | none => cases hobstacle
      | some n =>
        cases hobstacle
        refine ⟨rfl, n, rfl, ?_⟩
        simp only [ByteArray.size_append, ByteArray.size_extract]
        omega
  · refine .inr ?_
    have hfault : before.flush.2 = some fault := by rw [hflush]
    dsimp only [flush] at hfault
    rwa [hgrows.always hflusher] at hfault

/-- A sink that takes everything refuses nothing. -/
theorem TakesAll.not_refuses (h : s.TakesAll) : ¬s.Refuses fault s' := by
  intro hrefuses
  rcases hrefuses.limited h.writer h.flusher with ⟨-, n, hn, -⟩ | hflush
  · cases hn
  · cases hflush

end Sink

namespace Run

variable {α β : Type}

/-- Output is only added during an action, and if it fails the sink has refused it. -/
structure Blames (p : Run α) : Prop where
  grows : ∀ m : Machine, m.sink.Grows (p.after m).sink
  refuses : ∀ m e m', p m = .error (.output e) m' → m.sink.Refuses e m'.sink

namespace Blames

/-- A quiet action blames no sink. -/
theorem quiet {p : Run α} (h : p.Quiet) : Blames p :=
  ⟨fun m => (h.frame m).sink, fun m e m' herror => absurd herror (h.no_fault m e m')⟩

/-- In a sequence either action may blame the sink. -/
theorem bind {p : Run α} {f : α → Run β} (hp : Blames p) (hf : ∀ a, Blames (f a)) :
    Blames (p >>= f) := by
  refine ⟨fun m => ?_, fun m e m' h => ?_⟩
  · have hgrows := hp.grows m
    cases hrun : p m with
    | ok a m' =>
      rw [after_of_ok hrun] at hgrows
      rw [after, bind_apply_of_ok hrun]
      exact hgrows.trans ((hf a).grows m')
    | error e m' =>
      rw [after_of_error hrun] at hgrows
      rwa [after_of_error (bind_apply_of_error hrun)]
  · have hgrows := hp.grows m
    cases hrun : p m with
    | ok a m'' =>
      rw [after_of_ok hrun] at hgrows
      rw [bind_apply_of_ok hrun] at h
      -- the first action has let the sink grow, and refusals may come after that
      exact .of_grows hgrows ((hf a).refuses m'' e m' h)
    | error e' m'' =>
      rw [bind_apply_of_error hrun] at h
      cases h
      exact hp.refuses m e m' hrun

/-- What is done with the sink ends the run only if the sink has refused it. -/
private theorem onSink {action : Sink → Sink × Option OutputFault}
    (hgrows : ∀ s : Sink, s.Grows (action s).1)
    (hrefuses : ∀ s fault, (action s).2 = some fault → s.Refuses fault (action s).1) :
    Blames (Run.onSink action) := by
  refine ⟨fun m => (Tidy.onSink (hgrows m.sink)).frame.sink, fun m e m' h => ?_⟩
  -- the action on the sink tells whether it has been refused, and a refusal is the abort
  have hlast := hrefuses m.sink
  unfold Run.onSink at h
  rcases haction : action m.sink with ⟨sink, _ | fault⟩
  · rw [haction] at h
    cases h
  · rw [haction] at h hlast
    cases h
    exact hlast _ rfl

/-- A write that fails is one that the sink refuses. -/
theorem emit (line : String) : Blames (Run.emit line) :=
  onSink (fun s => s.write_grows _) fun s _ h =>
    ⟨s, .refl s, .inl ⟨_, Prod.ext rfl h⟩⟩

/-- A flush that fails is one that the sink refuses. -/
theorem flush : Blames Run.flush :=
  onSink Sink.flush_grows fun s _ h => ⟨s, .refl s, .inr (Prod.ext rfl h)⟩

/-- What is prepared and put back has nothing to do with the sink. -/
private theorem within {p : Run α} {prepare : Machine → Machine}
    {putBack : Machine → Machine → Machine} (hp : Blames p)
    (hprepare : ∀ m, (prepare m).sink = m.sink)
    (hsink : ∀ m m', (putBack m m').sink = m'.sink) : Blames (p.within prepare putBack) := by
  refine ⟨fun m => ?_, fun m e m' h => ?_⟩
  · have hgrows := hp.grows (prepare m)
    rw [hprepare] at hgrows
    cases hrun : p (prepare m) with
    | ok a m' =>
      rw [after_of_ok hrun] at hgrows
      rwa [after_of_ok (Act.within_of_ok hrun), hsink]
    | error e m' =>
      rw [after_of_error hrun] at hgrows
      rwa [after_of_error (Act.within_of_error hrun), hsink]
  -- only what runs inside can fail
  · cases hrun : p (prepare m) with
    | ok a m'' =>
      rw [Act.within_of_ok hrun] at h
      cases h
    | error e' m'' =>
      rw [Act.within_of_error hrun] at h
      cases h
      rw [hsink, ← hprepare]
      exact hp.refuses _ e m'' hrun

/-- The scope in which an action runs has no part in output. -/
theorem inScope {p : Run α} (scope : ScopeId) (hp : Blames p) : Blames (Run.inScope scope p) :=
  within hp (fun _ => rfl) fun _ _ => rfl

/-- The line of a call has no part in output. -/
theorem duringCall {p : Run α} (line : Nat) (hp : Blames p) : Blames (Run.duringCall line p) :=
  within hp (fun _ => rfl) fun _ _ => rfl

/-- Programs whose output fails have been refused it. -/
theorem program (bound : Nat) (statements : List Stmt) : Blames (Run.program bound statements) :=
  Traced.Compositional.program (R := fun _ _ q => Blames q) {
    pure := fun a => quiet (.pure a)
    exhausted := quiet (.throw nofun)
    quiet := quiet
    emit := emit
    flush := flush
    bind := bind
    get := fun h _ => ⟨fun m => (h ⟨m, []⟩).grows m, fun m => (h ⟨m, []⟩).refuses m⟩
    inScope := inScope
    duringCall := duringCall } bound statements

end Blames

end Run

namespace Session

/-- How runs end: not with exit code 70, and then only static stages may have found something, or
    with an error of the program, or with one of its output, which the sink has refused. -/
theorem run_outcome (bound : Nat) (s : Session) (text : String) :
    ((s.run bound text).2.exitCode ≠ 70 ∧
      ∀ d ∈ (s.run bound text).1.report, d.stage?.isSome = true) ∨
    ((s.run bound text).2.exitCode = 70 ∧ ∃ e, (s.run bound text).1.report = [.runtime e]) ∨
    ((s.run bound text).2.exitCode = 70 ∧ ∃ e, (s.run bound text).1.report = [.output e] ∧
      s.machine.sink.Refuses e (s.run bound text).1.machine.sink) := by
  rw [run_eq]
  -- the text is a program that is executed, or a static stage has refused it
  rcases s.compile_cases text with ⟨p, nextId, heq, -⟩ | ⟨stage, nextId, heq, -⟩
  · have hrefuses := (Run.Blames.program bound p.statements).refuses
      (s.machine.install p.distances)
    simp only [heq, execute_eq, List.nil_append, Run.after]
    cases hrun : Run.program bound p.statements (s.machine.install p.distances) with
    | ok a m => exact .inl (by simp [Status.ofRun, Status.exitCode, Report.ofRun])
    | error e m =>
      cases e with
      | runtime e => exact .inr (.inl ⟨rfl, e, rfl⟩)
      | output e => exact .inr (.inr ⟨rfl, e, rfl, hrefuses e m hrun⟩)
      | exhausted => exact .inl (by simp [Status.ofRun, Status.exitCode, Report.ofRun])
  · simp only [heq]
    refine .inl ⟨by simp [Status.exitCode], fun d hd => ?_⟩
    rw [StaticStage.stage?_of_mem_findings hd]
    rfl

/-- What exit code and report tell of a run, in whatever session and with whatever sink.

    The exit code is 70 exactly if one error has ended the run, of the program or of its output. The
    report tells of an error at run time exactly if this is one of the program. So they differ
    exactly if the output has failed. Then the last that has happened is that the sink has refused a
    write or a flush; if it has a limit and all its flushes end alike, it is full or they all fail.
    With a sink that takes everything exit code and report agree. -/
theorem runtime_flag (bound : Nat) (s : Session) (text : String) :
    ((s.run bound text).2.exitCode = 70 ↔
      (∃ e, (s.run bound text).1.report = [.runtime e]) ∨
        ∃ e, (s.run bound text).1.report = [.output e]) ∧
    ((s.run bound text).1.report.hasRuntime = true ↔
      ∃ e, (s.run bound text).1.report = [.runtime e]) ∧
    (¬((s.run bound text).2.exitCode = 70 ↔ (s.run bound text).1.report.hasRuntime = true) ↔
      ∃ e, (s.run bound text).1.report = [.output e]) ∧
    (∀ e, (s.run bound text).1.report = [.output e] →
      s.machine.sink.Refuses e (s.run bound text).1.machine.sink) ∧
    (∀ capacity fault, s.machine.sink.writer = .limited capacity →
      s.machine.sink.flusher = .always fault → ∀ e, (s.run bound text).1.report = [.output e] →
        (e = .closed ∧ ∃ n, capacity = some n ∧ n ≤ (s.run bound text).1.machine.sink.written.size) ∨
          fault = some e) ∧
    (s.machine.sink.TakesAll →
      ((s.run bound text).2.exitCode = 70 ↔ (s.run bound text).1.report.hasRuntime = true)) := by
  rcases s.run_outcome bound text with ⟨hcode, hstatic⟩ | ⟨hcode, e, hreport⟩ |
    ⟨hcode, e, hreport, hrefuses⟩
  -- a static error is reported alone, so no other one is
  · have hruntime (e) : (s.run bound text).1.report ≠ [.runtime e] := by
      intro h
      simpa [h, Diagnostic.stage?] using hstatic (.runtime e)
    have houtput (e) : (s.run bound text).1.report ≠ [.output e] := by
      intro h
      simpa [h, Diagnostic.stage?] using hstatic (.output e)
    have hflag : (s.run bound text).1.report.hasRuntime = false := by
      rw [Report.hasRuntime, List.any_eq_false]
      intro d hd
      cases d with
      | runtime e => cases hstatic _ hd
      | _ => simp [Diagnostic.isRuntime]
    simp [hcode, hflag, hruntime, houtput]
  · simp [hcode, hreport, Report.hasRuntime, Diagnostic.isRuntime]
  · refine ⟨by simp [hcode, hreport], by simp [hreport, Report.hasRuntime, Diagnostic.isRuntime],
      by simp [hcode, hreport, Report.hasRuntime, Diagnostic.isRuntime], ?_, ?_,
      fun hsink => absurd hrefuses hsink.not_refuses⟩
    · intro e' he'
      rw [hreport] at he'
      cases he'
      exact hrefuses
    · intro capacity fault hwriter hflusher e' he'
      rw [hreport] at he'
      cases he'
      exact hrefuses.limited hwriter hflusher

/-- A new session whose sink has no room. -/
private def closed : Session :=
  start ⟨.empty, .limited (some 0), .always none⟩ (.always 0)

/-- A program that prints into a sink without room ends with exit code 70, but the report tells of
    no error at run time. -/
theorem closed_sink_not_runtime :
    (closed.run 3 "print nil;").2.exitCode = 70 ∧
    (closed.run 3 "print nil;").1.report = [.output .closed] ∧
    (closed.run 3 "print nil;").1.report.hasRuntime = false := by
  decide +kernel

end Session

end Lox
