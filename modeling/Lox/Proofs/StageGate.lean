import Lox.Proofs.Actions

/-!
# The stages of a run

A text is scanned, parsed, resolved and executed, and each stage only begins if the one before has
found nothing wrong. So the report of a run holds what one static stage found, and then nothing has
happened to the machine, or it holds the one error that ended the execution, or nothing.

## Key results

- `Session.compile_cases`: what compiling a text reports and does
- `Session.execute_cases`: what executing statements reports
- `Session.run_gate`: what a run reports and does
-/

namespace Lox

/-- The stages before a program is executed. -/
inductive StaticStage where
  | scanning
  | parsing
  | resolving
  deriving DecidableEq, Repr

namespace StaticStage

/-- How many stages come before. -/
def position : StaticStage → Nat
  | scanning => 0
  | parsing => 1
  | resolving => 2

/-- What a stage finds wrong with a text, given the number of nodes before it. A stage works with
    whatever the stages before it have made of the text. -/
def findings (text : String) (nextId : Nat) : StaticStage → Report
  | scanning => (Scan.ofText text).errors.map .lexical
  | parsing => (Parsed.ofTokens (Scan.ofText text).tokens nextId).errors.map .syntactic
  | resolving =>
    (Resolution.ofProgram
      (Parsed.ofTokens (Scan.ofText text).tokens nextId).statements).errors.map .scoping

/-- The stage is the first that finds something wrong. -/
structure IsFirst (text : String) (nextId : Nat) (stage : StaticStage) : Prop where
  finds : findings text nextId stage ≠ []
  earlier : ∀ other, other.position < stage.position → findings text nextId other = []

/-- No stage finds anything wrong. -/
def NoneFinds (text : String) (nextId : Nat) : Prop :=
  ∀ stage, findings text nextId stage = []

end StaticStage

/-- The stage to which an error belongs; errors of the execution belong to none. -/
def Diagnostic.stage? : Diagnostic → Option StaticStage
  | lexical _ => some .scanning
  | syntactic _ => some .parsing
  | scoping _ => some .resolving
  | runtime _ => none
  | output _ => none

/-- A stage only finds errors of its own kind. -/
theorem StaticStage.stage?_of_mem_findings {text : String} {nextId : Nat} {stage : StaticStage}
    {d : Diagnostic} (h : d ∈ findings text nextId stage) : d.stage? = some stage := by
  cases stage with
  | scanning | parsing | resolving =>
    obtain ⟨e, -, rfl⟩ := List.mem_map.mp h
    rfl

namespace Session

/-- A text is a program, or the report holds what the first stage found that found something. -/
theorem compile_cases (s : Session) (text : String) :
    (∃ program nextId,
      s.compile text = (⟨s.machine.install program.distances, [], nextId⟩, some program) ∧
      StaticStage.NoneFinds text s.nextId) ∨
    ∃ stage nextId,
      s.compile text = (⟨s.machine, StaticStage.findings text s.nextId stage, nextId⟩, none) ∧
      StaticStage.IsFirst text s.nextId stage := by
  unfold compile Program.compile
  dsimp only
  -- a stage is only asked if those before it have found nothing
  by_cases hscan : (Scan.ofText text).errors = []
  · by_cases hparse : (Parsed.ofTokens (Scan.ofText text).tokens s.nextId).errors = []
    · by_cases hresolve : (Resolution.ofProgram
          (Parsed.ofTokens (Scan.ofText text).tokens s.nextId).statements).errors = []
      · refine .inl ⟨_, _, by simp only [hscan, hparse, hresolve]; rfl, fun stage => ?_⟩
        cases stage <;> simp [StaticStage.findings, hscan, hparse, hresolve]
      · refine .inr ⟨.resolving, _, by simp [hscan, hparse, hresolve]; exact ⟨rfl, rfl⟩, ?_, ?_⟩
        · simpa [StaticStage.findings] using hresolve
        · intro other hlt
          cases other with
          | scanning => simp [StaticStage.findings, hscan]
          | parsing => simp [StaticStage.findings, hparse]
          | resolving => exact absurd hlt (Nat.lt_irrefl _)
    · refine .inr ⟨.parsing, _, by simp [hscan, hparse]; exact ⟨rfl, rfl⟩, ?_, ?_⟩
      · simpa [StaticStage.findings] using hparse
      · intro other hlt
        cases other with
        | scanning => simp [StaticStage.findings, hscan]
        | parsing | resolving => simp [StaticStage.position] at hlt
  · refine .inr ⟨.scanning, _, by simp [hscan]; exact ⟨rfl, rfl⟩, ?_, ?_⟩
    · simpa [StaticStage.findings] using hscan
    · intro other hlt
      simp [StaticStage.position] at hlt

/-- An execution adds the error to the report that ends it, and nothing else. -/
theorem execute_cases (bound : Nat) (s : Session) (statements : List Stmt) :
    ((s.execute bound statements).2 = .ok ∧ (s.execute bound statements).1.report = s.report) ∨
    ((s.execute bound statements).2 = .runtimeError ∧
      ∃ d, (s.execute bound statements).1.report = s.report ++ [d] ∧
        ((∃ e, d = .runtime e) ∨ ∃ e, d = .output e)) ∨
    ((s.execute bound statements).2 = .exhausted ∧
      (s.execute bound statements).1.report = s.report) := by
  rw [execute_eq]
  cases Run.program bound statements s.machine with
  | ok a m => exact .inl ⟨rfl, List.append_nil _⟩
  | error e m =>
    cases e with
    | runtime e => exact .inr (.inl ⟨rfl, .runtime e, rfl, .inl ⟨e, rfl⟩⟩)
    | output e => exact .inr (.inl ⟨rfl, .output e, rfl, .inr ⟨e, rfl⟩⟩)
    | exhausted => exact .inr (.inr ⟨rfl, List.append_nil _⟩)

/-- What a run reports, whatever the report held before.

    If it ends well, the report is empty. If the text is no program, the report holds what the first
    static stage found that found something, which are errors of this one kind; nothing was written,
    and the machine is what it was. If the run fails, the report holds the one error that ended it,
    of the running program or of its output, and no static stage found anything. Only a run that
    used up its bound ends in another way, and it reports nothing. -/
theorem run_gate (bound : Nat) (s : Session) (text : String) :
    ((s.run bound text).2 = .ok ∧ (s.run bound text).1.report = [] ∧
      StaticStage.NoneFinds text s.nextId) ∨
    ((s.run bound text).2 = .staticError ∧ (s.run bound text).1.report ≠ [] ∧
      (∃ stage, StaticStage.IsFirst text s.nextId stage ∧
        (s.run bound text).1.report = StaticStage.findings text s.nextId stage ∧
        ∀ d ∈ (s.run bound text).1.report, d.stage? = some stage) ∧
      (s.run bound text).1.machine = s.machine) ∨
    ((s.run bound text).2 = .runtimeError ∧
      (∃ d, (s.run bound text).1.report = [d] ∧ ((∃ e, d = .runtime e) ∨ ∃ e, d = .output e)) ∧
      StaticStage.NoneFinds text s.nextId) ∨
    ((s.run bound text).2 = .exhausted ∧ (s.run bound text).1.report = [] ∧
      StaticStage.NoneFinds text s.nextId) := by
  rw [run_eq]
  -- a program is executed with an empty report, so what is in it afterwards ended the run
  rcases s.compile_cases text with ⟨program, nextId, heq, hnone⟩ | ⟨stage, nextId, heq, hfirst⟩
  · rw [heq]
    dsimp only
    rcases execute_cases bound ⟨s.machine.install program.distances, [], nextId⟩
        program.statements with ⟨hstatus, hreport⟩ | ⟨hstatus, d, hreport, hd⟩ | ⟨hstatus, hreport⟩
    · exact .inl ⟨hstatus, hreport, hnone⟩
    · exact .inr (.inr (.inl ⟨hstatus, ⟨d, hreport, hd⟩, hnone⟩))
    · exact .inr (.inr (.inr ⟨hstatus, hreport, hnone⟩))
  · rw [heq]
    refine .inr (.inl ⟨rfl, hfirst.finds, ⟨stage, hfirst, rfl, fun d hd => ?_⟩, rfl⟩)
    exact StaticStage.stage?_of_mem_findings hd

end Session

end Lox
