import Lox.Proofs.FoldedRuns
import Lox.Proofs.MissingSemicolon
import Lox.Proofs.RenameLocal

/-!
# What a `for` means

A `for` is a direct loop: one scope is opened for its initializer, and in this scope the condition
is evaluated before each round, then the body is executed and the increment evaluated. That it is
written with `while` and blocks, with a scope for each round, cannot be observed.

## Key results

- `ForStatement.wellFormed`: the parts of a `for`, as they are read
- `Session.Folds.run`: running a text in two sessions, in the second one directly
- `Session.for_direct`: a `for` means what a direct loop means
-/

namespace Lox

/-! ## What is read -/

/-- The clauses and the body of a `for` that is read from a text, any of the clauses missing. -/
inductive ForStatement :
    (initializer : Option Stmt) → (condition increment : Option Expr) → (body : Stmt) → Prop
  | read {initializer : Option Stmt} {condition increment : Option Expr} {body : Stmt}
      {ending : Ending} {ts₁ ts₂ ts₃ ts₄ : List Token} {n m m₁ m₂ n' : Nat}
      (hinitializer : Initializer initializer n ts₁ m)
      (hcondition : OptionalExpression condition m ts₂ m₁)
      (hincrement : OptionalExpression increment m₁ ts₃ m₂)
      (hbody : (Clause.statement ending body).Derives true m₂ ts₄ n')
      (hspelled : ∀ t ∈ ts₁ ++ (ts₂ ++ (ts₃ ++ ts₄)), t.Spelled) :
      ForStatement initializer condition increment body

namespace ForStatement

variable {initializer : Option Stmt} {condition increment : Option Expr} {body : Stmt}

/-- Its tree is well-formed, and its body declares nothing. -/
theorem wellFormed (h : ForStatement initializer condition increment body) :
    body.declared? = none ∧ (Stmt.forLoop initializer condition increment body).WellFormed := by
  cases h with
  | read hinitializer hcondition hincrement hbody hspelled =>
    simp only [List.forall_mem_append] at hspelled
    obtain ⟨hts₁, hts₂, hts₃, hts₄⟩ := hspelled
    obtain ⟨hdeclared, hwf⟩ := hbody.wellFormed hts₄
    refine ⟨hdeclared, ?_⟩
    exact (Stmt.wellFormed_forLoop (hinitializer.wellFormed hts₁) (hcondition.wellFormed hts₂)
      (hincrement.wellFormed hts₃) hdeclared hwf).2

/-- So is the block that a round is in its tree. -/
theorem wellFormed_round (h : ForStatement initializer condition increment body) :
    ∀ e ∈ increment, Stmt.WellFormedList [body, .expression e] := by
  cases h with
  | read _ _ hincrement hbody hspelled =>
    simp only [List.forall_mem_append] at hspelled
    obtain ⟨-, -, hts₃, hts₄⟩ := hspelled
    exact fun e he => ⟨(hbody.wellFormed hts₄).2, hincrement.wellFormed hts₃ e he, trivial⟩

end ForStatement

/-! ## Sessions -/

namespace Session

/-- Compiles a text and, if it is a program, executes it directly. -/
def runDirect (choice : Choice) (bound : Nat) (s : Session) (text : String) : Session × Status :=
  match Program.compile text s.nextId with
  | (.ok p, nextId) =>
    let action := Direct.program choice bound p.statements
    let machine := s.machine.install (p.directDistances choice)
    (⟨action.after machine, Report.ofRun (action machine), nextId⟩, Status.ofRun (action machine))
  | (.error report, nextId) => (⟨s.machine, report, nextId⟩, .staticError)

/-- The session after several texts have been run, each with a bound. -/
def runAll (s : Session) (runs : List (Nat × String)) : Session :=
  runs.foldl (fun s r => (s.run r.1 r.2).1) s

/-- The session after several texts have been run directly. -/
def runAllDirect (choice : Choice) (s : Session) (runs : List (Nat × String)) : Session :=
  runs.foldl (fun s r => (s.runDirect choice r.1 r.2).1) s

/-- Two sessions in which the same texts have been run, in the second one directly. -/
structure Folds (choice : Choice) (places : List (Option ScopeId)) (programs : List Program)
    (s s' : Session) : Prop where
  agrees : Folding.Agrees choice (UsedIn programs) ⟨s.machine, s'.machine, places⟩
  current : s.machine.current = s.machine.globals
  current' : s'.machine.current = s'.machine.globals
  report : s'.report = s.report
  nextId : s'.nextId = s.nextId
  id_lt : ∀ u, UsedIn programs u → u.reference.id.index < s.nextId
  distances : ∀ id : NodeId, s.nextId ≤ id.index → s.machine.distances.get? id = none
  distances' : ∀ id : NodeId, s.nextId ≤ id.index → s'.machine.distances.get? id = none

namespace Folds

variable {choice : Choice} {places : List (Option ScopeId)} {programs : List Program}
  {s s' : Session}

/-- In a new session nothing has been run. -/
theorem new (h : s.New) (choice : Choice) :
    Folds choice [some ⟨0⟩] [] s s := by
  have hnone : ∀ u, ¬ UsedIn [] u := by
    rintro u ⟨p, hp, -⟩
    cases hp
  -- the globals are the only scope on either side, and correspond to each other
  have hzero : ∀ {e e' : ScopeId}, Folding.At ⟨s.machine, s.machine, [some ⟨0⟩]⟩ e e' →
      e = ⟨0⟩ ∧ e' = ⟨0⟩ := by
    rintro ⟨i⟩ e' he
    cases i with
    | zero => exact ⟨rfl, (Option.some.inj (Option.some.inj he)).symm⟩
    | succ i => simp [Folding.At] at he
  -- what is bound there are host functions, which have no code that could differ
  have hnative : ∀ e name, Option.Rel (Binding.Folds choice (UsedIn [])
      ⟨s.machine, s.machine, [some ⟨0⟩]⟩) (s.machine.scopes.binding? e name)
      (s.machine.scopes.binding? e name) := by
    intro e name
    cases hb : s.machine.scopes.binding? e name with
    | none => exact .none
    | some b =>
      obtain ⟨info, rfl⟩ := h.bare.bindings e name b hb
      exact .some (.value (.native info))
  have hdistances : ∀ id, s.machine.distances.get? id = none := by
    intro id
    rw [h.bare.distances]
    exact Distances.get?_empty id
  refine ⟨⟨h.bare.size.symm, fun {e e'} he => ?_, fun he₁ he₂ => ?_, fun e' he' => ?_,
    fun {e e'} he name => ?_, fun {e} he => ?_, ?_, rfl, fun u hu => absurd hu (hnone u),
    fun u hu => absurd hu (hnone u), ?_, rfl, rfl, h.bare.codeBlind, rfl, rfl⟩, ?_, ?_, rfl, rfl,
    fun u hu => absurd hu (hnone u), fun id _ => hdistances id, fun id _ => hdistances id⟩
  · rw [(hzero he).2]
    show 0 < s.machine.scopes.size
    rw [h.bare.size]
    exact Nat.zero_lt_one
  · rw [(hzero he₁).1, (hzero he₂).1]
  · have he' : e'.index < s.machine.scopes.size := he'
    rw [h.bare.size] at he'
    obtain rfl : e' = ⟨0⟩ := by
      cases e'
      exact congrArg ScopeId.mk (Nat.lt_one_iff.mp he')
    exact ⟨⟨0⟩, rfl⟩
  · obtain ⟨rfl, rfl⟩ := hzero he
    exact hnative ⟨0⟩ name
  · obtain ⟨i⟩ := e
    cases i <;> simp [Folding.Additional] at he
  · show [some ⟨0⟩][s.machine.globals.index]? = some (some s.machine.globals)
    rw [h.bare.globals]
    rfl
  · show Fields.Related _ s.machine.fields s.machine.fields
    rw [h.bare.fields]
    exact ⟨rfl, fun _ => .empty⟩
  · rw [h.bare.current, h.bare.globals]
  · rw [h.bare.current, h.bare.globals]

/-- A program has been accepted in both sessions, and its distances are recorded. -/
theorem accept (h : Folds choice places programs s s') {p : Program} {n : Nat}
    (hp : p.Accepted s.nextId n) (report : Report) :
    Folds choice places (p :: programs) ⟨s.machine.install p.distances, report, n⟩
      ⟨s'.machine.install (p.directDistances choice), report, n⟩ := by
  have hold : ∀ u, UsedIn programs u → UsedIn (p :: programs) u :=
    fun u hu => usedIn_cons.mpr (.inr hu)
  have hle := hp.numbered.le
  refine ⟨h.agrees.install hold (fun u hu => ?_) fun u hu => ?_, h.current, h.current', rfl, rfl,
    fun u hu => ?_, fun id hid => ?_, fun id hid => ?_⟩
  · rcases usedIn_cons.mp hu with hu | hu
    -- a node of the program is new, so its distance comes from the program; others keep theirs
    · have hnew := (hp.bounds hu).1
      exact ⟨hp.get?_distances hu (h.distances _ hnew),
        hp.get?_directDistances choice hu (h.distances' _ hnew)⟩
    · have hlt := h.id_lt u hu
      obtain ⟨hleft, hright⟩ := h.agrees.distances u hu
      exact ⟨(hp.get?_distances_of_lt (.inl hlt)).trans hleft,
        (hp.get?_directDistances_of_lt choice (.inl hlt)).trans hright⟩
  · rcases usedIn_cons.mp hu with hu | hu
    · exact hp.sound u hu
    · exact h.agrees.sound u hu
  · rcases usedIn_cons.mp hu with hu | hu
    · exact (hp.bounds hu).2
    · exact Nat.lt_of_lt_of_le (h.id_lt u hu) hle
  · have hid : n ≤ id.index := hid
    exact (hp.get?_distances_of_lt (.inr hid)).trans (h.distances id (Nat.le_trans hle hid))
  · have hid : n ≤ id.index := hid
    exact (hp.get?_directDistances_of_lt choice (.inr hid)).trans
      (h.distances' id (Nat.le_trans hle hid))

/-- What is left behind by what two machines have done together. -/
private theorem finish (h : Folds choice places programs s s') {p p' : Run Unit}
    (hrun : Folding.Together choice (UsedIn programs) ⟨s.machine, s'.machine, places⟩ p p'
      Folding.Effect) :
    ∃ places', places <+: places' ∧
      Folds choice places' programs ⟨p.after s.machine, Report.ofRun (p s.machine), s.nextId⟩
        ⟨p'.after s'.machine, Report.ofRun (p' s'.machine), s'.nextId⟩ ∧
      Status.ofRun (p' s'.machine) = Status.ofRun (p s.machine) := by
  -- both ends of a run, normal or not, leave machines behind that agree
  have key : ∀ w' : Folding, Folding.Keeps ⟨s.machine, s'.machine, places⟩ w' →
      w'.Agrees choice (UsedIn programs) → ∀ report, Folds choice w'.places programs
        ⟨w'.left, report, s.nextId⟩ ⟨w'.right, report, s'.nextId⟩ := by
    intro w' hkeeps hagrees report
    refine ⟨hagrees, ?_, ?_, rfl, h.nextId, h.id_lt, fun id hid => ?_, fun id hid => ?_⟩
    · exact (hkeeps.current.trans h.current).trans hkeeps.globals.symm
    · exact (hkeeps.current'.trans h.current').trans hkeeps.globals'.symm
    · exact (congrArg (·.get? id) hkeeps.distances).trans (h.distances id hid)
    · exact (congrArg (·.get? id) hkeeps.distances').trans (h.distances' id hid)
  rcases hrun.outcomes with ⟨_, _, w', hp, hp', hkeeps, hagrees, -⟩ | ⟨e, w', hp, hp', hkeeps, hagrees⟩
  · refine ⟨w'.places, hkeeps.places, ?_⟩
    rw [Run.after_of_ok hp, Run.after_of_ok hp', hp, hp']
    exact ⟨key w' hkeeps hagrees _, rfl⟩
  · refine ⟨w'.places, hkeeps.places, ?_⟩
    rw [Run.after_of_error hp, Run.after_of_error hp', hp, hp']
    cases e with
    | runtime e => exact ⟨key w' hkeeps hagrees _, rfl⟩
    | output e => exact ⟨key w' hkeeps hagrees _, rfl⟩
    | exhausted => exact ⟨key w' hkeeps hagrees _, rfl⟩

/-- A text is run in both sessions, in the second one directly. -/
theorem run (h : Folds choice places programs s s') (bound : Nat) (text : String) :
    ∃ places' programs', places <+: places' ∧
      Folds choice places' programs' (s.run bound text).1 (s'.runDirect choice bound text).1 ∧
      (s'.runDirect choice bound text).2 = (s.run bound text).2 := by
  -- both sessions compile the same text to the same program, which then has two distances for each
  -- use
  have hdirect : s'.runDirect choice bound text =
      match Program.compile text s.nextId with
      | (.ok p, nextId) =>
        let action := Direct.program choice bound p.statements
        let machine := s'.machine.install (p.directDistances choice)
        (⟨action.after machine, Report.ofRun (action machine), nextId⟩,
          Status.ofRun (action machine))
      | (.error report, nextId) => (⟨s'.machine, report, nextId⟩, .staticError) := by
    rw [runDirect, h.nextId]
  have hle := Program.le_nextId_compile text s.nextId
  rw [hdirect]
  cases hcompile : Program.compile text s.nextId with
  | mk result n =>
    rw [hcompile] at hle
    cases result with
    | error report =>
      rw [run_of_error hcompile]
      exact ⟨places, programs, List.prefix_refl _, ⟨h.agrees, h.current, h.current', rfl, rfl,
        fun u hu => Nat.lt_of_lt_of_le (h.id_lt u hu) hle,
        fun id hid => h.distances id (Nat.le_trans hle hid),
        fun id hid => h.distances' id (Nat.le_trans hle hid)⟩, rfl⟩
    | ok p =>
      have haccepted := Program.accepted_of_compile hcompile
      have hfolds := h.accept haccepted []
      -- a program starts in the global scope on both sides
      have houtside : Folding.Along choice ⟨s.machine.install p.distances,
          s'.machine.install (p.directDistances choice), places⟩ [] s.machine.current
          s'.machine.current := by
        rw [h.current, h.current']
        exact .outside h.agrees.globals
      rw [run_of_ok hcompile]
      obtain ⟨places', hplaces, hfolds, hstatus⟩ := hfolds.finish
        (Folding.program_together bound hfolds.agrees houtside haccepted.wellFormed
          fun u hu => ⟨p, List.mem_cons_self, hu⟩)
      exact ⟨places', p :: programs, hplaces, hfolds, hstatus⟩

/-- Several texts are run in both sessions. -/
theorem runAll (h : Folds choice places programs s s') (runs : List (Nat × String)) :
    ∃ places' programs', places <+: places' ∧
      Folds choice places' programs' (s.runAll runs) (s'.runAllDirect choice runs) := by
  induction runs generalizing places programs s s' with
  | nil => exact ⟨places, programs, List.prefix_refl _, h⟩
  | cons r runs ih =>
    obtain ⟨places₁, programs₁, hplaces₁, h₁, -⟩ := h.run r.1 r.2
    obtain ⟨places₂, programs₂, hplaces₂, h₂⟩ := ih h₁
    exact ⟨places₂, programs₂, hplaces₁.trans hplaces₂, h₂⟩

end Folds

/-- What two runs have in common of which the second one is direct: the status, the report, the
    output, and all variables and objects in the end. Additional scopes bind nothing. -/
structure RunsDirect (choice : Choice) (run run' : Session × Status) : Prop where
  status : run'.2 = run.2
  report : run'.1.report = run.1.report
  sink : run'.1.machine.sink = run.1.machine.sink
  machines : ∃ places programs,
    Folding.Agrees choice (UsedIn programs) ⟨run.1.machine, run'.1.machine, places⟩

/-- Both machines are at a place in accepted programs where a statement stands. -/
def StandsAt (choice : Choice) (programs : List Program) (w : Folding) (s : Stmt) : Prop :=
  w.Agrees choice (UsedIn programs) ∧ ∃ around,
    w.Along choice around w.left.current w.right.current ∧ ∀ u ∈ s.uses around, UsedIn programs u

/-- Writing a `for` with `while` and blocks preserves its meaning.

    Choose for which increments no scope shall be opened. Texts that are run one after the other do
    the same, whether the loops are executed directly or not: each run has the same status and
    report, prints the same, and leaves the same variables and objects behind.

    Of a `for` with any of its clauses, read from a text, the tree is executed directly as the loop
    of `Direct.forLoop`: with one scope for the initializer, in which the condition is evaluated
    before each round and the increment after each body that does not return. Wherever the `for`
    stands in an accepted program, its tree and this loop print the same, end with the same error or
    the same flow, value included, and leave the same variables and objects behind. The scope that
    is opened for a round of the tree never binds anything, neither then nor later. -/
theorem for_direct (choice : Choice) {natives : List Native}
    (hnatives : ∀ native ∈ natives, native.CodeBlind) (sink : Sink) (clock : Clock) :
    (∀ runs bound text, RunsDirect choice (((startWith natives sink clock).runAll runs).run bound text)
      (((startWith natives sink clock).runAllDirect choice runs).runDirect choice bound text)) ∧
    ∀ initializer condition increment body, ForStatement initializer condition increment body →
      (∀ e ∈ increment, choice body e) → ∀ bound,
      Direct.execute choice (bound + 1) (.forLoop initializer condition increment body) =
        Direct.forLoop choice bound initializer condition increment body ∧
      (∀ programs w,
        StandsAt choice programs w (.forLoop initializer condition increment body) →
        Folding.Together choice (UsedIn programs) w
          (Run.execute (bound + 1) (.forLoop initializer condition increment body))
          (Direct.forLoop choice bound initializer condition increment body)
          (Folding.Ends choice (UsedIn programs))) ∧
      ∀ e ∈ increment, ∀ programs w,
        StandsAt choice programs w (.block [body, .expression e]) →
        ∃ w' : Folding, w.Keeps w' ∧ w'.Agrees choice (UsedIn programs) ∧
          w'.left = Run.after (Run.execute (bound + 1) (.block [body, .expression e])) w.left ∧
          ∀ A w'', w'.Grows w'' → w''.Agrees choice A →
            ∀ name, w''.left.scopes.binding? ⟨w.left.scopes.size⟩ name = none := by
  refine ⟨fun runs bound text => ?_, fun initializer condition increment body hfor hchoice bound => ?_⟩
  · have hnew := (New.start sink clock).foldl_defineNative hnatives
    obtain ⟨places, programs, -, hfolds⟩ := (Folds.new hnew choice).runAll runs
    obtain ⟨places', programs', -, hfolds', hstatus⟩ := hfolds.run bound text
    exact ⟨hstatus, hfolds'.report, hfolds'.agrees.sink, places', programs', hfolds'.agrees⟩
  · obtain ⟨hbody, hwf⟩ := hfor.wellFormed
    have hloop := Direct.execute_forLoop hbody hchoice initializer condition bound
    refine ⟨hloop, fun programs w ⟨hagrees, around, haround, huses⟩ => ?_,
      fun e he programs w ⟨hagrees, around, haround, huses⟩ => ?_⟩
    -- a `for` declares nothing around it, so no surroundings have to be adapted
    · have hdeclared : (Stmt.forLoop initializer condition increment body).declared? = none := by
        cases initializer <;> cases increment <;> rfl
      rw [← hloop]
      exact (Folding.AllTogether.all choice _ _).execute hagrees haround (absurd hdeclared) hwf huses
    -- the block of a round has an increment in it that has been chosen
    · have hbare : choice.isBare [body, .expression e] = true := by
        simp [Choice.isBare, hbody, hchoice e he]
      obtain ⟨w', hafter, hkeeps, hagrees', hadditional⟩ :=
        Folding.exists_additional hagrees haround hbare (hfor.wellFormed_round e he) huses
      refine ⟨w', hkeeps, hagrees', hafter, fun A w'' hgrows hagrees'' name => ?_⟩
      exact hagrees''.additional (hgrows.additional hadditional) name

/-- A loop with all three clauses that prints its variable in one round. -/
private def loopText : String :=
  "for(var i=true;i;i=false)print i;"

private def loopVariable : Token :=
  .name "i" 1

private def loopInitializer : Stmt :=
  .varDecl loopVariable (some (.literal .true))

private def loopCondition : Expr :=
  .var ⟨0⟩ loopVariable

private def loopIncrement : Expr :=
  .assign ⟨2⟩ loopVariable (.literal .false)

private def loopBody : Stmt :=
  .print (.var ⟨3⟩ loopVariable)

private def loopStatement : Stmt :=
  .forLoop (some loopInitializer) (some loopCondition) (some loopIncrement) loopBody

private def loopProgram : Program :=
  ⟨[loopStatement], [(⟨0⟩, 0), (⟨3⟩, 1), (⟨2⟩, 1)]⟩

/-- The text of the loop is accepted. -/
private theorem compile_loopText : Program.compile loopText 0 = (.ok loopProgram, 4) := by
  rfl

/-- Without the scope of the round all references lead to the innermost scope. -/
example : loopProgram.directDistances (fun _ _ => true) = [(⟨0⟩, 0), (⟨3⟩, 0), (⟨2⟩, 0)] := by
  decide +kernel

/-- This is what is read. -/
private theorem loop_read :
    ForStatement (some loopInitializer) (some loopCondition) (some loopIncrement) loopBody := by
  let equal : Token := ⟨.equal, "=", 1⟩
  let semicolon : Token := ⟨.semicolon, ";", 1⟩
  have hvariable (n : Nat) : (Phrase.expression (.var ⟨n⟩ loopVariable)).Derives n [loopVariable]
      (n + 1) := .of_primary (.var rfl)
  have hinitializer : Initializer (some loopInitializer) 0
      [⟨.keyword .var, "var", 1⟩, loopVariable, equal, ⟨.keyword .true, "true", 1⟩, semicolon] 0 :=
    .varDecl (.initialized rfl rfl rfl (.of_primary (.literal rfl)) rfl)
  have hincrement : OptionalExpression (some loopIncrement) 1
      [loopVariable, equal, ⟨.keyword .false, "false", 1⟩] 3 :=
    .some (.assign rfl rfl (.of_primary (.literal rfl)))
  have hbody : (Clause.statement .closed loopBody).Derives true 3
      [⟨.keyword .print, "print", 1⟩, loopVariable, semicolon] 4 :=
    .printStmt rfl (hvariable 3) rfl
  have hname : loopVariable.Spelled := fun k => by cases k <;> decide
  have hword (k : Keyword) : Token.Spelled ⟨.keyword k, k.word, 1⟩ := rfl
  -- the derivations of the four parts, put together
  refine .read hinitializer (.some (hvariable 0)) hincrement hbody ?_
  simp only [List.forall_mem_append, List.forall_mem_cons, List.not_mem_nil, false_imp_iff,
    implies_true, and_true]
  exact ⟨⟨hword .var, hname, trivial, hword .true, trivial⟩, hname, ⟨hname, trivial, hword .false⟩,
    hword .print, hname, trivial⟩

/-- The machines on which it is executed, the second time directly. -/
private def loopStart : Folding :=
  let s := startWith [.clock] .unlimited (.always 0)
  ⟨s.machine.install loopProgram.distances,
    s.machine.install (loopProgram.directDistances fun _ _ => true), [some ⟨0⟩]⟩

/-- The same machines in the scope of the loop. -/
private def loopInside : Folding :=
  let scopes := (loopStart.left.scopes.child ⟨0⟩).1
  let scopes' := (loopStart.right.scopes.child ⟨0⟩).1
  ⟨{ loopStart.left with scopes, current := ⟨1⟩ },
    { loopStart.right with scopes := scopes', current := ⟨1⟩ }, [some ⟨0⟩, some ⟨1⟩]⟩

/-- The loop stands at the top of its program. -/
private theorem loop_stands : StandsAt (fun _ _ => true) [loopProgram] loopStart loopStatement := by
  have hnew := (New.start .unlimited (.always 0)).foldl_defineNative
    (List.forall_mem_singleton.mpr Native.clock_codeBlind)
  have hfolds := (Folds.new hnew fun _ _ => true).accept
    (Program.accepted_of_compile compile_loopText) []
  refine ⟨hfolds.agrees, [], .outside rfl, fun u hu => ⟨loopProgram, List.mem_cons_self, ?_⟩⟩
  exact List.mem_append_left _ hu

/-- The round stands in the scope of the loop. -/
private theorem round_stands : StandsAt (fun _ _ => true) [loopProgram] loopInside
    (.block [loopBody, .expression loopIncrement]) := by
  obtain ⟨hagrees, -⟩ := loop_stands
  have hglobal : ScopeId.index ⟨0⟩ < loopStart.left.scopes.size := by decide
  have hglobal' : ScopeId.index ⟨0⟩ < loopStart.right.scopes.size := by decide
  obtain ⟨-, hchild, hat⟩ := hagrees.child hglobal hglobal'
  refine ⟨hchild.in_ ⟨1⟩ ⟨1⟩, [⟨.block [loopInitializer, .forLoop none (some loopCondition)
    (some loopIncrement) loopBody], ["i"]⟩], .both rfl hat rfl rfl (.outside rfl), fun u hu => ?_⟩
  -- behind the declaration, and inside the loop behind its condition
  have hloop := List.mem_append_left [] (List.mem_append_right (loopCondition.uses
    [⟨.block [loopInitializer, .forLoop none (some loopCondition) (some loopIncrement) loopBody],
      ["i"]⟩] none) hu)
  exact ⟨loopProgram, List.mem_cons_self, List.mem_append_left _ (List.mem_append_right _ hloop)⟩

/-- Its loop is executed once. Both ways it prints the same, and nothing is bound in the scope of
    the round. -/
theorem for_direct_once :
    (∀ native ∈ [Native.clock], native.CodeBlind) ∧
    RunsDirect (fun _ _ => true)
      (((startWith [.clock] .unlimited (.always 0)).runAll []).run 9 loopText)
      (((startWith [.clock] .unlimited (.always 0)).runAllDirect (fun _ _ => true) []).runDirect
        (fun _ _ => true) 9 loopText) ∧
    (((startWith [.clock] .unlimited (.always 0)).runAll []).run 9 loopText).1.machine.sink.written =
      "true\n".toUTF8 ∧
    Folding.Together (fun _ _ => true) (UsedIn [loopProgram]) loopStart (Run.execute 9 loopStatement)
      (Direct.forLoop (fun _ _ => true) 8 (some loopInitializer) (some loopCondition)
        (some loopIncrement) loopBody)
      (Folding.Ends (fun _ _ => true) (UsedIn [loopProgram])) ∧
    ∃ w' : Folding, loopInside.Keeps w' ∧ w'.Agrees (fun _ _ => true) (UsedIn [loopProgram]) ∧
      w'.left = Run.after (Run.execute 9 (.block [loopBody, .expression loopIncrement]))
        loopInside.left ∧
      ∀ A w'', w'.Grows w'' → w''.Agrees (fun _ _ => true) A →
        ∀ name, w''.left.scopes.binding? ⟨loopInside.left.scopes.size⟩ name = none := by
  have hnatives : ∀ native ∈ [Native.clock], native.CodeBlind :=
    List.forall_mem_singleton.mpr Native.clock_codeBlind
  -- the general result, for the clock as the only host function
  obtain ⟨hruns, hloops⟩ := for_direct (fun _ _ => true) hnatives .unlimited (.always 0)
  obtain ⟨-, hloop, hround⟩ := hloops _ _ _ _ loop_read (fun _ _ => rfl) 8
  refine ⟨hnatives, hruns [] 9 loopText, ?_, ?_, ?_⟩
  · decide +kernel
  · exact hloop [loopProgram] loopStart loop_stands
  · exact hround loopIncrement rfl [loopProgram] loopInside round_stands

end Session

end Lox
