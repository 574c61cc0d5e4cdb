import Lox.Proofs.Constructors
import Lox.Proofs.OrderlyRuns

/-!
# `return` leaves the nearest call

The notes of every run of a program are orderly. So a `return` ends the innermost activation,
whatever blocks, branches and loops it stands in: nothing more is done in it, its call yields what
has been returned, and it goes on behind the call expression. What initializers yield is told by the
chronicle.

## Key results

- `Session.Told.answers_instance`: what initializers yield
- `Session.Told.return_leaves_call`: what is noted in the runs of a session
-/

namespace Lox

/-! ## Initializers -/

/-- An entry and those before it. -/
theorem Happened.suffix {entries : List Entry} {event : Happening} (h : Happened entries event) :
    ∃ x earlier, x :: earlier <:+ entries ∧ x.event = event := by
  obtain ⟨x, hx, hevent⟩ := h
  obtain ⟨later, earlier, rfl⟩ := List.mem_iff_append.mp hx
  exact ⟨x, earlier, List.suffix_append later _, hevent⟩

/-- The method that is found as `init` is an initializer. -/
theorem Moment.isInitializer_of_findMethod? {w : Watch} {entries : List Entry}
    (h : Moment w entries) {cls : Class} (hcls : Seen entries (.class_ cls)) {initializer : Closure}
    (hfound : cls.findMethod? "init" = some initializer) : initializer.isInitializer = true := by
  obtain ⟨d, hd, hmethod⟩ := h.owner_of_findMethod? hcls hfound
  have hdeclared := h.declaredIn hd
  have hfind := hdeclared.method? "init"
  rw [hmethod] at hfind
  have hinit : initializer.declaration.name.lexeme = "init" := by
    simpa using List.find?_some (Eq.symm hfind : List.find? _ _ = some initializer.declaration)
  simpa [hinit] using (hdeclared.hasMethod "init" initializer hmethod).isInitializer

/-- The notes up to a note, and up to the last one. -/
theorem Journal.At.split {j : Journal} {stack : List Frame} {phase : Phase} (h : j.At stack phase)
    {earlier later : List Note} {n : Note} (hstory : j.story = earlier ++ n :: later) :
    Orderly j.chronicle.entries (later.reverse ++ n :: earlier.reverse) stack phase ∧
      ∃ stack' phase', Orderly j.chronicle.entries (n :: earlier.reverse) stack' phase' := by
  unfold At at h
  rw [notes_of_story hstory] at h
  exact ⟨h, h.of_append⟩

/-- What is noted of `return` and of the ends of calls. -/
structure Journal.Unwinds (j : Journal) : Prop where
  /-- A `return` is executed in an activation of a function. Then no statement is executed in this
      activation any more, and no round of a loop begins. -/
  exits : ∀ {earlier later : List Note} {at_ : Option Nat} {keyword : Token} {value : Option Expr},
    j.story = earlier ++ .executes at_ (.ret keyword value) :: later →
    (∃ k, at_ = some k) ∧ ∀ n ∈ later, (∀ s, n ≠ .executes at_ s) ∧ n ≠ .loops at_
  /-- When it has its value, which is `nil` if there is no expression, the next is that the
      activation ends. Initializers apart, its call yields this value. -/
  returns : ∀ {earlier later : List Note} {at_ : Option Nat} {v : Value},
    j.story = earlier ++ .returns at_ v :: later →
    ∃ k keyword value f result rest, at_ = some k ∧
      .executes at_ (.ret keyword value) ∈ earlier ∧ (value = none → v = .nil) ∧
      later = .leaves k f result :: rest ∧ (f.isInitializer = false → result = v)
  /-- When an activation has ended, the next is that it goes on, with what has been yielded, behind
      the call expression from which the activation has begun. Nothing is done in it any more. -/
  leaves : ∀ {earlier later : List Note} {k : Nat} {f : Closure} {result : Value},
    j.story = earlier ++ .leaves k f result :: later →
    (∃ site rest, later = .goesOn site result :: rest ∧ .enters k site f ∈ earlier) ∧
      ∀ n ∈ later, n.activation? ≠ some k
  /-- A function yields what it has returned just before, or `nil` if no `return` has been
      executed. -/
  yields : ∀ {earlier later : List Note} {k : Nat} {f : Closure} {result : Value},
    j.story = earlier ++ .leaves k f result :: later → f.isInitializer = false →
    (∃ before, earlier = before ++ [.returns (some k) result]) ∨
      (∀ keyword value, .executes (some k) (.ret keyword value) ∉ earlier) ∧ result = .nil
  /-- An initializer yields the instance to which it is bound. -/
  instances : ∀ {earlier later : List Note} {k : Nat} {f : Closure} {result : Value},
    j.story = earlier ++ .leaves k f result :: later → f.isInitializer = true →
    ∃ method id cls, result = .instance_ id cls ∧
      Happened j.chronicle.entries (.binds method (.instance_ id cls) f)

namespace Session.Told

variable {s : Session} {c : Chronicle} {programs : List Program}

/-- An initializer yields the instance to which it is bound. -/
theorem answers_instance (h : Told s c programs) {f : Closure} (hf : f.isInitializer = true)
    {arguments : List Value} {result : Value} {since : Nat}
    (hanswers : Happened c.entries (.answers (.function f) arguments result since)) :
    ∃ method id cls, result = .instance_ id cls ∧
      Happened c.entries (.binds method (.instance_ id cls) f) := by
  obtain ⟨x, earlier, hsuffix, hevent⟩ := hanswers.suffix
  obtain ⟨inside, first, before, rfl, -, -, hseen, hmoment, houtcome⟩ := h.began hsuffix hevent
  have hbefore : before <:+ c.entries := by
    refine List.IsSuffix.trans ?_ ((List.suffix_cons x _).trans hsuffix)
    exact (List.suffix_cons first before).trans (List.suffix_append inside _)
  rcases hseen with ⟨acts, hcloses⟩ | ⟨method, this, hbinds⟩
  · -- a function that is declared as such is no initializer
    have hclosed := (hmoment.closedIn (hcloses.mono (List.suffix_cons _ _))).isInitializer
    rw [hf] at hclosed
    cases hclosed
  · have hbound := hmoment.boundTo (hbinds.mono (List.suffix_cons _ _))
    obtain ⟨id, cls, rfl, -⟩ := hbound.instance_
    obtain ⟨d, name, hd, hmethod⟩ := hbound.owner
    have hinit := ((hmoment.declaredIn hd).hasMethod name method hmethod).isInitializer
    have hname : f.name = "init" := by
      rw [hbound.eq] at hf ⊢
      exact of_decide_eq_true (hinit.symm.trans hf)
    exact ⟨method, id, cls, houtcome method _ hbinds hname, hbinds.mono hbefore⟩

/-- The new instance with which the call of a class goes on is what its initializer has yielded. -/
theorem eq_of_constructs (h : Told s c programs) {f : Closure} {this : Value}
    (hconstructs : Constructs c.entries this f) {arguments : List Value} {result : Value}
    {since : Nat} (hanswers : Happened c.entries (.answers (.function f) arguments result since)) :
    this = result := by
  obtain ⟨cls, initializer, values, hcalls, hfound, hbinds⟩ := hconstructs
  obtain ⟨x, earlier, hsuffix, hevent⟩ := hcalls.suffix
  obtain ⟨hfollows, hmoment⟩ := h.entry hsuffix
  unfold Entry.Follows at hfollows
  rw [hevent] at hfollows
  have hcls : Seen c.entries (.class_ cls) :=
    hfollows.1.mono ((List.suffix_cons x earlier).trans hsuffix)
  -- the method that has been bound is found as `init`, so that what is called is an initializer
  have hbound := h.sound.moment.boundTo hbinds
  have hfound := h.sound.moment.isInitializer_of_findMethod? hcls hfound
  have hinit : f.isInitializer = true := by
    rw [hbound.eq]
    exact hfound
  obtain ⟨method, id, cls', rfl, hbinds'⟩ := h.answers_instance hinit hanswers
  -- in its scope `this` is bound only once
  have hbinding := (h.sound.moment.boundTo hbinds').binding
  rw [hbound.binding] at hbinding
  cases hbinding
  rfl

/-- Orderly notes beside the chronicle of a session. -/
theorem unwinds (h : Told s c programs) {j : Journal} (hc : j.chronicle = c) {stack : List Frame}
    (hj : j.At stack .runs) : j.Unwinds := by
  subst hc
  -- the orderly notes are in reverse, so what comes later in the story is in front
  refine ⟨fun hstory => ?_, fun hstory => ?_, fun hstory => ?_, fun hstory hf => ?_,
    fun hstory hf => ?_⟩
  · obtain ⟨hall, _, _, hnow⟩ := hj.split hstory
    obtain ⟨k, rfl⟩ := hnow.of_exits
    have hafter := (List.pairwise_append.mp hall.none_after_exits).2.2
    exact ⟨⟨k, rfl⟩, fun n hn => hafter n (List.mem_reverse.mpr hn) _ List.mem_cons_self k _ _ rfl⟩
  · obtain ⟨hall, _, _, hnow⟩ := hj.split hstory
    obtain ⟨_, keyword, value, rfl, hexits, hv⟩ := hnow.exited_of_returns
    obtain ⟨k, f, result, rest, hk, hlater, hresult⟩ := hall.after_returns
    refine ⟨k, keyword, value, f, result, rest.reverse, hk, List.mem_reverse.mp hexits, hv, ?_,
      hresult⟩
    simpa using congrArg List.reverse hlater
  · obtain ⟨hall, _, _, hnow⟩ := hj.split hstory
    obtain ⟨-, arguments, since, hanswers⟩ := hnow.result_of_leaves
    obtain ⟨site, v, rest, hlater, hv, henters⟩ := hall.after_leaves
    have hyields : v = _ := hv.elim id fun hconstructs => h.eq_of_constructs hconstructs hanswers
    have hafter := (List.pairwise_append.mp hall.none_after_leaves).2.2
    refine ⟨⟨site, rest.reverse, ?_, List.mem_reverse.mp henters⟩, fun n hn =>
      hafter n (List.mem_reverse.mpr hn) _ List.mem_cons_self _ _ _ rfl⟩
    rw [hyields] at hlater
    simpa using congrArg List.reverse hlater
  · obtain ⟨_, _, _, hnow⟩ := hj.split hstory
    rcases hnow.result_of_leaves.1 with ⟨v, before, hearlier, hresult⟩ | ⟨hnone, hresult⟩
    · rw [hresult hf]
      exact .inl ⟨before.reverse, by simpa using congrArg List.reverse hearlier⟩
    · exact .inr ⟨fun keyword value hr => hnone keyword value (List.mem_reverse.mpr hr), hresult hf⟩
  · obtain ⟨_, _, _, hnow⟩ := hj.split hstory
    obtain ⟨-, arguments, since, hanswers⟩ := hnow.result_of_leaves
    exact h.answers_instance hf hanswers

/-- `return` in every run of a session.

    Wherever it stands in blocks, branches and loops, a `return` that is executed leaves the
    activation of the function in which it is executed, and no other: no statement and no round of a
    loop of it is executed any more. When it has its value, the activation ends, its call yields
    this value, and it goes on behind the call expression. Without a `return` the call yields `nil`,
    and the call of an initializer always yields its instance. In a run that is not aborted every
    `return` has its value. Outside of functions no statement ends as one that returns. The journal
    is one of the run of the session. -/
theorem return_leaves_call (h : Told s c programs) {p : Program} (hp : p ∈ programs) (bound : Nat) :
    let run := Journaled.program bound p.statements ⟨c, []⟩
    (Journal.after run).Unwinds ∧
    (∀ j, run = .ok () j → ∀ k keyword value, .executes (some k) (.ret keyword value) ∈ j.story →
      ∃ v, .returns (some k) v ∈ j.story) ∧
    (∀ statement ∈ p.statements, ∀ n m flow m', Run.execute n statement m = .ok flow m' →
      flow = .normal) ∧
    Act.forget Journal.chronicle run = Logged.program bound p.statements c ∧
    ∀ bound statements,
      (Logged.program bound statements).Erases (Watched.program bound statements) ∧
      (Watched.program bound statements).Erases (Run.program bound statements) := by
  intro run
  have hwithout := h.withoutReturn hp
  -- the journal starts empty, outside of all functions
  have hstart : Journal.At ⟨c, []⟩ [] .runs := Orderly.start
  have hleads := Journaled.program_leads bound hstart hwithout
  have hnext := Told.execute bound hp h
  refine ⟨?_, fun j hrun k keyword value hr => ?_, fun statement hmem n m flow m' hexecute => ?_,
    hleads.forget_eq, fun bound statements =>
      ⟨Logged.program_erases bound statements, Watched.program_erases bound statements⟩⟩
  · obtain ⟨hchronicle, stack, hj⟩ := hleads.after
    exact hnext.unwinds hchronicle hj
  -- a run that ends well ends outside of all functions, so each `return` is behind it
  · have houtcome := hleads.outcome
    rw [show Journaled.program bound p.statements ⟨c, []⟩ = .ok () j from hrun] at houtcome
    obtain ⟨v, hreturns⟩ := Orderly.returned_of_exited houtcome.2 (List.mem_reverse.mp hr)
    exact ⟨v, List.mem_reverse.mpr hreturns⟩
  · exact Run.execute_normal (Stmt.withoutReturnList_iff.mp hwithout statement hmem) hexecute

private def loopText : String :=
  "fun f()\x7bwhile(true)return true;\x7df();"

private def loopProgram : Program :=
  ⟨[.funDecl ⟨.name "f" 1, [], [.loop (.literal .true)
      (.ret ⟨.keyword .return_, "return", 1⟩ (some (.literal .true)))]⟩,
    .expression (.call (.var ⟨0⟩ (.name "f" 1)) ⟨.rightParen, ")", 1⟩ [])], []⟩

private def loopChronicle : Chronicle :=
  .goOn ⟨⟨(Session.start .unlimited (.always 0)).machine, fun _ => [], []⟩, []⟩
    ((Session.start .unlimited (.always 0)).compile loopText).1.machine

/-- The loop is left with the value, which is what the call yields. -/
theorem return_leaves_loop :
    Told ((Session.start .unlimited (.always 0)).compile loopText).1 loopChronicle [loopProgram] ∧
    loopProgram ∈ [loopProgram] ∧
    (Journal.after
      (Journaled.program 9 loopProgram.statements ⟨loopChronicle, []⟩)).story.filterMap (fun
      | .returns k v => some (k, v.text)
      | .leaves k _ result => some (some k, result.text)
      | .goesOn site v => some (site.activation, v.text)
      | _ => none) = [(some 2, "true"), (some 2, "true"), (none, "true")] ∧
    (Journal.after (Journaled.program 9 loopProgram.statements ⟨loopChronicle, []⟩)).Unwinds := by
  have hcompile : ((Session.start .unlimited (.always 0)).compile loopText).2 = some loopProgram := rfl
  have htold := Told.compile loopText (Told.start .unlimited (.always 0))
  rw [hcompile] at htold
  have hmem : loopProgram ∈ [loopProgram] := List.mem_cons_self
  exact ⟨htold, hmem, by decide +kernel, (return_leaves_call htold hmem 9).1⟩

end Session.Told

end Lox
