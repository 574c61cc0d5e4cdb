import Lox.Proofs.Told

/-!
# Constructors and the arguments of calls

Every call gets as many arguments as what is called takes, whatever it is and wherever the call
comes from. A class that is called yields a new instance of itself, and a method named `init` yields
the instance to which it is bound, however its body ends.

## Key results

- `Session.Told.calls_fit`: what the chronicle of a session says of its calls
-/

namespace Lox

namespace Moment

variable {w : Watch} {entries : List Entry} {method method' bound : Closure} {this this' : Value}

/-- The flag of a bound method is the one that its class gave it. -/
theorem isInitializer_of_binds (h : Moment w entries)
    (hbinds : Happened entries (.binds method this bound)) :
    bound.isInitializer = decide (bound.name = "init") := by
  have hbound := h.boundTo hbinds
  obtain ⟨d, name, hd, hmethod⟩ := hbound.owner
  rw [hbound.eq]
  exact ((h.declaredIn hd).hasMethod name method hmethod).isInitializer

/-- A method is bound to one instance only: the one that is `this` in its scope. -/
theorem eq_of_binds (h : Moment w entries) (hbinds : Happened entries (.binds method this bound))
    (hbinds' : Happened entries (.binds method' this' bound)) : this = this' := by
  have hthis := (h.boundTo hbinds).binding
  rw [(h.boundTo hbinds').binding] at hthis
  cases hthis
  rfl

end Moment

namespace Session.Told

variable {s : Session} {c : Chronicle} {programs : List Program}

/-- A call that has ended is a call that began, and the callee had been seen by then. -/
theorem began (h : Told s c programs) {x : Entry} {earlier : List Entry}
    (hsuffix : x :: earlier <:+ c.entries) {callee result : Value} {arguments : List Value}
    {since : Nat} (hevent : x.event = .answers callee arguments result since) :
    ∃ inside first before, earlier = inside ++ first :: before ∧ before.length = since ∧
      first.event = .calls callee arguments ∧ Seen before callee ∧
      Moment first.watch (first :: before) ∧ CallOutcome inside before arguments result callee := by
  obtain ⟨hfollows, -⟩ := h.entry hsuffix
  unfold Entry.Follows at hfollows
  rw [hevent] at hfollows
  obtain ⟨-, inside, first, before, hearlier, hlength, hcalls, houtcome⟩ := hfollows
  -- the entry of the call is one of the chronicle, so it had its moment, too
  have hfirst : first :: before <:+ c.entries := by
    refine List.IsSuffix.trans ?_ ((List.suffix_cons x earlier).trans hsuffix)
    rw [hearlier]
    exact List.suffix_append inside _
  obtain ⟨hfollows, hmoment⟩ := h.entry hfirst
  unfold Entry.Follows at hfollows
  rw [hcalls] at hfollows
  exact ⟨inside, first, before, hearlier, hlength, hcalls, hfollows.1, hmoment, houtcome⟩

/-- Calls in every session.

    Each call, be it of a host function, a function, a bound method or a class, and also of the
    initializer to which the call of a class goes on, gets as many arguments as are taken. A
    function that has been called is declared as such or a method bound to an instance; and whatever
    method named `init` has been bound to an instance, a call of it yields this instance. The call
    of a class yields an instance of this class that has not been there when the call began and is
    made first of all in it; no instance is made twice. The initializer that the class has or
    inherits is bound to the new instance and called with the arguments. The chronicle is one of the
    runs of the session. -/
theorem calls_fit (h : Told s c programs) :
    (∀ x earlier, x :: earlier <:+ c.entries →
      (∀ callee arguments, x.event = .calls callee arguments →
        callee.arity? = some arguments.length) ∧
      (∀ f arguments result since, x.event = .answers (.function f) arguments result since →
        ((∃ acts, Happened earlier (.closes f acts) ∧ f.isInitializer = false) ∨
          ∃ method id cls, Happened earlier (.binds method (.instance_ id cls) f) ∧
            Happened earlier (.makes (.instance_ id cls)) ∧
            f.isInitializer = decide (f.name = "init") ∧
            (f.name = "init" → result = .instance_ id cls)) ∧
        ∀ method this, Happened earlier (.binds method this f) → f.name = "init" →
          result = this) ∧
      (∀ cls arguments result since, x.event = .answers (.class_ cls) arguments result since →
        ∃ id afterwards first call before,
          earlier = afterwards ++ first :: call :: before ∧ before.length = since ∧
          call.event = .calls (.class_ cls) arguments ∧ first.event = .makes result ∧
          result = .instance_ id cls ∧
          (∀ other, ¬ Happened before (.makes (.instance_ id other))) ∧
          ∀ initializer, cls.findMethod? "init" = some initializer →
            ∃ bound, Happened afterwards (.binds initializer result bound) ∧
              Happened afterwards (.calls (.function bound) arguments)) ∧
      ∀ id cls, x.event = .makes (.instance_ id cls) →
        ∀ other, ¬ Happened earlier (.makes (.instance_ id other))) ∧
    ∀ bound statements, (Logged.program bound statements).Erases (Watched.program bound statements) ∧
      (Watched.program bound statements).Erases (Run.program bound statements) := by
  refine ⟨fun x earlier hsuffix => ⟨?_, ?_, ?_, ?_⟩, fun bound statements =>
    ⟨Logged.program_erases bound statements, Watched.program_erases bound statements⟩⟩
  · intro callee arguments hevent
    obtain ⟨hfollows, -⟩ := h.entry hsuffix
    unfold Entry.Follows at hfollows
    rw [hevent] at hfollows
    exact hfollows.2
  · intro f arguments result since hevent
    obtain ⟨inside, first, before, rfl, -, hcalls, hseen, hmoment, houtcome⟩ :=
      h.began hsuffix hevent
    have hbefore : before <:+ inside ++ first :: before :=
      (List.suffix_cons first before).trans (List.suffix_append inside _)
    have hnow := (h.entry hsuffix).2
    -- a function that has been seen was declared as such, or it is a bound method
    rcases hseen with ⟨acts, hcloses⟩ | ⟨method, this, hbinds⟩
    · have hclosed := hmoment.closedIn (hcloses.mono (List.suffix_cons _ _))
      refine ⟨.inl ⟨acts, hcloses.mono hbefore, hclosed.isInitializer⟩,
        fun method this hbinds hname => ?_⟩
      -- a declared function is no initializer, and so it is not the method
      have hinit := hnow.isInitializer_of_binds (hbinds.mono (List.suffix_cons _ _))
      rw [hclosed.isInitializer, hname] at hinit
      cases hinit
    · have hbound := hmoment.boundTo (hbinds.mono (List.suffix_cons _ _))
      obtain ⟨id, cls, rfl, hmade⟩ := hbound.instance_
      have hmade : Happened before (.makes (.instance_ id cls)) := hmade.of_cons (by simp [hcalls])
      refine ⟨.inr ⟨method, id, cls, hbinds.mono hbefore, hmade.mono hbefore,
        hmoment.isInitializer_of_binds (hbinds.mono (List.suffix_cons _ _)),
        houtcome method _ hbinds⟩, fun method' this' hbinds' hname => ?_⟩
      rw [houtcome method _ hbinds hname]
      exact hnow.eq_of_binds ((hbinds.mono hbefore).mono (List.suffix_cons _ _))
        (hbinds'.mono (List.suffix_cons _ _))
  · intro cls arguments result since hevent
    obtain ⟨inside, call, before, rfl, hlength, hcalls, -, -, houtcome⟩ := h.began hsuffix hevent
    -- the outcome is told from the first thing that happened in the call
    obtain ⟨id, afterwards, first, hresult, rfl, hmakes, hnew, hinit⟩ := houtcome
    refine ⟨id, afterwards, first, call, before, by simp, hlength, hcalls, hmakes, hresult, hnew,
      fun initializer hfound => ?_⟩
    obtain ⟨bound, hbinds, hcalled⟩ := hinit initializer hfound
    refine ⟨bound, hbinds.of_append_singleton (by simp [hmakes]),
      hcalled.of_append_singleton (by simp [hmakes])⟩
  · intro id cls hevent other
    obtain ⟨hfollows, -⟩ := h.entry hsuffix
    unfold Entry.Follows at hfollows
    rw [hevent] at hfollows
    exact hfollows other

private def initText : String :=
  "class A\x7binit()\x7b\x7d\x7dA();"

private def initProgram : Program :=
  ⟨[.classDecl ⟨.name "A" 1, none, [⟨.name "init" 1, [], []⟩]⟩,
    .expression (.call (.var ⟨0⟩ (.name "A" 1)) ⟨.rightParen, ")", 1⟩ [])], []⟩

/-- When this program has been executed, the class and its initializer have been called. -/
theorem init_calls_fit :
    Told (.ofRun 5 initText initProgram) (.ofRun 5 initText initProgram) [initProgram] ∧
    ((Chronicle.ofRun 5 initText initProgram).entries.filterMap fun x =>
      match x.event with
      | .answers callee _ _ _ => some callee.text
      | _ => none) = ["<class A>", "<fn init>"] ∧
    ∀ x earlier, x :: earlier <:+ (Chronicle.ofRun 5 initText initProgram).entries →
      ∀ callee arguments, x.event = .calls callee arguments →
        callee.arity? = some arguments.length := by
  have htold : Told (.ofRun 5 initText initProgram) (.ofRun 5 initText initProgram) [initProgram] :=
    .ofRun rfl 5
  exact ⟨htold, by decide +kernel, fun x earlier hsuffix => ((calls_fit htold).1 x earlier hsuffix).1⟩

end Session.Told

end Lox
