import Lox.Proofs.MomentSteps
import Lox.Proofs.ScopesAgree
import Lox.Proofs.Actions

/-!
# Chronicles of sessions

The chronicle of every run is consistent, whatever is executed, and so is the chronicle of every
session: programs are compiled and executed one after the other, and host functions are registered
that yield nothing but what they are given.

## Key results

- `TellsBelow.all`: runs of programs keep a chronicle consistent
- `Session.Told`: the sessions that can come about, with their chronicles
- `Session.Told.sound`: the chronicle of every session is consistent
- `Session.Told.history`: nothing is watched in it but what is watched in the session
-/

namespace Lox

/-- A flow that returns a value that has been seen, if it returns. -/
def Flow.Seen (entries : List Entry) (flow : Flow) : Prop :=
  ∀ v, flow = .returned v → Lox.Seen entries v

/-- Of a normal end there is nothing to tell. -/
theorem Flow.Seen.normal {entries : List Entry} : Flow.normal.Seen entries :=
  nofun

/-- A returned value has to be told of. -/
theorem Flow.Seen.returned {entries : List Entry} {v : Value} (hv : Lox.Seen entries v) :
    (Flow.returned v).Seen entries := by
  rintro _ ⟨⟩
  exact hv

/-- Runs that are nested up to a bound keep a chronicle consistent. -/
structure TellsBelow (n : Nat) : Prop where
  evaluate : ∀ {c : Chronicle} {acts : List Activation} {e : Expr}, c.Sound →
    Opened c.entries acts → e.WellFormed →
    Tells c (Logged.evaluate acts n e) fun v c' => Seen c'.entries v
  callValue : ∀ {c : Chronicle} {v : Value} {values : List Value}, c.Sound → Seen c.entries v →
    (∀ v ∈ values, Seen c.entries v) → v.arity? = some values.length →
    Tells c (Logged.callValue n v values) fun v c' => Seen c'.entries v
  callClosure : ∀ {c : Chronicle} {f : Closure} {values : List Value}, c.Sound →
    Seen c.entries (.function f) → (∀ v ∈ values, Seen c.entries v) → f.arity = values.length →
    Tells c (Logged.callClosure n f values) fun v c' =>
      Seen c'.entries v ∧ c.Meanwhile c' (.calls (.function f) values)
  execute : ∀ {c : Chronicle} {acts : List Activation} {s : Stmt}, c.Sound →
    Opened c.entries acts → c.watch.machine.current.index < c.watch.machine.scopes.size →
    s.WellFormed → Tells c (Logged.execute acts n s) fun flow c' => flow.Seen c'.entries
  repeatWhile : ∀ {c : Chronicle} {acts : List Activation} {condition : Expr} {body : Stmt},
    c.Sound → Opened c.entries acts →
    c.watch.machine.current.index < c.watch.machine.scopes.size → condition.WellFormed →
    body.WellFormed →
    Tells c (Logged.repeatWhile acts n condition body) fun flow c' => flow.Seen c'.entries

/-- A function is well-formed if its parameters are names and its body is well-formed. -/
theorem Stmt.wellFormedFunction_iff {d : FunctionDecl} : WellFormedFunction d ↔
    (∀ param ∈ d.params, param.IsName) ∧ WellFormedList d.body := by
  cases d
  rfl

/-- Each of several methods is well-formed. -/
theorem Stmt.wellFormed_of_mem {ds : List FunctionDecl} (h : WellFormedMethods ds)
    {d : FunctionDecl} (hd : d ∈ ds) : WellFormedFunction d := by
  induction ds with
  | nil => cases hd
  | cons first ds ih =>
    rcases List.mem_cons.mp hd with rfl | hd
    · exact h.1
    · exact ih h.2 hd

/-- There is a scope around each that is on the way outward. -/
theorem Scopes.parent?_of_ancestor? {f : Scopes} {e inner outer : ScopeId} {d : Nat}
    (hinner : f.ancestor? e d = some inner)
    (houter : f.ancestor? e (d + 1) = some outer) :
    f.parent? inner = some outer := by
  induction d generalizing e with
  | zero =>
    simp only [ancestor?] at hinner houter
    -- at distance zero the scope itself is reached, if there is one
    split at hinner
    · cases hinner
      cases hp : f.parent? inner with
      | none => simp [hp] at houter
      | some p =>
        simp only [hp] at houter
        split at houter
        · exact houter
        · cases houter
    · cases hinner
  | succ d ih =>
    rw [ancestor?] at hinner houter
    cases hp : f.parent? e with
    | none => simp [hp] at hinner
    | some p =>
      rw [hp] at hinner houter
      exact ih hinner houter

/-- Actions of which only the effects matter. -/
theorem Tells.discard {c : Chronicle} {α : Type} {p : Logged α} {Q : α → Chronicle → Prop}
    (h : Tells c p Q) :
    Tells c (do let _ ← p; return Flow.normal) fun flow c' => flow.Seen c'.entries :=
  h.bind fun _ _ _ hsound _ => .pure hsound .normal

namespace TellsBelow

variable {n : Nat} {c : Chronicle} {acts : List Activation}

/-- Without fuel nothing is told. -/
theorem zero : TellsBelow 0 where
  evaluate h _ _ := .throw h
  callValue h _ _ _ := .throw h
  callClosure h _ _ _ := .throw h
  execute h _ _ _ := .throw h
  repeatWhile h _ _ _ _ := .throw h

/-- The scopes of a place stay those of the place while something else is run. -/
private theorem opened_of_continues {c' : Chronicle} (h : c.Continues c')
    (hacts : Opened c.entries acts) : Opened c'.entries acts :=
  hacts.mono h.entries

/-- Expressions yield values that are told of. -/
theorem evaluateAll (h : TellsBelow n) (hsound : c.Sound) (hacts : Opened c.entries acts)
    {es : List Expr} (hwf : Expr.WellFormedList es) :
    Tells c (Lox.evaluateAll (Logged.evaluate acts n) es) fun vs c' =>
      vs.length = es.length ∧ ∀ v ∈ vs, Seen c'.entries v := by
  induction es generalizing c with
  | nil => exact .pure hsound ⟨rfl, by simp⟩
  | cons e es ih =>
    refine (h.evaluate hsound hacts hwf.1).bind fun v c' hcontinues hsound hv => ?_
    refine (ih hsound (opened_of_continues hcontinues hacts) hwf.2).bind
      fun vs c'' hcontinues hsound hvs => ?_
    refine .pure hsound ⟨?_, List.forall_mem_cons.mpr ⟨hv.mono hcontinues.entries, hvs.2⟩⟩
    -- a call compares the number of values with the arity, so it is kept along
    rw [List.length_cons, List.length_cons, hvs.1]

/-- Statements end with values that are told of. -/
theorem executeAll (h : TellsBelow n) (hsound : c.Sound) (hacts : Opened c.entries acts)
    (hlt : c.watch.machine.current.index < c.watch.machine.scopes.size) {body : List Stmt}
    (hwf : Stmt.WellFormedList body) :
    Tells c (Lox.executeAll (Logged.execute acts n) body) fun flow c' =>
      flow.Seen c'.entries := by
  induction body generalizing c with
  | nil => exact .pure hsound .normal
  | cons s body ih =>
    refine (h.execute hsound hacts hlt hwf.1).bind fun flow c' hcontinues hsound hflow => ?_
    cases flow with
    | returned v => exact .pure hsound hflow
    | normal =>
      exact ih hsound (opened_of_continues hcontinues hacts) (hcontinues.lt_size hlt) hwf.2

/-- A property of an instance: its field, or a method bound to it. -/
private theorem readProperty_tells (hsound : c.Sound) {id : InstanceId} {cls : Class}
    (hthis : Seen c.entries (.instance_ id cls)) (name : Token) :
    Tells c (Logged.readProperty id cls name) fun v c' => Seen c'.entries v := by
  refine .get ?_
  dsimp only
  cases hfield : (c.watch.machine.fields.getD id.index .empty).get? name.lexeme with
  | some v => exact .pure hsound (hsound.moment.seen_field hfield)
  | none =>
    dsimp only
    cases hfound : cls.findMethod? name.lexeme with
    | none => exact .fail hsound
    | some method =>
      -- the method belongs to a class whose declaration is told of
      obtain ⟨d, hd, hmethod⟩ :=
        hsound.moment.owner_of_findMethod? (hsound.moment.seen_class hthis) hfound
      refine (Tells.bindMethod hsound hd hmethod hthis).bind fun bound c' _ hsound hbound => ?_
      exact .pure hsound hbound.1

/-- What is bound to `this` just inside of another scope is an instance. -/
private theorem readSuper_tells (hsound : c.Sound) (id : NodeId) (keyword method : Token) :
    Tells c (Logged.readSuper id keyword method) fun v c' => Seen c'.entries v := by
  have hmoment := hsound.moment
  refine .get ?_
  dsimp only
  cases c.watch.machine.distances.get? id with
  | none => exact .fail hsound
  | some d =>
    dsimp only
    cases hsuper : c.watch.machine.scopes.getAt? c.watch.machine.current d "super" with
    | none => exact .fail hsound
    | some b =>
      obtain ⟨outer, houter, hclass⟩ := Option.bind_eq_some_iff.mp hsuper
      rcases b with _ | v
      · exact .fail hsound
      cases v with
      | class_ superclass =>
        cases d with
        | zero => exact .fail hsound
        | succ inner =>
          dsimp only
          cases hthis : c.watch.machine.scopes.getAt? c.watch.machine.current inner "this" with
          | none => exact .fail hsound
          | some b =>
            obtain ⟨e, he, hthis⟩ := Option.bind_eq_some_iff.mp hthis
            rcases b with _ | this
            · exact .fail hsound
            dsimp only
            cases hfound : superclass.findMethod? method.lexeme with
            | none => exact .fail hsound
            | some found =>
              -- the scope of `this` is not a global one, as there is another one around it
              have hparent := Scopes.parent?_of_ancestor? he houter
              obtain ⟨id, cls, rfl⟩ := hmoment.this e outer this hparent hthis
              obtain ⟨declared, hdeclared, hmethod⟩ :=
                hmoment.owner_of_findMethod? (hmoment.bindings _ _ _ hclass) hfound
              refine (Tells.bindMethod hsound hdeclared hmethod
                (hmoment.bindings e _ _ hthis)).bind fun bound c' _ hsound hbound => ?_
              exact .pure hsound hbound.1
      | _ => exact .fail hsound

/-- A part of an expression, after other parts have been evaluated. -/
private theorem evaluate_part (h : TellsBelow n) (hacts : Opened c.entries acts) {c' : Chronicle}
    (hcontinues : c.Continues c') (hsound : c'.Sound) {part : Expr} (hwf : part.WellFormed) :
    Tells c' (Logged.evaluate acts n part) fun v c'' => Seen c''.entries v :=
  h.evaluate hsound (opened_of_continues hcontinues hacts) hwf

/-- An expression yields a value that is told of, if all that it runs with less fuel does. -/
theorem evaluate_succ (h : TellsBelow n) {e : Expr} (hsound : c.Sound)
    (hacts : Opened c.entries acts) (hwf : e.WellFormed) :
    Tells c (Logged.evaluate acts (n + 1) e) fun v c' => Seen c'.entries v := by
  cases e with
  | literal l => exact .pure hsound (seen_of_isPlain (ofLiteral_isPlain l))
  | grouping inner => exact h.evaluate hsound hacts hwf
  | unary op operand =>
    refine (h.evaluate (e := operand) hsound hacts hwf).bind fun v c' _ hsound _ => ?_
    exact .value hsound (Run.ofOperator_does fun _ => applyUnary_isPlain)
  | binary op left right =>
    refine (h.evaluate hsound hacts hwf.1).bind fun a c' hcontinues hsound _ => ?_
    refine (h.evaluate_part hacts hcontinues hsound hwf.2).bind fun b c'' _ hsound _ => ?_
    exact .value hsound (Run.ofOperator_does fun _ => applyBinary_isPlain)
  | logical op left right =>
    refine (h.evaluate hsound hacts hwf.1).bind fun a c' hcontinues hsound ha => ?_
    split
    · exact .pure hsound ha
    · exact h.evaluate_part hacts hcontinues hsound hwf.2
  | var id name =>
    refine (Tells.see hsound hacts _).bind fun _ c' _ hsound _ => ?_
    exact .value hsound (Run.readVariable_does hsound.moment id name)
  | this id keyword =>
    refine (Tells.see hsound hacts _).bind fun _ c' _ hsound _ => ?_
    exact .value hsound (Run.readVariable_does hsound.moment id keyword)
  | super id keyword method =>
    refine (Tells.see hsound hacts _).bind fun _ c' _ hsound _ => ?_
    exact readSuper_tells hsound id keyword method
  | assign id name value =>
    refine (h.evaluate hsound hacts hwf.2).bind fun v c' hcontinues hsound hv => ?_
    -- the lookup is told after the value, so the value has to be carried over the entry
    have hacts := opened_of_continues hcontinues hacts
    have hwrite := (Tells.see hsound hacts ⟨.assign, id, name⟩).bind
      fun _ c'' hcontinues hsound _ =>
        Tells.unit hsound (Run.writeVariable_does id hwf.1 (hv.mono hcontinues.entries))
    exact hwrite.bind fun _ c₃ hcontinues hsound _ => .pure hsound (hv.mono hcontinues.entries)
  | call callee paren arguments =>
    refine (h.evaluate hsound hacts hwf.1).bind fun v c' hcontinues hsound hv => ?_
    refine (h.evaluateAll hsound (opened_of_continues hcontinues hacts) hwf.2).bind
      fun vs c'' hcontinues hsound hvs => ?_
    cases harity : v.arity? with
    | none => exact .fail hsound
    | some arity =>
      dsimp only
      split
      -- the chronicle only tells of calls with as many arguments as parameters
      · rename_i hlength
        refine .duringCall (h.callValue (hsound.onLine _) (hv.mono hcontinues.entries) hvs.2 ?_)
          fun _ _ hv => hv
        rw [harity, hlength]
      · exact .fail hsound
  | get object name =>
    refine (h.evaluate (e := object) hsound hacts hwf).bind fun v c' _ hsound hv => ?_
    cases v with
    | instance_ id cls => exact readProperty_tells hsound hv name
    | _ => exact .fail hsound
  | set object name value =>
    refine (h.evaluate hsound hacts hwf.1).bind fun v c' hcontinues hsound hobject => ?_
    cases v with
    | instance_ id cls =>
      refine (h.evaluate_part hacts hcontinues hsound hwf.2).bind
        fun v c'' hcontinues' hsound hv => ?_
      refine (Tells.setField hsound (hobject.mono hcontinues'.entries) name.lexeme hv).bind
        fun _ c₃ hcontinues hsound _ => ?_
      exact .pure hsound (hv.mono hcontinues.entries)
    | _ => exact .fail hsound

/-- The call of a class tells first that an instance is made, and then, if there is an initializer,
    that it is bound to this instance and called. -/
theorem callClass (h : TellsBelow n) {cls : Class} {values : List Value} (hsound : c.Sound)
    (hv : Seen c.entries (.class_ cls)) (hvalues : ∀ v ∈ values, Seen c.entries v)
    (harity : Value.arity? (.class_ cls) = some values.length) :
    Tells c (Logged.callValue (n + 1) (.class_ cls) values) fun v c' => Seen c'.entries v := by
  refine (Tells.call hsound hv harity fun c₁ hcontinues₁ hsound₁ _ => ?_).mono
    fun _ _ _ _ hQ => hQ.1
  have hcls : Seen c₁.entries (.class_ cls) := hv.mono hcontinues₁.entries
  refine (Tells.newInstance hsound₁ hcls).bind fun this c₂ hcontinues₂ hsound₂ hmade => ?_
  obtain ⟨hseen, ⟨first, hfirst, hmakes⟩, id, rfl, hnew⟩ := hmade
  -- what has been told since the call began
  have hinside : ∀ {c' : Chronicle} {e : Happening}, c₁.Meanwhile c' e → ∀ inside,
      c'.entries = inside ++ c₁.entries → Happened inside e := by
    rintro c' e ⟨new, hnew, happened⟩ inside hinside
    rwa [List.append_cancel_right (hinside.symm.trans hnew)]
  have hbegins : ∀ {c' : Chronicle}, c₂.Continues c' → ∀ inside,
      c'.entries = inside ++ c₁.entries → ∃ afterwards, inside = afterwards ++ [first] := by
    intro c' hcontinues inside hinside
    obtain ⟨afterwards, heq⟩ := hcontinues.entries
    refine ⟨afterwards, (List.append_left_inj c₁.entries).mp ?_⟩
    rw [← hinside, ← heq, hfirst, List.append_assoc]
    rfl
  have hfresh : ∀ other, ¬ Happened c.entries (.makes (.instance_ id other)) :=
    fun other hmade => hnew other (hmade.mono hcontinues₁.entries)
  cases hinit : cls.findMethod? "init" with
  | none =>
    refine .pure hsound₂ ⟨hseen, fun inside heq => ?_⟩
    obtain ⟨afterwards, hafterwards⟩ := hbegins (.refl c₂) inside heq
    refine ⟨id, afterwards, first, rfl, hafterwards, hmakes, hfresh, fun initializer hfound => ?_⟩
    rw [hinit] at hfound
    cases hfound
  | some initializer =>
    obtain ⟨d, hd, hmethod⟩ := hsound₂.moment.owner_of_findMethod?
      (hcls.mono hcontinues₂.entries) hinit
    refine (Tells.bindMethod hsound₂ hd hmethod hseen).bind
      fun bound c₃ hcontinues₃ hsound₃ hbound => ?_
    obtain ⟨hbound, hbinds, hboundArity⟩ := hbound
    have hlength : bound.arity = values.length := by
      rw [hboundArity]
      simpa [Value.arity?, Class.arity, hinit] using harity
    have hvalues : ∀ v ∈ values, Seen c₃.entries v := fun v hv => (hvalues v hv).mono
      ((hcontinues₁.trans hcontinues₂).trans hcontinues₃).entries
    refine (h.callClosure hsound₃ hbound hvalues hlength).bind
      fun _ c₄ hcontinues₄ hsound₄ hcall => ?_
    have hcontinues := hcontinues₃.trans hcontinues₄
    refine .pure hsound₄ ⟨hseen.mono hcontinues.entries, fun inside heq => ?_⟩
    obtain ⟨afterwards, hafterwards⟩ := hbegins hcontinues inside heq
    have hbinds := (hbinds.later hcontinues₄).earlier hcontinues₂
    have hcalls := hcall.2.earlier (hcontinues₂.trans hcontinues₃)
    refine ⟨id, afterwards, first, rfl, hafterwards, hmakes, hfresh, fun initializer' hfound => ?_⟩
    rw [hinit] at hfound
    cases hfound
    exact ⟨bound, hinside hbinds inside heq, hinside hcalls inside heq⟩

/-- A call yields a value that is told of, if all that it runs with less fuel does. -/
theorem callValue_succ (h : TellsBelow n) {v : Value} {values : List Value} (hsound : c.Sound)
    (hv : Seen c.entries v) (hvalues : ∀ v ∈ values, Seen c.entries v)
    (harity : v.arity? = some values.length) :
    Tells c (Logged.callValue (n + 1) v values) fun v c' => Seen c'.entries v := by
  cases v with
  | native info =>
    refine (Tells.call hsound hv harity fun c' hcontinues hsound _ => ?_).mono
      fun _ _ _ _ hQ => hQ.1
    have hvalues : ∀ v ∈ values, Seen c'.entries v :=
      fun v hv => (hvalues v hv).mono hcontinues.entries
    -- a host function opens no scopes, so only its value has to be accounted for
    exact (Tells.value hsound (Run.callNative_does hsound.moment info hvalues)).mono
      fun _ _ _ _ hseen => ⟨hseen, fun _ _ => trivial⟩
  | function f =>
    have hlength : f.arity = values.length := by simpa [Value.arity?] using harity
    exact (h.callClosure hsound hv hvalues hlength).mono fun _ _ _ _ hQ => hQ.1
  | class_ cls => exact h.callClass hsound hv hvalues harity
  | _ => exact .pure hsound trivial

/-- The local scopes around the body of a function that is called. -/
private theorem opened_captured (hsound : c.Sound) {f : Closure} (hf : Seen c.entries (.function f))
    {scope : ScopeId} (henters : Happened c.entries (.enters f scope (c.watch.captured f.id))) :
    Opened c.entries (⟨.function f.declaration, scope⟩ :: c.watch.captured f.id) := by
  -- a function has been closed, or a method has been bound; both are entries
  rcases hf with ⟨acts, hcloses⟩ | ⟨method, this, hbinds⟩
  · have hclosed := hsound.moment.closedIn hcloses
    rw [hclosed.captured] at henters ⊢
    exact .function hcloses henters hclosed.opened
  · have hbound := hsound.moment.boundTo hbinds
    obtain ⟨d, name, hd, hmethod⟩ := hbound.owner
    have hdeclared := hsound.moment.declaredIn hd
    have hdeclaration : f.declaration = method.declaration := by rw [hbound.eq]
    rw [hbound.captured, (hdeclared.hasMethod name method hmethod).captured] at henters ⊢
    rw [hdeclaration]
    exact .method hd hmethod hbinds henters hdeclared.opened

/-- The code of a function that has been seen is well-formed, and its scope is one that there is. -/
private theorem wellFormed_of_seen (hsound : c.Sound) {f : Closure}
    (hf : Seen c.entries (.function f)) :
    Stmt.WellFormedFunction f.declaration ∧ f.scope.index < c.watch.machine.scopes.size := by
  rcases hf with ⟨acts, hcloses⟩ | ⟨method, this, hbinds⟩
  · have hclosed := hsound.moment.closedIn hcloses
    exact ⟨hclosed.wellFormed, hclosed.scope_lt⟩
  · have hbound := hsound.moment.boundTo hbinds
    obtain ⟨d, name, hd, hmethod⟩ := hbound.owner
    have hdeclared := hsound.moment.declaredIn hd
    -- binding changes the scope of a method, not its code
    have hdeclaration : f.declaration = method.declaration := by rw [hbound.eq]
    refine ⟨?_, Scopes.lt_size_of_parent? hbound.parent⟩
    rw [hdeclaration]
    exact Stmt.wellFormed_of_mem hdeclared.wellFormed (hdeclared.hasMethod name method hmethod).mem

/-- A call of a function is itself told of, and so is the value that it yields. -/
theorem callClosure_succ (h : TellsBelow n) {f : Closure} {values : List Value}
    (hsound : c.Sound) (hf : Seen c.entries (.function f))
    (hvalues : ∀ v ∈ values, Seen c.entries v) (hlength : f.arity = values.length) :
    Tells c (Logged.callClosure (n + 1) f values) fun v c' =>
      Seen c'.entries v ∧ c.Meanwhile c' (.calls (.function f) values) := by
  have harity : Value.arity? (.function f) = some values.length := congrArg some hlength
  refine .call hsound hf harity fun c₁ hcontinues₁ hsound₁ _ => .get ?_
  -- the function has been told of before, so its body is well-formed and its scope exists
  have hf₁ := hf.mono hcontinues₁.entries
  obtain ⟨hwf, hlt⟩ := wellFormed_of_seen hsound₁ hf₁
  obtain ⟨hparams, hbody⟩ := Stmt.wellFormedFunction_iff.mp hwf
  have henters : Tells c₁ (Logged.record (.enters f · (c₁.watch.captured f.id))
      (Watched.lift (Run.openScope f.scope))) fun scope c' =>
        scope.index < c'.watch.machine.scopes.size ∧ c'.watch.captured = c₁.watch.captured :=
    .told hsound₁ (Run.openScope_does hlt) nofun (fun _ _ => trivial)
      fun _ w hw => ⟨hf₁, by rw [hw]⟩
  refine henters.recorded.bind fun scope c₂ hcontinues₂ hsound₂ hscope => ?_
  obtain ⟨⟨hscope, hcaptured⟩, hentries, -⟩ := hscope
  have hentered : Happened c₂.entries (.enters f scope (c₁.watch.captured f.id)) := by
    rw [hentries]
    exact happened_cons
  rw [← hcaptured] at hentered ⊢
  have hvalues : ∀ v ∈ values, Seen c₂.entries v :=
    fun v hv => (hvalues v hv).mono (hcontinues₁.trans hcontinues₂).entries
  refine (Tells.unit hsound₂ (Run.defineParams_does scope hparams hvalues)).bind
    fun _ c₃ hcontinues₃ hsound₃ _ => ?_
  -- the body is executed inside the scope of the call, which is told to be entered
  have hopened := (opened_captured hsound₂ (hf₁.mono hcontinues₂.entries) hentered).mono
    hcontinues₃.entries
  have hscope := Nat.lt_of_lt_of_le hscope hcontinues₃.later.scopes.size
  have hbody := h.executeAll (hsound₃.at_ scope) hopened hscope hbody
  refine (Tells.inScope hbody fun _ _ hflow => hflow).bind
    fun flow c₄ hcontinues₄ hsound₄ (hflow : flow.Seen c₄.entries) => ?_
  refine (Tells.lift hsound₄ (Run.callResult_does hsound₄.moment f hflow)).mono
    fun result c₅ hcontinues₅ _ hresult => ⟨hresult.1.mono hcontinues₅.entries, fun _ _ => ?_⟩
  -- a binding told before is still told at the end of the call
  intro method this hbinds
  exact hresult.2 method this (hbinds.mono
    (((hcontinues₁.trans hcontinues₂).trans hcontinues₃).trans hcontinues₄).entries)

/-- A superclass is looked up and checked right before the declaration is told. -/
theorem executeClassDecl {d : ClassDecl} (hsound : c.Sound) (hacts : Opened c.entries acts)
    (hlt : c.watch.machine.current.index < c.watch.machine.scopes.size)
    (hwf : (Stmt.classDecl d).WellFormed) :
    Tells c (Logged.execute acts (n + 1) (.classDecl d)) fun flow c' => flow.Seen c'.entries := by
  obtain ⟨name, superclass, methods⟩ := d
  cases superclass with
  | none =>
    refine .discard (Tells.declareClass hsound hacts hlt hwf.1 ?_ ?_ hwf.2.2)
    · simp
    · simp
  | some superclass =>
    obtain ⟨id, superName, rfl⟩ := hwf.2.1 superclass rfl
    refine (Tells.evaluate_var hsound hacts n id superName).bind
      fun v c₁ hcontinues hsound hv => ?_
    obtain ⟨hv, w, w', hread, hvalue⟩ := hv
    refine (Tells.lift hsound (Run.asSuperclass_does hv)).recorded.bind
      fun cls c₂ hcontinues' hsound' hcls => ?_
    obtain ⟨⟨hcls, rfl⟩, hchecked, -⟩ := hcls
    have hcontinues := hcontinues.trans hcontinues'
    refine .discard (Tells.declareClass hsound' (opened_of_continues hcontinues hacts)
      (hcontinues.lt_size hlt) hwf.1 ?_ ?_ hwf.2.2)
    · rintro _ ⟨⟩
      exact hcls.mono hcontinues'.entries
    · rintro _ ⟨⟩
      -- between the lookup and the declaration stand the entries of the two checks alone
      refine ⟨[⟨.step, c₂.watch⟩, ⟨.step, w'⟩], ⟨.sees ⟨.var, id, superName⟩ acts, w⟩, c.entries, id,
        superName, ?_, by simp, rfl, hvalue⟩
      rw [hchecked, hread]
      rfl

/-- A statement ends with a value that is told of, if all that it runs with less fuel does. -/
theorem execute_succ (h : TellsBelow n) {s : Stmt} (hsound : c.Sound)
    (hacts : Opened c.entries acts)
    (hlt : c.watch.machine.current.index < c.watch.machine.scopes.size) (hwf : s.WellFormed) :
    Tells c (Logged.execute acts (n + 1) s) fun flow c' => flow.Seen c'.entries := by
  -- a branch of a condition
  have hbranch : ∀ {c' : Chronicle} {branch : Stmt}, c.Continues c' → c'.Sound →
      branch.WellFormed →
      Tells c' (Logged.execute acts n branch) fun flow c'' => flow.Seen c''.entries :=
    fun hcontinues hsound hwf =>
      h.execute hsound (opened_of_continues hcontinues hacts) (hcontinues.lt_size hlt) hwf
  cases s with
  | expression value => exact .discard (h.evaluate hsound hacts hwf)
  | print value =>
    refine (h.evaluate hsound hacts hwf).bind fun v c' _ hsound _ => ?_
    exact .discard (Tells.unit hsound (Run.emit_does _))
  | varDecl name initializer =>
    cases initializer with
    | none => exact .discard (Tells.unit hsound (Run.declareHere_does hwf.1))
    | some initializer =>
      refine (h.evaluate hsound hacts (hwf.2 _ rfl)).bind fun v c' _ hsound hv => ?_
      exact .discard (Tells.unit hsound (Run.defineHere_does hwf.1 hv))
  | block body =>
    refine .get ((Tells.lift hsound (Run.openScope_does hlt)).bind
      fun scope c' hcontinues hsound hscope => ?_)
    have hopened : Opened c'.entries (⟨.block body, scope⟩ :: acts) :=
      .block (opened_of_continues hcontinues hacts)
    exact .inScope (h.executeAll (hsound.at_ scope) hopened hscope hwf) fun _ _ hflow => hflow
  | cond condition thenBranch elseBranch =>
    cases elseBranch with
    | none =>
      refine (h.evaluate hsound hacts hwf.1).bind fun v c' hcontinues hsound _ => ?_
      split
      · exact hbranch hcontinues hsound hwf.2.2
      · exact .pure hsound .normal
    | some elseBranch =>
      refine (h.evaluate hsound hacts hwf.1).bind fun v c' hcontinues hsound _ => ?_
      split
      · exact hbranch hcontinues hsound hwf.2.1.2
      · exact hbranch hcontinues hsound hwf.2.2.2
  | loop condition body => exact h.repeatWhile hsound hacts hlt hwf.1 hwf.2.2
  | funDecl d => exact .discard (Tells.declareFunction hsound hacts hlt hwf.1 hwf.2)
  | ret keyword value =>
    cases value with
    | none => exact .pure hsound (.returned trivial)
    | some value =>
      refine (h.evaluate hsound hacts (hwf _ rfl)).bind fun v c' _ hsound hv => ?_
      exact .pure hsound (.returned hv)
  | classDecl => exact executeClassDecl hsound hacts hlt hwf

/-- A loop ends with a value that is told of, if each round does. -/
theorem repeatWhile_succ (h : TellsBelow n) {condition : Expr} {body : Stmt} (hsound : c.Sound)
    (hacts : Opened c.entries acts)
    (hlt : c.watch.machine.current.index < c.watch.machine.scopes.size)
    (hcondition : condition.WellFormed) (hbody : body.WellFormed) :
    Tells c (Logged.repeatWhile acts (n + 1) condition body) fun flow c' =>
      flow.Seen c'.entries := by
  refine (h.evaluate hsound hacts hcondition).bind fun v c' hcontinues hsound _ => ?_
  split
  · refine (h.execute hsound (opened_of_continues hcontinues hacts) (hcontinues.lt_size hlt)
      hbody).bind fun flow c'' hcontinues' hsound hflow => ?_
    have hcontinues := hcontinues.trans hcontinues'
    cases flow with
    | normal =>
      exact h.repeatWhile hsound (opened_of_continues hcontinues hacts) (hcontinues.lt_size hlt)
        hcondition hbody
    | returned v => exact .pure hsound hflow
  · exact .pure hsound .normal

/-- All runs keep a chronicle consistent. -/
theorem all (n : Nat) : TellsBelow n := by
  induction n with
  | zero => exact zero
  | succ n ih =>
    exact ⟨ih.evaluate_succ, ih.callValue_succ, ih.callClosure_succ, ih.execute_succ,
      ih.repeatWhile_succ⟩

end TellsBelow

/-- Outside of local scopes a program keeps a chronicle consistent. -/
theorem Logged.program_tells {c : Chronicle} {statements : List Stmt} (bound : Nat)
    (hsound : c.Sound) (hlt : c.watch.machine.current.index < c.watch.machine.scopes.size)
    (hwf : Stmt.WellFormedList statements) :
    Tells c (Logged.program bound statements) fun _ _ => True := by
  induction statements generalizing c with
  | nil => exact .unit hsound Run.flush_does
  | cons s statements ih =>
    refine ((TellsBelow.all bound).execute hsound .global hlt hwf.1).bind
      fun _ c' hcontinues hsound _ => ?_
    exact ih hsound (hcontinues.lt_size hlt) hwf.2

/-! ## Sessions -/

namespace Chronicle

/-- The machine is changed by something that is no action of a program. -/
def goOn (c : Chronicle) (m : Machine) : Chronicle :=
  ⟨{ c.watch with machine := m }, ⟨.step, { c.watch with machine := m }⟩ :: c.entries⟩

/-- What is told until an action ends, also if it is aborted. -/
def after {α : Type} : EStateM.Result Abort Chronicle α → Chronicle
  | .ok _ c => c
  | .error _ c => c

variable {c : Chronicle}

/-- A chronicle may be continued on another machine that holds no other values. -/
theorem Sound.goOn (h : c.Sound) {m : Machine} (hlater : c.watch.Later { c.watch with machine := m })
    (hglobals : m.globals.index < m.scopes.size ∧ m.scopes.parent? m.globals = none)
    (hnatives : ∀ n ∈ m.natives, n.HandsOver)
    (hbindings : ∀ e name v, m.scopes.binding? e name = some (.value v) →
      c.watch.machine.scopes.binding? e name = some (.value v) ∨
        m.scopes.parent? e = none ∧ ∃ info, v = .native info)
    (hfields : m.fields = c.watch.machine.fields) : (c.goOn m).Sound := by
  have hmoment : Moment (c.goOn m).watch (c.goOn m).entries := by
    refine h.moment.goOn hlater hglobals hnatives (fun e name v hv => ?_)
      (h.moment.fields_of_eq nofun hfields) trivial
    rcases hbindings e name v hv with hold | ⟨hroot, info, rfl⟩
    · exact .inl hold
    -- host functions are bound among the globals, which have no scope around them
    · refine .inr ⟨trivial, fun _ p hp => ?_⟩
      have hp : m.scopes.parent? e = some p := hp
      rw [hroot] at hp
      cases hp
  exact ⟨hmoment, trivial, hmoment, h.consistent⟩

end Chronicle

namespace Session

/-- The sessions that can come about, with their chronicles and the programs that have been
    accepted. -/
inductive Told : Session → Chronicle → List Program → Prop
  | start (sink : Sink) (clock : Clock) :
      Told (.start sink clock) ⟨⟨(Session.start sink clock).machine, fun _ => [], []⟩, []⟩ []
  | compile {s : Session} {c : Chronicle} {programs : List Program} (text : String)
      (h : Told s c programs) :
      Told (s.compile text).1 (c.goOn (s.compile text).1.machine)
        ((s.compile text).2.toList ++ programs)
  | execute {s : Session} {c : Chronicle} {programs : List Program} {p : Program} (bound : Nat)
      (hp : p ∈ programs) (h : Told s c programs) :
      Told (s.execute bound p.statements).1 (.after (Logged.program bound p.statements c)) programs
  | resetGlobals {s : Session} {c : Chronicle} {programs : List Program} (h : Told s c programs) :
      Told s.resetGlobals (c.goOn s.resetGlobals.machine) programs
  | resetReport {s : Session} {c : Chronicle} {programs : List Program} (h : Told s c programs) :
      Told s.resetReport c programs
  | defineNative {s : Session} {c : Chronicle} {programs : List Program} {n : Native}
      (hn : n.HandsOver) (h : Told s c programs) :
      Told (s.defineNative n) (c.goOn (s.defineNative n).machine) programs

namespace Told

variable {s : Session} {c : Chronicle} {programs : List Program}

/-- What is watched beside a chronicle is what is watched in the session. -/
theorem history (h : Told s c programs) : History s c.watch programs := by
  induction h with
  | start sink clock => exact .start sink clock
  | compile text _ ih => exact ih.compile text
  | @execute s c programs p bound hp _ ih =>
    have hexecute := ih.execute bound hp
    -- erasing the chronicle turns its run into the watched one
    rw [← Logged.program_erases bound p.statements c] at hexecute
    cases hrun : Logged.program bound p.statements c with
    | ok a c' | error e c' =>
      rw [hrun] at hexecute
      exact hexecute
  | resetGlobals _ ih => exact ih.resetGlobals
  | resetReport _ ih => exact ih.resetReport
  | defineNative hn _ ih => exact ih.defineNative hn.conservative

/-- The machine of a chronicle is that of the session. -/
theorem machine (h : Told s c programs) : c.watch.machine = s.machine :=
  h.history.sound.machine

/-- A machine with more scopes is a later moment. -/
private theorem later_of_grows {w : Watch} {m : Machine} (hgrows : w.machine.scopes.Grows m.scopes)
    (hnext : m.nextObject = w.machine.nextObject) (hfields : m.fields = w.machine.fields) :
    w.Later { w with machine := m } :=
  ⟨⟨hgrows, Nat.le_of_eq hnext.symm, fun _ _ => rfl⟩, Nat.le_of_eq (congrArg _ hfields.symm),
    fun _ hx => hx⟩

/-- At the start there is only the clock. -/
private theorem start_sound (sink : Sink) (clock : Clock) :
    Chronicle.Sound ⟨⟨(Session.start sink clock).machine, fun _ => [], []⟩, []⟩ := by
  have hlegal := (History.start sink clock).sound.legal
  have hbinding : ∀ e name v,
      (Session.start sink clock).machine.scopes.binding? e name = some (.value v) →
      v = .native (Native.clock.info 0) := by
    intro e name v hv
    have hv : (Scopes.empty.new.1.bind ⟨0⟩ "clock"
        (.value (.native (Native.clock.info 0)))).binding? e name = some (.value v) := hv
    rw [Scopes.binding?_bind, Scopes.binding?_new] at hv
    split at hv
    · cases hv
      rfl
    · cases hv
  refine ⟨⟨hlegal.globals_lt, hlegal.globals_root, fun e name v hv => ?_, fun e p v hp _ => ?_,
    fun _ _ => rfl, fun n hn => ?_, fun x hx => absurd hx List.not_mem_nil⟩, trivial⟩
  -- the clock is no object, so nothing has to be told of it
  · rw [hbinding e name v hv]
    trivial
  · have hp : (Scopes.empty.new.1.bind ⟨0⟩ "clock"
        (.value (.native (Native.clock.info 0)))).parent? e = some p := hp
    rw [Scopes.parent?_bind, Scopes.parent?_new] at hp
    cases hp
  · have hn : n ∈ #[Native.clock] := hn
    rw [Array.mem_singleton.mp hn]
    exact Native.clock_handsOver

/-- Registering a host function binds its name among the globals. -/
private theorem defineNative_sound (h : c.Sound) {n : Native} (hn : n.HandsOver) :
    (c.goOn (c.watch.machine.defineNative n)).Sound := by
  have hroot := h.moment.globals_root
  have hgrows : c.watch.machine.scopes.Grows (c.watch.machine.defineNative n).scopes :=
    .bind fun _ _ p hp => by simp [hroot] at hp
  refine h.goOn (later_of_grows hgrows rfl rfl) ⟨?_, ?_⟩ ?_ (fun e name v hv => ?_) rfl
  · exact Nat.lt_of_lt_of_le h.moment.globals_lt hgrows.size
  · exact (hgrows.parent? _ h.moment.globals_lt).trans hroot
  · intro n' hn'
    rcases Array.mem_push.mp hn' with hn' | rfl
    · exact h.moment.natives n' hn'
    · exact hn
  · have hv : (c.watch.machine.scopes.bind c.watch.machine.globals n.name
        (.value (.native (n.info c.watch.machine.natives.size)))).binding? e name =
        some (.value v) := hv
    rw [Scopes.binding?_bind] at hv
    split at hv
    -- the new name is bound in the global scope, around which there is no other
    · rename_i heq
      cases hv
      refine .inr ⟨?_, _, rfl⟩
      rw [← heq.1, hgrows.parent? _ h.moment.globals_lt]
      exact hroot
    · exact .inl hv

/-- With new globals only the names of the host functions are bound. -/
private theorem resetGlobals_sound (h : c.Sound) : (c.goOn c.watch.machine.resetGlobals).Sound := by
  let f := c.watch.machine.scopes
  have hroot := Scopes.parent?_new_size f
  have hlt : f.size < f.new.1.size := by
    rw [Scopes.size_new]
    exact Nat.lt_succ_self _
  obtain ⟨hgrows, hbinding⟩ := Sound.defineAll_grows hroot 0 c.watch.machine.natives.toList
  -- the new globals stay outermost while host functions are bound in them
  have hroot' := (hgrows.parent? ⟨f.size⟩ hlt).trans hroot
  refine h.goOn (later_of_grows ((Scopes.Grows.new f).trans hgrows) rfl rfl)
    ⟨Nat.lt_of_lt_of_le hlt hgrows.size, hroot'⟩ h.moment.natives (fun e name v hv => ?_) rfl
  rcases hbinding e name v hv with hold | ⟨rfl, info, rfl⟩
  · rw [Scopes.binding?_new] at hold
    exact .inl hold
  · exact .inr ⟨hroot', info, rfl⟩

/-- Only distances are added when a text is compiled. -/
private theorem compile_sound (h : c.Sound) (entries : List (NodeId × Nat)) :
    (c.goOn (c.watch.machine.install entries)).Sound :=
  h.goOn (later_of_grows (.refl _) rfl rfl) ⟨h.moment.globals_lt, h.moment.globals_root⟩
    h.moment.natives (fun _ _ _ hv => .inl hv) rfl

/-- The chronicle of every session is consistent. -/
theorem sound (h : Told s c programs) : c.Sound := by
  induction h with
  | start sink clock => exact start_sound sink clock
  | @compile s c programs text h ih =>
    rw [machine_compile, ← h.machine]
    exact compile_sound ih _
  | @execute s c programs p bound hp h ih =>
    have hhistory := h.history.sound
    -- between runs a session is in its global scope
    have hlt : c.watch.machine.current.index < c.watch.machine.scopes.size := by
      rw [hhistory.current]
      exact ih.moment.globals_lt
    have htells := Logged.program_tells bound ih hlt (hhistory.wellFormed p hp)
    unfold Tells at htells
    -- what an aborted run has told is kept
    cases hrun : Logged.program bound p.statements c with
    | ok a c' =>
      rw [hrun] at htells
      exact htells.2.1
    | error e c' =>
      rw [hrun] at htells
      exact htells.2
  | @resetGlobals s c programs h ih =>
    rw [Session.resetGlobals, ← h.machine]
    exact resetGlobals_sound ih
  | resetReport _ ih => exact ih
  | @defineNative s c programs n hn h ih =>
    rw [Session.defineNative, ← h.machine]
    exact defineNative_sound ih hn

/-- Every entry of the chronicle of a session fits those before it. -/
theorem entry (h : Told s c programs) {x : Entry} {earlier : List Entry}
    (hsuffix : x :: earlier <:+ c.entries) : x.Follows earlier ∧ Moment x.watch (x :: earlier) := by
  have hconsistent := h.sound.consistent.of_suffix hsuffix
  exact ⟨hconsistent.1, hconsistent.2.1⟩

/-- The chronicle of a session up to an entry. -/
theorem sound_upTo (h : Told s c programs) {x : Entry} {earlier : List Entry}
    (hsuffix : x :: earlier <:+ c.entries) : Chronicle.Sound ⟨x.watch, x :: earlier⟩ :=
  ⟨(h.entry hsuffix).2, h.sound.consistent.of_suffix hsuffix⟩

end Told

end Session

/-- The chronicle of the first run in a new session, of a text that is this program. -/
def Chronicle.ofRun (bound : Nat) (text : String) (p : Program) : Chronicle :=
  let start := Session.start .unlimited (.always 0)
  .after (Logged.program bound p.statements
    (Chronicle.goOn ⟨⟨start.machine, fun _ => [], []⟩, []⟩ (start.compile text).1.machine))

/-- The session after this run. -/
def Session.ofRun (bound : Nat) (text : String) (p : Program) : Session :=
  (((Session.start .unlimited (.always 0)).compile text).1.execute bound p.statements).1

/-- A run on a new session is told. -/
theorem Session.Told.ofRun {text : String} {p : Program}
    (hp : ((Session.start .unlimited (.always 0)).compile text).2 = some p) (bound : Nat) :
    Told (Session.ofRun bound text p) (Chronicle.ofRun bound text p) [p] := by
  have hcompile := Told.compile text (Told.start .unlimited (.always 0))
  rw [hp] at hcompile
  exact .execute bound List.mem_cons_self hcompile

end Lox
