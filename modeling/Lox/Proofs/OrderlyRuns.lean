import Lox.Proofs.Orderly
import Lox.Proofs.TopLevel

/-!
# Orderly runs

The notes of every run are orderly. Each action is compared with the one of which only a chronicle
is kept, and it is said where the notes lead: an expression leaves the activations as they are, a
statement may end in a `return`, and a call begins an activation that has ended when the call has
its value.

## Key results

- `Journaled.Leads`: what an action does to orderly notes, closed under `bind`
- `Journaled.LeadsBelow.all`: expressions, calls and statements
- `Journaled.program_leads`: programs without `return` outside of functions
-/

namespace Lox

/-! ## Actions add to the chronicle -/

namespace Logged

variable {α β : Type}

/-- Entries are only added. -/
def Adds (q : Logged α) : Prop :=
  ∀ c, c.entries <:+ (Chronicle.after (q c)).entries

namespace Adds

/-- To record an event adds an entry. -/
theorem record (event : α → Happening) (action : Watched α) : Adds (record event action) := by
  intro c
  unfold Logged.record
  cases action c.watch <;> exact List.suffix_cons _ _

/-- An action of the machine alone adds no entry. -/
theorem lift (action : Run α) : Adds (lift action) :=
  record _ _

/-- A new instance is told of. -/
theorem newInstance (cls : Class) : Adds (evaluator.newInstance cls) :=
  record .makes (Watched.lift (Run.newInstance cls))

/-- A field that is set is told of. -/
theorem setField (id : InstanceId) (name : String) (v : Value) :
    Adds (evaluator.setField id name v) :=
  record (fun _ => .sets id name v) (Watched.lift (Run.setField id name v))

/-- A declared function is told of. -/
theorem declareFunction (acts : List Activation) (declaration : FunctionDecl) :
    Adds (evaluator.declareFunction acts declaration) :=
  record (.closes · acts) (Watched.declareFunction acts declaration)

/-- A declared class is told of. -/
theorem declareClass (acts : List Activation) (name : Token) (superclass : Option Class)
    (methods : List FunctionDecl) : Adds (evaluator.declareClass acts name superclass methods) :=
  record (fun d => .declares ⟨name, superclass, methods, acts, d.1, d.2⟩)
    (Watched.declareClass acts name superclass methods)

end Adds

end Logged

/-- What a call yields can be said on every machine. -/
theorem Run.callResult_apply (c : Closure) (flow : Flow) (m : Machine) :
    ∃ v, callResult c flow m = .ok v m ∧ (c.isInitializer = false → v = flow.value) := by
  unfold callResult
  -- an initializer yields its instance whatever has been returned
  split
  · rename_i hinit
    unfold boundThis
    rw [get_bind_apply]
    rcases m.scopes.binding? c.scope "this" with _ | _ | this
    · exact ⟨.nil, rfl, by simp [hinit]⟩
    · exact ⟨.nil, rfl, by simp [hinit]⟩
    · exact ⟨this, rfl, by simp [hinit]⟩
  · cases flow with
    | normal => exact ⟨.nil, rfl, fun _ => rfl⟩
    | returned v => exact ⟨v, rfl, fun _ => rfl⟩

/-! ## Actions and the order of notes -/

/-- The notes have led to these activations and to this phase. -/
def Journal.At (j : Journal) (stack : List Frame) (phase : Phase) : Prop :=
  Orderly j.chronicle.entries j.notes stack phase

/-- What the notes have led to when a statement ends: where it returns, a `return` has been executed
    in the innermost activation, and this has to end. -/
def Journal.Ends (j : Journal) (stack : List Frame) : Flow → Prop
  | .normal => j.At stack .runs
  | .returned v => ∃ f outer value, stack = f :: outer ∧
      j.At (f.exiting value :: outer) (.returning v)

/-- With one more entry in the chronicle. -/
def Journal.recording (j : Journal) (event : Happening) : Journal :=
  { j with chronicle := ⟨j.chronicle.watch, ⟨event, j.chronicle.watch⟩ :: j.chronicle.entries⟩ }

/-- An event that is recorded changes nothing about where a call is. -/
theorem Journal.At.recording {j : Journal} {stack : List Frame} {phase : Phase}
    (h : j.At stack phase) (event : Happening) : (j.recording event).At stack phase :=
  h.mono (List.suffix_cons _ _)

/-- An activation ends when its call has been answered. -/
theorem Journal.At.leaves {j : Journal} {f : Frame} {stack : List Frame} {result : Value}
    (flow : Flow) (h : j.At (f :: stack) flow.phase) (hexit : flow = .normal → f.exit = none)
    (hresult : f.callee.isInitializer = false → result = flow.value) (arguments : List Value)
    (since : Nat) :
    ((j.recording (.answers (.function f.callee) arguments result since)).noting
      (.leaves f.activation f.callee result)).At stack (.answered f result) :=
  Orderly.leaves (h.recording _) hexit hresult ⟨arguments, since, happened_cons⟩

namespace Journaled

variable {α β : Type}

/-- An action of which a journal is kept does what the other action does. If it succeeds, its notes
    are as described, and if not, it could have gone on. -/
structure Leads (j : Journal) (p : Journaled α) (q : Logged α) (Q : α → Journal → Prop) : Prop where
  forget_eq : Act.forget Journal.chronicle (p j) = q j.chronicle
  outcome : match p j with
    | .ok a j' => j.chronicle.entries <:+ j'.chronicle.entries ∧ Q a j'
    | .error _ j' => ∃ stack, j'.At stack .runs

namespace Leads

variable {j : Journal} {p : Journaled α} {q : Logged α} {Q Q' : α → Journal → Prop}
  {stack : List Frame} {phase : Phase}

/-- What is known of a result may be weakened. -/
theorem mono (h : Leads j p q Q)
    (hQ : ∀ a j', j.chronicle.entries <:+ j'.chronicle.entries → Q a j' → Q' a j') :
    Leads j p q Q' := by
  refine ⟨h.forget_eq, ?_⟩
  have houtcome := h.outcome
  cases hp : p j with
  | ok a j' =>
    rw [hp] at houtcome
    exact ⟨houtcome.1, hQ a j' houtcome.1 houtcome.2⟩
  | error e j' =>
    rw [hp] at houtcome
    exact houtcome

theorem pure {a : α} (ha : Q a j) : Leads j (Pure.pure a) (Pure.pure a) Q :=
  ⟨rfl, List.suffix_rfl, ha⟩

theorem throw {e : Abort} (h : j.At stack .runs) : Leads j (throw e : Journaled α) (throw e) Q :=
  ⟨rfl, stack, h⟩

/-- In a sequence the second action goes on from the journal that the first one leaves. -/
theorem bind {f : α → Journaled β} {g : α → Logged β} {R : β → Journal → Prop} (h : Leads j p q Q)
    (hf : ∀ a j', j.chronicle.entries <:+ j'.chronicle.entries → Q a j' →
      Leads j' (f a) (g a) R) : Leads j (p >>= f) (q >>= g) R := by
  have hforget := h.forget_eq
  have houtcome := h.outcome
  cases hp : p j with
  | ok a j' =>
    rw [hp] at hforget houtcome
    obtain ⟨hgrow, ha⟩ := houtcome
    -- forgetting and running the rest can be done in either order
    have hrest := hf a j' hgrow ha
    refine ⟨?_, ?_⟩
    · rw [bind_apply_of_ok hp, bind_apply_of_ok hforget.symm]
      exact hrest.forget_eq
    · have houtcome := hrest.outcome
      rw [bind_apply_of_ok hp]
      cases hfa : f a j' with
      | ok b j'' =>
        rw [hfa] at houtcome
        exact ⟨hgrow.trans houtcome.1, houtcome.2⟩
      | error e j'' =>
        rw [hfa] at houtcome
        exact houtcome
  | error e j' =>
    rw [hp] at hforget houtcome
    refine ⟨?_, ?_⟩
    · rw [bind_apply_of_error hp, bind_apply_of_error hforget.symm]
      rfl
    · rw [bind_apply_of_error hp]
      exact houtcome

/-- Looking at the chronicle. -/
theorem get {f : Journal → Journaled β} {g : Chronicle → Logged β} {R : β → Journal → Prop}
    (h : Leads j (f j) (g j.chronicle) R) :
    Leads j (do let j ← MonadState.get; f j) (do let c ← MonadState.get; g c) R :=
  ⟨h.forget_eq, h.outcome⟩

/-- Looking at the notes. -/
theorem look {f : Journal → Journaled α} (h : Leads j (f j) q Q) :
    Leads j (do let j ← MonadState.get; f j) q Q :=
  ⟨h.forget_eq, h.outcome⟩

/-- Taking a note. -/
theorem tell {n : Note} (h : Leads (j.noting n) p q Q) : Leads j (do Journaled.tell n; p) q Q :=
  ⟨h.forget_eq, h.outcome⟩

/-- Taking a note in the end. -/
theorem telling {n : α → Note} (h : Leads j p q fun a j' => Q a (j'.noting (n a))) :
    Leads j (do let a ← p; Journaled.tell (n a); return a) q Q := by
  have hforget := h.forget_eq
  have houtcome := h.outcome
  cases hp : p j with
  | ok a j' =>
    rw [hp] at hforget houtcome
    have hrun : (do let a ← p; Journaled.tell (n a); return a) j = .ok a (j'.noting (n a)) :=
      bind_apply_of_ok hp
    exact ⟨by rw [hrun]; exact hforget, by rw [hrun]; exact houtcome⟩
  | error e j' =>
    rw [hp] at hforget houtcome
    have hrun : (do let a ← p; Journaled.tell (n a); return a) j = .error e j' :=
      bind_apply_of_error hp
    exact ⟨by rw [hrun]; exact hforget, by rw [hrun]; exact houtcome⟩

/-- An action of which nothing is noted. -/
theorem lift (h : j.At stack .runs) (hq : q.Adds)
    (hQ : ∀ a c, q j.chronicle = .ok a c → j.chronicle.entries <:+ c.entries →
      Journal.At { j with chronicle := c } stack .runs → Q a { j with chronicle := c }) :
    Leads j (lift q) q Q := by
  -- the journal may only have been added to, so what was in order is still
  have hadds := hq j.chronicle
  cases hrun : q j.chronicle with
  | ok a c =>
    rw [hrun] at hadds
    have hlift : Journaled.lift q j = .ok a { j with chronicle := c } := Act.onPart_of_ok hrun
    refine ⟨by rw [hlift, hrun]; rfl, ?_⟩
    rw [hlift]
    exact ⟨hadds, hQ a c hrun hadds (Orderly.mono h hadds)⟩
  | error e c =>
    rw [hrun] at hadds
    have hlift : Journaled.lift q j = .error e { j with chronicle := c } :=
      Act.onPart_of_error hrun
    refine ⟨by rw [hlift, hrun]; rfl, ?_⟩
    rw [hlift]
    exact ⟨stack, Orderly.mono h hadds⟩

/-- An action of which nothing is noted, whatever it yields. -/
theorem silent (h : j.At stack .runs) (hq : q.Adds) :
    Leads j (Journaled.lift q) q fun _ j' => j'.At stack .runs :=
  lift h hq fun _ _ _ _ hat => hat

/-- A mere step. -/
theorem step (h : j.At stack .runs) (action : Run α) :
    Leads j (evaluator.lift action) (Logged.evaluator.lift action) fun _ j' => j'.At stack .runs :=
  silent h (.lift action)

/-- An action that is told. -/
theorem record (event : α → Happening) (action : Watched α) (h : j.At stack .runs) :
    Leads j (Journaled.lift (Logged.record event action)) (Logged.record event action) fun a j' =>
      j'.At stack .runs ∧ Happened j'.chronicle.entries (event a) := by
  refine lift h (.record _ _) fun a c hrun _ hat => ⟨hat, ?_⟩
  unfold Logged.record at hrun
  cases haction : action j.chronicle.watch with
  | ok b w =>
    rw [haction] at hrun
    cases hrun
    exact happened_cons
  | error e w =>
    rw [haction] at hrun
    cases hrun

/-- Binding a method. -/
theorem bindMethod (h : j.At stack .runs) (method : Closure) (this : Value) :
    Leads j (evaluator.bindMethod method this) (Logged.evaluator.bindMethod method this)
      fun bound j' => j'.At stack .runs ∧
        Happened j'.chronicle.entries (.binds method this bound) :=
  record (.binds method this ·) (Watched.bindMethod method this) h

/-- What a call of a function yields can always be said. -/
theorem callResult {c : Closure} {flow : Flow} (h : j.At stack phase) :
    Leads j (Journaled.lift (Logged.lift (Run.callResult c flow)))
      (Logged.lift (Run.callResult c flow))
      fun result j' => j'.At stack phase ∧ (c.isInitializer = false → result = flow.value) := by
  obtain ⟨v, hrun, hv⟩ := Run.callResult_apply c flow j.chronicle.watch.machine
  have hlogged : Logged.lift (Run.callResult c flow) j.chronicle =
      .ok v (j.recording .step).chronicle := by
    have hwatched : Watched.lift (Run.callResult c flow) j.chronicle.watch =
        .ok v j.chronicle.watch := Act.onPart_of_ok hrun
    unfold Logged.lift Logged.record
    rw [hwatched]
    rfl
  have hlift : Journaled.lift (Logged.lift (Run.callResult c flow)) j = .ok v (j.recording .step) :=
    Act.onPart_of_ok hlogged
  refine ⟨?_, ?_⟩
  · rw [hlift, hlogged]
    rfl
  · rw [hlift]
    exact ⟨List.suffix_cons _ _, h.recording .step, hv⟩

/-- An entry in the chronicle. -/
theorem note {event : Happening} (h : Leads (j.recording event) p q Q) :
    Leads j (do Journaled.lift (Logged.note event); p) (do Logged.note event; q) Q := by
  -- an entry is no note, so the notes are those of what comes behind it
  have hgrow : j.chronicle.entries <:+ (j.recording event).chronicle.entries := List.suffix_cons _ _
  have houtcome := h.outcome
  refine ⟨h.forget_eq, ?_⟩
  show match p (j.recording event) with
    | .ok a j' => j.chronicle.entries <:+ j'.chronicle.entries ∧ Q a j'
    | .error _ j' => ∃ stack, j'.At stack .runs
  cases hp : p (j.recording event) with
  | ok a j' =>
    rw [hp] at houtcome
    exact ⟨hgrow.trans houtcome.1, houtcome.2⟩
  | error e j' =>
    rw [hp] at houtcome
    exact houtcome

/-- A call, from its beginning to its end. -/
theorem call {callee : Value} {arguments : List Value} {body : Journaled Value}
    {body' : Logged Value} {R : Value → Journal → Prop}
    (hbody : Leads (j.recording (.calls callee arguments)) body body' fun result j' =>
      R result (j'.recording (.answers callee arguments result j.chronicle.entries.length))) :
    Leads j (Journaled.call callee arguments body) (Logged.call callee arguments body') R := by
  refine .get ?_
  dsimp only
  exact .note (hbody.bind fun result j' _ hend => .note (.pure hend))

/-- Acting on a machine that is prepared for it and put back. The notes have nothing to do with the
    machine. -/
private theorem within (prepare : Watch → Watch) (putBack : Watch → Watch → Watch)
    (h : Leads { j with chronicle.watch := prepare j.chronicle.watch } p q Q)
    (hQ : ∀ a (j' : Journal) w, Q a j' → Q a { j' with chronicle.watch := w }) :
    Leads j
      (Act.within (fun j : Journal => { j with chronicle.watch := prepare j.chronicle.watch })
        (fun before after => { after with
          chronicle.watch := putBack before.chronicle.watch after.chronicle.watch }) p)
      (Act.within (fun c : Chronicle => { c with watch := prepare c.watch })
        (fun before after => { after with watch := putBack before.watch after.watch }) q) Q := by
  have hforget := h.forget_eq
  have houtcome := h.outcome
  cases hrun : p { j with chronicle.watch := prepare j.chronicle.watch } with
  | ok a j' =>
    rw [hrun] at hforget houtcome
    -- preparing and putting back commute with forgetting the notes
    refine ⟨?_, ?_⟩
    · rw [Act.within_of_ok hrun, Act.within_of_ok hforget.symm]
      rfl
    · rw [Act.within_of_ok hrun]
      exact ⟨houtcome.1, hQ a j' _ houtcome.2⟩
  | error e j' =>
    rw [hrun] at hforget houtcome
    refine ⟨?_, ?_⟩
    · rw [Act.within_of_error hrun, Act.within_of_error hforget.symm]
      rfl
    · rw [Act.within_of_error hrun]
      exact houtcome

/-- Which scope is current has no part in how calls are nested. -/
theorem inScope {scope : ScopeId}
    (h : Leads { j with chronicle.watch := j.chronicle.watch.at_ scope } p q Q)
    (hQ : ∀ a (j' : Journal) w, Q a j' → Q a { j' with chronicle.watch := w }) :
    Leads j (inScope scope p) (Logged.inScope scope q) Q :=
  within (·.at_ scope) (fun w w' => w'.at_ w.machine.current) h hQ

/-- Which line is noted has no part in how calls are nested. -/
theorem duringCall {line : Nat}
    (h : Leads { j with chronicle.watch := j.chronicle.watch.onLine line } p q Q)
    (hQ : ∀ a (j' : Journal) w, Q a j' → Q a { j' with chronicle.watch := w }) :
    Leads j (duringCall line p) (Logged.duringCall line q) Q :=
  within (·.onLine line) (fun w w' => w'.onLine w.machine.callLine) h hQ

/-- Looking up a name. -/
theorem naming (h : j.At stack .runs) (k : Option Nat) (acts : List Activation)
    (reference : Reference) (action : Run α) :
    Leads j (evaluator.naming (k, acts) reference (Journaled.lift (Logged.lift action)))
      (Logged.evaluator.naming acts reference (Logged.lift action)) fun _ j' => j'.At stack .runs :=
  (silent h (.record _ _)).bind fun _ _ _ hj => .step hj _

/-- A property of an instance. -/
theorem readProperty (h : j.At stack .runs) (id : InstanceId) (cls : Class) (name : Token) :
    Leads j (evaluator.readProperty id cls name) (Logged.readProperty id cls name)
      fun _ j' => j'.At stack .runs := by
  refine .get ?_
  dsimp only
  split
  · exact .pure h
  · split
    · exact (silent h (.record _ _)).bind fun _ _ _ hj => .pure hj
    · exact silent h (.lift _)

/-- A method of the superclass. -/
theorem readSuper (h : j.At stack .runs) (id : NodeId) (keyword method : Token) :
    Leads j (evaluator.readSuper id keyword method) (Logged.readSuper id keyword method)
      fun _ j' => j'.At stack .runs := by
  refine .get ?_
  dsimp only
  -- nothing is noted on any of the ways through it, whatever is found
  split
  · exact silent h (.lift _)
  · split
    · split
      · exact silent h (.lift _)
      · split
        · split
          · exact (silent h (.record _ _)).bind fun _ _ _ hj => .pure hj
          · exact silent h (.lift _)
        · exact silent h (.lift _)
    · exact silent h (.lift _)

end Leads

/-! ## Expressions and statements -/

/-- What a call has led to, once it has its value: an activation has ended that has begun at this
    place, or no activation has begun. -/
def Answered (stack : List Frame) (site : CallSite) (v : Value) (j : Journal) : Prop :=
  j.At stack .runs ∨ ∃ f result, f.site = site ∧ j.At stack (.answered f result) ∧
    (v = result ∨ Constructs j.chronicle.entries v f.callee)

/-- An event that is recorded changes nothing about what a call has answered. -/
theorem Answered.recording {stack : List Frame} {site : CallSite} {v : Value} {j : Journal}
    (h : Answered stack site v j) (event : Happening) :
    Answered stack site v (j.recording event) := by
  rcases h with hj | ⟨f, result, hsite, hj, hv⟩
  · exact .inl (hj.recording event)
  · exact .inr ⟨f, result, hsite, hj.recording event,
      hv.imp_right fun hconstructs => hconstructs.mono (List.suffix_cons _ _)⟩

/-- Actions with this bound on their nesting keep notes orderly. Outside of functions statements
    must not return. -/
structure LeadsBelow (n : Nat) : Prop where
  evaluate : ∀ {j : Journal} {stack : List Frame} (acts : List Activation) (e : Expr),
    j.At stack .runs →
    Leads j (evaluate (Frame.innermost stack) acts n e) (Logged.evaluate acts n e)
      fun _ j' => j'.At stack .runs
  callValue : ∀ {j : Journal} {stack : List Frame} {site : CallSite} (v : Value)
    (values : List Value), j.At stack .runs → site.activation = Frame.innermost stack →
    Leads j (callValue site n v values) (Logged.callValue n v values)
      fun result j' => Answered stack site result j'
  callClosure : ∀ {j : Journal} {stack : List Frame} {site : CallSite} (c : Closure)
    (values : List Value), j.At stack .runs → site.activation = Frame.innermost stack →
    Leads j (callClosure site n c values) (Logged.callClosure n c values)
      fun result j' => ∃ f, f.site = site ∧ f.callee = c ∧ j'.At stack (.answered f result)
  execute : ∀ {j : Journal} {stack : List Frame} (acts : List Activation) (s : Stmt),
    j.At stack .runs → Frame.GoesOn stack → (stack = [] → s.WithoutReturn) →
    Leads j (execute (Frame.innermost stack) acts n s) (Logged.execute acts n s)
      fun flow j' => j'.Ends stack flow
  repeatWhile : ∀ {j : Journal} {stack : List Frame} (acts : List Activation) (condition : Expr)
    (body : Stmt), j.At stack .runs → Frame.GoesOn stack → (stack = [] → body.WithoutReturn) →
    Leads j (repeatWhile (Frame.innermost stack) acts n condition body)
      (Logged.repeatWhile acts n condition body) fun flow j' => j'.Ends stack flow

namespace LeadsBelow

variable {n : Nat} {j : Journal} {stack : List Frame} {acts : List Activation}

/-- Without fuel nothing is run. -/
theorem zero : LeadsBelow 0 where
  evaluate _ _ h := .throw h
  callValue _ _ h _ := .throw h
  callClosure _ _ h _ := .throw h
  execute _ _ h _ _ := .throw h
  repeatWhile _ _ _ h _ _ := .throw h

/-- Expressions are evaluated while the body of the same call runs. -/
theorem evaluateAll (h : LeadsBelow n) (hj : j.At stack .runs) (es : List Expr) :
    Leads j (evaluateAll (Journaled.evaluate (Frame.innermost stack) acts n) es)
      (Lox.evaluateAll (Logged.evaluate acts n) es) fun _ j' => j'.At stack .runs := by
  induction es generalizing j with
  | nil => exact .pure hj
  | cons e es ih =>
    exact (h.evaluate acts e hj).bind fun _ _ _ hj => (ih hj).bind fun _ _ _ hj => .pure hj

/-- Statements are executed until one of them returns. -/
theorem executeAll (h : LeadsBelow n) (hj : j.At stack .runs) (hgoes : Frame.GoesOn stack)
    (body : List Stmt) (hbody : stack = [] → Stmt.WithoutReturnList body) :
    Leads j (executeAll (Journaled.execute (Frame.innermost stack) acts n) body)
      (Lox.executeAll (Logged.execute acts n) body) fun flow j' => j'.Ends stack flow := by
  induction body generalizing j with
  | nil => exact .pure hj
  | cons s body ih =>
    refine (h.execute acts s hj hgoes fun hstack => (hbody hstack).1).bind
      fun flow j' _ hends => ?_
    -- `Ends` of a normal flow is what the rest starts from; a return leaves nothing to do
    cases flow with
    | normal => exact ih hends fun hstack => (hbody hstack).2
    | returned v => exact .pure hends

/-- Statements in a scope of their own. -/
theorem executeAll_inScope (h : LeadsBelow n) (hj : j.At stack .runs) (hgoes : Frame.GoesOn stack)
    (scope : ScopeId) (body : List Stmt) (hbody : stack = [] → Stmt.WithoutReturnList body) :
    Leads j
      (inScope scope (Lox.executeAll (Journaled.execute (Frame.innermost stack) acts n) body))
      (Logged.inScope scope (Lox.executeAll (Logged.execute acts n) body))
      fun flow j' => j'.Ends stack flow := by
  have hat : Journal.At { j with chronicle.watch := j.chronicle.watch.at_ scope } stack .runs := hj
  exact .inScope (h.executeAll hat hgoes body hbody) fun _ _ _ hend => hend

/-- An expression is evaluated while the body of the same call runs. -/
theorem evaluate_succ (h : LeadsBelow n) (e : Expr) (hj : j.At stack .runs) :
    Leads j (Journaled.evaluate (Frame.innermost stack) acts (n + 1) e)
      (Logged.evaluate acts (n + 1) e) fun _ j' => j'.At stack .runs := by
  cases e with
  | literal => exact .pure hj
  | var | this => exact .naming hj _ _ _ _
  | super =>
    exact (Leads.silent hj (.record _ _)).bind fun _ _ _ hj => .readSuper hj _ _ _
  | grouping => exact h.evaluate acts _ hj
  | unary => exact (h.evaluate acts _ hj).bind fun _ _ _ hj => .step hj _
  | binary =>
    exact (h.evaluate acts _ hj).bind fun _ _ _ hj => (h.evaluate acts _ hj).bind fun _ _ _ hj =>
      .step hj _
  | logical =>
    refine (h.evaluate acts _ hj).bind fun _ _ _ hj => ?_
    split
    · exact .pure hj
    · exact h.evaluate acts _ hj
  | assign =>
    exact (h.evaluate acts _ hj).bind fun _ _ _ hj => (Leads.naming hj _ _ _ _).bind
      fun _ _ _ hj => .pure hj
  | call callee paren arguments =>
    refine (h.evaluate acts _ hj).bind fun v _ _ hj => (h.evaluateAll hj _).bind
      fun values j' _ hj => ?_
    cases v.arity? with
    | none => exact .step hj _
    | some arity =>
      dsimp only
      split
      · -- the call has its value, and it goes on behind it
        have hcall : Leads { j' with chronicle.watch := j'.chronicle.watch.onLine paren.line }
            (Journaled.callValue ⟨Frame.innermost stack, .call callee paren arguments⟩ n v values)
            (Logged.callValue n v values) _ := h.callValue v values hj rfl
        refine .telling (.duringCall (hcall.mono fun result j'' _ hanswered => ?_)
          fun _ _ _ hend => hend)
        rcases hanswered with hj | ⟨f, result', hsite, hj, hv⟩
        · exact .goesOnAlone result rfl hj
        · have hgoesOn := Orderly.goesOn hj (by rw [hsite]) hv
          rwa [hsite] at hgoesOn
      · exact .silent hj (.lift _)
  | get =>
    refine (h.evaluate acts _ hj).bind fun v _ _ hj => ?_
    cases v with
    | instance_ => exact .readProperty hj _ _ _
    | _ => exact .step hj _
  | set object name value =>
    refine (h.evaluate acts _ hj).bind fun v _ _ hj => ?_
    cases v with
    | instance_ id cls =>
      exact (h.evaluate acts _ hj).bind fun v _ _ hj =>
        (Leads.silent hj (.setField id name.lexeme v)).bind fun _ _ _ hj => .pure hj
    | _ => exact .step hj _

/-- What has been called goes on to an initializer that is bound to the new instance. -/
theorem callValue_succ (h : LeadsBelow n) {site : CallSite} (v : Value) (values : List Value)
    (hj : j.At stack .runs) (hsite : site.activation = Frame.innermost stack) :
    Leads j (Journaled.callValue site (n + 1) v values) (Logged.callValue (n + 1) v values)
      fun result j' => Answered stack site result j' := by
  cases v with
  | native info => exact .call ((Leads.silent (hj.recording _) (.lift _)).mono
      fun _ _ _ hj => Answered.recording (.inl hj) _)
  | function c =>
    refine (h.callClosure c values hj hsite).mono fun result j' _ hend => ?_
    obtain ⟨f, hf, -, hj⟩ := hend
    exact .inr ⟨f, result, hf, hj, .inl rfl⟩
  | class_ c =>
    refine .call ((Leads.silent (hj.recording _) (.newInstance c)).bind
      fun this j₁ hgrow₁ hj₁ => ?_)
    cases hfound : c.findMethod? "init" with
    | none => exact .pure (Answered.recording (.inl hj₁) _)
    | some initializer =>
      have hcalls : Happened j₁.chronicle.entries (.calls (.class_ c) values) :=
        happened_cons.mono hgrow₁
      refine (Leads.bindMethod hj₁ initializer this).bind fun bound j₂ hgrow₂ hbound => ?_
      obtain ⟨hj₂, hbinds⟩ := hbound
      refine (h.callClosure bound values hj₂ hsite).bind fun result j₃ hgrow₃ hend => ?_
      obtain ⟨f, hf, rfl, hj₃⟩ := hend
      -- it goes on with the new instance, whatever the initializer has yielded
      have hconstructs : Constructs j₃.chronicle.entries this f.callee :=
        ⟨c, initializer, values, hcalls.mono (hgrow₂.trans hgrow₃), hfound, hbinds.mono hgrow₃⟩
      exact .pure (Answered.recording (.inr ⟨f, result, hf, hj₃, .inr hconstructs⟩) _)
  | _ => exact .pure (.inl hj)

/-- A call of a function is an activation of it. -/
theorem callClosure_succ (h : LeadsBelow n) {site : CallSite} (c : Closure) (values : List Value)
    (hj : j.At stack .runs) (hsite : site.activation = Frame.innermost stack) :
    Leads j (Journaled.callClosure site (n + 1) c values) (Logged.callClosure (n + 1) c values)
      fun result j' => ∃ f, f.site = site ∧ f.callee = c ∧ j'.At stack (.answered f result) := by
  -- the new activation, the innermost one while the body is executed
  let f : Frame := ⟨j.notes.length, site, c, none⟩
  have henters : (j.noting (.enters j.notes.length site c)).At (f :: stack) .runs :=
    .enters c hsite hj
  refine .look (.tell (.telling (.call (.get ?_))))
  dsimp only
  refine (Leads.silent (henters.recording _) (.record _ _)).bind fun scope j₁ _ hj₁ => ?_
  refine (Leads.step hj₁ _).bind fun _ j₂ _ hj₂ => ?_
  -- in a function the body may return
  have hgoes : Frame.GoesOn (f :: stack) := by simp [Frame.GoesOn, f]
  refine (h.executeAll_inScope hj₂ hgoes scope c.declaration.body (by simp)).bind
    fun flow j₃ _ hends => ?_
  cases flow with
  | normal =>
    refine (Leads.callResult hends).mono fun result j₄ _ hend => ?_
    obtain ⟨hj₄, hresult⟩ := hend
    exact ⟨f, rfl, rfl, Journal.At.leaves .normal hj₄ (fun _ => rfl) hresult values _⟩
  | returned v =>
    -- it is this activation in which the `return` has been executed
    obtain ⟨f', outer, value, hstack, hj₃⟩ := hends
    cases hstack
    refine (Leads.callResult hj₃).mono fun result j₄ _ hend => ?_
    obtain ⟨hj₄, hresult⟩ := hend
    exact ⟨f.exiting value, rfl, rfl,
      Journal.At.leaves (.returned v) hj₄ (by simp) hresult values _⟩

/-- A statement is executed, and if it returns then the call of the innermost frame ends. -/
theorem execute_succ (h : LeadsBelow n) (s : Stmt) (hj : j.At stack .runs)
    (hgoes : Frame.GoesOn stack) (hs : stack = [] → s.WithoutReturn) :
    Leads j (Journaled.execute (Frame.innermost stack) acts (n + 1) s)
      (Logged.execute acts (n + 1) s) fun flow j' => j'.Ends stack flow := by
  -- all statements but `return` leave the innermost activation as it is
  have hnext (hret : ∀ keyword value, s ≠ .ret keyword value) :
      (j.noting (.executes (Frame.innermost stack) s)).At stack .runs := .executes hret hgoes hj
  refine .tell ?_
  cases s with
  | expression => exact (h.evaluate acts _ (hnext (by simp))).bind fun _ _ _ hj => .pure hj
  | print =>
    exact (h.evaluate acts _ (hnext (by simp))).bind fun _ _ _ hj =>
      (Leads.step hj _).bind fun _ _ _ hj => .pure hj
  | varDecl name initializer =>
    cases initializer with
    | none => exact (Leads.step (hnext (by simp)) _).bind fun _ _ _ hj => .pure hj
    | some =>
      exact (h.evaluate acts _ (hnext (by simp))).bind fun _ _ _ hj =>
        (Leads.step hj _).bind fun _ _ _ hj => .pure hj
  | block body =>
    refine .get ((Leads.silent (hnext (by simp)) (.lift _)).bind fun scope j' _ hj => ?_)
    exact h.executeAll_inScope hj hgoes scope body hs
  | cond condition thenBranch elseBranch =>
    cases elseBranch with
    | none =>
      refine (h.evaluate acts condition (hnext (by simp))).bind fun v _ _ hj => ?_
      split
      · exact h.execute acts thenBranch hj hgoes hs
      · exact .pure hj
    | some elseBranch =>
      refine (h.evaluate acts condition (hnext (by simp))).bind fun v _ _ hj => ?_
      split
      · exact h.execute acts thenBranch hj hgoes fun hstack => (hs hstack).1
      · exact h.execute acts elseBranch hj hgoes fun hstack => (hs hstack).2
  | loop condition body => exact h.repeatWhile acts condition body (hnext (by simp)) hgoes hs
  | funDecl declaration =>
    exact (Leads.silent (hnext (by simp)) (.declareFunction acts declaration)).bind
      fun _ _ _ hj => .pure hj
  | ret keyword value =>
    -- there is an activation that can end
    obtain ⟨f, outer, rfl⟩ := List.exists_cons_of_ne_nil fun hstack => hs hstack
    have hj : (j.noting (.executes (some f.activation) (.ret keyword value))).At
        (f.exiting value :: outer) .runs := .exits keyword value (hgoes f rfl) hj
    cases value with
    | none => exact .tell (.pure ⟨f, outer, none, rfl, .returns rfl (fun _ => rfl) hj⟩)
    | some value =>
      exact (h.evaluate acts value hj).bind fun v _ _ hj =>
        .tell (.pure ⟨f, outer, some value, rfl, .returns rfl (by simp) hj⟩)
  | classDecl declaration =>
    obtain ⟨name, superclass, methods⟩ := declaration
    cases superclass with
    | none =>
      exact (Leads.silent (hnext (by simp)) (.declareClass acts name none methods)).bind
        fun _ _ _ hj => .pure hj
    | some =>
      exact (h.evaluate acts _ (hnext (by simp))).bind fun _ _ _ hj =>
        (Leads.step hj _).bind fun c _ _ hj =>
          (Leads.silent hj (.declareClass acts name (some c) methods)).bind
            fun _ _ _ hj => .pure hj

/-- The rounds of a loop are executed until one of them returns. -/
theorem repeatWhile_succ (h : LeadsBelow n) (condition : Expr) (body : Stmt) (hj : j.At stack .runs)
    (hgoes : Frame.GoesOn stack) (hbody : stack = [] → body.WithoutReturn) :
    Leads j (Journaled.repeatWhile (Frame.innermost stack) acts (n + 1) condition body)
      (Logged.repeatWhile acts (n + 1) condition body) fun flow j' => j'.Ends stack flow := by
  -- the note says that a round begins, so it is taken before the condition is evaluated
  have hj : (j.noting (.loops (Frame.innermost stack))).At stack .runs := .loops hgoes hj
  refine .tell ((h.evaluate acts condition hj).bind fun v _ _ hj => ?_)
  split
  · refine (h.execute acts body hj hgoes hbody).bind fun flow _ _ hends => ?_
    cases flow with
    | normal => exact h.repeatWhile acts condition body hends hgoes hbody
    | returned v => exact .pure hends
  · exact .pure hj

/-- All actions keep notes orderly. -/
theorem all (n : Nat) : LeadsBelow n := by
  induction n with
  | zero => exact zero
  | succ n ih =>
    exact ⟨fun _ => ih.evaluate_succ, ih.callValue_succ, ih.callClosure_succ,
      fun _ => ih.execute_succ, fun _ => ih.repeatWhile_succ⟩

end LeadsBelow

/-- When an action ends, or is aborted, its notes are orderly. -/
theorem Leads.after {α : Type} {j : Journal} {p : Journaled α} {q : Logged α} {stack : List Frame}
    (h : Leads j p q fun _ j' => j'.At stack .runs) :
    (Journal.after (p j)).chronicle = Chronicle.after (q j.chronicle) ∧
      ∃ stack, (Journal.after (p j)).At stack .runs := by
  have hforget := h.forget_eq
  have houtcome := h.outcome
  cases hrun : p j with
  | ok a j' =>
    rw [hrun] at hforget houtcome
    exact ⟨congrArg Chronicle.after hforget, stack, houtcome.2⟩
  | error e j' =>
    rw [hrun] at hforget houtcome
    exact ⟨congrArg Chronicle.after hforget, houtcome⟩

/-- The notes of a program are orderly, and in the end all activations have ended unless the run is
    aborted. -/
theorem program_leads {j : Journal} (bound : Nat) {statements : List Stmt} (hj : j.At [] .runs)
    (h : Stmt.WithoutReturnList statements) :
    Leads j (program bound statements) (Logged.program bound statements)
      fun _ j' => j'.At [] .runs := by
  induction statements generalizing j with
  | nil => exact .step hj _
  | cons s statements ih =>
    refine ((LeadsBelow.all bound).execute [] s hj (by simp [Frame.GoesOn]) fun _ => h.1).bind
      fun flow j' _ hends => ?_
    cases flow with
    | normal => exact ih hends h.2
    | returned v =>
      -- there is no activation that could end
      obtain ⟨f, outer, value, hstack, -⟩ := hends
      cases hstack

end Journaled

end Lox
