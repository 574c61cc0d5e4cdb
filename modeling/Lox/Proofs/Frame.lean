import Lox.Session

/-!
# What a run leaves as it is

However a run ends, the machine is in the scope again in which it was before, and the line of the
call in progress is put back. A run neither starts another global scope nor registers functions of
the host, and records no distances; what has been written stays written. An error of a host function
stands on the line of the closing parenthesis of the call that invoked it.

## Key results

- `Run.Tidy.bind`, `Run.Tidy.inScope`, `Run.Tidy.duringCall`: actions put together
- `Run.Tidy.all`: expressions, calls and statements
- `Run.Tidy.program`: whole programs
-/

namespace Lox

/-- Later states of a sink: bytes may have been added to it, and some of what was to come has come
    about. -/
structure Sink.Grows (s s' : Sink) : Prop where
  writer : ∃ n, s'.writer = s.writer.after n
  flusher : ∃ n, s'.flusher = s.flusher.after n
  written : ∃ out, s'.written = s.written ++ out

namespace Sink

/-- No write and no flush fails, now or later. -/
structure TakesAll (s : Sink) : Prop where
  writer : s.writer = .limited none
  flusher : s.flusher = .always none

variable {s s' s'' : Sink}

namespace Grows

theorem refl (s : Sink) : s.Grows s :=
  ⟨⟨0, by simp⟩, ⟨0, by simp⟩, .empty, by simp⟩

theorem trans (h : s.Grows s') (h' : s'.Grows s'') : s.Grows s'' := by
  obtain ⟨⟨m, hm⟩, ⟨n, hn⟩, out, hout⟩ := h
  obtain ⟨⟨m', hm'⟩, ⟨n', hn'⟩, out', hout'⟩ := h'
  refine ⟨⟨m + m', ?_⟩, ⟨n + n', ?_⟩, out ++ out', ?_⟩
  · rw [hm', hm, Answers.after_after]
  · rw [hn', hn, Answers.after_after]
  · rw [hout', hout, ByteArray.append_assoc]

/-- A limit stays. -/
theorem limited (h : s.Grows s') {capacity : Option Nat} (hs : s.writer = .limited capacity) :
    s'.writer = .limited capacity := by
  obtain ⟨n, hn⟩ := h.writer
  rw [hn, hs]
  rfl

/-- Flushes that always end alike go on to do so. -/
theorem always (h : s.Grows s') {fault : Option OutputFault} (hs : s.flusher = .always fault) :
    s'.flusher = .always fault := by
  obtain ⟨n, hn⟩ := h.flusher
  rw [hn, hs, Answers.after_always]

/-- A sink that takes all goes on to do so. -/
theorem takesAll (h : s.Grows s') (hs : s.TakesAll) : s'.TakesAll :=
  ⟨h.limited hs.writer, h.always hs.flusher⟩

end Grows

/-- A write takes of the text what there is room for, and all of it unless it fails. -/
theorem write_cases (s : Sink) (text : String) :
    (s.write text = (⟨s.written ++ text.toUTF8, s.writer.after 1, s.flusher⟩, none)) ∨
    ∃ room fault, s.writer.next s.written.size = some ⟨room, fault⟩ ∧
      room < text.toUTF8.size ∧ s.write text =
        (⟨s.written ++ text.toUTF8.extract 0 room, s.writer.after 1, s.flusher⟩, some fault) := by
  unfold write
  cases hobstacle : s.writer.next s.written.size with
  | none => exact .inl rfl
  | some obstacle =>
    obtain ⟨room, fault⟩ := obstacle
    -- an obstacle further on than the text reaches does not matter yet
    by_cases hroom : text.toUTF8.size ≤ room
    · exact .inl (if_pos hroom)
    · exact .inr ⟨room, fault, rfl, by omega, if_neg hroom⟩

/-- A write adds what there is room for. -/
theorem write_grows (s : Sink) (text : String) : s.Grows (s.write text).1 := by
  rcases s.write_cases text with hwrite | ⟨_, _, -, -, hwrite⟩ <;> rw [hwrite]
  · exact ⟨⟨1, rfl⟩, ⟨0, by simp⟩, _, rfl⟩
  · exact ⟨⟨1, rfl⟩, ⟨0, by simp⟩, _, rfl⟩

/-- A flush writes nothing. -/
theorem flush_grows (s : Sink) : s.Grows s.flush.1 :=
  ⟨⟨0, by simp [flush]⟩, ⟨1, rfl⟩, .empty, by simp [flush]⟩

end Sink

/-- What is the same before and after a run. Output may have been added. -/
structure Machine.SameFrame (m m' : Machine) : Prop where
  current : m'.current = m.current
  callLine : m'.callLine = m.callLine
  globals : m'.globals = m.globals
  distances : m'.distances = m.distances
  natives : m'.natives = m.natives
  sink : m.sink.Grows m'.sink

namespace Machine.SameFrame

theorem refl (m : Machine) : m.SameFrame m :=
  ⟨rfl, rfl, rfl, rfl, rfl, .refl _⟩

/-- The clock does not belong to the frame. -/
theorem tick (m : Machine) : m.SameFrame m.tick :=
  ⟨rfl, rfl, rfl, rfl, rfl, .refl _⟩

theorem trans {m m' m'' : Machine} (h : m.SameFrame m') (h' : m'.SameFrame m'') :
    m.SameFrame m'' :=
  ⟨h'.current.trans h.current, h'.callLine.trans h.callLine, h'.globals.trans h.globals,
    h'.distances.trans h.distances, h'.natives.trans h.natives, h.sink.trans h'.sink⟩

end Machine.SameFrame

namespace Run

variable {α β : Type}

/-- The machine that an action leaves behind, also if it is aborted. -/
def after (p : Run α) (m : Machine) : Machine :=
  match p m with
  | .ok _ m' | .error _ m' => m'

/-- Behind an action that yields a value there is the machine that it yields. -/
theorem after_of_ok {p : Run α} {m m' : Machine} {a : α} (h : p m = .ok a m') : p.after m = m' := by
  rw [after, h]

/-- Behind an action that is aborted there is the machine at that moment. -/
theorem after_of_error {p : Run α} {m m' : Machine} {e : Abort} (h : p m = .error e m') :
    p.after m = m' := by
  rw [after, h]

/-- A call of a host function that failed: its callee and its arguments have been evaluated, and the
    function has been invoked. -/
structure FailedCall where
  bound : Nat
  callee : Expr
  paren : Token
  arguments : List Expr
  start : Machine
  called : Machine
  invoked : Machine
  info : NativeInfo
  values : List Value
  native : Native
  message : String
  callee_eq : evaluate bound callee start = .ok (.native info) called
  arguments_eq : evaluateAll (evaluate bound) arguments called = .ok values invoked
  registered : invoked.natives[info.id]? = some native
  failed : native.run invoked.clock.next invoked.fields values = .error message

/-- The error of a call that failed stands on the line of its closing parenthesis. -/
def FailedCall.error (c : FailedCall) : RuntimeError :=
  ⟨.native c.info.name c.message, c.paren.line⟩

/-- An action leaves the frame of the machine as it is. If it ends with the error of a host
    function, a call failed with this error, and nothing has happened on the machine since but that
    the clock was read for the call. -/
structure Tidy (p : Run α) (m : Machine) : Prop where
  frame : m.SameFrame (p.after m)
  native_error : ∀ name message line m', p m = .error (.runtime ⟨.native name message, line⟩) m' →
    ∃ c : FailedCall, c.error = ⟨.native name message, line⟩ ∧
      m' = { c.invoked.tick with current := m.current, callLine := m.callLine }

namespace Tidy

variable {m : Machine}

/-! ## Actions put together -/

/-- An action that yields a value has only to leave the frame as it is. -/
theorem of_ok {p : Run α} {a : α} {m' : Machine} (h : p m = .ok a m') (hframe : m.SameFrame m') :
    Tidy p m := by
  refine ⟨by rwa [after_of_ok h], fun name message line m'' herror => ?_⟩
  rw [h] at herror
  cases herror

theorem pure (a : α) : Tidy (Pure.pure a) m :=
  ⟨.refl m, fun _ _ _ _ h => nomatch h⟩

theorem throw {e : Abort} (h : ∀ name message line, e ≠ .runtime ⟨.native name message, line⟩) :
    Tidy (throw e : Run α) m := by
  refine ⟨.refl m, fun name message line m' hrun => ?_⟩
  cases hrun
  exact absurd rfl (h name message line)

/-- The errors that the interpreter makes are not those of a host function. -/
theorem fail {t : Token} {fault : RuntimeFault} (h : ∀ name message, fault ≠ .native name message) :
    Tidy (Run.fail t fault : Run α) m := by
  apply throw
  intro name message line heq
  cases heq
  exact h name message rfl

/-- In a sequence the second action starts on the machine that the first one leaves. -/
theorem bind {p : Run α} {f : α → Run β} (hp : Tidy p m)
    (hf : ∀ a m', p m = .ok a m' → Tidy (f a) m') : Tidy (p >>= f) m := by
  have hbind : ∀ m₀, (p >>= f) m₀ = EStateM.bind p f m₀ := fun _ => rfl
  cases hrun : p m with
  | ok a m' =>
    have hframe := hp.frame
    rw [after_of_ok hrun] at hframe
    have hrest := hf a m' hrun
    have heq : (p >>= f) m = f a m' := by rw [hbind, EStateM.bind, hrun]
    refine ⟨?_, fun name message line m'' h => ?_⟩
    · rw [after, heq]
      exact hframe.trans hrest.frame
    · rw [heq] at h
      obtain ⟨c, herror, hm''⟩ := hrest.native_error name message line m'' h
      -- scope and line of the call are those before the rest, hence those before the first action
      refine ⟨c, herror, ?_⟩
      rw [hm'', hframe.current, hframe.callLine]
  | error e m' =>
    have heq : (p >>= f) m = .error e m' := by rw [hbind, EStateM.bind, hrun]
    refine ⟨?_, fun name message line m'' h => ?_⟩
    · rw [after_of_error heq, ← after_of_error hrun]
      exact hp.frame
    · rw [heq] at h
      cases h
      exact hp.native_error name message line m' hrun

/-- An action after which it does not matter what it yielded. -/
theorem andThen {p : Run α} {f : α → Run β} (hp : Tidy p m) (hf : ∀ a m', Tidy (f a) m') :
    Tidy (p >>= f) m :=
  hp.bind fun a m' _ => hf a m'

/-- Looking at the machine. -/
theorem get {f : Machine → Run β} (hf : Tidy (f m) m) :
    Tidy (do let m ← MonadState.get; f m) m :=
  ⟨hf.frame, hf.native_error⟩

/-- Changing the machine, but not its frame. -/
theorem modify {f : Machine → Machine} (hf : m.SameFrame (f m)) : Tidy (modify f : Run Unit) m :=
  ⟨hf, fun _ _ _ _ h => nomatch h⟩

/-- What is prepared for a tidy action is put back. -/
private theorem within {p : Run α} {prepare : Machine → Machine}
    {putBack : Machine → Machine → Machine} (hp : Tidy p (prepare m))
    (hframe : ∀ m', (prepare m).SameFrame m' → m.SameFrame (putBack m m'))
    (hputBack : ∀ m' : Machine, putBack m
      { m' with current := (prepare m).current, callLine := (prepare m).callLine } =
        { m' with current := m.current, callLine := m.callLine }) :
    Tidy (p.within prepare putBack) m := by
  have hinner := hp.frame
  cases hrun : p (prepare m) with
  | ok a m' =>
    rw [after_of_ok hrun] at hinner
    exact of_ok (Act.within_of_ok hrun) (hframe m' hinner)
  | error e m' =>
    rw [after_of_error hrun] at hinner
    have hq : p.within prepare putBack m = .error e (putBack m m') := Act.within_of_error hrun
    -- the machine of a failed call is only changed by what is put back
    refine ⟨?_, fun name message line m'' h => ?_⟩
    · rw [after_of_error hq]
      exact hframe m' hinner
    · rw [hq] at h
      cases h
      obtain ⟨c, herror, rfl⟩ := hp.native_error name message line m' hrun
      exact ⟨c, herror, hputBack c.invoked.tick⟩

/-- The scope that was current is current again afterwards, also if the action is aborted. -/
theorem inScope {p : Run α} {scope : ScopeId} (hp : Tidy p { m with current := scope }) :
    Tidy (Run.inScope scope p) m :=
  within hp (fun _ h => ⟨rfl, h.callLine, h.globals, h.distances, h.natives, h.sink⟩) fun _ => rfl

/-- The line that was noted for calls is noted again afterwards, also if the action is aborted. -/
theorem duringCall {p : Run α} {line : Nat} (hp : Tidy p { m with callLine := line }) :
    Tidy (Run.duringCall line p) m :=
  within hp (fun _ h => ⟨h.current, rfl, h.globals, h.distances, h.natives, h.sink⟩) fun _ => rfl

/-! ## Steps of a run -/

/-- A new scope does not belong to the frame. -/
theorem openScope (parent : ScopeId) : Tidy (Run.openScope parent) m :=
  ⟨⟨rfl, rfl, rfl, rfl, rfl, .refl _⟩, fun _ _ _ _ h => nomatch h⟩

/-- What names are bound to does not belong to the frame. -/
theorem define (scope : ScopeId) (name : String) (v : Value) : Tidy (Run.define scope name v) m :=
  modify ⟨rfl, rfl, rfl, rfl, rfl, .refl _⟩

/-- A declared name does not belong to the frame. -/
theorem declareHere (name : String) : Tidy (Run.declareHere name) m :=
  modify ⟨rfl, rfl, rfl, rfl, rfl, .refl _⟩

/-- A defined name does not belong to the frame. -/
theorem defineHere (name : String) (v : Value) : Tidy (Run.defineHere name v) m :=
  modify ⟨rfl, rfl, rfl, rfl, rfl, .refl _⟩

/-- The number of the next object does not belong to the frame. -/
theorem freshObject : Tidy Run.freshObject m :=
  ⟨⟨rfl, rfl, rfl, rfl, rfl, .refl _⟩, fun _ _ _ _ h => nomatch h⟩

/-- Neither the fields of a new instance nor its number belong to the frame. -/
theorem newInstance (cls : Class) : Tidy (Run.newInstance cls) m :=
  ⟨⟨rfl, rfl, rfl, rfl, rfl, .refl _⟩, fun _ _ _ _ h => nomatch h⟩

/-- Fields do not belong to the frame. -/
theorem setField (id : InstanceId) (name : String) (v : Value) :
    Tidy (Run.setField id name v) m :=
  modify ⟨rfl, rfl, rfl, rfl, rfl, .refl _⟩

/-- A bound method opens a scope, but is not entered by that. -/
theorem bindMethod (method : Closure) (this : Value) : Tidy (Run.bindMethod method this) m :=
  (openScope method.scope).andThen fun _ _ => (define _ _ _).andThen fun _ _ =>
    freshObject.andThen fun _ _ => pure _

/-- Output may fail, but not with the error of a host function. -/
theorem onSink {action : Sink → Sink × Option OutputFault}
    (hgrows : m.sink.Grows (action m.sink).1) : Tidy (Run.onSink action) m := by
  rcases haction : action m.sink with ⟨sink, _ | fault⟩
  · rw [haction] at hgrows
    have heq : Run.onSink action m = .ok () { m with sink } := by rw [Run.onSink, haction]
    exact of_ok heq ⟨rfl, rfl, rfl, rfl, rfl, hgrows⟩
  · rw [haction] at hgrows
    have heq : Run.onSink action m = .error (.output fault) { m with sink } := by
      rw [Run.onSink, haction]
    -- a fault of the sink is an error of its own
    refine ⟨?_, fun name message line m' h => ?_⟩
    · rw [after_of_error heq]
      exact ⟨rfl, rfl, rfl, rfl, rfl, hgrows⟩
    · rw [heq] at h
      cases h

/-- A line that is written is added to the output. -/
theorem emit (line : String) : Tidy (Run.emit line) m :=
  onSink (m.sink.write_grows _)

/-- A flush adds nothing to the output. -/
theorem flush : Tidy Run.flush m :=
  onSink m.sink.flush_grows

/-- An undefined variable is an error of the interpreter itself. -/
theorem readVariable (id : NodeId) (name : Token) : Tidy (Run.readVariable id name) m := by
  have hlookUp : Tidy (Run.lookUp? id name.lexeme) m := by
    apply get
    cases m.distances.get? id with
    | none => exact pure _
    | some d => exact pure _
  refine hlookUp.andThen fun binding m' => ?_
  match binding with
  | some (.value v) => exact pure v
  | some .uninitialized => exact fail nofun
  | none => exact fail nofun

/-- An assignment to an undefined variable is an error of the interpreter itself. -/
theorem writeVariable (id : NodeId) (name : Token) (v : Value) :
    Tidy (Run.writeVariable id name v) m := by
  apply get
  split
  · split
    · exact define _ name.lexeme v
    · exact fail nofun
  · split
    · exact define m.globals name.lexeme v
    · exact fail nofun

/-- An undefined property is an error of the interpreter itself. -/
theorem readProperty (id : InstanceId) (cls : Class) (name : Token) :
    Tidy (Run.readProperty id cls name) m := by
  apply get
  dsimp only
  split
  · exact pure _
  · split
    · exact (bindMethod _ _).andThen fun bound _ => pure (Value.function bound)
    · exact fail nofun

/-- An undefined property of the superclass is an error of the interpreter itself. -/
theorem readSuper (id : NodeId) (keyword method : Token) :
    Tidy (Run.readSuper id keyword method) m := by
  apply get
  dsimp only
  -- the superclass, the instance and the method are looked for one after the other
  split
  · exact fail nofun
  · split
    · split
      · exact fail nofun
      · split
        · split
          · exact (bindMethod _ _).andThen fun bound _ => pure (Value.function bound)
          · exact fail nofun
        · exact fail nofun
    · exact fail nofun

/-! ## Calls of host functions -/

/-- What a call does with a host function, once its callee and its arguments are evaluated. -/
theorem run_duringCall_native (n : Nat) (info : NativeInfo) (values : List Value) (line : Nat) :
    Run.duringCall line (Run.callValue (n + 1) (.native info) values) m =
      match m.natives[info.id]? with
      | none => .ok .nil m.tick
      | some native =>
        match native.run m.clock.next m.fields values with
        | .ok v => .ok v m.tick
        | .error message => .error (.runtime ⟨.native info.name message, line⟩) m.tick := by
  have hcall : Run.callValue (n + 1) (.native info) values { m with callLine := line } =
      Run.callNative info values { m with callLine := line } := rfl
  rw [Run.duringCall, Act.within_apply, hcall, callNative_apply]
  dsimp only
  -- the clock is read in any case, and the line of the call is put back
  cases m.natives[info.id]? with
  | none => rfl
  | some native =>
    dsimp only
    cases native.run m.clock.next m.fields values <;> rfl

/-- A call of a host function, whatever has been done to evaluate its callee and its arguments. -/
theorem duringCall_native {n : Nat} {callee : Expr} {paren : Token} {arguments : List Expr}
    {start called : Machine} {info : NativeInfo} {values : List Value}
    (hcallee : evaluate n callee start = .ok (.native info) called)
    (harguments : evaluateAll (evaluate n) arguments called = .ok values m) :
    Tidy (Run.duringCall paren.line (Run.callValue n (.native info) values)) m := by
  cases n with
  -- without a bound left the callee would not have been evaluated
  | zero => cases hcallee
  | succ n =>
    have hrun := run_duringCall_native (m := m) n info values paren.line
    cases hregistered : m.natives[info.id]? with
    | none =>
      rw [hregistered] at hrun
      exact of_ok hrun (.tick m)
    | some native =>
      rw [hregistered] at hrun
      dsimp only at hrun
      cases hnative : native.run m.clock.next m.fields values with
      | ok v =>
        rw [hnative] at hrun
        exact of_ok hrun (.tick m)
      | error message =>
        rw [hnative] at hrun
        refine ⟨?_, fun name message' line m' h => ?_⟩
        · rw [after_of_error hrun]
          exact .tick m
        · rw [hrun] at h
          cases h
          exact ⟨⟨n + 1, callee, paren, arguments, start, called, m, info, values, native, message,
            hcallee, harguments, hregistered, hnative⟩, rfl, rfl⟩

/-! ## Expressions and statements -/

/-- What an operator reports is an error of the interpreter itself. -/
theorem ofOperator {operator : Token} {result : Except RuntimeFault Value}
    (h : ∀ name message, result ≠ .error (.native name message)) :
    Tidy (Run.ofOperator operator result) m := by
  cases result with
  | ok v => exact pure v
  | error fault =>
    apply fail
    rintro name message rfl
    exact h name message rfl

/-- No unary operator calls a host function. -/
private theorem applyUnary_ne (operator : TokenKind) (v : Value) (name message : String) :
    applyUnary operator v ≠ .error (.native name message) := by
  unfold applyUnary
  split <;> nofun

/-- No binary operator calls a host function. -/
private theorem applyBinary_ne (operator : TokenKind) (v w : Value) (name message : String) :
    applyBinary operator v w ≠ .error (.native name message) := by
  unfold applyBinary
  split
  · split <;> nofun
  · nofun
  · nofun
  · split
    · unfold applyNumeric
      split <;> nofun
    · nofun

/-- If each expression is tidy, so is a list of them. -/
theorem evaluateAll {evaluate : Expr → Run Value} (h : ∀ e m, Tidy (evaluate e) m)
    (es : List Expr) : Tidy (Lox.evaluateAll evaluate es) m := by
  induction es generalizing m with
  | nil => exact pure []
  | cons e rest ih => exact (h e m).andThen fun v _ => ih.andThen fun vs _ => pure (v :: vs)

/-- If each statement is tidy, so is a list of them. -/
theorem executeAll {execute : Stmt → Run Flow} (h : ∀ s m, Tidy (execute s) m)
    (body : List Stmt) : Tidy (Lox.executeAll execute body) m := by
  induction body generalizing m with
  | nil => exact pure Flow.normal
  | cons s rest ih =>
    refine (h s m).andThen fun flow _ => ?_
    cases flow with
    | normal => exact ih
    | returned v => exact pure (Flow.returned v)

/-- Parameters are defined in the scope of the call. -/
theorem defineParams (scope : ScopeId) (params : List Token) (values : List Value) :
    Tidy (Run.defineParams scope params values) m := by
  induction params generalizing values m with
  | nil => exact pure ()
  | cons param params ih =>
    cases values with
    | nil => exact pure ()
    | cons v values => exact (define scope param.lexeme v).andThen fun _ _ => ih values

/-- What a call yields is found in the scope of the method. -/
theorem callResult (c : Closure) (flow : Flow) : Tidy (Run.callResult c flow) m := by
  unfold Run.callResult
  split
  · apply get
    split
    · exact pure _
    · exact pure _
  · cases flow with
    | normal => exact pure _
    | returned v => exact pure v

/-- Methods are closed over a scope. -/
theorem closeMethods (scope : ScopeId) (ds : List FunctionDecl) :
    Tidy (Run.closeMethods scope ds) m := by
  induction ds generalizing m with
  | nil => exact pure []
  | cons d rest ih =>
    exact freshObject.andThen fun _ _ => ih.andThen fun methods _ => pure _

/-- A superclass that is no class is an error of the interpreter itself. -/
theorem asSuperclass (name : Token) (superclass : Expr) (v : Value) :
    Tidy (Run.asSuperclass name superclass v) m := by
  unfold Run.asSuperclass
  split
  · exact pure _
  · split <;> exact fail nofun

/-- The scope of `super` is opened, but is not entered. -/
theorem openMethods (superclass : Option Class) : Tidy (Run.openMethods superclass) m := by
  cases superclass with
  | none => exact get (pure m.current)
  | some superclass =>
    refine get ((openScope m.current).andThen fun scope _ => ?_)
    exact (define scope "super" _).andThen fun _ _ => pure scope

/-- A function is defined in the current scope. -/
theorem declareFunction (declaration : FunctionDecl) :
    Tidy (Run.declareFunction declaration) m :=
  freshObject.andThen fun _ _ => get ((defineHere _ _).andThen fun _ _ => pure _)

/-- A class and its methods are defined in the current scope. -/
theorem declareClass (name : Token) (superclass : Option Class) (methods : List FunctionDecl) :
    Tidy (Run.declareClass name superclass methods) m :=
  (declareHere name.lexeme).andThen fun _ _ => (openMethods superclass).andThen fun scope _ =>
    (closeMethods scope methods).andThen fun _ _ => freshObject.andThen fun _ _ =>
      (defineHere _ _).andThen fun _ _ => pure _

/-- Runs with this bound on the nesting of actions are tidy. A host function alone is not: it is the
    call around it that gives its error a line. -/
structure AllBelow (n : Nat) : Prop where
  evaluate : ∀ e m, Tidy (Run.evaluate n e) m
  callValue : ∀ v values m, (∀ info, v ≠ .native info) → Tidy (Run.callValue n v values) m
  callClosure : ∀ c values m, Tidy (Run.callClosure n c values) m
  execute : ∀ s m, Tidy (Run.execute n s) m
  repeatWhile : ∀ condition body m, Tidy (Run.repeatWhile n condition body) m

namespace AllBelow

variable {n : Nat}

/-- An expression is tidy if all that it runs with less fuel is. -/
theorem evaluate_succ (h : AllBelow n) (e : Expr) (m : Machine) :
    Tidy (Run.evaluate (n + 1) e) m := by
  cases e with
  | literal value => exact pure _
  | grouping inner => exact h.evaluate inner m
  | unary operator operand =>
    exact (h.evaluate operand m).andThen fun v _ => ofOperator (applyUnary_ne _ v)
  | binary operator left right =>
    refine (h.evaluate left m).andThen fun v m' => (h.evaluate right m').andThen fun w _ => ?_
    exact ofOperator (applyBinary_ne _ v w)
  | logical operator left right =>
    refine (h.evaluate left m).andThen fun v m' => ?_
    split
    · exact pure v
    · exact h.evaluate right m'
  | var id name => exact readVariable id name
  | assign id name value =>
    refine (h.evaluate value m).andThen fun v _ => ?_
    exact (writeVariable id name v).andThen fun _ _ => pure v
  | call callee paren arguments =>
    refine (h.evaluate callee m).bind fun v called hcallee => ?_
    refine (evaluateAll h.evaluate arguments).bind fun values invoked harguments => ?_
    split
    · exact fail nofun
    · split
      · -- only host functions raise errors on the line of the call
        cases v with
        | native info => exact duringCall_native hcallee harguments
        | _ => exact duringCall (h.callValue _ values _ nofun)
      · exact fail nofun
  | get object name =>
    refine (h.evaluate object m).andThen fun v _ => ?_
    split
    · exact readProperty _ _ name
    · exact fail nofun
  | set object name value =>
    refine (h.evaluate object m).andThen fun v m' => ?_
    split
    · refine (h.evaluate value m').andThen fun w _ => ?_
      exact (setField _ name.lexeme w).andThen fun _ _ => pure w
    · exact fail nofun
  | this id keyword => exact readVariable id keyword
  | super id keyword method => exact readSuper id keyword method

/-- A call of anything but a host function is tidy if all that it runs with less fuel is. -/
theorem callValue_succ (h : AllBelow n) (v : Value) (values : List Value) (m : Machine)
    (hv : ∀ info, v ≠ .native info) : Tidy (Run.callValue (n + 1) v values) m := by
  cases v with
  | native info => exact absurd rfl (hv info)
  | function c => exact h.callClosure c values m
  -- the instance is made first, and then its initializer is called on it
  | class_ c =>
    refine (newInstance c).andThen fun this m' => ?_
    split
    · exact pure this
    · refine (bindMethod _ this).andThen fun bound m' => ?_
      exact (h.callClosure bound values m').andThen fun _ _ => pure this
  | _ => exact pure _

/-- The body of a function runs in a scope of its own, which is left again. -/
theorem callClosure_succ (h : AllBelow n) (c : Closure) (values : List Value) (m : Machine) :
    Tidy (Run.callClosure (n + 1) c values) m := by
  refine (openScope c.scope).andThen fun scope _ => ?_
  refine (defineParams scope _ values).andThen fun _ _ => ?_
  exact (inScope (executeAll h.execute _)).andThen fun flow _ => callResult c flow

/-- A statement is tidy if all that it runs with less fuel is. -/
theorem execute_succ (h : AllBelow n) (s : Stmt) (m : Machine) :
    Tidy (Run.execute (n + 1) s) m := by
  -- every step keeps the frame; scopes and calls that are entered are left again
  cases s with
  | expression value => exact (h.evaluate value m).andThen fun _ _ => pure _
  | print value =>
    exact (h.evaluate value m).andThen fun v _ => (emit v.text).andThen fun _ _ => pure _
  | varDecl name initializer =>
    cases initializer with
    | none => exact (declareHere name.lexeme).andThen fun _ _ => pure _
    | some initializer =>
      refine (h.evaluate initializer m).andThen fun v _ => ?_
      exact (defineHere name.lexeme v).andThen fun _ _ => pure _
  | block body =>
    exact get ((openScope m.current).andThen fun scope _ => inScope (executeAll h.execute body))
  | cond condition thenBranch elseBranch =>
    refine (h.evaluate condition m).andThen fun v m' => ?_
    split
    · exact h.execute thenBranch m'
    · cases elseBranch with
      | none => exact pure _
      | some elseBranch => exact h.execute elseBranch m'
  | loop condition body => exact h.repeatWhile condition body m
  | funDecl declaration => exact (declareFunction declaration).andThen fun _ _ => pure _
  | ret keyword value =>
    cases value with
    | none => exact pure _
    | some value => exact (h.evaluate value m).andThen fun v _ => pure _
  | classDecl declaration =>
    obtain ⟨name, superclass, methods⟩ := declaration
    cases superclass with
    | none => exact (declareClass name none methods).andThen fun _ _ => pure _
    | some superclass =>
      refine (h.evaluate superclass m).andThen fun v _ => ?_
      refine (asSuperclass name superclass v).andThen fun c _ => ?_
      exact (declareClass name (some c) methods).andThen fun _ _ => pure _

/-- A loop is tidy if each round is, with less fuel. -/
theorem repeatWhile_succ (h : AllBelow n) (condition : Expr) (body : Stmt) (m : Machine) :
    Tidy (Run.repeatWhile (n + 1) condition body) m := by
  refine (h.evaluate condition m).andThen fun v m' => ?_
  split
  · refine (h.execute body m').andThen fun flow m'' => ?_
    cases flow with
    | normal => exact h.repeatWhile condition body m''
    | returned v => exact pure _
  · exact pure _

end AllBelow

/-- Runs are tidy, whatever the bound on the nesting of actions is. -/
theorem all (n : Nat) : AllBelow n := by
  induction n with
  | zero =>
    exact ⟨fun _ _ => throw nofun, fun _ _ _ _ => throw nofun, fun _ _ _ => throw nofun,
      fun _ _ => throw nofun, fun _ _ _ => throw nofun⟩
  | succ n ih =>
    exact ⟨ih.evaluate_succ, ih.callValue_succ, ih.callClosure_succ, ih.execute_succ,
      ih.repeatWhile_succ⟩

/-- A program leaves the frame as it is, however it ends. -/
theorem program (bound : Nat) (statements : List Stmt) : Tidy (Run.program bound statements) m := by
  induction statements generalizing m with
  | nil => exact flush
  | cons s rest ih => exact ((all bound).execute s m).andThen fun _ _ => ih

end Tidy

/-- Any call, also that of a host function, leaves the frame as it is. -/
theorem callValue_frame (n : Nat) (v : Value) (values : List Value) (m : Machine) :
    m.SameFrame ((callValue n v values).after m) := by
  -- a host function may fail, so it is not tidy, but only the clock has been read for it
  cases v with
  | native info =>
    cases n with
    | zero => exact .refl m
    | succ n =>
      have hrun : callValue (n + 1) (.native info) values m = callNative info values m := rfl
      rw [after, hrun, callNative_apply]
      cases m.natives[info.id]? with
      | none => exact .tick m
      | some native =>
        dsimp only
        cases native.run m.clock.next m.fields values <;> exact .tick m
  | _ => exact ((Tidy.all n).callValue _ values m (by nofun)).frame

/-- A call expression with a host function as callee, whatever has been done to evaluate its
    parts. -/
theorem evaluate_native_call {n : Nat} {callee : Expr} {paren : Token} {arguments : List Expr}
    {start called invoked : Machine} {info : NativeInfo} {values : List Value} {native : Native}
    (hcallee : evaluate n callee start = .ok (.native info) called)
    (harguments : evaluateAll (evaluate n) arguments called = .ok values invoked)
    (hlength : values.length = info.arity) (hnative : invoked.natives[info.id]? = some native) :
    evaluate (n + 1) (.call callee paren arguments) start =
      match native.run invoked.clock.next invoked.fields values with
      | .ok v => .ok v invoked.tick
      | .error message => .error (.runtime ⟨.native info.name message, paren.line⟩) invoked.tick := by
  -- the callee has been evaluated, so there was a nesting left for it
  cases n with
  | zero => cases hcallee
  | succ n =>
    have hcall : evaluate (n + 2) (.call callee paren arguments) start =
        duringCall paren.line (callValue (n + 1) (.native info) values) invoked := by
      simp only [Evaluator.evaluate, bind, EStateM.bind, hcallee, harguments, Value.arity?,
        hlength, if_true]
    rw [hcall, Tidy.run_duringCall_native, hnative]

end Run

end Lox
