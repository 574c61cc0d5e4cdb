import Lox.Proofs.Frame

/-!
# Actions without output

Only a printed line and the flush at the end of a program have to do with the sink. Everything else
that is done in one step is the same with any sink, leaves the sink as it is, and never fails
because of it.

## Key results

- `Run.Quiet.bind`, `Run.Quiet.get`: actions put together
- `Run.Quiet.sink_eq`: the sink stays
-/

namespace Lox

/-- The machine with another sink. -/
def Machine.withSink (m : Machine) (s : Sink) : Machine :=
  { m with sink := s }

/-! ## One action after another -/

section

variable {ε σ α β : Type} {p : EStateM ε σ α} {f : α → EStateM ε σ β} {s s' : σ}

/-- After an action that has succeeded it goes on with the next one. -/
theorem bind_apply_of_ok {a : α} (h : p s = .ok a s') : (p >>= f) s = f a s' := by
  show EStateM.bind p f s = _
  rw [EStateM.bind, h]

/-- After an action that has failed nothing is done. -/
theorem bind_apply_of_error {e : ε} (h : p s = .error e s') : (p >>= f) s = .error e s' := by
  show EStateM.bind p f s = _
  rw [EStateM.bind, h]

end

/-! ## Actions that have nothing to do with the sink -/

namespace Run

variable {α β : Type}

/-- The same result, on a machine with another sink. -/
def resink (s : Sink) : EStateM.Result Abort Machine α → EStateM.Result Abort Machine α
  | .ok a m => .ok a (m.withSink s)
  | .error e m => .error e (m.withSink s)

/-- An action that has nothing to do with the sink. -/
structure Quiet (p : Run α) : Prop where
  frame : ∀ m : Machine, m.SameFrame (p.after m)
  withSink : ∀ m s, p (m.withSink s) = resink s (p m)
  no_fault : ∀ m e m', p m ≠ .error (.output e) m'

namespace Quiet

variable {p : Run α}

/-- The sink stays as it is. -/
theorem sink_eq (h : Quiet p) (m : Machine) : (p.after m).sink = m.sink := by
  have hsame : p m = resink m.sink (p m) := h.withSink m m.sink
  unfold after
  cases hrun : p m with
  | ok a m' | error e m' =>
    rw [hrun] at hsame
    -- a machine that is the same with the old sink has the old sink
    injection hsame with _ hm
    dsimp only
    rw [hm]
    rfl

/-! ## Actions put together -/

theorem pure (a : α) : Quiet (Pure.pure a : Run α) :=
  ⟨fun m => .refl m, fun _ _ => rfl, fun _ _ _ h => nomatch h⟩

theorem throw {e : Abort} (he : ∀ fault, e ≠ .output fault) : Quiet (throw e : Run α) := by
  refine ⟨fun m => .refl m, fun _ _ => rfl, fun m fault m' h => ?_⟩
  cases h
  exact he fault rfl

/-- In a sequence both actions have to be quiet. -/
theorem bind {f : α → Run β} (hp : Quiet p) (hf : ∀ a, Quiet (f a)) : Quiet (p >>= f) := by
  -- the sink is left alone, is not looked at, and is not to blame
  refine ⟨fun m => ?_, fun m s => ?_, fun m e m' h => ?_⟩
  · have hframe := hp.frame m
    cases hrun : p m with
    | ok a m' =>
      rw [after_of_ok hrun] at hframe
      rw [after, bind_apply_of_ok hrun]
      exact hframe.trans ((hf a).frame m')
    | error e m' =>
      rw [after_of_error hrun] at hframe
      rwa [after_of_error (bind_apply_of_error hrun)]
  · have hsink := hp.withSink m s
    cases hrun : p m with
    | ok a m' =>
      rw [hrun] at hsink
      rw [bind_apply_of_ok hrun, bind_apply_of_ok hsink]
      exact (hf a).withSink m' s
    | error e m' =>
      rw [hrun] at hsink
      rw [bind_apply_of_error hrun, bind_apply_of_error hsink]
      rfl
  · cases hrun : p m with
    | ok a m'' =>
      rw [bind_apply_of_ok hrun] at h
      exact (hf a).no_fault m'' e m' h
    | error e' m'' =>
      rw [bind_apply_of_error hrun] at h
      cases h
      exact hp.no_fault m e m' hrun

/-- Looking at the machine, but not at its sink. -/
theorem get {f : Machine → Run β} (hf : ∀ m, Quiet (f m)) (hsink : ∀ m s, f (m.withSink s) = f m) :
    Quiet (do let m ← MonadState.get; f m) := by
  refine ⟨fun m => (hf m).frame m, fun m s => ?_, fun m => (hf m).no_fault m⟩
  show f (m.withSink s) (m.withSink s) = _
  rw [hsink]
  exact (hf m).withSink m s

/-- Changing the machine, but neither its frame nor its sink. -/
theorem modify {f : Machine → Machine} (hframe : ∀ m : Machine, m.SameFrame (f m))
    (hsink : ∀ m s, f (m.withSink s) = (f m).withSink s) : Quiet (modify f : Run Unit) := by
  refine ⟨hframe, fun m s => ?_, fun _ _ _ h => nomatch h⟩
  show EStateM.Result.ok () (f (m.withSink s)) = _
  rw [hsink]
  rfl

/-! ## Steps of a run -/

/-- A runtime error is quiet. -/
theorem fail (t : Token) (fault : RuntimeFault) : Quiet (Run.fail t fault : Run α) := by
  apply throw
  intro e h
  cases h

/-- An operator is quiet. -/
theorem ofOperator (operator : Token) (result : Except RuntimeFault Value) :
    Quiet (Run.ofOperator operator result) := by
  cases result with
  | ok v => exact pure v
  | error fault => exact fail operator fault

/-- A scope is opened without output. -/
theorem openScope (parent : ScopeId) : Quiet (Run.openScope parent) :=
  ⟨fun _ => (Tidy.openScope parent).frame, fun _ _ => rfl, fun _ _ _ h => nomatch h⟩

/-- A name is defined without output. -/
theorem define (scope : ScopeId) (name : String) (v : Value) : Quiet (Run.define scope name v) :=
  modify (fun _ => (Tidy.define scope name v).frame) fun _ _ => rfl

/-- A name is declared without output. -/
theorem declareHere (name : String) : Quiet (Run.declareHere name) :=
  modify (fun _ => (Tidy.declareHere name).frame) fun _ _ => rfl

/-- A name is defined in the current scope without output. -/
theorem defineHere (name : String) (v : Value) : Quiet (Run.defineHere name v) :=
  modify (fun _ => (Tidy.defineHere name v).frame) fun _ _ => rfl

/-- An object is given its number without output. -/
theorem freshObject : Quiet Run.freshObject :=
  ⟨fun _ => Tidy.freshObject.frame, fun _ _ => rfl, fun _ _ _ h => nomatch h⟩

/-- An instance is made without output. -/
theorem newInstance (cls : Class) : Quiet (Run.newInstance cls) :=
  ⟨fun _ => (Tidy.newInstance cls).frame, fun _ _ => rfl, fun _ _ _ h => nomatch h⟩

/-- A field is set without output. -/
theorem setField (id : InstanceId) (name : String) (v : Value) : Quiet (Run.setField id name v) :=
  modify (fun _ => (Tidy.setField id name v).frame) fun _ _ => rfl

/-- A variable is read without output. -/
theorem readVariable (id : NodeId) (name : Token) : Quiet (Run.readVariable id name) := by
  have hlookUp : Quiet (Run.lookUp? id name.lexeme) := by
    refine get (fun m => ?_) fun _ _ => rfl
    cases m.distances.get? id with
    | none => exact pure _
    | some d => exact pure _
  refine hlookUp.bind fun binding => ?_
  match binding with
  | some (.value v) => exact pure v
  | some .uninitialized => exact fail _ _
  | none => exact fail _ _

/-- A variable is assigned without output. -/
theorem writeVariable (id : NodeId) (name : Token) (v : Value) :
    Quiet (Run.writeVariable id name v) := by
  refine get (fun m => ?_) fun _ _ => rfl
  -- on every way at most one scope is written, which is no output
  cases m.distances.get? id with
  | some d =>
    dsimp only
    cases m.scopes.ancestor? m.current d with
    | some scope => exact define scope name.lexeme v
    | none => exact fail _ _
  | none =>
    dsimp only
    cases m.scopes.binding? m.globals name.lexeme with
    | some _ => exact define m.globals name.lexeme v
    | none => exact fail _ _

/-- The clock is read without output. -/
theorem readClock : Quiet Run.readClock :=
  ⟨fun m => .tick m, fun _ _ => rfl, fun _ _ _ h => nomatch h⟩

/-- Host functions are not told of the sink. -/
theorem callNative (info : NativeInfo) (values : List Value) :
    Quiet (Run.callNative info values) := by
  refine readClock.bind fun now => get (fun m => ?_) fun _ _ => rfl
  cases m.natives[info.id]? with
  | none => exact pure _
  | some native =>
    dsimp only
    cases native.run now m.fields values with
    | ok v => exact pure v
    | error message =>
      -- a function fails with a message, never with an error of the sink
      apply throw
      intro e h
      cases h

/-- What a call yields is found without output. -/
theorem callResult (c : Closure) (flow : Flow) : Quiet (Run.callResult c flow) := by
  unfold Run.callResult
  split
  · refine get (fun m => ?_) fun _ _ => rfl
    split
    · exact pure _
    · exact pure _
  · cases flow with
    | normal => exact pure _
    | returned v => exact pure v

/-- A superclass is checked without output. -/
theorem asSuperclass (name : Token) (superclass : Expr) (v : Value) :
    Quiet (Run.asSuperclass name superclass v) := by
  unfold Run.asSuperclass
  split
  · exact pure _
  · split
    · exact fail _ _
    · exact fail _ _

end Quiet

end Run

end Lox
