import Lox.Proofs.Frame
import Lox.Proofs.Renaming

/-!
# Runs under other names

A run never looks at the lines in its code, at an identity only to look up its distance, and at
scopes and objects only to see whether two are the same. It never looks at what has been written
before, nor at scopes and objects that nothing leads to. So if a machine is renamed, if the same
distances are recorded under the new names, and if something else has been written before, the run
does the same as before up to these changes, and its error stands on the mapped line.

## Key results

- `Mirror.bind`, `Mirror.get`: actions one after the other
- `Mirror.program`: the run of a program and that of its image
-/

namespace Lox

/-- How a statement ends, under other names. -/
def Flow.rename (ρ : Renaming) : Flow → Flow
  | .normal => .normal
  | .returned v => .returned (v.rename ρ)

/-- A change of machines that no run notices. -/
structure Mirror where
  names : Renaming
  /-- What is written before everything else. -/
  before : ByteArray
  /-- The distances that are recorded. -/
  recorded : Distances
  /-- The distances that are recorded for the mapped identities. -/
  recorded' : Distances
  natives : Array Native
  get?_relabel : ∀ id, recorded'.get? (id.relabel names.labels) = recorded.get? id
  uniform : ∀ n ∈ natives, n.Uniform

namespace Mirror

variable (μ : Mirror) {α β : Type}

abbrev labels : Relabeling :=
  μ.names.labels

/-- The machines to which the change applies. -/
structure Fits (m : Machine) : Prop where
  distances : m.distances = μ.recorded
  natives : m.natives = μ.natives

/-- The changed sink. It treats what it is given as if nothing had been written before. -/
def sink (s : Sink) : Sink :=
  ⟨μ.before ++ s.written,
    s.writer.map fun obstacle? written => obstacle? (written - μ.before.size), s.flusher⟩

/-- The changed machine. -/
def image (m : Machine) : Machine :=
  { m.rename μ.names with distances := μ.recorded', sink := μ.sink m.sink }

/-- What ends the run on the changed machine. -/
def abort : Abort → Abort
  | .runtime e => .runtime { e with line := μ.labels.line e.line }
  | e => e

/-- The result of the run on the changed machine. -/
def result (g : α → α) : EStateM.Result Abort Machine α → EStateM.Result Abort Machine α
  | .ok a m => .ok (g a) (μ.image m)
  | .error e m => .error (μ.abort e) (μ.image m)

/-- An action does on the changed machine what another does on the machine, and what it yields is
    changed by `g`. -/
def Mirrors (g : α → α) (p p' : Run α) : Prop :=
  ∀ m, μ.Fits m → p' (μ.image m) = μ.result g (p m) ∧ μ.Fits (p.after m)

variable {μ} {g : α → α} {k : β → β}

/-- A machine in the same frame fits as well. -/
theorem Fits.of_sameFrame {m m' : Machine} (hm : μ.Fits m) (h : m.SameFrame m') : μ.Fits m' :=
  ⟨h.distances.trans hm.distances, h.natives.trans hm.natives⟩

/-- What is left behind on the changed machine. -/
theorem Mirrors.after_image {p p' : Run α} (h : μ.Mirrors g p p') {m : Machine} (hm : μ.Fits m) :
    p'.after (μ.image m) = μ.image (p.after m) := by
  have hrun := (h m hm).1
  rw [Run.after, hrun, Run.after]
  cases p m <;> rfl

/-! ## Actions one after the other -/

theorem pure (a : α) : μ.Mirrors g (Pure.pure a) (Pure.pure (g a)) :=
  fun _ hm => ⟨rfl, hm⟩

theorem throw (e : Abort) : μ.Mirrors g (throw e) (throw (μ.abort e)) :=
  fun _ hm => ⟨rfl, hm⟩

/-- An error is mirrored by the one on the other line. -/
theorem fail (t : Token) (fault : RuntimeFault) :
    μ.Mirrors g (Run.fail t fault) (Run.fail (t.relabel μ.labels) fault) :=
  fun _ hm => ⟨rfl, hm⟩

/-- In a sequence the second actions go on from machines that mirror each other. -/
theorem bind {p p' : Run α} {f f' : α → Run β} (hp : μ.Mirrors g p p')
    (hf : ∀ a, μ.Mirrors k (f a) (f' (g a))) : μ.Mirrors k (p >>= f) (p' >>= f') := by
  intro m hm
  obtain ⟨hrun, hfits⟩ := hp m hm
  have hbind : (p >>= f) m = EStateM.bind p f m := rfl
  have hbind' : (p' >>= f') (μ.image m) = EStateM.bind p' f' (μ.image m) := rfl
  cases hpm : p m with
  | ok a m' =>
    -- the rest starts on the machine that the first action left behind, and on its image
    rw [Run.after_of_ok hpm] at hfits
    have hrest := hf a m' hfits
    have heq : (p >>= f) m = f a m' := by rw [hbind, EStateM.bind, hpm]
    have heq' : (p' >>= f') (μ.image m) = f' (g a) (μ.image m') := by
      rw [hbind', EStateM.bind, hrun, hpm]
      rfl
    rw [Run.after, heq, heq']
    exact hrest
  | error e m' =>
    rw [Run.after_of_error hpm] at hfits
    have heq : (p >>= f) m = .error e m' := by rw [hbind, EStateM.bind, hpm]
    have heq' : (p' >>= f') (μ.image m) = .error (μ.abort e) (μ.image m') := by
      rw [hbind', EStateM.bind, hrun, hpm]
      rfl
    rw [heq', heq, Run.after_of_error heq]
    exact ⟨rfl, hfits⟩

/-- Looking at the machine. -/
theorem get {f f' : Machine → Run β} (hf : ∀ m, μ.Fits m → μ.Mirrors k (f m) (f' (μ.image m))) :
    μ.Mirrors k (do let m ← MonadState.get; f m) (do let m ← MonadState.get; f' m) :=
  fun m hm => hf m hm m hm

/-- An action whose result is not changed, and another one. -/
theorem andThen {p p' : Run α} {f f' : α → Run β} (hp : μ.Mirrors id p p')
    (hf : ∀ a, μ.Mirrors k (f a) (f' a)) : μ.Mirrors k (p >>= f) (p' >>= f') :=
  bind hp hf

/-- Changing the machine, but not its distances and its host functions. -/
theorem update {f f' : Machine → Machine} (hf : ∀ m, f' (μ.image m) = μ.image (f m))
    (hdistances : ∀ m, (f m).distances = m.distances)
    (hnatives : ∀ m, (f m).natives = m.natives) : μ.Mirrors id (modify f) (modify f') := by
  intro m hm
  refine ⟨?_, (hdistances m).trans hm.distances, (hnatives m).trans hm.natives⟩
  show EStateM.Result.ok () (f' (μ.image m)) = .ok () (μ.image (f m))
  rw [hf]

/-- What is prepared on the machine and on its image is put back on both. -/
private theorem within {p p' : Run α} {prepare prepare' : Machine → Machine}
    {putBack putBack' : Machine → Machine → Machine} (hp : μ.Mirrors g p p')
    (hprepare : ∀ m, prepare' (μ.image m) = μ.image (prepare m))
    (hputBack : ∀ m m', putBack' (μ.image m) (μ.image m') = μ.image (putBack m m'))
    (hfits : ∀ m, μ.Fits m → μ.Fits (prepare m))
    (hback : ∀ m m', μ.Fits m' → μ.Fits (putBack m m')) :
    μ.Mirrors g (p.within prepare putBack) (p'.within prepare' putBack') := by
  intro m hm
  obtain ⟨hrun, hinner⟩ := hp (prepare m) (hfits m hm)
  rw [← hprepare] at hrun
  -- what was prepared is put back at either end, so both endings are mirrored alike
  cases hpm : p (prepare m) with
  | ok a m' =>
    rw [hpm] at hrun
    rw [Run.after_of_ok hpm] at hinner
    have hq : p.within prepare putBack m = .ok a (putBack m m') := Act.within_of_ok hpm
    rw [Act.within_of_ok hrun, hq, Run.after_of_ok hq, hputBack]
    exact ⟨rfl, hback m m' hinner⟩
  | error e m' =>
    rw [hpm] at hrun
    rw [Run.after_of_error hpm] at hinner
    have hq : p.within prepare putBack m = .error e (putBack m m') := Act.within_of_error hpm
    rw [Act.within_of_error hrun, hq, Run.after_of_error hq, hputBack]
    exact ⟨rfl, hback m m' hinner⟩

/-- The renamed scope is entered and left again. -/
theorem inScope {p p' : Run α} (scope : ScopeId) (hp : μ.Mirrors g p p') :
    μ.Mirrors g (Run.inScope scope p) (Run.inScope (scope.rename μ.names) p') :=
  within hp (fun _ => rfl) (fun _ _ => rfl) (fun _ h => ⟨h.distances, h.natives⟩)
    fun _ _ h => ⟨h.distances, h.natives⟩

/-- The other line is noted and the earlier one noted again. -/
theorem duringCall {p p' : Run α} (line : Nat) (hp : μ.Mirrors g p p') :
    μ.Mirrors g (Run.duringCall line p) (Run.duringCall (μ.labels.line line) p') :=
  within hp (fun _ => rfl) (fun _ _ => rfl) (fun _ h => ⟨h.distances, h.natives⟩)
    fun _ _ h => ⟨h.distances, h.natives⟩

/-! ## Steps of a run -/

/-- A machine and its image have the same scopes, up to the code in them. -/
@[simp] theorem image_scopes (m : Machine) : (μ.image m).scopes = m.scopes.rename μ.names :=
  rfl

/-- The fields of the other machine are the renamed ones. -/
@[simp] theorem image_fields (m : Machine) : (μ.image m).fields = m.fields.rename μ.names :=
  rfl

/-- The current scope of the other machine is the renamed one. -/
@[simp] theorem image_current (m : Machine) :
    (μ.image m).current = m.current.rename μ.names :=
  rfl

/-- The scope of the globals of the other machine is the renamed one. -/
@[simp] theorem image_globals (m : Machine) :
    (μ.image m).globals = m.globals.rename μ.names :=
  rfl

/-- The distance of a node is recorded for its image. -/
theorem get?_image {m : Machine} (hm : μ.Fits m) (id : NodeId) :
    (μ.image m).distances.get? (id.relabel μ.labels) = m.distances.get? id := by
  rw [hm.distances]
  exact μ.get?_relabel id

/-- The new scopes correspond, since both take the next number. -/
theorem openScope (parent : ScopeId) :
    μ.Mirrors (ScopeId.rename μ.names) (Run.openScope parent)
      (Run.openScope (parent.rename μ.names)) := by
  intro m hm
  refine ⟨?_, hm.distances, hm.natives⟩
  unfold Run.openScope
  rw [image_scopes, Scopes.rename_child]
  rfl

/-- The renamed value is defined in the renamed scope. -/
theorem define (scope : ScopeId) (name : String) (v : Value) :
    μ.Mirrors id (Run.define scope name v)
      (Run.define (scope.rename μ.names) name (v.rename μ.names)) := by
  refine update (fun m => ?_) (fun _ => rfl) (fun _ => rfl)
  rw [image_scopes, ← Scopes.rename_define]
  rfl

/-- The name is declared in the renamed scope. -/
theorem declareHere (name : String) :
    μ.Mirrors id (Run.declareHere name) (Run.declareHere name) := by
  refine update (fun m => ?_) (fun _ => rfl) (fun _ => rfl)
  rw [image_scopes, image_current, ← Scopes.rename_declare]
  rfl

/-- The renamed value is defined in the renamed scope that is current. -/
theorem defineHere (name : String) (v : Value) :
    μ.Mirrors id (Run.defineHere name v) (Run.defineHere name (v.rename μ.names)) := by
  refine update (fun m => ?_) (fun _ => rfl) (fun _ => rfl)
  rw [image_scopes, image_current, ← Scopes.rename_define]
  rfl

/-- The new objects correspond, since both take the next number. -/
theorem freshObject : μ.Mirrors (ObjectId.rename μ.names) Run.freshObject Run.freshObject :=
  fun _ hm => ⟨rfl, hm.distances, hm.natives⟩

/-- The new instances correspond, since both take the next number. -/
theorem newInstance (cls : Class) :
    μ.Mirrors (Value.rename μ.names) (Run.newInstance cls)
      (Run.newInstance (cls.rename μ.names)) := by
  intro m hm
  refine ⟨?_, hm.distances, hm.natives⟩
  -- an instance is numbered by how many there are, and on the image there are the earlier ones too
  show EStateM.Result.ok (Value.instance_ ⟨(m.fields.rename μ.names).size⟩ _)
    { μ.image m with fields := (m.fields.rename μ.names).push .empty } = _
  rw [Fields.size_rename, ← Fields.rename_push]
  rfl

/-- The renamed value is set in the renamed instance. -/
theorem setField (instance_ : InstanceId) (name : String) (v : Value) :
    μ.Mirrors id (Run.setField instance_ name v)
      (Run.setField (instance_.rename μ.names) name (v.rename μ.names)) := by
  refine update (fun m => ?_) (fun _ => rfl) (fun _ => rfl)
  rw [image_fields, ← Fields.rename_modify]
  rfl

/-- The method is bound in a new scope to the renamed instance. -/
theorem bindMethod (method : Closure) (this : Value) :
    μ.Mirrors (Closure.rename μ.names) (Run.bindMethod method this)
      (Run.bindMethod (method.rename μ.names) (this.rename μ.names)) := by
  refine bind (openScope method.scope) fun scope => ?_
  refine andThen (define scope "this" this) fun _ => ?_
  exact bind freshObject fun id => pure { method with id, scope }

/-- Writing goes on the changed sink as on the sink. -/
theorem sink_write (s : Sink) (text : String) :
    (μ.sink s).write text = (μ.sink (s.write text).1, (s.write text).2) := by
  have hwritten : (μ.before ++ s.written).size - μ.before.size = s.written.size := by
    rw [ByteArray.size_append]
    omega
  simp only [sink, Sink.write, Answers.next_map, Answers.after_map, hwritten]
  cases s.writer.next s.written.size with
  | none => simp [ByteArray.append_assoc]
  | some obstacle =>
    dsimp only
    split <;> simp [ByteArray.append_assoc]

/-- What goes on the changed sink as on the sink is not noticed. -/
theorem onSink {action : Sink → Sink × Option OutputFault}
    (hsame : ∀ s, action (μ.sink s) = (μ.sink (action s).1, (action s).2))
    (hgrows : ∀ s : Sink, s.Grows (action s).1) :
    μ.Mirrors id (Run.onSink action) (Run.onSink action) := by
  intro m hm
  refine ⟨?_, hm.of_sameFrame (Run.Tidy.onSink (hgrows m.sink)).frame⟩
  have hsink : (μ.image m).sink = μ.sink m.sink := rfl
  unfold Run.onSink
  rw [hsink, hsame]
  obtain ⟨sink, fault⟩ := action m.sink
  cases fault <;> rfl

/-- Both write the same line, because the sinks are the same. -/
theorem emit (line : String) : μ.Mirrors id (Run.emit line) (Run.emit line) :=
  onSink (fun s => sink_write s _) fun s => s.write_grows _

/-- Both flush, because the sinks are the same. -/
theorem flush : μ.Mirrors id Run.flush Run.flush :=
  onSink (fun _ => rfl) Sink.flush_grows

/-! ### Names -/

/-- A variable is looked for at the same distance, so the renamed binding is found. -/
theorem lookUp? (node : NodeId) (name : String) :
    μ.Mirrors (Option.map (Binding.rename μ.names)) (Run.lookUp? node name)
      (Run.lookUp? (node.relabel μ.labels) name) := by
  refine get fun m hm => ?_
  rw [get?_image hm]
  -- where there is no distance the name is global, and the globals are mirrored with the rest
  cases m.distances.get? node with
  | none =>
    dsimp only
    rw [image_scopes, image_globals, Scopes.binding?_rename]
    exact pure _
  | some d =>
    dsimp only
    rw [image_scopes, image_current, Scopes.getAt?_rename]
    exact pure _

/-- The renamed value is read, or both fail. -/
theorem readVariable (node : NodeId) (name : Token) :
    μ.Mirrors (Value.rename μ.names) (Run.readVariable node name)
      (Run.readVariable (node.relabel μ.labels) (name.relabel μ.labels)) := by
  refine bind (lookUp? node name.lexeme) fun b => ?_
  cases b with
  | none => exact fail name _
  | some b =>
    cases b with
    | uninitialized => exact fail name _
    | value v => exact pure v

/-- The renamed value is assigned, or both fail. -/
theorem writeVariable (node : NodeId) (name : Token) (v : Value) :
    μ.Mirrors id (Run.writeVariable node name v)
      (Run.writeVariable (node.relabel μ.labels) (name.relabel μ.labels) (v.rename μ.names)) := by
  refine get fun m hm => ?_
  rw [get?_image hm]
  -- a renamed scope has a renamed binding or none, so the two fail together
  cases m.distances.get? node with
  | none =>
    dsimp only
    rw [image_scopes, image_globals, Scopes.binding?_rename, Token.relabel_lexeme]
    cases m.scopes.binding? m.globals name.lexeme with
    | none => exact fail name _
    | some _ => exact define m.globals name.lexeme v
  | some d =>
    dsimp only
    rw [image_scopes, image_current, Scopes.ancestor?_rename]
    cases m.scopes.ancestor? m.current d with
    | none => exact fail name _
    | some scope => exact define scope name.lexeme v

/-- A field has the renamed value, and a method is bound to the renamed instance. -/
theorem readProperty (instance_ : InstanceId) (cls : Class) (name : Token) :
    μ.Mirrors (Value.rename μ.names) (Run.readProperty instance_ cls name)
      (Run.readProperty (instance_.rename μ.names) (cls.rename μ.names)
        (name.relabel μ.labels)) := by
  refine get fun m _ => ?_
  dsimp only
  rw [image_fields, Fields.getD_rename, NameTable.get?_map, Token.relabel_lexeme,
    Class.findMethod?_rename]
  -- fields keep their names, so the same of field, method and failure is found
  cases (m.fields.getD instance_.index .empty).get? name.lexeme with
  | some v => exact pure v
  | none =>
    cases cls.findMethod? name.lexeme with
    | some method =>
      refine bind (bindMethod method (.instance_ instance_ cls)) fun bound => ?_
      exact pure (Value.function bound)
    | none => exact fail name _

/-- A method of the superclass is bound to the renamed instance. -/
theorem readSuper (node : NodeId) (keyword method : Token) :
    μ.Mirrors (Value.rename μ.names) (Run.readSuper node keyword method)
      (Run.readSuper (node.relabel μ.labels) (keyword.relabel μ.labels)
        (method.relabel μ.labels)) := by
  refine get fun m hm => ?_
  dsimp only
  rw [get?_image hm]
  cases m.distances.get? node with
  | none => exact fail keyword _
  | some d =>
    simp only [image_scopes, image_current, Scopes.getAt?_rename]
    -- a renamed binding holds a class exactly if the binding does, so the branch is the same
    cases m.scopes.getAt? m.current d "super" with
    | none => exact fail keyword _
    | some b =>
      cases b with
      | uninitialized => exact fail keyword _
      | value v =>
        cases v with
        | class_ superclass =>
          cases d with
          | zero => exact fail keyword _
          | succ inner =>
            simp only [Option.map_some, Binding.rename, Value.rename]
            cases m.scopes.getAt? m.current inner "this" with
            | none => exact fail keyword _
            | some b =>
              cases b with
              | uninitialized => exact fail keyword _
              | value this =>
                simp only [Option.map_some, Binding.rename, Class.findMethod?_rename,
                  Token.relabel_lexeme]
                cases superclass.findMethod? method.lexeme with
                | none => exact fail method _
                | some found =>
                  exact bind (bindMethod found this) fun bound => pure (Value.function bound)
        | _ => exact fail keyword _

/-- Both machines have the same clock. -/
theorem readClock : μ.Mirrors id Run.readClock Run.readClock :=
  fun _ hm => ⟨rfl, hm.distances, hm.natives⟩

/-- A host function cannot tell renamed arguments apart, and it reads the same clock. -/
theorem callNative (info : NativeInfo) (arguments : List Value) :
    μ.Mirrors (Value.rename μ.names) (Run.callNative info arguments)
      (Run.callNative info (arguments.map (Value.rename μ.names))) := by
  refine andThen readClock fun now => get fun m hm => ?_
  have hnatives : (μ.image m).natives = m.natives := rfl
  rw [hnatives, image_fields]
  cases hnative : m.natives[info.id]? with
  | none => exact pure Value.nil
  | some native =>
    -- this is the one place where something is asked of the host functions
    have huniform := μ.uniform native (hm.natives ▸ Array.mem_of_getElem? hnative)
    simp only [huniform μ.names now m.fields arguments]
    cases native.run now m.fields arguments with
    | ok v => exact pure v
    | error message => exact throw _

/-! ## Expressions and statements -/

/-- The results of an operator correspond, and so do the lines of its errors. -/
theorem ofOperator (operator : Token) {computed computed' : Except RuntimeFault Value}
    (h : computed' = computed.map (Value.rename μ.names)) :
    μ.Mirrors (Value.rename μ.names) (Run.ofOperator operator computed)
      (Run.ofOperator (operator.relabel μ.labels) computed') := by
  subst h
  cases computed with
  | ok v => exact pure v
  | error fault => exact fail operator fault

/-- Expressions are evaluated one after the other to renamed values. -/
theorem evaluateAll {evaluate evaluate' : Expr → Run Value}
    (h : ∀ e, μ.Mirrors (Value.rename μ.names) (evaluate e) (evaluate' (e.relabel μ.labels)))
    (es : List Expr) :
    μ.Mirrors (List.map (Value.rename μ.names)) (Lox.evaluateAll evaluate es)
      (Lox.evaluateAll evaluate' (es.map (Expr.relabel μ.labels))) := by
  induction es with
  | nil => exact pure []
  | cons e rest ih => exact bind (h e) fun v => bind ih fun vs => pure (v :: vs)

/-- Statements are executed one after the other, and end alike. -/
theorem executeAll {execute execute' : Stmt → Run Flow}
    (h : ∀ s, μ.Mirrors (Flow.rename μ.names) (execute s) (execute' (s.relabel μ.labels)))
    (body : List Stmt) :
    μ.Mirrors (Flow.rename μ.names) (Lox.executeAll execute body)
      (Lox.executeAll execute' (body.map (Stmt.relabel μ.labels))) := by
  induction body with
  | nil => exact pure Flow.normal
  | cons s rest ih =>
    refine bind (h s) fun flow => ?_
    cases flow with
    | normal => exact ih
    | returned v => exact pure (Flow.returned v)

/-- Each parameter is defined to the renamed argument. -/
theorem defineParams (scope : ScopeId) (params : List Token) (values : List Value) :
    μ.Mirrors id (Run.defineParams scope params values)
      (Run.defineParams (scope.rename μ.names) (params.map (Token.relabel μ.labels))
        (values.map (Value.rename μ.names))) := by
  induction params generalizing values with
  | nil => exact pure ()
  | cons param params ih =>
    cases values with
    | nil => exact pure ()
    | cons v values => exact andThen (define scope param.lexeme v) fun _ => ih values

/-- The instance of a renamed method is the renamed one. -/
theorem boundThis (c : Closure) :
    μ.Mirrors (Value.rename μ.names) (Run.boundThis c)
      (Run.boundThis (c.rename μ.names)) := by
  refine get fun m _ => ?_
  have hscope : (c.rename μ.names).scope = c.scope.rename μ.names := rfl
  rw [hscope, image_scopes, Scopes.binding?_rename]
  cases m.scopes.binding? c.scope "this" with
  | none => exact pure Value.nil
  | some b =>
    cases b with
    | uninitialized => exact pure Value.nil
    | value this => exact pure this

/-- What a call yields is renamed. -/
theorem callResult (c : Closure) (flow : Flow) :
    μ.Mirrors (Value.rename μ.names) (Run.callResult c flow)
      (Run.callResult (c.rename μ.names) (flow.rename μ.names)) := by
  have hinitializer : (c.rename μ.names).isInitializer = c.isInitializer := rfl
  unfold Run.callResult
  rw [hinitializer]
  split
  · exact boundThis c
  · cases flow with
    | normal => exact pure Value.nil
    | returned v => exact pure v

/-- Methods are closed over the renamed scope. -/
theorem closeMethods (scope : ScopeId) (ds : List FunctionDecl) :
    μ.Mirrors (List.map fun p => (p.1, p.2.rename μ.names)) (Run.closeMethods scope ds)
      (Run.closeMethods (scope.rename μ.names) (ds.map (Stmt.relabelFunction μ.labels))) := by
  induction ds with
  | nil => exact pure []
  | cons d rest ih =>
    refine bind freshObject fun object => ?_
    refine bind ih fun methods => ?_
    rw [Stmt.relabelFunction_name, Token.relabel_lexeme]
    exact pure ((d.name.lexeme, (⟨object, d, scope, d.name.lexeme = "init"⟩ : Closure)) :: methods)

/-- A class is taken for the superclass, and anything else is an error on both sides. -/
theorem asSuperclass (name : Token) (superclass : Expr) (v : Value) :
    μ.Mirrors (Class.rename μ.names) (Run.asSuperclass name superclass v)
      (Run.asSuperclass (name.relabel μ.labels) (superclass.relabel μ.labels)
        (v.rename μ.names)) := by
  cases v with
  | class_ c => exact pure c
  | _ =>
    cases superclass with
    | var node superName => exact fail superName _
    | _ => exact fail name _

/-- The function that is declared is closed over the renamed scope. -/
theorem declareFunction (declaration : FunctionDecl) :
    μ.Mirrors (Closure.rename μ.names) (Run.declareFunction declaration)
      (Run.declareFunction (Stmt.relabelFunction μ.labels declaration)) := by
  refine bind freshObject fun object => get fun m _ => ?_
  dsimp only
  rw [Stmt.relabelFunction_name, image_current]
  exact andThen (defineHere declaration.name.lexeme
    (.function ⟨object, declaration, m.current, false⟩))
    fun _ => pure (⟨object, declaration, m.current, false⟩ : Closure)

/-- The scope of `super` holds the renamed superclass. -/
theorem openMethods (superclass : Option Class) :
    μ.Mirrors (ScopeId.rename μ.names) (Run.openMethods superclass)
      (Run.openMethods (superclass.map (Class.rename μ.names))) := by
  cases superclass with
  | none => exact get fun m _ => pure m.current
  | some superclass =>
    refine get fun m _ => bind (openScope m.current) fun scope => ?_
    exact andThen (define scope "super" (.class_ superclass)) fun _ => pure scope

/-- The class that is declared has the renamed superclass and the renamed methods. -/
theorem declareClass (name : Token) (superclass : Option Class) (methods : List FunctionDecl) :
    μ.Mirrors (Prod.map (ScopeId.rename μ.names) (Class.rename μ.names))
      (Run.declareClass name superclass methods)
      (Run.declareClass (name.relabel μ.labels) (superclass.map (Class.rename μ.names))
        (methods.map (Stmt.relabelFunction μ.labels))) := by
  refine andThen (declareHere name.lexeme) fun _ => bind (openMethods superclass) fun scope => ?_
  refine bind (closeMethods scope methods) fun closures => bind freshObject fun object => ?_
  -- the table of renamed closures is the renamed table
  have hclass : (⟨object.rename μ.names, name.lexeme, superclass.map (Class.rename μ.names),
      .ofList (closures.map fun p => (p.1, p.2.rename μ.names))⟩ : Class) =
      Class.rename μ.names ⟨object, name.lexeme, superclass, .ofList closures⟩ := by
    cases superclass <;> simp [Class.rename, NameTable.map_ofList]
  dsimp only [Token.relabel_lexeme]
  rw [hclass]
  exact andThen (defineHere name.lexeme (.class_ ⟨object, name.lexeme, superclass, .ofList closures⟩))
    fun _ => pure (scope, (⟨object, name.lexeme, superclass, .ofList closures⟩ : Class))

/-- Runs with this bound on the nesting of actions do the same on the changed machine. -/
structure AllBelow (μ : Mirror) (n : Nat) : Prop where
  evaluate : ∀ e, μ.Mirrors (Value.rename μ.names) (Run.evaluate n e)
    (Run.evaluate n (e.relabel μ.labels))
  callValue : ∀ v values, μ.Mirrors (Value.rename μ.names) (Run.callValue n v values)
    (Run.callValue n (v.rename μ.names) (values.map (Value.rename μ.names)))
  callClosure : ∀ c values, μ.Mirrors (Value.rename μ.names) (Run.callClosure n c values)
    (Run.callClosure n (c.rename μ.names) (values.map (Value.rename μ.names)))
  execute : ∀ s, μ.Mirrors (Flow.rename μ.names) (Run.execute n s)
    (Run.execute n (s.relabel μ.labels))
  repeatWhile : ∀ condition body, μ.Mirrors (Flow.rename μ.names)
    (Run.repeatWhile n condition body)
    (Run.repeatWhile n (condition.relabel μ.labels) (body.relabel μ.labels))

namespace AllBelow

variable {n : Nat}

/-- An expression is mirrored if all that it runs with less fuel is. -/
theorem evaluate_succ (h : AllBelow μ n) (e : Expr) :
    μ.Mirrors (Value.rename μ.names) (Run.evaluate (n + 1) e)
      (Run.evaluate (n + 1) (e.relabel μ.labels)) := by
  cases e with
  | literal value =>
    have hpure : μ.Mirrors (Value.rename μ.names) _ _ := pure (Value.ofLiteral value)
    rwa [Value.rename_ofLiteral] at hpure
  | grouping inner => exact h.evaluate inner
  | unary operator operand =>
    exact bind (h.evaluate operand) fun v => ofOperator operator (applyUnary_rename _ _ v)
  | binary operator left right =>
    refine bind (h.evaluate left) fun v => bind (h.evaluate right) fun w => ?_
    exact ofOperator operator (applyBinary_rename _ _ v w)
  | logical operator left right =>
    refine bind (h.evaluate left) fun v => ?_
    rw [decidedByLeft_rename, Token.relabel_kind]
    split
    · exact pure v
    · exact h.evaluate right
  | var node name => exact readVariable node name
  | assign node name value =>
    refine bind (h.evaluate value) fun v => ?_
    exact andThen (writeVariable node name v) fun _ => pure v
  | call callee paren arguments =>
    rw [Expr.relabel, Expr.relabelList_eq_map]
    -- whether the call is made depends on two numbers that renaming keeps
    refine bind (h.evaluate callee) fun v => bind (evaluateAll h.evaluate arguments) fun vs => ?_
    rw [Value.arity?_rename, List.length_map]
    cases v.arity? with
    | none => exact fail paren _
    | some arity =>
      dsimp only
      split
      · exact duringCall paren.line (h.callValue v vs)
      · exact fail paren _
  | get object name =>
    refine bind (h.evaluate object) fun v => ?_
    cases v with
    | instance_ instance_ cls => exact readProperty instance_ cls name
    | _ => exact fail name _
  | set object name value =>
    refine bind (h.evaluate object) fun v => ?_
    cases v with
    | instance_ instance_ cls =>
      refine bind (h.evaluate value) fun v => ?_
      exact andThen (setField instance_ name.lexeme v) fun _ => pure v
    | _ => exact fail name _
  | this node keyword => exact readVariable node keyword
  | super node keyword method => exact readSuper node keyword method

/-- A call is mirrored if all that it runs with less fuel is. -/
theorem callValue_succ (h : AllBelow μ n) (v : Value) (values : List Value) :
    μ.Mirrors (Value.rename μ.names) (Run.callValue (n + 1) v values)
      (Run.callValue (n + 1) (v.rename μ.names) (values.map (Value.rename μ.names))) := by
  cases v with
  | native info => exact callNative info values
  | function c => exact h.callClosure c values
  | class_ c =>
    refine bind (newInstance c) fun this => ?_
    rw [Class.findMethod?_rename]
    cases c.findMethod? "init" with
    | none => exact pure this
    | some initializer =>
      refine bind (bindMethod initializer this) fun bound => ?_
      exact bind (h.callClosure bound values) fun _ => pure this
  -- what is left cannot be called, before the renaming or after it
  | _ => exact pure Value.nil

/-- The body of a function is mirrored if all that it runs with less fuel is. -/
theorem callClosure_succ (h : AllBelow μ n) (c : Closure) (values : List Value) :
    μ.Mirrors (Value.rename μ.names) (Run.callClosure (n + 1) c values)
      (Run.callClosure (n + 1) (c.rename μ.names) (values.map (Value.rename μ.names))) := by
  have hparams : (c.rename μ.names).declaration.params =
      c.declaration.params.map (Token.relabel μ.labels) := Stmt.relabelFunction_params ..
  have hbody : (c.rename μ.names).declaration.body =
      c.declaration.body.map (Stmt.relabel μ.labels) := Stmt.relabelFunction_body ..
  -- the parts of the call are mirrored in their order
  refine bind (openScope c.scope) fun scope => ?_
  rw [hparams, hbody]
  refine andThen (defineParams scope c.declaration.params values) fun _ => ?_
  refine bind (inScope scope (executeAll h.execute c.declaration.body)) fun flow => ?_
  exact callResult c flow

/-- A statement is mirrored if all that it runs with less fuel is. -/
theorem execute_succ (h : AllBelow μ n) (s : Stmt) :
    μ.Mirrors (Flow.rename μ.names) (Run.execute (n + 1) s)
      (Run.execute (n + 1) (s.relabel μ.labels)) := by
  cases s with
  | expression value => exact bind (h.evaluate value) fun _ => pure Flow.normal
  | print value =>
    refine bind (h.evaluate value) fun v => ?_
    rw [Value.text_rename]
    exact andThen (emit v.text) fun _ => pure Flow.normal
  | varDecl name initializer =>
    cases initializer with
    | none => exact andThen (declareHere name.lexeme) fun _ => pure Flow.normal
    | some initializer =>
      refine bind (h.evaluate initializer) fun v => ?_
      exact andThen (defineHere name.lexeme v) fun _ => pure Flow.normal
  | block body =>
    rw [Stmt.relabel, Stmt.relabelList_eq_map]
    refine get fun m _ => bind (openScope m.current) fun scope => ?_
    exact inScope scope (executeAll h.execute body)
  | cond condition thenBranch elseBranch =>
    cases elseBranch with
    | none =>
      refine bind (h.evaluate condition) fun v => ?_
      -- a renaming never changes which branch is taken
      rw [Value.isTruthy_rename]
      split
      · exact h.execute thenBranch
      · exact pure Flow.normal
    | some elseBranch =>
      refine bind (h.evaluate condition) fun v => ?_
      rw [Value.isTruthy_rename]
      split
      · exact h.execute thenBranch
      · exact h.execute elseBranch
  | loop condition body => exact h.repeatWhile condition body
  | funDecl declaration => exact bind (declareFunction declaration) fun _ => pure Flow.normal
  | ret keyword value =>
    cases value with
    | none => exact pure (Flow.returned .nil)
    | some value => exact bind (h.evaluate value) fun v => pure (Flow.returned v)
  | classDecl declaration =>
    obtain ⟨name, superclass, methods⟩ := declaration
    rw [Stmt.relabel, Stmt.relabelFunctions_eq_map]
    cases superclass with
    | none => exact bind (declareClass name none methods) fun _ => pure Flow.normal
    | some superclass =>
      refine bind (h.evaluate superclass) fun v => ?_
      refine bind (asSuperclass name superclass v) fun c => ?_
      exact bind (declareClass name (some c) methods) fun _ => pure Flow.normal

/-- A loop is mirrored if each round is, with less fuel. -/
theorem repeatWhile_succ (h : AllBelow μ n) (condition : Expr) (body : Stmt) :
    μ.Mirrors (Flow.rename μ.names) (Run.repeatWhile (n + 1) condition body)
      (Run.repeatWhile (n + 1) (condition.relabel μ.labels) (body.relabel μ.labels)) := by
  refine bind (h.evaluate condition) fun v => ?_
  rw [Value.isTruthy_rename]
  split
  · refine bind (h.execute body) fun flow => ?_
    cases flow with
    | normal => exact h.repeatWhile condition body
    | returned v => exact pure (Flow.returned v)
  · exact pure Flow.normal

end AllBelow

/-- With any bound on the nesting of actions. -/
theorem all (μ : Mirror) (n : Nat) : AllBelow μ n := by
  induction n with
  | zero =>
    exact ⟨fun _ => throw .exhausted, fun _ _ => throw .exhausted, fun _ _ => throw .exhausted,
      fun _ => throw .exhausted, fun _ _ => throw .exhausted⟩
  | succ n ih =>
    exact ⟨ih.evaluate_succ, ih.callValue_succ, ih.callClosure_succ, ih.execute_succ,
      ih.repeatWhile_succ⟩

/-- The run of a program on the changed machine. -/
theorem program (μ : Mirror) (bound : Nat) (statements : List Stmt) :
    μ.Mirrors id (Run.program bound statements)
      (Run.program bound (statements.map (Stmt.relabel μ.labels))) := by
  induction statements with
  | nil => exact flush
  | cons s rest ih => exact bind ((all μ bound).execute s) fun _ => ih

end Mirror

end Lox
