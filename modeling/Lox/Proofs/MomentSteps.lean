import Lox.Proofs.Moments

/-!
# The steps of a chronicle

Each action out of which the runs of programs are made keeps a chronicle consistent.

## Key results

- `Run.Does`: what an action does to the scopes of a machine
- `Tells.bindMethod`, `Tells.declareFunction`, `Tells.declareClass`: functions and classes come
  about
- `Tells.newInstance`, `Tells.setField`: instances come about and are changed
-/

namespace Lox

/-! ## Actions on scopes -/

/-- Nothing changes but scopes and output: scopes grow, and values in them have been seen. -/
structure Machine.StepsTo (entries : List Entry) (m m' : Machine) : Prop where
  scopes : m.scopes.Grows m'.scopes
  bindings : ∀ e name v, m'.scopes.binding? e name = some (.value v) →
    m.scopes.binding? e name = some (.value v) ∨ Seen entries v ∧ name ≠ Keyword.this.word
  nextObject : m'.nextObject = m.nextObject
  fields : m'.fields = m.fields
  globals : m'.globals = m.globals
  current : m'.current = m.current
  natives : m'.natives = m.natives

namespace Machine.StepsTo

variable {entries : List Entry} {m m' m'' : Machine}

theorem refl (m : Machine) : m.StepsTo entries m :=
  ⟨.refl _, fun _ _ _ hv => .inl hv, rfl, rfl, rfl, rfl, rfl⟩

theorem trans (h : m.StepsTo entries m') (h' : m'.StepsTo entries m'') : m.StepsTo entries m'' where
  scopes := h.scopes.trans h'.scopes
  bindings e name v hv := by
    rcases h'.bindings e name v hv with hv | hseen
    · exact h.bindings e name v hv
    · exact .inr hseen
  nextObject := h'.nextObject.trans h.nextObject
  fields := h'.fields.trans h.fields
  globals := h'.globals.trans h.globals
  current := h'.current.trans h.current
  natives := h'.natives.trans h.natives

/-- A name is bound that is not reserved. -/
theorem bind (m : Machine) (e : ScopeId) {name : Token} (hname : name.IsName) {b : Binding}
    (hb : ∀ v, b = .value v → Seen entries v) :
    m.StepsTo entries { m with scopes := m.scopes.bind e name.lexeme b } where
  scopes := .bind fun k hk => absurd hk (hname k)
  bindings e' name' v hv := by
    rw [Scopes.binding?_bind] at hv
    split at hv
    -- the new binding is of a name, so it is none of `this`
    · rename_i heq
      cases hv
      exact .inr ⟨hb v rfl, fun hthis => hname .this (heq.2.1.trans hthis)⟩
    · exact .inl hv
  nextObject := rfl
  fields := rfl
  globals := rfl
  current := rfl
  natives := rfl

end Machine.StepsTo

namespace Run

/-- The value that an action yields. -/
theorem run'_congr {α : Type} {p q : Run α} {m : Machine} (h : p m = q m) : p.run' m = q.run' m :=
  congrArg (fun result => EStateM.run' (fun _ => result) m) h

variable {entries : List Entry} {m : Machine} {α β : Type} {Q Q' : α → Machine → Prop}

/-- An action changes nothing but scopes and output, and its result is as described. -/
def Does (entries : List Entry) (m : Machine) (p : Run α) (Q : α → Machine → Prop) : Prop :=
  match p m with
  | .ok a m' => m.StepsTo entries m' ∧ Q a m'
  | .error _ m' => m.StepsTo entries m'

namespace Does

theorem pure {a : α} (ha : Q a m) : Does entries m (Pure.pure a) Q :=
  ⟨.refl m, ha⟩

/-- What fails has no result. -/
theorem fail {t : Token} {fault : RuntimeFault} : Does entries m (Run.fail t fault) Q :=
  .refl m

/-- Looking at the machine changes nothing. -/
theorem get {f : Machine → Run β} {R : β → Machine → Prop} (h : Does entries m (f m) R) :
    Does entries m (do let m ← MonadState.get; f m) R :=
  h

/-- In a sequence the second action goes on from the machine that the first one leaves. -/
theorem bind {p : Run α} {f : α → Run β} {R : β → Machine → Prop} (h : Does entries m p Q)
    (hf : ∀ a m', m.StepsTo entries m' → Q a m' → Does entries m' (f a) R) :
    Does entries m (p >>= f) R := by
  -- a failure in the first ends the sequence there; else the steps are joined
  unfold Does at h
  show match EStateM.bind p f m with
    | .ok a m' => m.StepsTo entries m' ∧ R a m'
    | .error _ m' => m.StepsTo entries m'
  unfold EStateM.bind
  cases hp : p m with
  | error e m' =>
    rw [hp] at h
    exact h
  | ok a m' =>
    rw [hp] at h
    have hnext := hf a m' h.1 h.2
    unfold Does at hnext
    dsimp only
    cases hfa : f a m' with
    | ok b m'' =>
      rw [hfa] at hnext
      exact ⟨h.1.trans hnext.1, hnext.2⟩
    | error e m'' =>
      rw [hfa] at hnext
      exact h.1.trans hnext

end Does

/-- The result of an operator is plain, so nothing has to be told of it. -/
theorem ofOperator_does {operator : Token} {result : Except RuntimeFault Value}
    (h : ∀ v, result = .ok v → v.IsPlain) :
    Does entries m (ofOperator operator result) fun v _ => Seen entries v := by
  cases result with
  | ok v => exact .pure (seen_of_isPlain (h v rfl))
  | error fault => exact .fail

/-- A scope is opened, and there it is. -/
theorem openScope_does {e : ScopeId} (he : e.index < m.scopes.size) :
    Does entries m (openScope e) fun scope m' => scope.index < m'.scopes.size := by
  unfold Does openScope
  refine ⟨⟨.child he, fun e' name v hv => .inl ?_, rfl, rfl, rfl, rfl, rfl⟩, ?_⟩
  · have hv : (m.scopes.child e).1.binding? e' name = some (.value v) := hv
    rwa [Scopes.binding?_child _ _ _ _ he] at hv
  · show (m.scopes.child e).2.index < (m.scopes.child e).1.size
    rw [Scopes.child_snd, Scopes.size_child he]
    exact Nat.lt_succ_self _

/-- A name that is no reserved word may be declared. -/
theorem declareHere_does {name : Token} (hname : name.IsName) :
    Does entries m (declareHere name.lexeme) fun _ _ => True :=
  ⟨.bind m m.current hname nofun, trivial⟩

/-- A name that is no reserved word may be defined to a value of which is told. -/
theorem define_does (e : ScopeId) {name : Token} (hname : name.IsName) {v : Value}
    (hv : Seen entries v) : Does entries m (define e name.lexeme v) fun _ _ => True := by
  refine ⟨.bind m e hname fun v' hv' => ?_, trivial⟩
  cases hv'
  exact hv

/-- In the current scope a name may be defined to a value of which is told. -/
theorem defineHere_does {name : Token} (hname : name.IsName) {v : Value} (hv : Seen entries v) :
    Does entries m (defineHere name.lexeme v) fun _ _ => True :=
  define_does m.current hname hv

/-- Parameters are names, so they may be defined to the arguments. -/
theorem defineParams_does (e : ScopeId) {params : List Token}
    (hparams : ∀ param ∈ params, param.IsName) {values : List Value}
    (hvalues : ∀ v ∈ values, Seen entries v) :
    Does entries m (defineParams e params values) fun _ _ => True := by
  induction params generalizing m values with
  | nil => exact .pure trivial
  | cons param params ih =>
    cases values with
    | nil => exact .pure trivial
    | cons v values =>
      obtain ⟨hname, hparams⟩ := List.forall_mem_cons.mp hparams
      obtain ⟨hv, hvalues⟩ := List.forall_mem_cons.mp hvalues
      exact (define_does e hname hv).bind fun _ _ _ _ => ih hparams hvalues

/-- Output is written or flushed. -/
theorem onSink_does (action : Sink → Sink × Option OutputFault) :
    Does entries m (onSink action) fun _ _ => True := by
  have hsink : ∀ sink, m.StepsTo entries { m with sink } :=
    fun sink => ⟨.refl _, fun _ _ _ hv => .inl hv, rfl, rfl, rfl, rfl, rfl⟩
  unfold Does onSink
  rcases action m.sink with ⟨sink, _ | fault⟩
  · exact ⟨hsink sink, trivial⟩
  · exact hsink sink

/-- A line is written. -/
theorem emit_does (line : String) : Does entries m (emit line) fun _ _ => True :=
  onSink_does _

/-- Output is flushed. -/
theorem flush_does : Does entries m flush fun _ _ => True :=
  onSink_does _

/-- The superclass is the class that the expression for it yields. -/
theorem asSuperclass_does {name : Token} {superclass : Expr} {v : Value} (hv : Seen entries v) :
    Does entries m (asSuperclass name superclass v) fun c _ =>
      Seen entries (.class_ c) ∧ v = .class_ c := by
  cases v with
  | class_ c => exact .pure ⟨hv, rfl⟩
  | _ => cases superclass <;> exact .fail

section Values

variable {w : Watch}

/-- Of the value of a variable it is told how it came about. -/
theorem readVariable_does (h : Moment w entries) (id : NodeId) (name : Token) :
    Does entries w.machine (readVariable id name) fun v _ => Seen entries v := by
  -- wherever it is found, the binding is one of the machine's
  have hlookUp : Does entries w.machine (lookUp? id name.lexeme) fun b _ =>
      ∀ v, b = some (.value v) → Seen entries v := by
    refine .get ?_
    cases w.machine.distances.get? id with
    | none => exact .pure (h.bindings _ _)
    | some d =>
      refine .pure fun v hv => ?_
      obtain ⟨e, -, hb⟩ := Option.bind_eq_some_iff.mp hv
      exact h.bindings e _ v hb
  refine hlookUp.bind fun b m' _ hb => ?_
  rcases b with _ | _ | v
  · exact .fail
  · exact .fail
  · exact .pure (hb v rfl)

/-- A variable may be assigned a value of which is told. -/
theorem writeVariable_does (id : NodeId) {name : Token} (hname : name.IsName) {v : Value}
    (hv : Seen entries v) : Does entries m (writeVariable id name v) fun _ _ => True := by
  refine .get ?_
  cases m.distances.get? id with
  | none =>
    dsimp only
    cases m.scopes.binding? m.globals name.lexeme with
    | none => exact .fail
    | some b => exact define_does _ hname hv
  | some d =>
    dsimp only
    cases m.scopes.ancestor? m.current d with
    | none => exact .fail
    | some scope => exact define_does _ hname hv

/-- What a host function hands over can be got at from its arguments, so it is told of that, too. -/
theorem callNative_does (h : Moment w entries) (info : NativeInfo) {values : List Value}
    (hvalues : ∀ v ∈ values, Seen entries v) :
    Does entries w.machine (callNative info values) fun v _ => Seen entries v := by
  -- the clock is read before the function is called, and no condition is about the clock
  have htick : w.machine.StepsTo entries w.machine.tick :=
    ⟨.refl _, fun _ _ _ hv => .inl hv, rfl, rfl, rfl, rfl, rfl⟩
  unfold Does
  rw [callNative_apply]
  cases hnative : w.machine.natives[info.id]? with
  | none => exact ⟨htick, trivial⟩
  | some native =>
    obtain ⟨hlt, rfl⟩ := Array.getElem?_eq_some_iff.mp hnative
    dsimp only
    cases hresult : w.machine.natives[info.id].run w.machine.clock.next w.machine.fields values with
    | ok v =>
      have hhands := h.natives _ (Array.getElem_mem hlt)
      exact ⟨htick, hhands _ _ _ _ v h.inventory hvalues hresult⟩
    | error message => exact htick

/-- A bound method named `init` is an initializer. -/
theorem isInitializer_of_binds (h : Moment w entries) {method c : Closure} {this : Value}
    (hbinds : Happened entries (.binds method this c)) (hname : c.name = "init") :
    c.isInitializer = true := by
  have hbound := h.boundTo hbinds
  obtain ⟨d, name, hd, hmethod⟩ := hbound.owner
  have hinit := ((h.declaredIn hd).hasMethod name method hmethod).isInitializer
  have hdeclaration : method.declaration.name.lexeme = "init" := by
    rw [hbound.eq] at hname
    exact hname
  rw [hbound.eq]
  simpa [hdeclaration] using hinit

/-- What a function yields. A method named `init` yields the instance to which it is bound. -/
theorem callResult_does (h : Moment w entries) (c : Closure) {flow : Flow}
    (hflow : ∀ v, flow = .returned v → Seen entries v) :
    Does entries w.machine (callResult c flow) fun v _ => Seen entries v ∧
      ∀ method this, Happened entries (.binds method this c) → c.name = "init" → v = this := by
  unfold callResult
  split
  · refine .get ?_
    rcases hthis : w.machine.scopes.binding? c.scope "this" with _ | _ | this
    case some.value =>
      refine .pure ⟨h.bindings _ _ _ hthis, fun method this' hbinds _ => ?_⟩
      have hbinding : w.machine.scopes.binding? c.scope "this" = some (.value this') :=
        (h.boundTo hbinds).binding
      rw [hbinding] at hthis
      cases hthis
      rfl
    -- where `this` has no value, the closure has not come about by binding a method
    all_goals
      refine .pure ⟨trivial, fun method this' hbinds _ => ?_⟩
      have hbinding : w.machine.scopes.binding? c.scope "this" = some (.value this') :=
        (h.boundTo hbinds).binding
      rw [hbinding] at hthis
      cases hthis
  · rename_i hnot
    have hno : ∀ v method this, Happened entries (.binds method this c) →
        c.name = "init" → v = this :=
      fun v method this hbinds hname => absurd (isInitializer_of_binds h hbinds hname) hnot
    cases flow with
    | normal => exact .pure ⟨trivial, hno _⟩
    | returned v => exact .pure ⟨hflow v rfl, hno _⟩

end Values

end Run

/-! ## Actions and their entries -/

/-- A step of the machine alone is a later moment. -/
theorem Machine.StepsTo.later {entries : List Entry} {w : Watch} {m : Machine}
    (h : w.machine.StepsTo entries m) : w.Later { w with machine := m } :=
  ⟨⟨h.scopes, Nat.le_of_eq h.nextObject.symm, fun _ _ => rfl⟩,
    Nat.le_of_eq (congrArg Array.size h.fields.symm), fun _ hx => hx⟩

/-- Where fields stay and no entry says otherwise, they hold what has been set last. -/
theorem Moment.fields_of_eq {w w' : Watch} {entries : List Entry} (h : Moment w entries)
    {event : Happening} (hevent : ∀ id name v, event ≠ .sets id name v)
    (hfields : w'.machine.fields = w.machine.fields) (id : InstanceId) (name : String) :
    (w'.machine.fields.getD id.index .empty).get? name =
      lastSet? id name (⟨event, w'⟩ :: entries) := by
  rw [hfields, h.fields]
  cases event with
  | sets id name v => exact absurd rfl (hevent id name v)
  | _ => rfl

namespace Tells

variable {c : Chronicle} {α : Type}

/-- An action on scopes and the entry about it. -/
theorem told {event : α → Happening} {p : Run α} {Q : α → Machine → Prop} (h : c.Sound)
    (hp : Run.Does c.entries c.watch.machine p Q)
    (hevent : ∀ a id name v, event a ≠ .sets id name v)
    (hlasts : ∀ a w, Entry.Lasts w (⟨event a, w⟩ :: c.entries) ⟨event a, w⟩)
    (hfollows : ∀ a w, w.captured = c.watch.captured → Entry.Follows c.entries ⟨event a, w⟩) :
    Tells c (Logged.record event (Watched.lift p)) fun a c' =>
      Q a c'.watch.machine ∧ c'.watch.captured = c.watch.captured := by
  -- an action on scopes leaves the fields alone, so what was last set stays last set
  have hmoment : ∀ event m, (∀ id name v, event ≠ .sets id name v) →
      c.watch.machine.StepsTo c.entries m →
      Entry.Lasts { c.watch with machine := m } (⟨event, { c.watch with machine := m }⟩ :: c.entries)
        ⟨event, { c.watch with machine := m }⟩ →
      Moment { c.watch with machine := m } (⟨event, { c.watch with machine := m }⟩ :: c.entries) :=
    fun event m hevent hsteps hlasts =>
      h.moment.act hsteps.later hsteps.globals hsteps.natives
        (fun e name v hv => (hsteps.bindings e name v hv).imp_right
          fun hseen => ⟨hseen.1.mono (List.suffix_cons _ _), fun hthis => absurd hthis hseen.2⟩)
        (h.moment.fields_of_eq hevent hsteps.fields) hlasts
  unfold Run.Does at hp
  unfold Tells Logged.record Watched.lift
  cases hrun : p c.watch.machine with
  | ok a m =>
    rw [hrun] at hp
    rw [Act.onPart_of_ok hrun]
    obtain ⟨hsteps, ha⟩ := hp
    exact ⟨⟨hsteps.later, List.suffix_cons _ _, hsteps.globals, hsteps.current⟩,
      ⟨hmoment _ m (hevent a) hsteps (hlasts a _), hfollows a _ rfl,
        hmoment _ m (hevent a) hsteps (hlasts a _), h.consistent⟩, ha, rfl⟩
  | error e m =>
    rw [hrun] at hp
    rw [Act.onPart_of_error hrun]
    exact ⟨⟨hp.later, List.suffix_cons _ _, hp.globals, hp.current⟩,
      ⟨hmoment _ m nofun hp trivial, trivial, hmoment _ m nofun hp trivial, h.consistent⟩⟩

/-- A mere step. -/
theorem lift {p : Run α} {Q : α → Machine → Prop} (h : c.Sound)
    (hp : Run.Does c.entries c.watch.machine p Q) :
    Tells c (Logged.lift p) fun a c' => Q a c'.watch.machine :=
  mono (told h hp nofun (fun _ _ => trivial) fun _ _ _ => trivial) fun _ _ _ _ hQ => hQ.1

/-- A step that yields a value. -/
theorem value {p : Run Value} (h : c.Sound)
    (hp : Run.Does c.entries c.watch.machine p fun v _ => Seen c.entries v) :
    Tells c (Logged.lift p) fun v c' => Seen c'.entries v :=
  (lift h hp).mono fun _ _ hcontinues _ hseen => hseen.mono hcontinues.entries

/-- A step that is only taken for what it does. -/
theorem unit {p : Run Unit} (h : c.Sound)
    (hp : Run.Does c.entries c.watch.machine p fun _ _ => True) :
    Tells c (Logged.lift p) fun _ _ => True :=
  (lift h hp).mono fun _ _ _ _ _ => trivial

/-- What fails tells nothing. -/
theorem fail {t : Token} {fault : RuntimeFault} {Q : α → Chronicle → Prop} (h : c.Sound) :
    Tells c (Logged.lift (Run.fail t fault)) Q :=
  (lift (Q := fun _ _ => False) h .fail).mono fun _ _ _ _ hfalse => hfalse.elim

/-- Telling of a lookup. -/
theorem see {acts : List Activation} (h : c.Sound) (hacts : Opened c.entries acts)
    (reference : Reference) : Tells c (Logged.see reference acts) fun _ _ => True := by
  have hlater : c.watch.Later
      { c.watch with sightings := ⟨reference, acts, c.watch.machine⟩ :: c.watch.sightings } :=
    ⟨⟨.refl _, Nat.le_refl _, fun _ _ => rfl⟩, Nat.le_refl _, fun x hx => List.mem_cons_of_mem _ hx⟩
  refine entry h rfl hlater rfl rfl ?_ trivial trivial
  exact h.moment.act hlater rfl rfl (fun _ _ _ hv => .inl hv)
    (h.moment.fields_of_eq nofun rfl) ⟨List.mem_cons_self, hacts.mono (List.suffix_cons _ _)⟩

/-- Looking up the name of a superclass. -/
theorem evaluate_var (h : c.Sound) {acts : List Activation} (hacts : Opened c.entries acts) (n : Nat)
    (id : NodeId) (name : Token) :
    Tells c (Logged.evaluate acts n (.var id name)) fun v c' => Seen c'.entries v ∧
      ∃ w w', c'.entries = ⟨.step, w'⟩ :: ⟨.sees ⟨.var, id, name⟩ acts, w⟩ :: c.entries ∧
        (Run.readVariable id name).run' w.machine = some v := by
  cases n with
  | zero => exact .throw h
  | succ n =>
    refine (see h hacts _).recorded.bind fun _ c₁ hcontinues hsound hseen => ?_
    have hread := (lift hsound (Run.readVariable_does hsound.moment id name)).recorded
    refine hread.mono fun v c₂ hcontinues' _ hread => ?_
    obtain ⟨hv, hentries, hrun⟩ := hread
    refine ⟨hv.mono hcontinues'.entries, c₁.watch, c₂.watch, ?_, ?_⟩
    -- the lookup itself adds one entry, on top of the one that tells which name it is
    · rw [hentries, hseen.2.1]
    · unfold Watched.lift at hrun
      cases hok : Run.readVariable id name c₁.watch.machine with
      | ok v' m =>
        rw [Act.onPart_of_ok hok] at hrun
        injection hrun with hv
        rw [← hv]
        exact Run.run'_congr (q := fun _ => .ok v' m) hok
      | error e m =>
        rw [Act.onPart_of_error hok] at hrun
        cases hrun

/-! ## Instances -/

/-- An instance is made, which there has not been before. -/
theorem newInstance (h : c.Sound) {cls : Class} (hcls : Seen c.entries (.class_ cls)) :
    Tells c (Logged.record .makes (Watched.lift (Run.newInstance cls))) fun this c' =>
      Seen c'.entries this ∧ (∃ x, c'.entries = x :: c.entries ∧ x.event = .makes this) ∧
        ∃ id, this = .instance_ id cls ∧
          ∀ other, ¬ Happened c.entries (.makes (.instance_ id other)) := by
  let w : Watch :=
    { c.watch with machine := { c.watch.machine with fields := c.watch.machine.fields.push .empty } }
  have hlater : c.watch.Later w := by
    refine ⟨⟨.refl _, Nat.le_refl _, fun _ _ => rfl⟩, ?_, fun _ hx => hx⟩
    show c.watch.machine.fields.size ≤ (c.watch.machine.fields.push .empty).size
    simp
  -- all identities told of so far are below the number of instances
  have hnew : ∀ other, ¬ Happened c.entries
      (.makes (.instance_ ⟨c.watch.machine.fields.size⟩ other)) :=
    fun other hmade => Nat.lt_irrefl _ (h.moment.lt_size_fields hmade)
  refine entry (w := w) h rfl hlater rfl rfl ?_ hnew ⟨happened_cons, ⟨_, rfl, rfl⟩, _, rfl, hnew⟩
  refine h.moment.act hlater rfl rfl (fun _ _ _ hv => .inl hv) (fun id name => ?_) ?_
  · show ((c.watch.machine.fields.push .empty).getD id.index .empty).get? name =
      lastSet? id name c.entries
    rw [← h.moment.fields, Array.getD_eq_getD_getElem?, Array.getD_eq_getD_getElem?,
      Array.getElem?_push]
    split
    -- the new table is empty, and nothing has been set in it
    · rename_i heq
      rw [heq, Array.getElem?_eq_none (Nat.le_refl _)]
      rfl
    · rfl
  · refine ⟨_, cls, rfl, ?_, hcls.mono (List.suffix_cons _ _)⟩
    show c.watch.machine.fields.size < (c.watch.machine.fields.push .empty).size
    simp

/-- A field of an instance is set, and no other. -/
theorem setField (h : c.Sound) {id : InstanceId} {cls : Class}
    (hid : Seen c.entries (.instance_ id cls))
    (name : String) {v : Value} (hv : Seen c.entries v) :
    Tells c (Logged.record (fun _ => .sets id name v) (Watched.lift (Run.setField id name v)))
      fun _ _ => True := by
  let fields := c.watch.machine.fields.modify id.index fun fields => fields.insert name v
  let w : Watch := { c.watch with machine := { c.watch.machine with fields } }
  have hlater : c.watch.Later w := by
    refine ⟨⟨.refl _, Nat.le_refl _, fun _ _ => rfl⟩, ?_, fun _ hx => hx⟩
    show c.watch.machine.fields.size ≤ fields.size
    simp [fields]
  refine entry (w := w) h rfl hlater rfl rfl ?_ trivial trivial
  refine h.moment.act hlater rfl rfl (fun _ _ _ hv => .inl hv) (fun id' name' => ?_)
    ⟨⟨cls, hid.mono (List.suffix_cons _ _)⟩, hv.mono (List.suffix_cons _ _)⟩
  have hlt := h.moment.lt_size_fields hid
  show (fields.getD id'.index .empty).get? name' =
    if id = id' ∧ name = name' then some v else lastSet? id' name' c.entries
  rw [← h.moment.fields, Array.getD_eq_getD_getElem?, Array.getD_eq_getD_getElem?,
    Array.getElem?_modify]
  by_cases heq : id = id'
  · subst heq
    rw [if_pos rfl, Array.getElem?_eq_getElem hlt]
    simp only [Option.map_some, Option.getD_some, NameTable.get?_insert, true_and]
  -- identities of instances are equal if their numbers are
  · have hindex : id.index ≠ id'.index := fun hindex => heq (by cases id; cases id'; simp_all)
    rw [if_neg hindex, if_neg fun hboth => heq hboth.1]

/-! ## Functions -/

/-- A method of a class is bound to an instance. -/
theorem bindMethod (h : c.Sound) {method : Closure} {d : Declared} {name : String}
    (hd : Happened c.entries (.declares d)) (hmethod : d.cls.methods.get? name = some method)
    {id : InstanceId} {cls : Class} (hthis : Seen c.entries (.instance_ id cls)) :
    Tells c (Logged.bindMethod method (.instance_ id cls)) fun bound c' =>
      Seen c'.entries (.function bound) ∧ c.Meanwhile c' (.binds method (.instance_ id cls) bound) ∧
        bound.arity = method.arity := by
  have hdeclared := h.moment.declaredIn hd
  have hhas := hdeclared.hasMethod name method hmethod
  have hlt : method.scope.index < c.watch.machine.scopes.size := by
    rw [hhas.scope]
    exact hdeclared.scope_lt
  let f := c.watch.machine.scopes.childWith method.scope "this" (.instance_ id cls)
  let bound : Closure :=
    { method with id := ⟨c.watch.machine.nextObject⟩, scope := ⟨c.watch.machine.scopes.size⟩ }
  -- first a scope is opened inside the one of the method, then `this` is bound in it
  have hchild : (c.watch.machine.scopes.child method.scope).1.Grows f := .childWith _ _ hlt
  have hgrows : c.watch.machine.scopes.Grows f := (Scopes.Grows.child hlt).trans hchild
  have hkeeps := (Watch.keeps_withScopes hgrows).trans (Watch.keeps_fresh _
    (⟨.this method.declaration, ⟨c.watch.machine.scopes.size⟩⟩ :: c.watch.captured method.id))
  have hlater : c.watch.Later (c.watch.bound method (.instance_ id cls)) :=
    ⟨hkeeps.toGrows, Nat.le_refl _, fun _ hx => hx⟩
  refine entry (a := bound) h (Watched.bindMethod_run method _) hlater rfl rfl ?_ trivial
    ⟨.inr ⟨method, _, happened_cons⟩, ⟨[_], rfl, happened_cons⟩, rfl⟩
  refine h.moment.act hlater rfl rfl (fun e' name' v hv => ?_) (h.moment.fields_of_eq nofun rfl) ?_
  · have hv : f.binding? e' name' = some (.value v) := hv
    simp only [f, Scopes.childWith, Scopes.define] at hv
    rw [Scopes.binding?_bind, Scopes.binding?_child _ _ _ _ hlt] at hv
    split at hv
    · cases hv
      exact .inr ⟨hthis.mono (List.suffix_cons _ _), fun _ => ⟨id, cls, rfl⟩⟩
    · exact .inl hv
  · have hsize : c.watch.machine.scopes.size < (c.watch.machine.scopes.child method.scope).1.size := by
      rw [Scopes.size_child hlt]
      exact Nat.lt_succ_self _
    constructor
    case owner => exact ⟨d, name, hd.mono (List.suffix_cons _ _), hmethod⟩
    case instance_ => exact ⟨id, cls, rfl, hthis.mono (List.suffix_cons _ _)⟩
    case eq => rfl
    case id_lt => exact Nat.lt_succ_self _
    case parent =>
      show f.parent? ⟨c.watch.machine.scopes.size⟩ = some method.scope
      rw [hchild.parent? ⟨c.watch.machine.scopes.size⟩ hsize,
        Scopes.parent?_child _ _ _ hlt, if_pos rfl]
    case binding => exact Scopes.binding?_childWith _ _ hlt
    case captured =>
      rw [hlater.captured _ hhas.id_lt]
      exact Watch.captured_fresh _ _

/-- A function is declared. -/
theorem declareFunction (h : c.Sound) {acts : List Activation} (hacts : Opened c.entries acts)
    (hlt : c.watch.machine.current.index < c.watch.machine.scopes.size) {d : FunctionDecl}
    (hname : d.name.IsName) (hwf : Stmt.WellFormedFunction d) :
    Tells c (Logged.evaluator.declareFunction acts d) fun _ _ => True := by
  let new : Closure := ⟨⟨c.watch.machine.nextObject⟩, d, c.watch.machine.current, false⟩
  let f := c.watch.machine.scopes.define c.watch.machine.current d.name.lexeme (.function new)
  have hgrows : c.watch.machine.scopes.Grows f := .bind fun k hk => absurd hk (hname k)
  have hkeeps := (Watch.keeps_fresh c.watch acts).trans
    (Watch.keeps_withScopes (w := c.watch.fresh acts) hgrows)
  -- opening a place only adds to the machine, so what stood before still stands
  have hlater : c.watch.Later ((c.watch.fresh acts).withScopes f) :=
    ⟨hkeeps.toGrows, Nat.le_refl _, fun _ hx => hx⟩
  have hrun : Watched.declareFunction acts d c.watch =
      .ok new ((c.watch.fresh acts).withScopes f) := rfl
  show Tells c (Logged.record (.closes · acts) (Watched.declareFunction acts d)) fun _ _ => True
  refine entry h hrun hlater rfl rfl ?_ trivial trivial
  refine h.moment.act hlater rfl rfl (fun e' name' v hv => ?_) (h.moment.fields_of_eq nofun rfl) ?_
  · have hv : f.binding? e' name' = some (.value v) := hv
    simp only [f, Scopes.define] at hv
    rw [Scopes.binding?_bind] at hv
    split at hv
    · rename_i heq
      cases hv
      exact .inr ⟨.inl ⟨acts, happened_cons⟩,
        fun hthis => absurd (heq.2.1.trans hthis) (hname .this)⟩
    · exact .inl hv
  · exact ⟨rfl, hwf, Nat.lt_succ_self _, Nat.lt_of_lt_of_le hlt hgrows.size,
      c.watch.captured_fresh acts, hacts.mono (List.suffix_cons _ _)⟩

end Tells

/-! ## Classes -/

/-- What a name stands for in the table of some pairs: the last one with this name counts. -/
theorem NameTable.get?_ofList {α : Type} (pairs : List (String × α)) (name : String) :
    (NameTable.ofList pairs).get? name =
      (pairs.reverse.find? fun p => decide (p.1 = name)).map (·.2) := by
  -- the pairs are inserted into a table that grows, so the induction is over any table
  suffices h : ∀ t : NameTable α, (pairs.foldl (fun t p => t.insert p.1 p.2) t).get? name =
      ((pairs.reverse.find? fun p => decide (p.1 = name)).map (·.2)).or (t.get? name) by
    rw [NameTable.ofList, h, NameTable.get?_empty, Option.or_none]
  induction pairs with
  | nil => simp
  | cons p pairs ih =>
    intro t
    rw [List.foldl_cons, ih, NameTable.get?_insert, List.reverse_cons, List.find?_append]
    by_cases hname : p.1 = name
    · cases pairs.reverse.find? fun p => decide (p.1 = name) <;> simp [hname]
    · simp [hname]

/-- The scopes in which the methods of a class are closed, and which of them: where there is a
    superclass, a new scope is opened for it. -/
def Scopes.forMethods (f : Scopes) (e : ScopeId) : Option Class → Scopes × ScopeId
  | none => (f, e)
  | some s => (f.childWith e "super" (.class_ s), ⟨f.size⟩)

namespace Scopes

variable {f : Scopes} {e : ScopeId}

/-- The scopes for methods are put behind those that there are. -/
theorem grows_forMethods (he : e.index < f.size) (superclass : Option Class) :
    f.Grows (f.forMethods e superclass).1 := by
  cases superclass with
  | none => exact .refl f
  | some s => exact (Grows.child he).trans (.childWith _ _ he)

/-- The scope for the methods is one that there is. -/
theorem forMethods_lt_size (he : e.index < f.size) (superclass : Option Class) :
    (f.forMethods e superclass).2.index < (f.forMethods e superclass).1.size := by
  cases superclass with
  | none => exact he
  | some s =>
    have hgrows : (f.child e).1.Grows (f.childWith e "super" (.class_ s)) := .childWith _ _ he
    have hsize := hgrows.size
    rw [size_child he] at hsize
    exact hsize

/-- The superclass is bound where the methods are closed. -/
theorem binding?_forMethods (he : e.index < f.size) {superclass : Option Class} {s : Class}
    (hs : s ∈ superclass) :
    (f.forMethods e superclass).1.parent? (f.forMethods e superclass).2 = some e ∧
      (f.forMethods e superclass).1.binding? (f.forMethods e superclass).2 "super" =
        some (.value (.class_ s)) := by
  cases hs
  -- the new scope is the one behind the last, and defining in it leaves its parent
  have hgrows : (f.child e).1.Grows (f.childWith e "super" (.class_ s)) := .childWith _ _ he
  have hsize : f.size < (f.child e).1.size := by
    rw [size_child he]
    exact Nat.lt_succ_self _
  refine ⟨?_, binding?_childWith _ _ he⟩
  show (f.childWith e "super" (.class_ s)).parent? ⟨f.size⟩ = some e
  rw [hgrows.parent? ⟨f.size⟩ hsize, parent?_child _ _ _ he, if_pos rfl]

/-- Nothing else is bound. -/
theorem value_of_forMethods (he : e.index < f.size) {superclass : Option Class} {e' : ScopeId}
    {name : String} {v : Value}
    (hv : (f.forMethods e superclass).1.binding? e' name = some (.value v)) :
    f.binding? e' name = some (.value v) ∨
      ∃ s ∈ superclass, v = .class_ s ∧ Keyword.super.word = name := by
  cases superclass with
  | none => exact .inl hv
  | some s =>
    simp only [forMethods, childWith, define] at hv
    rw [binding?_bind, binding?_child _ _ _ _ he] at hv
    split at hv
    · rename_i heq
      cases hv
      exact .inr ⟨s, rfl, rfl, heq.2.1⟩
    · exact .inl hv

/-- The scopes behind the declaration of a class: its name is declared, a scope for its methods is
    opened, and the class is bound to the name. -/
def withClass (f : Scopes) (e : ScopeId) (name : String) (superclass : Option Class) (cls : Class) :
    Scopes :=
  ((f.declare e name).forMethods e superclass).1.define e name (.class_ cls)

variable {name : String}

/-- A declaration adds no scope. -/
theorem lt_size_declare (he : e.index < f.size) : e.index < (f.declare e name).size := by
  show e.index < (f.bind _ _ _).size
  rwa [size_bind]

/-- The binding of the class does not touch what the methods are closed around. -/
theorem grows_define_class (hname : ∀ k : Keyword, name ≠ k.word) (cls : Class) :
    f.Grows (f.define e name (.class_ cls)) :=
  .bind fun k hk => absurd hk (hname k)

/-- A class is defined under a name that is no reserved word, so no reserved word is rebound. -/
theorem grows_withClass (he : e.index < f.size) (hname : ∀ k : Keyword, name ≠ k.word)
    (superclass : Option Class) (cls : Class) : f.Grows (f.withClass e name superclass cls) := by
  have hdeclare : f.Grows (f.declare e name) := .bind fun k hk => absurd hk (hname k)
  have hlt : e.index < (f.declare e name).size := lt_size_declare he
  have hopen := grows_forMethods hlt superclass
  exact (hdeclare.trans hopen).trans (grows_define_class hname cls)

/-- The only new values are the class and its superclass. -/
theorem value_of_withClass (he : e.index < f.size) {superclass : Option Class} {cls : Class}
    {e' : ScopeId} {name' : String} {v : Value}
    (hv : (f.withClass e name superclass cls).binding? e' name' = some (.value v)) :
    f.binding? e' name' = some (.value v) ∨ (v = .class_ cls ∧ name = name') ∨
      ∃ s ∈ superclass, v = .class_ s ∧ Keyword.super.word = name' := by
  unfold withClass define at hv
  rw [binding?_bind] at hv
  split at hv
  · rename_i heq
    cases hv
    exact .inr (.inl ⟨rfl, heq.2.1⟩)
  -- the name of the class has no value until all its methods are closed
  · rcases value_of_forMethods (lt_size_declare he) hv with hv | hsuper
    · unfold declare at hv
      rw [binding?_bind] at hv
      split at hv
      · cases hv
      · exact .inl hv
    · exact .inr (.inr hsuper)

end Scopes

namespace Watched

variable {w : Watch}

/-- The scopes for methods are opened, and nothing else is changed. -/
theorem openMethods_run (superclass : Option Class) :
    openMethods superclass w =
      .ok (w.machine.scopes.forMethods w.machine.current superclass).2
        (w.withScopes (w.machine.scopes.forMethods w.machine.current superclass).1) := by
  cases superclass with
  | none => rfl
  | some s =>
    have hrun : openMethods (some s) = (do
        let w ← get
        let scope ← lift (Run.openScope w.machine.current)
        lift (Run.define scope "super" (.class_ s))
        return scope) := rfl
    rw [hrun, get_bind_apply]
    unfold lift Act.onPart
    simp only [bind, EStateM.bind, Scopes.openScope_run]
    rfl

/-- The closures of the methods of a class. -/
structure Closed (w w' : Watch) (acts : List Activation) (scope : ScopeId) (ds : List FunctionDecl)
    (closures : List (String × Closure)) : Prop where
  keeps : w.Keeps w'
  machine : w'.machine = { w.machine with nextObject := w'.machine.nextObject }
  sightings : w'.sightings = w.sightings
  declarations : closures.map (fun p => (p.1, p.2.declaration)) = ds.map fun d => (d.name.lexeme, d)
  closure : ∀ p ∈ closures, p.2.declaration ∈ ds ∧ p.2.scope = scope ∧
    p.2.isInitializer = decide (p.2.declaration.name.lexeme = "init") ∧
    p.2.id.index < w'.machine.nextObject ∧ w'.captured p.2.id = acts

/-- Each method is closed over the scope, and is told of as such. -/
theorem closeMethods_run (acts : List Activation) (scope : ScopeId) (ds : List FunctionDecl) :
    ∃ closures w', closeMethods acts scope ds w = .ok closures w' ∧
      Closed w w' acts scope ds closures := by
  induction ds generalizing w with
  | nil => exact ⟨[], w, rfl, .refl w, rfl, rfl, rfl, by simp⟩
  | cons d ds ih =>
    -- the identity of this method is given out before those of the methods behind it
    obtain ⟨closures, w', hrun, hclosed⟩ := ih (w := w.fresh acts)
    let method : Closure :=
      ⟨⟨w.machine.nextObject⟩, d, scope, decide (d.name.lexeme = "init")⟩
    have hlt : w.machine.nextObject < (w.fresh acts).machine.nextObject := Nat.lt_succ_self _
    have hkeeps := (w.keeps_fresh acts).trans hclosed.keeps
    refine ⟨(d.name.lexeme, method) :: closures, w', ?_, hkeeps, ?_, hclosed.sightings, ?_, ?_⟩
    · show EStateM.bind (closeMethods acts scope ds) _ (w.fresh acts) = _
      unfold EStateM.bind
      rw [hrun]
      rfl
    · rw [hclosed.machine]
      rfl
    · rw [List.map_cons, hclosed.declarations, List.map_cons]
    · refine List.forall_mem_cons.mpr ⟨⟨List.mem_cons_self, rfl, rfl, ?_, ?_⟩, fun p hp => ?_⟩
      · exact Nat.lt_of_lt_of_le hlt hclosed.keeps.nextObject
      · rw [hclosed.keeps.captured ⟨w.machine.nextObject⟩ hlt]
        exact w.captured_fresh acts
      · obtain ⟨hmem, hclosure⟩ := hclosed.closure p hp
        exact ⟨List.mem_cons_of_mem _ hmem, hclosure⟩

namespace Closed

variable {w' : Watch} {acts : List Activation} {scope : ScopeId} {ds : List FunctionDecl}
  {closures : List (String × Closure)}

/-- The last declaration of a name counts. -/
theorem get?_ofList (h : Closed w w' acts scope ds closures) (name : String) :
    ((NameTable.ofList closures).get? name).map (·.declaration) =
      ds.reverse.find? fun d => decide (d.name.lexeme = name) := by
  have hfind : (closures.reverse.find? fun p => decide (p.1 = name)).map
      (fun p => (p.1, p.2.declaration)) =
      (ds.reverse.find? fun d => decide (d.name.lexeme = name)).map fun d => (d.name.lexeme, d) := by
    have h := congrArg (fun l => l.reverse.find? fun p => decide (p.1 = name)) h.declarations
    simp only [← List.map_reverse, List.find?_map] at h
    exact h
  have hfind := congrArg (Option.map (·.2)) hfind
  rw [NameTable.get?_ofList]
  simpa only [Option.map_map, Function.comp_def, Option.map_id_fun', id_eq] using hfind

end Closed

/-- What the declaration of a class comes to. -/
theorem declareClass_run (acts : List Activation) (name : Token) (superclass : Option Class)
    (methods : List FunctionDecl) :
    let f := w.machine.scopes.declare w.machine.current name.lexeme
    let scope := (f.forMethods w.machine.current superclass).2
    let w' := w.withScopes (f.forMethods w.machine.current superclass).1
    ∃ closures w'', (∀ cls, Closed w' w''
        (Declared.around ⟨name, superclass, methods, acts, scope, cls⟩)
        scope methods closures) ∧
      let cls : Class := ⟨⟨w''.machine.nextObject⟩, name.lexeme, superclass, .ofList closures⟩
      declareClass acts name superclass methods w =
        .ok (scope, cls) { w'' with
          machine := { w''.machine with
            nextObject := w''.machine.nextObject + 1
            scopes := w''.machine.scopes.define w''.machine.current name.lexeme (.class_ cls) } } := by
  intro f scope w'
  obtain ⟨closures, w'', hrun, hclosed⟩ := closeMethods_run (w := w')
    (declaring.methodsPlace acts name superclass methods scope) scope methods
  refine ⟨closures, w'', fun cls => ?_, ?_⟩
  · cases superclass <;> exact hclosed
  · intro cls
    -- the two actions that are noted are run one by one; the rest is one step
    have hopen : openMethods superclass (w.withScopes f) = .ok scope w' := openMethods_run superclass
    show EStateM.bind (openMethods superclass) _ (w.withScopes f) = _
    unfold EStateM.bind
    rw [hopen]
    show EStateM.bind (closeMethods _ scope methods) _ w' = _
    unfold EStateM.bind
    rw [hrun]
    rfl

end Watched

/-- A class is declared. -/
theorem Tells.declareClass {c : Chronicle} (h : c.Sound) {acts : List Activation}
    (hacts : Opened c.entries acts)
    (hlt : c.watch.machine.current.index < c.watch.machine.scopes.size) {name : Token}
    (hname : name.IsName) {superclass : Option Class}
    (hsuperclass : ∀ s ∈ superclass, Seen c.entries (.class_ s))
    (hlookedUp : ∀ s ∈ superclass, LookedUp c.entries acts s) {methods : List FunctionDecl}
    (hwf : Stmt.WellFormedMethods methods) :
    Tells c (Logged.evaluator.declareClass acts name superclass methods) fun _ _ => True := by
  obtain ⟨closures, w', hclosed, hrun⟩ :=
    Watched.declareClass_run (w := c.watch) acts name superclass methods
  let e := c.watch.machine.current
  let f := c.watch.machine.scopes.declare e name.lexeme
  let cls : Class := ⟨⟨w'.machine.nextObject⟩, name.lexeme, superclass, .ofList closures⟩
  let d : Declared := ⟨name, superclass, methods, acts, (f.forMethods e superclass).2, cls⟩
  replace hclosed : Watched.Closed _ w' d.around d.scope methods closures := hclosed cls
  have hmachine := hclosed.machine
  let w'' : Watch := { w' with
    machine := { w'.machine with
      nextObject := w'.machine.nextObject + 1
      scopes := w'.machine.scopes.define w'.machine.current name.lexeme (.class_ cls) } }
  have hscopes : w''.machine.scopes =
      c.watch.machine.scopes.withClass e name.lexeme superclass cls := by
    show w'.machine.scopes.define w'.machine.current name.lexeme (.class_ cls) = _
    rw [hmachine]
    rfl
  have hflt : e.index < f.size := Scopes.lt_size_declare hlt
  have hlater : c.watch.Later w'' := by
    constructor
    case toGrows =>
      refine ⟨?_, ?_, fun id hid => hclosed.keeps.captured id hid⟩
      · rw [hscopes]
        exact Scopes.grows_withClass hlt hname superclass cls
      · exact Nat.le_succ_of_le hclosed.keeps.nextObject
    case fields =>
      show _ ≤ w'.machine.fields.size
      rw [hmachine]
      exact Nat.le_refl _
    case sightings =>
      intro x hx
      show x ∈ w'.sightings
      rw [hclosed.sightings]
      exact hx
  have hfields : w''.machine.fields = c.watch.machine.fields := by
    show w'.machine.fields = _
    rw [hmachine]
    rfl
  show Tells c (Logged.record (fun p => .declares ⟨name, superclass, methods, acts, p.1, p.2⟩)
    (Watched.declareClass acts name superclass methods)) fun _ _ => True
  refine Tells.entry (w := w'') h hrun hlater hclosed.keeps.globals
    hclosed.keeps.current ?_ hlookedUp trivial
  refine h.moment.act hlater hclosed.keeps.globals hclosed.keeps.natives (fun e' name' v hv => ?_)
    (h.moment.fields_of_eq nofun hfields) ?_
  · rw [hscopes] at hv
    rcases Scopes.value_of_withClass hlt hv with hold | ⟨rfl, heq⟩ | ⟨s, hs, rfl, hsuper⟩
    · exact .inl hold
    · exact .inr ⟨⟨d, happened_cons, rfl⟩,
        fun hthis => absurd (heq.trans hthis) (hname .this)⟩
    · refine .inr ⟨(hsuperclass s hs).mono (List.suffix_cons _ _), fun hthis => ?_⟩
      exact absurd (hsuper.trans hthis) (by decide)
  · -- binding the class to its name leaves the scope of the methods as it was opened
    have hscope : d.scope.index < (f.forMethods e superclass).1.size :=
      Scopes.forMethods_lt_size hflt superclass
    have hdefine : (f.forMethods e superclass).1.Grows
        (c.watch.machine.scopes.withClass e name.lexeme superclass cls) :=
      Scopes.grows_define_class hname cls
    constructor
    case name => rfl
    case superclass => rfl
    case inherited => exact fun s hs => (hsuperclass s hs).mono (List.suffix_cons _ _)
    case wellFormed => exact hwf
    case method? => exact hclosed.get?_ofList
    case hasMethod =>
      intro name' method hmethod
      obtain ⟨hmem, hscope, hinit, hid, hcaptured⟩ :=
        hclosed.closure _ (NameTable.mem_of_get?_ofList hmethod)
      exact ⟨hmem, hscope, hinit, Nat.lt_succ_of_lt hid, hcaptured⟩
    case scope_lt =>
      rw [hscopes]
      exact Nat.lt_of_lt_of_le hscope hdefine.size
    case super =>
      intro s hs
      obtain ⟨hparent, hsuper⟩ := Scopes.binding?_forMethods hflt hs
      rw [hscopes]
      refine ⟨⟨e, (hdefine.parent? _ hscope).trans hparent⟩, ?_⟩
      exact hdefine.reserved _ e .super _ hparent hsuper
    case opened => exact hacts.mono (List.suffix_cons _ _)

end Lox
