import Lox.Proofs.InsideClasses

/-!
# What is found for a property

A property of an instance is the field that has been set last, and if there is none, a method of the
first class that declares one on the way from the class of the instance upwards. The way is that of
the superclasses which the classes had when they were declared. A method that is found is bound to
the instance, and from then on `this` is the instance in every call of it.

## Key results

- `Upward.findMethod?`: methods are found on the way upwards
- `Logged.readProperty_finds`: what reading a property comes to
- `Run.setField_frame`: setting a field leaves all other properties as they are
- `Session.Told.this_read`: what `this` is
- `Session.Told.properties_found`: properties in every session
-/

namespace Lox

/-! ## The way upwards -/

/-- The declarations of a class, of its superclass, and so on. Each superclass is what the
    expression for it was when the class was declared. -/
inductive Upward (entries : List Entry) : Class → List Declared → Prop
  | last {d : Declared} (hd : Happened entries (.declares d)) (hnone : d.superclass = none) :
      Upward entries d.cls [d]
  | next {d : Declared} {s : Class} {ds : List Declared} (hd : Happened entries (.declares d))
      (hsome : d.superclass = some s) (hinherits : d.Inherits entries s) (hup : Upward entries s ds) :
      Upward entries d.cls (d :: ds)

/-- The method of a name in the body of a class, and the scope of the methods of the class. -/
def Declared.own? (d : Declared) (name : String) : Option (FunctionDecl × ScopeId) :=
  (d.method? name).map fun declaration => (declaration, d.scope)

section Upward

variable {w : Watch} {entries : List Entry}

/-- Every class that has been seen has a way upwards. -/
theorem Chronicle.Sound.exists_upward {c : Chronicle} (h : c.Sound) {cls : Class}
    (hcls : Seen c.entries (.class_ cls)) : ∃ ds, Upward c.entries cls ds := by
  match cls with
  | ⟨id, name, superclass, methods⟩ =>
    obtain ⟨d, hd, hcls⟩ := hcls
    have hdeclared := h.moment.declaredIn hd
    have hsuperclass : d.superclass = superclass := by rw [← hdeclared.superclass, hcls]
    rw [← hcls]
    cases superclass with
    | none => exact ⟨[d], .last hd hsuperclass⟩
    | some s =>
      -- the superclass is part of the class, so this ends
      obtain ⟨ds, hup⟩ := h.exists_upward (hdeclared.inherited s hsuperclass)
      exact ⟨d :: ds, .next hd hsuperclass (h.inherits hd hsuperclass) hup⟩

/-- The method of a class itself. -/
private theorem DeclaredIn.own? {d : Declared} (h : DeclaredIn w entries d) (name : String) :
    (d.cls.methods.get? name).map (fun method => (method.declaration, method.scope)) =
      d.own? name := by
  have hmethod := h.method? name
  cases hfound : d.cls.methods.get? name with
  | none =>
    rw [hfound] at hmethod
    simp [Declared.own?, ← hmethod]
  | some method =>
    rw [hfound] at hmethod
    simp [Declared.own?, ← hmethod, (h.hasMethod name method hfound).scope]

/-- The method that is found is that of the first class on the way upwards that declares one, the
    last of this name in the body of the class. -/
theorem Upward.findMethod? (h : Moment w entries) {cls : Class} {ds : List Declared}
    (hup : Upward entries cls ds) (name : String) :
    (cls.findMethod? name).map (fun method => (method.declaration, method.scope)) =
      ds.findSome? (·.own? name) := by
  induction hup with
  | @last d hd hnone =>
    have hdeclared := h.declaredIn hd
    have hown := hdeclared.own? name
    have hsuperclass := hdeclared.superclass.trans hnone
    obtain ⟨_, _, _, _, _, cls⟩ := d
    obtain ⟨_, _, superclass, methods⟩ := cls
    obtain rfl : superclass = none := hsuperclass
    rw [List.findSome?_singleton, ← hown, Class.findMethod?]
    dsimp only
    cases methods.get? name <;> rfl
  | @next d s ds hd hsome _ _ ih =>
    have hdeclared := h.declaredIn hd
    have hown := hdeclared.own? name
    have hsuperclass := hdeclared.superclass.trans hsome
    obtain ⟨_, _, _, _, _, cls⟩ := d
    obtain ⟨_, _, superclass, methods⟩ := cls
    obtain rfl : superclass = some s := hsuperclass
    rw [List.findSome?_cons, ← hown, Class.findMethod?]
    dsimp only
    -- what a class does not declare is looked for in its superclass
    cases methods.get? name with
    | none => exact ih
    | some method => rfl

end Upward

/-! ## Reading and setting properties -/

namespace Logged

/-- An action that yields a method bound to an instance, and does nothing else than to bind it. -/
def Binds (p : Logged Value) (c : Chronicle) (method : Closure) (this : Value) : Prop :=
  ∃ f w, p c = .ok (.function f) ⟨w, ⟨.binds method this f, w⟩ :: c.entries⟩ ∧
    BoundTo w (⟨.binds method this f, w⟩ :: c.entries) method this f

/-- What a property of an instance comes to if this is the way upwards from its class. -/
def Finds (c : Chronicle) (id : InstanceId) (cls : Class) (ds : List Declared) (p : Token) : Prop :=
  match lastSet? id p.lexeme c.entries with
  | some v => readProperty id cls p c = .ok v c
  | none =>
    match ds.findSome? (·.own? p.lexeme) with
    | some (declaration, scope) => ∃ method : Closure, method.declaration = declaration ∧
        method.scope = scope ∧ Binds (readProperty id cls p) c method (.instance_ id cls)
    | none => ∃ c', readProperty id cls p c =
        .error (.runtime ⟨.undefinedProperty p.lexeme, p.line⟩) c' ∧ c'.watch = c.watch

variable {c : Chronicle}

/-- Binding a method of a class that has been declared. -/
theorem bindMethod_binds (h : c.Sound) {d : Declared} {name : String} {method : Closure}
    (hd : Happened c.entries (.declares d)) (hmethod : d.cls.methods.get? name = some method)
    {id : InstanceId} {cls : Class} (hthis : Seen c.entries (.instance_ id cls)) :
    Binds (do return .function (← bindMethod method (.instance_ id cls))) c method
      (.instance_ id cls) := by
  have htells := Tells.bindMethod h hd hmethod hthis
  -- binding cannot fail, so there is a closure and an entry of it
  obtain ⟨f, w, hrun⟩ : ∃ f w, bindMethod method (.instance_ id cls) c =
      .ok f ⟨w, ⟨.binds method (.instance_ id cls) f, w⟩ :: c.entries⟩ := by
    unfold bindMethod record
    rw [Watched.bindMethod_run]
    exact ⟨_, _, rfl⟩
  unfold Tells at htells
  rw [hrun] at htells
  refine ⟨f, w, ?_, htells.2.1.moment.boundTo happened_cons⟩
  simp only [bind, EStateM.bind, hrun]
  rfl

/-- What reading a property comes to. -/
theorem readProperty_finds (h : c.Sound) {id : InstanceId} {cls : Class}
    (hid : Seen c.entries (.instance_ id cls)) {ds : List Declared} (hup : Upward c.entries cls ds)
    (p : Token) : Finds c id cls ds p := by
  have hfield := h.moment.fields id p.lexeme
  have hfound := hup.findMethod? h.moment p.lexeme
  unfold Finds
  -- a field comes before all methods
  cases hset : lastSet? id p.lexeme c.entries with
  | some v =>
    rw [hset] at hfield
    simp only [Evaluator.readProperty, Evaluator.look, get_bind_apply, hfield]
    rfl
  | none =>
    rw [hset] at hfield
    rw [← hfound]
    cases hmethod : cls.findMethod? p.lexeme with
    | none =>
      refine ⟨⟨c.watch, ⟨.step, c.watch⟩ :: c.entries⟩, ?_, rfl⟩
      simp only [Evaluator.readProperty, Evaluator.look, get_bind_apply, hfield, hmethod]
      rfl
    | some method =>
      obtain ⟨d, hd, hown⟩ := h.moment.owner_of_findMethod? (h.moment.seen_class hid) hmethod
      refine ⟨method, rfl, rfl, ?_⟩
      obtain ⟨f, w, hrun, hbound⟩ := bindMethod_binds h hd hown hid
      refine ⟨f, w, ?_, hbound⟩
      rw [← hrun]
      simp only [Evaluator.readProperty, Evaluator.look, get_bind_apply, hfield, hmethod]

end Logged

/-- What reading a property yields depends on the field, if there is one, and on the method that the
    class has, with the scopes in which it is bound. -/
private theorem Run.readProperty_congr {id : InstanceId} {cls : Class} {p : Token} {m : Machine}
    {fields : Fields} (hfield : (fields.getD id.index .empty).get? p.lexeme =
      (m.fields.getD id.index .empty).get? p.lexeme) :
    (Run.readProperty id cls p).run' { m with fields } = (Run.readProperty id cls p).run' m := by
  -- on both machines the same is done
  obtain ⟨q, hq, hnew, hold⟩ : ∃ q : Run Value, q.run' { m with fields } = q.run' m ∧
      Run.readProperty id cls p { m with fields } = q { m with fields } ∧
      Run.readProperty id cls p m = q m := by
    simp only [Evaluator.readProperty, Evaluator.look, get_bind_apply, hfield]
    cases (m.fields.getD id.index .empty).get? p.lexeme with
    | some v => exact ⟨pure v, rfl, rfl, rfl⟩
    | none =>
      cases cls.findMethod? p.lexeme with
      | some method =>
        exact ⟨do return .function (← bindMethod method (.instance_ id cls)), rfl, rfl, rfl⟩
      | none => exact ⟨fail p (.undefinedProperty p.lexeme), rfl, rfl, rfl⟩
  rw [Run.run'_congr hnew, Run.run'_congr hold, hq]

/-- Setting a field leaves everything else as it is: all properties of other instances and all other
    properties of the instance, be they fields or methods. -/
theorem Run.setField_frame (id : InstanceId) (name : String) (v : Value) (m : Machine) :
    ∃ m', (Run.setField id name v).run m = .ok () m' ∧ m' = { m with fields := m'.fields } ∧
      ∀ id' cls (p : Token), id' ≠ id ∨ p.lexeme ≠ name →
        (Run.readProperty id' cls p).run' m' = (Run.readProperty id' cls p).run' m := by
  refine ⟨_, rfl, rfl, fun id' cls p hother => Run.readProperty_congr ?_⟩
  simp only [Array.getD_eq_getD_getElem?, Array.getElem?_modify]
  -- a property is read from the table of its instance alone, so one table matters
  by_cases heq : id.index = id'.index
  · have hname : name ≠ p.lexeme := by
      rcases hother with hid | hname
      · cases id
        cases id'
        simp_all
      · exact hname.symm
    rw [if_pos heq]
    cases m.fields[id'.index]? with
    | none => rfl
    | some t => simp [hname]
  · rw [if_neg heq]

/-! ## Sessions -/

/-- In every call of a method that is bound to an instance, `this` is the instance: the scope inside
    of which the call opens its own keeps it, and this is the scope to which `this` leads. -/
structure Entry.KeepsThis (earlier : List Entry) (x : Entry) : Prop where
  binding : ∀ method this f, Happened (x :: earlier) (.binds method this f) →
    x.watch.machine.scopes.binding? f.scope Keyword.this.word = some (.value this)
  enters : ∀ method this f scope acts, Happened earlier (.binds method this f) →
    x.event = .enters f scope acts → acts.head? = some ⟨.this method.declaration, f.scope⟩
  sees : ∀ id keyword acts, x.event = .sees ⟨.this, id, keyword⟩ acts →
    ∃ inner scope d method this f, InMethod (x :: earlier) acts inner scope d method this f ∧
      (∀ n, (Run.evaluate (n + 1) (.this id keyword)).run x.watch.machine =
        .ok this x.watch.machine) ∧
      ∀ method' this' f', Happened (x :: earlier) (.binds method' this' f') → f'.scope = f.scope →
        this' = this

namespace Session.Told

variable {s : Session} {c : Chronicle} {programs : List Program} {x : Entry} {earlier : List Entry}

/-- Looking up `this` yields the instance to which the method around the place has been bound. -/
private theorem this_read (h : Told s c programs) (hsuffix : x :: earlier <:+ c.entries) {id : NodeId}
    {keyword : Token} {acts : List Activation} (hevent : x.event = .sees ⟨.this, id, keyword⟩ acts) :
    ∃ inner scope d method this bound, InMethod (x :: earlier) acts inner scope d method this bound ∧
      ∀ n, (Run.evaluate (n + 1) (.this id keyword)).run x.watch.machine =
        .ok this x.watch.machine := by
  obtain ⟨-, inner, scope, d, method, this, bound, -, -, -, hin, hleads⟩ :=
    h.inMethod hsuffix hevent (.inl rfl)
  refine ⟨inner, scope, d, method, this, bound, hin, fun n => ?_⟩
  obtain ⟨hname, hdistance⟩ := hleads.this rfl
  have hbinding := ((h.entry hsuffix).2.boundTo hin.binds).binding
  -- one scope out from where the method is bound is that in which `this` is the instance
  have hget : x.watch.machine.scopes.getAt? x.watch.machine.current (inner.length + 1)
      keyword.lexeme = some (.value this) := by
    rw [Scopes.getAt?, hleads.binding, hname]
    exact hbinding
  have hlookUp : Run.lookUp? id keyword.lexeme x.watch.machine =
      .ok (some (.value this)) x.watch.machine := by
    unfold Run.lookUp?
    rw [get_bind_apply, hdistance]
    dsimp only
    rw [hget]
    rfl
  show Run.readVariable id keyword x.watch.machine = .ok this x.watch.machine
  simp only [Run.readVariable, bind, EStateM.bind, hlookUp]
  rfl

/-- What is bound to an instance stays bound to it. -/
theorem keepsThis (h : Told s c programs) (hsuffix : x :: earlier <:+ c.entries) :
    x.KeepsThis earlier := by
  obtain ⟨hfollows, hmoment⟩ := h.entry hsuffix
  have hbinding (method this f) (hbinds : Happened (x :: earlier) (.binds method this f)) :
      x.watch.machine.scopes.binding? f.scope Keyword.this.word = some (.value this) :=
    (hmoment.boundTo hbinds).binding
  refine ⟨hbinding, fun method this f scope acts hbinds hevent => ?_, fun id keyword acts hevent => ?_⟩
  · unfold Entry.Follows at hfollows
    rw [hevent] at hfollows
    have hbound := hmoment.boundTo (hbinds.mono (List.suffix_cons x earlier))
    rw [hfollows.2, hbound.captured]
    rfl
  · obtain ⟨inner, scope, d, method, this, f, hin, hread⟩ := h.this_read hsuffix hevent
    refine ⟨inner, scope, d, method, this, f, hin, hread, fun method' this' f' hbinds hscope => ?_⟩
    -- one scope binds `this` to one value
    have hthis := hbinding _ _ _ hin.binds
    have hthis' := hbinding _ _ _ hbinds
    rw [hscope, hthis] at hthis'
    cases hthis'
    rfl

/-- Properties in every session.

    Whenever a property of an instance is read, it is the value that has been set last for this
    field of this instance, if one has been set. Otherwise it is the method of the first class on
    the way upwards that declares one, bound to the instance, and if there is none, the property is
    undefined. The way upwards starts at the class of the instance and leads to the superclasses
    that the classes had when they were declared; of several methods of one name in the body of a
    class the last one counts. From then on `this` is the instance in every call of the method. All
    instances that variables and fields hold have been made, and so there is such a way for each of
    them. Setting a field leaves all other properties and everything else as they are. The chronicle
    is one of the runs of the session. -/
theorem properties_found (h : Told s c programs) :
    (∀ x earlier, x :: earlier <:+ c.entries →
      (∀ id cls, Happened (x :: earlier) (.makes (.instance_ id cls)) →
        ∃ ds, Upward (x :: earlier) cls ds ∧
          ∀ p, Logged.Finds ⟨x.watch, x :: earlier⟩ id cls ds p) ∧
      (∀ e name id cls,
        x.watch.machine.scopes.binding? e name = some (.value (.instance_ id cls)) →
        Happened (x :: earlier) (.makes (.instance_ id cls))) ∧
      (∀ (holder : InstanceId) name id cls,
        (x.watch.machine.fields.getD holder.index .empty).get? name = some (.instance_ id cls) →
        Happened (x :: earlier) (.makes (.instance_ id cls))) ∧
      x.KeepsThis earlier) ∧
    (∀ id name v m, ∃ m', (Run.setField id name v).run m = .ok () m' ∧
      m' = { m with fields := m'.fields } ∧
      ∀ id' cls (p : Token), id' ≠ id ∨ p.lexeme ≠ name →
        (Run.readProperty id' cls p).run' m' = (Run.readProperty id' cls p).run' m) ∧
    ∀ bound statements, (Logged.program bound statements).Erases (Watched.program bound statements) ∧
      (Watched.program bound statements).Erases (Run.program bound statements) := by
  -- the first part is about the chronicle, the second one about any machine
  refine ⟨fun x earlier hsuffix => ⟨fun id cls hmade => ?_, ?_, ?_, h.keepsThis hsuffix⟩,
    Run.setField_frame, fun bound statements =>
      ⟨Logged.program_erases bound statements, Watched.program_erases bound statements⟩⟩
  · have hsound := h.sound_upTo hsuffix
    obtain ⟨ds, hup⟩ := hsound.exists_upward (hsound.moment.seen_class hmade)
    exact ⟨ds, hup, Logged.readProperty_finds hsound hmade hup⟩
  · exact fun e name id cls hv => (h.entry hsuffix).2.bindings e name _ hv
  · exact fun holder name id cls hv => (h.entry hsuffix).2.seen_field hv

private def thisText : String :=
  "class A\x7bm()\x7breturn this;\x7d\x7dvar a=A();a.x=true;var f=a.m;f();"

private def thisProgram : Program :=
  ((Session.start .unlimited (.always 0)).compile thisText).2.get (by decide +kernel)

/-- The entries up to the lookup of `this`. -/
private def untilThis : List Entry :=
  (Chronicle.ofRun 9 thisText thisProgram).entries.dropWhile fun x => !x.looksUp .this

/-- When `f` is called there, a field of the first instance has been set, and `this` is read. -/
theorem this_properties_found :
    ∃ x earlier cls id keyword acts,
      x :: earlier <:+ (Chronicle.ofRun 9 thisText thisProgram).entries ∧
      Happened (x :: earlier) (.makes (.instance_ ⟨0⟩ cls)) ∧
      (lastSet? ⟨0⟩ "x" (x :: earlier)).map Value.text = some "true" ∧
      (∃ ds, Upward (x :: earlier) cls ds ∧
        ∀ p, Logged.Finds ⟨x.watch, x :: earlier⟩ ⟨0⟩ cls ds p) ∧
      x.event = .sees ⟨.this, id, keyword⟩ acts ∧
      ∃ this, ∀ n, (Run.evaluate (n + 1) (.this id keyword)).run x.watch.machine =
        .ok this x.watch.machine := by
  have hset : (lastSet? ⟨0⟩ "x" untilThis).map Value.text = some "true" := by decide +kernel
  have hthis : untilThis.head?.any (·.looksUp .this) = true := by decide +kernel
  have hsuffix : untilThis <:+ (Chronicle.ofRun 9 thisText thisProgram).entries :=
    List.dropWhile_suffix _
  obtain ⟨x, earlier, huntil⟩ : ∃ x earlier, untilThis = x :: earlier := by
    cases h : untilThis with
    | nil => simp [h] at hthis
    | cons x earlier => exact ⟨x, earlier, rfl⟩
  rw [huntil] at hset hthis hsuffix
  obtain ⟨id, keyword, acts, hevent⟩ := Entry.event_of_looksUp (by simpa using hthis)
  have htold : Told (.ofRun 9 thisText thisProgram) (.ofRun 9 thisText thisProgram) [thisProgram] :=
    .ofRun (Option.some_get _).symm 9
  -- what has been set is a field of an instance that has been made
  obtain ⟨v, hv, -⟩ := Option.map_eq_some_iff.mp hset
  obtain ⟨cls, hmade⟩ := (htold.entry hsuffix).2.made_of_lastSet? hv
  obtain ⟨hfound, -, -, hkeeps⟩ := (properties_found htold).1 x earlier hsuffix
  obtain ⟨_, _, _, _, this, _, -, hread, -⟩ := hkeeps.sees id keyword acts hevent
  exact ⟨x, earlier, cls, id, keyword, acts, hsuffix, hmade, hset, hfound ⟨0⟩ cls hmade, hevent, this,
    hread⟩

end Session.Told

end Lox
