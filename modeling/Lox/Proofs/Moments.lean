import Lox.Proofs.Chronicle

/-!
# What the entries of a chronicle say

The entries of a chronicle and the machine that they have led to fit together: every function, class
and instance on the machine has an entry that tells how it came about, a field holds what has been
set last, and what an entry tells of scopes holds from then on. This is what each action of a run
keeps.

## Key results

- `Moment`: how a machine fits the entries that have led to it
- `Consistent`: every entry fits those before it
- `Tells`: what an action does to a consistent chronicle
- `Tells.call`: what the entries about a call say
-/

namespace Lox

/-! ## Host functions -/

/-- A collection of values with all that can be got at from them: superclasses of classes, the class
    and the fields of an instance. The methods of a class can only be got at as bound to an
    instance. -/
structure Inventory (fields : Fields) (P : Value → Prop) : Prop where
  plain : ∀ v : Value, v.IsPlain → P v
  superclass : ∀ c s, P (.class_ c) → c.superclass = some s → P (.class_ s)
  cls : ∀ id c, P (.instance_ id c) → P (.class_ c)
  field : ∀ (id : InstanceId) c name v, P (.instance_ id c) →
    (fields.getD id.index .empty).get? name = some v → P v

/-- What a host function yields can be got at from its arguments, or there is nothing inside of
    it. -/
def Native.HandsOver (n : Native) : Prop :=
  ∀ (P : Value → Prop) (now : Float) (fields : Fields) (arguments : List Value) (v : Value),
    Inventory fields P → (∀ a ∈ arguments, P a) → n.run now fields arguments = .ok v → P v

namespace Native

/-- A function of the library hands over one of its arguments, or a value with nothing inside. -/
theorem library_handsOver {entry : String × NativeFunction}
    (h : entry ∈ NativeFunction.library) (name : String) (arity : Nat) :
    HandsOver ⟨name, arity, entry.2⟩ := by
  intro P now fields arguments v hinventory harguments hrun
  rcases NativeFunction.mem_or_isPlain h hrun with hmem | hplain
  · exact harguments v hmem
  · exact hinventory.plain v hplain

/-- The clock yields a number. -/
theorem clock_handsOver : clock.HandsOver := by
  intro P now fields arguments v hinventory _ hrun
  cases hrun
  exact hinventory.plain _ trivial

/-- Functions and classes of a given kind are an inventory. -/
theorem HandsOver.conservative {n : Native} (h : n.HandsOver) : n.Conservative := by
  intro function method now fields arguments v hfields harguments hrun
  refine h _ now fields arguments v ⟨fun _ hv => hv.holds, ?_, fun _ _ hc => hc, ?_⟩ harguments hrun
  · rintro ⟨id, name, superclass, methods⟩ s hc rfl
    exact (Class.holds_iff.mp hc).2 s rfl
  · intro id c name v _ hv
    obtain ⟨t, ht, hv⟩ := Fields.exists_of_get? hv
    exact hfields t ht name v hv

end Native

/-! ## What has happened -/

/-- Something has happened, as the entries tell. -/
def Happened (entries : List Entry) (e : Happening) : Prop :=
  ∃ x ∈ entries, x.event = e

/-- It is told how a value came about, if it is an object. -/
def Seen (entries : List Entry) : Value → Prop
  | .function c =>
    (∃ acts, Happened entries (.closes c acts)) ∨
      ∃ method this, Happened entries (.binds method this c)
  | .class_ c => ∃ d : Declared, Happened entries (.declares d) ∧ d.cls = c
  | .instance_ id cls => Happened entries (.makes (.instance_ id cls))
  | _ => True

/-- The value that has been set last for a field of an instance. -/
def lastSet? (id : InstanceId) (name : String) : List Entry → Option Value
  | [] => none
  | ⟨.sets id' name' v, _⟩ :: earlier =>
    if id' = id ∧ name' = name then some v else lastSet? id name earlier
  | _ :: earlier => lastSet? id name earlier

/-- These local scopes have been opened around statements: for blocks, for functions that have been
    called, and for methods that were bound to an instance, inside the scopes of their class. -/
inductive Opened (entries : List Entry) : List Activation → Prop
  | global : Opened entries []
  | block {acts : List Activation} {body : List Stmt} {scope : ScopeId}
      (outer : Opened entries acts) : Opened entries (⟨.block body, scope⟩ :: acts)
  | function {acts : List Activation} {c : Closure} {scope : ScopeId}
      (hc : Happened entries (.closes c acts)) (henters : Happened entries (.enters c scope acts))
      (outer : Opened entries acts) : Opened entries (⟨.function c.declaration, scope⟩ :: acts)
  | method {d : Declared} {name : String} {method bound : Closure} {this : Value} {scope : ScopeId}
      (hd : Happened entries (.declares d)) (hmethod : d.cls.methods.get? name = some method)
      (hbound : Happened entries (.binds method this bound))
      (henters : Happened entries
        (.enters bound scope (⟨.this method.declaration, bound.scope⟩ :: d.around)))
      (outer : Opened entries d.acts) :
      Opened entries (⟨.function method.declaration, scope⟩ ::
        ⟨.this method.declaration, bound.scope⟩ :: d.around)

section Growing

variable {entries entries' : List Entry}

/-- What has happened has happened later, too. -/
theorem Happened.mono {e : Happening} (h : Happened entries e) (hgrow : entries <:+ entries') :
    Happened entries' e := by
  obtain ⟨x, hx, he⟩ := h
  exact ⟨x, hgrow.mem hx, he⟩

/-- The latest entry tells of its event. -/
theorem happened_cons {x : Entry} : Happened (x :: entries) x.event :=
  ⟨x, List.mem_cons_self, rfl⟩

/-- What is told by some entries, but not by one of them, is told by the others. -/
theorem Happened.of_cons {x : Entry} {e : Happening} (h : Happened (x :: entries) e)
    (hne : x.event ≠ e) : Happened entries e := by
  obtain ⟨y, hy, rfl⟩ := h
  rcases List.mem_cons.mp hy with rfl | hy
  · exact absurd rfl hne
  · exact ⟨y, hy, rfl⟩

/-- What is told by some entries, but not by the first of them, is told by the later ones. -/
theorem Happened.of_append_singleton {x : Entry} {e : Happening} (h : Happened (entries ++ [x]) e)
    (hne : x.event ≠ e) : Happened entries e := by
  obtain ⟨y, hy, rfl⟩ := h
  rcases List.mem_append.mp hy with hy | hy
  · exact ⟨y, hy, rfl⟩
  · exact absurd (congrArg Entry.event (List.mem_singleton.mp hy).symm) hne

/-- What is told of a value is told later, too. -/
theorem Seen.mono {v : Value} (h : Seen entries v) (hgrow : entries <:+ entries') :
    Seen entries' v := by
  -- only functions, classes and instances are told of
  cases v with
  | function c =>
    rcases h with ⟨acts, h⟩ | ⟨method, this, h⟩
    · exact .inl ⟨acts, h.mono hgrow⟩
    · exact .inr ⟨method, this, h.mono hgrow⟩
  | class_ c =>
    obtain ⟨d, hd, hcls⟩ := h
    exact ⟨d, hd.mono hgrow, hcls⟩
  | instance_ id cls => exact Happened.mono h hgrow
  | _ => trivial

/-- Of a plain value nothing has to be told. -/
theorem seen_of_isPlain {v : Value} (h : v.IsPlain) : Seen entries v := by
  cases v <;> trivial

/-- Scopes that have been opened have been so later, too. -/
theorem Opened.mono {acts : List Activation} (h : Opened entries acts)
    (hgrow : entries <:+ entries') : Opened entries' acts := by
  induction h with
  | global => exact .global
  | block _ ih => exact .block ih
  | function hc henters _ ih => exact .function (hc.mono hgrow) (henters.mono hgrow) ih
  | method hd hmethod hbound henters _ ih =>
    exact .method (hd.mono hgrow) hmethod (hbound.mono hgrow) (henters.mono hgrow) ih

/-- What has been set is told. -/
theorem happened_of_lastSet? {id : InstanceId} {name : String} {v : Value} {entries : List Entry}
    (h : lastSet? id name entries = some v) : Happened entries (.sets id name v) := by
  induction entries with
  | nil => cases h
  | cons x entries ih =>
    -- an entry of another kind, or about another field, is passed over
    have hrest (h : lastSet? id name entries = some v) :
        Happened (x :: entries) (.sets id name v) :=
      (ih h).mono (List.suffix_cons x entries)
    obtain ⟨event, watch⟩ := x
    cases event with
    | sets id' name' v' =>
      rw [lastSet?] at h
      split at h
      · rename_i heq
        obtain ⟨rfl, rfl⟩ := heq
        cases h
        exact happened_cons
      · exact hrest h
    | _ => exact hrest h

end Growing

/-! ## What holds from an entry on -/

/-- Functions, classes and scopes only come about, and lookups are only added. -/
structure Watch.Later (w w' : Watch) : Prop extends w.Grows w' where
  fields : w.machine.fields.size ≤ w'.machine.fields.size
  sightings : ∀ x ∈ w.sightings, x ∈ w'.sightings

/-- A function that has been declared. -/
structure ClosedIn (w : Watch) (entries : List Entry) (c : Closure) (acts : List Activation) :
    Prop where
  isInitializer : c.isInitializer = false
  wellFormed : Stmt.WellFormedFunction c.declaration
  id_lt : c.id.index < w.machine.nextObject
  scope_lt : c.scope.index < w.machine.scopes.size
  captured : w.captured c.id = acts
  opened : Opened entries acts

/-- A method that has been bound: apart from the scope, in which there is `this`, it is a method of
    a class that has been declared. -/
structure BoundTo (w : Watch) (entries : List Entry) (method : Closure) (this : Value)
    (bound : Closure) : Prop where
  owner : ∃ (d : Declared) (name : String), Happened entries (.declares d) ∧
    d.cls.methods.get? name = some method
  instance_ : ∃ id cls, this = .instance_ id cls ∧ Seen entries this
  eq : bound = { method with id := bound.id, scope := bound.scope }
  id_lt : bound.id.index < w.machine.nextObject
  parent : w.machine.scopes.parent? bound.scope = some method.scope
  binding : w.machine.scopes.binding? bound.scope Keyword.this.word = some (.value this)
  captured : w.captured bound.id =
    ⟨.this method.declaration, bound.scope⟩ :: w.captured method.id

/-- A method of a class that has been declared. -/
structure Declared.HasMethod (w : Watch) (d : Declared) (method : Closure) : Prop where
  mem : method.declaration ∈ d.methods
  scope : method.scope = d.scope
  isInitializer : method.isInitializer = decide (method.declaration.name.lexeme = "init")
  id_lt : method.id.index < w.machine.nextObject
  captured : w.captured method.id = d.around

/-- A class that has been declared. -/
structure DeclaredIn (w : Watch) (entries : List Entry) (d : Declared) : Prop where
  name : d.cls.name = d.name.lexeme
  superclass : d.cls.superclass = d.superclass
  inherited : ∀ s ∈ d.superclass, Seen entries (.class_ s)
  wellFormed : Stmt.WellFormedMethods d.methods
  method? : ∀ name, (d.cls.methods.get? name).map (·.declaration) = d.method? name
  hasMethod : ∀ name method, d.cls.methods.get? name = some method → d.HasMethod w method
  scope_lt : d.scope.index < w.machine.scopes.size
  super : ∀ s ∈ d.superclass, (∃ p, w.machine.scopes.parent? d.scope = some p) ∧
    w.machine.scopes.binding? d.scope Keyword.super.word = some (.value (.class_ s))
  opened : Opened entries d.acts

/-- What an entry tells holds on every machine to come. -/
def Entry.Lasts (w : Watch) (entries : List Entry) (x : Entry) : Prop :=
  match x.event with
  | .closes c acts => ClosedIn w entries c acts
  | .binds method this bound => BoundTo w entries method this bound
  | .declares d => DeclaredIn w entries d
  | .makes this => ∃ id cls, this = .instance_ id cls ∧ id.index < w.machine.fields.size ∧
      Seen entries (.class_ cls)
  | .sets id _ v => (∃ cls, Seen entries (.instance_ id cls)) ∧ Seen entries v
  | .sees reference acts => ⟨reference, acts, x.watch.machine⟩ ∈ w.sightings ∧ Opened entries acts
  | _ => True

section Lasting

variable {w w' w'' : Watch} {entries entries' : List Entry}

theorem Watch.Later.refl (w : Watch) : w.Later w :=
  ⟨.refl w, Nat.le_refl _, fun _ hx => hx⟩

theorem Watch.Later.trans (h : w.Later w') (h' : w'.Later w'') : w.Later w'' :=
  ⟨h.toGrows.trans h'.toGrows, Nat.le_trans h.fields h'.fields,
    fun x hx => h'.sightings x (h.sightings x hx)⟩

/-- In another current scope there is nothing less. -/
theorem Watch.Later.at_ (w : Watch) (e : ScopeId) : w.Later (w.at_ e) :=
  ⟨⟨.refl _, Nat.le_refl _, fun _ _ => rfl⟩, Nat.le_refl _, fun _ hx => hx⟩

/-- On another line there is nothing less. -/
theorem Watch.Later.onLine (w : Watch) (line : Nat) : w.Later (w.onLine line) :=
  ⟨⟨.refl _, Nat.le_refl _, fun _ _ => rfl⟩, Nat.le_refl _, fun _ hx => hx⟩

/-- Where a function was closed stays known. -/
theorem ClosedIn.mono {c : Closure} {acts : List Activation} (h : ClosedIn w entries c acts)
    (hlater : w.Later w') (hgrow : entries <:+ entries') : ClosedIn w' entries' c acts where
  isInitializer := h.isInitializer
  wellFormed := h.wellFormed
  id_lt := Nat.lt_of_lt_of_le h.id_lt hlater.nextObject
  scope_lt := Nat.lt_of_lt_of_le h.scope_lt hlater.scopes.size
  captured := (hlater.captured c.id h.id_lt).trans h.captured
  opened := h.opened.mono hgrow

/-- A method of a declared class stays one. -/
theorem Declared.HasMethod.mono {d : Declared} {method : Closure} (h : d.HasMethod w method)
    (hlater : w.Later w') : d.HasMethod w' method where
  mem := h.mem
  scope := h.scope
  isInitializer := h.isInitializer
  id_lt := Nat.lt_of_lt_of_le h.id_lt hlater.nextObject
  captured := (hlater.captured method.id h.id_lt).trans h.captured

/-- What is known of a declared class stays known. -/
theorem DeclaredIn.mono {d : Declared} (h : DeclaredIn w entries d) (hlater : w.Later w')
    (hgrow : entries <:+ entries') : DeclaredIn w' entries' d where
  name := h.name
  superclass := h.superclass
  inherited s hs := (h.inherited s hs).mono hgrow
  wellFormed := h.wellFormed
  method? := h.method?
  hasMethod name method hmethod := (h.hasMethod name method hmethod).mono hlater
  scope_lt := Nat.lt_of_lt_of_le h.scope_lt hlater.scopes.size
  super s hs := by
    obtain ⟨⟨p, hp⟩, hsuper⟩ := h.super s hs
    refine ⟨⟨p, ?_⟩, hlater.scopes.reserved _ p .super _ hp hsuper⟩
    rw [hlater.scopes.parent? _ h.scope_lt, hp]
  opened := h.opened.mono hgrow

/-- The identity of a method is given before it can be bound, so what has been noted of it stays. -/
theorem BoundTo.mono {method bound : Closure} {this : Value}
    (h : BoundTo w entries method this bound)
    (hdeclared : ∀ d, Happened entries (.declares d) → DeclaredIn w entries d)
    (hlater : w.Later w') (hgrow : entries <:+ entries') : BoundTo w' entries' method this bound where
  owner := by
    obtain ⟨d, name, hd, hmethod⟩ := h.owner
    exact ⟨d, name, hd.mono hgrow, hmethod⟩
  instance_ := by
    obtain ⟨id, cls, hthis, hseen⟩ := h.instance_
    exact ⟨id, cls, hthis, hseen.mono hgrow⟩
  eq := h.eq
  id_lt := Nat.lt_of_lt_of_le h.id_lt hlater.nextObject
  parent := (hlater.scopes.parent? _ (Scopes.lt_size_of_parent? h.parent)).trans h.parent
  binding := hlater.scopes.reserved _ _ .this _ h.parent h.binding
  captured := by
    obtain ⟨d, name, hd, hmethod⟩ := h.owner
    -- both closures have identities already, and what is captured by an identity never changes
    have hid := ((hdeclared d hd).hasMethod name method hmethod).id_lt
    rw [hlater.captured _ h.id_lt, h.captured, hlater.captured _ hid]

end Lasting

/-! ## A machine and the entries that have led to it -/

/-- A machine fits the entries that have led to it. -/
structure Moment (w : Watch) (entries : List Entry) : Prop where
  globals_lt : w.machine.globals.index < w.machine.scopes.size
  globals_root : w.machine.scopes.parent? w.machine.globals = none
  bindings : ∀ e name v, w.machine.scopes.binding? e name = some (.value v) → Seen entries v
  /-- Outside of global scopes `this` is an instance. -/
  this : ∀ e p v, w.machine.scopes.parent? e = some p →
    w.machine.scopes.binding? e Keyword.this.word = some (.value v) → ∃ id cls, v = .instance_ id cls
  fields : ∀ (id : InstanceId) name,
    (w.machine.fields.getD id.index .empty).get? name = lastSet? id name entries
  natives : ∀ n ∈ w.machine.natives, n.HandsOver
  lasts : ∀ x ∈ entries, x.Lasts w entries

namespace Moment

variable {w w' : Watch} {entries : List Entry}

/-- What has been told so far. -/
theorem closedIn (h : Moment w entries) {c : Closure} {acts : List Activation}
    (hc : Happened entries (.closes c acts)) : ClosedIn w entries c acts := by
  obtain ⟨⟨_, _⟩, hx, rfl⟩ := hc
  exact h.lasts _ hx

/-- What a bound method was bound to is known. -/
theorem boundTo (h : Moment w entries) {method bound : Closure} {this : Value}
    (hb : Happened entries (.binds method this bound)) : BoundTo w entries method this bound := by
  obtain ⟨⟨_, _⟩, hx, rfl⟩ := hb
  exact h.lasts _ hx

/-- What a class was declared with is known. -/
theorem declaredIn (h : Moment w entries) {d : Declared} (hd : Happened entries (.declares d)) :
    DeclaredIn w entries d := by
  obtain ⟨⟨_, _⟩, hx, rfl⟩ := hd
  exact h.lasts _ hx

/-- An instance that has been made has fields. -/
theorem lt_size_fields (h : Moment w entries) {id : InstanceId} {cls : Class}
    (hmade : Happened entries (.makes (.instance_ id cls))) :
    id.index < w.machine.fields.size := by
  obtain ⟨⟨_, _⟩, hx, rfl⟩ := hmade
  obtain ⟨_, _, ⟨⟩, hlt, -⟩ := h.lasts _ hx
  exact hlt

/-- The class of an instance has been declared. -/
theorem seen_class (h : Moment w entries) {id : InstanceId} {cls : Class}
    (hmade : Seen entries (.instance_ id cls)) : Seen entries (.class_ cls) := by
  obtain ⟨⟨_, _⟩, hx, rfl⟩ := hmade
  obtain ⟨_, _, ⟨⟩, -, hcls⟩ := h.lasts _ hx
  exact hcls

/-- The value of a field has been seen. -/
theorem seen_field (h : Moment w entries) {id : InstanceId} {name : String} {v : Value}
    (hv : (w.machine.fields.getD id.index .empty).get? name = some v) : Seen entries v := by
  rw [h.fields] at hv
  obtain ⟨⟨_, _⟩, hx, rfl⟩ := happened_of_lastSet? hv
  exact (h.lasts _ hx).2

/-- An instance of which a field has been set has been made. -/
theorem made_of_lastSet? (h : Moment w entries) {id : InstanceId} {name : String} {v : Value}
    (hv : lastSet? id name entries = some v) :
    ∃ cls, Happened entries (.makes (.instance_ id cls)) := by
  obtain ⟨⟨_, _⟩, hx, rfl⟩ := happened_of_lastSet? hv
  exact (h.lasts _ hx).1

/-- The method that is found in a class is one of a class that has been declared. -/
theorem owner_of_findMethod? (h : Moment w entries) {cls : Class} (hcls : Seen entries (.class_ cls))
    {name : String} {method : Closure} (hfound : cls.findMethod? name = some method) :
    ∃ d : Declared, Happened entries (.declares d) ∧ d.cls.methods.get? name = some method := by
  match cls with
  | ⟨id, className, superclass, methods⟩ =>
    obtain ⟨d, hd, hcls⟩ := hcls
    rw [Class.findMethod?.eq_def] at hfound
    dsimp only at hfound
    split at hfound
    · rename_i own hown
      cases hfound
      exact ⟨d, hd, by rw [hcls]; exact hown⟩
    · cases superclass with
      | none => cases hfound
      | some s =>
        -- the class was declared with this superclass, which had been declared by then
        have hs : d.superclass = some s := by rw [← (h.declaredIn hd).superclass, hcls]
        exact owner_of_findMethod? h ((h.declaredIn hd).inherited s hs) hfound

/-- All that is told of the values that can be got at. -/
theorem inventory (h : Moment w entries) : Inventory w.machine.fields (Seen entries) where
  plain _ hv := seen_of_isPlain hv
  superclass c s hc hs := by
    obtain ⟨d, hd, rfl⟩ := hc
    rw [(h.declaredIn hd).superclass] at hs
    exact (h.declaredIn hd).inherited s hs
  cls _ _ hv := h.seen_class hv
  field _ _ _ _ _ hv := h.seen_field hv

/-- What an entry tells keeps holding. -/
theorem lasts_mono (h : Moment w entries) (hlater : w.Later w') {entries' : List Entry}
    (hgrow : entries <:+ entries') {x : Entry} (hx : x ∈ entries) : x.Lasts w' entries' := by
  have hlasts := h.lasts x hx
  obtain ⟨event, watch⟩ := x
  -- entries about things that can change tell nothing that has to last
  cases event with
  | closes c acts => exact ClosedIn.mono hlasts hlater hgrow
  | binds method this bound =>
    exact BoundTo.mono hlasts (fun _ hd => h.declaredIn hd) hlater hgrow
  | declares d => exact DeclaredIn.mono hlasts hlater hgrow
  | makes this =>
    obtain ⟨id, cls, hthis, hlt, hcls⟩ := hlasts
    exact ⟨id, cls, hthis, Nat.lt_of_lt_of_le hlt hlater.fields, hcls.mono hgrow⟩
  | sets id name v =>
    obtain ⟨⟨cls, hmade⟩, hv⟩ := hlasts
    exact ⟨⟨cls, hmade.mono hgrow⟩, hv.mono hgrow⟩
  | sees reference acts => exact ⟨hlater.sightings _ hlasts.1, hlasts.2.mono hgrow⟩
  | _ => trivial

/-- Something happens, and the machine goes on. -/
theorem goOn (h : Moment w entries) (hlater : w.Later w') {event : Happening}
    (hglobals : w'.machine.globals.index < w'.machine.scopes.size ∧
      w'.machine.scopes.parent? w'.machine.globals = none)
    (hnatives : ∀ n ∈ w'.machine.natives, n.HandsOver)
    (hbindings : ∀ e name v, w'.machine.scopes.binding? e name = some (.value v) →
      w.machine.scopes.binding? e name = some (.value v) ∨ Seen (⟨event, w'⟩ :: entries) v ∧
        (name = Keyword.this.word → ∀ p, w'.machine.scopes.parent? e = some p →
          ∃ id cls, v = .instance_ id cls))
    (hfields : ∀ (id : InstanceId) name, (w'.machine.fields.getD id.index .empty).get? name =
      lastSet? id name (⟨event, w'⟩ :: entries))
    (hlasts : Entry.Lasts w' (⟨event, w'⟩ :: entries) ⟨event, w'⟩) :
    Moment w' (⟨event, w'⟩ :: entries) where
  globals_lt := hglobals.1
  globals_root := hglobals.2
  bindings e name v hv := by
    rcases hbindings e name v hv with hold | hnew
    · exact (h.bindings e name v hold).mono (List.suffix_cons _ _)
    · exact hnew.1
  this e p v hp hv := by
    rcases hbindings e _ v hv with hold | hnew
    · rw [hlater.scopes.parent? e (Scopes.lt_size_of_binding? hold)] at hp
      exact h.this e p v hp hold
    · exact hnew.2 rfl p hp
  -- what fields hold depends on the new entry too, so it is a hypothesis
  fields := hfields
  natives := hnatives
  lasts := by
    refine List.forall_mem_cons.mpr ⟨hlasts, fun x hx => ?_⟩
    exact h.lasts_mono hlater (List.suffix_cons _ _) hx

/-- An action of a program and the entry about it. -/
theorem act (h : Moment w entries) (hlater : w.Later w') {event : Happening}
    (hglobals : w'.machine.globals = w.machine.globals)
    (hnatives : w'.machine.natives = w.machine.natives)
    (hbindings : ∀ e name v, w'.machine.scopes.binding? e name = some (.value v) →
      w.machine.scopes.binding? e name = some (.value v) ∨ Seen (⟨event, w'⟩ :: entries) v ∧
        (name = Keyword.this.word → ∃ id cls, v = .instance_ id cls))
    (hfields : ∀ (id : InstanceId) name, (w'.machine.fields.getD id.index .empty).get? name =
      lastSet? id name (⟨event, w'⟩ :: entries))
    (hlasts : Entry.Lasts w' (⟨event, w'⟩ :: entries) ⟨event, w'⟩) :
    Moment w' (⟨event, w'⟩ :: entries) := by
  have hlt := Nat.lt_of_lt_of_le h.globals_lt hlater.scopes.size
  have hroot := (hlater.scopes.parent? _ h.globals_lt).trans h.globals_root
  -- any action may go on; one of a program touches neither the globals nor the natives
  refine h.goOn hlater ?_ ?_ (fun e name v hv => ?_) hfields hlasts
  · rw [hglobals]
    exact ⟨hlt, hroot⟩
  · rw [hnatives]
    exact h.natives
  · rcases hbindings e name v hv with hold | ⟨hseen, hthis⟩
    · exact .inl hold
    · exact .inr ⟨hseen, fun hname _ _ => hthis hname⟩

/-- In another scope. -/
theorem at_ (h : Moment w entries) (e : ScopeId) : Moment (w.at_ e) entries := by
  refine ⟨h.globals_lt, h.globals_root, h.bindings, h.this, h.fields, h.natives, fun x hx => ?_⟩
  exact h.lasts_mono (.at_ w e) List.suffix_rfl hx

/-- During a call on another line. -/
theorem onLine (h : Moment w entries) (line : Nat) : Moment (w.onLine line) entries := by
  refine ⟨h.globals_lt, h.globals_root, h.bindings, h.this, h.fields, h.natives, fun x hx => ?_⟩
  exact h.lasts_mono (.onLine w line) List.suffix_rfl hx

end Moment

/-! ## Entries and those before them -/

/-- What a call comes to, given what has happened in it and before it. A method named `init` that is
    bound to an instance yields the instance. A class yields a new instance of itself, which is made
    first; if there is an initializer, it is bound to the instance and called with the same
    arguments. -/
def CallOutcome (inside before : List Entry) (arguments : List Value) (result : Value) : Value → Prop
  | .function c => ∀ method this, Happened before (.binds method this c) →
      c.name = "init" → result = this
  | .class_ cls => ∃ id afterwards first, result = .instance_ id cls ∧
      inside = afterwards ++ [first] ∧ first.event = .makes result ∧
      (∀ other, ¬ Happened before (.makes (.instance_ id other))) ∧
      ∀ initializer, cls.findMethod? "init" = some initializer →
        ∃ bound, Happened inside (.binds initializer result bound) ∧
          Happened inside (.calls (.function bound) arguments)
  | _ => True

/-- Just before, the name of a superclass has been looked up inside these local scopes, and its
    value was this class. -/
def LookedUp (earlier : List Entry) (acts : List Activation) (cls : Class) : Prop :=
  ∃ steps y before id name, earlier = steps ++ y :: before ∧ (∀ z ∈ steps, z.event = .step) ∧
    y.event = .sees ⟨.var, id, name⟩ acts ∧
    (Run.readVariable id name).run' y.watch.machine = some (.class_ cls)

/-- When a class was declared, the value of the expression for its superclass was this class. -/
def Declared.Inherits (entries : List Entry) (d : Declared) (cls : Class) : Prop :=
  ∃ y before, y :: before <:+ entries ∧ y.event = .declares d ∧ LookedUp before d.acts cls

/-- An entry fits those before it. -/
def Entry.Follows (earlier : List Entry) (x : Entry) : Prop :=
  match x.event with
  | .calls callee arguments => Seen earlier callee ∧ callee.arity? = some arguments.length
  | .answers callee arguments result since => Seen earlier result ∧
      ∃ inside began before, earlier = inside ++ began :: before ∧ before.length = since ∧
        began.event = .calls callee arguments ∧ CallOutcome inside before arguments result callee
  | .enters c _ acts => Seen earlier (.function c) ∧ acts = x.watch.captured c.id
  | .makes (.instance_ id _) => ∀ other, ¬ Happened earlier (.makes (.instance_ id other))
  | .declares d => ∀ s ∈ d.superclass, LookedUp earlier d.acts s
  | _ => True

/-- Every entry fits those before it, and so did the machine. -/
def Consistent : List Entry → Prop
  | [] => True
  | x :: earlier => x.Follows earlier ∧ Moment x.watch (x :: earlier) ∧ Consistent earlier

/-- The entries up to any of them fit together. -/
theorem Consistent.of_suffix {entries earlier : List Entry} (h : Consistent entries)
    (hsuffix : earlier <:+ entries) : Consistent earlier := by
  induction entries with
  | nil =>
    rw [List.suffix_nil.mp hsuffix]
    trivial
  | cons y entries ih =>
    rcases List.suffix_cons_iff.mp hsuffix with rfl | hsuffix
    · exact h
    · exact ih h.2.2 hsuffix

namespace Chronicle

/-- The entries fit together, and so does the machine now. -/
structure Sound (c : Chronicle) : Prop where
  moment : Moment c.watch c.entries
  consistent : Consistent c.entries

/-- What every action keeps. -/
structure Continues (c c' : Chronicle) : Prop where
  later : c.watch.Later c'.watch
  entries : c.entries <:+ c'.entries
  globals : c'.watch.machine.globals = c.watch.machine.globals
  current : c'.watch.machine.current = c.watch.machine.current

/-- Something happens between two moments. -/
def Meanwhile (c c' : Chronicle) (e : Happening) : Prop :=
  ∃ new, c'.entries = new ++ c.entries ∧ Happened new e

variable {c c' c'' : Chronicle}

theorem Continues.refl (c : Chronicle) : c.Continues c :=
  ⟨.refl _, List.suffix_rfl, rfl, rfl⟩

theorem Continues.trans (h : c.Continues c') (h' : c'.Continues c'') : c.Continues c'' :=
  ⟨h.later.trans h'.later, h.entries.trans h'.entries, h'.globals.trans h.globals,
    h'.current.trans h.current⟩

/-- The current scope stays one that there is. -/
theorem Continues.lt_size (h : c.Continues c')
    (hlt : c.watch.machine.current.index < c.watch.machine.scopes.size) :
    c'.watch.machine.current.index < c'.watch.machine.scopes.size := by
  rw [h.current]
  exact Nat.lt_of_lt_of_le hlt h.later.scopes.size

/-- What has happened between two moments has happened before any later one. -/
theorem Meanwhile.later {e : Happening} (h : c.Meanwhile c' e) (h' : c'.Continues c'') :
    c.Meanwhile c'' e := by
  obtain ⟨new, hnew, x, hx, he⟩ := h
  obtain ⟨more, hmore⟩ := h'.entries
  refine ⟨more ++ new, ?_, x, List.mem_append_right _ hx, he⟩
  rw [← hmore, hnew, List.append_assoc]

/-- What has happened between two moments has happened since any earlier one. -/
theorem Meanwhile.earlier {e : Happening} (h : c'.Meanwhile c'' e) (h' : c.Continues c') :
    c.Meanwhile c'' e := by
  obtain ⟨new, hnew, x, hx, he⟩ := h
  obtain ⟨more, hmore⟩ := h'.entries
  refine ⟨new ++ more, ?_, x, List.mem_append_left _ hx, he⟩
  rw [hnew, ← hmore, List.append_assoc]

/-- The superclass of a class is what the expression for it was when the class was declared. -/
theorem Sound.inherits (h : c.Sound) {d : Declared} (hd : Happened c.entries (.declares d)) {s : Class}
    (hs : d.superclass = some s) : d.Inherits c.entries s := by
  obtain ⟨y, hy, hevent⟩ := hd
  obtain ⟨after, before, hentries⟩ := List.append_of_mem hy
  have hsuffix : y :: before <:+ c.entries := ⟨after, hentries.symm⟩
  have hfollows := (h.consistent.of_suffix hsuffix).1
  unfold Entry.Follows at hfollows
  rw [hevent] at hfollows
  exact ⟨y, before, hsuffix, hevent, hfollows s hs⟩

/-- In another current scope the entries fit together just as well. -/
theorem Sound.at_ (h : c.Sound) (e : ScopeId) : Sound { c with watch := c.watch.at_ e } :=
  ⟨h.moment.at_ e, h.consistent⟩

/-- On another line the entries fit together just as well. -/
theorem Sound.onLine (h : c.Sound) (line : Nat) : Sound { c with watch := c.watch.onLine line } :=
  ⟨h.moment.onLine line, h.consistent⟩

end Chronicle

/-! ## Actions -/

/-- An action keeps a chronicle consistent, and its result is as described. -/
def Tells (c : Chronicle) {α : Type} (p : Logged α) (Q : α → Chronicle → Prop) : Prop :=
  match p c with
  | .ok a c' => c.Continues c' ∧ c'.Sound ∧ Q a c'
  | .error _ c' => c.Continues c' ∧ c'.Sound

namespace Tells

variable {c : Chronicle} {α β : Type} {p : Logged α} {Q Q' : α → Chronicle → Prop}

/-- What is told of a result may be weakened. -/
theorem mono (h : Tells c p Q) (hQ : ∀ a c', c.Continues c' → c'.Sound → Q a c' → Q' a c') :
    Tells c p Q' := by
  unfold Tells at h ⊢
  cases hp : p c with
  | ok a c' =>
    rw [hp] at h
    exact ⟨h.1, h.2.1, hQ a c' h.1 h.2.1 h.2.2⟩
  | error e c' =>
    rw [hp] at h
    exact h

theorem pure (h : c.Sound) {a : α} (ha : Q a c) : Tells c (Pure.pure a) Q :=
  ⟨.refl c, h, ha⟩

theorem throw (h : c.Sound) {e : Abort} : Tells c (throw e : Logged α) Q :=
  ⟨.refl c, h⟩

/-- Actions one after the other. -/
theorem bind {f : α → Logged β} {R : β → Chronicle → Prop} (h : Tells c p Q)
    (hf : ∀ a c', c.Continues c' → c'.Sound → Q a c' → Tells c' (f a) R) :
    Tells c (p >>= f) R := by
  -- both endings are sound; a failure in the first is the end of the sequence
  unfold Tells at h
  show match EStateM.bind p f c with
    | .ok a c' => c.Continues c' ∧ c'.Sound ∧ R a c'
    | .error _ c' => c.Continues c' ∧ c'.Sound
  unfold EStateM.bind
  cases hp : p c with
  | error e c' =>
    rw [hp] at h
    exact h
  | ok a c' =>
    rw [hp] at h
    obtain ⟨hcontinues, hsound, ha⟩ := h
    have hnext := hf a c' hcontinues hsound ha
    unfold Tells at hnext
    dsimp only
    cases hfa : f a c' with
    | ok b c'' =>
      rw [hfa] at hnext
      exact ⟨hcontinues.trans hnext.1, hnext.2⟩
    | error e c'' =>
      rw [hfa] at hnext
      exact ⟨hcontinues.trans hnext.1, hnext.2⟩

/-- Looking at the machine and at what has been told. -/
theorem get {f : Chronicle → Logged β} {R : β → Chronicle → Prop} (h : Tells c (f c) R) :
    Tells c (do let c ← MonadState.get; f c) R :=
  h

/-- Where an action succeeds, the entry about it is the last one. -/
theorem recorded {event : α → Happening} {action : Watched α}
    (h : Tells c (Logged.record event action) Q) :
    Tells c (Logged.record event action) fun a c' => Q a c' ∧
      c'.entries = ⟨event a, c'.watch⟩ :: c.entries ∧ action c.watch = .ok a c'.watch := by
  unfold Tells Logged.record at h ⊢
  -- an action that fails has no entry, so nothing is claimed of it
  cases hrun : action c.watch with
  | ok a w =>
    rw [hrun] at h
    exact ⟨h.1, h.2.1, h.2.2, rfl, rfl⟩
  | error e w =>
    rw [hrun] at h
    exact h

/-- Acting on a chronicle that is prepared for it and put back. -/
private theorem within (prepare : Watch → Watch) (putBack : Watch → Watch → Watch)
    (h : Tells { c with watch := prepare c.watch } p Q)
    (hcontinues : ∀ c', Chronicle.Continues { c with watch := prepare c.watch } c' →
      c.Continues { c' with watch := putBack c.watch c'.watch })
    (hsound : ∀ c' : Chronicle, c'.Sound →
      Chronicle.Sound { c' with watch := putBack c.watch c'.watch })
    (hQ : ∀ a c', Q a c' → Q' a { c' with watch := putBack c.watch c'.watch }) :
    Tells c (Act.within (fun c : Chronicle => { c with watch := prepare c.watch })
      (fun before after => { after with watch := putBack before.watch after.watch }) p) Q' := by
  unfold Tells at h ⊢
  -- only the watch is put back: what has been told stays told
  cases hp : p { c with watch := prepare c.watch } with
  | ok a c' =>
    rw [hp] at h
    rw [Act.within_of_ok hp]
    obtain ⟨hinner, hafter, ha⟩ := h
    exact ⟨hcontinues c' hinner, hsound c' hafter, hQ a c' ha⟩
  | error e c' =>
    rw [hp] at h
    rw [Act.within_of_error hp]
    obtain ⟨hinner, hafter⟩ := h
    exact ⟨hcontinues c' hinner, hsound c' hafter⟩

/-- Acting in another scope. -/
theorem inScope {e : ScopeId} (h : Tells { c with watch := c.watch.at_ e } p Q)
    (hQ : ∀ a c', Q a c' → Q' a { c' with watch := c'.watch.at_ c.watch.machine.current }) :
    Tells c (Logged.inScope e p) Q' :=
  within (·.at_ e) (fun w w' => w'.at_ w.machine.current) h
    (fun _ h => ⟨⟨⟨h.later.scopes, h.later.nextObject, h.later.captured⟩, h.later.fields,
      h.later.sightings⟩, h.entries, h.globals, rfl⟩)
    (fun _ h => h.at_ _) hQ

/-- Acting during a call. -/
theorem duringCall {line : Nat} (h : Tells { c with watch := c.watch.onLine line } p Q)
    (hQ : ∀ a c', Q a c' → Q' a { c' with watch := c'.watch.onLine c.watch.machine.callLine }) :
    Tells c (Logged.duringCall line p) Q' :=
  within (·.onLine line) (fun w w' => w'.onLine w.machine.callLine) h
    (fun _ h => ⟨⟨⟨h.later.scopes, h.later.nextObject, h.later.captured⟩, h.later.fields,
      h.later.sightings⟩, h.entries, h.globals, h.current⟩)
    (fun _ h => h.onLine _) hQ

/-- An action and the entry about it, in one. -/
theorem entry {event : α → Happening} {action : Watched α} (h : c.Sound) {a : α} {w : Watch}
    (hrun : action c.watch = .ok a w) (hlater : c.watch.Later w)
    (hglobals : w.machine.globals = c.watch.machine.globals)
    (hcurrent : w.machine.current = c.watch.machine.current)
    (hmoment : Moment w (⟨event a, w⟩ :: c.entries))
    (hfollows : Entry.Follows c.entries ⟨event a, w⟩)
    (hQ : Q a ⟨w, ⟨event a, w⟩ :: c.entries⟩) : Tells c (Logged.record event action) Q := by
  unfold Tells Logged.record
  rw [hrun]
  exact ⟨⟨hlater, List.suffix_cons _ _, hglobals, hcurrent⟩,
    ⟨hmoment, hfollows, hmoment, h.consistent⟩,
    hQ⟩

/-- Telling something while nothing is done. -/
theorem note (event : Happening) {Q : Unit → Chronicle → Prop} (h : c.Sound)
    (hevent : ∀ id name v, event ≠ .sets id name v)
    (hlasts : Entry.Lasts c.watch (⟨event, c.watch⟩ :: c.entries) ⟨event, c.watch⟩)
    (hfollows : Entry.Follows c.entries ⟨event, c.watch⟩)
    (hQ : Q () ⟨c.watch, ⟨event, c.watch⟩ :: c.entries⟩) : Tells c (Logged.note event) Q := by
  refine entry h rfl (.refl _) rfl rfl ?_ hfollows hQ
  refine h.moment.act (.refl _) rfl rfl (fun _ _ _ hv => .inl hv) (fun id name => ?_) hlasts
  rw [h.moment.fields]
  cases event with
  | sets id name v => exact absurd rfl (hevent id name v)
  | _ => rfl

/-- A call, from its beginning to its end. -/
theorem call {callee : Value} {arguments : List Value} {body : Logged Value} (h : c.Sound)
    (hcallee : Seen c.entries callee) (harity : callee.arity? = some arguments.length)
    (hbody : ∀ c', c.Continues c' → c'.Sound → c'.watch = c.watch →
      Tells c' body fun result c'' => Seen c''.entries result ∧
        ∀ inside, c''.entries = inside ++ c'.entries →
          CallOutcome inside c.entries arguments result callee) :
    Tells c (Logged.call callee arguments body) fun result c' =>
      Seen c'.entries result ∧ c.Meanwhile c' (.calls callee arguments) := by
  have hbegin : Tells c (Logged.note (.calls callee arguments)) fun _ c' =>
      c'.watch = c.watch ∧ c'.entries = ⟨.calls callee arguments, c.watch⟩ :: c.entries :=
    note (.calls callee arguments) h nofun trivial ⟨hcallee, harity⟩ ⟨rfl, rfl⟩
  refine .get (hbegin.bind fun _ c' hcontinues hsound hbegin => ?_)
  obtain ⟨hwatch, hbegin⟩ := hbegin
  have hcalls : c.Meanwhile c' (.calls callee arguments) := by
    refine ⟨[⟨.calls callee arguments, c.watch⟩], hbegin, ?_⟩
    exact happened_cons
  refine (hbody c' hcontinues hsound hwatch).bind fun result c'' hcontinues' hsound' hend => ?_
  obtain ⟨hresult, houtcome⟩ := hend
  -- what has been told since the beginning of the call happened inside of it
  obtain ⟨inside, hinside⟩ := hcontinues'.entries
  have hfollows : Entry.Follows c''.entries
      ⟨.answers callee arguments result c.entries.length, c''.watch⟩ := by
    refine ⟨hresult, inside, ⟨.calls callee arguments, c.watch⟩, c.entries, ?_, rfl, rfl,
      houtcome inside hinside.symm⟩
    rw [← hinside, hbegin]
  have hend : Tells c'' (Logged.note (.answers callee arguments result c.entries.length))
      fun _ c' => Seen c'.entries result :=
    note (.answers callee arguments result c.entries.length) hsound' nofun trivial hfollows
      (hresult.mono (List.suffix_cons _ _))
  refine hend.bind fun _ c₃ hcontinues'' hsound'' hseen => ?_
  exact .pure hsound'' ⟨hseen, hcalls.later (hcontinues'.trans hcontinues'')⟩

end Tells

end Lox
