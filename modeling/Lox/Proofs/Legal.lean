import Lox.Native
import Lox.Proofs.Standing

/-!
# Legal machines

The code of every function that a machine can reach is code of accepted programs, and the scope in
which the function was declared stands for the place of its declaration. This is what each action
of a run keeps, and from it follows what is found when a name is looked up.

The uses of the accepted programs are a parameter of the statements.

## Key results

- `Safe`: what an action does to a legal machine
- `Safe.bind`: actions one after the other
- `readVariable_safe`, `writeVariable_safe`, `readSuper_safe`: the lookups of names
-/

namespace Lox

/-! ## Functions and values -/

/-- All methods of a class, its own and those that it inherits, are of such a kind. -/
def Class.Holds (method : Closure → Prop) : Class → Prop
  | ⟨_, _, superclass, methods⟩ =>
    (∀ name c, methods.get? name = some c → method c) ∧
      match superclass with
      | some s => s.Holds method
      | none => True

/-- The function that a value is, or the methods of its class, are of such kinds. -/
def Value.Holds (function method : Closure → Prop) : Value → Prop
  | .function c => function c
  | .class_ c => c.Holds method
  | .instance_ _ c => c.Holds method
  | _ => True

/-- A value with nothing inside of it. -/
def Value.IsPlain : Value → Prop
  | .function _ => False
  | .class_ _ => False
  | .instance_ _ _ => False
  | _ => True

/-- A plain value has no closures in it. -/
theorem Value.IsPlain.holds {function method : Closure → Prop} {v : Value} (h : v.IsPlain) :
    v.Holds function method := by
  cases v <;> trivial

/-- What a field of an instance holds stands in one of the tables: an instance without a table has
    no fields. -/
theorem Fields.exists_of_get? {fields : Fields} {i : Nat} {name : String} {v : Value}
    (h : (fields.getD i .empty).get? name = some v) : ∃ t ∈ fields, t.get? name = some v := by
  rw [Array.getD_eq_getD_getElem?] at h
  cases ht : fields[i]? with
  | none =>
    rw [ht] at h
    cases h
  | some t =>
    rw [ht] at h
    exact ⟨t, Array.mem_of_getElem? ht, h⟩

/-- A host function makes no functions and classes of its own: what it yields is about those in its
    arguments and in the fields of instances. -/
def Native.Conservative (n : Native) : Prop :=
  ∀ (function method : Closure → Prop) (now : Float) (fields : Fields) (arguments : List Value)
    (v : Value), (∀ t ∈ fields, ∀ name v, t.get? name = some v → v.Holds function method) →
    (∀ v ∈ arguments, v.Holds function method) →
    n.run now fields arguments = .ok v → v.Holds function method

/-- What a function of the library yields is one of its arguments, or there is nothing inside of
    it. -/
theorem NativeFunction.mem_or_isPlain {entry : String × NativeFunction} (h : entry ∈ library)
    {now : Float} {fields : Fields} {arguments : List Value} {v : Value}
    (hrun : entry.2 now fields arguments = .ok v) :
    v ∈ arguments ∨ v.IsPlain := by
  simp only [library, List.mem_cons, List.not_mem_nil, or_false] at h
  rcases h with rfl | rfl | rfl | rfl | rfl | rfl | rfl | rfl | rfl
  case inr.inr.inr.inr.inr.inr.inl =>
    -- `last` yields an argument if there is one
    cases hlast : arguments.getLast? with
    | none =>
      simp only [last, hlast, Option.getD_none] at hrun
      cases hrun
      exact .inr trivial
    | some u =>
      simp only [last, hlast, Option.getD_some] at hrun
      cases hrun
      exact .inl (List.mem_of_getLast? hlast)
  all_goals
    right
    simp only [double, display, type, truthy, same, arity, fail, debug, bind, Except.bind, pure,
      Except.pure, throw, throwThe, MonadExceptOf.throw] at hrun
    repeat' split at hrun
    all_goals first | cases hrun; trivial | cases hrun

/-- The host functions of the library are conservative, under any name. -/
theorem Native.library_conservative {entry : String × NativeFunction}
    (h : entry ∈ NativeFunction.library) (name : String) (arity : Nat) :
    Native.Conservative ⟨name, arity, entry.2⟩ := by
  intro function method now fields arguments v _ harguments hrun
  rcases NativeFunction.mem_or_isPlain h hrun with hmem | hplain
  · exact harguments v hmem
  · exact hplain.holds

/-- The clock makes no functions. -/
theorem Native.clock_conservative : Native.clock.Conservative := by
  intro function method now fields arguments v _ _ h
  cases h
  trivial

/-- Which closures are in a class: its methods and those of its superclass. -/
theorem Class.holds_iff {P : Closure → Prop} {id : ObjectId} {name : String}
    {superclass : Option Class} {methods : NameTable Closure} :
    Class.Holds P ⟨id, name, superclass, methods⟩ ↔
      (∀ name c, methods.get? name = some c → P c) ∧ ∀ s ∈ superclass, s.Holds P := by
  cases superclass with
  | none => simp [Class.Holds]
  | some s => simp [Class.Holds]

/-- What holds of closures may be weakened, for those in a class. -/
theorem Class.Holds.mono {P Q : Closure → Prop} (hPQ : ∀ c, P c → Q c) {cls : Class}
    (h : cls.Holds P) : cls.Holds Q := by
  -- `Holds` goes up the superclasses, so does the recursion
  match cls with
  | ⟨_, _, none, _⟩ =>
    obtain ⟨hmethods, -⟩ := Class.holds_iff.mp h
    exact Class.holds_iff.mpr ⟨fun name c hc => hPQ c (hmethods name c hc), nofun⟩
  | ⟨_, _, some s, _⟩ =>
    obtain ⟨hmethods, hs⟩ := Class.holds_iff.mp h
    have hs := (hs s rfl).mono hPQ
    refine Class.holds_iff.mpr ⟨fun name c hc => hPQ c (hmethods name c hc), ?_⟩
    rintro _ ⟨⟩
    exact hs

/-- A method that is found is one of the closures in the class. -/
theorem Class.Holds.findMethod? {P : Closure → Prop} {cls : Class} (h : cls.Holds P)
    {name : String} {c : Closure} (hc : cls.findMethod? name = some c) : P c := by
  match cls with
  | ⟨_, _, superclass, methods⟩ =>
    obtain ⟨hmethods, hs⟩ := Class.holds_iff.mp h
    rw [Class.findMethod?.eq_def] at hc
    dsimp only at hc
    -- in the class itself, or in the chain of its superclasses
    split at hc
    · rename_i method hmethod
      cases hc
      exact hmethods name c hmethod
    · cases superclass with
      | none => cases hc
      | some s => exact (hs s rfl).findMethod? hc

/-- What holds of closures may be weakened, for those in a value. -/
theorem Value.Holds.mono {P P' Q Q' : Closure → Prop} (hP : ∀ c, P c → P' c)
    (hQ : ∀ c, Q c → Q' c) {v : Value} (h : v.Holds P Q) : v.Holds P' Q' := by
  cases v with
  | function c => exact hP c h
  | class_ c => exact Class.Holds.mono hQ h
  | instance_ _ c => exact Class.Holds.mono hQ h
  | _ => trivial

namespace Closure

/-- The code of a function is code of accepted programs, and its scope stands for the place of its
    declaration. -/
def Legal (A : Use → Prop) (w : Watch) (c : Closure) : Prop :=
  ∃ around, w.machine.scopes.Stands c.scope (w.captured c.id) around ∧
    c.id.index < w.machine.nextObject ∧ Stmt.WellFormedFunction c.declaration ∧
    ∀ u ∈ Stmt.functionUses around c.declaration, A u

/-- The same of a method that is not bound to an instance: the scope of `this` is still missing. -/
def LegalMethod (A : Use → Prop) (w : Watch) (c : Closure) : Prop :=
  ∃ around, w.machine.scopes.Stands c.scope (w.captured c.id) around ∧
    c.id.index < w.machine.nextObject ∧ Stmt.WellFormedFunction c.declaration ∧
    ∀ u ∈ Stmt.functionUses (⟨.this c.declaration, ["this"]⟩ :: around) c.declaration, A u

end Closure

/-- All functions in a value are legal. -/
abbrev Value.Legal (A : Use → Prop) (w : Watch) (v : Value) : Prop :=
  v.Holds (Closure.Legal A w) (Closure.LegalMethod A w)

/-! ## Lookups -/

/-- A lookup agrees with a use of a name: the scopes opened around it are those around the use, and
    the links of the machine lead through them. If the name is local, the recorded distance leads to
    the scope opened for the innermost scope of the text that declares the name, and this scope
    binds it, or its own initializer assigns to it. If it is not, no distance is recorded. -/
structure Sighting.Shows (x : Sighting) (u : Use) : Prop where
  reference : u.reference = x.reference
  openers : x.activations.map (·.opener) = u.around.map (·.opener)
  distance : x.machine.distances.get? x.reference.id = u.distance?
  ancestor : ∀ i a, x.activations[i]? = some a →
    x.machine.scopes.ancestor? x.machine.current i = some a.scope
  binds : ∀ d, u.distance? = some d → ∃ a, x.activations[d]? = some a ∧
    ((x.machine.scopes.binding? a.scope u.reference.name.lexeme).isSome ∨
      u.reference.kind = .assign ∧ u.initializing = some u.reference.name.lexeme)
  super : u.reference.kind = .super → ∃ inner a b, u.distance? = some (inner + 1) ∧
    x.activations[inner]? = some a ∧ x.activations[inner + 1]? = some b ∧
    (∃ v, x.machine.scopes.binding? a.scope "this" = some (.value v)) ∧
    ∃ c, x.machine.scopes.binding? b.scope "super" = some (.value (.class_ c))

/-- What may abort a run of accepted programs. A name is only undefined if it is looked up among the
    global names; `super` is never unavailable. -/
def Abort.Justified (A : Use → Prop) : Abort → Prop
  | .runtime ⟨.superUnavailable, _⟩ => False
  | .runtime ⟨.undefinedVariable name, line⟩ =>
    ∃ u, A u ∧ u.reference.name.lexeme = name ∧ u.reference.name.line = line ∧ u.distance? = none
  | _ => True

namespace Watch

/-- What has been declared stays legal: scopes grow, and what has been noted of functions stays. -/
structure Grows (w w' : Watch) : Prop where
  scopes : w.machine.scopes.Grows w'.machine.scopes
  nextObject : w.machine.nextObject ≤ w'.machine.nextObject
  captured : ∀ id, id.index < w.machine.nextObject → w'.captured id = w.captured id

/-- What every action on the machine keeps. -/
structure Keeps (w w' : Watch) : Prop extends w.Grows w' where
  globals : w'.machine.globals = w.machine.globals
  current : w'.machine.current = w.machine.current
  distances : w'.machine.distances = w.machine.distances
  natives : w'.machine.natives = w.machine.natives

/-- All functions on the machine are legal, the distances are recorded, and all lookups so far
    agree with uses. -/
structure Legal (A : Use → Prop) (w : Watch) : Prop where
  globals_lt : w.machine.globals.index < w.machine.scopes.size
  globals_root : w.machine.scopes.parent? w.machine.globals = none
  bindings : ∀ e name v, w.machine.scopes.binding? e name = some (.value v) → v.Legal A w
  fields : ∀ t ∈ w.machine.fields, ∀ name v, t.get? name = some v → v.Legal A w
  natives : ∀ n ∈ w.machine.natives, n.Conservative
  uses : ∀ u, A u → w.machine.distances.get? u.reference.id = u.distance? ∧ u.Sound
  sightings : ∀ x ∈ w.sightings, ∃ u, A u ∧ x.Shows u

variable {A A' : Use → Prop} {w w' w'' : Watch}

theorem Grows.refl (w : Watch) : w.Grows w :=
  ⟨.refl _, Nat.le_refl _, fun _ _ => rfl⟩

theorem Grows.trans (h : w.Grows w') (h' : w'.Grows w'') : w.Grows w'' where
  scopes := h.scopes.trans h'.scopes
  nextObject := Nat.le_trans h.nextObject h'.nextObject
  captured id hid := by
    rw [h'.captured id (Nat.lt_of_lt_of_le hid h.nextObject), h.captured id hid]

theorem Keeps.refl (w : Watch) : w.Keeps w :=
  ⟨.refl w, rfl, rfl, rfl, rfl⟩

theorem Keeps.trans (h : w.Keeps w') (h' : w'.Keeps w'') : w.Keeps w'' where
  toGrows := h.toGrows.trans h'.toGrows
  globals := h'.globals.trans h.globals
  current := h'.current.trans h.current
  distances := h'.distances.trans h.distances
  natives := h'.natives.trans h.natives

/-- A closure stays legal while the watch grows and more uses are allowed. -/
theorem Grows.legal_closure (h : w.Grows w') (hA : ∀ u, A u → A' u) {c : Closure}
    (hc : c.Legal A w) : c.Legal A' w' := by
  obtain ⟨around, hstands, hid, hwf, huses⟩ := hc
  refine ⟨around, ?_, Nat.lt_of_lt_of_le hid h.nextObject, hwf, fun u hu => hA u (huses u hu)⟩
  rw [h.captured c.id hid]
  exact hstands.mono h.scopes

/-- A method stays legal while the watch grows and more uses are allowed. -/
theorem Grows.legal_method (h : w.Grows w') (hA : ∀ u, A u → A' u) {c : Closure}
    (hc : c.LegalMethod A w) : c.LegalMethod A' w' := by
  obtain ⟨around, hstands, hid, hwf, huses⟩ := hc
  refine ⟨around, ?_, Nat.lt_of_lt_of_le hid h.nextObject, hwf, fun u hu => hA u (huses u hu)⟩
  rw [h.captured c.id hid]
  exact hstands.mono h.scopes

/-- A legal value stays legal. -/
theorem Grows.legal (h : w.Grows w') (hA : ∀ u, A u → A' u) {v : Value} (hv : v.Legal A w) :
    v.Legal A' w' :=
  hv.mono (fun _ => h.legal_closure hA) fun _ => h.legal_method hA

/-- A value stays legal while everything is kept. -/
theorem Keeps.legal (h : w.Keeps w') {v : Value} (hv : v.Legal A w) : v.Legal A w' :=
  h.toGrows.legal (fun _ hu => hu) hv

/-- Another state of the scopes. -/
def withScopes (w : Watch) (f : Scopes) : Watch :=
  { w with machine := { w.machine with scopes := f } }

/-- In another current scope a watch is just as legal. -/
theorem Legal.at_ (h : w.Legal A) (e : ScopeId) : (w.at_ e).Legal A :=
  ⟨h.globals_lt, h.globals_root, h.bindings, h.fields, h.natives, h.uses, h.sightings⟩

/-- On another line a watch is just as legal. -/
theorem Legal.onLine (h : w.Legal A) (line : Nat) : (w.onLine line).Legal A :=
  ⟨h.globals_lt, h.globals_root, h.bindings, h.fields, h.natives, h.uses, h.sightings⟩

/-- A watch of which only the scopes grow keeps what it has. -/
theorem keeps_withScopes {f : Scopes} (h : w.machine.scopes.Grows f) : w.Keeps (w.withScopes f) :=
  ⟨⟨h, Nat.le_refl _, fun _ _ => rfl⟩, rfl, rfl, rfl, rfl⟩

/-- Scopes grow legally if new values are legal afterwards. -/
theorem Legal.withScopes (h : w.Legal A) {f : Scopes} (hgrows : w.machine.scopes.Grows f)
    (hnew : ∀ e name v, f.binding? e name = some (.value v) →
      w.machine.scopes.binding? e name = some (.value v) ∨ v.Legal A (w.withScopes f)) :
    (w.withScopes f).Legal A where
  globals_lt := Nat.lt_of_lt_of_le h.globals_lt hgrows.size
  globals_root := by
    rw [← h.globals_root]
    exact hgrows.parent? _ h.globals_lt
  -- old bindings are legal because scopes that grow keep what was legal; new ones by assumption
  bindings e name v hv := by
    rcases hnew e name v hv with hold | hnew
    · exact (keeps_withScopes hgrows).legal (h.bindings e name v hold)
    · exact hnew
  fields t ht name v hv := (keeps_withScopes hgrows).legal (h.fields t ht name v hv)
  natives := h.natives
  uses := h.uses
  sightings := h.sightings

/-- Binding a name to a value that is legal afterwards. -/
theorem Legal.define (h : w.Legal A) {e : ScopeId} {name : String} {b : Binding}
    (hname : ∀ k : Keyword, name = k.word → ∀ p, w.machine.scopes.parent? e = some p →
      w.machine.scopes.binding? e name = none)
    (hb : ∀ v, b = .value v → v.Legal A (w.withScopes (w.machine.scopes.bind e name b))) :
    w.Keeps (w.withScopes (w.machine.scopes.bind e name b)) ∧
      (w.withScopes (w.machine.scopes.bind e name b)).Legal A := by
  have hgrows : w.machine.scopes.Grows (w.machine.scopes.bind e name b) := .bind hname
  refine ⟨keeps_withScopes hgrows, h.withScopes hgrows fun e' name' v hv => ?_⟩
  rw [Scopes.binding?_bind] at hv
  split at hv
  · cases hv
    exact .inr (hb v rfl)
  · exact .inl hv

/-- Opening a scope inside another. -/
theorem Legal.child (h : w.Legal A) {e : ScopeId} (he : e.index < w.machine.scopes.size) :
    w.Keeps (w.withScopes (w.machine.scopes.child e).1) ∧
      (w.withScopes (w.machine.scopes.child e).1).Legal A := by
  refine ⟨keeps_withScopes (.child he), h.withScopes (.child he) fun e' name v hv => .inl ?_⟩
  rwa [Scopes.binding?_child _ _ _ _ he] at hv

end Watch

/-! ## Safe actions -/

/-- An action on a legal machine keeps it so, and its result is as described; if it is aborted,
    there is a reason for it. -/
def Safe (A : Use → Prop) (w : Watch) {α : Type} (p : Watched α) (Q : α → Watch → Prop) : Prop :=
  match p w with
  | .ok a w' => w.Keeps w' ∧ w'.Legal A ∧ Q a w'
  | .error e w' => w.Keeps w' ∧ w'.Legal A ∧ e.Justified A

namespace Safe

variable {A : Use → Prop} {w : Watch} {α β : Type} {p : Watched α} {Q Q' : α → Watch → Prop}

/-- What is known of a result may be weakened. -/
theorem mono (h : Safe A w p Q) (hQ : ∀ a w', w.Keeps w' → w'.Legal A → Q a w' → Q' a w') :
    Safe A w p Q' := by
  unfold Safe at h ⊢
  cases hp : p w with
  | ok a w' =>
    rw [hp] at h
    exact ⟨h.1, h.2.1, hQ a w' h.1 h.2.1 h.2.2⟩
  | error e w' =>
    rw [hp] at h
    exact h

theorem pure (h : w.Legal A) {a : α} (ha : Q a w) : Safe A w (Pure.pure a) Q :=
  ⟨.refl w, h, ha⟩

theorem throw (h : w.Legal A) {e : Abort} (he : e.Justified A) :
    Safe A w (throw e : Watched α) Q :=
  ⟨.refl w, h, he⟩

/-- A run-time error that does not need a reason. -/
theorem fail (h : w.Legal A) {t : Token} {fault : RuntimeFault}
    (hfault : (Abort.runtime ⟨fault, t.line⟩).Justified A) :
    Safe A w (Watched.lift (Run.fail t fault) : Watched α) Q :=
  ⟨.refl w, h, hfault⟩

/-- Actions one after the other. -/
theorem bind {f : α → Watched β} {R : β → Watch → Prop} (h : Safe A w p Q)
    (hf : ∀ a w', w.Keeps w' → w'.Legal A → Q a w' → Safe A w' (f a) R) :
    Safe A w (p >>= f) R := by
  -- both endings keep what was kept by the first action, so keeping is joined by transitivity
  unfold Safe at h
  show match EStateM.bind p f w with
    | .ok a w' => w.Keeps w' ∧ w'.Legal A ∧ R a w'
    | .error e w' => w.Keeps w' ∧ w'.Legal A ∧ e.Justified A
  unfold EStateM.bind
  cases hp : p w with
  | error e w' =>
    rw [hp] at h
    exact h
  | ok a w' =>
    rw [hp] at h
    obtain ⟨hkeeps, hlegal, ha⟩ := h
    have hnext := hf a w' hkeeps hlegal ha
    unfold Safe at hnext
    dsimp only
    cases hfa : f a w' with
    | ok b w'' =>
      rw [hfa] at hnext
      exact ⟨hkeeps.trans hnext.1, hnext.2⟩
    | error e w'' =>
      rw [hfa] at hnext
      exact ⟨hkeeps.trans hnext.1, hnext.2⟩

/-- What is left to do after a first step. -/
theorem step {w' : Watch} {q : Watched α} (hkeeps : w.Keeps w') (hrun : p w = q w')
    (h : Safe A w' q Q) : Safe A w p Q := by
  unfold Safe at h ⊢
  rw [hrun]
  cases hq : q w' with
  | ok a w'' | error e w'' =>
    rw [hq] at h
    exact ⟨hkeeps.trans h.1, h.2⟩

/-- Two actions that do the same to this machine are equally safe. -/
theorem of_run_eq {p q : Run α} (hrun : p w.machine = q w.machine) {R : α → Watch → Prop}
    (h : Safe A w (Watched.lift q) R) : Safe A w (Watched.lift p) R := by
  refine .step (.refl w) ?_ h
  simp only [Watched.lift, Act.onPart, hrun]

/-- Looking at the machine and at what has been watched. -/
theorem get {f : Watch → Watched β} {R : β → Watch → Prop} (h : Safe A w (f w) R) :
    Safe A w (do let w ← MonadState.get; f w) R :=
  h

/-- Noting a lookup that agrees with a use. -/
theorem see (h : w.Legal A) {reference : Reference} {acts : List Activation} {u : Use} (hu : A u)
    (hshows : Sighting.Shows ⟨reference, acts, w.machine⟩ u) {p : Watched β} {R : β → Watch → Prop}
    (hp : ∀ w', w'.machine = w.machine → w.Keeps w' → w'.Legal A → Safe A w' p R) :
    Safe A w (do Watched.see reference acts; p) R := by
  have hkeeps : w.Keeps { w with sightings := ⟨reference, acts, w.machine⟩ :: w.sightings } :=
    ⟨⟨.refl _, Nat.le_refl _, fun _ _ => rfl⟩, rfl, rfl, rfl, rfl⟩
  have hlegal :
      Watch.Legal A { w with sightings := ⟨reference, acts, w.machine⟩ :: w.sightings } := by
    refine { h with sightings := fun x hx => ?_ }
    rcases List.mem_cons.mp hx with rfl | hx
    · exact ⟨u, hu, hshows⟩
    · exact h.sightings x hx
  -- the sighting is the only news, and it shows the use as it has to
  have hsee : Safe A w (Watched.see reference acts) fun _ w' => w'.machine = w.machine :=
    ⟨hkeeps, hlegal, rfl⟩
  exact hsee.bind fun _ w' hkeeps hlegal hmachine => hp w' hmachine hkeeps hlegal

/-- Acting on a machine that is prepared for it and put back. -/
private theorem within (prepare : Watch → Watch) (putBack : Watch → Watch → Watch)
    (h : Safe A (prepare w) p Q) (hkeeps : ∀ w', (prepare w).Keeps w' → w.Keeps (putBack w w'))
    (hlegal : ∀ w', w'.Legal A → (putBack w w').Legal A)
    (hQ : ∀ a w', Q a w' → Q' a (putBack w w')) : Safe A w (p.within prepare putBack) Q' := by
  unfold Safe at h ⊢
  -- what was prepared is put back on a failure too
  cases hp : p (prepare w) with
  | ok a w' =>
    rw [hp] at h
    rw [Act.within_of_ok hp]
    obtain ⟨hinner, hafter, ha⟩ := h
    exact ⟨hkeeps w' hinner, hlegal w' hafter, hQ a w' ha⟩
  | error e w' =>
    rw [hp] at h
    rw [Act.within_of_error hp]
    obtain ⟨hinner, hafter, he⟩ := h
    exact ⟨hkeeps w' hinner, hlegal w' hafter, he⟩

/-- Acting in another scope. -/
theorem inScope {e : ScopeId} (h : Safe A (w.at_ e) p Q)
    (hQ : ∀ a w', Q a w' → Q' a (w'.at_ w.machine.current)) : Safe A w (Watched.inScope e p) Q' :=
  within (·.at_ e) (fun w w' => w'.at_ w.machine.current) h
    (fun _ h => ⟨⟨h.scopes, h.nextObject, h.captured⟩, h.globals, rfl, h.distances, h.natives⟩)
    (fun _ h => h.at_ _) hQ

/-- Acting during a call. -/
theorem duringCall {line : Nat} (h : Safe A (w.onLine line) p Q)
    (hQ : ∀ a w', Q a w' → Q' a (w'.onLine w.machine.callLine)) :
    Safe A w (Watched.duringCall line p) Q' :=
  within (·.onLine line) (fun w w' => w'.onLine w.machine.callLine) h
    (fun _ h => ⟨⟨h.scopes, h.nextObject, h.captured⟩, h.globals, h.current, h.distances, h.natives⟩)
    (fun _ h => h.onLine _) hQ

end Safe

end Lox
