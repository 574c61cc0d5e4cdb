import Lox.Proofs.LegalSteps
import Lox.Proofs.Trace

/-!
# Machines that hold on to their globals

All that a machine can reach belongs to its global scope: scopes opened inside of it, functions
declared in such scopes, classes with methods declared there and with superclasses that are older,
instances made since the global scope was put in place. Every step of a run keeps this so, whatever
is executed.

## Key results

- `Native.FromArguments`: host functions that yield nothing but what is in their arguments
- `Machine.Rooted`: the invariant
- `Traced.program_stays`: every machine that a program passes through has it
-/

namespace Lox

/-! ## Host functions -/

/-- A collection of values with all that is inside of them: superclasses and methods of classes,
    the class and the fields of an instance. -/
structure Stock (fields : Fields) (P : Value → Prop) : Prop where
  plain : ∀ v : Value, v.IsPlain → P v
  superclass : ∀ c s, P (.class_ c) → c.superclass = some s → P (.class_ s)
  method : ∀ c name method, P (.class_ c) → c.methods.get? name = some method → P (.function method)
  cls : ∀ id c, P (.instance_ id c) → P (.class_ c)
  field : ∀ (id : InstanceId) c name v, P (.instance_ id c) →
    (fields.getD id.index .empty).get? name = some v → P v

/-- What a host function yields is in its arguments, or there is nothing inside of it. -/
def Native.FromArguments (n : Native) : Prop :=
  ∀ (P : Value → Prop) (now : Float) (fields : Fields) (arguments : List Value) (v : Value),
    Stock fields P → (∀ a ∈ arguments, P a) → n.run now fields arguments = .ok v → P v

/-- The functions of the library make their results from their arguments alone. -/
theorem Native.library_fromArguments {entry : String × NativeFunction}
    (h : entry ∈ NativeFunction.library) (name : String) (arity : Nat) :
    Native.FromArguments ⟨name, arity, entry.2⟩ := by
  intro P now fields arguments v hstock harguments hrun
  rcases NativeFunction.mem_or_isPlain h hrun with hmem | hplain
  · exact harguments v hmem
  · exact hstock.plain v hplain

/-- The clock makes its result from a reading, so no scope or object is in it. -/
theorem Native.clock_fromArguments : Native.clock.FromArguments := by
  intro P now fields arguments v hstock _ hrun
  cases hrun
  exact hstock.plain _ trivial

/-! ## Growing scopes -/

/-- Scopes are only added, and none is moved. -/
structure Scopes.Extends (f f' : Scopes) : Prop where
  size : f.size ≤ f'.size
  parent? : ∀ e, e.index < f.size → f'.parent? e = f.parent? e

namespace Scopes.Extends

variable {f f' f'' : Scopes}

theorem refl (f : Scopes) : f.Extends f :=
  ⟨Nat.le_refl _, fun _ _ => rfl⟩

/-- A forest that extends one that extends a third extends the third. -/
theorem trans (h : f.Extends f') (h' : f'.Extends f'') : f.Extends f'' :=
  ⟨Nat.le_trans h.size h'.size, fun e he => by
    rw [h'.parent? e (Nat.lt_of_lt_of_le he h.size), h.parent? e he]⟩

/-- Binding a name adds no scope and changes no parent. -/
theorem bind (f : Scopes) (e : ScopeId) (name : String) (b : Binding) :
    f.Extends (f.bind e name b) :=
  ⟨by simp, fun e' _ => f.parent?_bind e e' name b⟩

/-- A new scope inside one of the forest extends the forest. -/
theorem child {e : ScopeId} (he : e.index < f.size) : f.Extends (f.child e).1 :=
  ⟨(Grows.child he).size, (Grows.child he).parent?⟩

end Scopes.Extends

/-! ## What belongs to the globals -/

/-- What there is since a global scope was put in place. -/
structure Range where
  /-- The global scope, the first one of the range. -/
  root : ScopeId
  /-- How many scopes there are. -/
  scopes : Nat
  /-- How many functions and classes there are. -/
  objects : Nat
  /-- The first instance of the range. -/
  firstInstance : Nat

namespace Range

/-- The scope is in the range. -/
def HasScope (r : Range) (e : ScopeId) : Prop :=
  r.root.index ≤ e.index ∧ e.index < r.scopes

/-- The range grows. -/
structure Within (r r' : Range) : Prop where
  root : r'.root = r.root
  scopes : r.scopes ≤ r'.scopes
  objects : r.objects ≤ r'.objects
  firstInstance : r'.firstInstance = r.firstInstance

/-- A scope of a range is one of any range that holds it. -/
theorem Within.hasScope {r r' : Range} (h : r.Within r') {e : ScopeId} (he : r.HasScope e) :
    r'.HasScope e := by
  unfold HasScope
  rw [h.root]
  exact ⟨he.1, Nat.lt_of_lt_of_le he.2 h.scopes⟩

end Range

/-- A class in the range: its methods are declared in the range, and what it inherits from is older
    and in the range, too. -/
def Class.Rooted (r : Range) : Class → Prop
  | ⟨id, _, superclass, methods⟩ =>
    id.index < r.objects ∧ (∀ name c, methods.get? name = some c → r.HasScope c.scope) ∧
      match superclass with
      | some s => s.id.index < id.index ∧ s.Rooted r
      | none => True

/-- What roots a class, spelled out: its number, the scopes of its methods and its superclass, which
    is older. -/
theorem Class.rooted_iff {r : Range} {c : Class} : c.Rooted r ↔ c.id.index < r.objects ∧
    (∀ name m, c.methods.get? name = some m → r.HasScope m.scope) ∧
      ∀ s, c.superclass = some s → s.id.index < c.id.index ∧ s.Rooted r := by
  obtain ⟨id, name, superclass, methods⟩ := c
  cases superclass with
  | none => simp [Class.Rooted]
  | some s => simp [Class.Rooted]

/-- A value in the range. -/
def Value.Rooted (r : Range) : Value → Prop
  | .function c => r.HasScope c.scope
  | .class_ c => c.Rooted r
  | .instance_ id c => r.firstInstance ≤ id.index ∧ c.Rooted r
  | _ => True

section Values

variable {r r' : Range}

/-- A class stays rooted where there are more scopes and objects. -/
theorem Class.Rooted.mono (h : r.Within r') {c : Class} (hc : c.Rooted r) : c.Rooted r' := by
  match c with
  | ⟨id, name, superclass, methods⟩ =>
    obtain ⟨hid, hmethods, hsuperclass⟩ := Class.rooted_iff.mp hc
    refine Class.rooted_iff.mpr ⟨Nat.lt_of_lt_of_le hid h.objects,
      fun name m hm => h.hasScope (hmethods name m hm), ?_⟩
    rintro s ⟨⟩
    exact ⟨(hsuperclass s rfl).1, (hsuperclass s rfl).2.mono h⟩

/-- A method found upward from a rooted class is closed over a scope of the range. -/
theorem Class.Rooted.findMethod? {c : Class} (hc : c.Rooted r) {name : String} {m : Closure}
    (hm : c.findMethod? name = some m) : r.HasScope m.scope := by
  match c with
  | ⟨id, _, superclass, methods⟩ =>
    obtain ⟨hid, hmethods, hsuperclass⟩ := Class.rooted_iff.mp hc
    rw [Class.findMethod?.eq_def] at hm
    dsimp only at hm
    split at hm
    · cases hm
      exact hmethods _ _ ‹_›
    -- not among the class's own methods, so it is looked for one class up
    · cases superclass with
      | none => cases hm
      | some s => exact (hsuperclass s rfl).2.findMethod? hm

/-- A value stays rooted where there are more scopes and objects. -/
theorem Value.Rooted.mono (h : r.Within r') {v : Value} (hv : v.Rooted r) : v.Rooted r' := by
  cases v with
  | function c => exact h.hasScope hv
  | class_ c => exact Class.Rooted.mono h hv
  | instance_ id c => exact ⟨h.firstInstance ▸ hv.1, hv.2.mono h⟩
  | _ => trivial

/-- A plain value refers to no scope and no object, so it is rooted anywhere. -/
theorem Value.IsPlain.rooted {v : Value} (h : v.IsPlain) : v.Rooted r := by
  cases v <;> trivial

end Values

/-! ## The invariant -/

namespace Machine

/-- What there is since the globals of a machine were put in place. -/
def range (m : Machine) (first : Nat) : Range :=
  ⟨m.globals, m.scopes.size, m.nextObject, first⟩

/-- All that the machine can reach belongs to its globals. -/
structure Rooted (first : Nat) (m : Machine) : Prop where
  globals : m.globals.index < m.scopes.size
  root : m.scopes.parent? m.globals = none
  current : (m.range first).HasScope m.current
  /-- Every scope since the globals is inside another one of them. -/
  parents : ∀ e, m.globals.index < e.index → e.index < m.scopes.size →
    ∃ p, m.scopes.parent? e = some p ∧ (m.range first).HasScope p
  bindings : ∀ e name v, m.globals.index ≤ e.index →
    m.scopes.binding? e name = some (.value v) → v.Rooted (m.range first)
  instances : first ≤ m.fields.size
  fields : ∀ id : InstanceId, first ≤ id.index → ∀ name v,
    (m.fields.getD id.index .empty).get? name = some v → v.Rooted (m.range first)
  natives : ∀ n ∈ m.natives, n.FromArguments

/-- What a run keeps. -/
structure Keeps (m m' : Machine) : Prop where
  scopes : m.scopes.Extends m'.scopes
  globals : m'.globals = m.globals
  current : m'.current = m.current
  nextObject : m.nextObject ≤ m'.nextObject

namespace Keeps

variable {m m' m'' : Machine}

theorem refl (m : Machine) : m.Keeps m :=
  ⟨.refl _, rfl, rfl, Nat.le_refl _⟩

theorem trans (h : m.Keeps m') (h' : m'.Keeps m'') : m.Keeps m'' :=
  ⟨h.scopes.trans h'.scopes, h'.globals.trans h.globals, h'.current.trans h.current,
    Nat.le_trans h.nextObject h'.nextObject⟩

/-- What is kept widens the range of scopes and objects. -/
theorem within (h : m.Keeps m') (first : Nat) : (m.range first).Within (m'.range first) :=
  ⟨h.globals, h.scopes.size, h.nextObject, rfl⟩

/-- A value that is rooted stays so where everything is kept. -/
theorem rooted (h : m.Keeps m') {first : Nat} {v : Value} (hv : v.Rooted (m.range first)) :
    v.Rooted (m'.range first) :=
  hv.mono (h.within first)

end Keeps

namespace Rooted

variable {first : Nat} {m m' : Machine}

/-- The values on the machine are a stock as far as they belong to the globals. -/
theorem stock (h : m.Rooted first) : Stock m.fields (Value.Rooted (m.range first)) where
  plain _ hv := hv.rooted
  superclass _ _ hc hs := ((Class.rooted_iff.mp hc).2.2 _ hs).2
  method _ _ _ hc hm := (Class.rooted_iff.mp hc).2.1 _ _ hm
  cls _ _ hv := hv.2
  field id _ name v hv hfield := h.fields id hv.1 name v hfield

/-- Scopes are added inside those that there are, and names are bound to values of the range. -/
theorem withScopes (h : m.Rooted first) {f : Scopes} (hextends : m.scopes.Extends f)
    (hparents : ∀ e, m.scopes.size ≤ e.index → e.index < f.size →
      ∃ p, f.parent? e = some p ∧ (m.range first).HasScope p)
    (hbindings : ∀ e name v, f.binding? e name = some (.value v) →
      m.scopes.binding? e name = some (.value v) ∨ v.Rooted (m.range first)) :
    m.Keeps { m with scopes := f } ∧ Rooted first { m with scopes := f } := by
  have hkeeps : m.Keeps { m with scopes := f } := ⟨hextends, rfl, rfl, Nat.le_refl _⟩
  have hwithin := hkeeps.within first
  refine ⟨hkeeps, ?_⟩
  constructor
  case globals => exact Nat.lt_of_lt_of_le h.globals hextends.size
  case root => exact (hextends.parent? _ h.globals).trans h.root
  case current => exact hwithin.hasScope h.current
  case parents =>
    intro e hroot hsize
    -- a scope is an old one, whose parent stays, or one of those added
    by_cases hlt : e.index < m.scopes.size
    · obtain ⟨p, hp, hscope⟩ := h.parents e hroot hlt
      exact ⟨p, (hextends.parent? e hlt).trans hp, hwithin.hasScope hscope⟩
    · obtain ⟨p, hp, hscope⟩ := hparents e (Nat.le_of_not_lt hlt) hsize
      exact ⟨p, hp, hwithin.hasScope hscope⟩
  case bindings =>
    intro e name v hroot hv
    rcases hbindings e name v hv with hold | hnew
    · exact hkeeps.rooted (h.bindings e name v hroot hold)
    · exact hkeeps.rooted hnew
  case instances => exact h.instances
  case fields => exact fun id hid name v hv => hkeeps.rooted (h.fields id hid name v hv)
  case natives => exact h.natives

/-- A name is declared, or bound to a value of the range. -/
theorem bind (h : m.Rooted first) (e : ScopeId) (name : String) {b : Binding}
    (hb : ∀ v, b = .value v → v.Rooted (m.range first)) :
    m.Keeps { m with scopes := m.scopes.bind e name b } ∧
      Rooted first { m with scopes := m.scopes.bind e name b } := by
  -- no scope is opened, so the links are those that there were
  refine h.withScopes (.bind _ e name b) (fun e' hle hlt => ?_) fun e' name' v hv => ?_
  · simp only [Scopes.size_bind] at hlt
    omega
  · rw [Scopes.binding?_bind] at hv
    split at hv
    · cases hv
      exact .inr (hb v rfl)
    · exact .inl hv

/-- A scope is opened inside one of the range. -/
theorem child (h : m.Rooted first) {e : ScopeId} (he : (m.range first).HasScope e) :
    m.Keeps { m with scopes := (m.scopes.child e).1 } ∧
      Rooted first { m with scopes := (m.scopes.child e).1 } := by
  refine h.withScopes (.child he.2) (fun e' hle hlt => ?_) fun e' name v hv => .inl ?_
  · have hsize : (m.scopes.child e).1.size = m.scopes.size + 1 := Scopes.size_child he.2
    refine ⟨e, ?_, he⟩
    rw [Scopes.parent?_child _ _ _ he.2, if_pos (by omega)]
  · rwa [Scopes.binding?_child _ _ _ _ he.2] at hv

/-- Nothing but the current scope changes, and it is one of the range. -/
theorem at_ (h : m.Rooted first) {e : ScopeId} (he : (m.range first).HasScope e) :
    Rooted first { m with current := e } :=
  ⟨h.globals, h.root, he, h.parents, h.bindings, h.instances, h.fields, h.natives⟩

/-- On which line a call stands roots nothing. -/
theorem onLine (h : m.Rooted first) (line : Nat) : Rooted first { m with callLine := line } :=
  ⟨h.globals, h.root, h.current, h.parents, h.bindings, h.instances, h.fields, h.natives⟩

/-- Where output goes roots nothing. -/
theorem withSink (h : m.Rooted first) (sink : Sink) : Rooted first { m with sink } :=
  ⟨h.globals, h.root, h.current, h.parents, h.bindings, h.instances, h.fields, h.natives⟩

/-- Reading the clock roots nothing. -/
theorem tick (h : m.Rooted first) : Rooted first m.tick :=
  ⟨h.globals, h.root, h.current, h.parents, h.bindings, h.instances, h.fields, h.natives⟩

/-- A function or class gets an identity. -/
theorem freshObject (h : m.Rooted first) :
    m.Keeps { m with nextObject := m.nextObject + 1 } ∧
      Rooted first { m with nextObject := m.nextObject + 1 } := by
  have hkeeps : m.Keeps { m with nextObject := m.nextObject + 1 } :=
    ⟨.refl _, rfl, rfl, Nat.le_succ _⟩
  exact ⟨hkeeps, h.globals, h.root, h.current, h.parents,
    fun e name v hroot hv => hkeeps.rooted (h.bindings e name v hroot hv), h.instances,
    fun id hid name v hv => hkeeps.rooted (h.fields id hid name v hv), h.natives⟩

/-- An instance is made, or a field is set to a value of the range. -/
theorem withFields (h : m.Rooted first) (fields : Fields) (hsize : m.fields.size ≤ fields.size)
    (hfields : ∀ (id : InstanceId) name v, (fields.getD id.index .empty).get? name = some v →
      (m.fields.getD id.index .empty).get? name = some v ∨ v.Rooted (m.range first)) :
    m.Keeps { m with fields } ∧ Rooted first { m with fields } := by
  refine ⟨⟨.refl _, rfl, rfl, Nat.le_refl _⟩, h.globals, h.root, h.current, h.parents, h.bindings,
    Nat.le_trans h.instances hsize, fun id hid name v hv => ?_, h.natives⟩
  rcases hfields id name v hv with hold | hnew
  · exact h.fields id hid name v hold
  · exact hnew

/-- Every scope of the range but the global one is inside another one of it. -/
theorem exists_parent? (h : m.Rooted first) {e : ScopeId} (he : (m.range first).HasScope e)
    (hne : e ≠ m.globals) : ∃ p, m.scopes.parent? e = some p ∧ (m.range first).HasScope p := by
  refine h.parents e (Nat.lt_of_le_of_ne he.1 fun heq => hne ?_) he.2
  cases e
  cases hglobals : m.globals
  simp_all [Machine.range]

/-- The scope around a scope of the range is one of the range. -/
theorem parent? (h : m.Rooted first) {e p : ScopeId} (he : (m.range first).HasScope e)
    (hp : m.scopes.parent? e = some p) : (m.range first).HasScope p := by
  have hne : e ≠ m.globals := by
    rintro rfl
    rw [h.root] at hp
    cases hp
  obtain ⟨p', hp', hscope⟩ := h.exists_parent? he hne
  rw [hp] at hp'
  exact Option.some.inj hp' ▸ hscope

/-- So many links outward from a scope of the range is another one. -/
theorem ancestor? (h : m.Rooted first) {e e' : ScopeId} {d : Nat}
    (he : (m.range first).HasScope e) (hd : m.scopes.ancestor? e d = some e') :
    (m.range first).HasScope e' := by
  induction d generalizing e with
  | zero =>
    have hlt : e.index < m.scopes.size := he.2
    rw [Scopes.ancestor?, if_pos hlt] at hd
    exact Option.some.inj hd ▸ he
  | succ d ih =>
    rw [Scopes.ancestor?] at hd
    cases hp : m.scopes.parent? e with
    | none =>
      rw [hp] at hd
      cases hd
    | some p =>
      rw [hp] at hd
      -- one link outward leads to a scope of the range, so all of them do
      exact ih (h.parent? he hp) hd

/-- What is found at a distance from a scope of the range belongs to the globals. -/
theorem getAt? (h : m.Rooted first) {e : ScopeId} (he : (m.range first).HasScope e) {d : Nat}
    {name : String} {v : Value} (hv : m.scopes.getAt? e d name = some (.value v)) :
    v.Rooted (m.range first) := by
  obtain ⟨e', he', hbinding⟩ := Option.bind_eq_some_iff.mp hv
  exact h.bindings e' name v (h.ancestor? he he').1 hbinding

end Rooted

end Machine

/-! ## Traces -/

/-- All machines of a trace belong to their globals, and scopes are only added, from the first of
    them on. -/
structure Trace.Rooted (first : Nat) (origin : Machine) (t : Trace) : Prop where
  machines : ∀ m ∈ t.machine :: t.past, m.Rooted first ∧ origin.scopes.Extends m.scopes
  extends_ : (t.machine :: t.past).Pairwise fun later earlier =>
    earlier.scopes.Extends later.scopes

/-- One more machine. -/
theorem Trace.Rooted.goOn {first : Nat} {origin : Machine} {t : Trace} (h : t.Rooted first origin)
    {m : Machine} (hm : m.Rooted first) (hextends : t.machine.scopes.Extends m.scopes) :
    (t.goOn m).Rooted first origin := by
  have horigin := (h.machines _ List.mem_cons_self).2.trans hextends
  refine ⟨List.forall_mem_cons.mpr ⟨⟨hm, horigin⟩, h.machines⟩,
    List.pairwise_cons.mpr ⟨?_, h.extends_⟩⟩
  intro earlier hearlier
  rcases List.mem_cons.mp hearlier with rfl | hearlier
  · exact hextends
  · exact ((List.pairwise_cons.mp h.extends_).1 earlier hearlier).trans hextends

namespace Traced

/-- An action from this machine passes through machines that belong to their globals, and its result
    is as described. -/
def Stays (first : Nat) (m : Machine) {α : Type} (p : Traced α) (Q : α → Machine → Prop) : Prop :=
  ∀ origin past, Trace.Rooted first origin ⟨m, past⟩ →
    match p ⟨m, past⟩ with
    | .ok a t => m.Keeps t.machine ∧ t.Rooted first origin ∧ Q a t.machine
    | .error _ t => m.Keeps t.machine ∧ t.Rooted first origin

namespace Stays

variable {first : Nat} {m : Machine} {α β : Type} {p : Traced α} {Q Q' : α → Machine → Prop}

theorem pure {a : α} (ha : Q a m) : Stays first m (Pure.pure a) Q :=
  fun _ _ hpast => ⟨.refl m, hpast, ha⟩

/-- A run that ends here has no result of which anything would have to hold. -/
theorem throw {e : Abort} : Stays first m (throw e : Traced α) Q :=
  fun _ _ hpast => ⟨.refl m, hpast⟩

/-- Actions one after the other. -/
theorem bind {f : α → Traced β} {R : β → Machine → Prop} (h : Stays first m p Q)
    (hf : ∀ a m', m.Keeps m' → m'.Rooted first → Q a m' → Stays first m' (f a) R) :
    Stays first m (p >>= f) R := by
  intro origin past hpast
  have h := h origin past hpast
  show match EStateM.bind p f ⟨m, past⟩ with
    | .ok b t => m.Keeps t.machine ∧ t.Rooted first origin ∧ R b t.machine
    | .error _ t => m.Keeps t.machine ∧ t.Rooted first origin
  unfold EStateM.bind
  cases hp : p ⟨m, past⟩ with
  | error e t =>
    rw [hp] at h
    exact h
  | ok a t =>
    rw [hp] at h
    obtain ⟨hkeeps, hrooted, ha⟩ := h
    have hnext := hf a t.machine hkeeps (hrooted.machines _ List.mem_cons_self).1
      ha origin t.past hrooted
    -- what follows starts from the whole trace, with the machines before it
    dsimp only
    cases hfa : f a t with
    | ok b t' =>
      rw [show (⟨t.machine, t.past⟩ : Trace) = t from rfl, hfa] at hnext
      exact ⟨hkeeps.trans hnext.1, hnext.2⟩
    | error e t' =>
      rw [show (⟨t.machine, t.past⟩ : Trace) = t from rfl, hfa] at hnext
      exact ⟨hkeeps.trans hnext.1, hnext.2⟩

/-- Looking at the machine. -/
theorem get {f : Trace → Traced β} {R : β → Machine → Prop}
    (h : ∀ past, Stays first m (f ⟨m, past⟩) R) :
    Stays first m (do let t ← MonadState.get; f t) R :=
  fun origin past hpast => h past origin past hpast

/-- A step on the machine. -/
theorem lift {action : Run α}
    (h : match action m with
      | .ok a m' => m.Keeps m' ∧ m'.Rooted first ∧ Q a m'
      | .error _ m' => m.Keeps m' ∧ m'.Rooted first) : Stays first m (lift action) Q := by
  intro origin past hpast
  unfold Traced.lift Act.onPart
  dsimp only
  cases hrun : action m with
  | ok a m' =>
    rw [hrun] at h
    exact ⟨h.1, hpast.goOn h.2.1 h.1.scopes, h.2.2⟩
  | error e m' =>
    rw [hrun] at h
    exact ⟨h.1, hpast.goOn h.2 h.1.scopes⟩

/-- A step that leaves the machine alone. -/
theorem reads (h : m.Rooted first) {action : Run α}
    (hrun : match action m with
      | .ok a m' => m' = m ∧ Q a m
      | .error _ m' => m' = m) : Stays first m (Traced.lift action) Q := by
  -- the machine is put on the trace once more, which is what it was
  refine lift ?_
  cases haction : action m with
  | ok a m' =>
    rw [haction] at hrun
    obtain ⟨rfl, ha⟩ := hrun
    exact ⟨.refl _, h, ha⟩
  | error e m' =>
    rw [haction] at hrun
    cases hrun
    exact ⟨.refl _, h⟩

/-- Two actions that do the same to this machine. -/
theorem of_run_eq {action action' : Run α} (hrun : action m = action' m)
    (h : Stays first m (Traced.lift action') Q) : Stays first m (Traced.lift action) Q := by
  intro origin past hpast
  have h := h origin past hpast
  unfold Traced.lift Act.onPart at h ⊢
  simpa only [hrun] using h

/-- A runtime error has no result of which anything would have to hold. -/
theorem fail (h : m.Rooted first) (t : Token) (fault : RuntimeFault) :
    Stays first m (Traced.lift (Run.fail t fault) : Traced α) Q :=
  reads h rfl

/-- Acting on a machine that is prepared for it and put back. -/
private theorem within (prepare : Machine → Machine) (putBack : Machine → Machine → Machine)
    (hinner : (prepare m).Rooted first) (hscopes : m.scopes.Extends (prepare m).scopes)
    (hp : Stays first (prepare m) p Q)
    (hback : ∀ m', (prepare m).Keeps m' → m'.Rooted first → m.Keeps (putBack m m') ∧
      (putBack m m').Rooted first ∧ m'.scopes.Extends (putBack m m').scopes)
    (hQ : ∀ a m', Q a m' → Q' a (putBack m m')) :
    Stays first m (Act.within (fun t : Trace => t.goOn (prepare t.machine))
      (fun t t' => t'.goOn (putBack t.machine t'.machine)) p) Q' := by
  intro origin past hpast
  have hp := hp origin (m :: past) (hpast.goOn hinner hscopes)
  -- at either end the trace gets the machine as it has been put back
  have hend : ∀ t : Trace, (prepare m).Keeps t.machine → t.Rooted first origin →
      m.Keeps (putBack m t.machine) ∧ (t.goOn (putBack m t.machine)).Rooted first origin := by
    intro t hkeeps ht
    obtain ⟨hkeeps, hrooted, hextends⟩ :=
      hback t.machine hkeeps (ht.machines _ List.mem_cons_self).1
    exact ⟨hkeeps, ht.goOn hrooted hextends⟩
  rw [Act.within_apply]
  dsimp only [Trace.goOn] at hp ⊢
  cases hrun : p ⟨prepare m, m :: past⟩ with
  | ok a t =>
    rw [hrun] at hp
    obtain ⟨hkeeps, hrooted⟩ := hend t hp.1 hp.2.1
    exact ⟨hkeeps, hrooted, hQ a t.machine hp.2.2⟩
  | error e t =>
    rw [hrun] at hp
    exact hend t hp.1 hp.2

/-- Acting in another scope of the range. -/
theorem inScope (h : m.Rooted first) {e : ScopeId} (he : (m.range first).HasScope e)
    (hp : Stays first { m with current := e } p Q)
    (hQ : ∀ a m', Q a m' → Q' a { m' with current := m.current }) :
    Stays first m (inScope e p) Q' := by
  refine within (fun m => { m with current := e }) (fun m m' => { m' with current := m.current })
    (h.at_ he) (.refl _) hp (fun m' hkeeps hrooted => ?_) hQ
  -- the way back: the scope is still one of the range
  have hback : m.Keeps { m' with current := m.current } :=
    ⟨hkeeps.scopes, hkeeps.globals, rfl, hkeeps.nextObject⟩
  exact ⟨hback, hrooted.at_ ((hback.within first).hasScope h.current), .refl _⟩

/-- Acting during a call. -/
theorem duringCall (h : m.Rooted first) {line : Nat}
    (hp : Stays first { m with callLine := line } p Q)
    (hQ : ∀ a m', Q a m' → Q' a { m' with callLine := m.callLine }) :
    Stays first m (duringCall line p) Q' :=
  within (fun m => { m with callLine := line }) (fun m m' => { m' with callLine := m.callLine })
    (h.onLine line) (.refl _) hp
    (fun _ hkeeps hrooted => ⟨⟨hkeeps.scopes, hkeeps.globals, hkeeps.current, hkeeps.nextObject⟩,
      hrooted.onLine _, .refl _⟩)
    hQ

end Stays

/-! ## Steps -/

section Steps

variable {first : Nat} {m : Machine}

/-- Values that an action yields belong to the globals behind it. -/
abbrev RootedIn (first : Nat) (v : Value) (m : Machine) : Prop :=
  v.Rooted (m.range first)

/-- A scope opened inside a scope of the range is one of the new range. -/
theorem openScope_stays (h : m.Rooted first) {e : ScopeId} (he : (m.range first).HasScope e) :
    Stays first m (lift (Run.openScope e)) fun scope m' => (m'.range first).HasScope scope := by
  obtain ⟨hkeeps, hrooted⟩ := h.child he
  refine .lift ⟨hkeeps, hrooted, ?_⟩
  show Range.HasScope ⟨m.globals, (m.scopes.child e).1.size, m.nextObject, first⟩
    (m.scopes.child e).2
  rw [Scopes.child_snd, Scopes.size_child he.2]
  exact ⟨Nat.le_of_lt h.globals, Nat.lt_succ_self _⟩

/-- Defining a rooted value leaves the machine rooted. -/
theorem define_stays (h : m.Rooted first) (e : ScopeId) (name : String) {v : Value}
    (hv : v.Rooted (m.range first)) : Stays first m (lift (Run.define e name v)) fun _ _ => True := by
  obtain ⟨hkeeps, hrooted⟩ := h.bind e name (b := .value v) (by rintro _ ⟨⟩; exact hv)
  exact .lift ⟨hkeeps, hrooted, trivial⟩

/-- A declared name has no value that would have to be rooted. -/
theorem declareHere_stays (h : m.Rooted first) (name : String) :
    Stays first m (lift (Run.declareHere name)) fun _ _ => True := by
  obtain ⟨hkeeps, hrooted⟩ := h.bind m.current name (b := .uninitialized) nofun
  exact .lift ⟨hkeeps, hrooted, trivial⟩

/-- Defining a rooted value in the current scope leaves the machine rooted. -/
theorem defineHere_stays (h : m.Rooted first) (name : String) {v : Value}
    (hv : v.Rooted (m.range first)) :
    Stays first m (lift (Run.defineHere name v)) fun _ _ => True := by
  obtain ⟨hkeeps, hrooted⟩ := h.bind m.current name (b := .value v) (by rintro _ ⟨⟩; exact hv)
  exact .lift ⟨hkeeps, hrooted, trivial⟩

/-- A new object takes the next number. -/
theorem freshObject_stays (h : m.Rooted first) :
    Stays first m (lift Run.freshObject) fun id m' =>
      id.index = m.nextObject ∧ m'.nextObject = m.nextObject + 1 :=
  .lift ⟨h.freshObject.1, h.freshObject.2, rfl, rfl⟩

/-- A new instance of a rooted class is rooted. -/
theorem newInstance_stays (h : m.Rooted first) {c : Class} (hc : c.Rooted (m.range first)) :
    Stays first m (lift (Run.newInstance c)) (RootedIn first) := by
  obtain ⟨hkeeps, hrooted⟩ := h.withFields (m.fields.push .empty) (by simp) fun id name v hv => by
    rw [Array.getD_eq_getD_getElem?, Array.getElem?_push] at hv
    split at hv
    · cases hv
    · rw [Array.getD_eq_getD_getElem?]
      exact .inl hv
  exact .lift ⟨hkeeps, hrooted, h.instances, hc⟩

/-- A field that is set to a rooted value leaves the machine rooted. -/
theorem setField_stays (h : m.Rooted first) (id : InstanceId) (name : String) {v : Value}
    (hv : v.Rooted (m.range first)) :
    Stays first m (lift (Run.setField id name v)) fun _ _ => True := by
  obtain ⟨hkeeps, hrooted⟩ := h.withFields
      (m.fields.modify id.index fun fields => fields.insert name v) (by simp)
      fun id' name' v' hv' => by
    rw [Array.getD_eq_getD_getElem?, Array.getElem?_modify] at hv'
    rw [Array.getD_eq_getD_getElem?]
    split at hv'
    · cases hfields : m.fields[id'.index]? with
      | none =>
        rw [hfields] at hv'
        cases hv'
      | some fields =>
        rw [hfields] at hv'
        simp only [Option.map_some, Option.getD_some, NameTable.get?_insert] at hv' ⊢
        -- a field is the one that has been set, or what it was
        split at hv'
        · cases hv'
          exact .inr hv
        · exact .inl hv'
    · exact .inl hv'
  exact .lift ⟨hkeeps, hrooted, trivial⟩

/-- A bound method is closed over a new scope inside the one of the method. -/
theorem bindMethod_stays (h : m.Rooted first) {method : Closure}
    (hmethod : (m.range first).HasScope method.scope) {this : Value}
    (hthis : this.Rooted (m.range first)) :
    Stays first m (bindMethod method this) fun c m' => (m'.range first).HasScope c.scope := by
  refine (openScope_stays h hmethod).bind fun scope m₁ hkeeps₁ h₁ hscope₁ => ?_
  refine (define_stays h₁ scope "this" (hkeeps₁.rooted hthis)).bind fun _ m₂ hkeeps₂ h₂ _ => ?_
  refine (freshObject_stays h₂).bind fun id m₃ hkeeps₃ h₃ _ => .pure ?_
  exact (hkeeps₃.within first).hasScope ((hkeeps₂.within first).hasScope hscope₁)

/-- What a reference is bound to belongs to the globals. -/
theorem lookUp?_run (h : m.Rooted first) (id : NodeId) (name : String) :
    ∃ b, Run.lookUp? id name m = .ok b m ∧
      ∀ v, b = some (.value v) → v.Rooted (m.range first) := by
  unfold Run.lookUp?
  simp only [get_bind_apply]
  cases m.distances.get? id with
  | none => exact ⟨_, rfl, fun v hv => h.bindings _ _ v (Nat.le_refl _) hv⟩
  | some d => exact ⟨_, rfl, fun v hv => h.getAt? h.current hv⟩

/-- What a variable holds is rooted, because it was when it was assigned. -/
theorem readVariable_stays (h : m.Rooted first) (id : NodeId) (name : Token) :
    Stays first m (lift (Run.readVariable id name)) (RootedIn first) := by
  obtain ⟨b, hrun, hb⟩ := lookUp?_run h id name.lexeme
  refine .reads h ?_
  simp only [Run.readVariable, bind, EStateM.bind, hrun]
  rcases b with _ | _ | v
  · rfl
  · rfl
  · exact ⟨rfl, hb v rfl⟩

/-- Assigning a rooted value leaves the machine rooted. -/
theorem writeVariable_stays (h : m.Rooted first) (id : NodeId) (name : Token) {v : Value}
    (hv : v.Rooted (m.range first)) :
    Stays first m (lift (Run.writeVariable id name v)) fun _ _ => True := by
  cases hd : m.distances.get? id with
  | some d =>
    -- wherever the name leads, a binding is made there or the write fails
    cases he : m.scopes.ancestor? m.current d with
    | some e =>
      refine .of_run_eq ?_ (define_stays h e name.lexeme hv)
      simp only [Run.writeVariable, get_bind_apply, hd, he]
    | none =>
      refine .of_run_eq ?_ (Stays.fail h name (.undefinedVariable name.lexeme))
      simp only [Run.writeVariable, get_bind_apply, hd, he]
  | none =>
    cases hb : m.scopes.binding? m.globals name.lexeme with
    | some b =>
      refine .of_run_eq ?_ (define_stays h m.globals name.lexeme hv)
      simp only [Run.writeVariable, get_bind_apply, hd, hb]
    | none =>
      refine .of_run_eq ?_ (Stays.fail h name (.undefinedVariable name.lexeme))
      simp only [Run.writeVariable, get_bind_apply, hd, hb]

/-- A field is rooted, and a bound method is because its instance is. -/
theorem readProperty_stays (h : m.Rooted first) {id : InstanceId} {cls : Class}
    (hinstance : RootedIn first (.instance_ id cls) m) (name : Token) :
    Stays first m (readProperty id cls name) (RootedIn first) := by
  refine .get fun past => ?_
  dsimp only
  cases hfield : (m.fields.getD id.index .empty).get? name.lexeme with
  | some v => exact .pure (h.fields id hinstance.1 name.lexeme v hfield)
  | none =>
    cases hmethod : cls.findMethod? name.lexeme with
    | some method =>
      -- the bound method's scope is a new one of the range, in which `this` is the instance
      exact (bindMethod_stays h (hinstance.2.findMethod? hmethod) hinstance).bind
        fun c m' _ _ hc => .pure hc
    | none => exact .fail h _ _

/-- A method of the superclass is bound to a value that is rooted. -/
theorem readSuper_stays (h : m.Rooted first) (id : NodeId) (keyword method : Token) :
    Stays first m (readSuper id keyword method) (RootedIn first) := by
  refine .get fun past => ?_
  dsimp only
  cases m.distances.get? id with
  | none => exact .fail h _ _
  | some d =>
    dsimp only
    rcases hsuper : m.scopes.getAt? m.current d "super" with _ | _ | superclass
    · exact .fail h _ _
    · exact .fail h _ _
    -- what is found there is within the range, as every binding of a scope that can be reached
    have hsuperclass := h.getAt? h.current hsuper
    cases superclass with
    | class_ superclass =>
      cases d with
      | zero => exact .fail h _ _
      | succ inner =>
        dsimp only
        rcases hthis : m.scopes.getAt? m.current inner "this" with _ | _ | this
        · exact .fail h _ _
        · exact .fail h _ _
        dsimp only
        cases hfound : superclass.findMethod? method.lexeme with
        | some found =>
          have hscope := Class.Rooted.findMethod? hsuperclass hfound
          exact (bindMethod_stays h hscope (h.getAt? h.current hthis)).bind
            fun c m' _ _ hc => .pure hc
        | none => exact .fail h _ _
    | _ => exact .fail h _ _

/-- A native makes its result from its arguments, so it is rooted. -/
theorem callNative_stays (h : m.Rooted first) (info : NativeInfo) {values : List Value}
    (hvalues : ∀ v ∈ values, RootedIn first v m) :
    Stays first m (lift (Run.callNative info values)) (RootedIn first) := by
  -- reading the clock leaves all bindings and fields
  have hkeeps : m.Keeps m.tick := ⟨.refl _, rfl, rfl, Nat.le_refl _⟩
  refine .lift ?_
  rw [Run.callNative_apply]
  cases hnative : m.natives[info.id]? with
  | none => exact ⟨hkeeps, h.tick, trivial⟩
  | some native =>
    dsimp only
    cases hrun : native.run m.clock.next m.fields values with
    | error message => exact ⟨hkeeps, h.tick⟩
    | ok v =>
      have hfrom := h.natives native (Array.mem_of_getElem? hnative)
      exact ⟨hkeeps, h.tick, hkeeps.rooted (hfrom _ _ _ _ v h.stock hvalues hrun)⟩

/-- What a call yields is what was returned, or the instance in the scope of the method. -/
theorem callResult_stays (h : m.Rooted first) {c : Closure} (hc : (m.range first).HasScope c.scope)
    {flow : Flow} (hflow : ∀ v, flow = .returned v → RootedIn first v m) :
    Stays first m (lift (Run.callResult c flow)) (RootedIn first) := by
  by_cases hinit : c.isInitializer
  · have hrun : Run.callResult c flow m = Run.boundThis c m := by
      simp only [Run.callResult, if_pos hinit]
    refine .of_run_eq hrun (.reads h ?_)
    simp only [Run.boundThis, get_bind_apply]
    -- where `this` has no value, `nil` is yielded, which is rooted anyway
    rcases hthis : m.scopes.binding? c.scope "this" with _ | _ | this
    · exact ⟨rfl, trivial⟩
    · exact ⟨rfl, trivial⟩
    · exact ⟨rfl, h.bindings _ _ this hc.1 hthis⟩
  · refine .reads h ?_
    simp only [Run.callResult, if_neg hinit]
    cases flow with
    | normal => exact ⟨rfl, trivial⟩
    | returned v => exact ⟨rfl, hflow v rfl⟩

/-- The result of an operator is plain, so it is rooted. -/
theorem ofOperator_stays (h : m.Rooted first) (operator : Token) {result : Except RuntimeFault Value}
    (hresult : ∀ v, result = .ok v → v.IsPlain) :
    Stays first m (lift (Run.ofOperator operator result)) (RootedIn first) := by
  cases result with
  | ok v => exact .reads h ⟨rfl, (hresult v rfl).rooted⟩
  | error fault => exact .fail h _ _

/-- Parameters hold the arguments, which are rooted. -/
theorem defineParams_stays (h : m.Rooted first) (e : ScopeId) (params : List Token)
    {values : List Value} (hvalues : ∀ v ∈ values, RootedIn first v m) :
    Stays first m (defineParams e params values) fun _ _ => True := by
  induction params generalizing m values with
  | nil => exact .pure trivial
  | cons param params ih =>
    cases values with
    | nil => exact .pure trivial
    | cons v values =>
      obtain ⟨hv, hvalues⟩ := List.forall_mem_cons.mp hvalues
      exact (define_stays h e param.lexeme hv).bind fun _ m' hkeeps h' _ =>
        ih h' fun v hv => hkeeps.rooted (hvalues v hv)

/-- A declared function is closed over the current scope. -/
theorem declareFunction_stays (h : m.Rooted first) (declaration : FunctionDecl) :
    Stays first m (declaring.declareFunction () declaration) fun _ _ => True := by
  refine (freshObject_stays h).bind fun id m₁ _ h₁ _ => .get fun past => ?_
  have hfunction : RootedIn first (.function ⟨id, declaration, m₁.current, false⟩) m₁ := h₁.current
  exact (defineHere_stays h₁ declaration.name.lexeme hfunction).bind fun _ _ _ _ _ => .pure trivial

/-- The methods of a class are declared in the scope of the class. -/
theorem closeMethods_stays (h : m.Rooted first) {e : ScopeId} (he : (m.range first).HasScope e)
    (ds : List FunctionDecl) :
    Stays first m (closeMethods e ds) fun methods m' =>
      ∀ p ∈ methods, (m'.range first).HasScope p.2.scope := by
  induction ds generalizing m with
  | nil => exact .pure nofun
  | cons d ds ih =>
    refine (freshObject_stays h).bind fun id m₁ hkeeps₁ h₁ _ => ?_
    have he₁ := (hkeeps₁.within first).hasScope he
    refine (ih h₁ he₁).bind fun methods m₂ hkeeps₂ h₂ hmethods => .pure ?_
    exact List.forall_mem_cons.mpr ⟨(hkeeps₂.within first).hasScope he₁, hmethods⟩

/-- A superclass is a value, so it is rooted. -/
theorem asSuperclass_stays (h : m.Rooted first) (name : Token) (superclass : Expr) {v : Value}
    (hv : RootedIn first v m) :
    Stays first m (lift (Run.asSuperclass name superclass v)) fun c m' =>
      c.Rooted (m'.range first) := by
  cases v with
  | class_ c => exact .reads h ⟨rfl, hv⟩
  | _ =>
    cases superclass with
    | _ => exact .fail h _ _

/-- The scope for the methods of a class is within the range. -/
theorem openMethods_stays (h : m.Rooted first) {superclass : Option Class}
    (hsuperclass : ∀ c, superclass = some c → c.Rooted (m.range first)) :
    Stays first m (openMethods superclass) fun scope m' => (m'.range first).HasScope scope := by
  cases superclass with
  | none => exact .get fun past => .pure h.current
  | some c =>
    refine .get fun past => (openScope_stays h h.current).bind fun scope m₁ hkeeps₁ h₁ hscope => ?_
    have hsuper : RootedIn first (.class_ c) m₁ := (hsuperclass c rfl).mono (hkeeps₁.within first)
    exact (define_stays h₁ scope "super" hsuper).bind fun _ m₂ hkeeps₂ _ _ =>
      .pure ((hkeeps₂.within first).hasScope hscope)

/-- A declared class has a number of its own, and its methods are closed over a scope of the
    range. -/
theorem declareClass_stays (h : m.Rooted first) (name : Token) {superclass : Option Class}
    (hsuperclass : ∀ c, superclass = some c → c.Rooted (m.range first))
    (methods : List FunctionDecl) :
    Stays first m (declareClass name superclass methods) fun _ _ => True := by
  refine (declareHere_stays h name.lexeme).bind fun _ m₁ hkeeps₁ h₁ _ => ?_
  have hsuperclass₁ (c : Class) (hc : superclass = some c) : c.Rooted (m₁.range first) :=
    (hsuperclass c hc).mono (hkeeps₁.within first)
  refine (openMethods_stays h₁ hsuperclass₁).bind fun scope m₂ hkeeps₂ h₂ hscope => ?_
  refine (closeMethods_stays h₂ hscope methods).bind fun closures m₃ hkeeps₃ h₃ hclosures => ?_
  refine (freshObject_stays h₃).bind fun id m₄ hkeeps₄ h₄ hid => ?_
  have hkeeps := hkeeps₂.trans (hkeeps₃.trans hkeeps₄)
  have hclass : RootedIn first (.class_ ⟨id, name.lexeme, superclass, .ofList closures⟩) m₄ := by
    refine Class.rooted_iff.mpr ⟨?_, fun key method hmethod => ?_, fun c hc => ?_⟩
    · show id.index < m₄.nextObject
      omega
    · exact (hkeeps₄.within first).hasScope
        (hclosures _ (NameTable.mem_of_get?_ofList hmethod))
    · -- a class is younger than its superclass
      have hold := hsuperclass₁ c hc
      have hlt : c.id.index < m₁.nextObject := (Class.rooted_iff.mp hold).1
      have hle := (hkeeps₂.trans hkeeps₃).nextObject
      exact ⟨by show c.id.index < id.index; omega, hold.mono (hkeeps.within first)⟩
  exact (defineHere_stays h₄ name.lexeme hclass).bind fun _ _ _ _ _ => .pure trivial

/-- Output is written or flushed. -/
theorem onSink_stays (h : m.Rooted first) (action : Sink → Sink × Option OutputFault) :
    Stays first m (lift (Run.onSink action)) fun _ _ => True := by
  refine .lift ?_
  unfold Run.onSink
  rcases action m.sink with ⟨sink, _ | fault⟩
  · exact ⟨⟨.refl _, rfl, rfl, Nat.le_refl _⟩, h.withSink sink, trivial⟩
  · exact ⟨⟨.refl _, rfl, rfl, Nat.le_refl _⟩, h.withSink sink⟩

/-- Writing a line roots nothing. -/
theorem emit_stays (h : m.Rooted first) (line : String) :
    Stays first m (lift (Run.emit line)) fun _ _ => True :=
  onSink_stays h _

/-- Flushing roots nothing. -/
theorem flush_stays (h : m.Rooted first) : Stays first m (lift Run.flush) fun _ _ => True :=
  onSink_stays h _

end Steps

/-! ## Expressions and statements -/

section Programs

variable {first : Nat}

/-- Expressions that are evaluated one after the other yield rooted values. -/
theorem evaluateAll_stays {evaluate : Expr → Traced Value}
    (hevaluate : ∀ e m, m.Rooted first → Stays first m (evaluate e) (RootedIn first))
    (es : List Expr) {m : Machine} (h : m.Rooted first) :
    Stays first m (evaluateAll evaluate es) fun values m' => ∀ v ∈ values, RootedIn first v m' := by
  induction es generalizing m with
  | nil => exact .pure nofun
  | cons e es ih =>
    refine (hevaluate e m h).bind fun v m₁ _ h₁ hv => ?_
    refine (ih h₁).bind fun values m₂ hkeeps₂ _ hvalues => .pure ?_
    exact List.forall_mem_cons.mpr ⟨hkeeps₂.rooted hv, hvalues⟩

/-- What a statement returns belongs to the globals behind it. -/
abbrev RootedFlow (first : Nat) (flow : Flow) (m : Machine) : Prop :=
  ∀ v, flow = .returned v → RootedIn first v m

/-- Statements that are executed one after the other leave the machine rooted. -/
theorem executeAll_stays {execute : Stmt → Traced Flow}
    (hexecute : ∀ s m, m.Rooted first → Stays first m (execute s) (RootedFlow first))
    (body : List Stmt) {m : Machine} (h : m.Rooted first) :
    Stays first m (executeAll execute body) (RootedFlow first) := by
  induction body generalizing m with
  | nil => exact .pure nofun
  | cons s body ih =>
    refine (hexecute s m h).bind fun flow m₁ _ h₁ hflow => ?_
    cases flow with
    | normal => exact ih h₁
    | returned v => exact .pure hflow

/-- Everything that is nested up to a bound passes through machines that belong to their globals. -/
structure AllStay (first n : Nat) : Prop where
  evaluate : ∀ e m, m.Rooted first → Stays first m (evaluate n e) (RootedIn first)
  callValue : ∀ v values m, m.Rooted first → RootedIn first v m →
    (∀ u ∈ values, RootedIn first u m) → Stays first m (callValue n v values) (RootedIn first)
  callClosure : ∀ c values m, m.Rooted first → (m.range first).HasScope c.scope →
    (∀ u ∈ values, RootedIn first u m) → Stays first m (callClosure n c values) (RootedIn first)
  execute : ∀ s m, m.Rooted first → Stays first m (execute n s) (RootedFlow first)
  repeatWhile : ∀ e s m, m.Rooted first → Stays first m (repeatWhile n e s) (RootedFlow first)

namespace AllStay

variable {n : Nat} {m : Machine}

/-- An expression yields a rooted value if all parts of it do, with less fuel. -/
theorem evaluate_succ (ih : AllStay first n) (e : Expr) (h : m.Rooted first) :
    Stays first m (Traced.evaluate (n + 1) e) (RootedIn first) := by
  cases e with
  | literal value => exact .pure (ofLiteral_isPlain value).rooted
  | grouping inner => exact ih.evaluate inner m h
  | unary operator operand =>
    exact (ih.evaluate operand m h).bind fun v m₁ _ h₁ _ =>
      ofOperator_stays h₁ operator fun _ => applyUnary_isPlain
  | binary operator left right =>
    exact (ih.evaluate left m h).bind fun a m₁ _ h₁ _ => (ih.evaluate right m₁ h₁).bind
      fun b m₂ _ h₂ _ => ofOperator_stays h₂ operator fun _ => applyBinary_isPlain
  | logical operator left right =>
    refine (ih.evaluate left m h).bind fun a m₁ _ h₁ ha => ?_
    split
    · exact .pure ha
    · exact ih.evaluate right m₁ h₁
  | var id name => exact readVariable_stays h id name
  | this id keyword => exact readVariable_stays h id keyword
  | assign id name value =>
    -- assigning gives the value once more, which later machines keep
    refine (ih.evaluate value m h).bind fun v m₁ _ h₁ hv => ?_
    exact (writeVariable_stays h₁ id name hv).bind fun _ m₂ hkeeps₂ _ _ => .pure (hkeeps₂.rooted hv)
  | call callee paren arguments =>
    refine (ih.evaluate callee m h).bind fun v m₁ _ h₁ hv => ?_
    refine (evaluateAll_stays ih.evaluate arguments h₁).bind fun values m₂ hkeeps₂ h₂ hvalues => ?_
    cases v.arity? with
    | none => exact .fail h₂ _ _
    | some arity =>
      dsimp only
      split
      -- the line of the call is set and put back; neither is part of what is rooted
      · exact .duringCall h₂ (ih.callValue v values _ (h₂.onLine _) (hkeeps₂.rooted hv) hvalues)
          fun _ _ hresult => hresult
      · exact .fail h₂ _ _
  | get object name =>
    refine (ih.evaluate object m h).bind fun v m₁ _ h₁ hv => ?_
    cases v with
    | instance_ id cls => exact readProperty_stays h₁ hv name
    | _ => exact .fail h₁ _ _
  | set object name value =>
    refine (ih.evaluate object m h).bind fun v m₁ _ h₁ hv => ?_
    cases v with
    | instance_ id cls =>
      refine (ih.evaluate value m₁ h₁).bind fun v m₂ _ h₂ hv => ?_
      exact (setField_stays h₂ id name.lexeme hv).bind fun _ m₃ hkeeps₃ _ _ =>
        .pure (hkeeps₃.rooted hv)
    | _ => exact .fail h₁ _ _
  | super id keyword method => exact readSuper_stays h id keyword method

/-- A call of a rooted value yields a rooted one if it does with less fuel. -/
theorem callValue_succ (ih : AllStay first n) {v : Value} {values : List Value}
    (h : m.Rooted first) (hv : RootedIn first v m) (hvalues : ∀ u ∈ values, RootedIn first u m) :
    Stays first m (Traced.callValue (n + 1) v values) (RootedIn first) := by
  cases v with
  | native info => exact callNative_stays h info hvalues
  | function c => exact ih.callClosure c values m h hv hvalues
  | class_ c =>
    refine (newInstance_stays h hv).bind fun this m₁ hkeeps₁ h₁ hthis => ?_
    cases hinit : c.findMethod? "init" with
    | none => exact .pure hthis
    | some initializer =>
      have hscope := (hkeeps₁.within first).hasScope (Class.Rooted.findMethod? hv hinit)
      refine (bindMethod_stays h₁ hscope hthis).bind fun bound m₂ hkeeps₂ h₂ hbound => ?_
      refine (ih.callClosure bound values m₂ h₂ hbound fun u hu =>
        (hkeeps₁.trans hkeeps₂).rooted (hvalues u hu)).bind fun _ m₃ hkeeps₃ _ _ => .pure ?_
      -- the instance has been made before the initializer, whose machines only add to it
      exact (hkeeps₂.trans hkeeps₃).rooted hthis
  | _ => exact .pure trivial

/-- The body of a function yields a rooted value if it does with less fuel. -/
theorem callClosure_succ (ih : AllStay first n) {c : Closure} {values : List Value}
    (h : m.Rooted first) (hc : (m.range first).HasScope c.scope)
    (hvalues : ∀ u ∈ values, RootedIn first u m) :
    Stays first m (Traced.callClosure (n + 1) c values) (RootedIn first) := by
  refine (openScope_stays h hc).bind fun scope m₁ hkeeps₁ h₁ hscope => ?_
  refine (defineParams_stays h₁ scope c.declaration.params fun v hv =>
    hkeeps₁.rooted (hvalues v hv)).bind fun _ m₂ hkeeps₂ h₂ _ => ?_
  have hscope := (hkeeps₂.within first).hasScope hscope
  -- the body runs in the scope of the parameters, which is one of the range
  have hbody : Stays first m₂ (Traced.inScope scope (Lox.executeAll (Traced.execute n)
      c.declaration.body)) (RootedFlow first) :=
    .inScope h₂ hscope (executeAll_stays ih.execute c.declaration.body (h₂.at_ hscope))
      fun _ _ hflow => hflow
  refine hbody.bind fun flow m₃ hkeeps₃ h₃ hflow => ?_
  exact callResult_stays h₃
    (((hkeeps₁.trans hkeeps₂).trans hkeeps₃).within first |>.hasScope hc) hflow

/-- A statement leaves the machine rooted if all parts of it do, with less fuel. -/
theorem execute_succ (ih : AllStay first n) (s : Stmt) (h : m.Rooted first) :
    Stays first m (Traced.execute (n + 1) s) (RootedFlow first) := by
  cases s with
  | expression value => exact (ih.evaluate value m h).bind fun _ _ _ _ _ => .pure nofun
  | print value =>
    exact (ih.evaluate value m h).bind fun v m₁ _ h₁ _ => (emit_stays h₁ _).bind
      fun _ _ _ _ _ => .pure nofun
  | varDecl name initializer =>
    cases initializer with
    | none => exact (declareHere_stays h name.lexeme).bind fun _ _ _ _ _ => .pure nofun
    | some initializer =>
      exact (ih.evaluate initializer m h).bind fun v m₁ _ h₁ hv =>
        (defineHere_stays h₁ name.lexeme hv).bind fun _ _ _ _ _ => .pure nofun
  | block body =>
    refine .get fun past => (openScope_stays h h.current).bind fun scope m₁ _ h₁ hscope => ?_
    exact .inScope h₁ hscope (executeAll_stays ih.execute body (h₁.at_ hscope)) fun _ _ hflow => hflow
  | cond condition thenBranch elseBranch =>
    refine (ih.evaluate condition m h).bind fun v m₁ _ h₁ _ => ?_
    split
    · exact ih.execute thenBranch m₁ h₁
    · cases elseBranch with
      | some elseBranch => exact ih.execute elseBranch m₁ h₁
      | none => exact .pure nofun
  | loop condition body => exact ih.repeatWhile condition body m h
  | funDecl declaration =>
    exact (declareFunction_stays h declaration).bind fun _ _ _ _ _ => .pure nofun
  | ret keyword value =>
    cases value with
    | none =>
      refine .pure ?_
      rintro _ ⟨⟩
      trivial
    | some value =>
      refine (ih.evaluate value m h).bind fun v m₁ _ _ hv => .pure ?_
      rintro _ ⟨⟩
      exact hv
  | classDecl declaration =>
    obtain ⟨name, superclass, methods⟩ := declaration
    cases superclass with
    | none =>
      -- no superclass, so nothing to say of one
      have hnone : ∀ c : Class, none = some c → c.Rooted (m.range first) := nofun
      exact (declareClass_stays h name hnone methods).bind fun _ _ _ _ _ => .pure nofun
    | some superclass =>
      refine (ih.evaluate superclass m h).bind fun v m₁ _ h₁ hv => ?_
      refine (asSuperclass_stays h₁ name superclass hv).bind fun c m₂ _ h₂ hc => ?_
      have hc : ∀ c', some c = some c' → c'.Rooted (m₂.range first) := by
        rintro _ ⟨⟩
        exact hc
      exact (declareClass_stays h₂ name hc methods).bind fun _ _ _ _ _ => .pure nofun

/-- A loop leaves the machine rooted if each round does, with less fuel. -/
theorem repeatWhile_succ (ih : AllStay first n) (condition : Expr) (body : Stmt)
    (h : m.Rooted first) :
    Stays first m (Traced.repeatWhile (n + 1) condition body) (RootedFlow first) := by
  refine (ih.evaluate condition m h).bind fun v m₁ _ h₁ _ => ?_
  split
  · refine (ih.execute body m₁ h₁).bind fun flow m₂ _ h₂ hflow => ?_
    cases flow with
    | normal => exact ih.repeatWhile condition body m₂ h₂
    | returned v => exact .pure hflow
  · exact .pure nofun

/-- By induction on the fuel everything that runs leaves the machine rooted. -/
theorem all (n : Nat) : AllStay first n := by
  induction n with
  | zero =>
    exact ⟨fun _ _ _ => .throw, fun _ _ _ _ _ _ => .throw, fun _ _ _ _ _ _ => .throw,
      fun _ _ _ => .throw, fun _ _ _ _ => .throw⟩
  | succ n ih =>
    exact ⟨fun e m => ih.evaluate_succ e, fun v values m => ih.callValue_succ,
      fun c values m => ih.callClosure_succ, fun s m => ih.execute_succ s,
      fun e s m => ih.repeatWhile_succ e s⟩

end AllStay

/-- A whole program. -/
theorem program_stays (bound : Nat) (statements : List Stmt) {m : Machine} (h : m.Rooted first) :
    Stays first m (program bound statements) fun _ _ => True := by
  induction statements generalizing m with
  | nil => exact flush_stays h
  | cons s statements ih =>
    exact ((AllStay.all bound).execute s m h).bind fun _ m₁ _ h₁ _ => ih h₁

end Programs

end Traced

end Lox
