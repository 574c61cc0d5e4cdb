import Lox.Proofs.Actions
import Lox.Proofs.Rooted

/-!
# The forest of scopes

A machine reaches scopes and values through each other: from the current and the global scope to the
scopes around them, to the values bound in them, to the scopes in which functions were declared, to
superclasses and methods, to fields of instances. In every session, in the middle of an execution as
well as between two, the scopes that can be reached stand in one tree with the global scope as its
root, although values lead back and forth between them.

## Key results

- `Machine.Rooted.reaches`: what can be reached belongs to the globals
- `Machine.Rooted.chain_getLast?`: every chain of such scopes ends in the globals
- `Session.visited`: all machines that a session passes through
- `Session.scopes_form_forest`: what holds of them
-/

namespace Lox

/-! ## Chains of scopes -/

namespace Scopes

variable {f : Scopes}

/-- A parent is older than its child. -/
theorem parent?_lt {e p : ScopeId} (h : f.parent? e = some p) : p.index < e.index := by
  have hlt := lt_size_of_parent? h
  rw [parent?, Array.getElem?_eq_getElem hlt] at h
  exact f.parent_lt e.index hlt p h

/-- On the way outward each scope has been opened before the one inside of it. -/
theorem chain_pairwise (f : Scopes) (e : ScopeId) :
    (f.chain e).Pairwise (fun inner outer => outer.index < inner.index) ∧
      ∀ outer ∈ f.chain e, outer.index ≤ e.index := by
  by_cases he : e.index < f.size
  · rw [chain_eq f e he]
    cases hp : f.parent? e with
    | none => simp
    | some p =>
      -- a scope is opened behind the one around it, which also makes the recursion end
      have hlt := parent?_lt hp
      obtain ⟨hpairwise, hle⟩ := chain_pairwise f p
      simp only [Option.map_some, Option.getD_some]
      refine ⟨List.pairwise_cons.mpr ⟨fun outer houter => ?_, hpairwise⟩, ?_⟩
      · exact Nat.lt_of_le_of_lt (hle outer houter) hlt
      · refine List.forall_mem_cons.mpr ⟨Nat.le_refl _, fun outer houter => ?_⟩
        exact Nat.le_of_lt (Nat.lt_of_le_of_lt (hle outer houter) hlt)
  · rw [chain, dif_neg he]
    simp
termination_by e.index

/-- A chain is no longer than the number of scopes opened up to its first one. -/
theorem length_chain_le (f : Scopes) (e : ScopeId) : (f.chain e).length ≤ e.index + 1 := by
  by_cases he : e.index < f.size
  · rw [chain_eq f e he]
    cases hp : f.parent? e with
    | none => simp
    | some p =>
      -- each link leads to an older scope
      have hlt := parent?_lt hp
      have hle := length_chain_le f p
      simp only [Option.map_some, Option.getD_some, List.length_cons]
      omega
  · rw [chain, dif_neg he]
    simp
termination_by e.index

/-- So many links outward is the place in the chain. -/
theorem ancestor?_eq_getElem? (f : Scopes) (e : ScopeId) (d : Nat) :
    f.ancestor? e d = (f.chain e)[d]? := by
  induction d generalizing e with
  | zero =>
    by_cases he : e.index < f.size
    · rw [ancestor?, if_pos he, chain_eq f e he]
      rfl
    · rw [ancestor?, if_neg he, chain, dif_neg he]
      rfl
  | succ d ih =>
    rw [ancestor?]
    by_cases he : e.index < f.size
    · rw [chain_eq f e he, List.getElem?_cons_succ]
      cases f.parent? e with
      | none => rfl
      | some p => exact ih p
    -- a scope that does not exist has nothing around it
    · have hp : f.parent? e = none := by
        rw [parent?, Array.getElem?_eq_none (Nat.le_of_not_lt he)]
        rfl
      rw [hp, chain, dif_neg he]
      rfl

/-- A scope that no other encloses is searched alone. -/
theorem get?_of_root {e : ScopeId} (he : e.index < f.size) (hroot : f.parent? e = none)
    (name : String) : f.get? e name = f.binding? e name := by
  rw [get?, chain_eq f e he, hroot]
  cases h : f.binding? e name <;> simp [h]

end Scopes

/-! ## Chains of superclasses -/

namespace Class

/-- A class and those that it inherits from, the nearest first. -/
def lineage : Class → List Class
  | ⟨id, name, superclass, methods⟩ =>
    ⟨id, name, superclass, methods⟩ ::
      match superclass with
      | some s => s.lineage
      | none => []

/-- A method is searched among a class and those that it inherits from. -/
theorem findMethod?_eq_findSome? (c : Class) (name : String) :
    c.findMethod? name = c.lineage.findSome? (·.methods.get? name) := by
  match c with
  | ⟨id, _, none, methods⟩ =>
    cases h : methods.get? name <;> simp [Class.findMethod?, lineage, h]
  | ⟨id, _, some s, methods⟩ =>
    cases h : methods.get? name <;>
      simp [Class.findMethod?, lineage, h, s.findMethod?_eq_findSome? name]

/-- Classes of a range are older than those that inherit from them. -/
theorem Rooted.lineage_pairwise {r : Range} {c : Class} (hc : c.Rooted r) :
    c.lineage.Pairwise (fun heir ancestor => ancestor.id.index < heir.id.index) ∧
      ∀ ancestor ∈ c.lineage, ancestor.id.index ≤ c.id.index := by
  match c with
  | ⟨id, _, none, methods⟩ => simp [lineage]
  | ⟨id, _, some s, methods⟩ =>
    -- the superclass is older, and so are all above it
    obtain ⟨hlt, hs⟩ := (Class.rooted_iff.mp hc).2.2 s rfl
    obtain ⟨hpairwise, hle⟩ := hs.lineage_pairwise
    have hlt (ancestor : Class) (hancestor : ancestor ∈ s.lineage) :
        ancestor.id.index < id.index :=
      Nat.lt_of_le_of_lt (hle ancestor hancestor) hlt
    refine ⟨List.pairwise_cons.mpr ⟨hlt, hpairwise⟩, ?_⟩
    exact List.forall_mem_cons.mpr ⟨Nat.le_refl _, fun a ha => Nat.le_of_lt (hlt a ha)⟩

end Class

/-! ## What a machine can reach -/

/-- What can be reached. -/
inductive Part where
  | scope (e : ScopeId)
  | value (v : Value)

/-- A part belongs to a range. -/
def Part.Rooted (r : Range) : Part → Prop
  | .scope e => r.HasScope e
  | .value v => v.Rooted r

namespace Machine

/-- The machine can reach this. -/
inductive Reaches (m : Machine) : Part → Prop
  | current : Reaches m (.scope m.current)
  | globals : Reaches m (.scope m.globals)
  | parent {e p : ScopeId} (h : Reaches m (.scope e)) (hp : m.scopes.parent? e = some p) :
      Reaches m (.scope p)
  | binding {e : ScopeId} {name : String} {v : Value} (h : Reaches m (.scope e))
      (hv : m.scopes.binding? e name = some (.value v)) : Reaches m (.value v)
  | closure {c : Closure} (h : Reaches m (.value (.function c))) : Reaches m (.scope c.scope)
  | superclass {c s : Class} (h : Reaches m (.value (.class_ c))) (hs : c.superclass = some s) :
      Reaches m (.value (.class_ s))
  | method {c : Class} {name : String} {method : Closure} (h : Reaches m (.value (.class_ c)))
      (hmethod : c.methods.get? name = some method) : Reaches m (.value (.function method))
  | cls {id : InstanceId} {c : Class} (h : Reaches m (.value (.instance_ id c))) :
      Reaches m (.value (.class_ c))
  | field {id : InstanceId} {c : Class} {name : String} {v : Value}
      (h : Reaches m (.value (.instance_ id c)))
      (hv : (m.fields.getD id.index .empty).get? name = some v) : Reaches m (.value v)

namespace Rooted

variable {first : Nat} {m : Machine}

/-- Everything that can be reached belongs to the globals. -/
theorem reaches (h : m.Rooted first) {x : Part} (hx : m.Reaches x) : x.Rooted (m.range first) := by
  have hstock := h.stock
  -- one case for each way to get from one part of the machine to another
  induction hx with
  | current => exact h.current
  | globals => exact ⟨Nat.le_refl _, h.globals⟩
  | parent _ hp ih => exact h.parent? ih hp
  | binding _ hv ih => exact h.bindings _ _ _ ih.1 hv
  | closure _ ih => exact ih
  | superclass _ hs ih => exact hstock.superclass _ _ ih hs
  | method _ hmethod ih => exact hstock.method _ _ _ ih hmethod
  | cls _ ih => exact hstock.cls _ _ ih
  | field _ hv ih => exact hstock.field _ _ _ _ ih hv

/-- The chain of a scope of the range ends in the globals. -/
theorem chain_getLast? (h : m.Rooted first) {e : ScopeId} (he : (m.range first).HasScope e) :
    (m.scopes.chain e).getLast? = some m.globals := by
  -- any other scope of the range has a parent in it, which is older
  by_cases heq : e = m.globals
  · rw [heq, Scopes.chain_eq _ _ h.globals, h.root]
    rfl
  · obtain ⟨p, hp, hscope⟩ := h.exists_parent? he heq
    have hlt := Scopes.parent?_lt hp
    have hlast := chain_getLast? h hscope
    rw [Scopes.chain_eq _ _ he.2, hp, Option.map_some, Option.getD_some]
    cases hchain : m.scopes.chain p with
    | nil => simp [hchain] at hlast
    | cons q rest => rwa [hchain] at hlast
termination_by e.index

end Rooted

end Machine

/-! ## Machines between two actions -/

namespace Machine

variable {first : Nat} {m : Machine}

/-- Distances that are recorded root nothing. -/
theorem Rooted.install (h : m.Rooted first) (entries : List (NodeId × Nat)) :
    (m.install entries).Rooted first :=
  ⟨h.globals, h.root, h.current, h.parents, h.bindings, h.instances, h.fields, h.natives⟩

/-- A host function that is registered roots a value without scopes. -/
theorem Rooted.defineNative (h : m.Rooted first) {n : Native} (hn : n.FromArguments) :
    (m.defineNative n).Rooted first := by
  have hv : ∀ v, Binding.value (.native (n.info m.natives.size)) = .value v →
      v.Rooted (m.range first) := by
    rintro _ ⟨⟩
    trivial
  -- the name of the function is bound in the globals
  obtain ⟨-, hbound⟩ := h.bind m.globals n.name hv
  refine ⟨hbound.globals, hbound.root, hbound.current, hbound.parents, hbound.bindings,
    hbound.instances, hbound.fields, fun n' hn' => ?_⟩
  rcases Array.mem_push.mp hn' with hn' | rfl
  · exact h.natives n' hn'
  · exact hn

/-- A blank machine is rooted. -/
theorem blank_rooted (sink : Sink) (clock : Clock) : (blank sink clock).Rooted 0 := by
  have hnone (e : ScopeId) (name : String) : Scopes.empty.new.1.binding? e name = none := by
    rw [Scopes.binding?_new]
    rfl
  -- there is one scope, the globals, and nothing is bound in it
  constructor
  case globals => exact Nat.one_pos
  case root => rfl
  case current => exact ⟨Nat.le_refl _, Nat.one_pos⟩
  case parents =>
    intro e hroot hsize
    have hroot : 0 < e.index := hroot
    have hsize : e.index < 1 := hsize
    omega
  case bindings =>
    intro e name v _ hv
    have hv : Scopes.empty.new.1.binding? e name = some (.value v) := hv
    rw [hnone] at hv
    cases hv
  case instances => exact Nat.le_refl 0
  case fields =>
    intro id _ name v hv
    have hv : ((#[] : Fields).getD id.index .empty).get? name = some v := hv
    simp at hv
  case natives =>
    intro n hn
    have hn : n ∈ (#[] : Array Native) := hn
    simp at hn

/-- In new globals only the names of host functions are bound. -/
theorem defineAll_keeps (f : Scopes) (globals : ScopeId) (id : Nat) (natives : List Native) :
    (∀ e, (defineAll f globals id natives).parent? e = f.parent? e) ∧
    (defineAll f globals id natives).size = f.size ∧
    ∀ e name v, (defineAll f globals id natives).binding? e name = some (.value v) →
      f.binding? e name = some (.value v) ∨ v.IsPlain := by
  induction natives generalizing f id with
  | nil => exact ⟨fun _ => rfl, rfl, fun _ _ _ h => .inl h⟩
  | cons n natives ih =>
    obtain ⟨hparent, hsize, hbinding⟩ := ih (f.define globals n.name (.native (n.info id))) (id + 1)
    refine ⟨fun e => (hparent e).trans (f.parent?_bind ..), hsize.trans (f.size_bind ..), ?_⟩
    intro e name v hv
    -- a host function is a plain value, whatever it does
    rcases hbinding e name v hv with hold | hplain
    · rw [Scopes.define, Scopes.binding?_bind] at hold
      split at hold
      · cases hold
        exact .inr trivial
      · exact .inl hold
    · exact .inr hplain

/-- New globals leave all scopes behind that there have been. -/
theorem Rooted.resetGlobals (h : m.Rooted first) :
    m.scopes.Extends m.resetGlobals.scopes ∧ m.resetGlobals.Rooted m.fields.size := by
  obtain ⟨hparent, hsize, hbinding⟩ :=
    defineAll_keeps m.scopes.new.1 ⟨m.scopes.size⟩ 0 m.natives.toList
  have hscopes : m.resetGlobals.scopes =
      defineAll m.scopes.new.1 ⟨m.scopes.size⟩ 0 m.natives.toList := rfl
  have hglobals : m.resetGlobals.globals = ⟨m.scopes.size⟩ := rfl
  rw [← hscopes] at hparent hsize hbinding
  rw [Scopes.size_new] at hsize
  -- the range starts at the new globals, so no old scope is in it
  have hrange : ∀ e : ScopeId, m.scopes.size ≤ e.index → m.scopes.new.1.parent? e = none ∧
      ∀ name, m.scopes.new.1.binding? e name = none := by
    intro e he
    rw [Scopes.parent?_new, Scopes.parent?, Array.getElem?_eq_none he]
    refine ⟨rfl, fun name => ?_⟩
    rw [Scopes.binding?_new, Scopes.binding?, Array.getElem?_eq_none he]
    rfl
  refine ⟨⟨by omega, fun e _ => (hparent e).trans (m.scopes.parent?_new e)⟩, ?_⟩
  constructor
  case globals =>
    rw [hglobals, hsize]
    exact Nat.lt_succ_self _
  case root =>
    rw [hglobals, hparent]
    exact (hrange _ (Nat.le_refl _)).1
  case current =>
    refine ⟨Nat.le_refl _, ?_⟩
    -- the machine goes on in the new globals
    show m.scopes.size < m.resetGlobals.scopes.size
    omega
  case parents =>
    intro e hroot hlt
    have hroot : m.scopes.size < e.index := hroot
    omega
  case bindings =>
    intro e name v hroot hv
    rcases hbinding e name v hv with hold | hplain
    · rw [(hrange e hroot).2] at hold
      cases hold
    · exact hplain.rooted
  case instances => exact Nat.le_refl _
  case fields =>
    intro id hid name v hv
    have hv : (m.fields.getD id.index .empty).get? name = some v := hv
    rw [Array.getD_eq_getD_getElem?, Array.getElem?_eq_none hid] at hv
    cases hv
  case natives => exact h.natives

end Machine

/-! ## All machines of a session -/

/-- The machines that an action passes through, from the one that it starts on. -/
def Traced.machines {α : Type} (p : Traced α) (m : Machine) : List Machine :=
  match p ⟨m, []⟩ with
  | .ok _ t => t.machines
  | .error _ t => t.machines

namespace Session

/-- The machines that an action of a session passes through, the one behind it last. -/
def passes (s : Session) : Action → List Machine
  | .execute bound statements => (Traced.program bound statements).machines s.machine
  | .run bound text =>
    match (s.compile text).2 with
    | some program =>
      (Traced.program bound program.statements).machines (s.compile text).1.machine
    | none => [(s.compile text).1.machine]
  | a => [(s.perform a).machine]

/-- All machines that a session passes through, in order. -/
def visited (s : Session) : List Action → List Machine
  | [] => [s.machine]
  | a :: rest => s.machine :: (s.passes a ++ (s.perform a).visited rest)

/-- A piece of the way of a session: its machines belong to their globals, and scopes are only
    added from the first machine through all of them to the last. -/
structure Way (m : Machine) (ms : List Machine) (m' : Machine) : Prop where
  rooted : ∀ x ∈ ms, ∃ first, x.Rooted first
  extends_ : ms.Pairwise fun x y => x.scopes.Extends y.scopes
  between : ∀ x ∈ ms, m.scopes.Extends x.scopes ∧ x.scopes.Extends m'.scopes
  last : m.scopes.Extends m'.scopes ∧ ∃ first, m'.Rooted first

namespace Way

variable {m m' m'' : Machine} {ms ms' : List Machine}

/-- One more machine on the way, of which the forest extends the one before. -/
theorem single (hextends : m.scopes.Extends m'.scopes) {first : Nat} (h : m'.Rooted first) :
    Way m [m'] m' where
  rooted := by simpa using ⟨first, h⟩
  extends_ := List.pairwise_singleton _ _
  between := by simpa using ⟨hextends, .refl _⟩
  last := ⟨hextends, first, h⟩

/-- A way may be said to begin earlier. -/
theorem from_ (h : Way m' ms m'') (hextends : m.scopes.Extends m'.scopes) : Way m ms m'' where
  rooted := h.rooted
  extends_ := h.extends_
  between x hx := ⟨hextends.trans (h.between x hx).1, (h.between x hx).2⟩
  last := ⟨hextends.trans h.last.1, h.last.2⟩

/-- Two ways one behind the other make one. -/
theorem append (h : Way m ms m') (h' : Way m' ms' m'') : Way m (ms ++ ms') m'' where
  rooted x hx := (List.mem_append.mp hx).elim (h.rooted x) (h'.rooted x)
  extends_ := List.pairwise_append.mpr ⟨h.extends_, h'.extends_, fun x hx y hy =>
    (h.between x hx).2.trans (h'.between y hy).1⟩
  between x hx := by
    rcases List.mem_append.mp hx with hx | hx
    · exact ⟨(h.between x hx).1, (h.between x hx).2.trans h'.last.1⟩
    · exact ⟨h.last.1.trans (h'.between x hx).1, (h'.between x hx).2⟩
  last := ⟨h.last.1.trans h'.last.1, h'.last.2⟩

/-- The way of a program through all its machines. -/
theorem program {first : Nat} (h : m.Rooted first) (bound : Nat) (statements : List Stmt) :
    Way m ((Traced.program bound statements).machines m)
      ((Run.program bound statements).after m) := by
  have hstart : Trace.Rooted first m ⟨m, []⟩ :=
    ⟨by simpa using ⟨h, .refl _⟩, List.pairwise_singleton _ _⟩
  have hstays := Traced.program_stays bound statements h m [] hstart
  have herases := Traced.program_erases bound statements ⟨m, []⟩
  -- the machines of the trace are the way, newest first
  have hway : ∀ t : Trace, t.Rooted first m → Way m t.machines t.machine := by
    intro t ht
    obtain ⟨hnewest, -⟩ := List.pairwise_cons.mp ht.extends_
    refine ⟨fun x hx => ⟨first, (ht.machines x (List.mem_reverse.mp hx)).1⟩,
      List.pairwise_reverse.mpr ht.extends_, fun x hx => ⟨?_, ?_⟩, ?_⟩
    · exact (ht.machines x (List.mem_reverse.mp hx)).2
    · rcases List.mem_cons.mp (List.mem_reverse.mp hx) with rfl | hx
      · exact .refl _
      · exact hnewest x hx
    · obtain ⟨hrooted, hextends⟩ := ht.machines _ List.mem_cons_self
      exact ⟨hextends, first, hrooted⟩
  unfold Traced.machines Run.after
  rw [← herases]
  -- an abort ends the way where it happens
  cases hrun : Traced.program bound statements ⟨m, []⟩ with
  | ok a t =>
    rw [hrun] at hstays
    exact hway t hstays.2.1
  | error e t =>
    rw [hrun] at hstays
    exact hway t hstays.2

end Way

/-- Host functions that are registered yield nothing but what is in their arguments. -/
def Action.Contained : Action → Prop
  | .defineNative n => n.FromArguments
  | _ => True

/-- The way of an action. -/
theorem passes_way {s : Session} {first : Nat} (h : s.machine.Rooted first) {a : Action}
    (ha : a.Contained) : Way s.machine (s.passes a) (s.perform a).machine := by
  have hcompile (text : String) : (s.compile text).1.machine.Rooted first ∧
      s.machine.scopes.Extends (s.compile text).1.machine.scopes := by
    rw [machine_compile]
    exact ⟨h.install _, .refl _⟩
  cases a with
  | compile text => exact .single (hcompile text).2 (hcompile text).1
  | run bound text =>
    show Way s.machine _ (s.run bound text).1.machine
    rw [passes, run_eq]
    -- a text that is no program changes the machine by its compilation only
    cases (s.compile text).2 with
    | none => exact .single (hcompile text).2 (hcompile text).1
    | some program =>
      dsimp only
      rw [machine_execute]
      exact (Way.program (hcompile text).1 bound program.statements).from_ (hcompile text).2
  | execute bound statements =>
    show Way s.machine _ (s.execute bound statements).1.machine
    rw [machine_execute]
    exact .program h bound statements
  | install nodes entries => exact .single (.refl _) (h.install entries)
  | resetGlobals => exact .single h.resetGlobals.1 h.resetGlobals.2
  | setReport report => exact .single (.refl _) h
  | defineNative n => exact .single (.bind ..) (h.defineNative ha)

/-- The way of a whole session. -/
theorem visited_way {s : Session} {first : Nat} (h : s.machine.Rooted first) {actions : List Action}
    (hactions : ∀ a ∈ actions, a.Contained) :
    Way s.machine (s.visited actions) (s.performAll actions).machine := by
  induction actions generalizing s first with
  | nil => exact .single (.refl _) h
  | cons a rest ih =>
    obtain ⟨ha, hrest⟩ := List.forall_mem_cons.mp hactions
    have hpasses := passes_way h ha
    obtain ⟨first', h'⟩ := hpasses.last.2
    exact (Way.single (.refl _) h).append (hpasses.append (ih h' hrest))

/-- The machine of a new session is rooted. -/
theorem start_rooted (sink : Sink) (clock : Clock) : (Session.start sink clock).machine.Rooted 0 :=
  (Machine.blank_rooted sink clock).defineNative Native.clock_fromArguments

/-- The scopes of a machine form a forest, with the current globals as the root of all that can be
    reached.

    In every session and on every machine that it passes through, also in the middle of an
    execution, each scope is inside one that had been opened before, and stays there on all machines
    to come; so the chain of any scope leads through scopes opened earlier and earlier, and ends.
    The chain of a scope that can be reached ends in the current global scope, which no other
    encloses, and there a name is bound to what it is bound to among the globals. The classes that a
    class inherits from are older and older, and a method is searched among them. The traced runs
    that pass through these machines do what the runs of the session do. -/
theorem scopes_form_forest (sink : Sink) (clock : Clock) (actions : List Action)
    (hactions : ∀ a ∈ actions, a.Contained) :
    let visited := (Session.start sink clock).visited actions
    (∀ m ∈ visited, ∀ e p, m.scopes.parent? e = some p →
      p.index < e.index ∧ e.index < m.scopes.size) ∧
    visited.Pairwise (fun m m' => m.scopes.size ≤ m'.scopes.size ∧
      ∀ e, e.index < m.scopes.size → m'.scopes.parent? e = m.scopes.parent? e) ∧
    (∀ m ∈ visited, ∀ e, (m.scopes.chain e).length ≤ e.index + 1 ∧
      (m.scopes.chain e).Pairwise (fun inner outer => outer.index < inner.index)) ∧
    (∀ m ∈ visited, ∀ e, m.Reaches (.scope e) →
      (m.scopes.chain e).getLast? = some m.globals ∧ m.scopes.parent? m.globals = none ∧
      (∀ d, m.scopes.ancestor? e d = (m.scopes.chain e)[d]?) ∧
      ∀ name, m.scopes.getAt? e ((m.scopes.chain e).length - 1) name =
        m.scopes.get? m.globals name) ∧
    (∀ m ∈ visited, ∀ c, m.Reaches (.value (.class_ c)) →
      c.lineage.Pairwise (fun heir ancestor => ancestor.id.index < heir.id.index) ∧
      ∀ name, c.findMethod? name = c.lineage.findSome? (·.methods.get? name)) ∧
    ∀ bound statements, Traced.Erases (Traced.program bound statements)
      (Run.program bound statements) := by
  intro visited
  have hway := visited_way (start_rooted sink clock) hactions
  refine ⟨fun m _ e p hp => ⟨Scopes.parent?_lt hp, Scopes.lt_size_of_parent? hp⟩,
    hway.extends_.imp fun h => ⟨h.size, h.parent?⟩,
    fun m _ e => ⟨Scopes.length_chain_le m.scopes e, (Scopes.chain_pairwise m.scopes e).1⟩,
    fun m hm e he => ?_, fun m hm c hc => ?_, Traced.program_erases⟩
  -- the last of the chain is the globals, so its length minus one is their distance
  · obtain ⟨first, hrooted⟩ := hway.rooted m hm
    have hlast := hrooted.chain_getLast? (hrooted.reaches he)
    refine ⟨hlast, hrooted.root, Scopes.ancestor?_eq_getElem? m.scopes e, fun name => ?_⟩
    rw [Scopes.getAt?, Scopes.ancestor?_eq_getElem?, ← List.getLast?_eq_getElem?, hlast,
      Scopes.get?_of_root hrooted.globals hrooted.root]
    rfl
  · obtain ⟨first, hrooted⟩ := hway.rooted m hm
    exact ⟨(Class.Rooted.lineage_pairwise (hrooted.reaches hc)).1, c.findMethod?_eq_findSome?⟩

/-- A host function is registered, a function is declared, and the globals are replaced. -/
private def replacing : List Action :=
  [.defineNative ⟨"last", 1, NativeFunction.last⟩,
    .execute 3 [.funDecl ⟨.name "f" 1, [], [.block []]⟩], .resetGlobals]

/-- The new globals are no part of the scopes before them. -/
theorem replacing_scopes_form_forest : (∀ a ∈ replacing, a.Contained) ∧
    ∀ m ∈ (Session.start .unlimited (.always 0)).visited replacing,
      m.scopes.parent? m.globals = none := by
  have hlast : ("last", NativeFunction.last) ∈ NativeFunction.library := by
    simp [NativeFunction.library]
  have hcontained : ∀ a ∈ replacing, a.Contained := by
    simp only [replacing, List.forall_mem_cons]
    exact ⟨Native.library_fromArguments hlast "last" 1, trivial, trivial, List.forall_mem_nil _⟩
  refine ⟨hcontained, fun m hm => ?_⟩
  obtain ⟨-, -, -, hreached, -⟩ := scopes_form_forest .unlimited (.always 0) replacing hcontained
  exact (hreached m hm m.globals .globals).2.1

end Session

end Lox
