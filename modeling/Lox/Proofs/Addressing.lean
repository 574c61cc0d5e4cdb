import Lox.Proofs.Forest

/-!
# Addresses of bindings

A name is searched outward from a scope, or it is looked at in the scope that is a given number of
links away. Searching for a name is addressing it at its nearest distance, that is the least one at
which it is bound, both to read it and to write it; a name that is bound at no distance is not
found. What is written at a distance changes one binding of one scope, which is seen from everywhere
inside this scope. Whatever is done to a forest, its scopes stay where they are, so distances keep
their meaning.

## Key results

- `Scopes.nearest?_eq_some_iff`, `Scopes.get?_eq_bind`, `Scopes.assign?_eq_bind`: searching is
  addressing at the nearest distance
- `Scopes.getAt?_define`: what a write changes
- `Scopes.ancestor?_performAll`: what is reached by a distance stays the same
- `Scopes.addresses_agree`: both ways to address names
-/

namespace Lox

namespace Scopes

/-! ## Ways outward -/

/-- A way outward in two parts. -/
theorem ancestor?_add (f : Scopes) (e : ScopeId) (a b : Nat) :
    f.ancestor? e (a + b) = (f.ancestor? e a).bind fun e' => f.ancestor? e' b := by
  induction a generalizing e with
  | zero =>
    rw [Nat.zero_add, ancestor?.eq_1]
    by_cases he : e.index < f.size
    · rw [if_pos he, Option.bind_some]
    · -- from a scope that does not exist nothing is reached
      rw [if_neg he, Option.bind_none, ancestor?_eq_getElem?, chain, dif_neg he]
      rfl
  | succ a ih =>
    rw [Nat.succ_add, ancestor?, ancestor?]
    cases f.parent? e with
    | none => rfl
    | some p => exact ih p

/-- A scope is reached as long as the chain goes on. -/
theorem isSome_ancestor?_iff (f : Scopes) (e : ScopeId) (d : Nat) :
    (f.ancestor? e d).isSome ↔ d < (f.chain e).length := by
  simp [ancestor?_eq_getElem?]

/-- The scopes that are reached are those of the chain. -/
theorem mem_chain_iff (f : Scopes) (e target : ScopeId) :
    target ∈ f.chain e ↔ ∃ d, f.ancestor? e d = some target := by
  simp only [ancestor?_eq_getElem?, List.mem_iff_getElem?]

/-- What is reached has been opened. -/
theorem lt_size_of_ancestor? {f : Scopes} {e target : ScopeId} {d : Nat}
    (h : f.ancestor? e d = some target) : target.index < f.size := by
  induction d generalizing e with
  -- the walk itself checks that the scope where it stops exists
  | zero =>
    rw [ancestor?] at h
    split at h
    · cases h
      assumption
    · cases h
  | succ d ih =>
    rw [ancestor?] at h
    -- one link further the walk goes on from the parent, which has to exist
    cases hp : f.parent? e with
    | none => simp [hp] at h
    | some p =>
      rw [hp] at h
      exact ih h

/-- Binding a name moves no scope. -/
@[simp] theorem ancestor?_bind (f : Scopes) (e' : ScopeId) (name : String) (b : Binding)
    (e : ScopeId) (d : Nat) : (f.bind e' name b).ancestor? e d = f.ancestor? e d := by
  induction d generalizing e with
  | zero => simp [ancestor?]
  | succ d ih => simp [ancestor?, ih]

/-- From scopes that have stayed where they are the same scopes are reached. -/
theorem ancestor?_of_parent? {f f' : Scopes} (hsize : f.size ≤ f'.size)
    (hparent : ∀ e : ScopeId, e.index < f.size → f'.parent? e = f.parent? e) {e : ScopeId}
    (he : e.index < f.size) (d : Nat) : f'.ancestor? e d = f.ancestor? e d := by
  induction d generalizing e with
  | zero => rw [ancestor?, ancestor?, if_pos he, if_pos (Nat.lt_of_lt_of_le he hsize)]
  | succ d ih =>
    rw [ancestor?, ancestor?, hparent e he]
    cases hp : f.parent? e with
    | none => rfl
    | some p => exact ih (Nat.lt_trans (parent?_lt hp) he)

/-! ## The nearest distance -/

/-- A name is bound at this distance, and at no smaller one. -/
structure Nearest (f : Scopes) (e : ScopeId) (name : String) (d : Nat) : Prop where
  bound : (f.getAt? e d name).isSome
  unbound : ∀ d' < d, f.getAt? e d' name = none

/-- The least distance at which a name is bound. -/
def nearest? (f : Scopes) (e : ScopeId) (name : String) : Option Nat :=
  (f.chain e).findIdx? fun e => (f.binding? e name).isSome

variable {f : Scopes} {e : ScopeId} {name : String}

/-- What is bound at a distance is bound in the scope at this place of the chain. -/
theorem getAt?_eq_bind (f : Scopes) (e : ScopeId) (d : Nat) (name : String) :
    f.getAt? e d name = (f.chain e)[d]?.bind fun e => f.binding? e name := by
  rw [getAt?, ancestor?_eq_getElem?]

/-- The nearest scope is the first one up the chain that has the name. -/
theorem nearest?_eq_some_iff {d : Nat} : f.nearest? e name = some d ↔ f.Nearest e name d := by
  have hat (i : Nat) (hi : i < (f.chain e).length) :
      f.getAt? e i name = f.binding? (f.chain e)[i] name := by
    rw [getAt?_eq_bind, List.getElem?_eq_getElem hi, Option.bind_some]
  rw [nearest?, List.findIdx?_eq_some_iff_getElem]
  constructor
  · rintro ⟨hd, hbound, hunbound⟩
    refine ⟨by rwa [hat d hd], fun d' hd' => ?_⟩
    have hd'' := Nat.lt_trans hd' hd
    rw [hat d' hd'']
    simpa using hunbound d' hd'
  · intro ⟨hbound, hunbound⟩
    have hd : d < (f.chain e).length := by
      -- nothing is bound beyond the end of the chain
      by_contra hd
      rw [getAt?_eq_bind, List.getElem?_eq_none (Nat.le_of_not_lt hd)] at hbound
      cases hbound
    refine ⟨hd, by rwa [hat d hd] at hbound, fun d' hd' => ?_⟩
    have hnone := hunbound d' hd'
    rw [hat d' (Nat.lt_trans hd' hd)] at hnone
    simp [hnone]

/-- There is no nearest scope just if no scope up the chain has the name. -/
theorem nearest?_eq_none_iff : f.nearest? e name = none ↔ ∀ d, f.getAt? e d name = none := by
  -- the way outward lists the scopes by distance
  rw [nearest?, List.findIdx?_eq_none_iff]
  constructor
  · intro h d
    rw [getAt?_eq_bind]
    cases hd : (f.chain e)[d]? with
    | none => rfl
    | some e' => simpa using h e' (List.mem_of_getElem? hd)
  · intro h e' he'
    obtain ⟨d, hd⟩ := List.mem_iff_getElem?.mp he'
    have hnone := h d
    rw [getAt?_eq_bind, hd, Option.bind_some] at hnone
    simp [hnone]

/-! ## Searching -/

/-- To look for the first result is to look for the first element that has one. -/
private theorem findSome?_eq_find?_bind {α β : Type} (g : α → Option β) (l : List α) :
    l.findSome? g = (l.find? fun a => (g a).isSome).bind g := by
  induction l with
  | nil => rfl
  | cons a l ih => cases h : g a <;> simp [h, ih]

/-- A search finds what is bound at the nearest distance. -/
theorem get?_eq_bind (f : Scopes) (e : ScopeId) (name : String) :
    f.get? e name = (f.nearest? e name).bind fun d => f.getAt? e d name := by
  rw [get?, findSome?_eq_find?_bind, List.find?_eq_bind_findIdx?_getElem?, Option.bind_assoc, nearest?]
  simp only [getAt?_eq_bind]

/-- A search writes at the nearest distance. -/
theorem assign?_eq_bind (f : Scopes) (e : ScopeId) (name : String) (v : Value) :
    f.assign? e name v = (f.nearest? e name).bind fun d => f.assignAt? e d name v := by
  rw [assign?, List.find?_eq_bind_findIdx?_getElem?, Option.map_bind, nearest?]
  simp only [assignAt?, ancestor?_eq_getElem?]
  rfl

/-- A lookup finds the binding in the nearest scope. -/
theorem get?_eq_some_iff {b : Binding} :
    f.get? e name = some b ↔ ∃ d, f.Nearest e name d ∧ f.getAt? e d name = some b := by
  simp only [get?_eq_bind, Option.bind_eq_some_iff, nearest?_eq_some_iff]

/-- A lookup finds nothing just if no scope up the chain has the name. -/
theorem get?_eq_none_iff : f.get? e name = none ↔ ∀ d, f.getAt? e d name = none := by
  rw [← nearest?_eq_none_iff, get?_eq_bind]
  cases hd : f.nearest? e name with
  | none => simp
  | some d =>
    have hbound := (nearest?_eq_some_iff.mp hd).bound
    simp only [Option.bind_some, reduceCtorEq, iff_false]
    exact Option.isSome_iff_ne_none.mp hbound

/-- An assignment writes to the nearest scope. -/
theorem assign?_eq_some_iff {v : Value} {f' : Scopes} : f.assign? e name v = some f' ↔
    ∃ d, f.Nearest e name d ∧ f.assignAt? e d name v = some f' := by
  simp only [assign?_eq_bind, Option.bind_eq_some_iff, nearest?_eq_some_iff]

/-- Where a name is bound, it can be given another value. -/
theorem Nearest.exists_ancestor? {d : Nat} (h : f.Nearest e name d) :
    ∃ target, f.ancestor? e d = some target := by
  have hbound := h.bound
  rw [getAt?] at hbound
  cases hd : f.ancestor? e d with
  | none => simp [hd] at hbound
  | some target => exact ⟨target, rfl⟩

/-- An assignment fails just if no scope up the chain has the name. -/
theorem assign?_eq_none_iff {v : Value} :
    f.assign? e name v = none ↔ ∀ d, f.getAt? e d name = none := by
  rw [← nearest?_eq_none_iff, assign?_eq_bind]
  cases hd : f.nearest? e name with
  | none => simp
  | some d =>
    obtain ⟨target, htarget⟩ := (nearest?_eq_some_iff.mp hd).exists_ancestor?
    simp [assignAt?, htarget]

/-- A name is defined if a lookup finds it. -/
theorem isDefined_eq (f : Scopes) (e : ScopeId) (name : String) :
    f.isDefined e name = (f.get? e name).isSome := by
  rw [isDefined, get?, List.isSome_findSome?]

/-! ## Writing -/

/-- What is written in a scope is seen at every distance that leads to this scope, and all else
    stays as it was. -/
theorem getAt?_define {target : ScopeId} (htarget : target.index < f.size) (name : String) (v : Value)
    (e : ScopeId) (d : Nat) (name' : String) :
    (f.define target name v).getAt? e d name' =
      if f.ancestor? e d = some target ∧ name' = name then some (.value v)
      else f.getAt? e d name' := by
  rw [getAt?, getAt?, define, ancestor?_bind]
  cases f.ancestor? e d with
  | none => simp
  | some reached =>
    simp only [Option.bind_some, binding?_bind, Option.some.injEq]
    grind

/-! ## Histories -/

/-- What can be done to a forest. -/
inductive Operation where
  | new
  | child (e : ScopeId)
  | declare (e : ScopeId) (name : String)
  | define (e : ScopeId) (name : String) (v : Value)
  | assign (e : ScopeId) (name : String) (v : Value)
  | assignAt (e : ScopeId) (distance : Nat) (name : String) (v : Value)

/-- The forest after an operation. One that fails changes nothing. -/
def perform (f : Scopes) : Operation → Scopes
  | .new => f.new.1
  | .child e => (f.child e).1
  | .declare e name => f.declare e name
  | .define e name v => f.define e name v
  | .assign e name v => (f.assign? e name v).getD f
  | .assignAt e distance name v => (f.assignAt? e distance name v).getD f

/-- The forest after several operations. -/
def performAll (f : Scopes) (operations : List Operation) : Scopes :=
  operations.foldl perform f

/-- A write, wherever it leads, opens no scope and moves none. -/
private theorem stays_of_getD_define (f : Scopes) (target? : Option ScopeId) (name : String)
    (v : Value) :
    ((target?.map fun e => f.define e name v).getD f).size = f.size ∧
      ∀ e, ((target?.map fun e => f.define e name v).getD f).parent? e = f.parent? e := by
  cases target? <;> simp [define]

/-- No operation closes a scope or moves one. -/
theorem perform_stays (f : Scopes) (op : Operation) :
    f.size ≤ (f.perform op).size ∧
      ∀ e : ScopeId, e.index < f.size → (f.perform op).parent? e = f.parent? e := by
  have hnew : f.size ≤ f.new.1.size ∧
      ∀ e : ScopeId, e.index < f.size → f.new.1.parent? e = f.parent? e :=
    ⟨by rw [size_new]; omega, fun e _ => f.parent?_new e⟩
  cases op with
  | new => exact hnew
  | child p =>
    by_cases hp : p.index < f.size
    · refine ⟨?_, fun e he => ?_⟩
      · rw [perform, size_child hp]
        omega
      · rw [perform, parent?_child f p e hp, if_neg (Nat.ne_of_lt he)]
    · -- inside a scope that does not exist the new scope is one that no other encloses
      rw [perform, child, dif_neg hp]
      exact hnew
  | declare p name => simp [perform, declare]
  | define p name v => simp [perform, define]
  | assign p name v =>
    obtain ⟨hsize, hparent⟩ := stays_of_getD_define f
      ((f.chain p).find? fun e => (f.binding? e name).isSome) name v
    exact ⟨Nat.le_of_eq hsize.symm, fun e _ => hparent e⟩
  | assignAt p d name v =>
    obtain ⟨hsize, hparent⟩ := stays_of_getD_define f (f.ancestor? p d) name v
    exact ⟨Nat.le_of_eq hsize.symm, fun e _ => hparent e⟩

/-- Whatever is done to a forest, distances lead from its scopes to the same scopes. -/
theorem ancestor?_performAll (f : Scopes) (operations : List Operation) (he : e.index < f.size)
    (d : Nat) : (f.performAll operations).ancestor? e d = f.ancestor? e d := by
  induction operations generalizing f with
  | nil => rfl
  | cons op rest ih =>
    obtain ⟨hsize, hparent⟩ := f.perform_stays op
    calc ((f.perform op).performAll rest).ancestor? e d
      _ = (f.perform op).ancestor? e d := ih _ (Nat.lt_of_lt_of_le he hsize)
      _ = f.ancestor? e d := ancestor?_of_parent? hsize hparent he d

/-! ## Both ways -/

/-- A write at a distance, in the scope that it reaches: this binding is another one, all other
    bindings of all scopes are the same, and so are the scopes. -/
structure Writes (f : Scopes) (target : ScopeId) (name : String) (v : Value) (f' : Scopes) : Prop where
  binding? : ∀ e name', f'.binding? e name' =
    if e = target ∧ name' = name then some (.value v) else f.binding? e name'
  getAt? : ∀ e d name', f'.getAt? e d name' =
    if f.ancestor? e d = some target ∧ name' = name then some (.value v) else f.getAt? e d name'
  /-- It is seen from everywhere inside the scope. -/
  seen : ∀ e, target ∈ f.chain e → ∃ d, f'.getAt? e d name = some (.value v)
  size : f'.size = f.size
  parent? : ∀ e, f'.parent? e = f.parent? e

/-- A definition writes to the scope itself and nowhere else. -/
theorem writes_define {target : ScopeId} (htarget : target.index < f.size) (name : String)
    (v : Value) : f.Writes target name v (f.define target name v) where
  binding? e name' := by
    rw [define, binding?_bind]
    grind
  getAt? e d name' := getAt?_define htarget name v e d name'
  seen e he := by
    obtain ⟨d, hd⟩ := (mem_chain_iff f e target).mp he
    exact ⟨d, by rw [getAt?_define htarget, if_pos ⟨hd, rfl⟩]⟩
  size := by simp [define]
  parent? e := by simp [define]

/-- Searching for names and addressing them.

    In every forest of scopes, whatever operations have led to it, a search for a name finds what is
    bound at the least distance at which the name is bound, and nothing exactly if it is bound at no
    distance; whether the name is known and whether it has a value depends on this binding. A search
    to write has the effect of writing at this distance, and if there is none, it fails and nothing
    changes. Ways outward can be put together, and they exist as long as the chain of scopes goes
    on. To write at a distance changes one binding of the scope that is reached, and if none is
    reached, nothing changes. Operations to come do not change where a distance leads. -/
theorem addresses_agree (f : Scopes) :
    (∀ e name b, f.get? e name = some b ↔ ∃ d, f.getAt? e d name = some b ∧
      ∀ d' < d, f.getAt? e d' name = none) ∧
    (∀ e name, f.get? e name = none ↔ ∀ d, f.getAt? e d name = none) ∧
    (∀ e name, f.isDefined e name = (f.get? e name).isSome) ∧
    (∀ e name, f.isInitialized e name = true ↔ ∃ v, f.get? e name = some (.value v)) ∧
    (∀ e name v f', f.assign? e name v = some f' ↔ ∃ d, (f.getAt? e d name).isSome ∧
      (∀ d' < d, f.getAt? e d' name = none) ∧ f.assignAt? e d name v = some f') ∧
    (∀ e name v, f.assign? e name v = none ↔ ∀ d, f.getAt? e d name = none) ∧
    (∀ e name v, f.assign? e name v = none → f.perform (.assign e name v) = f) ∧
    (∀ e a b, f.ancestor? e (a + b) = (f.ancestor? e a).bind fun e' => f.ancestor? e' b) ∧
    (∀ e d, (f.ancestor? e d).isSome ↔ d < (f.chain e).length) ∧
    (∀ e d name v, (f.assignAt? e d name v = none ↔ f.ancestor? e d = none) ∧
      (f.assignAt? e d name v = none → f.perform (.assignAt e d name v) = f) ∧
      ∀ f', f.assignAt? e d name v = some f' →
        ∃ target, f.ancestor? e d = some target ∧ f.Writes target name v f') ∧
    ∀ operations e d, e.index < f.size →
      (f.performAll operations).ancestor? e d = f.ancestor? e d := by
  refine ⟨fun e name b => ?_, fun e name => get?_eq_none_iff, isDefined_eq f, fun e name => ?_,
    fun e name v f' => ?_, fun e name v => assign?_eq_none_iff, fun e name v hnone => ?_,
    ancestor?_add f, isSome_ancestor?_iff f, fun e d name v => ⟨?_, fun hnone => ?_, fun f' h => ?_⟩,
    fun operations e d he => ancestor?_performAll f operations he d⟩
  · rw [get?_eq_some_iff]
    constructor
    -- the nearest distance is a bound one below which the name is not bound
    · intro ⟨d, hd, hb⟩
      exact ⟨d, hb, hd.unbound⟩
    · intro ⟨d, hb, hunbound⟩
      exact ⟨d, ⟨by rw [hb]; rfl, hunbound⟩, hb⟩
  · rw [isInitialized]
    cases f.get? e name with
    | none => simp
    | some b => cases b <;> simp
  · rw [assign?_eq_some_iff]
    constructor
    · intro ⟨d, hd, h⟩
      exact ⟨d, hd.bound, hd.unbound, h⟩
    · intro ⟨d, hbound, hunbound, h⟩
      exact ⟨d, ⟨hbound, hunbound⟩, h⟩
  · rw [perform, hnone, Option.getD_none]
  · rw [assignAt?, Option.map_eq_none_iff]
  · rw [perform, hnone, Option.getD_none]
  · rw [assignAt?, Option.map_eq_some_iff] at h
    obtain ⟨target, htarget, rfl⟩ := h
    exact ⟨target, htarget, writes_define (lt_size_of_ancestor? htarget) name v⟩

end Scopes

end Lox
