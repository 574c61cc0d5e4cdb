import Lox.Proofs.Watch

/-!
# Scopes of the machine and scopes of the text

A scope of the machine stands for the local scopes around a place in a program if the links outward
lead through the scopes that were opened for them, one after the other, and each of these binds what
is declared in it. Opening scopes and binding names keeps this so.

## Key results

- `Scopes.Stands.mono`: scopes that grow keep standing for the same places
- `Scopes.Stands.ancestor?`: so many links outward is the scope opened for so many places outward
-/

namespace Lox

namespace Scopes

/-! ## Growing scopes -/

/-- A scope that has a parent is one of the forest. -/
theorem lt_size_of_parent? {f : Scopes} {e p : ScopeId} (h : f.parent? e = some p) :
    e.index < f.size := by
  apply Nat.lt_of_not_le
  intro hle
  rw [parent?, Array.getElem?_eq_none hle] at h
  cases h

/-- A scope with a binding is one of the forest. -/
theorem lt_size_of_binding? {f : Scopes} {e : ScopeId} {name : String} {b : Binding}
    (h : f.binding? e name = some b) : e.index < f.size := by
  apply Nat.lt_of_not_le
  intro hle
  rw [binding?, Array.getElem?_eq_none hle] at h
  cases h

/-- A new scope makes the forest larger by one. -/
theorem size_child {f : Scopes} {e : ScopeId} (he : e.index < f.size) :
    (f.child e).1.size = f.size + 1 := by
  simp [child, he, size, push]

/-- No scope moves, no name is unbound, and outside of the global scopes what `this` and `super`
    are bound to stays. -/
structure Grows (f f' : Scopes) : Prop where
  size : f.size ≤ f'.size
  parent? : ∀ e, e.index < f.size → f'.parent? e = f.parent? e
  isSome : ∀ e name, (f.binding? e name).isSome → (f'.binding? e name).isSome
  reserved : ∀ e p (k : Keyword) b, f.parent? e = some p → f.binding? e k.word = some b →
    f'.binding? e k.word = some b

namespace Grows

variable {f f' f'' : Scopes}

theorem refl (f : Scopes) : f.Grows f :=
  ⟨Nat.le_refl _, fun _ _ => rfl, fun _ _ h => h, fun _ _ _ _ _ h => h⟩

theorem trans (h : f.Grows f') (h' : f'.Grows f'') : f.Grows f'' where
  size := Nat.le_trans h.size h'.size
  parent? e he := by rw [h'.parent? e (Nat.lt_of_lt_of_le he h.size), h.parent? e he]
  isSome e name hname := h'.isSome e name (h.isSome e name hname)
  reserved e p k b hp hb := by
    refine h'.reserved e p k b ?_ (h.reserved e p k b hp hb)
    rw [h.parent? e (lt_size_of_parent? hp), hp]

/-- Binding a name that is not reserved, or not bound before. -/
theorem bind {e : ScopeId} {name : String} {b : Binding}
    (h : ∀ k : Keyword, name = k.word → ∀ p, f.parent? e = some p → f.binding? e name = none) :
    f.Grows (f.bind e name b) where
  size := by simp
  parent? e' _ := f.parent?_bind e e' name b
  isSome e' name' hname := by
    rw [binding?_bind]
    split
    · rfl
    · exact hname
  reserved e' p k b' hp hb := by
    rw [binding?_bind, if_neg]
    · exact hb
    -- a reserved name that is bound there cannot be bound anew
    · rintro ⟨rfl, rfl, -⟩
      rw [h k rfl p hp] at hb
      cases hb

/-- A forest grows by a scope inside another. -/
theorem child {e : ScopeId} (he : e.index < f.size) : f.Grows (f.child e).1 where
  size := by
    rw [size_child he]
    omega
  parent? e' he' := by rw [parent?_child f e e' he, if_neg (Nat.ne_of_lt he')]
  isSome e' name h := by rwa [binding?_child f e e' name he]
  reserved e' p k b _ hb := by rwa [binding?_child f e e' k.word he]

end Grows

/-- The new scope takes the next number. -/
@[simp] theorem child_snd (f : Scopes) (e : ScopeId) : (f.child e).2 = ⟨f.size⟩ := by
  unfold child
  split <;> rfl

/-- Opening a scope always succeeds, and the new scope is the last one. -/
theorem openScope_run (m : Machine) (e : ScopeId) :
    Run.openScope e m = .ok ⟨m.scopes.size⟩ { m with scopes := (m.scopes.child e).1 } := by
  rw [← child_snd m.scopes e]
  rfl

/-- What the forest holds after a new scope without a parent. -/
private theorem getElem?_new (f : Scopes) (e : ScopeId) :
    f.new.1.scopes[e.index]? =
      if e.index = f.size then some ⟨none, .empty⟩ else f.scopes[e.index]? :=
  Array.getElem?_push

/-- A scope that no other encloses leaves the others alone, and binds nothing. -/
theorem parent?_new (f : Scopes) (e : ScopeId) : f.new.1.parent? e = f.parent? e := by
  rw [parent?, getElem?_new, parent?]
  split
  · rename_i he
    rw [Array.getElem?_eq_none (Nat.le_of_eq he.symm)]
    rfl
  · rfl

/-- No scope is around the new one. -/
theorem parent?_new_size (f : Scopes) : f.new.1.parent? ⟨f.size⟩ = none := by
  rw [parent?_new, parent?, Array.getElem?_eq_none (Nat.le_refl _)]
  rfl

/-- A new scope has no binding. -/
theorem binding?_new (f : Scopes) (e : ScopeId) (name : String) :
    f.new.1.binding? e name = f.binding? e name := by
  rw [binding?, getElem?_new, binding?]
  split
  · rename_i he
    rw [Array.getElem?_eq_none (Nat.le_of_eq he.symm)]
    rfl
  · rfl

/-- A new scope without a parent makes the forest larger by one. -/
theorem size_new (f : Scopes) : f.new.1.size = f.size + 1 := by
  simp [new, size, push]

/-- A forest grows by a scope without a parent. -/
theorem Grows.new (f : Scopes) : f.Grows f.new.1 where
  size := by
    rw [size_new]
    omega
  parent? e _ := f.parent?_new e
  isSome e name h := by rwa [binding?_new]
  reserved e p k b _ hb := by rwa [binding?_new]

/-- A new scope binds nothing. -/
theorem binding?_child_new {f : Scopes} {e : ScopeId} (name : String) (he : e.index < f.size) :
    (f.child e).1.binding? ⟨f.size⟩ name = none := by
  rw [binding?_child _ _ _ _ he]
  cases hb : f.binding? ⟨f.size⟩ name with
  | none => rfl
  | some b => exact absurd (lt_size_of_binding? hb) (Nat.lt_irrefl _)

/-- Opens a scope inside another in which a name has a value. -/
def childWith (f : Scopes) (e : ScopeId) (name : String) (v : Value) : Scopes :=
  (f.child e).1.define ⟨f.size⟩ name v

/-- The new scope holds the value under its name. -/
theorem binding?_childWith {f : Scopes} {e : ScopeId} (name : String) (v : Value)
    (he : e.index < f.size) : (f.childWith e name v).binding? ⟨f.size⟩ name = some (.value v) := by
  have hsize : f.size < (f.child e).1.size := by
    rw [size_child he]
    omega
  rw [childWith, define, binding?_bind, if_pos ⟨rfl, rfl, hsize⟩]

/-- A scope that starts with a name is one to which nothing but the name has been added. -/
theorem Grows.childWith {f : Scopes} {e : ScopeId} (name : String) (v : Value)
    (he : e.index < f.size) : (f.child e).1.Grows (f.childWith e name v) :=
  .bind fun _ _ _ _ => binding?_child_new name he

/-! ## Standing for a place -/

/-- A scope binds what is declared in a scope of the text; the scope of a bound method binds `this`
    and the one of a subclass binds `super` to a class. -/
structure Holds (f : Scopes) (e : ScopeId) (x : Enclosing) : Prop where
  declared : ∀ name ∈ x.declared, (f.binding? e name).isSome
  this : ∀ method, x.opener = .this method → ∃ v, f.binding? e Keyword.this.word = some (.value v)
  super : ∀ name methods, x.opener = .super name methods →
    ∃ c, f.binding? e Keyword.super.word = some (.value (.class_ c))

/-- The links outward from a scope lead through the scopes that were opened around a place. -/
inductive Stands (f : Scopes) : ScopeId → List Activation → Surroundings → Prop
  | global {e : ScopeId} (hlt : e.index < f.size) (hroot : f.parent? e = none) : Stands f e [] []
  | inside {e p : ScopeId} {acts : List Activation} {x : Enclosing} {around : Surroundings}
      (hparent : f.parent? e = some p) (hholds : f.Holds e x) (h : Stands f p acts around) :
      Stands f e (⟨x.opener, e⟩ :: acts) (x :: around)

/-- A scope goes on to hold the names while the forest grows. -/
theorem Holds.mono {f f' : Scopes} {e p : ScopeId} {x : Enclosing} (h : f.Holds e x)
    (hparent : f.parent? e = some p) (hgrows : f.Grows f') : f'.Holds e x where
  declared name hname := hgrows.isSome e name (h.declared name hname)
  this method hopener := by
    obtain ⟨v, hv⟩ := h.this method hopener
    exact ⟨v, hgrows.reserved e p .this _ hparent hv⟩
  super name methods hopener := by
    obtain ⟨c, hc⟩ := h.super name methods hopener
    exact ⟨c, hgrows.reserved e p .super _ hparent hc⟩

namespace Stands

variable {f f' : Scopes} {e : ScopeId} {acts : List Activation} {around : Surroundings}

/-- The scope where one stands is one of the forest. -/
theorem lt_size (h : f.Stands e acts around) : e.index < f.size := by
  cases h with
  | global hlt => exact hlt
  | inside hparent => exact lt_size_of_parent? hparent

/-- Growing scopes keep standing for the same places. -/
theorem mono (h : f.Stands e acts around) (hgrows : f.Grows f') : f'.Stands e acts around := by
  induction h with
  | @global e hlt hroot =>
    exact .global (Nat.lt_of_lt_of_le hlt hgrows.size) (by rw [hgrows.parent? e hlt, hroot])
  | @inside e p _ _ _ hparent hholds _ ih =>
    refine .inside ?_ (hholds.mono hparent hgrows) ih
    rw [hgrows.parent? e (lt_size_of_parent? hparent), hparent]

/-- The scopes that have been opened are those around in the text. -/
theorem map_opener (h : f.Stands e acts around) :
    acts.map (·.opener) = around.map (·.opener) := by
  induction h with
  | global => rfl
  | inside _ _ _ ih => rw [List.map_cons, List.map_cons, ih]

/-- So many links outward is the scope that was opened for the place so many scopes outward. -/
theorem ancestor? (h : f.Stands e acts around) {i : Nat} {a : Activation}
    (ha : acts[i]? = some a) : f.ancestor? e i = some a.scope := by
  induction h generalizing i with
  | global => simp at ha
  | @inside e p acts _ _ hparent _ _ ih =>
    cases i with
    | zero =>
      obtain rfl : ⟨_, e⟩ = a := by simpa using ha
      simp [Scopes.ancestor?, lt_size_of_parent? hparent]
    | succ i =>
      rw [Scopes.ancestor?, hparent]
      exact ih (by simpa using ha)

/-- Each scope binds what is declared in the scope of the text that it was opened for. -/
theorem holds (h : f.Stands e acts around) {i : Nat} {x : Enclosing} (hx : around[i]? = some x) :
    ∃ a, acts[i]? = some a ∧ f.Holds a.scope x := by
  induction h generalizing i with
  | global => simp at hx
  | @inside e p acts _ _ _ hholds _ ih =>
    -- counted from inside, the place and its scopes outward keep the same distance
    cases i with
    | zero =>
      obtain rfl := by simpa using hx
      exact ⟨_, rfl, hholds⟩
    | succ i =>
      obtain ⟨a, ha, hholds⟩ := ih (by simpa using hx)
      exact ⟨a, by simpa using ha, hholds⟩

/-- A local name that has been bound may be declared. -/
theorem declare (h : f.Stands e acts around) {name : String} (hname : (f.binding? e name).isSome) :
    f.Stands e acts (around.declare name) := by
  cases h with
  | global hlt hroot => exact .global hlt hroot
  | @inside e p acts x around hparent hholds h =>
    refine .inside (x := ⟨x.opener, name :: x.declared⟩) hparent ⟨?_, hholds.this, hholds.super⟩ h
    intro other hother
    rcases List.mem_cons.mp hother with rfl | hother
    · exact hname
    · exact hholds.declared other hother

/-- A scope that is opened inside another one and binds what is declared in it. -/
theorem child (h : f.Stands e acts around) (hgrows : (f.child e).1.Grows f') {x : Enclosing}
    (hholds : f'.Holds ⟨f.size⟩ x) :
    f'.Stands ⟨f.size⟩ (⟨x.opener, ⟨f.size⟩⟩ :: acts) (x :: around) := by
  have hlt := h.lt_size
  refine .inside ?_ hholds (h.mono ((Grows.child hlt).trans hgrows))
  have hsize : f.size < (f.child e).1.size := by
    rw [size_child hlt]
    omega
  rw [hgrows.parent? ⟨f.size⟩ hsize, parent?_child f e _ hlt, if_pos rfl]

end Stands

end Scopes

namespace Surroundings

variable {around : Surroundings}

/-- What stands at a distance declares the name. -/
theorem getElem?_of_distance? {name : String} {d : Nat} (h : around.distance? name = some d) :
    ∃ x, around[d]? = some x ∧ name ∈ x.declared := by
  obtain ⟨hlt, hmem, -⟩ := List.findIdx?_eq_some_iff_getElem.mp h
  exact ⟨around[d], List.getElem?_eq_getElem hlt, by simpa using hmem⟩

/-- The scopes of the text while the value of a declaration is computed: the name is declared
    already, and may not be bound yet. Elsewhere they are just the scopes around. -/
inductive Computes (around : Surroundings) : Surroundings → Option String → Prop
  | nothing : Computes around around none
  | value {name : String} : Computes around (around.declare name) (around.pending name)

/-- At the distance of a name is a scope that binds it, unless its own value is computed. -/
theorem Computes.binds {f : Scopes} {e : ScopeId} {acts : List Activation} {seen : Surroundings}
    {initializing : Option String} (h : around.Computes seen initializing)
    (hstands : f.Stands e acts around) {name : String} {d : Nat}
    (hdistance : seen.distance? name = some d) :
    ∃ a, acts[d]? = some a ∧
      ((f.binding? a.scope name).isSome ∨ initializing = some name) := by
  have hbound : ∀ d, around.distance? name = some d →
      ∃ a, acts[d]? = some a ∧ (f.binding? a.scope name).isSome := by
    intro d hdistance
    obtain ⟨x, hx, hname⟩ := getElem?_of_distance? hdistance
    obtain ⟨a, ha, hholds⟩ := hstands.holds hx
    exact ⟨a, ha, hholds.declared name hname⟩
  cases h with
  | nothing =>
    obtain ⟨a, ha, hname⟩ := hbound d hdistance
    exact ⟨a, ha, .inl hname⟩
  | @value own =>
    by_cases hown : own = name
    · -- its own scope is the innermost one
      subst hown
      cases hstands with
      | global => cases hdistance
      | @inside e p acts x around =>
        obtain rfl : 0 = d := by
          simpa [declare, distance?, List.findIdx?_cons] using hdistance
        exact ⟨⟨x.opener, e⟩, rfl, .inr rfl⟩
    · rw [distance?_declare hown] at hdistance
      obtain ⟨a, ha, hname⟩ := hbound d hdistance
      exact ⟨a, ha, .inl hname⟩

/-- While the value of a declaration is computed the same scopes are around. -/
theorem Computes.map_opener {seen : Surroundings} {initializing : Option String}
    (h : around.Computes seen initializing) :
    seen.map (·.opener) = around.map (·.opener) := by
  cases h with
  | nothing => rfl
  | value => exact map_opener_declare around _

end Surroundings

end Lox
