import Lox.Value

/-!
# Scopes

A scope binds names and may be enclosed by another one. All scopes ever opened form a forest; a
scope is known by its place in the order of opening, so the one that encloses it has a smaller
place (`Scopes.parent_lt`) and walking outward ends.

There are two ways to address a name. `get?` and `assign?` search outward from a scope for the
nearest one that binds it; `getAt?` and `assignAt?` walk a given number of links and look at exactly
the scope they reach.

The forest is seen through `size`, `parent?` and `binding?`. Main statements: `binding?_bind`,
`parent?_bind`, `binding?_child` and `parent?_child` say what the operations do to them, and
`chain_eq` how a search walks outward.
-/

namespace Lox

/-- What a name is bound to. -/
inductive Binding where
  | uninitialized
  | value (v : Value)

/-- The bindings of one scope, and the scope that encloses it. -/
structure Scope where
  parent : Option ScopeId
  bindings : NameTable Binding

/-- All scopes in the order in which they were opened. -/
structure Scopes where
  scopes : Array Scope
  parent_lt : ∀ (i : Nat) (h : i < scopes.size) (p : ScopeId),
    scopes[i].parent = some p → p.index < i

namespace Scopes

/-- No scopes. -/
def empty : Scopes :=
  ⟨#[], by simp⟩

/-- The number of scopes opened so far. -/
abbrev size (f : Scopes) : Nat :=
  f.scopes.size

/-- The scope that encloses a scope. -/
def parent? (f : Scopes) (e : ScopeId) : Option ScopeId :=
  f.scopes[e.index]?.bind (·.parent)

/-- What a name is bound to in a scope itself. -/
def binding? (f : Scopes) (e : ScopeId) (name : String) : Option Binding :=
  f.scopes[e.index]?.bind (·.bindings.get? name)

/-- Opens a scope that a scope opened before encloses. -/
def push (f : Scopes) (parent : Option ScopeId)
    (h : ∀ p, parent = some p → p.index < f.size) : Scopes where
  scopes := f.scopes.push ⟨parent, .empty⟩
  parent_lt := by
    intro i hi p hp
    rw [Array.getElem_push] at hp
    split at hp
    · exact f.parent_lt i _ p hp
    · exact Nat.lt_of_lt_of_le (h p hp) (Nat.le_of_not_lt ‹_›)

/-- Opens a scope that no other encloses. -/
def new (f : Scopes) : Scopes × ScopeId :=
  (f.push none (by simp), ⟨f.size⟩)

/-- Opens a scope inside another. -/
def child (f : Scopes) (e : ScopeId) : Scopes × ScopeId :=
  if h : e.index < f.size then
    (f.push (some e) (by rintro p ⟨⟩; exact h), ⟨f.size⟩)
  else
    f.new

/-- Binds a name in a scope. -/
def bind (f : Scopes) (e : ScopeId) (name : String) (b : Binding) : Scopes where
  scopes := f.scopes.modify e.index fun s => { s with bindings := s.bindings.insert name b }
  parent_lt := by
    intro i hi p hp
    rw [Array.getElem_modify] at hp
    split at hp
    · exact f.parent_lt i _ p hp
    · exact f.parent_lt i _ p hp

/-- Declares a name in a scope, without a value. -/
def declare (f : Scopes) (e : ScopeId) (name : String) : Scopes :=
  f.bind e name .uninitialized

/-- Gives a name a value in a scope. -/
def define (f : Scopes) (e : ScopeId) (name : String) (v : Value) : Scopes :=
  f.bind e name (.value v)

/-- A scope and those that enclose it, innermost first. -/
def chain (f : Scopes) (e : ScopeId) : List ScopeId :=
  if h : e.index < f.size then
    match hp : f.scopes[e.index].parent with
    | none => [e]
    | some p => e :: f.chain p
  else
    []
termination_by e.index
decreasing_by exact f.parent_lt e.index h p hp

/-- What a name is bound to in the nearest scope that binds it. -/
def get? (f : Scopes) (e : ScopeId) (name : String) : Option Binding :=
  (f.chain e).findSome? fun e => f.binding? e name

/-- Is a name bound in a scope or one that encloses it? -/
def isDefined (f : Scopes) (e : ScopeId) (name : String) : Bool :=
  (f.chain e).any fun e => (f.binding? e name).isSome

/-- Has a name a value in the nearest scope that binds it? -/
def isInitialized (f : Scopes) (e : ScopeId) (name : String) : Bool :=
  match f.get? e name with
  | some (.value _) => true
  | _ => false

/-- Gives a name a value in the nearest scope that binds it; none does if the name is unknown. -/
def assign? (f : Scopes) (e : ScopeId) (name : String) (v : Value) : Option Scopes :=
  ((f.chain e).find? fun e => (f.binding? e name).isSome).map fun e => f.define e name v

/-- The scope that is reached by so many links outward. -/
def ancestor? (f : Scopes) (e : ScopeId) : (distance : Nat) → Option ScopeId
  | 0 => if e.index < f.size then some e else none
  | distance + 1 =>
    match f.parent? e with
    | some p => f.ancestor? p distance
    | none => none

/-- What a name is bound to in the scope that is so many links away. -/
def getAt? (f : Scopes) (e : ScopeId) (distance : Nat) (name : String) : Option Binding :=
  (f.ancestor? e distance).bind fun e => f.binding? e name

/-- Gives a name a value in the scope that is so many links away; fails if there is none. -/
def assignAt? (f : Scopes) (e : ScopeId) (distance : Nat) (name : String) (v : Value) :
    Option Scopes :=
  (f.ancestor? e distance).map fun e => f.define e name v

/-! ### What the operations do to parents and bindings -/

/-- What the forest holds after a name has been bound. -/
private theorem getElem?_bind (f : Scopes) (e e' : ScopeId) (name : String) (b : Binding) :
    (f.bind e name b).scopes[e'.index]? =
      (f.scopes[e'.index]?).map fun s =>
        if e = e' then { s with bindings := s.bindings.insert name b } else s := by
  have hi : e.index = e'.index ↔ e = e' := by cases e; cases e'; simp
  simp only [bind, Array.getElem?_modify, hi]
  split
  · rfl
  · simp

/-- Binding a name moves no scope. -/
@[simp] theorem parent?_bind (f : Scopes) (e e' : ScopeId) (name : String) (b : Binding) :
    (f.bind e name b).parent? e' = f.parent? e' := by
  rw [parent?, getElem?_bind, parent?]
  cases f.scopes[e'.index]? with
  | none => rfl
  | some s =>
    simp only [Option.map_some, Option.bind_some]
    split <;> rfl

/-- Binding a name in a scope changes what this name is bound to there, and nothing else. -/
theorem binding?_bind (f : Scopes) (e e' : ScopeId) (name name' : String) (b : Binding) :
    (f.bind e name b).binding? e' name' =
      if e = e' ∧ name = name' ∧ e.index < f.size then some b else f.binding? e' name' := by
  rw [binding?, getElem?_bind, binding?]
  by_cases he : e = e'
  · subst he
    by_cases hlt : e.index < f.size
    · have : f.scopes[e.index]? = some f.scopes[e.index] := Array.getElem?_eq_getElem hlt
      simp only [this, Option.map_some, Option.bind_some, if_true, NameTable.get?_insert]
      by_cases hn : name = name' <;> simp [hn, hlt]
    · simp [hlt]
  · simp [he]

/-- Binding a name opens no scope. -/
@[simp] theorem size_bind (f : Scopes) (e : ScopeId) (name : String) (b : Binding) :
    (f.bind e name b).size = f.size := by
  simp [size, bind]

/-- What the forest holds after a scope has been opened inside another. -/
private theorem getElem?_child (f : Scopes) (e e' : ScopeId) (h : e.index < f.size) :
    (f.child e).1.scopes[e'.index]? =
      if e'.index = f.size then some ⟨some e, .empty⟩ else f.scopes[e'.index]? := by
  rw [child, dif_pos h]
  exact Array.getElem?_push

/-- A new scope is enclosed by the one that it was opened in. -/
theorem parent?_child (f : Scopes) (e e' : ScopeId) (h : e.index < f.size) :
    (f.child e).1.parent? e' = if e'.index = f.size then some e else f.parent? e' := by
  rw [parent?, getElem?_child f e e' h]
  split <;> rfl

/-- A new scope binds nothing. -/
theorem binding?_child (f : Scopes) (e e' : ScopeId) (name : String) (h : e.index < f.size) :
    (f.child e).1.binding? e' name = f.binding? e' name := by
  rw [binding?, getElem?_child f e e' h, binding?]
  split
  · rename_i he
    rw [Array.getElem?_eq_none (Nat.le_of_eq he.symm)]
    rfl
  · rfl

/-- The chain of a scope is the scope and the chain of the one that encloses it. -/
theorem chain_eq (f : Scopes) (e : ScopeId) (h : e.index < f.size) :
    f.chain e = e :: ((f.parent? e).map f.chain).getD [] := by
  have hp : f.parent? e = f.scopes[e.index].parent := by
    rw [parent?, Array.getElem?_eq_getElem h]
    rfl
  rw [chain, dif_pos h, hp]
  split <;> (rename_i heq; rw [heq]; rfl)

end Scopes

end Lox
