import Lox.Syntax

/-!
# Recorded distances

The distances of the local references of all programs resolved so far, by the identity of the
referring node. What is recorded is seen through `get?`; `get?_insert` says what recording does.
-/

namespace Lox

/-- The distances of referring nodes. -/
structure Distances where
  table : Array (Option Nat)

namespace Distances

/-- Nothing is recorded. -/
def empty : Distances :=
  ⟨#[]⟩

/-- The distance of a node. -/
def get? (t : Distances) (id : NodeId) : Option Nat :=
  t.table[id.index]?.join

/-- Records the distance of a node. -/
def insert (t : Distances) (id : NodeId) (distance : Nat) : Distances :=
  let room := t.table ++ Array.replicate (id.index + 1 - t.table.size) none
  ⟨room.setIfInBounds id.index (some distance)⟩

/-- Records the distances of several nodes. -/
def insertAll (t : Distances) (entries : List (NodeId × Nat)) : Distances :=
  entries.foldl (fun t entry => t.insert entry.1 entry.2) t

/-- In the empty table no distance is found. -/
@[simp] theorem get?_empty (id : NodeId) : empty.get? id = none := by
  simp [get?, empty]

/-- Recording changes the distance of one node. -/
@[simp] theorem get?_insert (t : Distances) (id other : NodeId) (distance : Nat) :
    (t.insert id distance).get? other = if id = other then some distance else t.get? other := by
  have hsize : (t.table ++ Array.replicate (id.index + 1 - t.table.size) none).size =
      max t.table.size (id.index + 1) := by
    rw [Array.size_append, Array.size_replicate]
    omega
  simp only [get?, insert, Array.getElem?_setIfInBounds, hsize]
  by_cases h : id = other
  · subst h
    rw [if_pos rfl, if_pos rfl, if_pos (by omega)]
    rfl
  · have hi : id.index ≠ other.index := fun hi => h (by cases id; cases other; simp_all)
    rw [if_neg hi, if_neg h, Array.getElem?_append]
    split
    · rfl
    · rename_i hlt
      rw [Array.getElem?_replicate, Array.getElem?_eq_none (Nat.le_of_not_lt hlt)]
      split <;> rfl

end Distances

end Lox
