/-!
# Tables from names

A finite map from names, as a list of pairs in the order in which the names came into it. What a
table holds is seen through `get?`; `get?_insert` says what inserting does to it.
-/

namespace Lox

/-- A finite map from names. -/
structure NameTable (α : Type) where
  entries : List (String × α)

namespace NameTable

variable {α : Type}

/-- The table without names. -/
def empty : NameTable α :=
  ⟨[]⟩

instance : Inhabited (NameTable α) :=
  ⟨empty⟩

/-- Replaces the first pair with this name, or adds one. -/
def put (name : String) (value : α) : List (String × α) → List (String × α)
  | [] => [(name, value)]
  | (key, old) :: rest =>
    if key = name then (key, value) :: rest else (key, old) :: put name value rest

/-- What a name stands for. -/
def get? (t : NameTable α) (name : String) : Option α :=
  t.entries.lookup name

/-- Is the name in the table? -/
def contains (t : NameTable α) (name : String) : Bool :=
  (t.get? name).isSome

/-- Makes a name stand for a value. -/
def insert (t : NameTable α) (name : String) (value : α) : NameTable α :=
  ⟨put name value t.entries⟩

/-- The names in the table, in the order in which they came into it. -/
def names (t : NameTable α) : List String :=
  t.entries.map (·.1)

/-- The table of some pairs, of which later ones count. -/
def ofList (pairs : List (String × α)) : NameTable α :=
  pairs.foldl (fun t p => t.insert p.1 p.2) empty

/-- In the empty table no name is found. -/
@[simp] theorem get?_empty (name : String) : (empty : NameTable α).get? name = none :=
  rfl

/-- What is found in a list of pairs after one has been put into it. -/
private theorem lookup_put (name other : String) (value : α) (pairs : List (String × α)) :
    (put name value pairs).lookup other =
      if name = other then some value else pairs.lookup other := by
  induction pairs with
  | nil => simp only [put, List.lookup_cons, List.lookup_nil]; grind
  | cons pair rest ih =>
    obtain ⟨key, old⟩ := pair
    simp only [put]
    split <;> simp only [List.lookup_cons] <;> grind

/-- Inserting changes what one name stands for. -/
@[simp] theorem get?_insert (t : NameTable α) (name other : String) (value : α) :
    (t.insert name value).get? other = if name = other then some value else t.get? other :=
  lookup_put name other value t.entries

end NameTable

end Lox
