import Lox.Machine.Eval
import Lox.Native
import Lox.Proofs.Relabel

/-!
# Machines up to the names of their parts

The functions on a machine are code, so a machine has lines and identities of nodes too; and it has
objects and scopes, which are known by numbers. A `Renaming` changes all of these: lines and
identities are mapped to others, and scopes, instances and objects move up behind those of an
earlier machine. Programs do not notice: the text of a value, whether it is equal to another and the
names that it knows stay the same. Only errors show a line.

## Key results

- `Class.findMethod?_rename`, `Value.text_rename`, `Value.same_rename`: values
- `Scopes.rename_child`, `Scopes.rename_bind`, `Scopes.binding?_rename`: scopes
- `Native.library_uniform`, `Native.clock_uniform`: host functions that do not notice either
-/

namespace Lox

/-! ## Tables -/

namespace NameTable

variable {α β γ : Type}

/-- The table of the same names with other values. -/
def map (f : α → β) (t : NameTable α) : NameTable β :=
  ⟨t.entries.map fun p => (p.1, f p.2)⟩

/-- A table without names stays one without names. -/
@[simp] theorem map_empty (f : α → β) : (empty : NameTable α).map f = empty :=
  rfl

/-- What is found under a name is what was there before, mapped. -/
@[simp] theorem get?_map (f : α → β) (t : NameTable α) (name : String) :
    (t.map f).get? name = (t.get? name).map f := by
  obtain ⟨entries⟩ := t
  show (entries.map fun p => (p.1, f p.2)).lookup name = (entries.lookup name).map f
  induction entries with
  | nil => rfl
  | cons p rest ih =>
    obtain ⟨key, a⟩ := p
    simp only [List.map_cons, List.lookup_cons, ih]
    split <;> rfl

/-- Mapping the values changes no name. -/
@[simp] theorem names_map (f : α → β) (t : NameTable α) : (t.map f).names = t.names := by
  simp [names, map]

/-- Mapping after an insertion is inserting the mapped value. -/
theorem map_insert (f : α → β) (t : NameTable α) (name : String) (a : α) :
    (t.insert name a).map f = (t.map f).insert name (f a) := by
  obtain ⟨entries⟩ := t
  show NameTable.mk ((put name a entries).map fun p => (p.1, f p.2)) =
    ⟨put name (f a) (entries.map fun p => (p.1, f p.2))⟩
  congr 1
  induction entries with
  | nil => rfl
  | cons p rest ih =>
    simp only [List.map_cons, put]
    split
    · rfl
    · rw [List.map_cons, ih]

/-- Mapping a table built from pairs maps the value of each pair. -/
theorem map_ofList (f : α → β) (pairs : List (String × α)) :
    (ofList pairs).map f = ofList (pairs.map fun p => (p.1, f p.2)) := by
  have hfold : ∀ t : NameTable α, (pairs.foldl (fun t p => t.insert p.1 p.2) t).map f =
      (pairs.map fun p => (p.1, f p.2)).foldl (fun t p => t.insert p.1 p.2) (t.map f) := by
    induction pairs with
    | nil => exact fun _ => rfl
    | cons p rest ih =>
      intro t
      rw [List.foldl_cons, ih, map_insert, List.map_cons, List.foldl_cons]
  exact hfold empty

/-- One map of values after another is their composite. -/
@[simp] theorem map_map (g : β → γ) (f : α → β) (t : NameTable α) :
    (t.map f).map g = t.map fun a => g (f a) := by
  simp [map, Function.comp_def]

/-- A map that changes no value changes no table. -/
theorem map_eq_self {f : α → α} {t : NameTable α} (h : ∀ a, f a = a) : t.map f = t := by
  simp [map, h]

end NameTable

/-- Changing an element of an array that is mapped and put behind another one. -/
private theorem Array.append_map_modify {α β : Type} {g : α → β} {f : α → α} {f' : β → β}
    (xs : Array β) (ys : Array α) (i : Nat) (h : ∀ a, g (f a) = f' (g a)) :
    xs ++ (ys.modify i f).map g = (xs ++ ys.map g).modify (xs.size + i) f' := by
  refine Array.ext_getElem? fun j => ?_
  rw [Array.getElem?_modify, Array.getElem?_append, Array.getElem?_append]
  -- what stands in front is never the one that is changed
  by_cases hlt : j < xs.size
  · rw [if_pos hlt, if_pos hlt, if_neg (by omega)]
  · have hj : xs.size + i = j ↔ i = j - xs.size := by omega
    simp only [if_neg hlt, hj, Array.getElem?_map, Array.getElem?_modify]
    split
    · cases ys[j - xs.size]? with
      | none => rfl
      | some a => exact congrArg some (h a)
    · rfl

/-! ## Renamings -/

/-- What there was on an earlier machine, which stays where it is. -/
structure Heap where
  scopes : Scopes
  fields : Fields
  /-- How many functions and classes there were. -/
  objects : Nat

/-- Nothing. -/
def Heap.empty : Heap :=
  ⟨.empty, #[], 0⟩

/-- What lines and identities of nodes are mapped to, and behind what everything else moves. -/
structure Renaming where
  labels : Relabeling
  earlier : Heap

namespace Renaming

/-- Only lines and identities of nodes are mapped. -/
def ofLabels (labels : Relabeling) : Renaming :=
  ⟨labels, .empty⟩

/-- Lines and identities are mapped before the renaming. -/
def after (ρ : Renaming) (labels : Relabeling) : Renaming :=
  ⟨ρ.labels.comp labels, ρ.earlier⟩

/-- The renaming of labels alone does to labels what it was made from. -/
@[simp] theorem labels_ofLabels (labels : Relabeling) : (ofLabels labels).labels = labels :=
  rfl

/-- Renaming after a relabelling first relabels and then does what the renaming does to labels. -/
@[simp] theorem labels_after (ρ : Renaming) (labels : Relabeling) :
    (ρ.after labels).labels = ρ.labels.comp labels :=
  rfl

end Renaming

section Names

variable (ρ : Renaming)

def ScopeId.rename (e : ScopeId) : ScopeId :=
  ⟨ρ.earlier.scopes.size + e.index⟩

def ObjectId.rename (id : ObjectId) : ObjectId :=
  ⟨ρ.earlier.objects + id.index⟩

def InstanceId.rename (id : InstanceId) : InstanceId :=
  ⟨ρ.earlier.fields.size + id.index⟩

variable {ρ}

/-- Two functions or classes that are renamed to the same one are the same. -/
@[simp] theorem ObjectId.rename_inj {id id' : ObjectId} : id.rename ρ = id'.rename ρ ↔ id = id' := by
  cases id
  cases id'
  simp [rename]

/-- Two instances that are renamed to the same one are the same. -/
@[simp] theorem InstanceId.rename_inj {id id' : InstanceId} :
    id.rename ρ = id'.rename ρ ↔ id = id' := by
  cases id
  cases id'
  simp [rename]

variable {r : Relabeling}

/-- A renaming of labels alone leaves the numbers of scopes. -/
@[simp] theorem ScopeId.rename_ofLabels (e : ScopeId) : e.rename (.ofLabels r) = e :=
  congrArg ScopeId.mk (Nat.zero_add e.index)

/-- A renaming of labels alone leaves the numbers of functions and classes. -/
@[simp] theorem ObjectId.rename_ofLabels (id : ObjectId) : id.rename (.ofLabels r) = id :=
  congrArg ObjectId.mk (Nat.zero_add id.index)

/-- A renaming of labels alone leaves the numbers of instances. -/
@[simp] theorem InstanceId.rename_ofLabels (id : InstanceId) : id.rename (.ofLabels r) = id :=
  congrArg InstanceId.mk (Nat.zero_add id.index)

/-- Relabelling first changes nothing about the numbers of scopes. -/
@[simp] theorem ScopeId.rename_after (e : ScopeId) : e.rename (ρ.after r) = e.rename ρ :=
  rfl

/-- Relabelling first changes nothing about the numbers of functions and classes. -/
@[simp] theorem ObjectId.rename_after (id : ObjectId) : id.rename (ρ.after r) = id.rename ρ :=
  rfl

/-- Relabelling first changes nothing about the numbers of instances. -/
@[simp] theorem InstanceId.rename_after (id : InstanceId) : id.rename (ρ.after r) = id.rename ρ :=
  rfl

end Names

/-! ## Values -/

section Values

variable (ρ : Renaming)

/-- A renamed function. -/
def Closure.rename (c : Closure) : Closure where
  id := c.id.rename ρ
  declaration := Stmt.relabelFunction ρ.labels c.declaration
  scope := c.scope.rename ρ
  isInitializer := c.isInitializer

/-- A renamed class. -/
def Class.rename : Class → Class
  | ⟨id, name, none, methods⟩ => ⟨id.rename ρ, name, none, methods.map (Closure.rename ρ)⟩
  | ⟨id, name, some superclass, methods⟩ =>
    ⟨id.rename ρ, name, some superclass.rename, methods.map (Closure.rename ρ)⟩

/-- A renamed value. -/
def Value.rename : Value → Value
  | .function c => .function (c.rename ρ)
  | .class_ c => .class_ (c.rename ρ)
  | .instance_ id c => .instance_ (id.rename ρ) (c.rename ρ)
  | v => v

/-- Relabelling a closure and then renaming it is one renaming. -/
@[simp] theorem Closure.rename_rename (r : Relabeling) (c : Closure) :
    (c.rename (.ofLabels r)).rename ρ = c.rename (ρ.after r) := by
  simp [Closure.rename]

/-- Relabelling a class and then renaming it is one renaming. -/
@[simp] theorem Class.rename_rename (r : Relabeling) (c : Class) :
    (c.rename (.ofLabels r)).rename ρ = c.rename (ρ.after r) := by
  match c with
  | ⟨_, _, none, _⟩ => simp [Class.rename]
  | ⟨_, _, some superclass, _⟩ =>
    have ih := superclass.rename_rename r
    simp [Class.rename, ih]

/-- Relabelling a value and then renaming it is one renaming. -/
@[simp] theorem Value.rename_rename (r : Relabeling) (v : Value) :
    (v.rename (.ofLabels r)).rename ρ = v.rename (ρ.after r) := by
  cases v <;> simp [Value.rename]

/-- A closure of which no label is changed stays as it is. -/
@[simp] theorem Closure.rename_refl (c : Closure) : c.rename (.ofLabels .refl) = c := by
  simp [Closure.rename]

/-- A class of which no label is changed stays as it is. -/
@[simp] theorem Class.rename_refl (c : Class) : c.rename (.ofLabels .refl) = c := by
  match c with
  | ⟨_, _, none, _⟩ => simp [Class.rename, NameTable.map_eq_self]
  | ⟨_, _, some superclass, _⟩ => simp [Class.rename, NameTable.map_eq_self, superclass.rename_refl]

/-- A value of which no label is changed stays as it is. -/
@[simp] theorem Value.rename_refl (v : Value) : v.rename (.ofLabels .refl) = v := by
  cases v <;> simp [Value.rename]

/-- A closure keeps its name, as a token is moved to another line but never respelled. -/
@[simp] theorem Closure.name_rename (c : Closure) : (c.rename ρ).name = c.name := by
  simp [Closure.rename, Closure.name]

/-- A closure keeps its number of parameters. -/
@[simp] theorem Closure.arity_rename (c : Closure) : (c.rename ρ).arity = c.arity := by
  simp [Closure.rename, Closure.arity, FunctionDecl.arity]

/-- The number of a renamed class is the renamed number. -/
@[simp] theorem Class.id_rename (c : Class) : (c.rename ρ).id = c.id.rename ρ := by
  match c with
  | ⟨_, _, none, _⟩ | ⟨_, _, some _, _⟩ => rfl

/-- A class keeps its name. -/
@[simp] theorem Class.name_rename (c : Class) : (c.rename ρ).name = c.name := by
  match c with
  | ⟨_, _, none, _⟩ | ⟨_, _, some _, _⟩ => rfl

/-- The superclass of a renamed class is the renamed superclass. -/
@[simp] theorem Class.superclass_rename (c : Class) :
    (c.rename ρ).superclass = c.superclass.map (Class.rename ρ) := by
  match c with
  | ⟨_, _, none, _⟩ | ⟨_, _, some _, _⟩ => rfl

/-- The methods of a renamed class are the renamed methods under the same names. -/
@[simp] theorem Class.methods_rename (c : Class) :
    (c.rename ρ).methods = c.methods.map (Closure.rename ρ) := by
  match c with
  | ⟨_, _, none, _⟩ | ⟨_, _, some _, _⟩ => rfl

/-- The same methods are found. -/
@[simp] theorem Class.findMethod?_rename (c : Class) (name : String) :
    (c.rename ρ).findMethod? name = (c.findMethod? name).map (Closure.rename ρ) := by
  match c with
  | ⟨_, _, none, methods⟩ =>
    simp only [Class.rename, Class.findMethod?, NameTable.get?_map]
    cases methods.get? name <;> rfl
  | ⟨_, _, some superclass, methods⟩ =>
    simp only [Class.rename, Class.findMethod?, NameTable.get?_map]
    cases methods.get? name with
    | none => exact superclass.findMethod?_rename name
    | some _ => rfl

/-- A class keeps its number of parameters, because its `init` does. -/
@[simp] theorem Class.arity_rename (c : Class) : (c.rename ρ).arity = c.arity := by
  simp only [Class.arity, Class.findMethod?_rename]
  cases c.findMethod? "init" with
  | none => rfl
  | some initializer => exact initializer.arity_rename ρ

/-- A literal holds nothing that could be renamed. -/
@[simp] theorem Value.rename_ofLiteral (value : Literal) :
    (Value.ofLiteral value).rename ρ = .ofLiteral value := by
  cases value <;> rfl

/-- A value is printed the same after a renaming: no number of an object is in its text. -/
@[simp] theorem Value.text_rename (v : Value) : (v.rename ρ).text = v.text := by
  cases v <;> simp [Value.rename, Value.text]

/-- The name of a type does not depend on the numbers of objects. -/
@[simp] theorem Value.typeName_rename (v : Value) : (v.rename ρ).typeName = v.typeName := by
  cases v <;> rfl

/-- Whether a value is true does not depend on the numbers of objects. -/
@[simp] theorem Value.isTruthy_rename (v : Value) : (v.rename ρ).isTruthy = v.isTruthy := by
  cases v <;> rfl

/-- What can be called stays so, with as many parameters. -/
@[simp] theorem Value.arity?_rename (v : Value) : (v.rename ρ).arity? = v.arity? := by
  cases v <;> simp [Value.rename, Value.arity?]

/-- Two values are equal exactly if they are under other names. -/
@[simp] theorem Value.same_rename (v w : Value) : (v.rename ρ).same (w.rename ρ) = v.same w := by
  cases v <;> cases w <;> simp [Value.rename, Value.same, Closure.rename]

/-- Operators do not look at names. -/
theorem applyUnary_rename (operator : TokenKind) (v : Value) :
    applyUnary operator (v.rename ρ) = (applyUnary operator v).map (Value.rename ρ) := by
  by_cases hbang : operator = .bang
  · rw [hbang, applyUnary, Value.isTruthy_rename]
    rfl
  · by_cases hminus : operator = .minus
    · rw [hminus]
      cases v <;> rfl
    -- any other operator fails, whatever the operand is
    · have hinvalid : ∀ w, applyUnary operator w = .error .invalidUnary := by
        intro w
        unfold applyUnary
        split <;> simp_all
      rw [hinvalid, hinvalid]
      rfl

/-- Arithmetic on numbers yields numbers, booleans or an error, in which nothing is renamed. -/
theorem applyNumeric_rename (operator : TokenKind) (a b : Float) :
    (applyNumeric operator a b).map (Value.rename ρ) = applyNumeric operator a b := by
  unfold applyNumeric
  split <;> rfl

/-- An operator on renamed operands has the renamed result, and fails with the same message. -/
theorem applyBinary_rename (operator : TokenKind) (v w : Value) :
    applyBinary operator (v.rename ρ) (w.rename ρ) =
      (applyBinary operator v w).map (Value.rename ρ) := by
  unfold applyBinary
  -- addition looks at strings and numbers, equality at identities, the rest at numbers
  split
  · cases v <;> cases w <;> rfl
  · rw [Value.same_rename]
    rfl
  · rw [Value.same_rename]
    rfl
  · cases v with
    | number a =>
      cases w with
      | number b => exact (applyNumeric_rename ρ operator a b).symm
      | _ => rfl
    | _ => rfl

/-- Whether `and` and `or` stop at their left operand does not depend on the numbers of objects. -/
@[simp] theorem decidedByLeft_rename (operator : TokenKind) (v : Value) :
    decidedByLeft operator (v.rename ρ) = decidedByLeft operator v := by
  simp [decidedByLeft]

end Values

/-! ## Scopes -/

section Scopes

variable (ρ : Renaming)

/-- A binding of a renamed value. -/
def Binding.rename : Binding → Binding
  | .uninitialized => .uninitialized
  | .value v => .value (v.rename ρ)

/-- A renamed scope. -/
def Scope.rename (s : Scope) : Scope :=
  ⟨s.parent.map (ScopeId.rename ρ), s.bindings.map (Binding.rename ρ)⟩

/-- Relabelling a binding and then renaming it is one renaming. -/
@[simp] theorem Binding.rename_rename (r : Relabeling) (b : Binding) :
    (b.rename (.ofLabels r)).rename ρ = b.rename (ρ.after r) := by
  cases b <;> simp [Binding.rename]

/-- A binding of which no label is changed stays as it is. -/
@[simp] theorem Binding.rename_refl (b : Binding) : b.rename (.ofLabels .refl) = b := by
  cases b <;> simp [Binding.rename]

/-- Relabelling a scope and then renaming it is one renaming. -/
@[simp] theorem Scope.rename_rename (r : Relabeling) (s : Scope) :
    (s.rename (.ofLabels r)).rename ρ = s.rename (ρ.after r) := by
  simp only [Scope.rename, Option.map_map, Function.comp_def, NameTable.map_map,
    Binding.rename_rename, ScopeId.rename_ofLabels]
  rfl

/-- A scope of which no label is changed stays as it is. -/
@[simp] theorem Scope.rename_refl (s : Scope) : s.rename (.ofLabels .refl) = s := by
  have hparent : s.parent.map (ScopeId.rename (.ofLabels .refl)) = s.parent := by
    cases s.parent <;> simp
  rw [Scope.rename, hparent, NameTable.map_eq_self Binding.rename_refl]

namespace Scopes

/-- A forest is its array of scopes. -/
theorem ext_scopes {f g : Scopes} (h : f.scopes = g.scopes) : f = g := by
  cases f
  cases g
  cases h
  rfl

/-- Renamed scopes, behind the earlier ones. -/
def rename (f : Scopes) : Scopes where
  scopes := ρ.earlier.scopes.scopes ++ f.scopes.map (Scope.rename ρ)
  parent_lt := by
    intro i hi p hp
    rw [Array.getElem_append] at hp
    split at hp
    · exact ρ.earlier.scopes.parent_lt i _ p hp
    · rw [Array.getElem_map] at hp
      obtain ⟨q, hq, rfl⟩ := Option.map_eq_some_iff.mp hp
      have hlt := f.parent_lt _ _ q hq
      show ρ.earlier.scopes.scopes.size + q.index < i
      omega

/-- Relabelling a forest and then renaming it is one renaming. -/
@[simp] theorem rename_rename (r : Relabeling) (f : Scopes) :
    (f.rename (.ofLabels r)).rename ρ = f.rename (ρ.after r) := by
  refine ext_scopes ?_
  show _ ++ (#[] ++ f.scopes.map _).map _ = _ ++ f.scopes.map _
  simp only [Array.empty_append, Array.map_map, Function.comp_def, Scope.rename_rename]
  rfl

/-- A forest of which no label is changed stays as it is. -/
@[simp] theorem rename_refl (f : Scopes) : f.rename (.ofLabels .refl) = f := by
  refine ext_scopes ?_
  show #[] ++ f.scopes.map _ = f.scopes
  exact Array.ext (by simp) fun i _ _ => by simp

/-- The renamed scopes are put behind the earlier ones. -/
@[simp] theorem size_rename (f : Scopes) : (f.rename ρ).size = ρ.earlier.scopes.size + f.size := by
  show (ρ.earlier.scopes.scopes ++ f.scopes.map _).size = _
  rw [Array.size_append, Array.size_map]

/-- A scope is found behind the earlier ones. -/
theorem getElem?_rename (f : Scopes) (e : ScopeId) :
    (f.rename ρ).scopes[(e.rename ρ).index]? = f.scopes[e.index]?.map (Scope.rename ρ) := by
  have hle : ρ.earlier.scopes.scopes.size ≤ ρ.earlier.scopes.scopes.size + e.index := by omega
  show (ρ.earlier.scopes.scopes ++ f.scopes.map (Scope.rename ρ))[
    ρ.earlier.scopes.scopes.size + e.index]? = _
  rw [Array.getElem?_append_right hle, Nat.add_sub_cancel_left, Array.getElem?_map]

/-- A scope is in the forest just if the renamed one is in the renamed forest. -/
theorem rename_lt_size (f : Scopes) (e : ScopeId) :
    (e.rename ρ).index < (f.rename ρ).size ↔ e.index < f.size := by
  rw [size_rename]
  exact Nat.add_lt_add_iff_left

/-- The parent of a renamed scope is the renamed parent. -/
@[simp] theorem parent?_rename (f : Scopes) (e : ScopeId) :
    (f.rename ρ).parent? (e.rename ρ) = (f.parent? e).map (ScopeId.rename ρ) := by
  rw [parent?, getElem?_rename, parent?]
  cases f.scopes[e.index]? <;> rfl

/-- A renamed scope has the same names, with renamed bindings. -/
@[simp] theorem binding?_rename (f : Scopes) (e : ScopeId) (name : String) :
    (f.rename ρ).binding? (e.rename ρ) name = (f.binding? e name).map (Binding.rename ρ) := by
  rw [binding?, getElem?_rename, binding?]
  cases f.scopes[e.index]? with
  | none => rfl
  | some s => exact NameTable.get?_map ..

/-- A new scope takes the next number, before and after a renaming. -/
theorem rename_new (f : Scopes) :
    (f.rename ρ).new = (f.new.1.rename ρ, f.new.2.rename ρ) := by
  refine Prod.ext (ext_scopes ?_) ?_
  · show (ρ.earlier.scopes.scopes ++ f.scopes.map (Scope.rename ρ)).push ⟨none, .empty⟩ =
      ρ.earlier.scopes.scopes ++ (f.scopes.push ⟨none, .empty⟩).map (Scope.rename ρ)
    rw [Array.map_push, Array.append_push]
    rfl
  · exact congrArg ScopeId.mk (size_rename ρ f)

/-- A new scope inside another is inside the renamed one after a renaming. -/
theorem rename_child (f : Scopes) (e : ScopeId) :
    (f.rename ρ).child (e.rename ρ) = ((f.child e).1.rename ρ, (f.child e).2.rename ρ) := by
  -- a child of a scope that there is not is a root
  by_cases h : e.index < f.size
  · rw [child, child, dif_pos h, dif_pos ((rename_lt_size ρ f e).mpr h)]
    refine Prod.ext (ext_scopes ?_) ?_
    · show (ρ.earlier.scopes.scopes ++ f.scopes.map (Scope.rename ρ)).push
          ⟨some (e.rename ρ), .empty⟩ =
        ρ.earlier.scopes.scopes ++ (f.scopes.push ⟨some e, .empty⟩).map (Scope.rename ρ)
      rw [Array.map_push, Array.append_push]
      rfl
    · exact congrArg ScopeId.mk (size_rename ρ f)
  · rw [child, child, dif_neg h, dif_neg (mt (rename_lt_size ρ f e).mp h)]
    exact rename_new ρ f

/-- Binding a name and renaming is renaming and binding it. -/
theorem rename_bind (f : Scopes) (e : ScopeId) (name : String) (b : Binding) :
    (f.bind e name b).rename ρ = (f.rename ρ).bind (e.rename ρ) name (b.rename ρ) := by
  refine ext_scopes ?_
  simp only [rename, bind]
  refine Array.append_map_modify _ _ _ fun s => ?_
  simp only [Scope.rename, NameTable.map_insert]

/-- Defining a name and renaming is renaming and defining it. -/
theorem rename_define (f : Scopes) (e : ScopeId) (name : String) (v : Value) :
    (f.define e name v).rename ρ = (f.rename ρ).define (e.rename ρ) name (v.rename ρ) :=
  rename_bind ρ f e name (.value v)

/-- Declaring a name and renaming is renaming and declaring it. -/
theorem rename_declare (f : Scopes) (e : ScopeId) (name : String) :
    (f.declare e name).rename ρ = (f.rename ρ).declare (e.rename ρ) name :=
  rename_bind ρ f e name .uninitialized

/-- So many scopes up from a renamed scope is the renamed one from so many up. -/
@[simp] theorem ancestor?_rename (f : Scopes) (e : ScopeId) (distance : Nat) :
    (f.rename ρ).ancestor? (e.rename ρ) distance =
      (f.ancestor? e distance).map (ScopeId.rename ρ) := by
  induction distance generalizing e with
  | zero =>
    simp only [ancestor?, rename_lt_size]
    split <;> rfl
  | succ distance ih =>
    -- the parents are renamed with the scopes, so each step goes to the renamed scope
    simp only [ancestor?, parent?_rename]
    cases f.parent? e with
    | none => rfl
    | some p => exact ih p

/-- A lookup at a distance finds the renamed binding. -/
@[simp] theorem getAt?_rename (f : Scopes) (e : ScopeId) (distance : Nat) (name : String) :
    (f.rename ρ).getAt? (e.rename ρ) distance name =
      (f.getAt? e distance name).map (Binding.rename ρ) := by
  simp only [getAt?, ancestor?_rename]
  cases f.ancestor? e distance with
  | none => rfl
  | some e => exact binding?_rename ρ f e name

/-- A search walks through the same scopes. -/
theorem chain_rename (f : Scopes) (e : ScopeId) :
    (f.rename ρ).chain (e.rename ρ) = (f.chain e).map (ScopeId.rename ρ) := by
  by_cases h : e.index < f.size
  · rw [chain_eq _ _ ((rename_lt_size ρ f e).mpr h), chain_eq f e h, parent?_rename]
    cases hp : f.parent? e with
    | none => rfl
    | some p =>
      -- the way outward goes to scopes that were opened before
      have hlt : p.index < e.index := by
        rw [parent?, Array.getElem?_eq_getElem h] at hp
        exact f.parent_lt e.index h p hp
      have ih := chain_rename f p
      simp [ih]
  · rw [chain, chain, dif_neg h, dif_neg (mt (rename_lt_size ρ f e).mp h)]
    rfl
termination_by e.index

/-- A lookup along the chain of scopes finds the renamed binding. -/
theorem get?_rename (f : Scopes) (e : ScopeId) (name : String) :
    (f.rename ρ).get? (e.rename ρ) name = (f.get? e name).map (Binding.rename ρ) := by
  rw [get?, chain_rename, get?]
  induction f.chain e with
  | nil => rfl
  | cons e' rest ih =>
    simp only [List.map_cons, List.findSome?_cons, binding?_rename]
    cases f.binding? e' name with
    | none => exact ih
    | some b => rfl

end Scopes

end Scopes

/-! ## Fields and machines -/

section Machines

variable (ρ : Renaming)

namespace Fields

/-- Renamed fields, behind the earlier ones. -/
def rename (fields : Fields) : Fields :=
  ρ.earlier.fields ++ fields.map (NameTable.map (Value.rename ρ))

/-- Relabelling the fields and then renaming them is one renaming. -/
@[simp] theorem rename_rename (r : Relabeling) (fields : Fields) :
    Fields.rename ρ (Fields.rename (.ofLabels r) fields) = Fields.rename (ρ.after r) fields := by
  show _ ++ (#[] ++ fields.map _).map _ = _ ++ fields.map _
  simp only [Array.empty_append, Array.map_map, Function.comp_def, NameTable.map_map,
    Value.rename_rename]
  rfl

/-- Fields of which no label is changed stay as they are. -/
@[simp] theorem rename_refl (fields : Fields) : fields.rename (.ofLabels .refl) = fields := by
  show #[] ++ fields.map _ = fields
  exact Array.ext (by simp) fun i _ _ => by simp [NameTable.map_eq_self]

/-- The fields of renamed instances stand behind those of the earlier ones. -/
theorem size_rename (fields : Fields) :
    (fields.rename ρ).size = ρ.earlier.fields.size + fields.size := by
  simp [rename]

/-- A renamed instance has the same fields, with renamed values. -/
theorem getD_rename (fields : Fields) (id : InstanceId) :
    (fields.rename ρ).getD (id.rename ρ).index .empty =
      (fields.getD id.index .empty).map (Value.rename ρ) := by
  have hle : ρ.earlier.fields.size ≤ ρ.earlier.fields.size + id.index := by omega
  show (ρ.earlier.fields ++ fields.map _).getD (ρ.earlier.fields.size + id.index) .empty = _
  rw [Array.getD_eq_getD_getElem?, Array.getD_eq_getD_getElem?, Array.getElem?_append_right hle,
    Nat.add_sub_cancel_left, Array.getElem?_map]
  cases fields[id.index]? <;> rfl

/-- A new instance without fields is new after a renaming, too. -/
theorem rename_push (fields : Fields) :
    Fields.rename ρ (fields.push .empty) = (fields.rename ρ).push .empty := by
  simp [rename]

/-- Setting a field and renaming is renaming and setting the field of the renamed instance. -/
theorem rename_modify (fields : Fields) (id : InstanceId) (name : String) (v : Value) :
    Fields.rename ρ (fields.modify id.index fun t => t.insert name v) =
      (fields.rename ρ).modify (id.rename ρ).index fun t => t.insert name (v.rename ρ) := by
  exact Array.append_map_modify _ _ _ fun t => NameTable.map_insert _ t name v

end Fields

namespace Machine

/-- A renamed machine. The distances stay recorded for the identities for which they are. -/
def rename (m : Machine) : Machine where
  scopes := m.scopes.rename ρ
  globals := m.globals.rename ρ
  current := m.current.rename ρ
  callLine := ρ.labels.line m.callLine
  distances := m.distances
  fields := m.fields.rename ρ
  nextObject := ρ.earlier.objects + m.nextObject
  natives := m.natives
  clock := m.clock
  sink := m.sink

/-- Relabelling a machine and then renaming it is one renaming. -/
@[simp] theorem rename_rename (r : Relabeling) (m : Machine) :
    (m.rename (.ofLabels r)).rename ρ = m.rename (ρ.after r) := by
  have hobjects : ρ.earlier.objects + (0 + m.nextObject) = ρ.earlier.objects + m.nextObject := by
    omega
  simp only [rename, Scopes.rename_rename, Fields.rename_rename, ScopeId.rename_ofLabels]
  exact congrArg (fun n => { m.rename (ρ.after r) with nextObject := n }) hobjects

/-- A machine of which no label is changed stays as it is. -/
@[simp] theorem rename_refl (m : Machine) : m.rename (.ofLabels .refl) = m := by
  simp only [rename, Scopes.rename_refl, Fields.rename_refl, ScopeId.rename_ofLabels]
  exact congrArg (fun n => { m with nextObject := n }) (Nat.zero_add m.nextObject)

end Machine

end Machines

/-! ## Host functions -/

/-- A host function computes from the time, its arguments and their fields alone: under other names
    it yields the same, or fails in the same way. -/
def Native.Uniform (n : Native) : Prop :=
  ∀ (ρ : Renaming) (now : Float) (fields : Fields) (arguments : List Value),
    n.run now (fields.rename ρ) (arguments.map (Value.rename ρ)) =
      (n.run now fields arguments).map (Value.rename ρ)

namespace NativeFunction

variable (ρ : Renaming)

/-- What is computed from an argument does not depend on its names if the rest does not. -/
private theorem argument_bind_rename {arguments : List Value} {f f' : Value → Except String Value}
    (hf : ∀ v, f' (v.rename ρ) = (f v).map (Value.rename ρ)) (i : Nat) :
    (argument (arguments.map (Value.rename ρ)) i >>= f') =
      (argument arguments i >>= f).map (Value.rename ρ) := by
  unfold argument
  rw [List.getElem?_map]
  cases arguments[i]? with
  | none => rfl
  | some v => exact hf v

/-- `debug` writes the same texts and returns the renamed value. -/
private theorem debug_rename (now : Float) (fields : Fields) (arguments : List Value) :
    debug now (fields.rename ρ) (arguments.map (Value.rename ρ)) =
      (debug now fields arguments).map (Value.rename ρ) := by
  refine argument_bind_rename ρ (fun v => ?_) 0
  cases v with
  | function c =>
    simp only [Value.rename, Closure.name_rename, Closure.arity_rename]
    rfl
  | class_ c =>
    simp only [Value.rename, Class.name_rename, Class.superclass_rename, Class.methods_rename,
      NameTable.names_map]
    -- the text shows the name of the superclass if there is one
    cases c.superclass with
    | none => rfl
    | some superclass =>
      simp only [Option.map_some, Class.name_rename]
      rfl
  | instance_ id c =>
    simp only [Value.rename, Class.name_rename, Fields.getD_rename, NameTable.names_map]
    rfl
  | _ => rfl

/-- Arguments are printed the same after a renaming. -/
private theorem map_text_rename (arguments : List Value) :
    (arguments.map (Value.rename ρ)).map (·.text) = arguments.map (·.text) := by
  simp [Function.comp_def]

/-- No function of the library looks at names. -/
theorem library_rename {entry : String × NativeFunction} (h : entry ∈ library) (now : Float)
    (fields : Fields) (arguments : List Value) :
    entry.2 now (fields.rename ρ) (arguments.map (Value.rename ρ)) =
      (entry.2 now fields arguments).map (Value.rename ρ) := by
  simp only [library, List.mem_cons, List.not_mem_nil, or_false] at h
  rcases h with rfl | rfl | rfl | rfl | rfl | rfl | rfl | rfl | rfl
  · refine argument_bind_rename ρ (fun v => ?_) 0
    cases v <;> rfl
  · simp only [display, map_text_rename]
    rfl
  · refine argument_bind_rename ρ (fun v => ?_) 0
    rw [Value.typeName_rename]
    rfl
  · refine argument_bind_rename ρ (fun v => ?_) 0
    rw [Value.isTruthy_rename]
    rfl
  · refine argument_bind_rename ρ (fun v => ?_) 0
    refine argument_bind_rename ρ (fun w => ?_) 1
    rw [Value.same_rename]
    rfl
  · refine argument_bind_rename ρ (fun v => ?_) 0
    rw [Value.arity?_rename]
    cases v.arity? <;> rfl
  · simp only [last, List.getLast?_map]
    cases arguments.getLast? <;> rfl
  · simp only [fail, map_text_rename]
    rfl
  -- the description of a value is the only one that looks at fields
  · exact debug_rename ρ now fields arguments

end NativeFunction

namespace Native

/-- The functions of the library look at no names, whatever they are called themselves. -/
theorem library_uniform {entry : String × NativeFunction} (h : entry ∈ NativeFunction.library)
    (name : String) (arity : Nat) : Uniform ⟨name, arity, entry.2⟩ :=
  fun ρ now fields arguments => NativeFunction.library_rename ρ h now fields arguments

/-- The clock only looks at the time. -/
theorem clock_uniform : clock.Uniform :=
  fun _ _ _ _ => rfl

end Native

end Lox
