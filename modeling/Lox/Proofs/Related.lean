import Mathlib.Data.List.Forall2
import Lox.Native
import Lox.Proofs.Legal

/-!
# Values with different code

Two values are related if they are the same up to the code of the functions in them. Of a function a
run only looks at the code when it calls it: its name, the number of its parameters and its identity
are all that printing, comparing and the host's functions see.

## Key results

- `Value.Related.text`, `Value.Related.same`: printing and comparing do not look at code
- `Native.library_codeBlind`, `Native.clock_codeBlind`: nor do functions of the host
-/

namespace Lox

/-! ## Tables -/

namespace NameTable

variable {α : Type} {R S : α → α → Prop} {t t' : NameTable α}

/-- Two tables have the same names in the same order, and these stand for related things. -/
structure Related (R : α → α → Prop) (t t' : NameTable α) : Prop where
  names : t'.names = t.names
  get? : ∀ name, Option.Rel R (t.get? name) (t'.get? name)

/-- Tables without names are related in any way. -/
theorem Related.empty : Related R empty empty :=
  ⟨rfl, fun _ => .none⟩

/-- What relates the values of tables may be weakened. -/
theorem Related.mono (h : Related R t t') (hS : ∀ a a', R a a' → S a a') : Related S t t' := by
  refine ⟨h.names, fun name => ?_⟩
  have hget := h.get? name
  generalize t.get? name = o at hget
  generalize t'.get? name = o' at hget
  cases hget with
  | none => exact .none
  | some ha => exact .some (hS _ _ ha)

/-- A name that is new comes behind the others. -/
theorem names_insert (t : NameTable α) (name : String) (a : α) :
    (t.insert name a).names = if name ∈ t.names then t.names else t.names ++ [name] := by
  obtain ⟨entries⟩ := t
  show (put name a entries).map (·.1) = if name ∈ entries.map (·.1) then entries.map (·.1) else _
  induction entries with
  | nil => rfl
  | cons p rest ih =>
    obtain ⟨key, old⟩ := p
    rw [put]
    -- `put` replaces where the name is met, and appends if it is not met at all
    by_cases hkey : key = name
    · simp [hkey]
    · simp only [if_neg hkey, List.map_cons, List.mem_cons, Ne.symm hkey, false_or]
      rw [ih]
      split <;> rfl

/-- Tables stay related if values that are related are put into both. -/
theorem Related.insert (h : Related R t t') (name : String) {a a' : α} (ha : R a a') :
    Related R (t.insert name a) (t'.insert name a') := by
  refine ⟨by rw [names_insert, names_insert, h.names], fun other => ?_⟩
  rw [get?_insert, get?_insert]
  split
  · exact .some ha
  · exact h.get? other

/-- The tables of related pairs. -/
theorem Related.ofList {pairs pairs' : List (String × α)}
    (h : List.Forall₂ (fun p p' => p'.1 = p.1 ∧ R p.2 p'.2) pairs pairs') :
    Related R (ofList pairs) (ofList pairs') := by
  -- a list is inserted from the front, so the tables it is inserted into vary
  have hfold : ∀ t t' : NameTable α, Related R t t' →
      Related R (pairs.foldl (fun t p => t.insert p.1 p.2) t)
        (pairs'.foldl (fun t p => t.insert p.1 p.2) t') := by
    induction h with
    | nil => exact fun _ _ ht => ht
    | @cons p p' _ _ hp _ ih =>
      intro t t' ht
      have hkey : p'.1 = p.1 := hp.1
      rw [List.foldl_cons, List.foldl_cons, hkey]
      exact ih _ _ (ht.insert _ hp.2)
  exact hfold _ _ .empty

end NameTable

/-! ## Values -/

/-- Two functions that look the same from outside. -/
structure Closure.SameFace (c c' : Closure) : Prop where
  id : c'.id = c.id
  name : c'.name = c.name
  arity : c'.arity = c.arity
  isInitializer : c'.isInitializer = c.isInitializer

/-- Two classes with related methods, also in the classes that they inherit from. -/
inductive Class.Related (method : Closure → Closure → Prop) : Class → Class → Prop
  | base {id : ObjectId} {name : String} {methods methods' : NameTable Closure}
      (hmethods : methods.Related method methods') :
      Related method ⟨id, name, none, methods⟩ ⟨id, name, none, methods'⟩
  | derived {id : ObjectId} {name : String} {s s' : Class} {methods methods' : NameTable Closure}
      (hs : Related method s s') (hmethods : methods.Related method methods') :
      Related method ⟨id, name, some s, methods⟩ ⟨id, name, some s', methods'⟩

/-- Two values that are the same up to functions and methods, which are related. -/
inductive Value.Related (function method : Closure → Closure → Prop) : Value → Value → Prop
  | nil : Related function method .nil .nil
  | bool (b : Bool) : Related function method (.bool b) (.bool b)
  | number (x : Float) : Related function method (.number x) (.number x)
  | string (contents : String) : Related function method (.string contents) (.string contents)
  | native (info : NativeInfo) : Related function method (.native info) (.native info)
  | function {c c' : Closure} (h : function c c') :
      Related function method (.function c) (.function c')
  | class_ {c c' : Class} (h : c.Related method c') :
      Related function method (.class_ c) (.class_ c')
  | instance_ (id : InstanceId) {c c' : Class} (h : c.Related method c') :
      Related function method (.instance_ id c) (.instance_ id c')

namespace Class.Related

variable {method method' : Closure → Closure → Prop} {c c' : Class}

/-- What relates the methods of classes may be weakened. -/
theorem mono (h : Class.Related method c c') (hmethod : ∀ m m', method m m' → method' m m') :
    Class.Related method' c c' := by
  induction h with
  | base hmethods => exact .base (hmethods.mono hmethod)
  | derived _ hmethods ih => exact .derived ih (hmethods.mono hmethod)

/-- Classes that are related have the same number. -/
theorem id (h : Class.Related method c c') : c'.id = c.id := by
  cases h <;> rfl

/-- Classes that are related have the same name. -/
theorem name (h : Class.Related method c c') : c'.name = c.name := by
  cases h <;> rfl

/-- The same search finds related methods. -/
theorem findMethod? (h : Class.Related method c c') (name : String) :
    Option.Rel method (c.findMethod? name) (c'.findMethod? name) := by
  induction h with
  | @base _ _ methods methods' hmethods =>
    have hget := hmethods.get? name
    rw [Class.findMethod?.eq_def, Class.findMethod?.eq_def]
    dsimp only
    generalize methods.get? name = found at hget
    generalize methods'.get? name = found' at hget
    cases hget with
    | none => exact .none
    | some h => exact .some h
  | @derived _ _ _ _ methods methods' _ hmethods ih =>
    have hget := hmethods.get? name
    rw [Class.findMethod?.eq_def, Class.findMethod?.eq_def]
    dsimp only
    generalize methods.get? name = found at hget
    generalize methods'.get? name = found' at hget
    cases hget with
    -- a method that the class does not have is looked for in the superclass
    | none => exact ih
    | some h => exact .some h

end Class.Related

namespace Value.Related

variable {function method function' method' : Closure → Closure → Prop} {v v' w w' : Value}

/-- What relates the closures in values may be weakened. -/
theorem mono (h : Value.Related function method v v')
    (hfunction : ∀ c c', function c c' → function' c c')
    (hmethod : ∀ c c', method c c' → method' c c') : Value.Related function' method' v v' := by
  cases h with
  | nil => exact .nil
  | bool b => exact .bool b
  | number x => exact .number x
  | string contents => exact .string contents
  | native info => exact .native info
  | function h => exact .function (hfunction _ _ h)
  | class_ h => exact .class_ (h.mono hmethod)
  | instance_ id h => exact .instance_ id (h.mono hmethod)

/-- There is no code in a value with nothing inside of it. -/
theorem of_isPlain {v : Value} (h : v.IsPlain) : Value.Related function method v v := by
  cases v with
  | nil => exact .nil
  | bool b => exact .bool b
  | number x => exact .number x
  | string contents => exact .string contents
  | native info => exact .native info
  | function => exact absurd h id
  | class_ => exact absurd h id
  | instance_ => exact absurd h id

/-- Values that are related are of the same type. -/
theorem typeName (h : Value.Related function method v v') : v'.typeName = v.typeName := by
  cases h <;> rfl

/-- Values that are related are both true or both false. -/
theorem isTruthy (h : Value.Related function method v v') : v'.isTruthy = v.isTruthy := by
  cases h <;> rfl

/-- Values that are related decide `and` and `or` alike. -/
theorem decidedByLeft (h : Value.Related function method v v') (operator : TokenKind) :
    decidedByLeft operator v' = decidedByLeft operator v := by
  rw [Lox.decidedByLeft, Lox.decidedByLeft, h.isTruthy]

section Faces

variable (hfunction : ∀ c c', function c c' → c.SameFace c')
  (hmethod : ∀ c c', method c c' → c.SameFace c')

include hfunction

/-- Values that are related are printed alike. -/
theorem text (h : Value.Related function method v v') : v'.text = v.text := by
  cases h with
  | function h => simp only [Value.text, (hfunction _ _ h).name]
  | class_ h | instance_ _ h => simp only [Value.text, h.name]
  | _ => rfl

/-- Values that are related are equal to one another alike. -/
theorem same (h : Value.Related function method v v') (h' : Value.Related function method w w') :
    v'.same w' = v.same w := by
  cases h with
  | function h =>
    cases h' with
    | function h' => simp only [Value.same, (hfunction _ _ h).id, (hfunction _ _ h').id]
    | _ => rfl
  | class_ h =>
    cases h' with
    | class_ h' => simp only [Value.same, h.id, h'.id]
    | _ => rfl
  -- only closures and classes are told apart by what is related here
  | _ => cases h' <;> rfl

omit hfunction in
/-- A unary operator has the same result on operands that are related. -/
theorem applyUnary (h : Value.Related function method v v') (operator : TokenKind) :
    applyUnary operator v' = applyUnary operator v := by
  cases h <;> cases operator <;> rfl

/-- A binary operator has the same result on operands that are related. -/
theorem applyBinary (h : Value.Related function method v v')
    (h' : Value.Related function method w w') (operator : TokenKind) :
    applyBinary operator v' w' = applyBinary operator v w := by
  have hsame := h.same hfunction h'
  unfold Lox.applyBinary
  rw [hsame]
  cases h <;> cases h' <;> cases operator <;> rfl

include hmethod

/-- Values that are related can be called with as many arguments. -/
theorem arity? (h : Value.Related function method v v') : v'.arity? = v.arity? := by
  cases h with
  | function h => simp only [Value.arity?, (hfunction _ _ h).arity]
  | @class_ c c' h =>
    -- a class takes what its initializer takes
    have hfound := h.findMethod? "init"
    rw [Value.arity?, Value.arity?, Class.arity, Class.arity]
    generalize c.findMethod? "init" = found at hfound
    generalize c'.findMethod? "init" = found' at hfound
    cases hfound with
    | none => rfl
    | some h => exact congrArg some (hmethod _ _ h).arity
  | _ => rfl

end Faces

end Value.Related

/-! ## Host functions -/

/-- The fields of the same instances, with related values. -/
structure Fields.Related (value : Value → Value → Prop) (fields fields' : Fields) : Prop where
  size : fields'.size = fields.size
  getD : ∀ i, NameTable.Related value (fields.getD i .empty) (fields'.getD i .empty)

namespace Fields.Related

variable {value value' : Value → Value → Prop} {fields fields' : Fields}

/-- What relates the values of fields may be weakened. -/
theorem mono (h : Fields.Related value fields fields') (hvalue : ∀ v v', value v v' → value' v v') :
    Fields.Related value' fields fields' :=
  ⟨h.size, fun i => (h.getD i).mono hvalue⟩

/-- Another instance without fields. -/
theorem push (h : Fields.Related value fields fields') :
    Fields.Related value (fields.push .empty) (fields'.push .empty) := by
  refine ⟨by simp [h.size], fun i => ?_⟩
  have hi := h.getD i
  simp only [Array.getD_eq_getD_getElem?, Array.getElem?_push, h.size] at hi ⊢
  split
  · exact .empty
  · exact hi

/-- A field is set. -/
theorem modify (h : Fields.Related value fields fields') (i : Nat) (name : String) {v v' : Value}
    (hv : value v v') : Fields.Related value (fields.modify i fun t => t.insert name v)
      (fields'.modify i fun t => t.insert name v') := by
  refine ⟨by simp [h.size], fun j => ?_⟩
  have hj := h.getD j
  by_cases hij : i = j ∧ j < fields.size
  · obtain ⟨rfl, hlt⟩ := hij
    have hlt' : i < fields'.size := h.size ▸ hlt
    simp only [Array.getD_eq_getD_getElem?, Array.getElem?_modify, Array.getElem?_eq_getElem hlt,
      Array.getElem?_eq_getElem hlt'] at hj ⊢
    exact hj.insert name hv
  · simp only [Array.getD_eq_getD_getElem?, Array.getElem?_modify] at hj ⊢
    by_cases heq : i = j
    · -- there is no such instance
      have hnone : fields[j]? = none := Array.getElem?_eq_none (by omega)
      have hnone' : fields'[j]? = none := Array.getElem?_eq_none (by have := h.size; omega)
      simp only [hnone, hnone'] at hj ⊢
      simpa using hj
    · simpa only [if_neg heq] using hj

end Fields.Related

/-- What host functions yield: related values, or the same message. -/
def NativeFunction.Agree (value : Value → Value → Prop) :
    Except String Value → Except String Value → Prop
  | .ok v, .ok v' => value v v'
  | .error message, .error message' => message' = message
  | _, _ => False

/-- A host function does not see the code of functions, only what they look like from outside: what
    it yields for related arguments is related. -/
def Native.CodeBlind (n : Native) : Prop :=
  ∀ function method : Closure → Closure → Prop, (∀ c c', function c c' → c.SameFace c') →
    (∀ c c', method c c' → c.SameFace c') →
    ∀ (now : Float) (fields fields' : Fields) (values values' : List Value),
    Fields.Related (Value.Related function method) fields fields' →
    List.Forall₂ (Value.Related function method) values values' →
    NativeFunction.Agree (Value.Related function method) (n.run now fields values)
      (n.run now fields' values')

/-! ### What host functions make of functions -/

/-- A function of a kind, and the same function. -/
private def Diagonal (kind : Closure → Prop) (c c' : Closure) : Prop :=
  c' = c ∧ kind c

/-- On the diagonal both closures are the same. -/
private theorem Diagonal.sameFace (kind : Closure → Prop) (c c' : Closure) (h : Diagonal kind c c') :
    c.SameFace c' := by
  obtain ⟨rfl, -⟩ := h
  exact ⟨rfl, rfl, rfl, rfl⟩

/-- A table of closures of a kind is related to itself on the diagonal. -/
private theorem NameTable.related_diagonal {t : NameTable Closure} {kind : Closure → Prop}
    (h : ∀ name c, t.get? name = some c → kind c) : t.Related (Diagonal kind) t := by
  refine ⟨rfl, fun name => ?_⟩
  cases hc : t.get? name with
  | none => exact .none
  | some c => exact .some ⟨rfl, h name c hc⟩

/-- What is related on the diagonal is of the kind. -/
private theorem NameTable.Related.diagonal {t t' : NameTable Closure} {kind : Closure → Prop}
    (h : t.Related (Diagonal kind) t') (name : String) (c : Closure) (hc : t.get? name = some c) :
    kind c := by
  have hget := h.get? name
  rw [hc] at hget
  generalize t'.get? name = o at hget
  cases hget with
  | some hc => exact hc.2

variable {function method : Closure → Prop}

/-- A class of the kind is related to itself on the diagonal. -/
private theorem Class.Holds.related {c : Class} (h : c.Holds method) :
    c.Related (Diagonal method) c := by
  match c with
  | ⟨_, _, none, _⟩ => exact .base (NameTable.related_diagonal h.1)
  | ⟨_, _, some s, _⟩ =>
    have hs : s.Holds method := h.2
    exact .derived hs.related (NameTable.related_diagonal h.1)

/-- A class that is related to itself on the diagonal is of the kind. -/
private theorem Class.Related.holds {c c' : Class} (h : c.Related (Diagonal method) c') :
    c.Holds method := by
  induction h with
  | base hmethods => exact ⟨hmethods.diagonal, trivial⟩
  | derived _ hmethods ih => exact ⟨hmethods.diagonal, ih⟩

/-- A value of the kind is related to itself on the diagonal. -/
private theorem Value.Holds.related {v : Value} (h : v.Holds function method) :
    Value.Related (Diagonal function) (Diagonal method) v v := by
  cases v with
  | function c => exact .function ⟨rfl, h⟩
  | class_ c => exact .class_ (Class.Holds.related h)
  | instance_ id c => exact .instance_ id (Class.Holds.related h)
  | _ => exact .of_isPlain trivial

/-- A value that is related to itself on the diagonal is of the kind. -/
private theorem Value.Related.holds {v v' : Value}
    (h : Value.Related (Diagonal function) (Diagonal method) v v') : v.Holds function method := by
  cases h with
  | function h => exact h.2
  | class_ h => exact h.holds
  | instance_ _ h => exact h.holds
  | _ => trivial

/-- A host function that does not see code does not make functions either. -/
theorem Native.CodeBlind.conservative {n : Native} (h : n.CodeBlind) : n.Conservative := by
  intro function method now fields arguments v hfields harguments hrun
  -- a value is related to itself if it holds only functions and classes of these kinds
  have hfields : Fields.Related (Value.Related (Diagonal function) (Diagonal method)) fields
      fields := by
    refine ⟨rfl, fun i => ⟨rfl, fun name => ?_⟩⟩
    cases hv : (fields.getD i .empty).get? name with
    | none => exact .none
    | some v =>
      obtain ⟨t, ht, hv⟩ := Fields.exists_of_get? hv
      exact .some (hfields t ht name v hv).related
  have harguments : List.Forall₂ (Value.Related (Diagonal function) (Diagonal method)) arguments
      arguments :=
    List.forall₂_same.mpr fun v hv => (harguments v hv).related
  have hagree := h _ _ (Diagonal.sameFace function) (Diagonal.sameFace method) now fields fields
    arguments arguments hfields harguments
  rw [hrun] at hagree
  exact Value.Related.holds hagree

namespace NativeFunction

section Arguments

variable {function method : Closure → Closure → Prop} {values values' : List Value}

/-- An argument is there on both sides, and related, or missing on both. -/
theorem argument_agree (h : List.Forall₂ (Value.Related function method) values values')
    (index : Nat) :
    Agree (Value.Related function method) (argument values index) (argument values' index) := by
  induction h generalizing index with
  | nil => exact rfl
  | cons hv _ ih =>
    cases index with
    | zero => exact hv
    | succ index => exact ih index

/-- Arguments that are related are printed alike. -/
theorem map_text_eq (hfunction : ∀ c c', function c c' → c.SameFace c')
    (h : List.Forall₂ (Value.Related function method) values values') :
    values'.map (·.text) = values.map (·.text) := by
  induction h with
  | nil => rfl
  | cons hv _ ih => rw [List.map_cons, List.map_cons, hv.text hfunction, ih]

/-- What is computed from an argument does not see the code in it. -/
theorem Agree.bind {value : Value → Value → Prop} {x x' : Except String Value}
    (h : Agree value x x') {f f' : Value → Except String Value} {R : Value → Value → Prop}
    (hf : ∀ v v', value v v' → Agree R (f v) (f' v')) : Agree R (x >>= f) (x' >>= f') := by
  cases x <;> cases x'
  · exact h
  · exact h.elim
  · exact h.elim
  · exact hf _ _ h

/-- The last arguments are related. -/
theorem getLast?_related (h : List.Forall₂ (Value.Related function method) values values') :
    Value.Related function method (values.getLast?.getD .nil) (values'.getLast?.getD .nil) := by
  induction h with
  | nil => exact .nil
  | @cons v v' rest rest' hv hrest ih =>
    cases hrest with
    | nil => exact hv
    | cons h t => simpa using ih

/-- The description of a function, class or instance does not show code. -/
theorem debug_agree (hfunction : ∀ c c', function c c' → c.SameFace c') (now : Float)
    {fields fields' : Fields} (hfields : Fields.Related (Value.Related function method) fields fields')
    (h : List.Forall₂ (Value.Related function method) values values') :
    Agree (Value.Related function method) (debug now fields values) (debug now fields' values') := by
  refine (argument_agree h 0).bind fun v v' hv => ?_
  cases hv with
  | function hc =>
    -- the text shows the name, the parameters and the kind of a function, not its body
    have hface := hfunction _ _ hc
    dsimp only
    rw [hface.name, hface.arity, hface.isInitializer]
    exact .string _
  | class_ hc =>
    cases hc with
    | base hmethods =>
      dsimp only
      rw [hmethods.names]
      exact .string _
    | derived hs hmethods =>
      dsimp only
      rw [hmethods.names, hs.name]
      exact .string _
  | instance_ id hc =>
    dsimp only
    rw [hc.name, (hfields.getD id.index).names]
    exact .string _
  | _ => exact rfl

end Arguments

end NativeFunction

/-- The functions of the library do not see code. -/
theorem Native.library_codeBlind {entry : String × NativeFunction}
    (h : entry ∈ NativeFunction.library) (name : String) (arity : Nat) :
    Native.CodeBlind ⟨name, arity, entry.2⟩ := by
  intro function method hfunction hmethod now fields fields' values values' hfields hvalues
  have hargument := NativeFunction.argument_agree hvalues
  simp only [NativeFunction.library, List.mem_cons, List.not_mem_nil, or_false] at h
  -- each function sees kinds, texts and identities of values, which are related
  rcases h with rfl | rfl | rfl | rfl | rfl | rfl | rfl | rfl | rfl
  · refine (hargument 0).bind fun v v' hv => ?_
    cases hv with
    | number x => exact .number _
    | _ => exact rfl
  · show Value.Related _ _ (.string _) (.string _)
    rw [NativeFunction.map_text_eq hfunction hvalues]
    exact .string _
  · refine (hargument 0).bind fun v v' hv => ?_
    rw [hv.typeName]
    exact .string _
  · refine (hargument 0).bind fun v v' hv => ?_
    rw [hv.isTruthy]
    exact .bool _
  · refine (hargument 0).bind fun v v' hv => (hargument 1).bind fun w w' hw => ?_
    rw [hv.same hfunction hw]
    exact .bool _
  · refine (hargument 0).bind fun v v' hv => ?_
    rw [hv.arity? hfunction hmethod]
    cases v.arity? with
    | none => exact .nil
    | some n => exact .number _
  · exact NativeFunction.getLast?_related hvalues
  · show String.intercalate _ _ = String.intercalate _ _
    rw [NativeFunction.map_text_eq hfunction hvalues]
  · exact NativeFunction.debug_agree hfunction now hfields hvalues

/-- Nor does the clock. -/
theorem Native.clock_codeBlind : Native.clock.CodeBlind :=
  fun _ _ _ _ now _ _ _ _ _ _ => .number now

end Lox
