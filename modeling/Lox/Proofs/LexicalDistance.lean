import Lox.Proofs.ScopeRules

/-!
# Lexical distances

Where a reference stands is said from the inside outwards, without following the resolver: `Stands`
splits each body around the statement that the reference is in, so that the names declared before it
are those of the statements in front, and nothing is kept from one statement to the next.

A tree has one place for each of its references. The distances that the resolver finds are read off
these places, and as no two references of a parsed program have the same identity, the table made of
them holds for each reference what its place says.

## Key results

- `Stmt.Stands`: where a reference stands in a statement
- `Stmt.resolve_records`: what the resolver finds in a statement
- `Resolution.records_lexical_distance`: what the table of an accepted program holds
-/

namespace Lox

namespace Surroundings

/-- More names in the innermost scope. Outside of local scopes none are kept. -/
def declareAll : Surroundings → List String → Surroundings
  | [], _ => []
  | innermost :: outer, names => ⟨innermost.opener, innermost.declared ++ names⟩ :: outer

/-- Counting outward from the innermost scope, which is number 0, the scope with this number is the
    first one that declares the name. -/
def FirstDeclares (around : Surroundings) (name : String) (number : Nat) : Prop :=
  (∃ x, around[number]? = some x ∧ name ∈ x.declared) ∧
    ∀ i < number, ∀ x, around[i]? = some x → name ∉ x.declared

variable {around : Surroundings} {name : String} {names names' : List String}

/-- Names are declared in the innermost scope. -/
@[simp] theorem declareAll_cons (x : Enclosing) (outer : Surroundings) (names : List String) :
    declareAll (x :: outer) names = ⟨x.opener, x.declared ++ names⟩ :: outer :=
  rfl

/-- To declare nothing changes nothing. -/
@[simp] theorem declareAll_nil_right (around : Surroundings) : around.declareAll [] = around := by
  cases around <;> simp [declareAll]

/-- Names may be declared all at once or in two parts. -/
@[simp] theorem declareAll_declareAll (around : Surroundings) (names names' : List String) :
    (around.declareAll names).declareAll names' = around.declareAll (names ++ names') := by
  cases around <;> simp [declareAll]

/-- A distance is that of the first scope that declares the name. -/
theorem distance?_eq_some_iff {number : Nat} :
    around.distance? name = some number ↔ around.FirstDeclares name number := by
  -- `findIdx?` finds a scope that has the name with none before it that has, which is the claim but
  -- for the way indices are bounded
  rw [distance?, List.findIdx?_eq_some_iff_getElem]
  constructor
  · rintro ⟨hlt, hmem, hbefore⟩
    refine ⟨⟨_, List.getElem?_eq_getElem hlt, of_decide_eq_true hmem⟩, fun i hi x hx => ?_⟩
    have hout := hbefore i hi
    obtain ⟨_, rfl⟩ := List.getElem?_eq_some_iff.mp hx
    simpa using hout
  · rintro ⟨⟨x, hx, hmem⟩, hbefore⟩
    obtain ⟨hlt, rfl⟩ := List.getElem?_eq_some_iff.mp hx
    refine ⟨hlt, decide_eq_true hmem, fun i hi => ?_⟩
    simpa using hbefore i hi _ (List.getElem?_eq_getElem (Nat.lt_trans hi hlt))

/-- There is no distance just if no scope declares the name. -/
theorem distance?_eq_none_iff : around.distance? name = none ↔ ∀ x ∈ around, name ∉ x.declared := by
  simp [distance?, List.findIdx?_eq_none_iff]

end Surroundings

/-! ## Where references stand -/

namespace Stmt

/-- The reference stands in the statement. Before it, the statement itself declares the names `own`
    in the scope around the statement. The scopes `within` lie between the reference and the
    statement, innermost first, each with the names that are declared in it before the reference.
    A declared name counts from its own declaration on, parameters, `this` and `super` from the
    start of their scope. -/
inductive Stands (r : Reference) : Stmt → (own : List String) → (within : Surroundings) → Prop
  | expression {value : Expr} (h : r ∈ value.references) : Stands r (.expression value) [] []
  | print {value : Expr} (h : r ∈ value.references) : Stands r (.print value) [] []
  | initializer {name : Token} {value : Expr} (h : r ∈ value.references) :
      Stands r (.varDecl name (some value)) [name.lexeme] []
  | block {body before after : List Stmt} {s : Stmt} {own : List String} {within : Surroundings}
      (hbody : body = before ++ s :: after) (h : Stands r s own within) :
      Stands r (.block body) [] (within ++ [⟨.block body, namesList before ++ own⟩])
  | condition {condition : Expr} {thenBranch : Stmt} {elseBranch : Option Stmt}
      (h : r ∈ condition.references) : Stands r (.cond condition thenBranch elseBranch) [] []
  | thenBranch {condition : Expr} {thenBranch : Stmt} {elseBranch : Option Stmt}
      {own : List String} {within : Surroundings} (h : Stands r thenBranch own within) :
      Stands r (.cond condition thenBranch elseBranch) own within
  | elseBranch {condition : Expr} {thenBranch elseBranch : Stmt} {own : List String}
      {within : Surroundings} (h : Stands r elseBranch own within) :
      Stands r (.cond condition thenBranch (some elseBranch)) (thenBranch.names ++ own) within
  | loopCondition {condition : Expr} {body : Stmt} (h : r ∈ condition.references) :
      Stands r (.loop condition body) [] []
  | loopBody {condition : Expr} {body : Stmt} {own : List String} {within : Surroundings}
      (h : Stands r body own within) : Stands r (.loop condition body) own within
  /-- Parameters and the body of a function share a scope. -/
  | function {d : FunctionDecl} {before after : List Stmt} {s : Stmt} {own : List String}
      {within : Surroundings} (hbody : d.body = before ++ s :: after) (h : Stands r s own within) :
      Stands r (.funDecl d) [d.name.lexeme]
        (within ++ [⟨.function d, d.params.map (·.lexeme) ++ (namesList before ++ own)⟩])
  | returned {keyword : Token} {value : Expr} (h : r ∈ value.references) :
      Stands r (.ret keyword (some value)) [] []
  | superclass {name : Token} {superclass : Expr} {methods : List FunctionDecl}
      (h : r ∈ superclass.references) :
      Stands r (.classDecl ⟨name, some superclass, methods⟩) [name.lexeme] []
  /-- Around a method is the scope of `this`, and in a subclass that of `super` around this one. -/
  | method {name : Token} {superclass : Option Expr} {methods : List FunctionDecl}
      {d : FunctionDecl} {before after : List Stmt} {s : Stmt} {own : List String}
      {within : Surroundings} (hd : d ∈ methods) (hbody : d.body = before ++ s :: after)
      (h : Stands r s own within) :
      Stands r (.classDecl ⟨name, superclass, methods⟩) [name.lexeme]
        (within ++ ⟨.function d, d.params.map (·.lexeme) ++ (namesList before ++ own)⟩ ::
          ⟨.this d, ["this"]⟩ :: aroundMethods [] name superclass methods)

/-- The reference stands in a program, with these scopes around it. What the program declares
    outside of them is global. -/
def StandsIn (r : Reference) (program : List Stmt) (around : Surroundings) : Prop :=
  ∃ s ∈ program, ∃ own, s.Stands r own around

end Stmt

/-! ## The places of a tree -/

/-- A reference in a statement, with what `Stmt.Stands` says of it. -/
structure Place where
  reference : Reference
  own : List String
  within : Surroundings

namespace Place

/-- The place behind declarations of some names in the same scope. -/
def behind (names : List String) (p : Place) : Place :=
  ⟨p.reference, names ++ p.own, p.within⟩

/-- The place inside a scope that starts with some names. -/
def inside (opener : Opener) (start : List String) (p : Place) : Place :=
  ⟨p.reference, [], p.within ++ [⟨opener, start ++ p.own⟩]⟩

/-- The scopes around the place, if these are around the statement. -/
def around (p : Place) (outer : Surroundings) : Surroundings :=
  p.within ++ outer.declareAll p.own

/-- Names declared before it do not change which reference stands at a place. -/
@[simp] theorem reference_behind (names : List String) (p : Place) :
    (p.behind names).reference = p.reference :=
  rfl

/-- A scope around it does not change which reference stands at a place. -/
@[simp] theorem reference_inside (opener : Opener) (start : List String) (p : Place) :
    (p.inside opener start).reference = p.reference :=
  rfl

/-- Names declared before a place are in its surroundings like those declared there from the
    start. -/
theorem around_behind (names : List String) (p : Place) (outer : Surroundings) :
    (p.behind names).around outer = p.around (outer.declareAll names) := by
  simp [around, behind]

/-- A scope around a place is the first one outside it. -/
theorem around_inside (opener : Opener) (start : List String) (p : Place) (outer : Surroundings) :
    (p.inside opener start).around outer = p.around (⟨opener, start⟩ :: outer) := by
  simp [around, inside]

/-- Names declared before a place may be added all at once or in two parts. -/
theorem behind_behind (names names' : List String) (p : Place) :
    (p.behind names').behind names = p.behind (names ++ names') := by
  simp [behind]

end Place

namespace Expr

/-- The places of the references in an expression. -/
def places (e : Expr) : List Place :=
  e.references.map (⟨·, [], []⟩)

/-- The places of the references in an expression that may be missing. -/
def placesOption (o : Option Expr) : List Place :=
  (referencesOption o).map (⟨·, [], []⟩)

end Expr

namespace Stmt

mutual

/-- The places of the references in a statement. -/
def places : Stmt → List Place
  | expression value => value.places
  | print value => value.places
  | varDecl name initializer => (Expr.placesOption initializer).map (Place.behind [name.lexeme])
  | block body => (placesList body).map (Place.inside (.block body) [])
  | cond condition thenBranch none => condition.places ++ thenBranch.places
  | cond condition thenBranch (some elseBranch) =>
    condition.places ++ thenBranch.places ++ elseBranch.places.map (Place.behind thenBranch.names)
  | loop condition body => condition.places ++ body.places
  | funDecl d => (functionPlaces d).map (Place.behind [d.name.lexeme])
  | ret _ value => Expr.placesOption value
  | classDecl ⟨name, none, methods⟩ => (methodPlaces methods).map (Place.behind [name.lexeme])
  | classDecl ⟨name, some superclass, methods⟩ =>
    (superclass.places ++
      (methodPlaces methods).map (Place.inside (.super name methods) ["super"])).map
      (Place.behind [name.lexeme])

/-- The places of the references in several statements. -/
def placesList : List Stmt → List Place
  | [] => []
  | s :: rest => s.places ++ (placesList rest).map (Place.behind s.names)

/-- The places of the references in a function. -/
def functionPlaces : FunctionDecl → List Place
  | ⟨name, params, body⟩ =>
    (placesList body).map (Place.inside (.function ⟨name, params, body⟩) (params.map (·.lexeme)))

/-- The places of the references in the methods of a class. -/
def methodPlaces : List FunctionDecl → List Place
  | [] => []
  | d :: rest => (functionPlaces d).map (Place.inside (.this d) ["this"]) ++ methodPlaces rest

end

/-- The places of an expression are those of its references. -/
private theorem map_reference_places (e : Expr) : e.places.map (·.reference) = e.references := by
  simp [Expr.places, Function.comp_def]

/-- The places of an expression that may be missing are those of its references. -/
private theorem map_reference_placesOption (o : Option Expr) :
    (Expr.placesOption o).map (·.reference) = Expr.referencesOption o := by
  simp [Expr.placesOption, Function.comp_def]

/-- Names declared before places do not change their references. -/
private theorem map_reference_behind (names : List String) (ps : List Place) :
    (ps.map (Place.behind names)).map (·.reference) = ps.map (·.reference) := by
  simp [Function.comp_def]

/-- A scope around places does not change their references. -/
private theorem map_reference_inside (opener : Opener) (start : List String) (ps : List Place) :
    (ps.map (Place.inside opener start)).map (·.reference) = ps.map (·.reference) := by
  simp [Function.comp_def]

mutual

/-- Each reference in a statement has one place. -/
theorem reference_places (s : Stmt) : s.places.map (·.reference) = s.references := by
  match s with
  | expression value | print value => exact map_reference_places value
  | varDecl _ initializer =>
    rw [places, map_reference_behind, map_reference_placesOption, references]
  | block body => rw [places, map_reference_inside, reference_placesList, references]
  | cond condition thenBranch none =>
    rw [places, List.map_append, map_reference_places, thenBranch.reference_places, references]
  | cond condition thenBranch (some elseBranch) =>
    rw [places, List.map_append, List.map_append, map_reference_behind, map_reference_places,
      thenBranch.reference_places, elseBranch.reference_places, references]
  | loop condition body =>
    rw [places, List.map_append, map_reference_places, body.reference_places, references]
  | funDecl d => rw [places, map_reference_behind, reference_functionPlaces, references]
  | ret _ value => exact map_reference_placesOption value
  | classDecl ⟨_, none, methods⟩ =>
    rw [places, map_reference_behind, reference_methodPlaces, references]
    rfl
  | classDecl ⟨_, some superclass, methods⟩ =>
    rw [places, map_reference_behind, List.map_append, map_reference_inside, map_reference_places,
      reference_methodPlaces, references]
    rfl

/-- The places in statements are those of their references. -/
theorem reference_placesList (body : List Stmt) :
    (placesList body).map (·.reference) = referencesList body := by
  match body with
  | [] => rfl
  | s :: rest =>
    rw [placesList, List.map_append, map_reference_behind, s.reference_places,
      reference_placesList, referencesList]

/-- The places in a function are those of its references. -/
theorem reference_functionPlaces (d : FunctionDecl) :
    (functionPlaces d).map (·.reference) = functionReferences d := by
  match d with
  | ⟨_, _, body⟩ =>
    rw [functionPlaces, map_reference_inside, reference_placesList, functionReferences]

/-- The places in methods are those of their references. -/
theorem reference_methodPlaces (ds : List FunctionDecl) :
    (methodPlaces ds).map (·.reference) = methodReferences ds := by
  match ds with
  | [] => rfl
  | d :: rest =>
    rw [methodPlaces, List.map_append, map_reference_inside, reference_functionPlaces,
      reference_methodPlaces, methodReferences]

end

/-! ### Places are where references stand -/

/-- A place in a statement is one in the list, behind the names that are declared in front of it. -/
theorem mem_placesList_append {p : Place} {s : Stmt} (h : p ∈ s.places) (before after : List Stmt) :
    p.behind (namesList before) ∈ placesList (before ++ s :: after) := by
  induction before with
  | nil => exact List.mem_append_left _ h
  | cons first before ih =>
    refine List.mem_append_right _ (List.mem_map.mpr ⟨_, ih, ?_⟩)
    rw [Place.behind_behind]
    rfl

/-- A place in the body of a function is one in the function, inside the scope of its parameters. -/
theorem mem_functionPlaces {p : Place} {d : FunctionDecl} {s : Stmt} {before after : List Stmt}
    (hbody : d.body = before ++ s :: after) (h : p ∈ s.places) :
    (p.behind (namesList before)).inside (.function d) (d.params.map (·.lexeme)) ∈
      functionPlaces d := by
  obtain ⟨name, params, body⟩ := d
  cases hbody
  exact List.mem_map_of_mem (mem_placesList_append h before after)

/-- A place in a method is one in the class, inside the scope of `this`. -/
theorem mem_methodPlaces {p : Place} {d : FunctionDecl} {ds : List FunctionDecl} (hd : d ∈ ds)
    (h : p ∈ functionPlaces d) : p.inside (.this d) ["this"] ∈ methodPlaces ds := by
  induction ds with
  | nil => cases hd
  | cons first ds ih =>
    rcases List.mem_cons.mp hd with rfl | hd
    · exact List.mem_append_left _ (List.mem_map_of_mem h)
    · exact List.mem_append_right _ (ih hd)

/-- A reference in an expression stands in no scope of the expression. -/
private theorem mem_expression_places {r : Reference} {e : Expr} (h : r ∈ e.references) :
    ⟨r, [], []⟩ ∈ e.places :=
  List.mem_map_of_mem h

/-- Where a reference stands, there is a place. -/
theorem Stands.mem_places {r : Reference} {s : Stmt} {own : List String} {within : Surroundings}
    (h : s.Stands r own within) : ⟨r, own, within⟩ ∈ s.places := by
  induction h with
  | expression h | print h | returned h => exact mem_expression_places h
  | initializer h => exact List.mem_map_of_mem (f := Place.behind _) (mem_expression_places h)
  | block hbody _ ih =>
    subst hbody
    exact List.mem_map_of_mem (f := Place.inside _ []) (mem_placesList_append ih _ _)
  | @condition _ _ elseBranch h =>
    cases elseBranch with
    | none => exact List.mem_append_left _ (mem_expression_places h)
    | some => exact List.mem_append_left _ (List.mem_append_left _ (mem_expression_places h))
  | @thenBranch _ _ elseBranch _ _ _ ih =>
    cases elseBranch with
    | none => exact List.mem_append_right _ ih
    | some => exact List.mem_append_left _ (List.mem_append_right _ ih)
  | elseBranch _ ih =>
    exact List.mem_append_right _ (List.mem_map_of_mem (f := Place.behind _) ih)
  | loopCondition h => exact List.mem_append_left _ (mem_expression_places h)
  | loopBody _ ih => exact List.mem_append_right _ ih
  | function hbody _ ih =>
    exact List.mem_map_of_mem (f := Place.behind _) (mem_functionPlaces hbody ih)
  | superclass h =>
    exact List.mem_map_of_mem (f := Place.behind _)
      (List.mem_append_left _ (mem_expression_places h))
  | @method name superclass methods d before after s own within hd hbody _ ih =>
    -- the methods of a subclass stand one scope further inside
    have hmethod := mem_methodPlaces hd (mem_functionPlaces hbody ih)
    cases superclass with
    | none =>
      have := List.mem_map_of_mem (f := Place.behind [name.lexeme]) hmethod
      simpa [places, Place.inside, Place.behind, aroundMethods] using this
    | some superclass =>
      have hinside :=
        List.mem_map_of_mem (f := Place.inside (.super name methods) ["super"]) hmethod
      have := List.mem_map_of_mem (f := Place.behind [name.lexeme])
        (List.mem_append_right superclass.places hinside)
      simpa [places, Place.inside, Place.behind, aroundMethods] using this

mutual

/-- At a place, a reference stands. -/
theorem stands_of_mem_places (s : Stmt) {p : Place} (h : p ∈ s.places) :
    s.Stands p.reference p.own p.within := by
  match s with
  | expression value =>
    obtain ⟨r, hr, rfl⟩ := List.mem_map.mp h
    exact .expression hr
  | print value =>
    obtain ⟨r, hr, rfl⟩ := List.mem_map.mp h
    exact .print hr
  | varDecl name none => cases h
  | varDecl name (some value) =>
    obtain ⟨_, hplace, rfl⟩ := List.mem_map.mp h
    obtain ⟨r, hr, rfl⟩ := List.mem_map.mp hplace
    exact .initializer hr
  | block body =>
    obtain ⟨q, hq, rfl⟩ := List.mem_map.mp h
    obtain ⟨before, s, after, own, hbody, hown, hs⟩ := split_of_mem_placesList body hq
    -- what the place declares before it is what stands before the statement in the block
    have := Stands.block hbody hs
    rwa [← hown] at this
  | cond condition thenBranch none =>
    rcases List.mem_append.mp h with h | h
    · obtain ⟨r, hr, rfl⟩ := List.mem_map.mp h
      exact .condition hr
    · exact .thenBranch (thenBranch.stands_of_mem_places h)
  | cond condition thenBranch (some elseBranch) =>
    rcases List.mem_append.mp h with h | h
    · rcases List.mem_append.mp h with h | h
      · obtain ⟨r, hr, rfl⟩ := List.mem_map.mp h
        exact .condition hr
      · exact .thenBranch (thenBranch.stands_of_mem_places h)
    · obtain ⟨q, hq, rfl⟩ := List.mem_map.mp h
      exact .elseBranch (elseBranch.stands_of_mem_places hq)
  | loop condition body =>
    rcases List.mem_append.mp h with h | h
    · obtain ⟨r, hr, rfl⟩ := List.mem_map.mp h
      exact .loopCondition hr
    · exact .loopBody (body.stands_of_mem_places h)
  | funDecl d =>
    obtain ⟨q, hq, rfl⟩ := List.mem_map.mp h
    obtain ⟨r, before, s, after, own, within, hbody, rfl, hs⟩ := split_of_mem_functionPlaces d hq
    exact .function hbody hs
  | ret keyword none => cases h
  | ret keyword (some value) =>
    obtain ⟨r, hr, rfl⟩ := List.mem_map.mp h
    exact .returned hr
  | classDecl ⟨name, none, methods⟩ =>
    obtain ⟨q, hq, rfl⟩ := List.mem_map.mp h
    obtain ⟨d, hd, r, before, s, after, own, within, hbody, rfl, hs⟩ :=
      split_of_mem_methodPlaces methods hq
    have hstands : Stands r (.classDecl ⟨name, none, methods⟩) _ _ := .method hd hbody hs
    simpa [Place.behind, aroundMethods] using hstands
  | classDecl ⟨name, some superclass, methods⟩ =>
    obtain ⟨q, hq, rfl⟩ := List.mem_map.mp h
    rcases List.mem_append.mp hq with hq | hq
    · obtain ⟨r, hr, rfl⟩ := List.mem_map.mp hq
      exact .superclass hr
    · obtain ⟨q', hq', rfl⟩ := List.mem_map.mp hq
      obtain ⟨d, hd, r, before, s, after, own, within, hbody, rfl, hs⟩ :=
        split_of_mem_methodPlaces methods hq'
      have hstands : Stands r (.classDecl ⟨name, some superclass, methods⟩) _ _ :=
        .method hd hbody hs
      simpa [Place.behind, Place.inside, aroundMethods] using hstands

/-- A place in several statements is in one of them, behind those in front of it. -/
theorem split_of_mem_placesList (body : List Stmt) {p : Place} (h : p ∈ placesList body) :
    ∃ before s after own, body = before ++ s :: after ∧ p.own = namesList before ++ own ∧
      s.Stands p.reference own p.within := by
  match body with
  | [] => cases h
  | s :: rest =>
    -- each statement that is passed on the way adds its names to those in front
    rcases List.mem_append.mp h with h | h
    · exact ⟨[], s, rest, p.own, rfl, rfl, s.stands_of_mem_places h⟩
    · obtain ⟨q, hq, rfl⟩ := List.mem_map.mp h
      obtain ⟨before, s', after, own, rfl, hown, hs⟩ := split_of_mem_placesList rest hq
      refine ⟨s :: before, s', after, own, rfl, ?_, hs⟩
      simp [Place.behind, hown, namesList]

/-- A place in a function stands in a statement of its body, behind the others. -/
theorem split_of_mem_functionPlaces (d : FunctionDecl) {p : Place} (h : p ∈ functionPlaces d) :
    ∃ r before s after own within, d.body = before ++ s :: after ∧
      p = ⟨r, [], within ++
        [⟨.function d, d.params.map (·.lexeme) ++ (namesList before ++ own)⟩]⟩ ∧
      s.Stands r own within := by
  match d with
  | ⟨_, _, body⟩ =>
    obtain ⟨q, hq, rfl⟩ := List.mem_map.mp h
    obtain ⟨before, s, after, own, hbody, hown, hs⟩ := split_of_mem_placesList body hq
    refine ⟨q.reference, before, s, after, own, q.within, hbody, ?_, hs⟩
    rw [← hown]
    rfl

/-- A place in methods stands in a statement of one of them. -/
theorem split_of_mem_methodPlaces (ds : List FunctionDecl) {p : Place} (h : p ∈ methodPlaces ds) :
    ∃ d ∈ ds, ∃ r before s after own within, d.body = before ++ s :: after ∧
      p = ⟨r, [], within ++
        [⟨.function d, d.params.map (·.lexeme) ++ (namesList before ++ own)⟩,
          ⟨.this d, ["this"]⟩]⟩ ∧
      s.Stands r own within := by
  match ds with
  | [] => cases h
  | d :: rest =>
    rcases List.mem_append.mp h with h | h
    · obtain ⟨q, hq, rfl⟩ := List.mem_map.mp h
      obtain ⟨r, before, s, after, own, within, hbody, rfl, hs⟩ := split_of_mem_functionPlaces d hq
      refine ⟨d, List.mem_cons_self, r, before, s, after, own, within, hbody, ?_, hs⟩
      simp [Place.inside]
    · obtain ⟨d', hd', hsplit⟩ := split_of_mem_methodPlaces rest h
      exact ⟨d', List.mem_cons_of_mem _ hd', hsplit⟩

end

end Stmt

/-! ## What the resolver finds -/

namespace StaticScopes

/-- The scopes of the resolver have the names that are declared in the scopes around a place. -/
def Matches (scopes : StaticScopes) (around : Surroundings) : Prop :=
  List.Forall₂ (fun scope x => ∀ name, scope.contains name = decide (name ∈ x.declared)) scopes
    around

namespace Matches

variable {scopes : StaticScopes} {around : Surroundings}

/-- The scopes that the resolver has and those of the text give the same distances. -/
theorem distance? (h : scopes.Matches around) (name : String) :
    scopes.distance? name = around.distance? name :=
  distance?_congr h (fun _ _ hx => hx) name

/-- An empty scope is opened on both sides. -/
theorem openEmpty (h : scopes.Matches around) (opener : Opener) :
    Matches (.empty :: scopes) (⟨opener, []⟩ :: around) :=
  .cons (fun _ => by simp [NameTable.contains]) h

/-- A scope with a reserved word is opened on both sides. -/
theorem openWith (h : scopes.Matches around) (opener : Opener) (name : String) :
    (scopes.openWith name).Matches (⟨opener, [name]⟩ :: around) := by
  refine .cons (fun other => ?_) h
  by_cases heq : name = other
  · simp [NameTable.contains, heq]
  · simp [NameTable.contains, heq, Ne.symm heq]

/-- A name is declared, also if it is there already. -/
theorem declare (h : scopes.Matches around) (name : Token) :
    (scopes.declare name).1.Matches (around.declareAll [name.lexeme]) := by
  cases h with
  | nil => exact .nil
  | @cons scope x scopes around hx h =>
    rw [StaticScopes.declare]
    split
    · rename_i hthere
      have hthere : name.lexeme ∈ x.declared := by simpa [hx] using hthere
      refine .cons (fun other => ?_) h
      rw [hx other, decide_eq_decide]
      simpa using fun heq => heq ▸ hthere
    · refine .cons (fun other => ?_) h
      have hold := hx other
      rw [NameTable.contains] at hold ⊢
      rw [NameTable.get?_insert]
      -- the scope declares another name exactly if it did before
      by_cases heq : name.lexeme = other
      · simp [heq]
      · simp [heq, Ne.symm heq, hold]

/-- With its value a name is declared as without. -/
theorem define (h : scopes.Matches around) (name : Token) :
    ((scopes.declare name).1.define name.lexeme).Matches (around.declareAll [name.lexeme]) := by
  have hdeclare := h.declare name
  -- defining changes the mark of a name and not which names there are
  generalize (scopes.declare name).1 = declared at hdeclare
  cases around with
  | nil =>
    cases hdeclare
    exact .nil
  | cons x around =>
    cases hdeclare with
    | @cons scope _ scopes _ hx h =>
      refine .cons (fun other => ?_) h
      have hold := hx other
      rw [NameTable.contains] at hold ⊢
      rw [NameTable.get?_insert]
      by_cases heq : name.lexeme = other
      · simp [heq]
      · simpa [heq, Ne.symm heq] using hold

/-- The names of parameters are introduced on both sides. -/
theorem introduce (h : scopes.Matches around) (names : List Token) :
    (scopes.introduce names).1.Matches (around.declareAll (names.map (·.lexeme))) := by
  induction names generalizing scopes around with
  | nil => simpa [StaticScopes.introduce] using h
  | cons name names ih =>
    rw [introduce_cons]
    have := ih (h.define name)
    rwa [Surroundings.declareAll_declareAll] at this

end Matches

end StaticScopes

/-- The distances that are found are those of the places, if these scopes are around them. -/
def Records (found : List Finding) (places : List Place) (outer : Surroundings) : Prop :=
  ∀ id d, .distance id d ∈ found ↔ ∃ p ∈ places, p.reference.id = id ∧
    (p.around outer).distance? p.reference.name.lexeme = some d

namespace Records

variable {found found' : List Finding} {places places' : List Place} {outer : Surroundings}

/-- Where there is no place nothing is found. -/
theorem nil : Records [] [] outer := by
  simp [Records]

/-- What is found in two parts is found at the places of both. -/
theorem append (h : Records found places outer) (h' : Records found' places' outer) :
    Records (found ++ found') (places ++ places') outer := by
  intro id d
  simp only [List.mem_append, h id d, h' id d, or_and_right, exists_or]

/-- The order in which the resolver looks at two parts does not matter. -/
theorem append_comm (h : Records (found ++ found') places outer) :
    Records (found' ++ found) places outer := by
  intro id d
  rw [← h id d, List.mem_append, List.mem_append, or_comm]

/-- Places behind declared names are found where the names are declared. -/
theorem behind {names : List String} (h : Records found places (outer.declareAll names)) :
    Records found (places.map (Place.behind names)) outer := by
  intro id d
  simp [h id d, Place.around_behind]

/-- Places inside a scope are found where the scope is open. -/
theorem inside {opener : Opener} {start : List String}
    (h : Records found places (⟨opener, start⟩ :: outer)) :
    Records found (places.map (Place.inside opener start)) outer := by
  intro id d
  simp [h id d, Place.around_inside]

/-- In front of what is found there may be faults, which are no distances. -/
theorem faults {faults : List Finding} (hfaults : ∀ id d, .distance id d ∉ faults)
    (h : Records found places outer) : Records (faults ++ found) places outer := by
  intro id d
  rw [List.mem_append, h id d, or_iff_right (hfaults id d)]

/-- A single reference. -/
theorem refer {scopes : StaticScopes} (h : scopes.Matches outer) (kind : ReferenceKind)
    (id : NodeId) (name : Token) :
    Records (scopes.refer id name) [⟨⟨kind, id, name⟩, [], []⟩] outer := by
  intro id' d
  simp only [StaticScopes.refer, h.distance?, List.mem_singleton, exists_eq_left, Place.around,
    Surroundings.declareAll_nil_right, List.nil_append]
  cases outer.distance? name.lexeme with
  | none => simp
  | some d' => simp [eq_comm]

end Records

namespace Expr

variable {scopes : StaticScopes} {outer : Surroundings} {cls : ClassContext}

/-- The places of two expressions are those of the one and then those of the other. -/
private theorem places_append (e e' : Expr) :
    (e.references ++ e'.references).map (fun r => (⟨r, [], []⟩ : Place)) = e.places ++ e'.places :=
  List.map_append

mutual

/-- What the resolver finds in an expression without faults. -/
theorem resolve_records (h : scopes.Matches outer) (e : Expr)
    (hfault : NoFault (e.resolve cls scopes)) : Records (e.resolve cls scopes) e.places outer := by
  match e with
  | literal _ => exact .nil
  | grouping inner => exact inner.resolve_records h hfault
  | unary _ operand => exact operand.resolve_records h hfault
  | binary _ left right | logical _ left right =>
    obtain ⟨hleft, hright⟩ := NoFault.append_iff.mp hfault
    rw [resolve, places, references, places_append]
    exact (left.resolve_records h hleft).append (right.resolve_records h hright)
  | var id name =>
    -- the check of an initializer adds at most a fault, never a distance
    refine .faults (fun _ _ => ?_) (.refer h .var id name)
    split <;> simp
  | assign id name value =>
    obtain ⟨hvalue, -⟩ := NoFault.append_iff.mp hfault
    exact ((Records.refer h .assign id name).append (value.resolve_records h hvalue)).append_comm
  | call callee _ arguments =>
    obtain ⟨hcallee, harguments⟩ := NoFault.append_iff.mp hfault
    rw [resolve, places, references, List.map_append]
    exact (callee.resolve_records h hcallee).append (resolveList_records h arguments harguments)
  | get object _ => exact object.resolve_records h hfault
  | set object _ value =>
    obtain ⟨hvalue, hobject⟩ := NoFault.append_iff.mp hfault
    rw [resolve, places, references, places_append]
    exact ((object.resolve_records h hobject).append (value.resolve_records h hvalue)).append_comm
  | this id keyword =>
    cases cls with
    | none => simp [resolve] at hfault
    | base | subclass => exact .refer h .this id keyword
  | super id keyword _ =>
    refine .faults (fun _ _ => ?_) (.refer h .super id keyword)
    cases cls <;> simp

/-- What is found in expressions are the distances of their references. -/
theorem resolveList_records (h : scopes.Matches outer) (es : List Expr)
    (hfault : NoFault (resolveList cls scopes es)) :
    Records (resolveList cls scopes es) ((referencesList es).map (⟨·, [], []⟩)) outer := by
  match es with
  | [] => exact .nil
  | e :: rest =>
    obtain ⟨he, hrest⟩ := NoFault.append_iff.mp hfault
    rw [resolveList, referencesList, List.map_append]
    exact (e.resolve_records h he).append (resolveList_records h rest hrest)

end

/-- What is found in an expression that may be missing are the distances of its references. -/
theorem resolveOption_records (h : scopes.Matches outer) (o : Option Expr)
    (hfault : NoFault (resolveOption cls scopes o)) :
    Records (resolveOption cls scopes o) (placesOption o) outer := by
  cases o with
  | none => exact .nil
  | some e => exact e.resolve_records h hfault

end Expr

namespace Stmt

/-- A declaration finds no distance. -/
private theorem distance_not_mem_declare (scopes : StaticScopes) (name : Token) (id : NodeId)
    (d : Nat) : .distance id d ∉ (scopes.declare name).2 := by
  cases scopes with
  | nil => exact List.not_mem_nil
  | cons =>
    rw [StaticScopes.declare]
    split <;> simp

/-- The introduction of names finds no distance. -/
private theorem distance_not_mem_introduce (scopes : StaticScopes) (names : List Token)
    (id : NodeId) (d : Nat) : .distance id d ∉ (scopes.introduce names).2 := by
  induction names generalizing scopes with
  | nil => exact List.not_mem_nil
  | cons name names ih =>
    rw [StaticScopes.introduce_cons, List.mem_append, not_or]
    exact ⟨distance_not_mem_declare scopes name id d, ih _⟩

/-- The check of a `return` finds no distance. -/
private theorem distance_not_mem_returnFaults (inside : FunctionContext) (keyword : Token)
    (value : Option Expr) (id : NodeId) (d : Nat) :
    .distance id d ∉ returnFaults inside keyword value := by
  unfold returnFaults
  split <;> simp

/-- What is found at a superclass is the distance of its name. -/
private theorem resolveSuperclass_records {scopes : StaticScopes} {outer : Surroundings}
    (h : scopes.Matches outer) (name : Token) (superclass : Expr)
    (hfault : NoFault (resolveSuperclass scopes name superclass)) :
    Records (resolveSuperclass scopes name superclass) superclass.places outer := by
  refine .faults (fun _ _ => ?_) (superclass.resolve_records h (NoFault.append_iff.mp hfault).2)
  split
  · split <;> simp
  · simp

mutual

/-- What the resolver finds in a statement without faults, and its scopes behind it. -/
theorem resolve_records {scopes : StaticScopes} {outer : Surroundings} (ctx : ResolveContext)
    (h : scopes.Matches outer) (s : Stmt) (hfault : NoFault (s.resolve ctx scopes).2) :
    (s.resolve ctx scopes).1.Matches (outer.declareAll s.names) ∧
      Records (s.resolve ctx scopes).2 s.places outer := by
  match s with
  | expression value | print value =>
    exact ⟨by simpa [resolve, names] using h, value.resolve_records h hfault⟩
  | varDecl name initializer =>
    have hinitializer := (NoFault.append_iff.mp hfault).2
    exact ⟨h.define name, .faults (distance_not_mem_declare scopes name)
      (.behind (Expr.resolveOption_records (h.declare name) initializer hinitializer))⟩
  | block body =>
    refine ⟨by simpa [resolve, names] using h, ?_⟩
    exact .inside (resolveList_records ctx (h.openEmpty (.block body)) body hfault).2
  | cond condition thenBranch none =>
    obtain ⟨hcondition, hthen⟩ := NoFault.append_iff.mp hfault
    obtain ⟨hafter, hthen⟩ := thenBranch.resolve_records ctx h hthen
    exact ⟨hafter, (condition.resolve_records h hcondition).append hthen⟩
  | cond condition thenBranch (some elseBranch) =>
    obtain ⟨hbefore, helse⟩ := NoFault.append_iff.mp hfault
    obtain ⟨hcondition, hthen⟩ := NoFault.append_iff.mp hbefore
    obtain ⟨hafter, hthen⟩ := thenBranch.resolve_records ctx h hthen
    obtain ⟨hend, helse⟩ := elseBranch.resolve_records ctx hafter helse
    -- what the first branch declares is there for the second one
    rw [Surroundings.declareAll_declareAll] at hend
    exact ⟨hend, ((condition.resolve_records h hcondition).append hthen).append helse.behind⟩
  | loop condition body =>
    obtain ⟨hcondition, hbody⟩ := NoFault.append_iff.mp hfault
    obtain ⟨hafter, hbody⟩ := body.resolve_records ctx h hbody
    exact ⟨hafter, (condition.resolve_records h hcondition).append hbody⟩
  | funDecl d =>
    obtain ⟨name, params, body⟩ := d
    have hbody := (NoFault.append_iff.mp hfault).2
    have hname := h.introduce [name]
    exact ⟨hname, .faults (distance_not_mem_introduce scopes [name])
      (.behind (resolveFunction_records _ hname ⟨name, params, body⟩ hbody))⟩
  | ret keyword value =>
    refine ⟨by simpa [resolve, names] using h, ?_⟩
    exact .faults (distance_not_mem_returnFaults ctx.function keyword value)
      (Expr.resolveOption_records h value (NoFault.append_iff.mp hfault).2)
  | classDecl ⟨name, none, methods⟩ =>
    obtain ⟨-, hmethods⟩ := NoFault.append_iff.mp hfault
    have hname := h.introduce [name]
    have hmethods := resolveMethods_records .base
      (fun d => hname.openWith (.this d) "this") methods hmethods
    -- declaring the name of the class finds faults only
    have hfaults : ∀ id d, .distance id d ∉ (scopes.introduce [name]).2 ++ [] := by
      rw [List.append_nil]
      exact distance_not_mem_introduce scopes [name]
    exact ⟨hname, .faults hfaults (.behind hmethods)⟩
  | classDecl ⟨name, some superclass, methods⟩ =>
    obtain ⟨hbefore, hmethods⟩ := NoFault.append_iff.mp hfault
    have hsuperclass := (NoFault.append_iff.mp hbefore).2
    have hname := h.introduce [name]
    have hsuperclass := resolveSuperclass_records hname name superclass hsuperclass
    have hmethods := resolveMethods_records .subclass (fun d =>
      (hname.openWith (.super name methods) "super").openWith (.this d) "this") methods hmethods
    have hinside := (hsuperclass.append hmethods.inside).behind
    refine ⟨hname, ?_⟩
    have := Records.faults (distance_not_mem_introduce scopes [name]) hinside
    rwa [← List.append_assoc] at this

/-- What the resolver finds in several statements without faults, and its scopes behind them. -/
theorem resolveList_records {scopes : StaticScopes} {outer : Surroundings} (ctx : ResolveContext)
    (h : scopes.Matches outer) (body : List Stmt)
    (hfault : NoFault (resolveList ctx scopes body).2) :
    (resolveList ctx scopes body).1.Matches (outer.declareAll (namesList body)) ∧
      Records (resolveList ctx scopes body).2 (placesList body) outer := by
  match body with
  | [] => exact ⟨by simpa [resolveList, namesList] using h, .nil⟩
  | s :: rest =>
    obtain ⟨hs, hrest⟩ := NoFault.append_iff.mp hfault
    obtain ⟨hafter, hs⟩ := s.resolve_records ctx h hs
    obtain ⟨hend, hrest⟩ := resolveList_records ctx hafter rest hrest
    rw [Surroundings.declareAll_declareAll] at hend
    exact ⟨hend, hs.append hrest.behind⟩

/-- What the resolver finds in a function without faults. -/
theorem resolveFunction_records {scopes : StaticScopes} {outer : Surroundings}
    (ctx : ResolveContext) (h : scopes.Matches outer) (d : FunctionDecl)
    (hfault : NoFault (resolveFunction ctx scopes d)) :
    Records (resolveFunction ctx scopes d) (functionPlaces d) outer := by
  match d with
  | ⟨name, params, body⟩ =>
    have hbody := (NoFault.append_iff.mp hfault).2
    have hparams := (h.openEmpty (.function ⟨name, params, body⟩)).introduce params
    exact .faults (distance_not_mem_introduce _ params)
      (.inside (resolveList_records ctx hparams body hbody).2)

/-- What the resolver finds in the methods of a class without faults. -/
theorem resolveMethods_records {scopes : StaticScopes} {outer : Surroundings} (cls : ClassContext)
    (h : ∀ method, scopes.Matches (⟨.this method, ["this"]⟩ :: outer)) (ds : List FunctionDecl)
    (hfault : NoFault (resolveMethods cls scopes ds)) :
    Records (resolveMethods cls scopes ds) (methodPlaces ds) outer := by
  match ds with
  | [] => exact .nil
  | d :: rest =>
    obtain ⟨hd, hrest⟩ := NoFault.append_iff.mp hfault
    exact (resolveFunction_records _ (h d) d hd).inside.append
      (resolveMethods_records cls h rest hrest)

end

end Stmt

/-! ## Programs -/

namespace Stmt

/-- Where a reference stands in a program is told by its places. -/
theorem standsIn_iff_exists_place {r : Reference} {program : List Stmt} {around : Surroundings} :
    StandsIn r program around ↔
      ∃ p ∈ placesList program, p.reference = r ∧ p.within = around := by
  constructor
  · rintro ⟨s, hs, own, h⟩
    obtain ⟨before, after, rfl⟩ := List.append_of_mem hs
    exact ⟨_, mem_placesList_append h.mem_places before after, rfl, rfl⟩
  · rintro ⟨p, hp, rfl, rfl⟩
    obtain ⟨before, s, after, own, rfl, -, h⟩ := split_of_mem_placesList program hp
    exact ⟨s, by simp, own, h⟩

/-- References of which no two have the same identity stand at one place each. -/
theorem eq_of_reference_id_eq {program : List Stmt} {n n' : Nat}
    (h : Numbered (referencesList program) n n') {p q : Place} (hp : p ∈ placesList program)
    (hq : q ∈ placesList program) (heq : p.reference.id = q.reference.id) : p = q := by
  have hnodup := h.nodup
  rw [← reference_placesList, List.map_map] at hnodup
  exact List.inj_on_of_nodup_map hnodup hp hq (congrArg NodeId.index heq)

end Stmt

namespace Resolution

/-- The distances found in a program without faults are those of its places. -/
theorem mem_distances_iff {program : List Stmt} {distances : List (NodeId × Nat)}
    (hresolved : ofProgram program = ⟨distances, []⟩) (id : NodeId) (d : Nat) :
    (id, d) ∈ distances ↔ ∃ p ∈ Stmt.placesList program, p.reference.id = id ∧
      p.within.distance? p.reference.name.lexeme = some d := by
  have hfault := errors_eq_nil_iff_noFault.mp (congrArg Resolution.errors hresolved)
  have hrecords := (Stmt.resolveList_records ⟨.none, .none⟩ .nil program hfault).2
  have hdistances : (ofProgram program).distances = distances := by rw [hresolved]
  have haround : ∀ p : Place, p.around [] = p.within := fun p => List.append_nil _
  simp only [Records, haround] at hrecords
  rw [← hrecords id d, ← hdistances, ofProgram, List.mem_filterMap]
  constructor
  · rintro ⟨found, hfound, heq⟩
    -- of what is found, faults are not distances
    cases found with
    | fault => cases heq
    | distance =>
      cases heq
      exact hfound
  · exact fun hfound => ⟨_, hfound, rfl⟩

/-- In the table of a program that is parsed and resolved without errors, each reference has the
    number of the first scope around it, counting outward, in which its name is declared before it.
    It has none exactly if there is no such scope, and nothing else has one. -/
theorem records_lexical_distance {ts : List Token} {eof : Token} {n next : Nat}
    {program : List Stmt} {distances : List (NodeId × Nat)} (heof : eof.kind = .eof)
    (hts : ∀ t ∈ ts, t.kind ≠ .eof)
    (hparsed : Parsed.ofTokens (ts ++ [eof]) n = ⟨program, [], next⟩)
    (hresolved : ofProgram program = ⟨distances, []⟩) :
    (∀ r ∈ Stmt.referencesList program, ∃! around, Stmt.StandsIn r program around) ∧
    (∀ r around, Stmt.StandsIn r program around →
      (∀ d, (Distances.empty.insertAll distances).get? r.id = some d ↔
        around.FirstDeclares r.name.lexeme d) ∧
      ((Distances.empty.insertAll distances).get? r.id = none ↔
        ∀ x ∈ around, r.name.lexeme ∉ x.declared)) ∧
    ∀ id d, (Distances.empty.insertAll distances).get? id = some d →
      ∃ r ∈ Stmt.referencesList program, r.id = id := by
  have hderives := Parsed.statements_derives (n := n) heof hts (by rw [hparsed])
  rw [hparsed] at hderives
  have hnumbered : Numbered (Stmt.referencesList program) n next := hderives.numbered
  have hentries := mem_distances_iff hresolved
  have hrecorded {p : Place} (hp : p ∈ Stmt.placesList program) :
      (Distances.empty.insertAll distances).get? p.reference.id =
        p.within.distance? p.reference.name.lexeme := by
    -- an entry with this identity is the one of this place
    have hentry : ∀ d, (p.reference.id, d) ∈ distances →
        p.within.distance? p.reference.name.lexeme = some d := by
      intro d hd
      obtain ⟨q, hq, hid, hdistance⟩ := (hentries _ d).mp hd
      rwa [Stmt.eq_of_reference_id_eq hnumbered hq hp hid] at hdistance
    cases hdistance : p.within.distance? p.reference.name.lexeme with
    | none =>
      rw [Distances.get?_insertAll_of_not_mem, Distances.get?_empty]
      intro d hd
      simpa [hdistance] using hentry d hd
    | some d =>
      refine Distances.get?_insertAll_of_mem _ ((hentries _ d).mpr ⟨p, hp, rfl, hdistance⟩) ?_
      intro d' hd'
      simpa [hdistance, eq_comm] using hentry d' hd'
  refine ⟨fun r hr => ?_, fun r around hstands => ?_, fun id d hget => ?_⟩
  · rw [← Stmt.reference_placesList, List.mem_map] at hr
    obtain ⟨p, hp, rfl⟩ := hr
    refine ⟨p.within, Stmt.standsIn_iff_exists_place.mpr ⟨p, hp, rfl, rfl⟩, fun around h => ?_⟩
    obtain ⟨q, hq, href, rfl⟩ := Stmt.standsIn_iff_exists_place.mp h
    rw [Stmt.eq_of_reference_id_eq hnumbered hq hp (congrArg Reference.id href)]
  · obtain ⟨p, hp, rfl, rfl⟩ := Stmt.standsIn_iff_exists_place.mp hstands
    rw [hrecorded hp]
    exact ⟨fun d => Surroundings.distance?_eq_some_iff, Surroundings.distance?_eq_none_iff⟩
  · have hmem : ∃ d, (id, d) ∈ distances := by
      by_contra hnone
      rw [Distances.get?_insertAll_of_not_mem _ (not_exists.mp hnone)] at hget
      simp at hget
    obtain ⟨d, hd⟩ := hmem
    obtain ⟨p, hp, rfl, -⟩ := (hentries id d).mp hd
    refine ⟨p.reference, ?_, rfl⟩
    rw [← Stmt.reference_placesList]
    exact List.mem_map_of_mem hp

/-- The tokens of `class A < B { m(x) { return super.m + x; } }`. -/
private def subclass : List Token :=
  [⟨.keyword .class_, "class", 1⟩, .name "A" 1, ⟨.less, "<", 1⟩, .name "B" 1,
    ⟨.leftBrace, "\x7b", 1⟩, .name "m" 1, ⟨.leftParen, "(", 1⟩, .name "x" 1,
    ⟨.rightParen, ")", 1⟩, ⟨.leftBrace, "\x7b", 1⟩, ⟨.keyword .return_, "return", 1⟩,
    ⟨.keyword .super, "super", 1⟩, ⟨.dot, ".", 1⟩, .name "m" 1, ⟨.plus, "+", 1⟩, .name "x" 1,
    ⟨.semicolon, ";", 1⟩, ⟨.rightBrace, "\x7d", 1⟩, ⟨.rightBrace, "\x7d", 1⟩]

/-- Its statements. -/
private def subclassProgram : List Stmt :=
  (Parsed.ofTokens (subclass ++ [.eof 1]) 0).statements

/-- The `super` stands in the scope of the method, the one of `this` and the one of `super`, of
    which only the last declares it. -/
theorem records_distance_of_super :
    (Token.eof 1).kind = .eof ∧ (∀ t ∈ subclass, t.kind ≠ .eof) ∧
    Parsed.ofTokens (subclass ++ [.eof 1]) 0 = ⟨subclassProgram, [], 3⟩ ∧
    ofProgram subclassProgram = ⟨[(⟨1⟩, 2), (⟨2⟩, 0)], []⟩ ∧
    ∃ around, Stmt.StandsIn ⟨.super, ⟨1⟩, ⟨.keyword .super, "super", 1⟩⟩ subclassProgram around ∧
      around.FirstDeclares "super" 2 := by
  have hkinds : ∀ t ∈ subclass, t.kind ≠ .eof := by decide
  have hparsed : Parsed.ofTokens (subclass ++ [.eof 1]) 0 = ⟨subclassProgram, [], 3⟩ := by rfl
  have hresolved : ofProgram subclassProgram = ⟨[(⟨1⟩, 2), (⟨2⟩, 0)], []⟩ := by rfl
  obtain ⟨hstands, hdistance, -⟩ := records_lexical_distance rfl hkinds hparsed hresolved
  have hmem : ⟨.super, ⟨1⟩, ⟨.keyword .super, "super", 1⟩⟩ ∈ Stmt.referencesList subclassProgram :=
    List.mem_cons_of_mem _ List.mem_cons_self
  obtain ⟨around, haround, -⟩ := hstands _ hmem
  have hdeclares := ((hdistance _ around haround).1 2).mp rfl
  exact ⟨rfl, hkinds, hparsed, hresolved, around, haround, hdeclares⟩

end Resolution

end Lox
