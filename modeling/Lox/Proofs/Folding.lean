import Lox.Proofs.DirectLoops
import Lox.Proofs.Related
import Lox.Proofs.Rooted

/-!
# Machines with and without scopes for rounds

Two machines execute the same program, the second one directly. On the first one there are
additional scopes, one for each round of a loop. They bind nothing; each other scope of the first
machine is found on the second one, with the same names bound to the same values, up to the scopes
of functions.

A place in the program is between the two: the scopes around it are those that the text says, on the
first machine all of them, on the second one without the additional ones. This is what makes the two
distances of a reference lead to the same variable.

## Key results

- `Folding.Along.exists_ancestor?`: the two distances of a name lead to the same scope
- `Folding.Agrees`: what two such machines have in common
- `Folding.Agrees.bind`, `Folding.Agrees.child`, `Folding.Agrees.withAdditional`: what steps
  keep
-/

namespace Lox

/-! ## Distances -/

namespace Surroundings

variable {choice : Choice} {around : Surroundings}

/-- A name may be declared here: the innermost scope is no additional one. -/
def Admits (choice : Choice) (around : Surroundings) : Prop :=
  ∀ x ∈ around.head?, x.opener.isBare choice = false

/-- A declared name changes nothing about which scopes may be left out. -/
theorem Admits.declare (h : around.Admits choice) (name : String) :
    (around.declare name).Admits choice := by
  cases around with
  | nil => exact h
  | cons x outer =>
    rintro _ ⟨⟩
    exact h x rfl

/-- A scope that is not left out is there directly. -/
theorem direct_cons_kept {x : Enclosing} (hx : x.opener.isBare choice = false)
    (around : Surroundings) : direct choice (x :: around) = x :: around.direct choice :=
  List.filter_cons_of_pos (by simp [hx])

/-- A scope that is left out is not there directly. -/
theorem direct_cons_bare {x : Enclosing} (hx : x.opener.isBare choice = true)
    (around : Surroundings) : direct choice (x :: around) = around.direct choice :=
  List.filter_cons_of_neg (by simp [hx])

/-- One more scope that both executions open. -/
theorem length_direct_take_succ {i : Nat} {x : Enclosing} (hi : around[i]? = some x)
    (hx : x.opener.isBare choice = false) :
    (direct choice (around.take (i + 1))).length =
      (direct choice (around.take i)).length + 1 := by
  rw [List.take_add_one, hi, direct, List.filter_append, List.length_append]
  simp [direct, hx]

end Surroundings

/-! ## Two machines -/

/-- Two machines, and where each scope of the first one is found on the second one. Additional
    scopes are nowhere. -/
structure Folding where
  left : Machine
  right : Machine
  places : List (Option ScopeId)

namespace Folding

/-- A scope of the first machine is found at this place of the second one. -/
def At (w : Folding) (e e' : ScopeId) : Prop :=
  w.places[e.index]? = some (some e')

/-- A scope of the first machine is an additional one. -/
def Additional (w : Folding) (e : ScopeId) : Prop :=
  w.places[e.index]? = some none

/-- The scopes from two scopes outward are those around a place in the program. -/
inductive Along (choice : Choice) (w : Folding) : Surroundings → ScopeId → ScopeId → Prop
  | outside {e e' : ScopeId} (he : w.At e e') : Along choice w [] e e'
  | both {x : Enclosing} {around : Surroundings} {e e' p p' : ScopeId}
      (hx : x.opener.isBare choice = false) (he : w.At e e')
      (hp : w.left.scopes.parent? e = some p) (hp' : w.right.scopes.parent? e' = some p')
      (houter : Along choice w around p p') : Along choice w (x :: around) e e'
  | bare {x : Enclosing} {around : Surroundings} {e p e' : ScopeId}
      (hx : x.opener.isBare choice = true) (hdeclared : x.declared = []) (he : w.Additional e)
      (hp : w.left.scopes.parent? e = some p) (houter : Along choice w around p e') :
      Along choice w (x :: around) e e'

namespace Along

variable {choice : Choice} {w : Folding} {around : Surroundings} {e e' : ScopeId}

/-- Along surroundings both machines are at scopes that correspond. -/
theorem at_ (h : w.Along choice around e e') (hadmits : around.Admits choice) : w.At e e' := by
  cases h with
  | outside he => exact he
  | both _ he => exact he
  | bare hx => simp [hadmits _ rfl] at hx

/-- A declaration is one in a scope of both machines. -/
theorem declare (h : w.Along choice around e e') (hadmits : around.Admits choice) (name : String) :
    w.Along choice (around.declare name) e e' := by
  cases h with
  | outside he => exact .outside he
  | both hx he hp hp' houter => exact .both hx he hp hp' houter
  | bare hx => simp [hadmits _ rfl] at hx

/-- So many links outward on the first machine are on the second one as many as there are scopes
    among them that it has, too. -/
theorem ancestor? (h : w.Along choice around e e') {i : Nat} {x : Enclosing}
    (hi : around[i]? = some x) (hx : x.opener.isBare choice = false) :
    ∃ a a', w.left.scopes.ancestor? e i = some a ∧
      w.right.scopes.ancestor? e' (Surroundings.direct choice (around.take i)).length = some a' ∧
      w.At a a' := by
  induction h generalizing i with
  | outside => simp at hi
  | @both y around e e' p p' hy he hp hp' _ ih =>
    cases i with
    | zero =>
      have hlt := Scopes.lt_size_of_parent? hp
      have hlt' := Scopes.lt_size_of_parent? hp'
      refine ⟨e, e', ?_, ?_, he⟩
      · simp [Scopes.ancestor?, hlt]
      · simp [Surroundings.direct, Scopes.ancestor?, hlt']
    | succ i =>
      obtain ⟨a, a', ha, ha', hat⟩ := ih hi
      refine ⟨a, a', ?_, ?_, hat⟩
      · rw [Scopes.ancestor?, hp]
        exact ha
      · rw [List.take_succ_cons, Surroundings.direct_cons_kept hy, List.length_cons,
          Scopes.ancestor?, hp']
        exact ha'
  | @bare y around e p e' hy _ _ hp _ ih =>
    cases i with
    -- an additional scope is not the one that is looked for, which both machines have
    | zero =>
      obtain rfl : y = x := by simpa using hi
      simp [hx] at hy
    | succ i =>
      obtain ⟨a, a', ha, ha', hat⟩ := ih hi
      refine ⟨a, a', ?_, ?_, hat⟩
      · rw [Scopes.ancestor?, hp]
        exact ha
      · rwa [List.take_succ_cons, Surroundings.direct_cons_bare hy]

/-- A scope that declares a name is one of both machines. -/
theorem isBare_of_declares (h : w.Along choice around e e') {x : Enclosing} (hx : x ∈ around)
    {name : String} (hname : name ∈ x.declared) : x.opener.isBare choice = false := by
  induction h with
  | outside => cases hx
  | both hy _ _ _ _ ih =>
    rcases List.mem_cons.mp hx with rfl | hx
    · exact hy
    · exact ih hx
  -- an additional scope declares no name
  | bare _ hdeclared _ _ _ ih =>
    rcases List.mem_cons.mp hx with rfl | hx
    · simp [hdeclared] at hname
    · exact ih hx

/-- Additional scopes declare nothing, so they are left out of a distance and nothing else
    changes. -/
theorem distance?_direct (h : w.Along choice around e e') (name : String) :
    (around.direct choice).distance? name =
      (around.distance? name).map fun d => (Surroundings.direct choice (around.take d)).length := by
  induction h with
  | outside => rfl
  -- a scope of both machines counts on both
  | @both x around _ _ _ _ hx _ _ _ _ ih =>
    rw [Surroundings.direct_cons_kept hx, Surroundings.distance?_cons, Surroundings.distance?_cons, ih]
    by_cases hname : name ∈ x.declared
    · simp [hname, Surroundings.direct]
    · simp [hname, Function.comp_def, Surroundings.direct_cons_kept hx]
  -- an additional one counts on the first machine alone
  | @bare x around _ _ _ hx hdeclared _ _ _ ih =>
    rw [Surroundings.direct_cons_bare hx, Surroundings.distance?_cons, ih]
    simp [hdeclared, Function.comp_def, Surroundings.direct_cons_bare hx]

/-- The two distances of a name lead to the same scope. -/
theorem exists_ancestor? (h : w.Along choice around e e') {name : String} {d : Nat}
    (hd : around.distance? name = some d) :
    ∃ d' a a', (around.direct choice).distance? name = some d' ∧
      w.left.scopes.ancestor? e d = some a ∧ w.right.scopes.ancestor? e' d' = some a' ∧
      w.At a a' := by
  obtain ⟨x, hx, hname⟩ := Surroundings.getElem?_of_distance? hd
  have hkept := h.isBare_of_declares (List.mem_of_getElem? hx) hname
  obtain ⟨a, a', ha, ha', hat⟩ := h.ancestor? hx hkept
  refine ⟨_, a, a', ?_, ha, ha', hat⟩
  rw [h.distance?_direct, hd]
  rfl

end Along

end Folding

/-! ## Values -/

section Values

variable (choice : Choice) (A : Use → Prop)

/-- The same function on both machines. Its uses are legitimate at the place of its declaration;
    between this place and the code are the scopes that will be opened when it is bound. -/
structure Closure.Folds (w : Folding) (binding : FunctionDecl → Surroundings) (c c' : Closure) :
    Prop where
  id : c'.id = c.id
  declaration : c'.declaration = c.declaration
  isInitializer : c'.isInitializer = c.isInitializer
  scope : w.At c.scope c'.scope
  wellFormed : Stmt.WellFormedFunction c.declaration
  code : ∃ around, w.Along choice around c.scope c'.scope ∧
    ∀ u ∈ Stmt.functionUses (binding c.declaration ++ around) c.declaration, A u

/-- Nothing more is opened for a function. -/
def FunctionDecl.asFunction (_ : FunctionDecl) : Surroundings :=
  []

/-- A method is not bound to an instance yet. -/
def FunctionDecl.asMethod (d : FunctionDecl) : Surroundings :=
  [⟨.this d, ["this"]⟩]

/-- Two values that are the same up to the scopes of functions. -/
abbrev Value.Folds (w : Folding) : Value → Value → Prop :=
  Value.Related (Closure.Folds choice A w FunctionDecl.asFunction)
    (Closure.Folds choice A w FunctionDecl.asMethod)

abbrev Class.Folds (w : Folding) : Class → Class → Prop :=
  Class.Related (Closure.Folds choice A w FunctionDecl.asMethod)

/-- What a name is bound to on both machines. -/
inductive Binding.Folds (w : Folding) : Binding → Binding → Prop
  | uninitialized : Folds w .uninitialized .uninitialized
  | value {v v' : Value} (h : v.Folds choice A w v') : Folds w (.value v) (.value v')

variable {choice A} {A' : Use → Prop} {w w' : Folding} {binding : FunctionDecl → Surroundings}
  {c c' : Closure}

/-- What relates the values of bindings may be weakened. -/
theorem Binding.Folds.mono {b b' : Option Binding} (h : Option.Rel (Binding.Folds choice A w) b b')
    (hvalue : ∀ v v', Value.Folds choice A w v v' → Value.Folds choice A' w' v v') :
    Option.Rel (Binding.Folds choice A' w') b b' := by
  cases h with
  | none => exact .none
  | some hb =>
    cases hb with
    | uninitialized => exact .some .uninitialized
    | value hv => exact .some (.value (hvalue _ _ hv))

/-- A function whose uses are legitimate by other standards, too. -/
theorem Closure.Folds.widen (h : Closure.Folds choice A w binding c c')
    (hA : ∀ u, A u → A' u) : Closure.Folds choice A' w binding c c' := by
  obtain ⟨around, haround, huses⟩ := h.code
  exact ⟨h.id, h.declaration, h.isInitializer, h.scope, h.wellFormed, around, haround,
    fun u hu => hA u (huses u hu)⟩

/-- From outside nobody can tell closures that correspond apart. -/
theorem Closure.Folds.sameFace (h : Closure.Folds choice A w binding c c') : c.SameFace c' :=
  ⟨h.id, congrArg (·.name.lexeme) h.declaration, congrArg (·.arity) h.declaration, h.isInitializer⟩

end Values

namespace Folding

/-- Two machines that execute the same program, the second one directly: they are in the same state,
    up to additional scopes of the first one, which bind nothing, and to the scopes of functions.
    Recorded are the distances of the legitimate uses, on each machine its own. -/
structure Agrees (choice : Choice) (A : Use → Prop) (w : Folding) : Prop where
  length : w.places.length = w.left.scopes.size
  lt_size : ∀ {e e' : ScopeId}, w.At e e' → e'.index < w.right.scopes.size
  inj : ∀ {e₁ e₂ e' : ScopeId}, w.At e₁ e' → w.At e₂ e' → e₁ = e₂
  surj : ∀ e' : ScopeId, e'.index < w.right.scopes.size → ∃ e, w.At e e'
  bindings : ∀ {e e' : ScopeId}, w.At e e' → ∀ name, Option.Rel (Binding.Folds choice A w)
    (w.left.scopes.binding? e name) (w.right.scopes.binding? e' name)
  additional : ∀ {e : ScopeId}, w.Additional e → ∀ name, w.left.scopes.binding? e name = none
  globals : w.At w.left.globals w.right.globals
  callLine : w.right.callLine = w.left.callLine
  distances : ∀ u, A u → w.left.distances.get? u.reference.id = u.distance? ∧
    w.right.distances.get? u.reference.id = u.directDistance? choice
  sound : ∀ u, A u → u.Sound
  fields : Fields.Related (Value.Folds choice A w) w.left.fields w.right.fields
  nextObject : w.right.nextObject = w.left.nextObject
  natives : w.right.natives = w.left.natives
  codeBlind : ∀ n ∈ w.left.natives, n.CodeBlind
  clock : w.right.clock = w.left.clock
  sink : w.right.sink = w.left.sink

/-- Scopes are only added, and stay where they are. -/
structure Grows (w w' : Folding) : Prop where
  places : w.places <+: w'.places
  left : w.left.scopes.Extends w'.left.scopes
  right : w.right.scopes.Extends w'.right.scopes

/-- What every action keeps. -/
structure Keeps (w w' : Folding) : Prop extends w.Grows w' where
  globals : w'.left.globals = w.left.globals
  globals' : w'.right.globals = w.right.globals
  current : w'.left.current = w.left.current
  current' : w'.right.current = w.right.current
  distances : w'.left.distances = w.left.distances
  distances' : w'.right.distances = w.right.distances

variable {choice : Choice} {A : Use → Prop} {w w' w'' : Folding}

namespace Grows

theorem refl (w : Folding) : w.Grows w :=
  ⟨List.prefix_refl _, .refl _, .refl _⟩

theorem trans (h : w.Grows w') (h' : w'.Grows w'') : w.Grows w'' :=
  ⟨h.places.trans h'.places, h.left.trans h'.left, h.right.trans h'.right⟩

/-- The place of a scope stays. -/
theorem getElem? (h : w.Grows w') {i : Nat} {place : Option ScopeId}
    (hi : w.places[i]? = some place) : w'.places[i]? = some place := by
  obtain ⟨after, hafter⟩ := h.places
  rw [← hafter, List.getElem?_append_left (List.getElem?_eq_some_iff.mp hi).1, hi]

/-- Scopes that correspond go on to do so. -/
theorem at_ (h : w.Grows w') {e e' : ScopeId} (he : w.At e e') : w'.At e e' :=
  h.getElem? he

/-- A scope that is additional stays so. -/
theorem additional (h : w.Grows w') {e : ScopeId} (he : w.Additional e) : w'.Additional e :=
  h.getElem? he

/-- Scopes that correspond along surroundings go on to do so. -/
theorem along (h : w.Grows w') {around : Surroundings} {e e' : ScopeId}
    (he : w.Along choice around e e') : w'.Along choice around e e' := by
  induction he with
  | outside he => exact .outside (h.at_ he)
  | both hx he hp hp' _ ih =>
    refine .both hx (h.at_ he) ?_ ?_ ih
    · rw [h.left.parent? _ (Scopes.lt_size_of_parent? hp), hp]
    · rw [h.right.parent? _ (Scopes.lt_size_of_parent? hp'), hp']
  | bare hx hdeclared he hp _ ih =>
    refine .bare hx hdeclared (h.additional he) ?_ ih
    rw [h.left.parent? _ (Scopes.lt_size_of_parent? hp), hp]

/-- Closures that correspond go on to do so. -/
theorem closure (h : w.Grows w') {binding : FunctionDecl → Surroundings} {c c' : Closure}
    (hc : c.Folds choice A w binding c') : c.Folds choice A w' binding c' := by
  obtain ⟨around, haround, huses⟩ := hc.code
  exact ⟨hc.id, hc.declaration, hc.isInitializer, h.at_ hc.scope, hc.wellFormed, around,
    h.along haround, huses⟩

/-- Values that correspond go on to do so. -/
theorem value (h : w.Grows w') {v v' : Value} (hv : v.Folds choice A w v') :
    v.Folds choice A w' v' :=
  hv.mono (fun _ _ => h.closure) fun _ _ => h.closure

/-- Classes that correspond go on to do so. -/
theorem class_ (h : w.Grows w') {c c' : Class} (hc : c.Folds choice A w c') :
    c.Folds choice A w' c' :=
  hc.mono fun _ _ => h.closure

/-- Bindings that correspond go on to do so. -/
theorem binding (h : w.Grows w') {b b' : Option Binding}
    (hb : Option.Rel (Binding.Folds choice A w) b b') :
    Option.Rel (Binding.Folds choice A w') b b' :=
  Binding.Folds.mono hb fun _ _ => h.value

end Grows

namespace Keeps

theorem refl (w : Folding) : w.Keeps w :=
  ⟨.refl w, rfl, rfl, rfl, rfl, rfl, rfl⟩

theorem trans (h : w.Keeps w') (h' : w'.Keeps w'') : w.Keeps w'' :=
  ⟨h.toGrows.trans h'.toGrows, h'.globals.trans h.globals, h'.globals'.trans h.globals',
    h'.current.trans h.current, h'.current'.trans h.current', h'.distances.trans h.distances,
    h'.distances'.trans h.distances'⟩

/-- The machines stay at their place in the program. -/
theorem along (h : w.Keeps w') {around : Surroundings}
    (haround : w.Along choice around w.left.current w.right.current) :
    w'.Along choice around w'.left.current w'.right.current := by
  rw [h.current, h.current']
  exact h.toGrows.along haround

end Keeps

/-! ## What the parts of a step do -/

/-- Another state of the machines, with the same scopes. -/
def with_ (w : Folding) (m m' : Machine) : Folding :=
  ⟨m, m', w.places⟩

/-- In other scopes. -/
def in_ (w : Folding) (e e' : ScopeId) : Folding :=
  w.with_ { w.left with current := e } { w.right with current := e' }

/-- During a call on another line. -/
def onLine (w : Folding) (line : Nat) : Folding :=
  w.with_ { w.left with callLine := line } { w.right with callLine := line }

/-- With an additional scope of the first machine. -/
def withAdditional (w : Folding) (e : ScopeId) : Folding :=
  ⟨{ w.left with scopes := (w.left.scopes.child e).1 }, w.right, w.places ++ [none]⟩

/-- In other current scopes the same scopes correspond. -/
theorem grows_in (w : Folding) (e e' : ScopeId) : w.Grows (w.in_ e e') :=
  ⟨List.prefix_refl _, .refl _, .refl _⟩

/-- On another line the same scopes correspond. -/
theorem grows_onLine (w : Folding) (line : Nat) : w.Grows (w.onLine line) :=
  ⟨List.prefix_refl _, .refl _, .refl _⟩

namespace Agrees

/-- Another state of what is not in the scopes. -/
theorem withState (h : w.Agrees choice A) (m m' : Machine) (hscopes : m.scopes = w.left.scopes)
    (hscopes' : m'.scopes = w.right.scopes) (hglobals : m.globals = w.left.globals)
    (hglobals' : m'.globals = w.right.globals) (hline : m'.callLine = m.callLine)
    (hdistances : m.distances = w.left.distances) (hdistances' : m'.distances = w.right.distances)
    (hfields : Fields.Related (Value.Folds choice A w) m.fields m'.fields)
    (hnext : m'.nextObject = m.nextObject) (hnatives : m.natives = w.left.natives)
    (hnatives' : m'.natives = w.right.natives) (hclock : m'.clock = m.clock)
    (hsink : m'.sink = m.sink) :
    w.Grows (w.with_ m m') ∧ (w.with_ m m').Agrees choice A := by
  -- the scopes stay, so does what corresponds to what
  have hgrows : w.Grows (w.with_ m m') := by
    refine ⟨List.prefix_refl _, ?_, ?_⟩
    · show w.left.scopes.Extends m.scopes
      rw [hscopes]
      exact .refl _
    · show w.right.scopes.Extends m'.scopes
      rw [hscopes']
      exact .refl _
  refine ⟨hgrows, ?_, fun {e e'} he => ?_, h.inj, fun e' he' => ?_, fun {e e'} he name => ?_,
    fun {e} he name => ?_, ?_, hline, fun u hu => ?_, h.sound, hfields.mono fun _ _ => hgrows.value,
    hnext, ?_, ?_, hclock, hsink⟩
  · show w.places.length = m.scopes.size
    rw [hscopes, h.length]
  · show e'.index < m'.scopes.size
    rw [hscopes']
    exact h.lt_size he
  · have he' : e'.index < m'.scopes.size := he'
    rw [hscopes'] at he'
    exact h.surj e' he'
  · show Option.Rel _ (m.scopes.binding? e name) (m'.scopes.binding? e' name)
    rw [hscopes, hscopes']
    exact hgrows.binding (h.bindings he name)
  · show m.scopes.binding? e name = none
    rw [hscopes]
    exact h.additional he name
  · show w.At m.globals m'.globals
    rw [hglobals, hglobals']
    exact h.globals
  · show m.distances.get? _ = _ ∧ m'.distances.get? _ = _
    rw [hdistances, hdistances']
    exact h.distances u hu
  · show m'.natives = m.natives
    rw [hnatives, hnatives', h.natives]
  · show ∀ n ∈ m.natives, _
    rw [hnatives]
    exact h.codeBlind

/-- Both may go to other scopes. -/
theorem in_ (h : w.Agrees choice A) (e e' : ScopeId) : (w.in_ e e').Agrees choice A :=
  (h.withState { w.left with current := e } { w.right with current := e' } rfl rfl rfl rfl
    h.callLine rfl rfl h.fields h.nextObject rfl rfl h.clock h.sink).2

/-- Both may note the same line. -/
theorem onLine (h : w.Agrees choice A) (line : Nat) : (w.onLine line).Agrees choice A :=
  (h.withState { w.left with callLine := line } { w.right with callLine := line } rfl rfl rfl rfl
    rfl rfl rfl h.fields h.nextObject rfl rfl h.clock h.sink).2

/-- A name is bound to something in a scope of both machines. -/
theorem bind (h : w.Agrees choice A) {e e' : ScopeId} (he : w.At e e') (name : String)
    {b b' : Binding} (hb : b.Folds choice A w b') :
    let w' := w.with_ { w.left with scopes := w.left.scopes.bind e name b }
      { w.right with scopes := w.right.scopes.bind e' name b' }
    w.Keeps w' ∧ w'.Agrees choice A := by
  intro w'
  have hgrows : w.Grows w' := ⟨List.prefix_refl _, .bind .., .bind ..⟩
  have hlt : e.index < w.left.scopes.size := h.length ▸ (List.getElem?_eq_some_iff.mp he).1
  have hlt' := h.lt_size he
  refine ⟨⟨hgrows, rfl, rfl, rfl, rfl, rfl, rfl⟩, ?_, fun {e₁ e₁'} he₁ => ?_,
    h.inj, fun e₁' he₁' => ?_,
    fun {e₁ e₁'} he₁ name₁ => ?_, fun {e₁} he₁ name₁ => ?_, h.globals, h.callLine, h.distances,
    h.sound, h.fields.mono fun _ _ => hgrows.value, h.nextObject,
    h.natives, h.codeBlind, h.clock, h.sink⟩
  · exact h.length.trans (Scopes.size_bind ..).symm
  · show e₁'.index < (w.right.scopes.bind ..).size
    rw [Scopes.size_bind]
    exact h.lt_size he₁
  · have he₁' : e₁'.index < (w.right.scopes.bind e' name b').size := he₁'
    rw [Scopes.size_bind] at he₁'
    exact h.surj e₁' he₁'
  · show Option.Rel _ ((w.left.scopes.bind e name b).binding? e₁ name₁)
      ((w.right.scopes.bind e' name b').binding? e₁' name₁)
    rw [Scopes.binding?_bind, Scopes.binding?_bind]
    -- the two scopes are the same one on both machines or on none
    have hsame : e = e₁ ↔ e' = e₁' := by
      constructor
      · rintro rfl
        exact Option.some.inj (Option.some.inj (he.symm.trans he₁))
      · rintro rfl
        exact h.inj he he₁
    by_cases hbound : e = e₁ ∧ name = name₁
    · rw [if_pos ⟨hbound.1, hbound.2, hlt⟩, if_pos ⟨hsame.mp hbound.1, hbound.2, hlt'⟩]
      exact hgrows.binding (.some hb)
    · rw [if_neg fun heq => hbound ⟨heq.1, heq.2.1⟩,
        if_neg fun heq => hbound ⟨hsame.mpr heq.1, heq.2.1⟩]
      exact hgrows.binding (h.bindings he₁ name₁)
  · show (w.left.scopes.bind e name b).binding? e₁ name₁ = none
    have hne : e ≠ e₁ := by
      rintro rfl
      cases he.symm.trans he₁
    rw [Scopes.binding?_bind, if_neg fun heq => hne heq.1]
    exact h.additional he₁ name₁

/-- A place is one of those before, or it is that of the last scope. -/
private theorem mem_or_last {places : List (Option ScopeId)} {last place : Option ScopeId} {i : Nat}
    (h : (places ++ [last])[i]? = some place) :
    places[i]? = some place ∨ i = places.length ∧ place = last := by
  rcases Nat.lt_trichotomy i places.length with hlt | rfl | hgt
  · rw [List.getElem?_append_left hlt] at h
    exact .inl h
  · rw [List.getElem?_concat_length] at h
    exact .inr ⟨rfl, (Option.some.inj h).symm⟩
  -- behind the last scope there is no place
  · have hle : (places ++ [last]).length ≤ i := by
      rw [List.length_append, List.length_singleton]
      omega
    rw [List.getElem?_eq_none hle] at h
    cases h

/-- A scope is opened on both machines. -/
theorem child (h : w.Agrees choice A) {e e' : ScopeId} (he : e.index < w.left.scopes.size)
    (he' : e'.index < w.right.scopes.size) :
    let w' : Folding := ⟨{ w.left with scopes := (w.left.scopes.child e).1 },
      { w.right with scopes := (w.right.scopes.child e').1 },
      w.places ++ [some ⟨w.right.scopes.size⟩]⟩
    w.Keeps w' ∧ w'.Agrees choice A ∧ w'.At ⟨w.left.scopes.size⟩ ⟨w.right.scopes.size⟩ := by
  intro w'
  have hgrows : w.Grows w' := ⟨List.prefix_append .., .child he, .child he'⟩
  have hcases : ∀ {e₁ e₁' : ScopeId}, w'.At e₁ e₁' →
      w.At e₁ e₁' ∨ e₁.index = w.left.scopes.size ∧ e₁' = ⟨w.right.scopes.size⟩ := by
    intro e₁ e₁' he₁
    rcases mem_or_last he₁ with he₁ | ⟨hi, hplace⟩
    · exact .inl he₁
    · exact .inr ⟨hi.trans h.length, Option.some.inj hplace⟩
  have hnew : w'.At ⟨w.left.scopes.size⟩ ⟨w.right.scopes.size⟩ := by
    show (w.places ++ [_])[w.left.scopes.size]? = _
    rw [← h.length]
    exact List.getElem?_concat_length
  refine ⟨⟨hgrows, rfl, rfl, rfl, rfl, rfl, rfl⟩, ⟨?_, fun {e₁ e₁'} he₁ => ?_,
    fun {e₁ e₂ e₁'} he₁ he₂ => ?_,
    fun e₁' he₁' => ?_, fun {e₁ e₁'} he₁ name => ?_, fun {e₁} he₁ name => ?_, hgrows.at_ h.globals,
    h.callLine, h.distances, h.sound, h.fields.mono fun _ _ => hgrows.value, h.nextObject,
    h.natives, h.codeBlind, h.clock, h.sink⟩, hnew⟩
  · show (w.places ++ [_]).length = (w.left.scopes.child e).1.size
    rw [Scopes.size_child he, List.length_append, h.length]
    rfl
  · show e₁'.index < (w.right.scopes.child e').1.size
    rw [Scopes.size_child he']
    rcases hcases he₁ with he₁ | ⟨-, rfl⟩
    · exact Nat.lt_succ_of_lt (h.lt_size he₁)
    · exact Nat.lt_succ_self _
  · rcases hcases he₁ with he₁ | ⟨hi₁, rfl⟩
    · rcases hcases he₂ with he₂ | ⟨-, rfl⟩
      · exact h.inj he₁ he₂
      · exact absurd (h.lt_size he₁) (Nat.lt_irrefl _)
    · rcases hcases he₂ with he₂ | ⟨hi₂, -⟩
      · exact absurd (h.lt_size he₂) (Nat.lt_irrefl _)
      · cases e₁
        cases e₂
        exact congrArg ScopeId.mk (hi₁.trans hi₂.symm)
  · have he₁' : e₁'.index < (w.right.scopes.child e').1.size := he₁'
    rw [Scopes.size_child he'] at he₁'
    rcases Nat.lt_succ_iff_lt_or_eq.mp he₁' with hlt | heq
    · obtain ⟨e₁, he₁⟩ := h.surj e₁' hlt
      exact ⟨e₁, hgrows.at_ he₁⟩
    · obtain rfl : e₁' = ⟨w.right.scopes.size⟩ := by
        cases e₁'
        exact congrArg ScopeId.mk heq
      exact ⟨_, hnew⟩
  · show Option.Rel _ ((w.left.scopes.child e).1.binding? e₁ name)
      ((w.right.scopes.child e').1.binding? e₁' name)
    rw [Scopes.binding?_child _ _ _ _ he, Scopes.binding?_child _ _ _ _ he']
    rcases hcases he₁ with he₁ | ⟨hi, rfl⟩
    · exact hgrows.binding (h.bindings he₁ name)
    · -- the new scopes bind nothing
      rw [Scopes.binding?, Scopes.binding?, Array.getElem?_eq_none (Nat.le_of_eq hi.symm),
        Array.getElem?_eq_none (Nat.le_refl _)]
      exact .none
  · show (w.left.scopes.child e).1.binding? e₁ name = none
    rw [Scopes.binding?_child _ _ _ _ he]
    rcases mem_or_last he₁ with he₁ | ⟨-, hplace⟩
    · exact h.additional he₁ name
    · cases hplace

/-- An additional scope is opened on the first machine. -/
theorem withAdditional (h : w.Agrees choice A) {e : ScopeId} (he : e.index < w.left.scopes.size) :
    w.Keeps (w.withAdditional e) ∧ (w.withAdditional e).Agrees choice A ∧
      (w.withAdditional e).Additional ⟨w.left.scopes.size⟩ := by
  have hgrows : w.Grows (w.withAdditional e) := ⟨List.prefix_append .., .child he, .refl _⟩
  -- the new scope corresponds to none of the second machine, so no pair is added
  have hold : ∀ {e₁ e₁' : ScopeId}, (w.withAdditional e).At e₁ e₁' → w.At e₁ e₁' := by
    intro e₁ e₁' he₁
    rcases mem_or_last he₁ with he₁ | ⟨-, hplace⟩
    · exact he₁
    · cases hplace
  refine ⟨⟨hgrows, rfl, rfl, rfl, rfl, rfl, rfl⟩, ⟨?_, fun {e₁ e₁'} he₁ => h.lt_size (hold he₁),
    fun he₁ he₂ => h.inj (hold he₁) (hold he₂), fun e₁' he₁' => ?_, fun {e₁ e₁'} he₁ name => ?_,
    fun {e₁} he₁ name => ?_, hgrows.at_ h.globals, h.callLine, h.distances, h.sound,
    h.fields.mono fun _ _ => hgrows.value, h.nextObject, h.natives, h.codeBlind, h.clock, h.sink⟩, ?_⟩
  · show (w.places ++ [_]).length = (w.left.scopes.child e).1.size
    rw [Scopes.size_child he, List.length_append, h.length]
    rfl
  · obtain ⟨e₁, he₁⟩ := h.surj e₁' he₁'
    exact ⟨e₁, hgrows.at_ he₁⟩
  · show Option.Rel _ ((w.left.scopes.child e).1.binding? e₁ name)
      (w.right.scopes.binding? e₁' name)
    rw [Scopes.binding?_child _ _ _ _ he]
    exact hgrows.binding (h.bindings (hold he₁) name)
  · show (w.left.scopes.child e).1.binding? e₁ name = none
    rw [Scopes.binding?_child _ _ _ _ he]
    -- nothing is bound in an additional scope, neither in an old one nor in the new one
    rcases mem_or_last he₁ with he₁ | ⟨hi, -⟩
    · exact h.additional he₁ name
    · rw [Scopes.binding?, Array.getElem?_eq_none (Nat.le_of_eq (hi.trans h.length).symm)]
      rfl
  · show (w.places ++ [none])[w.left.scopes.size]? = _
    rw [← h.length]
    exact List.getElem?_concat_length

/-- More uses are legitimate, and their distances are recorded. -/
theorem install (h : w.Agrees choice A) {A' : Use → Prop} (hA : ∀ u, A u → A' u)
    {entries entries' : List (NodeId × Nat)}
    (hdistances : ∀ u, A' u →
      (w.left.distances.insertAll entries).get? u.reference.id = u.distance? ∧
        (w.right.distances.insertAll entries').get? u.reference.id = u.directDistance? choice)
    (hsound : ∀ u, A' u → u.Sound) :
    (w.with_ (w.left.install entries) (w.right.install entries')).Agrees choice A' := by
  let w' := w.with_ (w.left.install entries) (w.right.install entries')
  have hgrows : w.Grows w' := ⟨List.prefix_refl _, .refl _, .refl _⟩
  -- no value is changed, but more of its code is legitimate
  have hvalue : ∀ v v', Value.Folds choice A w v v' → Value.Folds choice A' w' v v' :=
    fun v v' hv => hgrows.value (hv.mono (fun _ _ hc => hc.widen hA) fun _ _ hc => hc.widen hA)
  exact ⟨h.length, h.lt_size, h.inj, h.surj, fun he name => Binding.Folds.mono (h.bindings he name)
    hvalue, h.additional, h.globals, h.callLine, hdistances, hsound, h.fields.mono hvalue,
    h.nextObject, h.natives, h.codeBlind, h.clock, h.sink⟩

end Agrees

end Folding

end Lox
