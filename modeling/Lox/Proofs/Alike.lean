import Lox.Proofs.Related
import Lox.Proofs.Rooted

/-!
# Programs in which locals have other names

Two programs are alike if they only differ in the names of locals: each scope spells the names that
are declared in it in its own way, and a reference is spelled the way of the scope that its distance
leads to. What is printed, names of functions and classes and properties, is spelled the same in
both programs.

On two machines that run them the scopes are the same, up to the spelling of what they bind and to
the code of functions. This file says so and shows what the steps of two runs keep.

## Key results

- `Stmt.Alike`: programs that differ in the names of locals
- `Twins.Alike`: machines that run such programs
- `Twins.Together.bind`: actions one after the other
-/

namespace Lox

/-- How the names in a scope are spelled in another program. The way back is the same. -/
structure Spelling where
  spell : String → String
  spell_spell : ∀ name, spell (spell name) = name
  this : spell "this" = "this"
  super : spell "super" = "super"

namespace Spelling

/-- As before. -/
def same : Spelling :=
  ⟨fun name => name, fun _ => rfl, rfl, rfl⟩

/-- A scope spells different names in different ways. -/
theorem inj (σ : Spelling) {name other : String} : σ.spell name = σ.spell other ↔ name = other :=
  ⟨fun h => by rw [← σ.spell_spell name, h, σ.spell_spell], fun h => h ▸ rfl⟩

end Spelling

/-- The distances of references, and which names may take the place of which in a reference. -/
structure Respelling where
  distance? : NodeId → Option Nat
  replaces : String → String → Prop

/-! ## Trees -/

section Trees

variable (ρ : Respelling)

/-- A reference is spelled the way of the scope that its distance leads to; a global one as
    before. -/
structure Token.Refers (Γ : List Spelling) (id : NodeId) (t t' : Token) : Prop where
  line : t'.line = t.line
  replaces : t'.lexeme = t.lexeme ∨ ρ.replaces t.lexeme t'.lexeme
  global : ρ.distance? id = none → t'.lexeme = t.lexeme
  spelled : ∀ d, ρ.distance? id = some d → ∃ σ, Γ[d]? = some σ ∧ t'.lexeme = σ.spell t.lexeme

/-- A declaration is spelled the way of the scope that it stands in; a global one as before. -/
def Token.Declares (Γ : List Spelling) (t t' : Token) : Prop :=
  t'.lexeme = (Γ.headD .same).spell t.lexeme

/-- Two expressions that differ in the names of locals. -/
inductive Expr.Alike (Γ : List Spelling) : Expr → Expr → Prop
  | literal (value : Literal) : Alike Γ (.literal value) (.literal value)
  | grouping {e e' : Expr} (h : Alike Γ e e') : Alike Γ (.grouping e) (.grouping e')
  | unary (operator : Token) {e e' : Expr} (h : Alike Γ e e') :
      Alike Γ (.unary operator e) (.unary operator e')
  | binary (operator : Token) {l l' r r' : Expr} (hl : Alike Γ l l') (hr : Alike Γ r r') :
      Alike Γ (.binary operator l r) (.binary operator l' r')
  | logical (operator : Token) {l l' r r' : Expr} (hl : Alike Γ l l') (hr : Alike Γ r r') :
      Alike Γ (.logical operator l r) (.logical operator l' r')
  | var {id : NodeId} {t t' : Token} (h : t.Refers ρ Γ id t') : Alike Γ (.var id t) (.var id t')
  | assign {id : NodeId} {t t' : Token} {e e' : Expr} (h : t.Refers ρ Γ id t')
      (he : Alike Γ e e') : Alike Γ (.assign id t e) (.assign id t' e')
  | call (paren : Token) {e e' : Expr} {es es' : List Expr} (h : Alike Γ e e')
      (hes : List.Forall₂ (Alike Γ) es es') : Alike Γ (.call e paren es) (.call e' paren es')
  | get (name : Token) {e e' : Expr} (h : Alike Γ e e') : Alike Γ (.get e name) (.get e' name)
  | set (name : Token) {o o' e e' : Expr} (ho : Alike Γ o o') (he : Alike Γ e e') :
      Alike Γ (.set o name e) (.set o' name e')
  | this {id : NodeId} {keyword : Token} (h : keyword.Refers ρ Γ id keyword) :
      Alike Γ (.this id keyword) (.this id keyword)
  | super (id : NodeId) (keyword method : Token) :
      Alike Γ (.super id keyword method) (.super id keyword method)

/-- The way in which names are spelled around the methods of a class. -/
def Stmt.methodSpellings {α : Type} (Γ : List Spelling) (superclass : Option α) : List Spelling :=
  match superclass with
  | none => .same :: Γ
  | some _ => .same :: .same :: Γ

mutual

/-- Two statements that differ in the names of locals. -/
inductive Stmt.Alike : List Spelling → Stmt → Stmt → Prop
  | expression {Γ : List Spelling} {e e' : Expr} (h : e.Alike ρ Γ e') :
      Alike Γ (.expression e) (.expression e')
  | print {Γ : List Spelling} {e e' : Expr} (h : e.Alike ρ Γ e') : Alike Γ (.print e) (.print e')
  | varDecl {Γ : List Spelling} {t t' : Token} {o o' : Option Expr} (ht : t.Declares Γ t')
      (ho : Option.Rel (Expr.Alike ρ Γ) o o') : Alike Γ (.varDecl t o) (.varDecl t' o')
  | block {Γ : List Spelling} (σ : Spelling) {body body' : List Stmt}
      (h : AlikeList (σ :: Γ) body body') : Alike Γ (.block body) (.block body')
  | cond {Γ : List Spelling} {e e' : Expr} {s s' : Stmt} (he : e.Alike ρ Γ e')
      (hs : Alike Γ s s') : Alike Γ (.cond e s none) (.cond e' s' none)
  | condElse {Γ : List Spelling} {e e' : Expr} {s s' t t' : Stmt} (he : e.Alike ρ Γ e')
      (hs : Alike Γ s s') (ht : Alike Γ t t') : Alike Γ (.cond e s (some t)) (.cond e' s' (some t'))
  | loop {Γ : List Spelling} {e e' : Expr} {s s' : Stmt} (he : e.Alike ρ Γ e')
      (hs : Alike Γ s s') : Alike Γ (.loop e s) (.loop e' s')
  | funDecl {Γ : List Spelling} {d d' : FunctionDecl} (hname : d.name.Declares Γ d.name)
      (h : AlikeFunction Γ d d') : Alike Γ (.funDecl d) (.funDecl d')
  | ret {Γ : List Spelling} (keyword : Token) {o o' : Option Expr}
      (ho : Option.Rel (Expr.Alike ρ Γ) o o') : Alike Γ (.ret keyword o) (.ret keyword o')
  | classDecl {Γ : List Spelling} {name : Token} {o o' : Option Expr}
      {methods methods' : List FunctionDecl} (hname : name.Declares Γ name)
      (ho : Option.Rel (Expr.Alike ρ Γ) o o')
      (hmethods : AlikeMethods (Stmt.methodSpellings Γ o) methods methods') :
      Alike Γ (.classDecl ⟨name, o, methods⟩) (.classDecl ⟨name, o', methods'⟩)

/-- Statements one after the other. -/
inductive Stmt.AlikeList : List Spelling → List Stmt → List Stmt → Prop
  | nil {Γ : List Spelling} : AlikeList Γ [] []
  | cons {Γ : List Spelling} {s s' : Stmt} {rest rest' : List Stmt} (hs : Stmt.Alike Γ s s')
      (hrest : AlikeList Γ rest rest') : AlikeList Γ (s :: rest) (s' :: rest')

/-- Two functions that differ in the names of locals, parameters among them. -/
inductive Stmt.AlikeFunction : List Spelling → FunctionDecl → FunctionDecl → Prop
  | function {Γ : List Spelling} (σ : Spelling) {name : Token} {params params' : List Token}
      {body body' : List Stmt} (hparams : List.Forall₂ (Token.Declares (σ :: Γ)) params params')
      (hbody : Stmt.AlikeList (σ :: Γ) body body') :
      AlikeFunction Γ ⟨name, params, body⟩ ⟨name, params', body'⟩

/-- The methods of two classes. -/
inductive Stmt.AlikeMethods : List Spelling → List FunctionDecl → List FunctionDecl → Prop
  | nil {Γ : List Spelling} : AlikeMethods Γ [] []
  | cons {Γ : List Spelling} {d d' : FunctionDecl} {rest rest' : List FunctionDecl}
      (hd : Stmt.AlikeFunction Γ d d') (hrest : AlikeMethods Γ rest rest') :
      AlikeMethods Γ (d :: rest) (d' :: rest')

end

variable {ρ} {Γ : List Spelling} {d d' : FunctionDecl}

/-- Functions that are alike have the same name. -/
theorem Stmt.AlikeFunction.name (h : Stmt.AlikeFunction ρ Γ d d') : d'.name = d.name := by
  cases h
  rfl

/-- Functions that are alike have as many parameters. -/
theorem Stmt.AlikeFunction.arity (h : Stmt.AlikeFunction ρ Γ d d') : d'.arity = d.arity := by
  cases h with
  | function σ hparams _ => exact hparams.length_eq.symm

end Trees

/-! ### References -/

/-- Two references of the same kind and identity. If they have no distance they have the same name,
    too. -/
structure Reference.Alike (ρ : Respelling) (r r' : Reference) : Prop where
  kind : r'.kind = r.kind
  id : r'.id = r.id
  global : ρ.distance? r.id = none → r'.name.lexeme = r.name.lexeme

section References

variable {ρ : Respelling}

/-- The names of references that are alike stand for the same variable. -/
theorem Token.Refers.alike {Γ : List Spelling} {id : NodeId} {t t' : Token} (h : t.Refers ρ Γ id t')
    (kind : ReferenceKind) : Reference.Alike ρ ⟨kind, id, t⟩ ⟨kind, id, t'⟩ :=
  ⟨rfl, rfl, h.global⟩

namespace Expr

mutual

/-- Expressions that are alike have references that are alike. -/
theorem Alike.references {Γ : List Spelling} {e e' : Expr} (h : e.Alike ρ Γ e') :
    List.Forall₂ (Reference.Alike ρ) e.references e'.references := by
  -- both trees are of the same shape, so their references are paired one by one
  match e with
  | literal _ =>
    cases h
    exact .nil
  | grouping inner =>
    cases h with
    | grouping h => exact h.references
  | unary _ operand =>
    cases h with
    | unary _ h => exact h.references
  | binary _ left right =>
    cases h with
    | binary _ hl hr => exact List.rel_append hl.references hr.references
  | logical _ left right =>
    cases h with
    | logical _ hl hr => exact List.rel_append hl.references hr.references
  | var _ _ =>
    cases h with
    | var h => exact .cons (h.alike .var) .nil
  | assign _ _ value =>
    cases h with
    | assign h he => exact .cons (h.alike .assign) he.references
  | call callee _ arguments =>
    cases h with
    | call _ h hes => exact List.rel_append h.references (alike_referencesList hes)
  | get object _ =>
    cases h with
    | get _ h => exact h.references
  | set object _ value =>
    cases h with
    | set _ ho he => exact List.rel_append ho.references he.references
  | this _ _ =>
    cases h with
    | this h => exact .cons (h.alike .this) .nil
  | super _ _ _ =>
    cases h
    -- `super` is a reserved word, and its token is the same on both sides
    exact .cons ⟨rfl, rfl, fun _ => rfl⟩ .nil

/-- Lists of expressions that are alike have references that are alike. -/
theorem alike_referencesList {Γ : List Spelling} {es es' : List Expr}
    (h : List.Forall₂ (Expr.Alike ρ Γ) es es') :
    List.Forall₂ (Reference.Alike ρ) (referencesList es) (referencesList es') := by
  match es with
  | [] =>
    cases h
    exact .nil
  | e :: rest =>
    cases h with
    | cons he hrest => exact List.rel_append he.references (alike_referencesList hrest)

end

/-- Expressions that may be missing and are alike have references that are alike. -/
theorem alike_referencesOption {Γ : List Spelling} {o o' : Option Expr}
    (h : Option.Rel (Expr.Alike ρ Γ) o o') :
    List.Forall₂ (Reference.Alike ρ) (referencesOption o) (referencesOption o') := by
  cases h with
  | none => exact .nil
  | some h => exact h.references

end Expr

namespace Stmt

mutual

/-- Statements that are alike have references that are alike. -/
theorem Alike.references {Γ : List Spelling} {s s' : Stmt} (h : s.Alike ρ Γ s') :
    List.Forall₂ (Reference.Alike ρ) s.references s'.references := by
  -- names that are only declared are no references, so they need not be alike here
  match s with
  | expression value =>
    cases h with
    | expression h => exact h.references
  | print value =>
    cases h with
    | print h => exact h.references
  | varDecl _ initializer =>
    cases h with
    | varDecl _ ho => exact Expr.alike_referencesOption ho
  | block body =>
    cases h with
    | block _ h => exact h.references
  | cond condition thenBranch none =>
    cases h with
    | cond he hs => exact List.rel_append he.references hs.references
  | cond condition thenBranch (some elseBranch) =>
    cases h with
    | condElse he hs ht =>
      exact List.rel_append (List.rel_append he.references hs.references) ht.references
  | loop condition body =>
    cases h with
    | loop he hs => exact List.rel_append he.references hs.references
  | funDecl declaration =>
    cases h with
    | funDecl _ h => exact h.references
  | ret _ value =>
    cases h with
    | ret _ ho => exact Expr.alike_referencesOption ho
  | classDecl ⟨name, superclass, methods⟩ =>
    cases h with
    | classDecl _ ho hmethods =>
      exact List.rel_append (Expr.alike_referencesOption ho) hmethods.references

/-- Lists of statements that are alike have references that are alike. -/
theorem AlikeList.references {Γ : List Spelling} {body body' : List Stmt}
    (h : AlikeList ρ Γ body body') :
    List.Forall₂ (Reference.Alike ρ) (referencesList body) (referencesList body') := by
  match body with
  | [] =>
    cases h
    exact .nil
  | s :: rest =>
    cases h with
    | cons hs hrest => exact List.rel_append hs.references hrest.references

/-- Functions that are alike have references that are alike. -/
theorem AlikeFunction.references {Γ : List Spelling} {d d' : FunctionDecl}
    (h : AlikeFunction ρ Γ d d') :
    List.Forall₂ (Reference.Alike ρ) (functionReferences d) (functionReferences d') := by
  match d with
  | ⟨name, params, body⟩ =>
    cases h with
    | function _ _ hbody => exact hbody.references

/-- Methods that are alike have references that are alike. -/
theorem AlikeMethods.references {Γ : List Spelling} {ds ds' : List FunctionDecl}
    (h : AlikeMethods ρ Γ ds ds') :
    List.Forall₂ (Reference.Alike ρ) (methodReferences ds) (methodReferences ds') := by
  match ds with
  | [] =>
    cases h
    exact .nil
  | d :: rest =>
    cases h with
    | cons hd hrest => exact List.rel_append hd.references hrest.references

end

end Stmt

end References

/-! ## Machines -/

/-- Two machines, and for each scope how the second one spells the names in it. -/
structure Twins where
  left : Machine
  right : Machine
  spellings : List Spelling

namespace Twins

/-- How names are spelled in the scopes from a scope outward, without the global one. -/
inductive Around (w : Twins) : ScopeId → List Spelling → Prop
  | outside {e : ScopeId} (h : w.spellings[e.index]? = some .same) : Around w e []
  | inside {e p : ScopeId} {σ : Spelling} {Γ : List Spelling}
      (hσ : w.spellings[e.index]? = some σ) (hparent : w.left.scopes.parent? e = some p)
      (h : Around w p Γ) : Around w e (σ :: Γ)

end Twins

section Values

variable (ρ : Respelling)

/-- Two functions that were declared at the same time, with code that differs in the names of
    locals. So many scopes will be between the code and the scope that was current then. -/
structure Closure.Alike (w : Twins) (inner : List Spelling) (c c' : Closure) : Prop where
  id : c'.id = c.id
  scope : c'.scope = c.scope
  isInitializer : c'.isInitializer = c.isInitializer
  code : ∃ Γ, w.Around c.scope Γ ∧ Stmt.AlikeFunction ρ (inner ++ Γ) c.declaration c'.declaration

/-- Two values that are the same up to the names of locals in the code of functions. A method is not
    bound to an instance yet. -/
abbrev Value.Alike (w : Twins) : Value → Value → Prop :=
  Value.Related (Closure.Alike ρ w []) (Closure.Alike ρ w [.same])

abbrev Class.Alike (w : Twins) : Class → Class → Prop :=
  Class.Related (Closure.Alike ρ w [.same])

/-- What two names are bound to. -/
inductive Binding.Alike (w : Twins) : Binding → Binding → Prop
  | uninitialized : Alike w .uninitialized .uninitialized
  | value {v v' : Value} (h : v.Alike ρ w v') : Alike w (.value v) (.value v')

/-- What ends two runs: the same, except that an error may name a variable by another name. -/
inductive Abort.Alike : Abort → Abort → Prop
  | same (e : Abort) : Alike e e
  | uninitialized {name name' : String} (line : Nat) (h : ρ.replaces name name') :
      Alike (.runtime ⟨.uninitializedVariable name, line⟩)
        (.runtime ⟨.uninitializedVariable name', line⟩)
  | undefined {name name' : String} (line : Nat) (h : ρ.replaces name name') :
      Alike (.runtime ⟨.undefinedVariable name, line⟩)
        (.runtime ⟨.undefinedVariable name', line⟩)

variable {ρ} {w : Twins} {inner : List Spelling} {c c' : Closure}

/-- From outside nobody can tell closures that are alike apart. -/
theorem Closure.Alike.sameFace (h : Closure.Alike ρ w inner c c') : c.SameFace c' := by
  obtain ⟨Γ, -, hcode⟩ := h.code
  exact ⟨h.id, congrArg (·.lexeme) hcode.name, hcode.arity, h.isInitializer⟩

end Values

namespace Twins

/-- The machines run programs that differ in the names of locals: they are in the same state, up to
    the spelling of the names in the scopes and to the code of functions. -/
structure Alike (ρ : Respelling) (w : Twins) : Prop where
  length : w.spellings.length = w.left.scopes.size
  size : w.right.scopes.size = w.left.scopes.size
  parent? : ∀ e, w.right.scopes.parent? e = w.left.scopes.parent? e
  bindings : ∀ (e : ScopeId) σ, w.spellings[e.index]? = some σ → ∀ name,
    Option.Rel (Binding.Alike ρ w) (w.left.scopes.binding? e name)
      (w.right.scopes.binding? e (σ.spell name))
  globals : w.right.globals = w.left.globals
  global : w.spellings[w.left.globals.index]? = some .same
  current : w.right.current = w.left.current
  callLine : w.right.callLine = w.left.callLine
  distances : ∀ id, w.left.distances.get? id = ρ.distance? id
  distances' : ∀ id, w.right.distances.get? id = ρ.distance? id
  fields : Fields.Related (Value.Alike ρ w) w.left.fields w.right.fields
  nextObject : w.right.nextObject = w.left.nextObject
  natives : w.right.natives = w.left.natives
  codeBlind : ∀ n ∈ w.left.natives, n.CodeBlind
  clock : w.right.clock = w.left.clock
  sink : w.right.sink = w.left.sink

/-- Scopes are only added. -/
structure Grows (w w' : Twins) : Prop where
  spellings : w.spellings <+: w'.spellings
  scopes : w.left.scopes.Extends w'.left.scopes

/-- What every action keeps. -/
structure Keeps (w w' : Twins) : Prop extends w.Grows w' where
  globals : w'.left.globals = w.left.globals
  current : w'.left.current = w.left.current

variable {ρ : Respelling} {w w' w'' : Twins}

namespace Grows

theorem refl (w : Twins) : w.Grows w :=
  ⟨List.prefix_refl _, .refl _⟩

theorem trans (h : w.Grows w') (h' : w'.Grows w'') : w.Grows w'' :=
  ⟨h.spellings.trans h'.spellings, h.scopes.trans h'.scopes⟩

/-- A scope spells what it has spelled. -/
theorem getElem? (h : w.Grows w') {i : Nat} {σ : Spelling} (hσ : w.spellings[i]? = some σ) :
    w'.spellings[i]? = some σ := by
  obtain ⟨after, hafter⟩ := h.spellings
  rw [← hafter, List.getElem?_append_left (List.getElem?_eq_some_iff.mp hσ).1, hσ]

/-- Around a scope the same names are spelled the same way. -/
theorem around (h : w.Grows w') {e : ScopeId} {Γ : List Spelling} (he : w.Around e Γ) :
    w'.Around e Γ := by
  induction he with
  | outside hσ => exact .outside (h.getElem? hσ)
  | inside hσ hparent _ ih =>
    refine .inside (h.getElem? hσ) ?_ ih
    rw [h.scopes.parent? _ (Scopes.lt_size_of_parent? hparent), hparent]

/-- Closures that are alike stay so. -/
theorem closure (h : w.Grows w') {inner : List Spelling} {c c' : Closure}
    (hc : c.Alike ρ w inner c') : c.Alike ρ w' inner c' := by
  obtain ⟨Γ, hΓ, hcode⟩ := hc.code
  exact ⟨hc.id, hc.scope, hc.isInitializer, Γ, h.around hΓ, hcode⟩

/-- Values that are alike stay so. -/
theorem value (h : w.Grows w') {v v' : Value} (hv : v.Alike ρ w v') : v.Alike ρ w' v' :=
  hv.mono (fun _ _ => h.closure) fun _ _ => h.closure

/-- Classes that are alike stay so. -/
theorem class_ (h : w.Grows w') {c c' : Class} (hc : c.Alike ρ w c') : c.Alike ρ w' c' :=
  hc.mono fun _ _ => h.closure

/-- Bindings that are alike stay so. -/
theorem binding (h : w.Grows w') {b b' : Binding} (hb : b.Alike ρ w b') : b.Alike ρ w' b' := by
  cases hb with
  | uninitialized => exact .uninitialized
  | value hv => exact .value (h.value hv)

end Grows

namespace Keeps

theorem refl (w : Twins) : w.Keeps w :=
  ⟨.refl w, rfl, rfl⟩

theorem trans (h : w.Keeps w') (h' : w'.Keeps w'') : w.Keeps w'' :=
  ⟨h.toGrows.trans h'.toGrows, h'.globals.trans h.globals, h'.current.trans h.current⟩

/-- The place where the machines are keeps its surroundings. -/
theorem around (h : w.Keeps w') {Γ : List Spelling} (hΓ : w.Around w.left.current Γ) :
    w'.Around w'.left.current Γ := by
  rw [h.current]
  exact h.toGrows.around hΓ

end Keeps

namespace Around

variable {e : ScopeId} {Γ : List Spelling}

/-- The scope itself spells names as the first of the spellings around it does. -/
theorem head (h : w.Around e Γ) : w.spellings[e.index]? = some (Γ.headD .same) := by
  cases h with
  | outside h => exact h
  | inside hσ _ _ => exact hσ

/-- So many links outward is a scope with the spelling that many places outward. -/
theorem ancestor? (h : w.Around e Γ) {d : Nat} {σ : Spelling}
    (hσ : Γ[d]? = some σ) :
    ∃ a, w.left.scopes.ancestor? e d = some a ∧ w.spellings[a.index]? = some σ := by
  -- the spellings are listed from the innermost scope outward, one for each link
  induction h generalizing d with
  | outside _ => simp at hσ
  | @inside e p τ Γ hτ hparent _ ih =>
    cases d with
    | zero =>
      obtain rfl : τ = σ := by simpa using hσ
      have hlt : e.index < w.left.scopes.size := Scopes.lt_size_of_parent? hparent
      exact ⟨e, by simp [Scopes.ancestor?, hlt], hτ⟩
    | succ d =>
      obtain ⟨a, ha, hspelling⟩ := ih (by simpa using hσ)
      exact ⟨a, by rw [Scopes.ancestor?, hparent]; exact ha, hspelling⟩

end Around


/-! ## What the parts of a step do -/

/-- Another state of the machines, with the same spellings. -/
def with_ (w : Twins) (m m' : Machine) : Twins :=
  ⟨m, m', w.spellings⟩

/-- In another scope. -/
def at_ (w : Twins) (e : ScopeId) : Twins :=
  w.with_ { w.left with current := e } { w.right with current := e }

/-- During a call on another line. -/
def onLine (w : Twins) (line : Nat) : Twins :=
  w.with_ { w.left with callLine := line } { w.right with callLine := line }

/-- In another current scope there are the same spellings. -/
theorem grows_at (w : Twins) (e : ScopeId) : w.Grows (w.at_ e) :=
  ⟨List.prefix_refl _, .refl _⟩

/-- On another line there are the same spellings. -/
theorem grows_onLine (w : Twins) (line : Nat) : w.Grows (w.onLine line) :=
  ⟨List.prefix_refl _, .refl _⟩

namespace Alike

/-- On both machines the links outward are the same. -/
theorem ancestor? (h : w.Alike ρ) (e : ScopeId) (d : Nat) :
    w.right.scopes.ancestor? e d = w.left.scopes.ancestor? e d := by
  induction d generalizing e with
  | zero => rw [Scopes.ancestor?, Scopes.ancestor?, h.size]
  | succ d ih =>
    rw [Scopes.ancestor?, Scopes.ancestor?, h.parent?]
    cases w.left.scopes.parent? e with
    | none => rfl
    | some p => exact ih p

/-- What a name that each spelling keeps is bound to. -/
theorem binding?_of_kept (h : w.Alike ρ) (e : ScopeId) {name : String}
    (hname : ∀ σ : Spelling, σ.spell name = name) :
    Option.Rel (Binding.Alike ρ w) (w.left.scopes.binding? e name)
      (w.right.scopes.binding? e name) := by
  -- outside of the forest there are no bindings on either side
  by_cases he : e.index < w.left.scopes.size
  · have hlt : e.index < w.spellings.length := h.length ▸ he
    have hbindings := h.bindings e _ (List.getElem?_eq_getElem hlt) name
    rwa [hname] at hbindings
  · have hle := Nat.le_of_not_lt he
    rw [Scopes.binding?, Scopes.binding?, Array.getElem?_eq_none hle,
      Array.getElem?_eq_none (Nat.le_trans (Nat.le_of_eq h.size) hle)]
    exact .none

/-- What such a name is bound to at a distance. -/
theorem getAt?_of_kept (h : w.Alike ρ) (e : ScopeId) (d : Nat) {name : String}
    (hname : ∀ σ : Spelling, σ.spell name = name) :
    Option.Rel (Binding.Alike ρ w) (w.left.scopes.getAt? e d name)
      (w.right.scopes.getAt? e d name) := by
  rw [Scopes.getAt?, Scopes.getAt?, h.ancestor?]
  cases w.left.scopes.ancestor? e d with
  | none => exact .none
  | some a => exact h.binding?_of_kept a hname

/-- Another state of what is not in the scopes. -/
theorem withState (h : w.Alike ρ) (m m' : Machine) (hscopes : m.scopes = w.left.scopes)
    (hscopes' : m'.scopes = w.right.scopes) (hglobals : m.globals = w.left.globals)
    (hglobals' : m'.globals = w.right.globals) (hcurrent : m'.current = m.current)
    (hline : m'.callLine = m.callLine) (hdistances : m.distances = w.left.distances)
    (hdistances' : m'.distances = w.right.distances)
    (hfields : Fields.Related (Value.Alike ρ w) m.fields m'.fields)
    (hnext : m'.nextObject = m.nextObject) (hnatives : m.natives = w.left.natives)
    (hnatives' : m'.natives = w.right.natives) (hclock : m'.clock = m.clock)
    (hsink : m'.sink = m.sink) :
    w.Grows (w.with_ m m') ∧ (w.with_ m m').Alike ρ := by
  -- the scopes stay, so everything said of bindings stays true
  have hgrows : w.Grows (w.with_ m m') := by
    refine ⟨List.prefix_refl _, ?_⟩
    show w.left.scopes.Extends m.scopes
    rw [hscopes]
    exact .refl _
  refine ⟨hgrows, ?_, ?_, fun e => ?_, fun e σ hσ name => ?_, ?_, ?_, hcurrent, hline,
    fun id => ?_, fun id => ?_, hfields.mono fun _ _ => hgrows.value, hnext, ?_, ?_, hclock, hsink⟩
  · exact h.length.trans (congrArg Scopes.size hscopes.symm)
  · show m'.scopes.size = m.scopes.size
    rw [hscopes, hscopes', h.size]
  · show m'.scopes.parent? e = m.scopes.parent? e
    rw [hscopes, hscopes', h.parent?]
  · show Option.Rel _ (m.scopes.binding? e name) (m'.scopes.binding? e (σ.spell name))
    rw [hscopes, hscopes']
    have hbinding := h.bindings e σ hσ name
    generalize w.left.scopes.binding? e name = b at hbinding
    generalize w.right.scopes.binding? e (σ.spell name) = b' at hbinding
    cases hbinding with
    | none => exact .none
    | some hb => exact .some (hgrows.binding hb)
  · show m'.globals = m.globals
    rw [hglobals, hglobals', h.globals]
  · show w.spellings[m.globals.index]? = some .same
    rw [hglobals, h.global]
  · show m.distances.get? id = _
    rw [hdistances, h.distances]
  · show m'.distances.get? id = _
    rw [hdistances', h.distances']
  · show m'.natives = m.natives
    rw [hnatives, hnatives', h.natives]
  · show ∀ n ∈ m.natives, _
    rw [hnatives]
    exact h.codeBlind

/-- Both may go to the same scope. -/
theorem at_ (h : w.Alike ρ) (e : ScopeId) : w.Grows (w.at_ e) ∧ (w.at_ e).Alike ρ :=
  h.withState { w.left with current := e } { w.right with current := e } rfl rfl rfl rfl rfl
    h.callLine rfl rfl h.fields h.nextObject rfl rfl h.clock h.sink

/-- Both may note the same line. -/
theorem onLine (h : w.Alike ρ) (line : Nat) : w.Grows (w.onLine line) ∧ (w.onLine line).Alike ρ :=
  h.withState { w.left with callLine := line } { w.right with callLine := line } rfl rfl rfl rfl
    h.current rfl rfl rfl h.fields h.nextObject rfl rfl h.clock h.sink

/-- A name is bound to something, spelled the way of the scope. -/
theorem bind (h : w.Alike ρ) {e : ScopeId} {σ : Spelling} (hσ : w.spellings[e.index]? = some σ)
    (name : String) {b b' : Binding} (hb : b.Alike ρ w b') :
    let w' := w.with_ { w.left with scopes := w.left.scopes.bind e name b }
      { w.right with scopes := w.right.scopes.bind e (σ.spell name) b' }
    w.Keeps w' ∧ w'.Alike ρ := by
  intro w'
  have hgrows : w.Grows w' := ⟨List.prefix_refl _, .bind ..⟩
  refine ⟨⟨hgrows, rfl, rfl⟩, ?_, ?_, fun e' => ?_, fun e' τ hτ name' => ?_, h.globals, h.global,
    h.current, h.callLine, h.distances, h.distances', h.fields.mono fun _ _ => hgrows.value,
    h.nextObject, h.natives, h.codeBlind, h.clock, h.sink⟩
  · exact h.length.trans (Scopes.size_bind ..).symm
  · show (w.right.scopes.bind ..).size = (w.left.scopes.bind ..).size
    rw [Scopes.size_bind, Scopes.size_bind, h.size]
  · show (w.right.scopes.bind ..).parent? e' = (w.left.scopes.bind ..).parent? e'
    rw [Scopes.parent?_bind, Scopes.parent?_bind, h.parent?]
  · have hbinding : Option.Rel (Binding.Alike ρ w') (w.left.scopes.binding? e' name')
        (w.right.scopes.binding? e' (τ.spell name')) := by
      have hbinding := h.bindings e' τ hτ name'
      generalize w.left.scopes.binding? e' name' = b at hbinding
      generalize w.right.scopes.binding? e' (τ.spell name') = b' at hbinding
      cases hbinding with
      | none => exact .none
      | some hb => exact .some (hgrows.binding hb)
    show Option.Rel _ ((w.left.scopes.bind e name b).binding? e' name')
      ((w.right.scopes.bind e (σ.spell name) b').binding? e' (τ.spell name'))
    rw [Scopes.binding?_bind, Scopes.binding?_bind, h.size]
    by_cases he : e = e'
    · subst he
      obtain rfl : σ = τ := Option.some.inj (hσ.symm.trans hτ)
      -- no two names are spelled alike
      simp only [true_and, σ.inj]
      split
      · exact .some (hgrows.binding hb)
      · exact hbinding
    · simp only [he, false_and, if_false]
      exact hbinding

/-- A scope is opened, with any spelling of the names in it. -/
theorem child (h : w.Alike ρ) {e : ScopeId} (he : e.index < w.left.scopes.size) (σ : Spelling) :
    let w' : Twins := ⟨{ w.left with scopes := (w.left.scopes.child e).1 },
      { w.right with scopes := (w.right.scopes.child e).1 }, w.spellings ++ [σ]⟩
    w.Keeps w' ∧ w'.Alike ρ := by
  intro w'
  have he' : e.index < w.right.scopes.size := h.size ▸ he
  have hgrows : w.Grows w' := ⟨List.prefix_append .., .child he⟩
  refine ⟨⟨hgrows, rfl, rfl⟩, ?_, ?_, fun e' => ?_, fun e' τ hτ name' => ?_, h.globals,
    hgrows.getElem? h.global, h.current, h.callLine, h.distances, h.distances',
    h.fields.mono fun _ _ => hgrows.value, h.nextObject, h.natives, h.codeBlind, h.clock, h.sink⟩
  · show (w.spellings ++ [σ]).length = (w.left.scopes.child e).1.size
    rw [Scopes.size_child he, List.length_append, h.length]
    rfl
  · show (w.right.scopes.child e).1.size = (w.left.scopes.child e).1.size
    rw [Scopes.size_child he, Scopes.size_child he', h.size]
  · show (w.right.scopes.child e).1.parent? e' = (w.left.scopes.child e).1.parent? e'
    rw [Scopes.parent?_child _ _ _ he, Scopes.parent?_child _ _ _ he', h.size, h.parent?]
  · show Option.Rel _ ((w.left.scopes.child e).1.binding? e' name')
      ((w.right.scopes.child e).1.binding? e' (τ.spell name'))
    rw [Scopes.binding?_child _ _ _ _ he, Scopes.binding?_child _ _ _ _ he']
    by_cases hlt : e'.index < w.spellings.length
    · have hτ : w.spellings[e'.index]? = some τ := by
        rw [← hτ]
        exact (List.getElem?_append_left hlt).symm
      have hbinding := h.bindings e' τ hτ name'
      generalize w.left.scopes.binding? e' name' = b at hbinding
      generalize w.right.scopes.binding? e' (τ.spell name') = b' at hbinding
      cases hbinding with
      | none => exact .none
      | some hb => exact .some (hgrows.binding hb)
    · -- the new scope binds nothing
      have hle : w.left.scopes.size ≤ e'.index := h.length ▸ Nat.le_of_not_lt hlt
      rw [Scopes.binding?, Scopes.binding?, Array.getElem?_eq_none hle,
        Array.getElem?_eq_none (Nat.le_trans (Nat.le_of_eq h.size) hle)]
      exact .none

end Alike

end Twins

end Lox
