import Mathlib.Data.List.Forall2
import Mathlib.Data.List.Nodup
import Lox.Distances
import Lox.Program
import Lox.Proofs.WellFormed

/-!
# Names and the scopes around them

A `Use` is a referring node together with the local scopes around it: what opens each of them and
which names it declares up to the place of the node. Uses are read off the text of a program alone.
The resolver records for each use how many scopes stand between it and the innermost one that
declares its name.

## Key results

- `Stmt.resolve_faithful`: what the resolver finds in a statement
- `Program.accepted_of_compile`: what is recorded for the uses of an accepted program
-/

namespace Lox

/-- What opens a local scope. -/
inductive Opener where
  | block (body : List Stmt)
  /-- The parameters and the body of a function. -/
  | function (declaration : FunctionDecl)
  /-- A method that is bound to an instance. -/
  | this (method : FunctionDecl)
  /-- The declaration of a class with a superclass. -/
  | super (name : Token) (methods : List FunctionDecl)

/-- A local scope around a place: what opens it, and the names that are declared in it up to this
    place. -/
structure Enclosing where
  opener : Opener
  declared : List String

/-- The local scopes around a place, innermost first. -/
abbrev Surroundings :=
  List Enclosing

namespace Surroundings

/-- The scopes behind a declaration. Outside of local scopes none is kept. -/
def declare (around : Surroundings) (name : String) : Surroundings :=
  match around with
  | [] => []
  | innermost :: outer => ⟨innermost.opener, name :: innermost.declared⟩ :: outer

/-- The number of scopes between a place and the innermost scope around it that declares a name. -/
def distance? (around : Surroundings) (name : String) : Option Nat :=
  around.findIdx? fun x => decide (name ∈ x.declared)

/-- The scopes behind a statement. -/
def after (around : Surroundings) (s : Stmt) : Surroundings :=
  match s.declared? with
  | none => around
  | some name => around.declare name.lexeme

/-- The name of a local declaration, while its value is computed. -/
def pending (around : Surroundings) (name : String) : Option String :=
  match around with
  | [] => none
  | _ :: _ => some name

/-- Is the innermost scope that declares `super` that of a class around a method? -/
def InSubclass (around : Surroundings) : Prop :=
  ∃ inner method name methods, around.distance? "super" = some (inner + 1) ∧
    (around.map (·.opener))[inner]? = some (.this method) ∧
    (around.map (·.opener))[inner + 1]? = some (.super name methods)

end Surroundings

/-- A referring node and the local scopes around it. -/
structure Use where
  reference : Reference
  around : Surroundings
  /-- The local variable or class in whose initializer or superclass the node stands. -/
  initializing : Option String

namespace Use

/-- The number of scopes between the node and the innermost one that declares its name. -/
def distance? (u : Use) : Option Nat :=
  u.around.distance? u.reference.name.lexeme

/-- No name is read in its own initializer, and `super` stands in a method of a subclass. -/
def Sound (u : Use) : Prop :=
  (u.reference.kind ≠ .assign → u.initializing ≠ some u.reference.name.lexeme) ∧
    (u.reference.kind = .super →
      u.reference.name.lexeme = Keyword.super.word ∧ u.around.InSubclass)

end Use

/-- The uses in an expression, which opens no scopes. -/
def Expr.uses (around : Surroundings) (initializing : Option String) (e : Expr) : List Use :=
  e.references.map fun r => ⟨r, around, initializing⟩

/-- The uses in an expression that may be missing. -/
def Expr.usesOption (around : Surroundings) (initializing : Option String) :
    Option Expr → List Use
  | none => []
  | some e => e.uses around initializing

namespace Stmt

/-- The scopes around the methods of a class, without those in which they are bound. -/
def aroundMethods {α : Type} (around : Surroundings) (name : Token) (superclass : Option α)
    (methods : List FunctionDecl) : Surroundings :=
  match superclass with
  | none => around
  | some _ => ⟨.super name methods, ["super"]⟩ :: around

mutual

/-- The uses in a statement. -/
def uses (around : Surroundings) : Stmt → List Use
  | expression value => value.uses around none
  | print value => value.uses around none
  | varDecl name initializer =>
    Expr.usesOption (around.declare name.lexeme) (around.pending name.lexeme) initializer
  | block body => usesList (⟨.block body, []⟩ :: around) body
  | cond condition thenBranch none => condition.uses around none ++ thenBranch.uses around
  | cond condition thenBranch (some elseBranch) =>
    condition.uses around none ++ thenBranch.uses around ++ elseBranch.uses around
  | loop condition body => condition.uses around none ++ body.uses around
  | funDecl declaration => functionUses (around.declare declaration.name.lexeme) declaration
  | ret _ value => Expr.usesOption around none value
  | classDecl ⟨name, superclass, methods⟩ =>
    let declared := around.declare name.lexeme
    Expr.usesOption declared (around.pending name.lexeme) superclass ++
      methodUses (aroundMethods declared name superclass methods) methods

/-- The uses in several statements. -/
def usesList (around : Surroundings) : List Stmt → List Use
  | [] => []
  | s :: rest => s.uses around ++ usesList (around.after s) rest

/-- The uses in a function: its parameters and its body share a scope. -/
def functionUses (around : Surroundings) : FunctionDecl → List Use
  | ⟨name, params, body⟩ =>
    usesList (⟨.function ⟨name, params, body⟩, params.map (·.lexeme)⟩ :: around) body

/-- The uses in the methods of a class. -/
def methodUses (around : Surroundings) : List FunctionDecl → List Use
  | [] => []
  | d :: rest => functionUses (⟨.this d, ["this"]⟩ :: around) d ++ methodUses around rest

end

/-! ## Uses and references -/

end Stmt

/-- The uses in an expression are its references. -/
theorem Expr.map_uses (around : Surroundings) (initializing : Option String) (e : Expr) :
    (e.uses around initializing).map (·.reference) = e.references := by
  simp [Expr.uses, Function.comp_def]

/-- The uses in an expression that may be missing are its references. -/
theorem Expr.map_usesOption (around : Surroundings) (initializing : Option String)
    (o : Option Expr) :
    (Expr.usesOption around initializing o).map (·.reference) = Expr.referencesOption o := by
  cases o with
  | none => rfl
  | some e => exact e.map_uses around initializing

namespace Stmt

mutual

/-- The uses in a statement are its references with the scopes around them. -/
theorem map_uses (around : Surroundings) (s : Stmt) :
    (s.uses around).map (·.reference) = s.references := by
  match s with
  | expression value | print value => exact value.map_uses around none
  | varDecl _ initializer => exact Expr.map_usesOption _ _ initializer
  | block body => exact map_usesList _ body
  | cond condition thenBranch none =>
    rw [uses, references, List.map_append, condition.map_uses, thenBranch.map_uses]
  | cond condition thenBranch (some elseBranch) =>
    rw [uses, references, List.map_append, List.map_append, condition.map_uses,
      thenBranch.map_uses, elseBranch.map_uses]
  | loop condition body =>
    rw [uses, references, List.map_append, condition.map_uses, body.map_uses]
  | funDecl declaration => exact map_functionUses _ declaration
  | ret _ value => exact Expr.map_usesOption _ _ value
  | classDecl ⟨_, superclass, methods⟩ =>
    rw [uses, references, List.map_append, Expr.map_usesOption, map_methodUses]

/-- The uses in statements are their references. -/
theorem map_usesList (around : Surroundings) (body : List Stmt) :
    (usesList around body).map (·.reference) = referencesList body := by
  match body with
  | [] => rfl
  | s :: rest => rw [usesList, referencesList, List.map_append, s.map_uses, map_usesList]

/-- The uses in a function are its references. -/
theorem map_functionUses (around : Surroundings) (d : FunctionDecl) :
    (functionUses around d).map (·.reference) = functionReferences d := by
  match d with
  | ⟨_, _, body⟩ => exact map_usesList _ body

/-- The uses in methods are their references. -/
theorem map_methodUses (around : Surroundings) (ds : List FunctionDecl) :
    (methodUses around ds).map (·.reference) = methodReferences ds := by
  match ds with
  | [] => rfl
  | d :: rest =>
    rw [methodUses, methodReferences, List.map_append, map_functionUses, map_methodUses]

end

end Stmt

/-! ## Scopes of the resolver and scopes of the text -/

namespace Surroundings

variable {around : Surroundings} {name other : String}

/-- A declaration opens no scope. -/
@[simp] theorem map_opener_declare (around : Surroundings) (name : String) :
    (around.declare name).map (·.opener) = around.map (·.opener) := by
  cases around <;> rfl

/-- A declaration does not change whether the next one there is local. -/
@[simp] theorem pending_declare (around : Surroundings) (name other : String) :
    (around.declare name).pending other = around.pending other := by
  cases around <;> rfl

/-- A name is found in the innermost scope or one further out than from outside of it. -/
theorem distance?_cons (x : Enclosing) (around : Surroundings) (name : String) :
    distance? (x :: around) name =
      if name ∈ x.declared then some 0 else (around.distance? name).map (· + 1) := by
  simp [distance?, List.findIdx?_cons]

/-- A declaration only changes the distance of its own name. -/
theorem distance?_declare (h : name ≠ other) :
    (around.declare name).distance? other = around.distance? other := by
  cases around with
  | nil => rfl
  | cons x outer => simp [declare, distance?, List.findIdx?_cons, h.symm]

/-- Behind a declaration one is still in a subclass, because what is declared is not `super`. -/
theorem InSubclass.declare (h : around.InSubclass) (hname : name ≠ "super") :
    (around.declare name).InSubclass := by
  obtain ⟨inner, method, cls, methods, hdistance, hthis, hsuper⟩ := h
  refine ⟨inner, method, cls, methods, ?_, ?_, ?_⟩
  · rwa [distance?_declare hname]
  · rwa [map_opener_declare]
  · rwa [map_opener_declare]

/-- A scope that does not declare `super` leaves a place inside its class. -/
theorem InSubclass.cons {x : Enclosing} (h : around.InSubclass) (hx : "super" ∉ x.declared) :
    InSubclass (x :: around) := by
  obtain ⟨inner, method, cls, methods, hdistance, hthis, hsuper⟩ := h
  refine ⟨inner + 1, method, cls, methods, ?_, by simpa using hthis, by simpa using hsuper⟩
  simpa [distance?, List.findIdx?_cons, hx] using hdistance

/-- A method of a class with a superclass is in a subclass. -/
theorem inSubclass_method (around : Surroundings) (method : FunctionDecl) (cls : Token)
    (methods : List FunctionDecl) :
    InSubclass (⟨.this method, ["this"]⟩ :: ⟨.super cls methods, ["super"]⟩ :: around) :=
  ⟨0, method, cls, methods, rfl, rfl, rfl⟩

end Surroundings

namespace StaticScopes

/-- The scopes of the resolver know the names that are declared in the scopes around a place, and
    all of them have values. -/
def Agrees (scopes : StaticScopes) (around : Surroundings) : Prop :=
  List.Forall₂ (fun scope x => ∀ name, scope.get? name = if name ∈ x.declared then some true else none)
    scopes around

/-- What the resolver asks its scopes when it comes to a reference. -/
structure Shows (scopes : StaticScopes) (around : Surroundings) (initializing : Option String) :
    Prop where
  distance? : ∀ name, scopes.distance? name = around.distance? name
  inInitializerOf : ∀ name, scopes.inInitializerOf name = true ↔ initializing = some name

variable {scopes : StaticScopes} {around : Surroundings}

/-- Scopes that hold the same names give the same distances. -/
theorem distance?_congr {R : NameTable Bool → Enclosing → Prop}
    (h : List.Forall₂ R scopes around)
    (hR : ∀ scope x, R scope x → ∀ name, scope.contains name = decide (name ∈ x.declared))
    (name : String) : scopes.distance? name = around.distance? name := by
  induction h with
  | nil => rfl
  | @cons scope x scopes around hx _ ih =>
    have ih : scopes.findIdx? (fun scope => scope.contains name) =
      around.findIdx? fun x => decide (name ∈ x.declared) := ih
    simp only [StaticScopes.distance?, Surroundings.distance?, List.findIdx?_cons, hR scope x hx, ih]

/-- A scope holds the names for which it has an entry. -/
private theorem contains_of_get? {scope : NameTable Bool} {x : Enclosing}
    (h : ∀ name, scope.get? name = if name ∈ x.declared then some true else none) (name : String) :
    scope.contains name = decide (name ∈ x.declared) := by
  rw [NameTable.contains, h]
  split <;> simp_all

/-- Outside of declarations no name is without value. -/
theorem Agrees.shows (h : scopes.Agrees around) : scopes.Shows around none := by
  refine ⟨distance?_congr h fun _ _ hx => contains_of_get? hx, fun name => ?_⟩
  cases h with
  | nil => simp [inInitializerOf]
  | cons hx =>
    rw [inInitializerOf, hx name]
    split <;> simp

/-- A scope with a reserved word is opened on both sides. -/
theorem Agrees.openWith (h : scopes.Agrees around) (opener : Opener) (name : String) :
    (scopes.openWith name).Agrees (⟨opener, [name]⟩ :: around) := by
  refine .cons (fun other => ?_) h
  simp [NameTable.get?_insert, eq_comm]

/-- An empty scope is opened on both sides. -/
theorem Agrees.openEmpty (h : scopes.Agrees around) (opener : Opener) :
    Agrees (.empty :: scopes) (⟨opener, []⟩ :: around) :=
  .cons (fun _ => by simp) h

end StaticScopes

/-- No fault is among the findings. -/
def NoFault (found : List Finding) : Prop :=
  ∀ e, .fault e ∉ found

namespace NoFault

/-- What is found in two parts is free of faults just if both parts are. -/
@[simp] theorem append_iff {found found' : List Finding} :
    NoFault (found ++ found') ↔ NoFault found ∧ NoFault found' := by
  simp [NoFault, forall_and]

/-- Where a fault is found there is one. -/
@[simp] theorem not_cons_fault {e : ScopeError} {found : List Finding} :
    ¬ NoFault (.fault e :: found) :=
  fun h => h e List.mem_cons_self

end NoFault

namespace StaticScopes

variable {scopes : StaticScopes} {around : Surroundings}

/-- A declaration without fault, while its value is computed and afterwards. -/
theorem Agrees.declare (h : scopes.Agrees around) {name : Token}
    (hfault : NoFault (scopes.declare name).2) :
    (scopes.declare name).1.Shows (around.declare name.lexeme) (around.pending name.lexeme) ∧
      ((scopes.declare name).1.define name.lexeme).Agrees (around.declare name.lexeme) := by
  cases h with
  | nil => exact ⟨⟨fun _ => rfl,
      by simp [StaticScopes.declare, inInitializerOf, Surroundings.pending]⟩, .nil⟩
  | @cons scope x scopes around hx h =>
    -- without a fault the name is new in its scope, so inserting it replaces nothing
    have hnew : scope.contains name.lexeme = false := by
      cases hc : scope.contains name.lexeme with
      | false => rfl
      | true => simp [StaticScopes.declare, hc] at hfault
    have hdeclare : StaticScopes.declare (scope :: scopes) name =
        (scope.insert name.lexeme false :: scopes, []) := by
      simp [StaticScopes.declare, hnew]
    rw [hdeclare]
    refine ⟨⟨?_, fun other => ?_⟩, .cons (fun other => ?_) h⟩
    -- distances only depend on which names there are, not on whether they have a value
    · have hcontains : List.Forall₂ (fun (scope : NameTable Bool) x =>
          ∀ name, scope.contains name = decide (name ∈ x.declared))
          (scope.insert name.lexeme false :: scopes)
          (Surroundings.declare (x :: around) name.lexeme) := by
        refine .cons (fun other => ?_) (h.imp fun _ _ hx => contains_of_get? hx)
        rw [NameTable.contains, NameTable.get?_insert, hx other]
        by_cases heq : name.lexeme = other
        · simp [heq]
        · by_cases hmem : other ∈ x.declared <;> simp [heq, Ne.symm heq, hmem]
      exact distance?_congr hcontains fun _ _ hx => hx
    · simp only [inInitializerOf, NameTable.get?_insert, hx other, Surroundings.pending]
      by_cases heq : name.lexeme = other
      · simp [heq]
      · by_cases hmem : other ∈ x.declared <;> simp [heq, hmem]
    · simp only [NameTable.get?_insert, hx other, List.mem_cons]
      by_cases heq : name.lexeme = other
      · simp [heq]
      · simp [heq, Ne.symm heq]

/-- The first parameter is declared and defined, and then the others. -/
theorem introduce_cons (scopes : StaticScopes) (param : Token) (params : List Token) :
    scopes.introduce (param :: params) =
      let after := ((scopes.declare param).1.define param.lexeme).introduce params
      (after.1, (scopes.declare param).2 ++ after.2) :=
  rfl

/-- Parameters without fault. -/
theorem Agrees.introduce {opener : Opener} {params : List Token} {declared : List String}
    (h : scopes.Agrees (⟨opener, declared⟩ :: around))
    (hfault : NoFault (scopes.introduce params).2) :
    (scopes.introduce params).1.Agrees (⟨opener, params.map (·.lexeme) ++ declared⟩ :: around) := by
  induction params generalizing scopes declared with
  | nil => exact h
  | cons param params ih =>
    rw [introduce_cons] at hfault ⊢
    simp only [NoFault.append_iff] at hfault
    obtain ⟨scope, scopes, hx, h, heq⟩ :=
      List.forall₂_cons_right_iff.mp (ih (h.declare hfault.1).2 hfault.2)
    rw [heq]
    refine .cons (fun other => ?_) h
    rw [hx other]
    -- the order in which names are declared does not matter
    simp only [List.map_cons, List.cons_append, List.mem_append, List.mem_cons, or_left_comm]

end StaticScopes

/-! ## What the resolver finds -/

/-- The distances that are found are those of the uses, and the uses are sound. -/
structure Faithful (found : List Finding) (uses : List Use) : Prop where
  distance_mem_iff : ∀ id d, .distance id d ∈ found ↔
    ∃ u ∈ uses, u.reference.id = id ∧ u.distance? = some d
  sound : ∀ u ∈ uses, u.Sound

namespace Faithful

variable {found found' : List Finding} {uses uses' : List Use}

/-- Where there is no use nothing is found. -/
theorem nil : Faithful [] [] :=
  ⟨by simp, by simp⟩

/-- What is found in two parts belongs to the uses in both. -/
theorem append (h : Faithful found uses) (h' : Faithful found' uses') :
    Faithful (found ++ found') (uses ++ uses') := by
  refine ⟨fun id d => ?_, fun u hu => ?_⟩
  · rw [List.mem_append, h.distance_mem_iff, h'.distance_mem_iff]
    simp only [List.mem_append, or_and_right, exists_or]
  · exact (List.mem_append.mp hu).elim (h.sound u) (h'.sound u)

/-- The order in which the resolver looks at two parts does not matter. -/
theorem append_comm (h : Faithful (found ++ found') uses) : Faithful (found' ++ found) uses := by
  refine ⟨fun id d => ?_, h.sound⟩
  rw [← h.distance_mem_iff, List.mem_append, List.mem_append, or_comm]

/-- A single reference. -/
theorem refer {scopes : StaticScopes} {around : Surroundings} {initializing : Option String}
    {kind : ReferenceKind} {id : NodeId} {name : Token}
    (hsound : Use.Sound ⟨⟨kind, id, name⟩, around, initializing⟩)
    (h : scopes.distance? name.lexeme = around.distance? name.lexeme) :
    Faithful (scopes.refer id name) [⟨⟨kind, id, name⟩, around, initializing⟩] := by
  refine ⟨fun id' d => ?_, by simpa using hsound⟩
  simp only [StaticScopes.refer, h, List.mem_singleton, exists_eq_left, Use.distance?]
  cases around.distance? name.lexeme with
  | none => simp
  | some d' => simp [eq_comm]

end Faithful

namespace Expr

variable {scopes : StaticScopes} {around : Surroundings} {initializing : Option String}
  {cls : ClassContext}

mutual

/-- What the resolver finds in an expression without faults. -/
theorem resolve_faithful (hshows : scopes.Shows around initializing)
    (hword : ∀ k : Keyword, initializing ≠ some k.word)
    (hcls : cls = .subclass → around.InSubclass) (e : Expr) (hwf : e.WellFormed)
    (hfault : NoFault (e.resolve cls scopes)) :
    Faithful (e.resolve cls scopes) (e.uses around initializing) := by
  match e with
  | literal _ => exact .nil
  | grouping inner => exact inner.resolve_faithful hshows hword hcls hwf hfault
  | unary _ operand => exact operand.resolve_faithful hshows hword hcls hwf hfault
  | binary _ left right =>
    obtain ⟨hleft, hright⟩ := NoFault.append_iff.mp hfault
    rw [resolve, uses, references, List.map_append]
    exact (left.resolve_faithful hshows hword hcls hwf.1 hleft).append
      (right.resolve_faithful hshows hword hcls hwf.2 hright)
  | logical _ left right =>
    obtain ⟨hleft, hright⟩ := NoFault.append_iff.mp hfault
    rw [resolve, uses, references, List.map_append]
    exact (left.resolve_faithful hshows hword hcls hwf.1 hleft).append
      (right.resolve_faithful hshows hword hcls hwf.2 hright)
  | var id name =>
    rw [resolve] at hfault ⊢
    -- a name in its own initializer is a fault
    by_cases hinit : scopes.inInitializerOf name.lexeme = true
    · simp [hinit] at hfault
    · rw [if_neg hinit]
      rw [hshows.inInitializerOf] at hinit
      exact .refer ⟨fun _ => hinit, nofun⟩ (hshows.distance? _)
  | assign id name value =>
    obtain ⟨hvalue, -⟩ := NoFault.append_iff.mp hfault
    have hname : Faithful (scopes.refer id name) [⟨⟨.assign, id, name⟩, around, initializing⟩] :=
      .refer ⟨fun h => absurd rfl h, nofun⟩ (hshows.distance? _)
    -- the resolver looks at the value first, the uses are listed with the name first
    exact (hname.append (value.resolve_faithful hshows hword hcls hwf.2 hvalue)).append_comm
  | call callee _ arguments =>
    obtain ⟨hcallee, harguments⟩ := NoFault.append_iff.mp hfault
    rw [resolve, uses, references, List.map_append]
    exact (callee.resolve_faithful hshows hword hcls hwf.1 hcallee).append
      (resolveList_faithful hshows hword hcls arguments hwf.2 harguments)
  | get object _ => exact object.resolve_faithful hshows hword hcls hwf hfault
  | set object _ value =>
    obtain ⟨hvalue, hobject⟩ := NoFault.append_iff.mp hfault
    rw [resolve, uses, references, List.map_append]
    exact ((object.resolve_faithful hshows hword hcls hwf.1 hobject).append
      (value.resolve_faithful hshows hword hcls hwf.2 hvalue)).append_comm
  | this id keyword =>
    cases cls with
    | none => simp [resolve] at hfault
    | base | subclass =>
      have hname : Faithful (scopes.refer id keyword) [⟨⟨.this, id, keyword⟩, around, initializing⟩] :=
        .refer ⟨fun _ => hwf ▸ hword .this, nofun⟩ (hshows.distance? _)
      exact hname
  | super id keyword _ =>
    cases cls with
    | none | base => simp [resolve] at hfault
    | subclass =>
      have hname :
          Faithful (scopes.refer id keyword) [⟨⟨.super, id, keyword⟩, around, initializing⟩] :=
        .refer ⟨fun _ => hwf ▸ hword .super, fun _ => ⟨hwf, hcls rfl⟩⟩ (hshows.distance? _)
      exact hname

/-- What the resolver finds in several expressions without faults. -/
theorem resolveList_faithful (hshows : scopes.Shows around initializing)
    (hword : ∀ k : Keyword, initializing ≠ some k.word)
    (hcls : cls = .subclass → around.InSubclass) (es : List Expr) (hwf : WellFormedList es)
    (hfault : NoFault (resolveList cls scopes es)) :
    Faithful (resolveList cls scopes es)
      ((referencesList es).map fun r => ⟨r, around, initializing⟩) := by
  match es with
  | [] => exact .nil
  | e :: rest =>
    obtain ⟨he, hrest⟩ := NoFault.append_iff.mp hfault
    rw [resolveList, referencesList, List.map_append]
    exact (e.resolve_faithful hshows hword hcls hwf.1 he).append
      (resolveList_faithful hshows hword hcls rest hwf.2 hrest)

end

/-- What the resolver finds in an expression that may be missing. -/
theorem resolveOption_faithful (hshows : scopes.Shows around initializing)
    (hword : ∀ k : Keyword, initializing ≠ some k.word)
    (hcls : cls = .subclass → around.InSubclass) (o : Option Expr) (hwf : ∀ e ∈ o, e.WellFormed)
    (hfault : NoFault (resolveOption cls scopes o)) :
    Faithful (resolveOption cls scopes o) (usesOption around initializing o) := by
  cases o with
  | none => exact .nil
  | some e => exact e.resolve_faithful hshows hword hcls (hwf e rfl) hfault

end Expr

namespace Stmt

section Parts

variable {scopes : StaticScopes} {around : Surroundings}

/-- What the resolver finds in the superclass of a class, a variable of another name. -/
private theorem resolveSuperclass_faithful {id : NodeId} {name superName : Token}
    (hshows : scopes.Shows around none)
    (hfault : NoFault (resolveSuperclass scopes name (.var id superName))) :
    Faithful (resolveSuperclass scopes name (.var id superName))
      (Expr.uses around (around.pending name.lexeme) (.var id superName)) := by
  have hne : superName.lexeme ≠ name.lexeme := by
    intro heq
    simp [resolveSuperclass, heq] at hfault
  have hinit : ¬ scopes.inInitializerOf superName.lexeme = true := by
    rw [hshows.inInitializerOf]
    simp
  -- the name of the class is pending, but its superclass has another name
  have hpending : around.pending name.lexeme ≠ some superName.lexeme := by
    cases around with
    | nil => simp [Surroundings.pending]
    | cons => simpa [Surroundings.pending] using hne.symm
  simp only [resolveSuperclass, hne, Expr.resolve, hinit, if_false, List.nil_append]
  exact .refer ⟨fun _ => hpending, nofun⟩ (hshows.distance? _)

/-- Declaring one name as the resolver does for functions and classes. -/
theorem introduce_single {name : Token} (h : scopes.Agrees around)
    (hfault : NoFault (scopes.introduce [name]).2) :
    (scopes.introduce [name]).1.Agrees (around.declare name.lexeme) := by
  have : NoFault (scopes.declare name).2 := (NoFault.append_iff.mp hfault).1
  exact (h.declare this).2

/-- A declaration without a fault finds nothing. -/
theorem declare_found_eq_nil {name : Token} (hfault : NoFault (scopes.declare name).2) :
    (scopes.declare name).2 = [] := by
  cases scopes with
  | nil => rfl
  | cons scope scopes =>
    rw [StaticScopes.declare] at hfault ⊢
    split
    · rename_i hc
      simp [hc] at hfault
    · rfl

/-- The introduction of names without a fault finds nothing. -/
theorem introduce_found_eq_nil {params : List Token}
    (hfault : NoFault (scopes.introduce params).2) : (scopes.introduce params).2 = [] := by
  induction params generalizing scopes with
  | nil => rfl
  | cons param params ih =>
    rw [StaticScopes.introduce_cons] at hfault ⊢
    obtain ⟨hdeclare, hrest⟩ := NoFault.append_iff.mp hfault
    simp [declare_found_eq_nil hdeclare, ih hrest]

/-- A name that is declared is not `super`. -/
private theorem inSubclass_declare {name : Token} (h : around.InSubclass) (hname : name.IsName) :
    (around.declare name.lexeme).InSubclass :=
  h.declare (hname .super)

/-- The name of a local declaration is no reserved word. -/
private theorem pending_ne_word {name : Token} (hname : name.IsName) (k : Keyword) :
    around.pending name.lexeme ≠ some k.word := by
  cases around with
  | nil => nofun
  | cons => simpa [Surroundings.pending] using hname k

/-- Behind a statement one is still in a subclass, because no name is `super`. -/
private theorem inSubclass_after {s : Stmt} (h : around.InSubclass) (hwf : s.WellFormed) :
    (around.after s).InSubclass := by
  cases s with
  | varDecl name initializer => exact inSubclass_declare h hwf.1
  | funDecl d => exact inSubclass_declare h hwf.1
  | classDecl d =>
    obtain ⟨_, _, _⟩ := d
    exact inSubclass_declare h hwf.1
  | _ => exact h

/-- A declaration without a fault: its initializer sees the name, which has no value yet. -/
private theorem varDecl_faithful {ctx : ResolveContext} (hagrees : scopes.Agrees around)
    (hcls : ctx.cls = .subclass → around.InSubclass) {name : Token} {initializer : Option Expr}
    (hwf : (varDecl name initializer).WellFormed)
    (hfault : NoFault ((varDecl name initializer).resolve ctx scopes).2) :
    ((varDecl name initializer).resolve ctx scopes).1.Agrees
        (around.after (varDecl name initializer)) ∧
      Faithful ((varDecl name initializer).resolve ctx scopes).2
        ((varDecl name initializer).uses around) := by
  have hresolve : resolve ctx scopes (varDecl name initializer) =
      ((scopes.declare name).1.define name.lexeme, (scopes.declare name).2 ++
        Expr.resolveOption ctx.cls (scopes.declare name).1 initializer) := rfl
  rw [hresolve] at hfault ⊢
  obtain ⟨hdeclare, hinitializer⟩ := NoFault.append_iff.mp hfault
  -- two surroundings: with the name pending for its initializer, and with it declared behind
  obtain ⟨hshows, hafter⟩ := hagrees.declare hdeclare
  refine ⟨hafter, ?_⟩
  rw [declare_found_eq_nil hdeclare]
  exact Expr.resolveOption_faithful hshows (pending_ne_word hwf.1)
    (fun h => inSubclass_declare (hcls h) hwf.1) initializer hwf.2 hinitializer

/-- A `return` without a fault stands in a function, and its value is all that is resolved. -/
private theorem ret_faithful {ctx : ResolveContext} (hagrees : scopes.Agrees around)
    (hcls : ctx.cls = .subclass → around.InSubclass) {keyword : Token} {value : Option Expr}
    (hwf : (ret keyword value).WellFormed)
    (hfault : NoFault ((ret keyword value).resolve ctx scopes).2) :
    ((ret keyword value).resolve ctx scopes).1.Agrees (around.after (ret keyword value)) ∧
      Faithful ((ret keyword value).resolve ctx scopes).2 ((ret keyword value).uses around) := by
  have hresolve : resolve ctx scopes (ret keyword value) =
      (scopes, returnFaults ctx.function keyword value ++
        Expr.resolveOption ctx.cls scopes value) := rfl
  rw [hresolve] at hfault ⊢
  obtain ⟨hreturn, hvalue⟩ := NoFault.append_iff.mp hfault
  -- without a fault the check of the `return` finds nothing at all
  have hnil : returnFaults ctx.function keyword value = [] := by
    unfold returnFaults at hreturn ⊢
    split <;> simp_all
  rw [hnil]
  exact ⟨hagrees, Expr.resolveOption_faithful hagrees.shows nofun hcls value hwf hvalue⟩

end Parts

mutual

/-- What the resolver finds in a statement without faults, and its scopes behind it. -/
theorem resolve_faithful {scopes : StaticScopes} {around : Surroundings} {ctx : ResolveContext}
    (hagrees : scopes.Agrees around) (hcls : ctx.cls = .subclass → around.InSubclass)
    (s : Stmt) (hwf : s.WellFormed)
    (hfault : NoFault (s.resolve ctx scopes).2) :
    (s.resolve ctx scopes).1.Agrees (around.after s) ∧
      Faithful (s.resolve ctx scopes).2 (s.uses around) := by
  match s with
  | expression value | print value =>
    exact ⟨hagrees, value.resolve_faithful hagrees.shows nofun hcls hwf hfault⟩
  | varDecl name initializer => exact varDecl_faithful hagrees hcls hwf hfault
  | block body =>
    refine ⟨hagrees, ?_⟩
    exact (resolveList_faithful (hagrees.openEmpty _) (fun h => (hcls h).cons (by simp)) body hwf
      hfault).2
  | cond condition thenBranch none =>
    have hresolve : resolve ctx scopes (cond condition thenBranch none) =
        ((thenBranch.resolve ctx scopes).1, condition.resolve ctx.cls scopes ++
          (thenBranch.resolve ctx scopes).2) := rfl
    rw [hresolve] at hfault ⊢
    obtain ⟨hcondition, hthen⟩ := NoFault.append_iff.mp hfault
    have hcondition := condition.resolve_faithful hagrees.shows nofun hcls hwf.1 hcondition
    obtain ⟨hafter, hthen⟩ := thenBranch.resolve_faithful hagrees hcls hwf.2.2 hthen
    rw [Surroundings.after, hwf.2.1] at hafter
    exact ⟨hafter, hcondition.append hthen⟩
  | cond condition thenBranch (some elseBranch) =>
    have hresolve : resolve ctx scopes (cond condition thenBranch (some elseBranch)) =
        ((elseBranch.resolve ctx (thenBranch.resolve ctx scopes).1).1,
          condition.resolve ctx.cls scopes ++ (thenBranch.resolve ctx scopes).2 ++
            (elseBranch.resolve ctx (thenBranch.resolve ctx scopes).1).2) := rfl
    rw [hresolve] at hfault ⊢
    obtain ⟨hbefore, helse⟩ := NoFault.append_iff.mp hfault
    obtain ⟨hcondition, hthen⟩ := NoFault.append_iff.mp hbefore
    have hcondition := condition.resolve_faithful hagrees.shows nofun hcls hwf.1 hcondition
    obtain ⟨hafter, hthen⟩ := thenBranch.resolve_faithful hagrees hcls hwf.2.1.2 hthen
    -- a branch that is no declaration leaves the surroundings as they are
    rw [Surroundings.after, hwf.2.1.1] at hafter
    obtain ⟨hafter, helse⟩ := elseBranch.resolve_faithful hafter hcls hwf.2.2.2 helse
    rw [Surroundings.after, hwf.2.2.1] at hafter
    exact ⟨hafter, (hcondition.append hthen).append helse⟩
  | loop condition body =>
    have hresolve : resolve ctx scopes (loop condition body) =
        ((body.resolve ctx scopes).1, condition.resolve ctx.cls scopes ++
          (body.resolve ctx scopes).2) := rfl
    rw [hresolve] at hfault ⊢
    obtain ⟨hcondition, hbody⟩ := NoFault.append_iff.mp hfault
    have hcondition := condition.resolve_faithful hagrees.shows nofun hcls hwf.1 hcondition
    obtain ⟨hafter, hbody⟩ := body.resolve_faithful hagrees hcls hwf.2.2 hbody
    rw [Surroundings.after, hwf.2.1] at hafter
    exact ⟨hafter, hcondition.append hbody⟩
  | funDecl ⟨name, params, body⟩ =>
    have hresolve : resolve ctx scopes (funDecl ⟨name, params, body⟩) =
        ((scopes.introduce [name]).1, (scopes.introduce [name]).2 ++
          resolveFunction { ctx with function := .function } (scopes.introduce [name]).1
            ⟨name, params, body⟩) := rfl
    rw [hresolve] at hfault ⊢
    obtain ⟨hname, hfunction⟩ := NoFault.append_iff.mp hfault
    have hafter := introduce_single hagrees hname
    refine ⟨hafter, ?_⟩
    rw [introduce_found_eq_nil hname]
    have hcls : ({ ctx with function := .function } : ResolveContext).cls = .subclass → _ :=
      fun h => inSubclass_declare (hcls h) hwf.1
    exact resolveFunction_faithful hafter hcls ⟨name, params, body⟩ hwf.2 hfunction
  | ret keyword value => exact ret_faithful hagrees hcls hwf hfault
  | classDecl ⟨name, none, methods⟩ =>
    have hresolve : resolve ctx scopes (classDecl ⟨name, none, methods⟩) =
        ((scopes.introduce [name]).1, (scopes.introduce [name]).2 ++ [] ++
          resolveMethods .base ((scopes.introduce [name]).1.openWith "this") methods) := rfl
    rw [hresolve] at hfault ⊢
    obtain ⟨hname, hmethods⟩ := NoFault.append_iff.mp hfault
    obtain ⟨hname, -⟩ := NoFault.append_iff.mp hname
    have hafter := introduce_single hagrees hname
    refine ⟨hafter, ?_⟩
    rw [introduce_found_eq_nil hname]
    -- in a class without a superclass nothing is said of `super`
    have hbase : ClassContext.base = .subclass → ∀ method,
        Surroundings.InSubclass (⟨.this method, ["this"]⟩ :: around.declare name.lexeme) := nofun
    exact resolveMethods_faithful (fun method => hafter.openWith (.this method) "this") hbase methods
      hwf.2.2 hmethods
  | classDecl ⟨name, some superclass, methods⟩ =>
    obtain ⟨id, superName, rfl⟩ := hwf.2.1 superclass rfl
    have hresolve : resolve ctx scopes (classDecl ⟨name, some (.var id superName), methods⟩) =
        ((scopes.introduce [name]).1, (scopes.introduce [name]).2 ++
          resolveSuperclass (scopes.introduce [name]).1 name (.var id superName) ++
          resolveMethods .subclass (((scopes.introduce [name]).1.openWith "super").openWith "this")
            methods) := rfl
    rw [hresolve] at hfault ⊢
    obtain ⟨hbefore, hmethods⟩ := NoFault.append_iff.mp hfault
    obtain ⟨hname, hsuperclass⟩ := NoFault.append_iff.mp hbefore
    have hafter := introduce_single hagrees hname
    refine ⟨hafter, ?_⟩
    rw [introduce_found_eq_nil hname]
    have hsuperclass := resolveSuperclass_faithful hafter.shows hsuperclass
    rw [Surroundings.pending_declare] at hsuperclass
    have hmethods := resolveMethods_faithful (fun method =>
      (hafter.openWith (.super name methods) "super").openWith (.this method) "this")
      (fun _ method => Surroundings.inSubclass_method _ method name methods) methods hwf.2.2 hmethods
    exact hsuperclass.append hmethods

/-- What the resolver finds in several statements without faults, and its scopes behind them. -/
theorem resolveList_faithful {scopes : StaticScopes} {around : Surroundings} {ctx : ResolveContext}
    (hagrees : scopes.Agrees around) (hcls : ctx.cls = .subclass → around.InSubclass)
    (body : List Stmt)
    (hwf : WellFormedList body) (hfault : NoFault (resolveList ctx scopes body).2) :
    (resolveList ctx scopes body).1.Agrees (body.foldl Surroundings.after around) ∧
      Faithful (resolveList ctx scopes body).2 (usesList around body) := by
  match body with
  | [] => exact ⟨hagrees, .nil⟩
  | s :: rest =>
    have hresolve : resolveList ctx scopes (s :: rest) =
        ((resolveList ctx (s.resolve ctx scopes).1 rest).1,
          (s.resolve ctx scopes).2 ++ (resolveList ctx (s.resolve ctx scopes).1 rest).2) := rfl
    rw [hresolve] at hfault ⊢
    obtain ⟨hs, hrest⟩ := NoFault.append_iff.mp hfault
    obtain ⟨hafter, hs⟩ := s.resolve_faithful hagrees hcls hwf.1 hs
    -- no statement takes the scopes of the class around it away
    obtain ⟨hend, hrest⟩ :=
      resolveList_faithful hafter (fun h => inSubclass_after (hcls h) hwf.1) rest hwf.2 hrest
    exact ⟨hend, hs.append hrest⟩

/-- What the resolver finds in a function without faults. -/
theorem resolveFunction_faithful {scopes : StaticScopes} {around : Surroundings} {ctx : ResolveContext}
    (hagrees : scopes.Agrees around) (hcls : ctx.cls = .subclass → around.InSubclass)
    (d : FunctionDecl)
    (hwf : WellFormedFunction d) (hfault : NoFault (resolveFunction ctx scopes d)) :
    Faithful (resolveFunction ctx scopes d) (functionUses around d) := by
  match d with
  | ⟨name, params, body⟩ =>
    have hresolve : resolveFunction ctx scopes ⟨name, params, body⟩ =
        (StaticScopes.introduce (.empty :: scopes) params).2 ++
          (resolveList ctx (StaticScopes.introduce (.empty :: scopes) params).1 body).2 := rfl
    rw [hresolve] at hfault ⊢
    obtain ⟨hparams, hbody⟩ := NoFault.append_iff.mp hfault
    have hinside := (hagrees.openEmpty (.function ⟨name, params, body⟩)).introduce hparams
    rw [List.append_nil] at hinside
    rw [introduce_found_eq_nil hparams]
    -- no parameter hides `super`
    have hsuper : "super" ∉ params.map (·.lexeme) := by
      simp only [List.mem_map, not_exists, not_and]
      exact fun param hparam => hwf.1 param hparam .super
    exact (resolveList_faithful hinside (fun h => (hcls h).cons hsuper) body hwf.2 hbody).2

/-- What the resolver finds in the methods of a class without faults. -/
theorem resolveMethods_faithful {scopes : StaticScopes} {around : Surroundings}
    {cls : ClassContext}
    (hagrees : ∀ method, scopes.Agrees (⟨.this method, ["this"]⟩ :: around))
    (hcls : cls = .subclass → ∀ method, Surroundings.InSubclass (⟨.this method, ["this"]⟩ :: around))
    (ds : List FunctionDecl) (hwf : WellFormedMethods ds)
    (hfault : NoFault (resolveMethods cls scopes ds)) :
    Faithful (resolveMethods cls scopes ds) (methodUses around ds) := by
  match ds with
  | [] => exact .nil
  | d :: rest =>
    obtain ⟨hd, hrest⟩ := NoFault.append_iff.mp hfault
    exact (resolveFunction_faithful (hagrees d) (fun h => hcls h d) d hwf.1 hd).append
      (resolveMethods_faithful hagrees hcls rest hwf.2 hrest)

end

end Stmt

/-! ## Accepted programs -/

namespace Distances

variable {entries : List (NodeId × Nat)} {id : NodeId}

/-- What is not among the entries is found as it was before. -/
theorem get?_insertAll_of_not_mem (t : Distances) (h : ∀ d, (id, d) ∉ entries) :
    (t.insertAll entries).get? id = t.get? id := by
  induction entries generalizing t with
  | nil => rfl
  | cons entry rest ih =>
    have hne : entry.1 ≠ id := by
      rintro rfl
      exact h entry.2 List.mem_cons_self
    have := ih (t.insert entry.1 entry.2) fun d hd => h d (List.mem_cons_of_mem _ hd)
    rwa [get?_insert, if_neg hne] at this

/-- What is recorded for a node with one distance among the entries. -/
theorem get?_insertAll_of_mem (t : Distances) {d : Nat} (hd : (id, d) ∈ entries)
    (h : ∀ d', (id, d') ∈ entries → d' = d) : (t.insertAll entries).get? id = some d := by
  induction entries generalizing t with
  | nil => cases hd
  | cons entry rest ih =>
    -- the last entry of a node counts, and here all entries of it are alike
    by_cases hrest : ∃ d', (id, d') ∈ rest
    · obtain ⟨d', hd'⟩ := hrest
      obtain rfl := h d' (List.mem_cons_of_mem _ hd')
      exact ih _ hd' fun d' hd' => h d' (List.mem_cons_of_mem _ hd')
    · have hentry : entry = (id, d) := by
        rcases List.mem_cons.mp hd with hd | hd
        · exact hd.symm
        · exact absurd ⟨d, hd⟩ hrest
      have hinsert : (t.insertAll (entry :: rest)).get? id =
          ((t.insert entry.1 entry.2).insertAll rest).get? id := rfl
      rw [hinsert, get?_insertAll_of_not_mem _ (not_exists.mp hrest), hentry, get?_insert,
        if_pos rfl]

/-- What is recorded for a node when all its entries are known. -/
theorem get?_insertAll_of_mem_iff (t : Distances) {distance? : Option Nat}
    (h : ∀ d, (id, d) ∈ entries ↔ distance? = some d) (ht : t.get? id = none) :
    (t.insertAll entries).get? id = distance? := by
  cases distance? with
  | none =>
    rw [get?_insertAll_of_not_mem, ht]
    intro d hd
    cases (h d).mp hd
  | some d =>
    refine get?_insertAll_of_mem t ((h d).mpr rfl) fun d' hd' => ?_
    exact (Option.some.inj ((h d').mp hd')).symm

end Distances

/-- Where there are no errors the resolver has found no faults. -/
theorem Resolution.noFault_of_errors {statements : List Stmt}
    (h : (Resolution.ofProgram statements).errors = []) :
    NoFault (Stmt.resolveList ⟨.none, .none⟩ [] statements).2 := by
  intro e he
  have : e ∈ (Resolution.ofProgram statements).errors := List.mem_filterMap.mpr ⟨_, he, rfl⟩
  simp [h] at this

namespace Program

/-- The uses in a program. -/
def uses (p : Program) : List Use :=
  Stmt.usesList [] p.statements

/-- What holds of a program that has been compiled, its nodes numbered from `n` up to `n'`. -/
structure Accepted (p : Program) (n n' : Nat) : Prop where
  wellFormed : Stmt.WellFormedList p.statements
  numbered : Numbered (Stmt.referencesList p.statements) n n'
  faithful : ∀ id d, (id, d) ∈ p.distances ↔
    ∃ u ∈ p.uses, u.reference.id = id ∧ u.distance? = some d
  sound : ∀ u ∈ p.uses, u.Sound

namespace Accepted

variable {p : Program} {n n' : Nat}

/-- The identity of a use is among those that the program has taken. -/
theorem bounds (h : p.Accepted n n') {u : Use} (hu : u ∈ p.uses) :
    n ≤ u.reference.id.index ∧ u.reference.id.index < n' := by
  refine h.numbered.bounds u.reference ?_
  rw [← Stmt.map_usesList []]
  exact List.mem_map_of_mem hu

/-- A referring node stands at one place. -/
theorem eq_of_id_eq (h : p.Accepted n n') {u u' : Use} (hu : u ∈ p.uses) (hu' : u' ∈ p.uses)
    (heq : u.reference.id = u'.reference.id) : u = u' := by
  have hnodup := h.numbered.nodup
  rw [← Stmt.map_usesList [], List.map_map] at hnodup
  exact List.inj_on_of_nodup_map hnodup hu hu' (congrArg NodeId.index heq)

/-- What is recorded for the uses of a program. -/
theorem get?_distances (h : p.Accepted n n') {u : Use} (hu : u ∈ p.uses) {t : Distances}
    (ht : t.get? u.reference.id = none) :
    (t.insertAll p.distances).get? u.reference.id = u.distance? := by
  refine Distances.get?_insertAll_of_mem_iff t (fun d => ⟨fun hd => ?_, fun hd => ?_⟩) ht
  · obtain ⟨u', hu', hid, hdistance⟩ := (h.faithful _ d).mp hd
    rwa [h.eq_of_id_eq hu hu' hid.symm]
  · exact (h.faithful _ d).mpr ⟨u, hu, rfl, hd⟩

/-- Distances are found for the nodes of the program alone. -/
theorem bounds_of_mem_distances (h : p.Accepted n n') {entry : NodeId × Nat}
    (hentry : entry ∈ p.distances) : n ≤ entry.1.index ∧ entry.1.index < n' := by
  obtain ⟨u, hu, hid, -⟩ := (h.faithful entry.1 entry.2).mp hentry
  rw [← hid]
  exact h.bounds hu

/-- Nothing is recorded for the nodes of other programs. -/
theorem get?_distances_of_lt (h : p.Accepted n n') {t : Distances} {id : NodeId}
    (hid : id.index < n ∨ n' ≤ id.index) : (t.insertAll p.distances).get? id = t.get? id := by
  refine Distances.get?_insertAll_of_not_mem t fun d hd => ?_
  have hbounds : n ≤ id.index ∧ id.index < n' := h.bounds_of_mem_distances hd
  omega

end Accepted

/-- The number of nodes never shrinks. -/
theorem le_nextId_compile (text : String) (n : Nat) : n ≤ (compile text n).2 := by
  have hparsed := Parsed.le_nextId_ofTokens (Scan.ofText text).tokens n
  unfold compile
  dsimp only
  split
  · exact Nat.le_refl n
  · split
    · exact hparsed
    · split
      · exact hparsed
      · exact hparsed

/-- What is compiled has no errors of any kind. -/
theorem compile_eq_ok_iff {text : String} {n n' : Nat} {p : Program} :
    compile text n = (.ok p, n') ↔ (Scan.ofText text).errors = [] ∧
      (Parsed.ofTokens (Scan.ofText text).tokens n).errors = [] ∧
      (Resolution.ofProgram (Parsed.ofTokens (Scan.ofText text).tokens n).statements).errors = [] ∧
      p = ⟨(Parsed.ofTokens (Scan.ofText text).tokens n).statements, (Resolution.ofProgram
        (Parsed.ofTokens (Scan.ofText text).tokens n).statements).distances⟩ ∧
      n' = (Parsed.ofTokens (Scan.ofText text).tokens n).nextId := by
  constructor
  · intro h
    unfold compile at h
    dsimp only at h
    split at h
    · cases h
    · split at h
      · cases h
      · split at h
        · cases h
        · cases h
          simp_all
  -- without errors no stage is the last one
  · rintro ⟨hscan, hparsed, hresolved, rfl, rfl⟩
    simp [compile, hscan, hparsed, hresolved]

/-- A tree that the grammar gives to tokens and in which the resolver finds no fault is well-formed,
    its nodes have different numbers, and its distances are those of its uses. -/
theorem accepted_of_derives {p : Program} {ts : List Token} {n n' : Nat}
    (hts : ∀ t ∈ ts, t.Spelled)
    (hderives : (Clause.declarations p.statements).Derives true n ts n')
    (hresolved : Resolution.ofProgram p.statements = ⟨p.distances, []⟩) : p.Accepted n n' := by
  have hfault : NoFault (Stmt.resolveList ⟨.none, .none⟩ [] p.statements).2 :=
    Resolution.noFault_of_errors (by rw [hresolved])
  have hwf := hderives.wellFormed hts
  -- a program is in no class
  have houtside : ClassContext.none = .subclass → Surroundings.InSubclass [] := nofun
  have hfaithful := (Stmt.resolveList_faithful .nil houtside p.statements hwf hfault).2
  have hdistances : (Resolution.ofProgram p.statements).distances = p.distances := by rw [hresolved]
  refine ⟨hwf, hderives.numbered, fun id d => ?_, hfaithful.sound⟩
  rw [uses, ← hfaithful.distance_mem_iff, ← hdistances, Resolution.ofProgram, List.mem_filterMap]
  constructor
  -- of what is found, faults are not distances
  · rintro ⟨_ | _, hmem, heq⟩
    · cases heq
      exact hmem
    · cases heq
  · exact fun hmem => ⟨_, hmem, rfl⟩

/-- Such is the tree of a compiled program. -/
theorem accepted_of_compile {text : String} {n n' : Nat} {p : Program}
    (h : compile text n = (.ok p, n')) : p.Accepted n n' := by
  obtain ⟨-, hparsed, hresolved, rfl, rfl⟩ := compile_eq_ok_iff.mp h
  obtain ⟨ts, line, htokens, hts⟩ := Scan.tokens_ofText text
  rw [htokens] at hparsed hresolved ⊢
  have hderives := Parsed.statements_derives rfl (fun t ht => (hts t ht).kind_ne_eof) hparsed
  refine accepted_of_derives hts hderives ?_
  rw [← hresolved]

end Program

end Lox
