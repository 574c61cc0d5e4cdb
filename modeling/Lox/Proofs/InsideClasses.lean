import Lox.Proofs.Told

/-!
# Where `this` and `super` stand

In an accepted program `this` stands in a method, and `super` stands in a method of a class with a
superclass, possibly inside functions and blocks in it. When the program is run, the scope to which
the distance of `this` leads is the one in which the method was bound to an instance, and the one to
which the distance of `super` leads is the one of the declaration of the class.

## Key results

- `Stmt.resolve_inside`: what the resolver demands of `this` and `super`
- `Opened.exists_inMethod`: the innermost method around a place in a run
- `Session.Told.inMethod`: the scopes to which `this` and `super` lead
-/

namespace Lox

/-! ## Places in a text -/

/-- What kind of class is around a place that has these scopes around it. -/
def ClassContext.ofOpeners : List Opener → ClassContext
  | [] => .none
  | .this _ :: .super _ _ :: _ => .subclass
  | .this _ :: _ => .base
  | .block _ :: outer => ofOpeners outer
  | .function _ :: outer => ofOpeners outer
  | .super _ _ :: outer => ofOpeners outer

/-- The scope of a class around its methods. -/
def Opener.IsSuper : Opener → Prop
  | .super _ _ => True
  | _ => False

/-- The scope of a method that is bound. -/
def Opener.IsThis : Opener → Prop
  | .this _ => True
  | _ => False

namespace Surroundings

/-- The scopes of methods and classes, and no others, declare `this` and `super`. -/
def Reserved (around : Surroundings) : Prop :=
  ∀ x ∈ around, (Keyword.this.word ∈ x.declared ↔ x.opener.IsThis) ∧
    (Keyword.super.word ∈ x.declared ↔ x.opener.IsSuper)

/-- A place inside of such a class. -/
structure Within (around : Surroundings) (cls : ClassContext) : Prop where
  reserved : around.Reserved
  cls : ClassContext.ofOpeners (around.map (·.opener)) = cls

/-- A place at which statements can stand: not directly in a class. -/
def OutsideClassBody (around : Surroundings) : Prop :=
  ∀ x ∈ around.head?, ¬ x.opener.IsSuper

variable {around : Surroundings} {cls : ClassContext}

/-- A declared name changes nothing about which class is around. -/
theorem Within.declare (h : around.Within cls) {name : Token} (hname : name.IsName) :
    (around.declare name.lexeme).Within cls := by
  refine ⟨?_, by rw [map_opener_declare]; exact h.cls⟩
  cases around with
  | nil => exact h.reserved
  | cons x outer =>
    refine List.forall_mem_cons.mpr ⟨?_, (List.forall_mem_cons.mp h.reserved).2⟩
    have hword (k : Keyword) : k.word ∈ name.lexeme :: x.declared ↔ k.word ∈ x.declared := by
      rw [List.mem_cons, or_iff_right fun heq => hname k heq.symm]
    obtain ⟨hthis, hsuper⟩ := (List.forall_mem_cons.mp h.reserved).1
    exact ⟨(hword .this).trans hthis, (hword .super).trans hsuper⟩

/-- A declared name opens no body of a class. -/
theorem OutsideClassBody.declare (h : around.OutsideClassBody) (name : String) :
    (around.declare name).OutsideClassBody := by
  cases around with
  | nil => exact h
  | cons x outer => simpa [OutsideClassBody, Surroundings.declare] using h

/-- A scope with names that are not reserved. -/
theorem Within.cons (h : around.Within cls) {opener : Opener} {declared : List String}
    (hthis : ¬ opener.IsThis) (hsuper : ¬ opener.IsSuper)
    (hwords : ∀ k : Keyword, k.word ∉ declared) : Within (⟨opener, declared⟩ :: around) cls := by
  refine ⟨List.forall_mem_cons.mpr ⟨?_, h.reserved⟩, ?_⟩
  · exact ⟨iff_of_false (hwords .this) hthis, iff_of_false (hwords .super) hsuper⟩
  · rw [← h.cls]
    cases opener with
    | this => exact absurd trivial hthis
    | super => exact absurd trivial hsuper
    | block | function => rfl

/-- The scopes around a method of a class. -/
theorem Within.method (h : around.Within cls) (hplace : around.OutsideClassBody) (name : Token)
    (superclass : Option Expr) (methods : List FunctionDecl) (method : FunctionDecl) :
    Within (⟨.this method, ["this"]⟩ :: Stmt.aroundMethods around name superclass methods)
      (Stmt.classContext superclass) := by
  -- the scope of a method declares `this` and nothing else that is reserved
  have hthis : (Keyword.this.word ∈ ["this"] ↔ (Opener.this method).IsThis) ∧
      (Keyword.super.word ∈ ["this"] ↔ (Opener.this method).IsSuper) :=
    ⟨iff_of_true (by decide) trivial, iff_of_false (by decide) id⟩
  cases superclass with
  | none =>
    refine ⟨List.forall_mem_cons.mpr ⟨hthis, h.reserved⟩, ?_⟩
    cases around with
    | nil => rfl
    | cons x outer =>
      obtain ⟨opener, declared⟩ := x
      -- a class without a superclass adds no scope, so the next one is not a scope of `super`
      have hnot : ¬ opener.IsSuper := hplace _ rfl
      cases opener with
      | super => exact absurd trivial hnot
      | _ => rfl
  | some s =>
    have hsuper : (Keyword.this.word ∈ ["super"] ↔ (Opener.super name methods).IsThis) ∧
        (Keyword.super.word ∈ ["super"] ↔ (Opener.super name methods).IsSuper) :=
      ⟨iff_of_false (by decide) id, iff_of_true (by decide) trivial⟩
    exact ⟨List.forall_mem_cons.mpr ⟨hthis, List.forall_mem_cons.mpr ⟨hsuper, h.reserved⟩⟩, rfl⟩

/-- The distance to the first scope of the kind that declares a name. -/
theorem distance?_of_openers {name : String} {P : Opener → Prop}
    (h : ∀ x ∈ around, name ∈ x.declared ↔ P x.opener) {inner outer : List Opener} {o : Opener}
    (hmap : around.map (·.opener) = inner ++ o :: outer) (hinner : ∀ o ∈ inner, ¬ P o) (ho : P o) :
    around.distance? name = some inner.length := by
  obtain ⟨before, rest, rfl, rfl, hrest⟩ := List.map_eq_append_iff.mp hmap
  obtain ⟨x, behind, rfl, rfl, -⟩ := List.map_eq_cons_iff.mp hrest
  have hx : name ∈ x.declared := (h x (by simp)).mpr ho
  -- no scope in front of it is of the kind, so none declares the name
  have hbefore : before.findIdx? (fun y => decide (name ∈ y.declared)) = none := by
    rw [List.findIdx?_eq_none_iff]
    intro y hy
    have hnot : ¬ P y.opener := hinner _ (List.mem_map_of_mem hy)
    simpa [h y (by simp [hy])] using hnot
  simp [distance?, List.findIdx?_append, hbefore, List.findIdx?_cons, hx]

end Surroundings

/-- A reference with this kind of class around it. -/
def Reference.Inside (cls : ClassContext) (r : Reference) : Prop :=
  (r.kind = .this → r.name.lexeme = Keyword.this.word ∧ cls ≠ .none) ∧
    (r.kind = .super → r.name.lexeme = Keyword.super.word ∧ cls = .subclass)

/-- A use at a place where it may stand. -/
def Use.Inside (u : Use) : Prop :=
  ∃ cls, u.around.Within cls ∧ u.reference.Inside cls

/-! ## What the resolver demands -/

namespace Expr

variable {scopes : StaticScopes} {cls : ClassContext}

mutual

/-- Where there are no faults `this` and `super` stand in a class. -/
theorem resolve_inside (e : Expr) (hwf : e.WellFormed) (hfault : NoFault (e.resolve cls scopes)) :
    ∀ r ∈ e.references, r.Inside cls := by
  match e with
  | literal _ => exact List.forall_mem_nil _
  | grouping inner => exact inner.resolve_inside hwf hfault
  | unary _ operand => exact operand.resolve_inside hwf hfault
  | binary _ left right =>
    obtain ⟨hleft, hright⟩ := NoFault.append_iff.mp hfault
    exact List.forall_mem_append.mpr
      ⟨left.resolve_inside hwf.1 hleft, right.resolve_inside hwf.2 hright⟩
  | logical _ left right =>
    obtain ⟨hleft, hright⟩ := NoFault.append_iff.mp hfault
    exact List.forall_mem_append.mpr
      ⟨left.resolve_inside hwf.1 hleft, right.resolve_inside hwf.2 hright⟩
  | var id name => exact List.forall_mem_singleton.mpr ⟨nofun, nofun⟩
  | assign id name value =>
    obtain ⟨hvalue, -⟩ := NoFault.append_iff.mp hfault
    exact List.forall_mem_cons.mpr ⟨⟨nofun, nofun⟩, value.resolve_inside hwf.2 hvalue⟩
  | call callee _ arguments =>
    obtain ⟨hcallee, harguments⟩ := NoFault.append_iff.mp hfault
    exact List.forall_mem_append.mpr
      ⟨callee.resolve_inside hwf.1 hcallee, resolveList_inside arguments hwf.2 harguments⟩
  | get object _ => exact object.resolve_inside hwf hfault
  | set object _ value =>
    obtain ⟨hvalue, hobject⟩ := NoFault.append_iff.mp hfault
    exact List.forall_mem_append.mpr
      ⟨object.resolve_inside hwf.1 hobject, value.resolve_inside hwf.2 hvalue⟩
  | this id keyword =>
    refine List.forall_mem_singleton.mpr ⟨fun _ => ⟨hwf, ?_⟩, nofun⟩
    -- outside of a class the resolver finds a fault
    rintro rfl
    simp [resolve] at hfault
  | super id keyword _ =>
    refine List.forall_mem_singleton.mpr ⟨nofun, fun _ => ⟨hwf, ?_⟩⟩
    cases cls with
    | none | base => simp [resolve] at hfault
    | subclass => rfl

/-- In expressions `this` and `super` are used inside of classes only. -/
theorem resolveList_inside (es : List Expr) (hwf : WellFormedList es)
    (hfault : NoFault (resolveList cls scopes es)) : ∀ r ∈ referencesList es, r.Inside cls := by
  match es with
  | [] => exact List.forall_mem_nil _
  | e :: rest =>
    obtain ⟨he, hrest⟩ := NoFault.append_iff.mp hfault
    exact List.forall_mem_append.mpr
      ⟨e.resolve_inside hwf.1 he, resolveList_inside rest hwf.2 hrest⟩

end

variable {around : Surroundings}

/-- An expression in a class uses `this` and `super` inside of it only. -/
theorem uses_inside (h : around.Within cls) (initializing : Option String) {e : Expr}
    (hwf : e.WellFormed) (hfault : NoFault (e.resolve cls scopes)) :
    ∀ u ∈ e.uses around initializing, u.Inside := by
  intro u hu
  obtain ⟨r, hr, rfl⟩ := List.mem_map.mp hu
  exact ⟨cls, h, e.resolve_inside hwf hfault r hr⟩

/-- An expression that may be missing uses `this` and `super` inside of classes only. -/
theorem usesOption_inside (h : around.Within cls) (initializing : Option String) {o : Option Expr}
    (hwf : ∀ e ∈ o, e.WellFormed) (hfault : NoFault (resolveOption cls scopes o)) :
    ∀ u ∈ usesOption around initializing o, u.Inside := by
  cases o with
  | none => exact List.forall_mem_nil _
  | some e => exact uses_inside h initializing (hwf e rfl) hfault

end Expr

namespace Stmt

variable {around : Surroundings}

/-- Behind a statement one is still outside of the bodies of classes. -/
theorem outsideClassBody_after (h : around.OutsideClassBody) (s : Stmt) :
    (around.after s).OutsideClassBody := by
  unfold Surroundings.after
  cases s.declared? with
  | none => exact h
  | some name => exact h.declare _

/-- Behind a statement the same class is around. -/
theorem within_after {cls : ClassContext} (h : around.Within cls) {s : Stmt} (hwf : s.WellFormed) :
    (around.after s).Within cls := by
  cases s with
  | varDecl name initializer => exact h.declare hwf.1
  | funDecl d => exact h.declare hwf.1
  | classDecl d =>
    obtain ⟨_, _, _⟩ := d
    exact h.declare hwf.1
  | _ => exact h

mutual

/-- Where there are no faults `this` and `super` stand in methods, and `super` in those of a
    subclass. -/
theorem resolve_inside {scopes : StaticScopes} {around : Surroundings} {ctx : ResolveContext}
    (h : around.Within ctx.cls) (hplace : around.OutsideClassBody) (s : Stmt) (hwf : s.WellFormed)
    (hfault : NoFault (s.resolve ctx scopes).2) : ∀ u ∈ s.uses around, u.Inside := by
  match s with
  | expression value | print value => exact Expr.uses_inside h none hwf hfault
  | varDecl name initializer =>
    have hresolve : (resolve ctx scopes (varDecl name initializer)).2 = (scopes.declare name).2 ++
        Expr.resolveOption ctx.cls (scopes.declare name).1 initializer := rfl
    rw [hresolve, NoFault.append_iff] at hfault
    exact Expr.usesOption_inside (h.declare hwf.1) _ hwf.2 hfault.2
  | block body =>
    have hblock : Surroundings.Within (⟨.block body, []⟩ :: around) ctx.cls :=
      h.cons id id fun _ => List.not_mem_nil
    exact resolveList_inside hblock (by simp [Surroundings.OutsideClassBody, Opener.IsSuper]) body hwf
      hfault
  | cond condition thenBranch none =>
    have hresolve : (resolve ctx scopes (cond condition thenBranch none)).2 =
        condition.resolve ctx.cls scopes ++ (thenBranch.resolve ctx scopes).2 := rfl
    rw [hresolve, NoFault.append_iff] at hfault
    exact List.forall_mem_append.mpr ⟨Expr.uses_inside h none hwf.1 hfault.1,
      thenBranch.resolve_inside h hplace hwf.2.2 hfault.2⟩
  | cond condition thenBranch (some elseBranch) =>
    have hresolve : (resolve ctx scopes (cond condition thenBranch (some elseBranch))).2 =
        condition.resolve ctx.cls scopes ++ (thenBranch.resolve ctx scopes).2 ++
          (elseBranch.resolve ctx (thenBranch.resolve ctx scopes).1).2 := rfl
    rw [hresolve, NoFault.append_iff, NoFault.append_iff] at hfault
    exact List.forall_mem_append.mpr ⟨List.forall_mem_append.mpr
      ⟨Expr.uses_inside h none hwf.1 hfault.1.1,
        thenBranch.resolve_inside h hplace hwf.2.1.2 hfault.1.2⟩,
      elseBranch.resolve_inside h hplace hwf.2.2.2 hfault.2⟩
  | loop condition body =>
    have hresolve : (resolve ctx scopes (loop condition body)).2 =
        condition.resolve ctx.cls scopes ++ (body.resolve ctx scopes).2 := rfl
    rw [hresolve, NoFault.append_iff] at hfault
    exact List.forall_mem_append.mpr ⟨Expr.uses_inside h none hwf.1 hfault.1,
      body.resolve_inside h hplace hwf.2.2 hfault.2⟩
  | funDecl d =>
    have hresolve : (resolve ctx scopes (funDecl d)).2 = (scopes.introduce [d.name]).2 ++
        resolveFunction { ctx with function := .function } (scopes.introduce [d.name]).1 d := by
      cases d
      rfl
    rw [hresolve, NoFault.append_iff] at hfault
    have hdeclared : (around.declare d.name.lexeme).Within
        (ResolveContext.cls { ctx with function := .function }) := h.declare hwf.1
    exact resolveFunction_inside hdeclared d hwf.2 hfault.2
  | ret keyword value =>
    have hresolve : (resolve ctx scopes (ret keyword value)).2 =
        returnFaults ctx.function keyword value ++ Expr.resolveOption ctx.cls scopes value := rfl
    rw [hresolve, NoFault.append_iff] at hfault
    exact Expr.usesOption_inside h none hwf hfault.2
  | classDecl ⟨name, superclass, methods⟩ =>
    have hdeclared := h.declare hwf.1
    have hmethods : NoFault (resolveMethods (classContext superclass)
        (methodScopes (scopes.introduce [name]).1 superclass) methods) :=
      (NoFault.append_iff.mp hfault).2
    refine List.forall_mem_append.mpr ⟨fun u hu => ?_, ?_⟩
    · -- a superclass is a variable
      cases superclass with
      | none => cases hu
      | some superclass =>
        obtain ⟨id, superName, rfl⟩ := hwf.2.1 superclass rfl
        obtain rfl := List.mem_singleton.mp hu
        exact ⟨ctx.cls, hdeclared, nofun, nofun⟩
    · exact resolveMethods_inside
        (fun method => hdeclared.method (hplace.declare _) name superclass methods method) methods
        hwf.2.2 hmethods

/-- In statements `this` and `super` are used inside of classes only. -/
theorem resolveList_inside {scopes : StaticScopes} {around : Surroundings} {ctx : ResolveContext}
    (h : around.Within ctx.cls) (hplace : around.OutsideClassBody) (body : List Stmt)
    (hwf : WellFormedList body) (hfault : NoFault (resolveList ctx scopes body).2) :
    ∀ u ∈ usesList around body, u.Inside := by
  match body with
  | [] => exact List.forall_mem_nil _
  | s :: rest =>
    -- the statements behind are resolved in the scopes that this one leaves
    have hresolve : (resolveList ctx scopes (s :: rest)).2 =
        (s.resolve ctx scopes).2 ++ (resolveList ctx (s.resolve ctx scopes).1 rest).2 := rfl
    rw [hresolve, NoFault.append_iff] at hfault
    exact List.forall_mem_append.mpr ⟨s.resolve_inside h hplace hwf.1 hfault.1,
      resolveList_inside (within_after h hwf.1) (outsideClassBody_after hplace s) rest hwf.2
        hfault.2⟩

/-- In a function `this` and `super` are used inside of classes only. -/
theorem resolveFunction_inside {scopes : StaticScopes} {around : Surroundings}
    {ctx : ResolveContext} (h : around.Within ctx.cls) (d : FunctionDecl)
    (hwf : WellFormedFunction d) (hfault : NoFault (resolveFunction ctx scopes d)) :
    ∀ u ∈ functionUses around d, u.Inside := by
  match d with
  | ⟨name, params, body⟩ =>
    have hresolve : resolveFunction ctx scopes ⟨name, params, body⟩ =
        (StaticScopes.introduce (.empty :: scopes) params).2 ++
          (resolveList ctx (StaticScopes.introduce (.empty :: scopes) params).1 body).2 := rfl
    rw [hresolve, NoFault.append_iff] at hfault
    -- parameters are no reserved words, so they hide neither `this` nor `super`
    have hwords (k : Keyword) : k.word ∉ params.map (·.lexeme) := by
      simp only [List.mem_map, not_exists, not_and]
      exact fun param hparam => hwf.1 param hparam k
    have hparams : Surroundings.Within
        (⟨.function ⟨name, params, body⟩, params.map (·.lexeme)⟩ :: around) ctx.cls :=
      h.cons id id hwords
    exact resolveList_inside hparams (by simp [Surroundings.OutsideClassBody, Opener.IsSuper]) body
      hwf.2 hfault.2

/-- In methods `this` and `super` are used inside of classes only. -/
theorem resolveMethods_inside {scopes : StaticScopes} {around : Surroundings} {cls : ClassContext}
    (h : ∀ method, Surroundings.Within (⟨.this method, ["this"]⟩ :: around) cls)
    (ds : List FunctionDecl) (hwf : WellFormedMethods ds)
    (hfault : NoFault (resolveMethods cls scopes ds)) : ∀ u ∈ methodUses around ds, u.Inside := by
  match ds with
  | [] => exact List.forall_mem_nil _
  | d :: rest =>
    obtain ⟨hd, hrest⟩ := NoFault.append_iff.mp hfault
    -- each method is resolved as a function in the scope of `this`
    have hd : NoFault (resolveFunction
        ⟨if d.name.lexeme = "init" then .initializer else .method, cls⟩ scopes d) := hd
    exact List.forall_mem_append.mpr ⟨resolveFunction_inside (h d) d hwf.1 hd,
      resolveMethods_inside h rest hwf.2 hrest⟩

end

end Stmt

/-- In a text that is a program `this` and `super` stand where they may. -/
theorem Program.uses_inside {text : String} {n n' : Nat} {p : Program}
    (h : Program.compile text n = (.ok p, n')) : ∀ u ∈ p.uses, u.Inside := by
  have hwf := (Program.accepted_of_compile h).wellFormed
  obtain ⟨-, -, hresolved, rfl, -⟩ := Program.compile_eq_ok_iff.mp h
  have houtside : Surroundings.Within [] (ResolveContext.cls ⟨.none, .none⟩) := by
    refine ⟨fun x hx => ?_, rfl⟩
    cases hx
  exact Stmt.resolveList_inside houtside (by simp [Surroundings.OutsideClassBody]) _ hwf
    (Resolution.noFault_of_errors hresolved)

/-! ## Places in a run -/

/-- A place in a run with a method around it. These are the scopes opened inside of its body, the
    one of the body, the class that has been declared, the method in it, and the instance to which
    it was bound before it was called. -/
structure InMethod (entries : List Entry) (acts inner : List Activation) (scope : ScopeId)
    (d : Declared) (method : Closure) (this : Value) (bound : Closure) : Prop where
  acts : acts = inner ++ ⟨.function method.declaration, scope⟩ ::
    ⟨.this method.declaration, bound.scope⟩ :: d.around
  inner : ∀ a ∈ inner, ¬ a.opener.IsThis ∧ ¬ a.opener.IsSuper
  declares : Happened entries (.declares d)
  owner : ∃ name, d.cls.methods.get? name = some method
  binds : Happened entries (.binds method this bound)
  enters : Happened entries
    (.enters bound scope (⟨.this method.declaration, bound.scope⟩ :: d.around))

namespace InMethod

variable {entries : List Entry} {acts inner : List Activation} {scope : ScopeId} {d : Declared}
  {method bound : Closure} {this : Value}

/-- From the inside out there are the scopes of the method, of `this` and around the class. -/
theorem openers (h : InMethod entries acts inner scope d method this bound) :
    acts.map (·.opener) = (inner.map (·.opener) ++ [.function method.declaration]) ++
      .this method.declaration :: d.around.map (·.opener) := by
  simp [h.acts]

/-- Between a place and the method around it there are no other methods and classes. -/
theorem between (h : InMethod entries acts inner scope d method this bound) :
    ∀ o ∈ inner.map (·.opener) ++ [Opener.function method.declaration], ¬ o.IsThis ∧ ¬ o.IsSuper := by
  intro o ho
  rcases List.mem_append.mp ho with ho | ho
  · obtain ⟨a, ha, rfl⟩ := List.mem_map.mp ho
    exact h.inner a ha
  · rw [List.mem_singleton.mp ho]
    exact ⟨id, id⟩

section Distances

variable {around : Surroundings} {cls : ClassContext}

/-- The scope of the method is the innermost one that declares `this`. -/
theorem distance?_this (h : InMethod entries acts inner scope d method this bound)
    (hwithin : around.Within cls) (hopeners : around.map (·.opener) = acts.map (·.opener)) :
    around.distance? Keyword.this.word = some (inner.length + 1) := by
  have hdistance := Surroundings.distance?_of_openers (fun x hx => (hwithin.reserved x hx).1)
    (hopeners.trans h.openers) (fun o ho => (h.between o ho).1) trivial
  simpa using hdistance

/-- The scope of a class with a superclass is the innermost one that declares `super`. -/
theorem distance?_super (h : InMethod entries acts inner scope d method this bound)
    (hwithin : around.Within cls) (hopeners : around.map (·.opener) = acts.map (·.opener))
    (hsuperclass : d.superclass ≠ none) :
    around.distance? Keyword.super.word = some (inner.length + 2) := by
  have hmap : around.map (·.opener) =
      (inner.map (·.opener) ++ [.function method.declaration, .this method.declaration]) ++
        .super d.name d.methods :: d.acts.map (·.opener) := by
    simp [hopeners, h.openers, Declared.around_of_superclass hsuperclass]
  -- the scope of the method stands in between, and declares `this` only
  have hbetween : ∀ o ∈ inner.map (·.opener) ++
      [Opener.function method.declaration, .this method.declaration], ¬ o.IsSuper := by
    intro o ho
    rw [List.append_cons, List.mem_append] at ho
    rcases ho with ho | ho
    · exact (h.between o ho).2
    · rw [List.mem_singleton.mp ho]
      exact id
  have hdistance := Surroundings.distance?_of_openers (fun x hx => (hwithin.reserved x hx).2) hmap
    hbetween trivial
  simpa using hdistance

end Distances

end InMethod

/-- The scope of a class is opened for its methods only. -/
private theorem Opened.outsideClassBody {entries : List Entry} {acts : List Activation}
    (h : Opened entries acts) : ∀ a ∈ acts.head?, ¬ a.opener.IsSuper := by
  cases h with
  | global => simp
  | _ => simp [Opener.IsSuper]

/-- Where there is a class around a place, there is a method around it that has been called, and if
    it is one with a superclass, so was it when it was declared. -/
theorem Opened.exists_inMethod {entries : List Entry} {acts : List Activation}
    (h : Opened entries acts) (hcls : ClassContext.ofOpeners (acts.map (·.opener)) ≠ .none) :
    ∃ inner scope d method this bound, InMethod entries acts inner scope d method this bound ∧
      (ClassContext.ofOpeners (acts.map (·.opener)) = .subclass → d.superclass ≠ none) := by
  -- the first method that is met on the way outwards
  have hopens : ∀ {acts a}, ¬ Opener.IsThis a.opener → ¬ Opener.IsSuper a.opener →
      (∃ inner scope d method this bound, InMethod entries acts inner scope d method this bound ∧
        (ClassContext.ofOpeners (acts.map (·.opener)) = .subclass → d.superclass ≠ none)) →
      ∃ inner scope d method this bound,
        InMethod entries (a :: acts) inner scope d method this bound ∧
          (ClassContext.ofOpeners (acts.map (·.opener)) = .subclass → d.superclass ≠ none) := by
    rintro acts a hthis hsuper ⟨inner, scope, d, method, this, bound, hin, hsubclass⟩
    refine ⟨a :: inner, scope, d, method, this, bound, ?_, hsubclass⟩
    have hinner := List.forall_mem_cons.mpr ⟨⟨hthis, hsuper⟩, hin.inner⟩
    exact ⟨by rw [hin.acts]; rfl, hinner, hin.declares, hin.owner, hin.binds, hin.enters⟩
  induction h with
  | global => exact absurd rfl hcls
  | block _ ih => exact hopens id id (ih hcls)
  | function _ _ _ ih => exact hopens id id (ih hcls)
  | @method d name method bound this scope hd hmethod hbound henters houter _ =>
    refine ⟨[], scope, d, method, this, bound, ?_, fun hsubclass hnone => ?_⟩
    · exact ⟨rfl, by simp, hd, ⟨name, hmethod⟩, hbound, henters⟩
    · have haround : d.around = d.acts := by rw [Declared.around, hnone]
      have hplace := houter.outsideClassBody
      rw [haround] at hsubclass
      cases hacts : d.acts with
      | nil => simp [hacts, ClassContext.ofOpeners] at hsubclass
      | cons a outer =>
        rw [hacts] at hsubclass hplace
        have hnot : ¬ a.opener.IsSuper := hplace a rfl
        obtain ⟨opener, _⟩ := a
        cases opener with
        | super => exact hnot trivial
        | _ => simp [ClassContext.ofOpeners] at hsubclass

namespace Session

variable {s : Session} {programs : List Program}

/-- In all accepted programs `this` and `super` stand where they may. -/
theorem History.inside {w : Watch} (h : History s w programs) {u : Use}
    (hu : UsedIn programs u) : u.Inside := by
  induction h with
  | start => exact absurd hu (by simp [UsedIn])
  | @compile s w programs text _ ih =>
    obtain ⟨p, hp, hu⟩ := hu
    rcases List.mem_append.mp hp with hp | hp
    · cases hcompile : Program.compile text s.nextId with
      | mk result n =>
        cases result with
        | ok q =>
          have hq : (s.compile text).2 = some q := by simp [Session.compile, hcompile]
          rw [hq] at hp
          -- the program is the one that has just been accepted
          obtain rfl := List.mem_singleton.mp hp
          exact Program.uses_inside hcompile u hu
        | error report =>
          have hq : (s.compile text).2 = none := by simp [Session.compile, hcompile]
          rw [hq] at hp
          cases hp
    · exact ih ⟨p, hp, hu⟩
  | execute _ _ _ ih | resetGlobals _ ih | resetReport _ ih | defineNative _ _ ih => exact ih hu

/-- Where the lookup of `this` or `super` leads: `this` to the scope in which the method around the
    place was bound to its instance before it was called, and `super` to the scope of the
    declaration of its class. -/
structure Leads (m : Machine) (r : Reference) (inner : List Activation) (d : Declared)
    (bound : Closure) : Prop where
  this : r.kind = .this → r.name.lexeme = Keyword.this.word ∧
    m.distances.get? r.id = some (inner.length + 1)
  super : r.kind = .super → d.superclass ≠ none ∧
    m.distances.get? r.id = some (inner.length + 2) ∧
    m.scopes.ancestor? m.current (inner.length + 2) = some d.scope
  binding : m.scopes.ancestor? m.current (inner.length + 1) = some bound.scope

/-- Whenever `this` or `super` is looked up, there is a method around the place that has been
    called, and the lookup leads to its scope or to the scope of its class. The scopes around the
    place are those of a use in an accepted program. -/
theorem Told.inMethod {c : Chronicle} (h : Told s c programs) {x : Entry} {earlier : List Entry}
    (hsuffix : x :: earlier <:+ c.entries) {r : Reference} {acts : List Activation}
    (hevent : x.event = .sees r acts) (hkind : r.kind = .this ∨ r.kind = .super) :
    ∃ u inner scope d method this bound, UsedIn programs u ∧ u.reference = r ∧
      u.around.map (·.opener) = acts.map (·.opener) ∧
      InMethod (x :: earlier) acts inner scope d method this bound ∧
      Leads x.watch.machine r inner d bound := by
  obtain ⟨-, hmoment⟩ := h.entry hsuffix
  have hsees := hmoment.lasts x List.mem_cons_self
  have hnow := h.sound.moment.lasts x (hsuffix.mem List.mem_cons_self)
  unfold Entry.Lasts at hsees hnow
  rw [hevent] at hsees hnow
  obtain ⟨u, hu, hshows⟩ := h.history.sound.legal.sightings _ hnow.1
  obtain ⟨cls, hwithin, hinside⟩ := h.history.inside hu
  have hreference : u.reference = r := hshows.reference
  have hopeners : acts.map (·.opener) = u.around.map (·.opener) := hshows.openers
  -- the scopes of the run were opened for those of the text, so the kind of class is the same
  have hofOpeners : ClassContext.ofOpeners (acts.map (·.opener)) = cls := by
    rw [hopeners]
    exact hwithin.cls
  rw [hreference] at hinside
  have hcls : cls ≠ .none := by
    rcases hkind with hkind | hkind
    · exact (hinside.1 hkind).2
    · rw [(hinside.2 hkind).2]
      nofun
  -- the chronicle tells which method was called there
  obtain ⟨inner, scope, d, method, this, bound, hin, hsubclass⟩ :=
    hsees.2.exists_inMethod (by rwa [hofOpeners])
  have hlookup : x.watch.machine.distances.get? r.id = u.around.distance? r.name.lexeme := by
    have := hshows.distance
    rwa [Use.distance?, hreference] at this
  refine ⟨u, inner, scope, d, method, this, bound, hu, hreference, hopeners.symm, hin, ?_, ?_, ?_⟩
  · intro hkind
    refine ⟨(hinside.1 hkind).1, ?_⟩
    rw [hlookup, (hinside.1 hkind).1]
    exact hin.distance?_this hwithin hopeners.symm
  · intro hkind
    obtain ⟨hname, hsub⟩ := hinside.2 hkind
    have hsome : d.superclass ≠ none := hsubclass (hofOpeners.trans hsub)
    refine ⟨hsome, ?_, hshows.ancestor _ ⟨.super d.name d.methods, d.scope⟩ ?_⟩
    · rw [hlookup, hname]
      exact hin.distance?_super hwithin hopeners.symm hsome
    · show acts[inner.length + 2]? = _
      simp [hin.acts, Declared.around_of_superclass hsome]
  · refine hshows.ancestor _ ⟨.this method.declaration, bound.scope⟩ ?_
    show acts[inner.length + 1]? = _
    simp [hin.acts]

end Session

end Lox
