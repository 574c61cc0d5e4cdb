import Lox.Proofs.LegalSteps
import Lox.Session

/-!
# Resolver and interpreter agree on scopes

In every session the distances that the resolver records lead the interpreter to the scopes that
were opened for the places where names are declared. The runs of a session are watched, and each
lookup of a name is compared with the text of the program.

## Key results

- `SafeBelow.all`: runs of accepted programs keep machines legal
- `Session.History.scopes_agree`: every lookup in every session
-/

namespace Lox

/-- Runs that are nested up to a bound are safe. -/
structure SafeBelow (A : Use → Prop) (n : Nat) : Prop where
  evaluate : ∀ {w : Watch} {acts : List Activation} {around seen : Surroundings}
    {initializing : Option String} {e : Expr}, w.Legal A →
    w.machine.scopes.Stands w.machine.current acts around → around.Computes seen initializing →
    e.WellFormed → (∀ u ∈ e.uses seen initializing, A u) →
    Safe A w (Watched.evaluate acts n e) fun v w' => v.Legal A w'
  callValue : ∀ {w : Watch} {v : Value} {values : List Value}, w.Legal A → v.Legal A w →
    (∀ v ∈ values, v.Legal A w) → v.arity? = some values.length →
    Safe A w (Watched.callValue n v values) fun v w' => v.Legal A w'
  callClosure : ∀ {w : Watch} {c : Closure} {values : List Value}, w.Legal A → c.Legal A w →
    (∀ v ∈ values, v.Legal A w) → values.length = c.arity →
    Safe A w (Watched.callClosure n c values) fun v w' => v.Legal A w'
  execute : ∀ {w : Watch} {acts : List Activation} {around : Surroundings} {s : Stmt}, w.Legal A →
    w.machine.scopes.Stands w.machine.current acts around → s.WellFormed →
    (∀ u ∈ s.uses around, A u) →
    Safe A w (Watched.execute acts n s) fun flow w' => flow.Legal A w' ∧
      (flow = .normal → ∀ name, s.declared? = some name →
        (w'.machine.scopes.binding? w'.machine.current name.lexeme).isSome)
  repeatWhile : ∀ {w : Watch} {acts : List Activation} {around : Surroundings} {condition : Expr}
    {body : Stmt}, w.Legal A → w.machine.scopes.Stands w.machine.current acts around →
    condition.WellFormed → body.WellFormed → (∀ u ∈ condition.uses around none, A u) →
    (∀ u ∈ body.uses around, A u) →
    Safe A w (Watched.repeatWhile acts n condition body) fun flow w' => flow.Legal A w'

namespace SafeBelow

variable {A : Use → Prop} {n : Nat} {w : Watch} {acts : List Activation} {around : Surroundings}

/-- Without fuel nothing is evaluated, so nothing goes wrong. -/
theorem zero : SafeBelow A 0 where
  evaluate h _ _ _ _ := .throw h trivial
  callValue h _ _ _ := .throw h trivial
  callClosure h _ _ _ := .throw h trivial
  execute h _ _ _ := .throw h trivial
  repeatWhile h _ _ _ _ _ := .throw h trivial

/-- The scopes of a place stay those of the place while something else is run. -/
private theorem stands_of_keeps {w' : Watch} (hkeeps : w.Keeps w')
    (h : w.machine.scopes.Stands w.machine.current acts around) :
    w'.machine.scopes.Stands w'.machine.current acts around := by
  rw [hkeeps.current]
  exact h.mono hkeeps.scopes

/-- Expressions are safe if each of them is. -/
theorem evaluateAll (h : SafeBelow A n) (hlegal : w.Legal A)
    (hstands : w.machine.scopes.Stands w.machine.current acts around) {seen : Surroundings}
    {initializing : Option String} (hcomputes : around.Computes seen initializing) {es : List Expr}
    (hwf : Expr.WellFormedList es)
    (huses : ∀ r ∈ Expr.referencesList es, A ⟨r, seen, initializing⟩) :
    Safe A w (Lox.evaluateAll (Watched.evaluate acts n) es) fun vs w' =>
      ∀ v ∈ vs, v.Legal A w' := by
  induction es generalizing w with
  | nil => exact .pure hlegal (by simp)
  | cons e es ih =>
    have he : ∀ u ∈ e.uses seen initializing, A u := by
      intro u hu
      obtain ⟨r, hr, rfl⟩ := List.mem_map.mp hu
      exact huses r (List.mem_append_left _ hr)
    refine (h.evaluate hlegal hstands hcomputes hwf.1 he).bind fun v w' hkeeps hlegal hv => ?_
    refine (ih hlegal (stands_of_keeps hkeeps hstands) hwf.2
      fun r hr => huses r (List.mem_append_right _ hr)).bind fun vs w'' hkeeps hlegal hvs => ?_
    -- the first value was legal before the others were evaluated, and they keep that
    exact .pure hlegal (List.forall_mem_cons.mpr ⟨hkeeps.legal hv, hvs⟩)

/-- Statements are safe if each of them is, behind the declarations of those before it. -/
theorem executeAll (h : SafeBelow A n) (hlegal : w.Legal A)
    (hstands : w.machine.scopes.Stands w.machine.current acts around) {body : List Stmt}
    (hwf : Stmt.WellFormedList body) (huses : ∀ u ∈ Stmt.usesList around body, A u) :
    Safe A w (Lox.executeAll (Watched.execute acts n) body) fun flow w' =>
      flow.Legal A w' := by
  induction body generalizing w around with
  | nil => exact .pure hlegal trivial
  | cons s body ih =>
    refine (h.execute hlegal hstands hwf.1 fun u hu => huses u (List.mem_append_left _ hu)).bind ?_
    intro flow w' hkeeps hlegal ⟨hflow, hdeclared⟩
    cases flow with
    | returned v => exact .pure hlegal hflow
    | normal =>
      -- what the statement declares is bound now
      have hafter : w'.machine.scopes.Stands w'.machine.current acts (around.after s) := by
        have hstands := stands_of_keeps hkeeps hstands
        unfold Surroundings.after
        cases hname : s.declared? with
        | none => exact hstands
        | some name => exact hstands.declare (hdeclared rfl name hname)
      exact ih hlegal hafter hwf.2 fun u hu => huses u (List.mem_append_right _ hu)

/-- A lookup in an expression, which agrees with its use. -/
private theorem see_safe (hlegal : w.Legal A)
    (hstands : w.machine.scopes.Stands w.machine.current acts around) {seen : Surroundings}
    {initializing : Option String} (hcomputes : around.Computes seen initializing) {r : Reference}
    (hu : A ⟨r, seen, initializing⟩) {β : Type} {p : Watched β} {R : β → Watch → Prop}
    (hp : ∀ w', w'.Legal A → w.Keeps w' →
      Sighting.Shows ⟨r, acts, w'.machine⟩ ⟨r, seen, initializing⟩ → Safe A w' p R) :
    Safe A w (do Watched.see r acts; p) R := by
  have hshows : Sighting.Shows ⟨r, acts, w.machine⟩ ⟨r, seen, initializing⟩ :=
    hlegal.shows hu hstands hcomputes
  exact .see hlegal hu hshows fun w' hmachine hkeeps hlegal' =>
    hp w' hlegal' hkeeps (hmachine ▸ hshows)

/-- A part of an expression, after other parts have been evaluated. -/
private theorem evaluatePart_safe (h : SafeBelow A n)
    (hstands : w.machine.scopes.Stands w.machine.current acts around) {seen : Surroundings}
    {initializing : Option String} (hcomputes : around.Computes seen initializing) (part : Expr)
    {w' : Watch} (hkeeps : w.Keeps w') (hlegal : w'.Legal A) (hwf : part.WellFormed)
    (huses : ∀ r ∈ part.references, A ⟨r, seen, initializing⟩) :
    Safe A w' (Watched.evaluate acts n part) fun v w' => v.Legal A w' :=
  h.evaluate hlegal (stands_of_keeps hkeeps hstands) hcomputes hwf (List.forall_mem_map.mpr huses)

/-- A callee is called with as many arguments as it takes, or not at all. -/
private theorem evaluateCall_safe (h : SafeBelow A n) (hlegal : w.Legal A)
    (hstands : w.machine.scopes.Stands w.machine.current acts around) {seen : Surroundings}
    {initializing : Option String} (hcomputes : around.Computes seen initializing)
    {callee : Expr} {paren : Token} {arguments : List Expr}
    (hwf : (Expr.call callee paren arguments).WellFormed)
    (huses : ∀ r ∈ (Expr.call callee paren arguments).references, A ⟨r, seen, initializing⟩) :
    Safe A w (Watched.evaluate acts (n + 1) (.call callee paren arguments))
      fun v w' => v.Legal A w' := by
  obtain ⟨huse, huses⟩ := List.forall_mem_append.mp huses
  refine (h.evaluatePart_safe hstands hcomputes callee (.refl w) hlegal hwf.1 huse).bind
    fun v w' hkeeps hlegal hv => ?_
  refine (h.evaluateAll hlegal (stands_of_keeps hkeeps hstands) hcomputes hwf.2 huses).bind
    fun vs w'' hkeeps' hlegal hvs => ?_
  have hv := hkeeps'.legal hv
  cases harity : v.arity? with
  | none => exact .fail hlegal trivial
  | some arity =>
    dsimp only
    split
    · rename_i hlength
      -- the number of arguments has been checked, which is what a call of a function needs
      exact .duringCall (h.callValue (hlegal.onLine _) hv hvs (hlength ▸ harity))
        fun _ _ hv => hv
    · exact .fail hlegal trivial

/-- An expression is safe if all that it runs with less fuel is. -/
theorem evaluate_succ (h : SafeBelow A n) {seen : Surroundings} {initializing : Option String}
    {e : Expr} (hlegal : w.Legal A)
    (hstands : w.machine.scopes.Stands w.machine.current acts around)
    (hcomputes : around.Computes seen initializing) (hwf : e.WellFormed)
    (huses : ∀ u ∈ e.uses seen initializing, A u) :
    Safe A w (Watched.evaluate acts (n + 1) e) fun v w' => v.Legal A w' := by
  have huses : ∀ r ∈ e.references, A ⟨r, seen, initializing⟩ := List.forall_mem_map.mp huses
  -- parts may be evaluated on later machines, as long as they keep what was legal
  have hpart (part : Expr) {w' : Watch} (hkeeps : w.Keeps w') :=
    h.evaluatePart_safe hstands hcomputes part hkeeps
  have hrefl := Watch.Keeps.refl w
  cases e with
  | literal l => exact .pure hlegal (ofLiteral_legal l)
  | grouping inner => exact hpart inner hrefl hlegal hwf huses
  | unary op operand =>
    refine (hpart operand hrefl hlegal hwf huses).bind fun v w' _ hlegal _ => ?_
    exact ofOperator_safe hlegal (fun _ => legal_of_applyUnary) fun _ => justified_of_applyUnary
  | binary op left right =>
    obtain ⟨huse, huses⟩ := List.forall_mem_append.mp huses
    refine (hpart left hrefl hlegal hwf.1 huse).bind fun a w' hkeeps hlegal _ => ?_
    refine (hpart right hkeeps hlegal hwf.2 huses).bind fun b w'' _ hlegal _ => ?_
    exact ofOperator_safe hlegal (fun _ => legal_of_applyBinary) fun _ => justified_of_applyBinary
  | logical op left right =>
    obtain ⟨huse, huses⟩ := List.forall_mem_append.mp huses
    refine (hpart left hrefl hlegal hwf.1 huse).bind fun a w' hkeeps hlegal ha => ?_
    split
    · exact .pure hlegal ha
    · exact hpart right hkeeps hlegal hwf.2 huses
  | var id name =>
    have hu := huses ⟨.var, id, name⟩ List.mem_cons_self
    exact see_safe hlegal hstands hcomputes hu fun w' hlegal _ hshows =>
      readVariable_safe hlegal hu (by decide) hshows
  | this id keyword =>
    have hu := huses ⟨.this, id, keyword⟩ List.mem_cons_self
    exact see_safe hlegal hstands hcomputes hu fun w' hlegal _ hshows =>
      readVariable_safe hlegal hu (by decide) hshows
  | super id keyword method =>
    have hu := huses ⟨.super, id, keyword⟩ List.mem_cons_self
    exact see_safe hlegal hstands hcomputes hu fun w' hlegal _ hshows =>
      readSuper_safe hlegal hshows method
  | assign id name value =>
    obtain ⟨hu, huses⟩ := List.forall_mem_cons.mp huses
    refine (hpart value hrefl hlegal hwf.2 huses).bind fun v w' hkeeps hlegal hv => ?_
    -- the place is looked up after the value, so it is seen on the machine then
    have hwrite := see_safe hlegal (stands_of_keeps hkeeps hstands) hcomputes hu
      fun w'' hlegal hkeeps' hshows =>
        writeVariable_safe hlegal hu hwf.1 hshows (hkeeps'.legal hv)
    exact hwrite.bind fun _ w'' hkeeps' hlegal _ => .pure hlegal (hkeeps'.legal hv)
  | call => exact h.evaluateCall_safe hlegal hstands hcomputes hwf huses
  | get object name =>
    refine (hpart object hrefl hlegal hwf huses).bind fun v w' _ hlegal hv => ?_
    cases v with
    | instance_ id cls => exact readProperty_safe hlegal hv name
    | _ => exact .fail hlegal trivial
  | set object name value =>
    obtain ⟨huse, huses⟩ := List.forall_mem_append.mp huses
    refine (hpart object hrefl hlegal hwf.1 huse).bind fun v w' hkeeps hlegal hv => ?_
    cases v with
    | instance_ id cls =>
      refine (hpart value hkeeps hlegal hwf.2 huses).bind fun v w'' _ hlegal hv => ?_
      refine (setField_safe hlegal hv).bind fun _ w₃ hkeeps hlegal _ => ?_
      exact .pure hlegal (hkeeps.legal hv)
    | _ => exact .fail hlegal trivial

/-- A call is safe if all that it runs with less fuel is. -/
theorem callValue_succ (h : SafeBelow A n) {v : Value} {values : List Value} (hlegal : w.Legal A)
    (hv : v.Legal A w) (hvalues : ∀ v ∈ values, v.Legal A w)
    (harity : v.arity? = some values.length) :
    Safe A w (Watched.callValue (n + 1) v values) fun v w' => v.Legal A w' := by
  cases v with
  | native info => exact callNative_safe hlegal hvalues
  | function c =>
    have hlength : c.arity = values.length := by simpa [Value.arity?] using harity
    exact h.callClosure hlegal hv hvalues hlength.symm
  | class_ c =>
    refine (newInstance_safe hlegal hv).bind fun this w' hkeeps hlegal hinstance => ?_
    obtain ⟨hthis, hclass⟩ := hinstance
    cases hinit : c.findMethod? "init" with
    | none => exact .pure hlegal hthis
    | some initializer =>
      -- a class takes as many values as its initializer
      have hlength : initializer.arity = values.length := by
        simpa [Value.arity?, Class.arity, hinit] using harity
      refine (bindMethod_safe hlegal (hclass.findMethod? hinit) hthis).bind
        fun bound w'' hkeeps' hlegal hmethod => ?_
      obtain ⟨hbound, hdeclaration⟩ := hmethod
      have hvalues : ∀ v ∈ values, v.Legal A w'' :=
        fun v hv => (hkeeps.trans hkeeps').legal (hvalues v hv)
      -- binding a method changes neither its code nor its arity
      have hlength : values.length = bound.arity := by
        rw [Closure.arity, hdeclaration]
        exact hlength.symm
      refine (h.callClosure hlegal hbound hvalues hlength).bind fun _ w₃ hkeeps'' hlegal _ => ?_
      exact .pure hlegal ((hkeeps'.trans hkeeps'').legal hthis)
  | _ => exact .pure hlegal trivial

/-- A call of a function is safe if its body is, in a scope for its parameters. -/
theorem callClosure_succ (h : SafeBelow A n) {c : Closure} {values : List Value}
    (hlegal : w.Legal A) (hc : c.Legal A w) (hvalues : ∀ v ∈ values, v.Legal A w)
    (hlength : values.length = c.arity) :
    Safe A w (Watched.callClosure (n + 1) c values) fun v w' => v.Legal A w' := by
  obtain ⟨id, ⟨name, params, body⟩, scope, isInitializer⟩ := c
  obtain ⟨around, hstands, -, ⟨hparams, hwf⟩, huses⟩ := hc
  have hlt := hstands.lt_size
  refine .get ((openScope_safe hlegal hlt).bind ?_)
  rintro _ _ hkeeps hlegal ⟨rfl, rfl⟩
  have hnew : w.machine.scopes.size < (w.machine.scopes.child scope).1.size := by
    rw [Scopes.size_child hlt]
    omega
  refine (defineParams_safe hlegal hnew hparams (fun v hv => hkeeps.legal (hvalues v hv))
    hlength).bind fun _ w' hkeeps' hlegal hbound => ?_
  -- the parameters are declared in the scope of the body
  have hholds : w'.machine.scopes.Holds ⟨w.machine.scopes.size⟩
      ⟨.function ⟨name, params, body⟩, params.map (·.lexeme)⟩ := by
    refine ⟨fun other hother => ?_, nofun, nofun⟩
    obtain ⟨param, hparam, rfl⟩ := List.mem_map.mp hother
    exact hbound param hparam
  have hbody := h.executeAll (hlegal.at_ ⟨w.machine.scopes.size⟩)
    (hstands.child hkeeps'.scopes hholds) hwf huses
  refine (Safe.inScope hbody fun flow w'' hflow => ?_).bind
    fun flow w'' _ hlegal (hflow : flow.Legal A w'') => callResult_safe hlegal _ hflow
  cases flow with
  | normal => trivial
  | returned v => exact hflow

/-- A statement that declares nothing. -/
private theorem mono_execute {s : Stmt} {p : Watched Flow} (hdeclared : s.declared? = none)
    (hp : Safe A w p fun flow w' => flow.Legal A w') :
    Safe A w p fun flow w' => flow.Legal A w' ∧ (flow = .normal → ∀ name, s.declared? = some name →
      (w'.machine.scopes.binding? w'.machine.current name.lexeme).isSome) :=
  hp.mono fun _ _ _ _ hflow => ⟨hflow, fun _ name hname => by simp [hdeclared] at hname⟩

/-- A statement that declares a name, which has been bound. -/
private theorem declare_safe {s : Stmt} {name : Token} (hdeclared : s.declared? = some name)
    {α : Type} {p : Watched α} (hp : Safe A w p fun _ w' =>
      (w'.machine.scopes.binding? w'.machine.current name.lexeme).isSome) :
    Safe A w (do let _ ← p; return Flow.normal) fun flow w' => flow.Legal A w' ∧
      (flow = .normal → ∀ name, s.declared? = some name →
        (w'.machine.scopes.binding? w'.machine.current name.lexeme).isSome) := by
  refine hp.bind fun _ w' _ hlegal hbound => .pure hlegal ⟨trivial, fun _ other hother => ?_⟩
  obtain rfl : name = other := by simpa [hdeclared] using hother
  exact hbound

/-- A value of which only the effects matter. -/
private theorem discard_safe {α : Type} {p : Watched α} {Q : α → Watch → Prop} (hp : Safe A w p Q) :
    Safe A w (do let _ ← p; return Flow.normal) fun flow w' => flow.Legal A w' :=
  hp.bind fun _ _ _ hlegal _ => .pure hlegal trivial

/-- A branch of a conditional, after its condition. -/
private theorem branch_safe (h : SafeBelow A n)
    (hstands : w.machine.scopes.Stands w.machine.current acts around) (branch : Stmt) {w' : Watch}
    (hkeeps : w.Keeps w') (hlegal : w'.Legal A) (hwf : branch.WellFormed)
    (huses : ∀ u ∈ branch.uses around, A u) :
    Safe A w' (Watched.execute acts n branch) fun flow w'' => flow.Legal A w'' :=
  (h.execute hlegal (stands_of_keeps hkeeps hstands) hwf huses).mono fun _ _ _ _ hflow => hflow.1

/-- A conditional is safe if its condition and its branches are. -/
private theorem cond_safe (h : SafeBelow A n) (hlegal : w.Legal A)
    (hstands : w.machine.scopes.Stands w.machine.current acts around) {condition : Expr}
    {thenBranch : Stmt} {elseBranch : Option Stmt}
    (hwf : (Stmt.cond condition thenBranch elseBranch).WellFormed)
    (huses : ∀ u ∈ (Stmt.cond condition thenBranch elseBranch).uses around, A u) :
    Safe A w (Watched.execute acts (n + 1) (.cond condition thenBranch elseBranch))
      fun flow w' => flow.Legal A w' := by
  cases elseBranch with
  | none =>
    obtain ⟨huse, huses⟩ := List.forall_mem_append.mp huses
    refine (h.evaluate hlegal hstands .nothing hwf.1 huse).bind fun v w' hkeeps hlegal _ => ?_
    split
    · exact h.branch_safe hstands thenBranch hkeeps hlegal hwf.2.2 huses
    · exact .pure hlegal trivial
  | some elseBranch =>
    have huses : ∀ u ∈ condition.uses around none ++ thenBranch.uses around ++
        elseBranch.uses around, A u := huses
    simp only [List.forall_mem_append] at huses
    refine (h.evaluate hlegal hstands .nothing hwf.1 huses.1.1).bind
      fun v w' hkeeps hlegal _ => ?_
    split
    · exact h.branch_safe hstands thenBranch hkeeps hlegal hwf.2.1.2 huses.1.2
    · exact h.branch_safe hstands elseBranch hkeeps hlegal hwf.2.2.2 huses.2

/-- A block is safe if its statements are, in a scope of their own. -/
private theorem block_safe (h : SafeBelow A n) (hlegal : w.Legal A)
    (hstands : w.machine.scopes.Stands w.machine.current acts around) {body : List Stmt}
    (hwf : Stmt.WellFormedList body)
    (huses : ∀ u ∈ Stmt.usesList (⟨.block body, []⟩ :: around) body, A u) :
    Safe A w (Watched.execute acts (n + 1) (.block body)) fun flow w' => flow.Legal A w' := by
  refine .get ((openScope_safe hlegal hstands.lt_size).bind ?_)
  rintro _ _ hkeeps hlegal ⟨rfl, rfl⟩
  -- nothing is declared yet in the scope of the block
  have hbody := h.executeAll (hlegal.at_ ⟨w.machine.scopes.size⟩)
    (hstands.child (x := ⟨.block body, []⟩) (.refl _) ⟨by simp, nofun, nofun⟩) hwf huses
  refine Safe.inScope hbody fun flow w'' hflow => ?_
  cases flow with
  | normal => trivial
  | returned v => exact hflow

/-- A class is bound when it has been made, with the superclass that its variable held. -/
private theorem classDecl_safe (h : SafeBelow A n) (hlegal : w.Legal A)
    (hstands : w.machine.scopes.Stands w.machine.current acts around) {d : ClassDecl}
    (hwf : (Stmt.classDecl d).WellFormed) (huses : ∀ u ∈ (Stmt.classDecl d).uses around, A u) :
    Safe A w (Watched.execute acts (n + 1) (.classDecl d)) fun flow w' => flow.Legal A w' ∧
      (flow = .normal → ∀ name, (Stmt.classDecl d).declared? = some name →
        (w'.machine.scopes.binding? w'.machine.current name.lexeme).isSome) := by
  obtain ⟨name, superclass, methods⟩ := d
  have huses : ∀ u ∈ Expr.usesOption (around.declare name.lexeme) (around.pending name.lexeme)
      superclass ++ Stmt.methodUses
        (Stmt.aroundMethods (around.declare name.lexeme) name superclass methods) methods, A u :=
    huses
  obtain ⟨huse, huses⟩ := List.forall_mem_append.mp huses
  cases superclass with
  | none =>
    have hnone : ∀ s ∈ (none : Option Class), s.Holds (Closure.LegalMethod A w) := by simp
    exact declare_safe rfl (declareClass_safe hlegal hstands hwf.1 hnone hwf.2.2 huses)
  | some superclass =>
    obtain ⟨id, superName, rfl⟩ := hwf.2.1 superclass rfl
    -- the superclass is a variable, read when the name of the class is declared already
    refine (h.evaluate (e := .var id superName) hlegal hstands .value trivial huse).bind
      fun v w' hkeeps hlegal hv => ?_
    refine (asSuperclass_safe hlegal hv name _).bind fun c w'' hkeeps' hlegal hc => ?_
    have hsome : ∀ s ∈ some c, s.Holds (Closure.LegalMethod A w'') := by
      rintro _ ⟨⟩
      exact hc
    exact declare_safe rfl (declareClass_safe hlegal
      (stands_of_keeps (hkeeps.trans hkeeps') hstands) hwf.1 hsome hwf.2.2 huses)

/-- A statement is safe if all that it runs with less fuel is, and then has declared its name. -/
theorem execute_succ (h : SafeBelow A n) {s : Stmt} (hlegal : w.Legal A)
    (hstands : w.machine.scopes.Stands w.machine.current acts around) (hwf : s.WellFormed)
    (huses : ∀ u ∈ s.uses around, A u) :
    Safe A w (Watched.execute acts (n + 1) s) fun flow w' => flow.Legal A w' ∧
      (flow = .normal → ∀ name, s.declared? = some name →
        (w'.machine.scopes.binding? w'.machine.current name.lexeme).isSome) := by
  cases s with
  | expression value =>
    -- only declarations have a name to be bound, and they bind it unless they fail
    exact mono_execute rfl (discard_safe (h.evaluate hlegal hstands .nothing hwf huses))
  | print value =>
    refine mono_execute rfl ((h.evaluate hlegal hstands .nothing hwf huses).bind
      fun v w' _ hlegal _ => discard_safe (emit_safe hlegal _))
  | varDecl name initializer =>
    cases initializer with
    | none => exact declare_safe rfl (declareHere_safe hlegal hstands.lt_size hwf.1)
    | some initializer =>
      refine (h.evaluate hlegal hstands .value (hwf.2 _ rfl) huses).bind
        fun v w' hkeeps hlegal hv => ?_
      exact declare_safe rfl (defineHere_safe hlegal (stands_of_keeps hkeeps hstands).lt_size hwf.1
        (legal_define hv hwf.1))
  | block => exact mono_execute rfl (h.block_safe hlegal hstands hwf huses)
  | cond => exact mono_execute rfl (h.cond_safe hlegal hstands hwf huses)
  | loop condition body =>
    obtain ⟨huse, huses⟩ := List.forall_mem_append.mp huses
    exact mono_execute rfl (h.repeatWhile hlegal hstands hwf.1 hwf.2.2 huse huses)
  | funDecl d =>
    exact declare_safe rfl (declareFunction_safe hlegal hstands hwf.1 hwf.2 huses)
  | ret keyword value =>
    cases value with
    | none => exact mono_execute rfl (.pure hlegal trivial)
    | some value =>
      exact mono_execute rfl ((h.evaluate hlegal hstands .nothing (hwf _ rfl) huses).bind
        fun v w' _ hlegal hv => .pure hlegal hv)
  | classDecl => exact h.classDecl_safe hlegal hstands hwf huses

/-- A loop is safe if each round is. -/
theorem repeatWhile_succ (h : SafeBelow A n) {condition : Expr} {body : Stmt} (hlegal : w.Legal A)
    (hstands : w.machine.scopes.Stands w.machine.current acts around)
    (hcondition : condition.WellFormed) (hbody : body.WellFormed)
    (hcuses : ∀ u ∈ condition.uses around none, A u) (hbuses : ∀ u ∈ body.uses around, A u) :
    Safe A w (Watched.repeatWhile acts (n + 1) condition body) fun flow w' => flow.Legal A w' := by
  refine (h.evaluate hlegal hstands .nothing hcondition hcuses).bind fun v w' hkeeps hlegal _ => ?_
  split
  · have hstands := stands_of_keeps hkeeps hstands
    refine (h.execute hlegal hstands hbody hbuses).bind fun flow w'' hkeeps hlegal hflow => ?_
    cases flow with
    | normal =>
      exact h.repeatWhile hlegal (stands_of_keeps hkeeps hstands) hcondition hbody hcuses hbuses
    | returned v => exact .pure hlegal hflow.1
  · exact .pure hlegal trivial

/-- All runs are safe. -/
theorem all (A : Use → Prop) (n : Nat) : SafeBelow A n := by
  induction n with
  | zero => exact zero
  | succ n ih =>
    exact ⟨ih.evaluate_succ, ih.callValue_succ, ih.callClosure_succ, ih.execute_succ,
      ih.repeatWhile_succ⟩

end SafeBelow

/-- Outside of local scopes a program keeps a machine legal. -/
theorem Watched.program_safe {A : Use → Prop} {w : Watch} {statements : List Stmt} (bound : Nat)
    (hlegal : w.Legal A) (hglobal : w.machine.current = w.machine.globals)
    (hwf : Stmt.WellFormedList statements) (huses : ∀ u ∈ Stmt.usesList [] statements, A u) :
    Safe A w (Watched.program bound statements) fun _ _ => True := by
  induction statements generalizing w with
  | nil => exact flush_safe hlegal
  | cons s statements ih =>
    have hstands : w.machine.scopes.Stands w.machine.current [] [] := by
      rw [hglobal]
      exact .global hlegal.globals_lt hlegal.globals_root
    -- at the top there is no scope that a declaration could be added to
    have hafter : Surroundings.after [] s = [] := by
      unfold Surroundings.after
      cases s.declared? <;> rfl
    refine ((SafeBelow.all A bound).execute hlegal hstands hwf.1
      fun u hu => huses u (List.mem_append_left _ hu)).bind fun _ w' hkeeps hlegal _ => ?_
    refine ih hlegal (by rw [hkeeps.current, hkeeps.globals, hglobal]) hwf.2 fun u hu => ?_
    exact huses u (List.mem_append_right _ (hafter.symm ▸ hu))

/-! ## Sessions -/

/-- What is watched until an action ends, also if it is aborted. -/
def Watch.after {α : Type} : EStateM.Result Abort Watch α → Watch
  | .ok _ w => w
  | .error _ w => w

namespace Session

/-- The sessions that can come about, with what has been watched in them and the programs that have
    been accepted. A program may be executed at any time after it has been accepted, any number of
    times; a run may be cut short by an error or by its bound. -/
inductive History : Session → Watch → List Program → Prop
  | start (sink : Sink) (clock : Clock) :
      History (.start sink clock) ⟨(Session.start sink clock).machine, fun _ => [], []⟩ []
  | compile {s : Session} {w : Watch} {programs : List Program} (text : String)
      (h : History s w programs) :
      History (s.compile text).1 { w with machine := (s.compile text).1.machine }
        ((s.compile text).2.toList ++ programs)
  | execute {s : Session} {w : Watch} {programs : List Program} {p : Program} (bound : Nat)
      (hp : p ∈ programs) (h : History s w programs) :
      History (s.execute bound p.statements).1 (.after (Watched.program bound p.statements w))
        programs
  | resetGlobals {s : Session} {w : Watch} {programs : List Program} (h : History s w programs) :
      History s.resetGlobals { w with machine := s.resetGlobals.machine } programs
  | resetReport {s : Session} {w : Watch} {programs : List Program} (h : History s w programs) :
      History s.resetReport w programs
  | defineNative {s : Session} {w : Watch} {programs : List Program} {n : Native}
      (hn : n.Conservative) (h : History s w programs) :
      History (s.defineNative n) { w with machine := (s.defineNative n).machine } programs

/-- The uses in programs. -/
def UsedIn (programs : List Program) (u : Use) : Prop :=
  ∃ p ∈ programs, u ∈ p.uses

/-- A use in one of several programs is one in the first or in the others. -/
theorem usedIn_cons {programs : List Program} {p : Program} {u : Use} :
    UsedIn (p :: programs) u ↔ u ∈ p.uses ∨ UsedIn programs u := by
  simp [UsedIn]

/-- What holds in every session. -/
structure Sound (s : Session) (w : Watch) (programs : List Program) : Prop where
  machine : w.machine = s.machine
  legal : w.Legal (UsedIn programs)
  current : w.machine.current = w.machine.globals
  wellFormed : ∀ p ∈ programs, Stmt.WellFormedList p.statements
  id_lt : ∀ u, UsedIn programs u → u.reference.id.index < s.nextId
  id_inj : ∀ u u', UsedIn programs u → UsedIn programs u' →
    u.reference.id = u'.reference.id → u = u'
  distances : ∀ id : NodeId, s.nextId ≤ id.index → s.machine.distances.get? id = none

namespace Sound

variable {s : Session} {w : Watch} {programs : List Program}

/-- Only the machine and the number of nodes matter. -/
theorem congr (h : Sound s w programs) {s' : Session} {w' : Watch} (hmachine : w'.machine = s'.machine)
    (hlegal : w'.Legal (UsedIn programs)) (hcurrent : w'.machine.current = w'.machine.globals)
    (hnextId : s.nextId ≤ s'.nextId) (hdistances : s'.machine.distances = s.machine.distances) :
    Sound s' w' programs where
  machine := hmachine
  legal := hlegal
  current := hcurrent
  wellFormed := h.wellFormed
  id_lt u hu := Nat.lt_of_lt_of_le (h.id_lt u hu) hnextId
  id_inj := h.id_inj
  distances id hid := by
    rw [hdistances]
    exact h.distances id (Nat.le_trans hnextId hid)

/-- The distances of an accepted program are installed: the machine stays legal, and the uses of the
    program are among those that it knows. -/
theorem legal_install (h : Sound s w programs) {p : Program} {n : Nat}
    (hp : p.Accepted s.nextId n) :
    Watch.Legal (UsedIn (p :: programs)) { w with machine := s.machine.install p.distances } := by
  have hlegal := h.legal
  have hold : ∀ u, UsedIn programs u → UsedIn (p :: programs) u :=
    fun u hu => usedIn_cons.mpr (.inr hu)
  have hgrows : w.Grows { w with machine := s.machine.install p.distances } := by
    rw [← h.machine]
    exact ⟨.refl _, Nat.le_refl _, fun _ _ => rfl⟩
  rw [← h.machine] at hgrows ⊢
  refine ⟨hlegal.globals_lt, hlegal.globals_root,
    fun e name v hv => hgrows.legal hold (hlegal.bindings e name v hv),
    fun t ht name v hv => hgrows.legal hold (hlegal.fields t ht name v hv), hlegal.natives,
    fun u hu => ?_, fun x hx => ?_⟩
  · -- nodes of the program are new, so no distance was recorded for them, and others keep theirs
    rcases usedIn_cons.mp hu with hu | hu
    · refine ⟨hp.get?_distances hu ?_, hp.sound u hu⟩
      rw [h.machine]
      exact h.distances _ (hp.bounds hu).1
    · refine ⟨?_, (hlegal.uses u hu).2⟩
      rw [← (hlegal.uses u hu).1]
      exact hp.get?_distances_of_lt (.inl (h.id_lt u hu))
  · obtain ⟨u, hu, hshows⟩ := hlegal.sightings x hx
    exact ⟨u, hold u hu, hshows⟩

/-- The nodes of a new program are no nodes of the programs before it. -/
theorem id_ne_of_accepted (h : Sound s w programs) {p : Program} {n : Nat}
    (hp : p.Accepted s.nextId n) {u u' : Use} (hu : u ∈ p.uses) (hu' : UsedIn programs u') :
    u.reference.id ≠ u'.reference.id := by
  intro heq
  have hnew := (hp.bounds hu).1
  have hold := h.id_lt u' hu'
  rw [heq] at hnew
  omega

/-- A text that is a program adds its uses. -/
theorem accept (h : Sound s w programs) {p : Program} {n : Nat} (hp : p.Accepted s.nextId n)
    (report : Report) :
    Sound ⟨s.machine.install p.distances, report, n⟩
      { w with machine := s.machine.install p.distances } (p :: programs) := by
  have hle := hp.numbered.le
  refine ⟨rfl, h.legal_install hp, ?_, ?_, fun u hu => ?_, fun u u' hu hu' heq => ?_,
    fun id hid => ?_⟩
  · have hcurrent := h.current
    rw [h.machine] at hcurrent
    exact hcurrent
  · exact List.forall_mem_cons.mpr ⟨hp.wellFormed, h.wellFormed⟩
  · rcases usedIn_cons.mp hu with hu | hu
    · exact (hp.bounds hu).2
    · exact Nat.lt_of_lt_of_le (h.id_lt u hu) hle
  -- numbers of the new program are above those that have been counted
  · rcases usedIn_cons.mp hu with hu | hu <;> rcases usedIn_cons.mp hu' with hu' | hu'
    · exact hp.eq_of_id_eq hu hu' heq
    · exact absurd heq (h.id_ne_of_accepted hp hu hu')
    · exact absurd heq.symm (h.id_ne_of_accepted hp hu' hu)
    · exact h.id_inj u u' hu hu' heq
  · have hid : n ≤ id.index := hid
    rw [← h.distances id (Nat.le_trans hle hid)]
    exact hp.get?_distances_of_lt (.inr hid)

/-- A host function is registered. -/
theorem defineNative (h : Sound s w programs) {n : Native} (hn : n.Conservative) :
    Sound (s.defineNative n) { w with machine := (s.defineNative n).machine } programs := by
  -- the globals are outermost, where nothing is reserved
  have hroot : ∀ k : Keyword, n.name = k.word → ∀ p,
      w.machine.scopes.parent? w.machine.globals = some p →
      w.machine.scopes.binding? w.machine.globals n.name = none := by
    intro _ _ p hp
    rw [h.legal.globals_root] at hp
    cases hp
  have hnative : ∀ v, Binding.value (.native (n.info w.machine.natives.size)) = .value v →
      v.Legal (UsedIn programs) (w.withScopes (w.machine.scopes.bind w.machine.globals n.name
        (.value (.native (n.info w.machine.natives.size))))) := by
    rintro _ ⟨⟩
    trivial
  obtain ⟨-, hlegal⟩ := h.legal.define hroot hnative
  refine h.congr rfl ?_ ?_ (Nat.le_refl _) rfl
  · show Watch.Legal _ { w with machine := s.machine.defineNative n }
    rw [← h.machine]
    refine ⟨hlegal.globals_lt, hlegal.globals_root, hlegal.bindings, hlegal.fields, ?_, hlegal.uses,
      hlegal.sightings⟩
    intro n' hn'
    rcases Array.mem_push.mp hn' with hn' | rfl
    · exact hlegal.natives n' hn'
    · exact hn
  · have hcurrent := h.current
    rw [h.machine] at hcurrent
    exact hcurrent

/-- Names of host functions in a global scope. -/
theorem defineAll_grows {f : Scopes} {globals : ScopeId} (hroot : f.parent? globals = none)
    (id : Nat) (natives : List Native) : f.Grows (Machine.defineAll f globals id natives) ∧
      ∀ e name v, (Machine.defineAll f globals id natives).binding? e name = some (.value v) →
        f.binding? e name = some (.value v) ∨ e = globals ∧ ∃ info, v = .native info := by
  induction natives generalizing f id with
  | nil => exact ⟨.refl f, fun _ _ _ hv => .inl hv⟩
  | cons n natives ih =>
    have hgrows : f.Grows (f.define globals n.name (.native (n.info id))) := by
      refine .bind fun _ _ p hp => ?_
      rw [hroot] at hp
      cases hp
    -- the globals stay outermost while the names are bound one by one
    have hroot : (f.define globals n.name (.native (n.info id))).parent? globals = none := by
      rw [Scopes.define, Scopes.parent?_bind, hroot]
    obtain ⟨hrest, hbinding⟩ := ih hroot (id + 1)
    refine ⟨hgrows.trans hrest, fun e name v hv => ?_⟩
    rcases hbinding e name v hv with hv | hv
    · rw [Scopes.define, Scopes.binding?_bind] at hv
      split at hv
      · rename_i heq
        cases hv
        exact .inr ⟨heq.1.symm, _, rfl⟩
      · exact .inl hv
    · exact .inr hv

/-- Starting again with new global names. -/
theorem resetGlobals (h : Sound s w programs) :
    Sound s.resetGlobals { w with machine := s.resetGlobals.machine } programs := by
  have hsize := Scopes.size_new w.machine.scopes
  -- no scope has the new one around it, and it has none around it either
  have hroot := Scopes.parent?_new_size w.machine.scopes
  -- in the new globals only the host functions have values
  obtain ⟨hgrows, hbinding⟩ := defineAll_grows hroot 0 w.machine.natives.toList
  have hgrows' := (Scopes.Grows.new w.machine.scopes).trans hgrows
  have hlegal := h.legal.withScopes hgrows' fun e name v hv => by
    rcases hbinding e name v hv with hv | ⟨-, info, rfl⟩
    · rw [Scopes.binding?_new] at hv
      exact .inl hv
    · exact .inr trivial
  refine h.congr rfl ?_ rfl (Nat.le_refl _) rfl
  show Watch.Legal _ { w with machine := s.machine.resetGlobals }
  rw [← h.machine]
  refine ⟨?_, ?_, hlegal.bindings, hlegal.fields, hlegal.natives, hlegal.uses, hlegal.sightings⟩
  · refine Nat.lt_of_lt_of_le (m := w.machine.scopes.new.1.size) ?_ hgrows.size
    rw [hsize]
    exact Nat.lt_succ_self _
  · rw [← hroot]
    refine hgrows.parent? ⟨w.machine.scopes.size⟩ ?_
    rw [hsize]
    exact Nat.lt_succ_self _

/-- A program that has been accepted is executed. -/
theorem execute (h : Sound s w programs) {p : Program} (hp : p ∈ programs) (bound : Nat) :
    Sound (s.execute bound p.statements).1 (.after (Watched.program bound p.statements w))
      programs := by
  have hsafe := Watched.program_safe bound h.legal h.current (h.wellFormed p hp)
    fun u hu => ⟨p, hp, hu⟩
  -- the run that is watched and the run of the session do the same on the machine
  have herases := Watched.program_erases bound p.statements w
  obtain ⟨machine, report, nextId⟩ := s
  obtain rfl : w.machine = machine := h.machine
  unfold Safe at hsafe
  unfold Session.execute
  dsimp only
  cases hrun : Watched.program bound p.statements w with
  | ok a w' =>
    rw [hrun] at hsafe herases
    have hrun : (Run.program bound p.statements).run w.machine = .ok () w'.machine := herases.symm
    rw [hrun]
    obtain ⟨hkeeps, hlegal, -⟩ := hsafe
    exact h.congr rfl hlegal (by rw [Watch.after, hkeeps.current, hkeeps.globals, h.current])
      (Nat.le_refl _) hkeeps.distances
  | error e w' =>
    rw [hrun] at hsafe herases
    have hrun : (Run.program bound p.statements).run w.machine = .error e w'.machine := herases.symm
    rw [hrun]
    obtain ⟨hkeeps, hlegal, -⟩ := hsafe
    -- a run that is aborted leaves the machine in the global scope too
    have hcurrent : w'.machine.current = w'.machine.globals := by
      rw [hkeeps.current, hkeeps.globals, h.current]
    cases e with
    | runtime e => exact h.congr rfl hlegal hcurrent (Nat.le_refl _) hkeeps.distances
    | output e => exact h.congr rfl hlegal hcurrent (Nat.le_refl _) hkeeps.distances
    | exhausted => exact h.congr rfl hlegal hcurrent (Nat.le_refl _) hkeeps.distances

/-- A text is compiled, whether it is a program or not. -/
theorem compile (h : Sound s w programs) (text : String) :
    Sound (s.compile text).1 { w with machine := (s.compile text).1.machine }
      ((s.compile text).2.toList ++ programs) := by
  have hle := Program.le_nextId_compile text s.nextId
  unfold Session.compile
  cases hcompile : Program.compile text s.nextId with
  | mk result n =>
    rw [hcompile] at hle
    cases result with
    | ok p => exact h.accept (Program.accepted_of_compile hcompile) []
    | error report =>
      -- a text with errors leaves the machine, and so what is watched of it
      have hw : { w with machine := s.machine } = w := by rw [← h.machine]
      dsimp only
      rw [hw]
      exact h.congr h.machine h.legal h.current hle rfl

/-- Nothing has happened yet. -/
theorem blank (sink : Sink) (clock : Clock) :
    Sound ⟨Machine.blank sink clock, [], 0⟩ ⟨Machine.blank sink clock, fun _ => [], []⟩ [] := by
  have hbinding : ∀ e name, (Machine.blank sink clock).scopes.binding? e name = none := by
    intro e name
    show Scopes.empty.new.1.binding? e name = none
    rw [Scopes.binding?_new]
    rfl
  have hroot : (Machine.blank sink clock).scopes.parent?
      (Machine.blank sink clock).globals = none := by
    show Scopes.empty.new.1.parent? _ = none
    rw [Scopes.parent?_new]
    rfl
  have hsize : (Machine.blank sink clock).globals.index < (Machine.blank sink clock).scopes.size := by
    show 0 < Scopes.empty.new.1.size
    rw [Scopes.size_new]
    exact Nat.succ_pos _
  -- there are no scopes with values, no functions, no programs and no nodes yet
  refine ⟨rfl, ⟨hsize, hroot, fun e name v hv => ?_, ?_, ?_, ?_, ?_⟩, rfl, ?_, ?_, ?_, ?_⟩
  · rw [hbinding] at hv
    cases hv
  · exact fun t ht => absurd ht (Array.not_mem_empty t)
  · exact fun n hn => absurd hn (Array.not_mem_empty n)
  · rintro u ⟨_, hp, _⟩
    cases hp
  · exact fun x hx => absurd hx List.not_mem_nil
  · exact fun p hp => absurd hp List.not_mem_nil
  · rintro u ⟨_, hp, _⟩
    cases hp
  · rintro u _ ⟨_, hp, _⟩
    cases hp
  · exact fun id _ => Distances.get?_empty id

end Sound

namespace History

variable {s : Session} {w : Watch} {programs : List Program}

/-- Every session is as described. -/
theorem sound (h : History s w programs) : Sound s w programs := by
  induction h with
  | start sink clock =>
    exact (Sound.blank sink clock).defineNative Native.clock_conservative
  | compile text _ ih => exact ih.compile text
  | execute bound hp _ ih => exact ih.execute hp bound
  | resetGlobals _ ih => exact ih.resetGlobals
  | resetReport _ ih => exact ih.congr ih.machine ih.legal ih.current (Nat.le_refl _) rfl
  | defineNative hn _ ih => exact ih.defineNative hn

/-- A lookup of `super` that agrees with its use only fails if the superclass has no such method. -/
private theorem readSuper_error {x : Sighting} {u : Use} (hshows : x.Shows u)
    (hkind : x.reference.kind = .super) {method : Token} {e : Abort} {m : Machine}
    (hrun : (Run.readSuper x.reference.id x.reference.name method).run x.machine = .error e m) :
    e = .runtime ⟨.undefinedProperty method.lexeme, method.line⟩ := by
  obtain ⟨inner, this, cls, hdistance, hinner, houter⟩ :=
    hshows.values_of_super (hshows.reference ▸ hkind)
  unfold Run.readSuper Evaluator.readSuper Evaluator.look at hrun
  -- both bindings are as the use says, so the method is all that can be missing
  simp only [EStateM.run, get_bind_apply, hdistance, houter, hinner] at hrun
  cases hfound : cls.findMethod? method.lexeme with
  | none =>
    rw [hfound] at hrun
    cases hrun
    rfl
  | some found =>
    rw [hfound] at hrun
    cases hrun

/-- Resolver and interpreter agree on scopes, in every session.

    Each lookup of a name belongs to exactly one use in an accepted program and agrees with it: the
    recorded distance leads to the scope that was opened for the innermost scope of the text that
    declares the name. A run is only aborted because of an undefined variable if no local scope
    around a use of the name declares it, and never because `super` is not available; a lookup of
    `super` only fails if the superclass has no such method. The runs that are watched for this are
    the runs of programs. -/
theorem scopes_agree (h : History s w programs) :
    (∀ x ∈ w.sightings, ∃ u, UsedIn programs u ∧ x.Shows u ∧
      ∀ u', UsedIn programs u' → u'.reference.id = x.reference.id → u' = u) ∧
    (∀ p ∈ programs, ∀ bound e m,
      (Run.program bound p.statements).run s.machine = .error (.runtime e) m →
      e.fault ≠ .superUnavailable ∧ ∀ name, e.fault = .undefinedVariable name →
        ∃ u, UsedIn programs u ∧ u.reference.name.lexeme = name ∧ u.reference.name.line = e.line ∧
          u.distance? = none) ∧
    (∀ x ∈ w.sightings, x.reference.kind = .super → ∀ method e m,
      (Run.readSuper x.reference.id x.reference.name method).run x.machine = .error e m →
      e = .runtime ⟨.undefinedProperty method.lexeme, method.line⟩) ∧
    ∀ bound statements, (Watched.program bound statements).Erases (Run.program bound statements) := by
  have hsound := h.sound
  refine ⟨fun x hx => ?_, fun p hp bound e m hrun => ?_, fun x hx hkind method e m hrun => ?_,
    Watched.program_erases⟩
  · obtain ⟨u, hu, hshows⟩ := hsound.legal.sightings x hx
    refine ⟨u, hu, hshows, fun u' hu' hid => hsound.id_inj u' u hu' hu ?_⟩
    rw [hid, hshows.reference]
  · have hsafe := Watched.program_safe bound hsound.legal hsound.current (hsound.wellFormed p hp)
      fun u hu => ⟨p, hp, hu⟩
    -- what aborts the run aborts the run that is watched, and there it is justified
    have herases := Watched.program_erases bound p.statements w
    rw [hsound.machine] at herases
    unfold Safe at hsafe
    cases hwatched : Watched.program bound p.statements w with
    | ok a w' =>
      rw [hwatched] at herases
      cases herases.trans hrun
    | error e' w' =>
      rw [hwatched] at hsafe herases
      cases herases.trans hrun
      obtain ⟨-, -, hjustified⟩ := hsafe
      obtain ⟨fault, line⟩ := e
      refine ⟨?_, ?_⟩
      · rintro rfl
        exact hjustified
      · rintro name rfl
        exact hjustified
  · obtain ⟨u, -, hshows⟩ := hsound.legal.sightings x hx
    exact readSuper_error hshows hkind hrun

/-- The program `{var a=nil;print a;}`. -/
private def blockProgram : Program :=
  ⟨[.block [.varDecl (.name "a" 1) (some (.literal .nil)), .print (.var ⟨0⟩ (.name "a" 1))]],
    [(⟨0⟩, 0)]⟩

private def blockSession : Session :=
  ((Session.start .unlimited (.always 0)).compile "\x7bvar a=nil;print a;\x7d").1

private def blockWatch : Watch :=
  .after (Watched.program 5 blockProgram.statements ⟨blockSession.machine, fun _ => [], []⟩)

/-- A session that has executed a block. -/
private theorem blockHistory :
    History (blockSession.execute 5 blockProgram.statements).1 blockWatch [blockProgram] := by
  have haccepted : ((Session.start .unlimited (.always 0)).compile "\x7bvar a=nil;print a;\x7d").2 =
      some blockProgram := by rfl
  have hcompile := History.compile "\x7bvar a=nil;print a;\x7d" (History.start .unlimited (.always 0))
  rw [haccepted] at hcompile
  exact .execute 5 (p := blockProgram) List.mem_cons_self hcompile

/-- When it has been executed, one name has been looked up, and the lookup agrees with its use. -/
theorem block_scopes_agree :
    History (blockSession.execute 5 blockProgram.statements).1 blockWatch [blockProgram] ∧
    blockWatch.sightings.length = 1 ∧
    ∀ x ∈ blockWatch.sightings, ∃ u, UsedIn [blockProgram] u ∧ x.Shows u ∧
      ∀ u', UsedIn [blockProgram] u' → u'.reference.id = x.reference.id → u' = u :=
  ⟨blockHistory, by rfl, (scopes_agree blockHistory).1⟩

end History

end Session

end Lox
