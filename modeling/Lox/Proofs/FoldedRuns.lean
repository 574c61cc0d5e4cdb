import Lox.Proofs.FoldedSteps
import Lox.Proofs.Frame

/-!
# Direct runs

Two machines, of which the second one executes a program directly, go through the same steps: they
print the same, compute the same values and end in the same way. They differ where a block opens no
scope on the second machine. There the first one opens an additional scope, and since the block
declares nothing, nothing is ever bound in it.

## Key results

- `Folding.AllTogether.executeBare`: a block with and without its scope
- `Folding.AllTogether.all`: runs with the same bound on the nesting of actions
- `Folding.program_together`: whole programs
-/

namespace Lox

namespace Folding

/-! ## Expressions and statements -/

section Programs

variable {choice : Choice} {A : Use → Prop} {n : Nat} {w : Folding} {around : Surroundings}

/-- How two statements end that are executed together. -/
abbrev Ends (choice : Choice) (A : Use → Prop) (flow flow' : Flow) (w : Folding) : Prop :=
  flow.Folds choice A w flow'

/-- Runs with this bound on the nesting of actions go together. A statement that declares something
    stands in a scope of both machines. -/
structure AllTogether (choice : Choice) (A : Use → Prop) (n : Nat) : Prop where
  evaluate : ∀ {w : Folding} {around : Surroundings} {initializing : Option String} {e : Expr},
    w.Agrees choice A → w.Along choice around w.left.current w.right.current →
    (∀ u ∈ e.uses around initializing, A u) →
    Together choice A w (Run.evaluate n e) (Direct.evaluate choice n e) (Yield choice A)
  callValue : ∀ {w : Folding} {v v' : Value} {values values' : List Value}, w.Agrees choice A →
    v.Folds choice A w v' → List.Forall₂ (Value.Folds choice A w) values values' →
    Together choice A w (Run.callValue n v values) (Direct.callValue choice n v' values')
      (Yield choice A)
  callClosure : ∀ {w : Folding} {c c' : Closure} {values values' : List Value},
    w.Agrees choice A → c.Folds choice A w FunctionDecl.asFunction c' →
    List.Forall₂ (Value.Folds choice A w) values values' →
    Together choice A w (Run.callClosure n c values) (Direct.callClosure choice n c' values')
      (Yield choice A)
  execute : ∀ {w : Folding} {around : Surroundings} {s : Stmt}, w.Agrees choice A →
    w.Along choice around w.left.current w.right.current →
    (s.declared? ≠ none → around.Admits choice) → s.WellFormed → (∀ u ∈ s.uses around, A u) →
    Together choice A w (Run.execute n s) (Direct.execute choice n s) (Ends choice A)
  repeatWhile : ∀ {w : Folding} {around : Surroundings} {condition : Expr} {body : Stmt},
    w.Agrees choice A → w.Along choice around w.left.current w.right.current →
    body.declared? = none → body.WellFormed → (∀ u ∈ condition.uses around none, A u) →
    (∀ u ∈ body.uses around, A u) →
    Together choice A w (Run.repeatWhile n condition body)
      (Direct.repeatWhile choice n condition body) (Ends choice A)

/-- On the first machine a block opens the last scope. -/
theorem execute_block_eq (n : Nat) (body : List Stmt) (m : Machine) :
    Run.execute (n + 1) (.block body) m =
      Run.inScope ⟨m.scopes.size⟩ (Lox.executeAll (Run.execute n) body)
        { m with scopes := (m.scopes.child m.current).1 } := by
  have hblock : Run.execute (n + 1) (.block body) = (do
      let scope ← Run.openScope (← get).current
      Run.inScope scope (Lox.executeAll (Run.execute n) body)) := rfl
  rw [hblock, get_bind_apply]
  exact bind_apply_of_ok (openScope_eq m.current m)

/-- A block without scope declares nothing. -/
theorem declared?_of_isBare {body : List Stmt} (h : choice.isBare body = true) :
    ∀ s ∈ body, s.declared? = none := by
  unfold Choice.isBare at h
  split at h
  · rename_i s increment
    have hs : s.declared? = none := by
      simp only [Bool.and_eq_true, Option.isNone_iff_eq_none] at h
      exact h.1
    intro t ht
    -- the block holds the body, which declares nothing, and the increment, which is an expression
    rcases List.mem_cons.mp ht with rfl | ht
    · exact hs
    · rw [List.mem_singleton.mp ht]
      rfl
  · cases h

namespace AllTogether

/-- Expressions are evaluated to values that correspond. -/
theorem evaluateAll (ih : AllTogether choice A n) (h : w.Agrees choice A)
    (haround : w.Along choice around w.left.current w.right.current) {initializing : Option String}
    {es : List Expr} (huses : ∀ r ∈ Expr.referencesList es, A ⟨r, around, initializing⟩) :
    Together choice A w (Lox.evaluateAll (Run.evaluate n) es)
      (Lox.evaluateAll (Direct.evaluate choice n) es)
      fun values values' w' => List.Forall₂ (Value.Folds choice A w') values values' := by
  induction es generalizing w with
  | nil => exact .pure h .nil
  | cons e es ihes =>
    obtain ⟨huse, huses⟩ := List.forall_mem_append.mp huses
    refine (ih.evaluate h haround (List.forall_mem_map.mpr huse)).bind
      fun _ _ w₁ hkeeps₁ h₁ hv => ?_
    refine (ihes h₁ (hkeeps₁.along haround) huses).bind fun _ _ w₂ hkeeps₂ h₂ hvalues => ?_
    -- the value of the first one still corresponds after the others have been evaluated
    exact .pure h₂ (.cons (hkeeps₂.toGrows.value hv) hvalues)

/-- Statements are executed, and end in ways that correspond. -/
theorem executeAll (ih : AllTogether choice A n) (h : w.Agrees choice A)
    (haround : w.Along choice around w.left.current w.right.current) {body : List Stmt}
    (hadmits : ∀ s ∈ body, s.declared? ≠ none → around.Admits choice)
    (hwf : Stmt.WellFormedList body) (huses : ∀ u ∈ Stmt.usesList around body, A u) :
    Together choice A w (Lox.executeAll (Run.execute n) body)
      (Lox.executeAll (Direct.execute choice n) body) (Ends choice A) := by
  induction body generalizing w around with
  | nil => exact .pure h .normal
  | cons s body ihbody =>
    obtain ⟨hplace, hadmits⟩ := List.forall_mem_cons.mp hadmits
    obtain ⟨huse, huses⟩ := List.forall_mem_append.mp huses
    refine (ih.execute h haround hplace hwf.1 huse).bind fun _ _ w₁ hkeeps₁ h₁ hflow => ?_
    have haround₁ := hkeeps₁.along haround
    cases hflow with
    | returned hv => exact .pure h₁ (.returned hv)
    | normal =>
      -- what the statement declares stands in a scope of both machines
      unfold Surroundings.after at huses
      cases hname : s.declared? with
      | none =>
        rw [hname] at huses
        exact ihbody h₁ haround₁ hadmits hwf.2 huses
      | some name =>
        rw [hname] at huses
        have hplace := hplace (by simp [hname])
        exact ihbody h₁ (haround₁.declare hplace name.lexeme)
          (fun _ _ _ => hplace.declare name.lexeme) hwf.2 huses

/-- Statements that are executed in a scope of their own. -/
theorem executeIn (ih : AllTogether choice A n) (h : w.Agrees choice A) {scope scope' : ScopeId}
    (hscope : w.Along choice around scope scope') (hadmits : around.Admits choice)
    {body : List Stmt} (hwf : Stmt.WellFormedList body)
    (huses : ∀ u ∈ Stmt.usesList around body, A u) :
    Together choice A w (Run.inScope scope (Lox.executeAll (Run.execute n) body))
      (Run.inScope scope' (Lox.executeAll (Direct.execute choice n) body)) (Ends choice A) :=
  .inScope (ih.executeAll (h.in_ scope scope') ((w.grows_in scope scope').along hscope)
    (fun _ _ _ => hadmits) hwf huses) fun _ _ w' hflow => Flow.Folds.mono (w'.grows_in _ _) hflow

/-- A part of an expression, after other parts of it have been evaluated. -/
theorem evaluatePart (ih : AllTogether choice A n) (part : Expr) {w' : Folding}
    (hkeeps : w.Keeps w') (h : w'.Agrees choice A)
    (haround : w.Along choice around w.left.current w.right.current)
    {initializing : Option String}
    (huses : ∀ r ∈ part.references, A ⟨r, around, initializing⟩) :
    Together choice A w' (Run.evaluate n part) (Direct.evaluate choice n part) (Yield choice A) :=
  ih.evaluate h (hkeeps.along haround) (List.forall_mem_map.mpr huses)

/-- Both callees take the same number of arguments. -/
theorem evaluateCall (ih : AllTogether choice A n) (h : w.Agrees choice A)
    (haround : w.Along choice around w.left.current w.right.current) {initializing : Option String}
    {callee : Expr} {paren : Token} {arguments : List Expr}
    (huses : ∀ r ∈ (Expr.call callee paren arguments).references, A ⟨r, around, initializing⟩) :
    Together choice A w (Run.evaluate (n + 1) (.call callee paren arguments))
      (Direct.evaluate choice (n + 1) (.call callee paren arguments)) (Yield choice A) := by
  obtain ⟨huse, huses⟩ := List.forall_mem_append.mp huses
  refine (ih.evaluatePart callee (.refl w) h haround huse).bind fun v v' w₁ hkeeps₁ h₁ hv => ?_
  refine (ih.evaluateAll h₁ (hkeeps₁.along haround) huses).bind
    fun _ _ w₂ hkeeps₂ h₂ hvalues => ?_
  have hv := hkeeps₂.toGrows.value hv
  -- both callees take as many arguments, so both calls go on or both fail
  rw [hv.arity? (fun _ _ => Closure.Folds.sameFace) fun _ _ => Closure.Folds.sameFace]
  cases v.arity? with
  | none => exact .fail h₂ _ _
  | some arity =>
    dsimp only
    rw [hvalues.length_eq]
    split
    · have hgrows := w₂.grows_onLine paren.line
      have hcall := ih.callValue (h₂.onLine paren.line) (hgrows.value hv)
        (hvalues.imp fun _ _ => hgrows.value)
      exact .duringCall h₂ hcall fun _ _ w₃ hv => (w₃.grows_onLine _).value hv
    · exact .fail h₂ _ _

/-- An expression has values that correspond, if all that it runs with less fuel does. -/
theorem evaluate_succ (ih : AllTogether choice A n) (h : w.Agrees choice A)
    (haround : w.Along choice around w.left.current w.right.current) {initializing : Option String}
    {e : Expr} (huses : ∀ u ∈ e.uses around initializing, A u) :
    Together choice A w (Run.evaluate (n + 1) e) (Direct.evaluate choice (n + 1) e)
      (Yield choice A) := by
  have huses : ∀ r ∈ e.references, A ⟨r, around, initializing⟩ :=
    List.forall_mem_map.mp huses
  cases e with
  | literal value =>
    exact .pure h (.of_isPlain (ofLiteral_isPlain value))
  | grouping inner =>
    exact ih.evaluatePart inner (.refl w) h haround huses
  | unary operator operand =>
    refine (ih.evaluatePart operand (.refl w) h haround huses).bind fun v v' w₁ _ h₁ hv => ?_
    exact ofOperator_together h₁ operator (hv.applyUnary _) fun _ => applyUnary_isPlain
  | binary operator left right =>
    obtain ⟨huse, huses⟩ := List.forall_mem_append.mp huses
    refine (ih.evaluatePart left (.refl w) h haround huse).bind fun _ _ w₁ hkeeps₁ h₁ ha => ?_
    refine (ih.evaluatePart right hkeeps₁ h₁ haround huses).bind fun _ _ w₂ hkeeps₂ h₂ hb => ?_
    exact ofOperator_together h₂ operator
      ((hkeeps₂.toGrows.value ha).applyBinary (fun _ _ => Closure.Folds.sameFace) hb _)
      fun _ => applyBinary_isPlain
  -- both stop at the left operand or neither does
  | logical operator left right =>
    obtain ⟨huse, huses⟩ := List.forall_mem_append.mp huses
    refine (ih.evaluatePart left (.refl w) h haround huse).bind fun _ _ w₁ hkeeps₁ h₁ ha => ?_
    rw [ha.decidedByLeft]
    split
    · exact .pure h₁ ha
    · exact ih.evaluatePart right hkeeps₁ h₁ haround huses
  | var id name =>
    exact readVariable_together h (huses ⟨.var, id, name⟩ List.mem_cons_self) haround
  | assign id name value =>
    obtain ⟨huse, huses⟩ := List.forall_mem_cons.mp huses
    refine (ih.evaluatePart value (.refl w) h haround huses).bind fun _ _ w₁ hkeeps₁ h₁ hv => ?_
    refine (writeVariable_together h₁ huse (hkeeps₁.along haround) hv).bind
      fun _ _ w₂ hkeeps₂ h₂ _ => ?_
    exact .pure h₂ (hkeeps₂.toGrows.value hv)
  | call callee paren arguments => exact ih.evaluateCall h haround huses
  | get object name =>
    refine (ih.evaluatePart object (.refl w) h haround huses).bind fun _ _ w₁ _ h₁ hv => ?_
    -- both objects are instances or neither is
    cases hv with
    | instance_ id hc => exact readProperty_together h₁ id hc name
    | _ => exact .fail h₁ _ _
  | set object name value =>
    obtain ⟨huse, huses⟩ := List.forall_mem_append.mp huses
    refine (ih.evaluatePart object (.refl w) h haround huse).bind fun _ _ w₁ hkeeps₁ h₁ hv => ?_
    cases hv with
    | instance_ id hc =>
      refine (ih.evaluatePart value hkeeps₁ h₁ haround huses).bind fun _ _ w₂ _ h₂ hv => ?_
      refine (setField_together h₂ id name.lexeme hv).bind fun _ _ w₃ hkeeps₃ h₃ _ => ?_
      exact .pure h₃ (hkeeps₃.toGrows.value hv)
    | _ => exact .fail h₁ _ _
  | this id keyword =>
    exact readVariable_together h (huses ⟨.this, id, keyword⟩ List.mem_cons_self) haround
  | super id keyword method =>
    exact readSuper_together h (huses ⟨.super, id, keyword⟩ List.mem_cons_self) haround rfl method

/-- A call has results that correspond, if all that it runs with less fuel does. -/
theorem callValue_succ (ih : AllTogether choice A n) (h : w.Agrees choice A) {v v' : Value}
    (hv : v.Folds choice A w v') {values values' : List Value}
    (hvalues : List.Forall₂ (Value.Folds choice A w) values values') :
    Together choice A w (Run.callValue (n + 1) v values)
      (Direct.callValue choice (n + 1) v' values') (Yield choice A) := by
  cases hv with
  | native info =>
    exact callNative_together h info hvalues
  | function hc =>
    exact ih.callClosure h hc hvalues
  | @class_ c c' hc =>
    refine (newInstance_together h hc).bind fun this this' w₁ hkeeps₁ h₁ hthis => ?_
    -- both classes have an initializer or none of them has
    have hinit := hc.findMethod? "init"
    generalize c.findMethod? "init" = init at hinit
    generalize c'.findMethod? "init" = init' at hinit
    cases hinit with
    | none => exact .pure h₁ hthis
    | some hinit =>
      refine (bindMethod_together h₁ (hkeeps₁.toGrows.closure hinit) hthis).bind
        fun _ _ w₂ hkeeps₂ h₂ hbound => ?_
      refine (ih.callClosure h₂ hbound ((hkeeps₁.trans hkeeps₂).values hvalues)).bind
        fun _ _ w₃ hkeeps₃ h₃ _ => ?_
      exact .pure h₃ ((hkeeps₂.trans hkeeps₃).toGrows.value hthis)
  | _ =>
    exact .pure h .nil

/-- A call of a function has results that correspond, if its body does. -/
theorem callClosure_succ (ih : AllTogether choice A n) (h : w.Agrees choice A) {c c' : Closure}
    (hc : c.Folds choice A w FunctionDecl.asFunction c') {values values' : List Value}
    (hvalues : List.Forall₂ (Value.Folds choice A w) values values') :
    Together choice A w (Run.callClosure (n + 1) c values)
      (Direct.callClosure choice (n + 1) c' values') (Yield choice A) := by
  obtain ⟨around, haround, huses⟩ := hc.code
  obtain ⟨id, ⟨name, params, body⟩, scope, isInitializer⟩ := c
  obtain ⟨id', d', scope', isInitializer'⟩ := c'
  obtain rfl : d' = ⟨name, params, body⟩ := hc.declaration
  let x : Enclosing := ⟨.function ⟨name, params, body⟩, params.map (·.lexeme)⟩
  have hadmits : Surroundings.Admits choice (x :: around) := fun _ hx => by cases hx; rfl
  refine (openScope_together h haround (x := x) rfl).bind fun e e' w₁ hkeeps₁ h₁ hscope₁ => ?_
  refine (defineParams_together h₁ (hscope₁.at_ hadmits) params (hkeeps₁.values hvalues)).bind
    fun _ _ w₂ hkeeps₂ h₂ _ => ?_
  -- the parameters and the body share a scope
  refine (ih.executeIn h₂ (hkeeps₂.toGrows.along hscope₁) hadmits hc.wellFormed.2 huses).bind
    fun _ _ w₃ hkeeps₃ h₃ hflow => ?_
  exact callResult_together h₃ (((hkeeps₁.trans hkeeps₂).trans hkeeps₃).toGrows.closure hc) hflow

/-- A block without a scope of its own on the second machine. In the additional scope of the first
    one nothing is declared. -/
theorem executeBare (ih : AllTogether choice A n) (h : w.Agrees choice A)
    (haround : w.Along choice around w.left.current w.right.current) {body : List Stmt}
    (hbare : choice.isBare body = true) (hwf : Stmt.WellFormedList body)
    (huses : ∀ u ∈ Stmt.usesList (⟨.block body, []⟩ :: around) body, A u) :
    Together choice A (w.withAdditional w.left.current)
      (Run.inScope ⟨w.left.scopes.size⟩ (Lox.executeAll (Run.execute n) body))
      (Lox.executeAll (Direct.execute choice n) body) (Ends choice A) := by
  have hlt := haround.lt_size h
  obtain ⟨hkeeps, hagrees, hadditional⟩ := h.withAdditional hlt
  -- the body is in a block without scope, and on the first machine in the additional scope
  have hinside : (w.withAdditional w.left.current).Along choice (⟨.block body, []⟩ :: around)
      ⟨w.left.scopes.size⟩ w.right.current :=
    .bare hbare rfl hadditional ((Scopes.parent?_child _ _ _ hlt).trans (if_pos rfl))
      (hkeeps.toGrows.along haround)
  refine .inScope_left (ih.executeAll (hagrees.in_ _ _) ((grows_in _ _ _).along hinside) ?_ hwf
    huses) fun _ _ w' hflow => Flow.Folds.mono (w'.grows_in _ _) hflow
  -- only what declares a name would have to be outside of such a block
  intro s hs hdeclared
  exact absurd (declared?_of_isBare hbare s hs) hdeclared

/-- A block with a scope of its own on both machines, or on the first one alone. -/
theorem executeBlock (ih : AllTogether choice A n) (h : w.Agrees choice A)
    (haround : w.Along choice around w.left.current w.right.current) {body : List Stmt}
    (hwf : Stmt.WellFormedList body)
    (huses : ∀ u ∈ Stmt.usesList (⟨.block body, []⟩ :: around) body, A u) :
    Together choice A w (Run.execute (n + 1) (.block body))
      (Direct.execute choice (n + 1) (.block body)) (Ends choice A) := by
  cases hbare : choice.isBare body with
  | true =>
    -- the second machine executes the statements where it is
    have hright : Direct.execute choice (n + 1) (.block body) w.right =
        Lox.executeAll (Direct.execute choice n) body (w.withAdditional w.left.current).right := by
      rw [Direct.execute_block, hbare]
      rfl
    exact .step (h.withAdditional (haround.lt_size h)).1 (execute_block_eq ..) hright
      (ih.executeBare h haround hbare hwf huses)
  | false =>
    rw [Direct.execute_block, hbare]
    refine .get ((openScope_together h haround (x := ⟨.block body, []⟩) hbare).bind
      fun scope scope' w₁ hkeeps₁ h₁ hscope₁ => ?_)
    exact ih.executeIn h₁ hscope₁ (fun _ hx => by cases hx; exact hbare) hwf huses

/-- The name is declared already for the uses in its initializer. -/
theorem executeVarDecl (ih : AllTogether choice A n) (h : w.Agrees choice A)
    (haround : w.Along choice around w.left.current w.right.current) (hplace : around.Admits choice)
    {name : Token} {initializer : Option Expr}
    (huses : ∀ u ∈ (Stmt.varDecl name initializer).uses around, A u) :
    Together choice A w (Run.execute (n + 1) (.varDecl name initializer))
      (Direct.execute choice (n + 1) (.varDecl name initializer)) (Ends choice A) := by
  cases initializer with
  | none =>
    exact (declareHere_together h (haround.at_ hplace) name.lexeme).bind
      fun _ _ _ _ h₁ _ => .pure h₁ .normal
  | some initializer =>
    -- the uses in the initializer stand behind the name, which is not bound yet
    refine (ih.evaluate h (haround.declare hplace name.lexeme) huses).bind
      fun _ _ w₁ hkeeps₁ h₁ hv => ?_
    exact (defineHere_together h₁ ((hkeeps₁.along haround).at_ hplace) name.lexeme hv).bind
      fun _ _ _ _ h₂ _ => .pure h₂ .normal

/-- The branches of a conditional declare nothing. -/
theorem executeCond (ih : AllTogether choice A n) (h : w.Agrees choice A)
    (haround : w.Along choice around w.left.current w.right.current) {condition : Expr}
    {thenBranch : Stmt} {elseBranch : Option Stmt}
    (hwf : (Stmt.cond condition thenBranch elseBranch).WellFormed)
    (huses : ∀ u ∈ (Stmt.cond condition thenBranch elseBranch).uses around, A u) :
    Together choice A w (Run.execute (n + 1) (.cond condition thenBranch elseBranch))
      (Direct.execute choice (n + 1) (.cond condition thenBranch elseBranch))
      (Ends choice A) := by
  cases elseBranch with
  | none =>
    obtain ⟨huse, huses⟩ := List.forall_mem_append.mp huses
    refine (ih.evaluate h haround huse).bind fun _ _ w₁ hkeeps₁ h₁ hv => ?_
    -- both take the same branch
    rw [hv.isTruthy]
    split
    · exact ih.execute h₁ (hkeeps₁.along haround) (absurd hwf.2.1) hwf.2.2 huses
    · exact .pure h₁ .normal
  | some elseBranch =>
    have huses : ∀ u ∈ condition.uses around none ++ thenBranch.uses around ++
        elseBranch.uses around, A u := huses
    simp only [List.forall_mem_append] at huses
    refine (ih.evaluate h haround huses.1.1).bind fun _ _ w₁ hkeeps₁ h₁ hv => ?_
    rw [hv.isTruthy]
    split
    · exact ih.execute h₁ (hkeeps₁.along haround) (absurd hwf.2.1.1) hwf.2.1.2 huses.1.2
    · exact ih.execute h₁ (hkeeps₁.along haround) (absurd hwf.2.2.1) hwf.2.2.2 huses.2

/-- The name of a class is declared already for the uses in its superclass. -/
theorem executeClassDecl (ih : AllTogether choice A n) (h : w.Agrees choice A)
    (haround : w.Along choice around w.left.current w.right.current) (hplace : around.Admits choice)
    {d : ClassDecl} (hwf : (Stmt.classDecl d).WellFormed)
    (huses : ∀ u ∈ (Stmt.classDecl d).uses around, A u) :
    Together choice A w (Run.execute (n + 1) (.classDecl d))
      (Direct.execute choice (n + 1) (.classDecl d)) (Ends choice A) := by
  obtain ⟨name, superclass, methods⟩ := d
  cases superclass with
  | none =>
    exact (declareClass_together h haround hplace name .none hwf.2.2 huses).bind
      fun _ _ _ _ h₁ _ => .pure h₁ .normal
  | some superclass =>
    obtain ⟨huse, huses⟩ := List.forall_mem_append.mp huses
    refine (ih.evaluate h (haround.declare hplace name.lexeme) huse).bind
      fun _ _ w₁ hkeeps₁ h₁ hv => ?_
    refine (asSuperclass_together h₁ name superclass hv).bind fun c c' w₂ hkeeps₂ h₂ hc => ?_
    -- where the class is declared has not changed while its superclass was evaluated
    have haround₂ := (hkeeps₁.trans hkeeps₂).along haround
    exact (declareClass_together h₂ haround₂ hplace name (.some hc) hwf.2.2 huses).bind
      fun _ _ _ _ h₃ _ => .pure h₃ .normal

/-- A statement ends in ways that correspond, if all that it runs with less fuel does. -/
theorem execute_succ (ih : AllTogether choice A n) (h : w.Agrees choice A)
    (haround : w.Along choice around w.left.current w.right.current) {s : Stmt}
    (hadmits : s.declared? ≠ none → around.Admits choice) (hwf : s.WellFormed)
    (huses : ∀ u ∈ s.uses around, A u) :
    Together choice A w (Run.execute (n + 1) s) (Direct.execute choice (n + 1) s)
      (Ends choice A) := by
  cases s with
  | expression value =>
    exact (ih.evaluate h haround huses).bind fun _ _ _ _ h₁ _ => .pure h₁ .normal
  | print value =>
    refine (ih.evaluate h haround huses).bind fun _ _ w₁ _ h₁ hv => ?_
    -- both values are printed the same
    rw [hv.text fun _ _ => Closure.Folds.sameFace]
    exact (emit_together h₁ _).bind fun _ _ _ _ h₂ _ => .pure h₂ .normal
  | varDecl => exact ih.executeVarDecl h haround (hadmits (Option.some_ne_none _)) huses
  | block => exact ih.executeBlock h haround hwf huses
  | cond => exact ih.executeCond h haround hwf huses
  | loop condition body =>
    obtain ⟨huse, huses⟩ := List.forall_mem_append.mp huses
    exact ih.repeatWhile h haround hwf.2.1 hwf.2.2 huse huses
  | funDecl =>
    have hplace := hadmits (Option.some_ne_none _)
    exact (declareFunction_together h haround hplace hwf.2 huses).bind
      fun _ _ _ _ h₁ _ => .pure h₁ .normal
  | ret keyword value =>
    cases value with
    | none =>
      exact .pure h (.returned .nil)
    | some value =>
      exact (ih.evaluate h haround huses).bind fun _ _ _ _ h₁ hv => .pure h₁ (.returned hv)
  | classDecl => exact ih.executeClassDecl h haround (hadmits (Option.some_ne_none _)) hwf huses

/-- A loop ends in ways that correspond, if each round does. -/
theorem repeatWhile_succ (ih : AllTogether choice A n) (h : w.Agrees choice A)
    (haround : w.Along choice around w.left.current w.right.current) {condition : Expr}
    {body : Stmt} (hbody : body.declared? = none) (hwf : body.WellFormed)
    (huse : ∀ u ∈ condition.uses around none, A u) (huses : ∀ u ∈ body.uses around, A u) :
    Together choice A w (Run.repeatWhile (n + 1) condition body)
      (Direct.repeatWhile choice (n + 1) condition body) (Ends choice A) := by
  refine (ih.evaluate h haround huse).bind fun _ _ w₁ hkeeps₁ h₁ hv => ?_
  have haround₁ := hkeeps₁.along haround
  -- both loops go on for as many rounds
  rw [hv.isTruthy]
  split
  · refine (ih.execute h₁ haround₁ (absurd hbody) hwf huses).bind
      fun _ _ w₂ hkeeps₂ h₂ hflow => ?_
    cases hflow with
    | normal => exact ih.repeatWhile h₂ (hkeeps₂.along haround₁) hbody hwf huse huses
    | returned hv => exact .pure h₂ (.returned hv)
  · exact .pure h₁ .normal

/-- With any bound on the nesting of actions. -/
theorem all (choice : Choice) (A : Use → Prop) (n : Nat) : AllTogether choice A n := by
  induction n with
  | zero =>
    constructor
    -- without any nesting left, both runs are given up at once
    · intro w around initializing e h _ _
      exact .throw h
    · intro w v v' values values' h _ _
      exact .throw h
    · intro w c c' values values' h _ _
      exact .throw h
    · intro w around s h _ _ _ _
      exact .throw h
    · intro w around condition body h _ _ _ _ _
      exact .throw h
  | succ n ih =>
    exact ⟨fun h haround huses => ih.evaluate_succ h haround huses,
      fun h hv hvalues => ih.callValue_succ h hv hvalues,
      fun h hc hvalues => ih.callClosure_succ h hc hvalues,
      fun h haround hadmits hwf huses => ih.execute_succ h haround hadmits hwf huses,
      fun h haround hbody hwf huse huses => ih.repeatWhile_succ h haround hbody hwf huse huses⟩

end AllTogether

/-- However a block ends, the scope that is opened for it stays an additional one. -/
theorem exists_additional (h : w.Agrees choice A)
    (haround : w.Along choice around w.left.current w.right.current) {body : List Stmt}
    (hbare : choice.isBare body = true) (hwf : Stmt.WellFormedList body)
    (huses : ∀ u ∈ Stmt.usesList (⟨.block body, []⟩ :: around) body, A u) :
    ∃ w' : Folding, w'.left = Run.after (Run.execute (n + 1) (.block body)) w.left ∧ w.Keeps w' ∧
      w'.Agrees choice A ∧ w'.Additional ⟨w.left.scopes.size⟩ := by
  obtain ⟨hkeeps, -, hadditional⟩ := h.withAdditional (haround.lt_size h)
  have hblock := execute_block_eq n body w.left
  -- the scope was additional before the body began, and it stays so on both ways out
  rcases ((AllTogether.all choice A n).executeBare h haround hbare hwf huses).outcomes with
    ⟨_, _, w', hrun, -, hkeeps', hagrees, -⟩ | ⟨_, w', hrun, -, hkeeps', hagrees⟩
  · exact ⟨w', (Run.after_of_ok (hblock.trans hrun)).symm, hkeeps.trans hkeeps', hagrees,
      hkeeps'.toGrows.additional hadditional⟩
  · exact ⟨w', (Run.after_of_error (hblock.trans hrun)).symm, hkeeps.trans hkeeps', hagrees,
      hkeeps'.toGrows.additional hadditional⟩

/-- A program is executed directly as it is executed otherwise. -/
theorem program_together (bound : Nat) (h : w.Agrees choice A)
    (houtside : w.Along choice [] w.left.current w.right.current) {statements : List Stmt}
    (hwf : Stmt.WellFormedList statements) (huses : ∀ u ∈ Stmt.usesList [] statements, A u) :
    Together choice A w (Run.program bound statements) (Direct.program choice bound statements)
      Effect := by
  induction statements generalizing w with
  | nil => exact flush_together h
  | cons s rest ih =>
    obtain ⟨huse, huses⟩ := List.forall_mem_append.mp huses
    -- outside of all scopes nothing is declared in one
    have hafter : Surroundings.after [] s = [] := by
      unfold Surroundings.after
      cases s.declared? <;> rfl
    rw [hafter] at huses
    refine ((AllTogether.all choice A bound).execute h houtside (fun _ _ hx => by cases hx) hwf.1
      huse).bind fun _ _ _ hkeeps₁ h₁ _ => ?_
    exact ih h₁ (hkeeps₁.along houtside) hwf.2 huses

end Programs

end Folding

end Lox
