import Lox.Proofs.Quiet

/-!
# Two evaluators

What two evaluators do with a program is the same in some respect if it is for the actions that they
are made of, and if it stays so when actions are put together. The induction over the constructs of
programs is done here once for all such relations. One of them is that an evaluator does what
another one does if it is forgotten what it notes.

## Key results

- `Evaluator.Compositional.program`: what relates the parts of two evaluators relates them
- `Act.Erases.bind`, `Act.Erases.within`: an action and what it notes besides
-/

namespace Lox

variable {σ τ Γ Δ Site Site' : Type}

/-! ## Relations between actions -/

/-- A relation that is kept when actions are put together. -/
structure Act.Congruent (R : (α : Type) → Act σ α → Act τ α → Prop) : Prop where
  pure : ∀ {α} (a : α), R α (Pure.pure a) (Pure.pure a)
  exhausted : ∀ {α}, R α (throw .exhausted) (throw .exhausted)
  bind : ∀ {α β} {p : Act σ α} {q : Act τ α} {f : α → Act σ β} {g : α → Act τ β},
    R α p q → (∀ a, R β (f a) (g a)) → R β (p >>= f) (q >>= g)

/-- A relation between the parts of which two declarations are made. What looks at the machine must
    not look at its sink. -/
structure Declaring.Compositional (D : Declaring σ Γ) (D' : Declaring τ Δ) (place : Γ → Δ)
    (R : (α : Type) → Act σ α → Act τ α → Prop) : Prop where
  congruent : Act.Congruent R
  quiet : ∀ {α} {action : Run α}, action.Quiet → R α (D.lift action) (D'.lift action)
  look : ∀ {α} {f : Machine → Act σ α} {g : Machine → Act τ α}, (∀ m, R α (f m) (g m)) →
    (∀ m s, g (m.withSink s) = g m) → R α (D.look f) (D'.look g)
  newClosure : ∀ at_, R _ (D.newClosure at_) (D'.newClosure (place at_))
  inSubclass : ∀ at_ name methods scope,
    D'.inSubclass (place at_) name methods scope = place (D.inSubclass at_ name methods scope)

namespace Declaring.Compositional

variable {D : Declaring σ Γ} {D' : Declaring τ Δ} {place : Γ → Δ}
  {R : (α : Type) → Act σ α → Act τ α → Prop} (h : Compositional D D' place R)

include h

/-- The declaration of a function. -/
theorem declareFunction (at_ : Γ) (declaration : FunctionDecl) :
    R _ (D.declareFunction at_ declaration) (D'.declareFunction (place at_) declaration) :=
  h.congruent.bind (h.newClosure at_) fun _ =>
    h.look (fun _ => h.congruent.bind (h.quiet (.defineHere _ _)) fun _ => h.congruent.pure _)
      fun _ _ => rfl

/-- The methods of a class. -/
theorem closeMethods (at_ : Γ) (scope : ScopeId) (methods : List FunctionDecl) :
    R _ (D.closeMethods at_ scope methods) (D'.closeMethods (place at_) scope methods) := by
  induction methods with
  | nil => exact h.congruent.pure _
  | cons d methods ih =>
    exact h.congruent.bind (h.newClosure at_) fun _ => h.congruent.bind ih fun _ =>
      h.congruent.pure _

/-- The scope for the methods of a class. -/
theorem openMethods (superclass : Option Class) :
    R _ (D.openMethods superclass) (D'.openMethods superclass) := by
  unfold Declaring.openMethods
  cases superclass with
  | none => exact h.look (fun _ => h.congruent.pure _) fun _ _ => rfl
  | some superclass =>
    refine h.look (fun m => ?_) fun _ _ => rfl
    exact h.congruent.bind (h.quiet (.openScope _)) fun _ =>
      h.congruent.bind (h.quiet (.define _ _ _)) fun _ => h.congruent.pure _

/-- The declaration of a class. -/
theorem declareClass (at_ : Γ) (name : Token) (superclass : Option Class)
    (methods : List FunctionDecl) :
    R _ (D.declareClass at_ name superclass methods)
      (D'.declareClass (place at_) name superclass methods) := by
  refine h.congruent.bind (h.quiet (.declareHere _)) fun _ =>
    h.congruent.bind (h.openMethods superclass) fun scope => ?_
  -- where the methods are declared depends on whether there is a scope for `super`
  have hplace : D'.methodsPlace (place at_) name superclass methods scope =
      place (D.methodsPlace at_ name superclass methods scope) := by
    cases superclass with
    | none => rfl
    | some superclass => exact h.inSubclass at_ name methods scope
  rw [hplace]
  exact h.congruent.bind (h.closeMethods _ scope methods) fun _ =>
    h.congruent.bind (h.quiet .freshObject) fun _ =>
      h.congruent.bind (h.quiet (.defineHere _ _)) fun _ => h.congruent.pure _

end Declaring.Compositional

/-! ## Relations between evaluators -/

/-- A relation between the parts of which two evaluators are made. The places and call sites of the
    one tell those of the other. -/
structure Evaluator.Compositional (E : Evaluator σ Γ Site) (F : Evaluator τ Δ Site')
    (place : Γ → Δ) (site : Site → Site') (R : (α : Type) → Act σ α → Act τ α → Prop) : Prop where
  congruent : Act.Congruent R
  quiet : ∀ {α} {action : Run α}, action.Quiet → R α (E.lift action) (F.lift action)
  emit : ∀ line, R _ (E.lift (Run.emit line)) (F.lift (Run.emit line))
  flush : R _ (E.lift Run.flush) (F.lift Run.flush)
  look : ∀ {α} {f : Machine → Act σ α} {g : Machine → Act τ α}, (∀ m, R α (f m) (g m)) →
    (∀ m s, g (m.withSink s) = g m) → R α (E.look f) (F.look g)
  inScope : ∀ {α} {p : Act σ α} {q : Act τ α} (scope : ScopeId), R α p q →
    R α (E.inScope scope p) (F.inScope scope q)
  duringCall : ∀ {α} {p : Act σ α} {q : Act τ α} (line : Nat), R α p q →
    R α (E.duringCall line p) (F.duringCall line q)
  naming : ∀ {α} {p : Act σ α} {q : Act τ α} (at_ : Γ) (reference : Reference), R α p q →
    R α (E.naming at_ reference p) (F.naming (place at_) reference q)
  bindMethod : ∀ method this, R _ (E.bindMethod method this) (F.bindMethod method this)
  newInstance : ∀ cls, R _ (E.newInstance cls) (F.newInstance cls)
  setField : ∀ id name v, R _ (E.setField id name v) (F.setField id name v)
  defineParams : ∀ scope params values,
    R _ (E.defineParams scope params values) (F.defineParams scope params values)
  declareFunction : ∀ at_ declaration,
    R _ (E.declareFunction at_ declaration) (F.declareFunction (place at_) declaration)
  declareClass : ∀ at_ name superclass methods,
    R _ (E.declareClass at_ name superclass methods)
      (F.declareClass (place at_) name superclass methods)
  calling : ∀ {p : Site → Act σ Value} {q : Site' → Act τ Value} (at_ : Γ) (call : Expr),
    (∀ s, R _ (p s) (q (site s))) → R _ (E.calling at_ call p) (F.calling (place at_) call q)
  answering : ∀ {p : Act σ Value} {q : Act τ Value} (callee : Value) (arguments : List Value),
    R _ p q → R _ (E.answering callee arguments p) (F.answering callee arguments q)
  entering : ∀ {p : ScopeId → Γ → Act σ Value} {q : ScopeId → Δ → Act τ Value} (s : Site)
    (c : Closure) (arguments : List Value), (∀ scope at_, R _ (p scope at_) (q scope (place at_))) →
    R _ (E.entering s c arguments p) (F.entering (site s) c arguments q)
  inBlock : ∀ {p : Γ → Act σ Flow} {q : Δ → Act τ Flow} (at_ : Γ) (body : List Stmt),
    (∀ at_, R _ (p at_) (q (place at_))) → R _ (E.inBlock at_ body p) (F.inBlock (place at_) body q)
  executing : ∀ {p : Act σ Flow} {q : Act τ Flow} (at_ : Γ) (s : Stmt), R _ p q →
    R _ (E.executing at_ s p) (F.executing (place at_) s q)
  looping : ∀ {p : Act σ Flow} {q : Act τ Flow} (at_ : Γ), R _ p q →
    R _ (E.looping at_ p) (F.looping (place at_) q)
  returning : ∀ at_ v, R _ (E.returning at_ v) (F.returning (place at_) v)

/-- Expressions one after the other. -/
theorem Act.Congruent.evaluateAll {R : (α : Type) → Act σ α → Act τ α → Prop}
    (hR : Act.Congruent R) {p : Expr → Act σ Value} {q : Expr → Act τ Value}
    (h : ∀ e, R _ (p e) (q e)) (es : List Expr) :
    R _ (Lox.evaluateAll p es) (Lox.evaluateAll q es) := by
  induction es with
  | nil => exact hR.pure _
  | cons e es ih => exact hR.bind (h e) fun _ => hR.bind ih fun _ => hR.pure _

/-- Statements one after the other. -/
theorem Act.Congruent.executeAll {R : (α : Type) → Act σ α → Act τ α → Prop}
    (hR : Act.Congruent R) {p : Stmt → Act σ Flow} {q : Stmt → Act τ Flow}
    (h : ∀ s, R _ (p s) (q s)) (body : List Stmt) :
    R _ (Lox.executeAll p body) (Lox.executeAll q body) := by
  induction body with
  | nil => exact hR.pure _
  | cons s body ih =>
    refine hR.bind (h s) fun flow => ?_
    cases flow with
    | normal => exact ih
    | returned v => exact hR.pure _

namespace Evaluator.Compositional

variable {E : Evaluator σ Γ Site} {F : Evaluator τ Δ Site'} {place : Γ → Δ} {site : Site → Site'}
  {R : (α : Type) → Act σ α → Act τ α → Prop} (hR : Compositional E F place site R)

include hR

/-- A failure on the line of a token. -/
theorem fail {α : Type} (t : Token) (fault : RuntimeFault) :
    R α (E.lift (Run.fail t fault)) (F.lift (Run.fail t fault)) :=
  hR.quiet (.fail t fault)

/-- A property of an instance. -/
theorem readProperty (id : InstanceId) (cls : Class) (name : Token) :
    R _ (E.readProperty id cls name) (F.readProperty id cls name) := by
  refine hR.look (fun m => ?_) fun _ _ => rfl
  cases (m.fields.getD id.index .empty).get? name.lexeme with
  | some v => exact hR.congruent.pure _
  | none =>
    cases cls.findMethod? name.lexeme with
    | some method =>
      exact hR.congruent.bind (hR.bindMethod _ _) fun _ => hR.congruent.pure _
    | none => exact hR.fail _ _

/-- A method of the superclass. -/
theorem readSuper (id : NodeId) (keyword method : Token) :
    R _ (E.readSuper id keyword method) (F.readSuper id keyword method) := by
  refine hR.look (fun m => ?_) fun _ _ => rfl
  -- a relation that holds of failures holds in all cases but one
  cases m.distances.get? id with
  | none => exact hR.fail _ _
  | some d =>
    dsimp only
    rcases m.scopes.getAt? m.current d "super" with _ | _ | superclass
    · exact hR.fail _ _
    · exact hR.fail _ _
    cases superclass with
    | class_ superclass =>
      cases d with
      | zero => exact hR.fail _ _
      | succ inner =>
        dsimp only
        rcases m.scopes.getAt? m.current inner "this" with _ | _ | this
        · exact hR.fail _ _
        · exact hR.fail _ _
        dsimp only
        cases superclass.findMethod? method.lexeme with
        | some found =>
          exact hR.congruent.bind (hR.bindMethod _ _) fun _ => hR.congruent.pure _
        | none => exact hR.fail _ _
    | _ => exact hR.fail _ _

omit hR in
/-- The relation holds of everything that is nested up to this bound. -/
structure Below (E : Evaluator σ Γ Site) (F : Evaluator τ Δ Site') (place : Γ → Δ)
    (site : Site → Site') (R : (α : Type) → Act σ α → Act τ α → Prop) (n : Nat) : Prop where
  evaluate : ∀ at_ e, R _ (E.evaluate at_ n e) (F.evaluate (place at_) n e)
  callValue : ∀ s v values, R _ (E.callValue s n v values) (F.callValue (site s) n v values)
  callClosure : ∀ s c values, R _ (E.callClosure s n c values) (F.callClosure (site s) n c values)
  execute : ∀ at_ s, R _ (E.execute at_ n s) (F.execute (place at_) n s)
  repeatWhile : ∀ at_ e s, R _ (E.repeatWhile at_ n e s) (F.repeatWhile (place at_) n e s)

variable {n : Nat}

/-- An expression is related if all that it runs with less fuel is. -/
theorem evaluate_succ (h : Below E F place site R n) (at_ : Γ) (e : Expr) :
    R _ (E.evaluate at_ (n + 1) e) (F.evaluate (place at_) (n + 1) e) := by
  have hR' := hR.congruent
  cases e with
  | literal => exact hR'.pure _
  | grouping => exact h.evaluate at_ _
  | unary => exact hR'.bind (h.evaluate at_ _) fun _ => hR.quiet (.ofOperator _ _)
  | binary =>
    exact hR'.bind (h.evaluate at_ _) fun _ => hR'.bind (h.evaluate at_ _) fun _ =>
      hR.quiet (.ofOperator _ _)
  | logical =>
    refine hR'.bind (h.evaluate at_ _) fun _ => ?_
    split
    · exact hR'.pure _
    · exact h.evaluate at_ _
  | var | this => exact hR.naming at_ _ (hR.quiet (.readVariable _ _))
  | assign =>
    exact hR'.bind (h.evaluate at_ _) fun _ =>
      hR'.bind (hR.naming at_ _ (hR.quiet (.writeVariable _ _ _))) fun _ => hR'.pure _
  | call callee paren arguments =>
    -- the call is only made on as many values as the callee takes
    refine hR'.bind (h.evaluate at_ _) fun v =>
      hR'.bind (hR'.evaluateAll (h.evaluate at_) _) fun values => ?_
    cases v.arity? with
    | none => exact hR.fail _ _
    | some arity =>
      dsimp only
      split
      · exact hR.calling at_ _ fun s => hR.duringCall _ (h.callValue s _ _)
      · exact hR.fail _ _
  | get =>
    refine hR'.bind (h.evaluate at_ _) fun v => ?_
    cases v with
    | instance_ => exact hR.readProperty _ _ _
    | _ => exact hR.fail _ _
  | set =>
    refine hR'.bind (h.evaluate at_ _) fun v => ?_
    cases v with
    | instance_ =>
      exact hR'.bind (h.evaluate at_ _) fun _ => hR'.bind (hR.setField _ _ _) fun _ => hR'.pure _
    | _ => exact hR.fail _ _
  | super => exact hR.naming at_ _ (hR.readSuper _ _ _)

/-- A call is related if all that it runs with less fuel is. -/
theorem callValue_succ (h : Below E F place site R n) (s : Site) (v : Value)
    (values : List Value) :
    R _ (E.callValue s (n + 1) v values) (F.callValue (site s) (n + 1) v values) := by
  have hR' := hR.congruent
  cases v with
  | native => exact hR.answering _ _ (hR.quiet (.callNative _ _))
  | function => exact h.callClosure s _ _
  | class_ c =>
    refine hR.answering _ _ (hR'.bind (hR.newInstance _) fun this => ?_)
    -- the value of the call is the instance, whatever the initializer returns
    cases c.findMethod? "init" with
    | none => exact hR'.pure _
    | some initializer =>
      exact hR'.bind (hR.bindMethod _ _) fun _ => hR'.bind (h.callClosure s _ _) fun _ =>
        hR'.pure _
  | _ => exact hR'.pure _

/-- A call of a function is related if all that it runs with less fuel is. -/
theorem callClosure_succ (h : Below E F place site R n) (s : Site) (c : Closure)
    (values : List Value) :
    R _ (E.callClosure s (n + 1) c values) (F.callClosure (site s) (n + 1) c values) :=
  hR.entering s c values fun scope at_ => hR.congruent.bind (hR.defineParams scope _ _) fun _ =>
    hR.congruent.bind (hR.inScope scope (hR.congruent.executeAll (h.execute at_) _)) fun _ =>
      hR.quiet (.callResult _ _)

/-- A statement is related if all that it runs with less fuel is. -/
theorem execute_succ (h : Below E F place site R n) (at_ : Γ) (s : Stmt) :
    R _ (E.execute at_ (n + 1) s) (F.execute (place at_) (n + 1) s) := by
  have hR' := hR.congruent
  -- what is noted around the statement is related, so only the statement itself is left
  refine hR.executing at_ s ?_
  cases s with
  | expression => exact hR'.bind (h.evaluate at_ _) fun _ => hR'.pure _
  | print => exact hR'.bind (h.evaluate at_ _) fun _ => hR'.bind (hR.emit _) fun _ => hR'.pure _
  | varDecl name initializer =>
    cases initializer with
    | none => exact hR'.bind (hR.quiet (.declareHere _)) fun _ => hR'.pure _
    | some =>
      exact hR'.bind (h.evaluate at_ _) fun _ => hR'.bind (hR.quiet (.defineHere _ _)) fun _ =>
        hR'.pure _
  | block body => exact hR.inBlock at_ body fun at_ => hR'.executeAll (h.execute at_) body
  | cond condition thenBranch elseBranch =>
    refine hR'.bind (h.evaluate at_ _) fun v => ?_
    split
    · exact h.execute at_ _
    · cases elseBranch with
      | some => exact h.execute at_ _
      | none => exact hR'.pure _
  | loop => exact h.repeatWhile at_ _ _
  | funDecl => exact hR'.bind (hR.declareFunction at_ _) fun _ => hR'.pure _
  | ret keyword value =>
    cases value with
    | none => exact hR.returning at_ _
    | some => exact hR'.bind (h.evaluate at_ _) fun _ => hR.returning at_ _
  | classDecl declaration =>
    obtain ⟨name, superclass, methods⟩ := declaration
    cases superclass with
    | none => exact hR'.bind (hR.declareClass at_ _ _ _) fun _ => hR'.pure _
    | some superclass =>
      exact hR'.bind (h.evaluate at_ _) fun _ => hR'.bind (hR.quiet (.asSuperclass _ _ _)) fun _ =>
        hR'.bind (hR.declareClass at_ _ _ _) fun _ => hR'.pure _

/-- A loop is related if each round is. -/
theorem repeatWhile_succ (h : Below E F place site R n) (at_ : Γ) (e : Expr) (s : Stmt) :
    R _ (E.repeatWhile at_ (n + 1) e s) (F.repeatWhile (place at_) (n + 1) e s) := by
  refine hR.looping at_ (hR.congruent.bind (h.evaluate at_ _) fun v => ?_)
  split
  · refine hR.congruent.bind (h.execute at_ _) fun flow => ?_
    cases flow with
    | normal => exact h.repeatWhile at_ _ _
    | returned => exact hR.congruent.pure _
  · exact hR.congruent.pure _

/-- By induction on the fuel, all that runs is related. -/
theorem below (n : Nat) : Below E F place site R n := by
  have hR' := hR.congruent
  induction n with
  | zero =>
    exact ⟨fun _ _ => hR'.exhausted, fun _ _ _ => hR'.exhausted, fun _ _ _ => hR'.exhausted,
      fun _ _ => hR'.exhausted, fun _ _ _ => hR'.exhausted⟩
  | succ n ih =>
    exact ⟨hR.evaluate_succ ih, hR.callValue_succ ih, hR.callClosure_succ ih, hR.execute_succ ih,
      hR.repeatWhile_succ ih⟩

/-- What relates the parts of two evaluators relates what they do with any program. -/
theorem program (at_ : Γ) (bound : Nat) (statements : List Stmt) :
    R _ (E.program at_ bound statements) (F.program (place at_) bound statements) := by
  induction statements with
  | nil => exact hR.flush
  | cons s statements ih => exact hR.congruent.bind ((hR.below bound).execute at_ s) fun _ => ih

end Evaluator.Compositional

/-! ## What an action notes besides -/

namespace Act

variable {α β : Type}

/-- The result of an action, with only a part of the state. -/
def forget (part : σ → τ) : EStateM.Result Abort σ α → EStateM.Result Abort τ α
  | .ok a s => .ok a (part s)
  | .error e s => .error e (part s)

/-- An action does to a part of the state what the other action does. -/
def Erases (part : σ → τ) (p : Act σ α) (q : Act τ α) : Prop :=
  ∀ s, forget part (p s) = q (part s)

/-- Does what the action does to a part of the state. -/
def onPart (part : σ → τ) (put : σ → τ → σ) (action : Act τ α) : Act σ α := fun s =>
  match action (part s) with
  | .ok a t => .ok a (put s t)
  | .error e t => .error e (put s t)

/-- An action on a part of the state that yields a value puts the new part in its place. -/
theorem onPart_of_ok {part : σ → τ} {put : σ → τ → σ} {action : Act τ α} {s : σ} {t : τ} {a : α}
    (h : action (part s) = .ok a t) : action.onPart part put s = .ok a (put s t) := by
  unfold onPart
  rw [h]

/-- An action on a part of the state that is aborted puts the new part in its place, too. -/
theorem onPart_of_error {part : σ → τ} {put : σ → τ → σ} {action : Act τ α} {s : σ} {t : τ}
    {e : Abort} (h : action (part s) = .error e t) :
    action.onPart part put s = .error e (put s t) := by
  unfold onPart
  rw [h]

namespace Erases

variable {part : σ → τ}

theorem pure (a : α) : Erases part (Pure.pure a) (Pure.pure a) :=
  fun _ => rfl

theorem throw (e : Abort) : Erases part (throw e : Act σ α) (throw e) :=
  fun _ => rfl

/-- What is done to the part is done. -/
theorem onPart {put : σ → τ → σ} (hput : ∀ s t, part (put s t) = t) (action : Act τ α) :
    Erases part (action.onPart part put) action := by
  intro s
  unfold Act.onPart
  cases action (part s) <;> simp only [forget, hput]

/-- In a sequence both actions do the same without what is noted. -/
theorem bind {p : Act σ α} {q : Act τ α} {f : α → Act σ β} {g : α → Act τ β}
    (h : Erases part p q) (hf : ∀ a, Erases part (f a) (g a)) :
    Erases part (p >>= f) (q >>= g) := by
  intro s
  have hp := h s
  -- both actions end in the same way, so either both sequences go on or neither
  cases hrun : p s with
  | ok a s' =>
    rw [hrun] at hp
    rw [bind_apply_of_ok hrun, bind_apply_of_ok hp.symm]
    exact hf a s'
  | error e s' =>
    rw [hrun] at hp
    rw [bind_apply_of_error hrun, bind_apply_of_error hp.symm]
    rfl

/-- Something is noted before an action. -/
theorem after {p : Act σ α} {q : Act τ α} {f : σ → σ} (hf : ∀ s, part (f s) = part s)
    (h : Erases part p q) : Erases part (do modify f; p) q := by
  intro s
  rw [← hf s]
  exact h (f s)

/-- Looking at the state. -/
theorem get {f : σ → Act σ β} {g : τ → Act τ β} (h : ∀ s, Erases part (f s) (g (part s))) :
    Erases part (do let s ← MonadState.get; f s) (do let t ← MonadState.get; g t) :=
  fun s => h s s

/-- What is prepared for the part is put back in it. -/
theorem within {prepare : σ → σ} {putBack : σ → σ → σ} {prepare' : τ → τ} {putBack' : τ → τ → τ}
    {p : Act σ α} {q : Act τ α} (hprepare : ∀ s, part (prepare s) = prepare' (part s))
    (hputBack : ∀ s s', part (putBack s s') = putBack' (part s) (part s')) (h : Erases part p q) :
    Erases part (p.within prepare putBack) (q.within prepare' putBack') := by
  intro s
  have hp := h (prepare s)
  rw [hprepare] at hp
  unfold Act.within
  -- the surroundings are put back on both ways out
  cases hrun : p (prepare s) with
  | ok a s' | error e s' =>
    rw [hrun] at hp
    simp only [← hp, forget, hputBack]

/-- Doing the same without what is noted goes with all that actions are composed of. -/
theorem congruent (part : σ → τ) : Congruent fun _ => Erases part :=
  ⟨pure, throw .exhausted, bind⟩

end Erases

end Act

end Lox
