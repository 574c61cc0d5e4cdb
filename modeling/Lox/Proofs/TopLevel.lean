import Lox.Proofs.Quiet
import Lox.Proofs.Told

/-!
# Statements outside of functions

In a program that has been accepted every `return` stands in a function or method. So a statement of
the program, when it is executed outside of functions, never ends as one that returns, however deep
blocks, branches and loops are nested in it.

## Key results

- `Stmt.withoutReturn_of_noFault`: what the resolver demands of `return`
- `Run.execute_normal`: how such statements end
- `Session.Told.withoutReturn`: the programs of a session
-/

namespace Lox

namespace Stmt

mutual

/-- No `return` is executed with the statement, but for those of functions that are called. -/
def WithoutReturn : Stmt → Prop
  | block body => WithoutReturnList body
  | cond _ thenBranch none => thenBranch.WithoutReturn
  | cond _ thenBranch (some elseBranch) => thenBranch.WithoutReturn ∧ elseBranch.WithoutReturn
  | loop _ body => body.WithoutReturn
  | ret _ _ => False
  | _ => True

/-- No `return` is executed with any of the statements. -/
def WithoutReturnList : List Stmt → Prop
  | [] => True
  | s :: rest => s.WithoutReturn ∧ WithoutReturnList rest

end

/-- Statements are without `return` just if each of them is. -/
theorem withoutReturnList_iff {body : List Stmt} :
    WithoutReturnList body ↔ ∀ s ∈ body, s.WithoutReturn := by
  induction body with
  | nil => simp [WithoutReturnList]
  | cons s rest ih => simp [WithoutReturnList, ih]

mutual

/-- Outside of functions the resolver accepts no `return`. -/
theorem withoutReturn_of_noFault {cls : ClassContext} {scopes : StaticScopes} (s : Stmt)
    (h : NoFault (s.resolve ⟨.none, cls⟩ scopes).2) : s.WithoutReturn := by
  match s with
  | expression _ | print _ | varDecl _ _ | funDecl _ | classDecl _ => trivial
  | block body => exact withoutReturnList_of_noFault body h
  | cond condition thenBranch none =>
    have hresolve : (resolve ⟨.none, cls⟩ scopes (cond condition thenBranch none)).2 =
        condition.resolve cls scopes ++ (thenBranch.resolve ⟨.none, cls⟩ scopes).2 := rfl
    rw [hresolve, NoFault.append_iff] at h
    exact thenBranch.withoutReturn_of_noFault h.2
  | cond condition thenBranch (some elseBranch) =>
    have hresolve : (resolve ⟨.none, cls⟩ scopes (cond condition thenBranch (some elseBranch))).2 =
        condition.resolve cls scopes ++ (thenBranch.resolve ⟨.none, cls⟩ scopes).2 ++
          (elseBranch.resolve ⟨.none, cls⟩ (thenBranch.resolve ⟨.none, cls⟩ scopes).1).2 := rfl
    rw [hresolve, NoFault.append_iff, NoFault.append_iff] at h
    exact ⟨thenBranch.withoutReturn_of_noFault h.1.2, elseBranch.withoutReturn_of_noFault h.2⟩
  | loop condition body =>
    have hresolve : (resolve ⟨.none, cls⟩ scopes (loop condition body)).2 =
        condition.resolve cls scopes ++ (body.resolve ⟨.none, cls⟩ scopes).2 := rfl
    rw [hresolve, NoFault.append_iff] at h
    exact body.withoutReturn_of_noFault h.2
  -- here a fault is found
  | ret keyword value => exact absurd List.mem_cons_self (h ⟨.topLevelReturn, keyword⟩)

/-- Statements in which the resolver finds no fault, outside of functions, are without `return`. -/
theorem withoutReturnList_of_noFault {cls : ClassContext} {scopes : StaticScopes} (body : List Stmt)
    (h : NoFault (resolveList ⟨.none, cls⟩ scopes body).2) : WithoutReturnList body := by
  match body with
  | [] => trivial
  | s :: rest =>
    have hresolve : (resolveList ⟨.none, cls⟩ scopes (s :: rest)).2 =
        (s.resolve ⟨.none, cls⟩ scopes).2 ++
          (resolveList ⟨.none, cls⟩ (s.resolve ⟨.none, cls⟩ scopes).1 rest).2 := rfl
    rw [hresolve, NoFault.append_iff] at h
    exact ⟨s.withoutReturn_of_noFault h.1, withoutReturnList_of_noFault rest h.2⟩

end

end Stmt

/-- In a program that is accepted every `return` stands in a function. -/
theorem Program.withoutReturn {text : String} {n n' : Nat} {p : Program}
    (h : Program.compile text n = (.ok p, n')) : Stmt.WithoutReturnList p.statements := by
  obtain ⟨-, -, hresolved, rfl, -⟩ := Program.compile_eq_ok_iff.mp h
  exact Stmt.withoutReturnList_of_noFault _ (Resolution.noFault_of_errors hresolved)

/-! ## How statements end -/

namespace Run

/-- If the action succeeds, it ends as one that does not return. -/
def EndsNormally (p : Run Flow) : Prop :=
  ∀ m flow m', p m = .ok flow m' → flow = .normal

namespace EndsNormally

variable {α : Type}

theorem pure : EndsNormally (pure .normal) := by
  intro m flow m' h
  cases h
  rfl

/-- A sequence ends normally if the second action does. -/
theorem bind {p : Run α} {f : α → Run Flow} (hf : ∀ a, EndsNormally (f a)) :
    EndsNormally (p >>= f) := by
  intro m flow m' h
  cases hrun : p m with
  | ok a m'' =>
    rw [bind_apply_of_ok hrun] at h
    exact hf a m'' flow m' h
  | error e m'' =>
    rw [bind_apply_of_error hrun] at h
    cases h

/-- The scope in which an action runs has no part in how it ends. -/
theorem inScope {p : Run Flow} (scope : ScopeId) (hp : EndsNormally p) :
    EndsNormally (Run.inScope scope p) := by
  intro m flow m' h
  unfold Run.inScope at h
  -- putting the scope back changes the machine, not how the action has ended
  cases hrun : p { m with current := scope } with
  | ok flow' m'' =>
    rw [Act.within_of_ok hrun] at h
    cases h
    exact hp _ flow m'' hrun
  | error e m'' =>
    rw [Act.within_of_error hrun] at h
    cases h

/-- Statements one after the other, of which each is executed only if those before it have not
    returned. -/
theorem andThen {p q : Run Flow} (hp : EndsNormally p) (hq : EndsNormally q) :
    EndsNormally (do
      match ← p with
      | .normal => q
      | .returned v => return .returned v) := by
  intro m flow m' h
  cases hrun : p m with
  | ok flow' m'' =>
    -- the first one ends normally, so the second is reached
    obtain rfl := hp m flow' m'' hrun
    rw [bind_apply_of_ok hrun] at h
    exact hq m'' flow m' h
  | error e m'' =>
    rw [bind_apply_of_error hrun] at h
    cases h

/-- Statements end normally if each of them does. -/
theorem executeAll {execute : Stmt → Run Flow} {body : List Stmt}
    (h : ∀ s ∈ body, EndsNormally (execute s)) : EndsNormally (Lox.executeAll execute body) := by
  induction body with
  | nil => exact pure
  | cons s rest ih =>
    exact andThen (h s List.mem_cons_self) (ih fun s hs => h s (List.mem_cons_of_mem _ hs))

end EndsNormally

/-- What is without `return` ends normally, by induction on the fuel. -/
private theorem ends_normally (n : Nat) :
    (∀ s : Stmt, s.WithoutReturn → EndsNormally (execute n s)) ∧
    ∀ (condition : Expr) (body : Stmt), body.WithoutReturn →
      EndsNormally (repeatWhile n condition body) := by
  -- the bound is one for both, so that rounds of loops are taken together with statements
  induction n with
  | zero => refine ⟨fun s _ m flow m' h => ?_, fun condition body _ m flow m' h => ?_⟩ <;> cases h
  | succ n ih =>
    obtain ⟨ihexecute, ihwhile⟩ := ih
    refine ⟨fun s hs => ?_, fun condition body hbody => ?_⟩
    · cases s with
      | expression value => exact .bind fun _ => .pure
      | print value => exact .bind fun _ => .bind fun _ => .pure
      | varDecl name initializer =>
        cases initializer with
        | none => exact .bind fun _ => .pure
        | some initializer => exact .bind fun _ => .bind fun _ => .pure
      | block body =>
        refine .bind fun m => .bind fun scope => .inScope scope (.executeAll fun s hmem => ?_)
        exact ihexecute s (Stmt.withoutReturnList_iff.mp hs s hmem)
      | cond condition thenBranch elseBranch =>
        refine .bind fun v => ?_
        cases elseBranch with
        | none =>
          split
          · exact ihexecute thenBranch hs
          · exact .pure
        | some elseBranch =>
          split
          · exact ihexecute thenBranch hs.1
          · exact ihexecute elseBranch hs.2
      | loop condition body => exact ihwhile condition body hs
      | funDecl declaration => exact .bind fun _ => .pure
      | ret keyword value => exact hs.elim
      | classDecl declaration =>
        obtain ⟨name, superclass, methods⟩ := declaration
        cases superclass with
        | none => exact .bind fun _ => .pure
        | some superclass => exact .bind fun _ => .bind fun _ => .bind fun _ => .pure
    · refine .bind fun v => ?_
      split
      · exact .andThen (ihexecute body hbody) (ihwhile condition body hbody)
      · exact .pure

/-- A statement in which every `return` stands in a function never ends as one that returns. -/
theorem execute_normal {s : Stmt} (hs : s.WithoutReturn) {n : Nat} {m m' : Machine} {flow : Flow}
    (h : execute n s m = .ok flow m') : flow = .normal :=
  (ends_normally n).1 s hs m flow m' h

end Run

namespace Session.Told

variable {s : Session} {c : Chronicle} {programs : List Program}

/-- The programs of a session have been accepted. -/
theorem compiled (h : Told s c programs) {p : Program} (hp : p ∈ programs) :
    ∃ text n n', Program.compile text n = (.ok p, n') := by
  induction h with
  | start => exact absurd hp List.not_mem_nil
  | @compile s c programs text h ih =>
    rcases List.mem_append.mp hp with hp | hp
    · rw [Session.compile] at hp
      -- a refused text adds no program
      rcases hcompile : Program.compile text s.nextId with ⟨report | q, n'⟩
      · simp [hcompile] at hp
      · simp only [hcompile, Option.toList_some, List.mem_singleton] at hp
        exact ⟨text, s.nextId, n', hp ▸ hcompile⟩
    · exact ih hp
  | execute _ _ _ ih | resetGlobals _ ih | resetReport _ ih | defineNative _ _ ih => exact ih hp

/-- Each statement of a program in a session never returns. -/
theorem withoutReturn (h : Told s c programs) {p : Program} (hp : p ∈ programs) :
    Stmt.WithoutReturnList p.statements := by
  obtain ⟨text, n, n', hcompile⟩ := h.compiled hp
  exact Program.withoutReturn hcompile

end Session.Told

end Lox
