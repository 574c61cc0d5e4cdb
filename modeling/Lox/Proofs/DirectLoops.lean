import Lox.Machine.Eval
import Lox.Proofs.Uses

/-!
# Direct loops

A `for` is written with `while` and blocks. If it has an increment, a block stands around its body
and the increment, so a scope is opened for each round. A direct execution opens none: it goes on in
the scope around the loop. Apart from this it does what every execution does.

Which blocks are treated like this is up to a choice. They consist of a statement that declares
nothing and an expression, so they need no scope; but where none is opened, there are fewer scopes
between a name and its declaration, and references have other distances.

## Key results

- `Direct.execute_forLoop`: what a `for` stands for is executed as a direct loop
- `Direct.program_eq`: where no block is chosen, a program is executed as always
- `Program.Accepted.get?_directDistances`: what a direct execution knows of a program
-/

namespace Lox

/-- Which blocks of a body and an increment open no scope. -/
abbrev Choice :=
  Stmt → Expr → Bool

/-- Does a block open no scope? Such a block declares nothing. -/
def Choice.isBare (choice : Choice) : List Stmt → Bool
  | [body, .expression increment] => body.declared?.isNone && choice body increment
  | _ => false

namespace Direct

/-! ## Execution -/

section Execution

variable (choice : Choice)

/-- The evaluator that opens no scopes for chosen blocks. -/
@[reducible]
def evaluator : Evaluator Machine Unit Unit :=
  { Run.evaluator with
    inBlock := fun place body action =>
      -- the only difference
      if choice.isBare body then action () else Run.evaluator.inBlock place body action }

/-- The value of an expression. -/
abbrev evaluate (bound : Nat) (e : Expr) : Run Value :=
  (evaluator choice).evaluate () bound e

/-- Calls a value that can be called, with as many arguments as it takes. -/
abbrev callValue (bound : Nat) (callee : Value) (values : List Value) : Run Value :=
  (evaluator choice).callValue () bound callee values

/-- Calls a function. -/
abbrev callClosure (bound : Nat) (c : Closure) (values : List Value) : Run Value :=
  (evaluator choice).callClosure () bound c values

/-- Executes a statement. -/
abbrev execute (bound : Nat) (s : Stmt) : Run Flow :=
  (evaluator choice).execute () bound s

/-- Executes a statement again and again, as long as the condition holds before. -/
abbrev repeatWhile (bound : Nat) (condition : Expr) (body : Stmt) : Run Flow :=
  (evaluator choice).repeatWhile () bound condition body

/-- Executes a whole program and flushes its output. -/
abbrev program (bound : Nat) (statements : List Stmt) : Run Unit :=
  (evaluator choice).program () bound statements

/-! ## Loops -/

/-- Does the condition of a loop hold? It does if there is none. -/
def holds (bound : Nat) : (condition : Option Expr) → Run Bool
  | none => return true
  | some condition => do
    let v ← evaluate choice bound condition
    return v.isTruthy

/-- One round of a loop: its body, and then the increment in the same scope. If the body returns,
    there is no increment. -/
def round (bound : Nat) (body : Stmt) : (increment : Option Expr) → Run Flow
  | none => execute choice bound body
  | some increment => do
    match ← execute choice (bound - 1) body with
    | .normal =>
      let _ ← evaluate choice (bound - 2) increment
      return .normal
    | .returned v => return .returned v

/-- The rounds of a loop, all in the same scope. The condition is evaluated before each of them. -/
def rounds (condition increment : Option Expr) (body : Stmt) : (bound : Nat) → Run Flow
  | 0 => throw .exhausted
  | n + 1 => do
    if ← holds choice n condition then
      match ← round choice n body increment with
      | .normal => rounds condition increment body n
      | .returned v => return .returned v
    else
      return .normal

/-- A loop with up to three clauses. One scope is opened for the initializer, and all the rest is
    done in it. -/
def forLoop (bound : Nat) (initializer : Option Stmt) (condition increment : Option Expr)
    (body : Stmt) : Run Flow :=
  match initializer with
  | none => rounds choice condition increment body bound
  | some initializer => do
    let scope ← Run.openScope (← get).current
    Run.inScope scope do
      match ← execute choice bound initializer with
      | .normal => rounds choice condition increment body (bound - 1)
      | .returned v => return .returned v

end Execution

variable {choice : Choice}

/-- The scope of a block is opened unless it is chosen. -/
theorem execute_block (n : Nat) (body : List Stmt) :
    execute choice (n + 1) (.block body) =
      if choice.isBare body then executeAll (execute choice n) body
      else (do
        let scope ← Run.openScope (← get).current
        Run.inScope scope (executeAll (execute choice n) body)) :=
  rfl

/-- The condition of a loop is evaluated before each round. -/
theorem repeatWhile_succ (n : Nat) (condition : Expr) (body : Stmt) :
    repeatWhile choice (n + 1) condition body = (do
      let v ← evaluate choice n condition
      if v.isTruthy then
        match ← execute choice n body with
        | .normal => repeatWhile choice n condition body
        | .returned v => return .returned v
      else
        return .normal) :=
  rfl

/-- Two statements one after the other. -/
private theorem executeAll_pair (execute : Stmt → Run Flow) (s t : Stmt) :
    executeAll execute [s, t] = do
      match ← execute s with
      | .normal => execute t
      | .returned v => return .returned v := by
  -- behind the last statement nothing is done but to pass on how it ended
  have hlast : executeAll execute [t] = execute t :=
    calc executeAll execute [t]
      _ = execute t >>= pure := by
        rw [executeAll]
        refine bind_congr fun flow => ?_
        cases flow with
        | normal => rfl
        | returned v => rfl
      _ = execute t := bind_pure _
  rw [executeAll]
  refine bind_congr fun flow => ?_
  cases flow with
  | normal => exact hlast
  | returned v => rfl

/-- One round, as what a `for` stands for has it. -/
private def roundTree (body : Stmt) : (increment : Option Expr) → Stmt
  | none => body
  | some increment => .block [body, .expression increment]

/-- The statement of a round runs as a round. -/
private theorem execute_round {body : Stmt} {increment : Option Expr}
    (hbody : body.declared? = none) (hchoice : ∀ e ∈ increment, choice body e) (n : Nat) :
    execute choice n (roundTree body increment) = round choice n body increment := by
  cases increment with
  | none => rfl
  | some increment =>
    -- the block of this round is one that is left out
    have hbare : choice.isBare [body, .expression increment] = true := by
      simp [Choice.isBare, hbody, hchoice increment rfl]
    cases n with
    | zero => rfl
    | succ m =>
      rw [roundTree, execute_block, if_pos hbare, executeAll_pair]
      cases m with
      | zero => rfl
      | succ k => rfl

/-- The loop of a `for` statement runs as rounds. -/
private theorem repeatWhile_eq_rounds {condition : Option Expr} {body : Stmt}
    {increment : Option Expr} (hbody : body.declared? = none)
    (hchoice : ∀ e ∈ increment, choice body e) (n : Nat) :
    repeatWhile choice n (condition.getD (.literal .true)) (roundTree body increment) =
      rounds choice condition increment body n := by
  induction n with
  | zero => rfl
  | succ n ih =>
    rw [rounds, repeatWhile_succ, execute_round hbody hchoice, ih]
    cases condition with
    | none =>
      cases n with
      | zero =>
        -- nothing is left for the condition, and nothing for the round either
        have hround : round choice 0 body increment = throw .exhausted := by
          cases increment <;> rfl
        simp only [holds, pure_bind, hround]
        rfl
      | succ k => simp [Evaluator.evaluate, holds, Value.ofLiteral, Value.isTruthy]
    | some condition => simp [holds]

/-- What a `for` stands for is executed as a direct loop. -/
theorem execute_forLoop {body : Stmt} {increment : Option Expr} (hbody : body.declared? = none)
    (hchoice : ∀ e ∈ increment, choice body e) (initializer : Option Stmt)
    (condition : Option Expr) (n : Nat) :
    execute choice (n + 1) (.forLoop initializer condition increment body) =
      forLoop choice n initializer condition increment body := by
  -- without its initializer
  have hrounds : ∀ n, execute choice (n + 1) (.forLoop none condition increment body) =
      rounds choice condition increment body n := by
    intro n
    have htree : Stmt.forLoop none condition increment body =
        .loop (condition.getD (.literal .true)) (roundTree body increment) := by
      cases increment <;> rfl
    rw [htree]
    exact repeatWhile_eq_rounds hbody hchoice n
  cases initializer with
  | none => exact hrounds n
  | some initializer =>
    have htree : Stmt.forLoop (some initializer) condition increment body =
        .block [initializer, .forLoop none condition increment body] := rfl
    -- this block does not consist of a body and an increment
    have hbare : choice.isBare [initializer, .forLoop none condition increment body] = false := rfl
    rw [htree, execute_block, hbare, forLoop, executeAll_pair]
    cases n with
    | zero => rfl
    | succ k => simp only [hrounds, Nat.add_sub_cancel]; rfl

/-! ## No choice -/

/-- Where no block is chosen, a program is executed as always. -/
theorem program_eq (hnone : ∀ body, choice.isBare body = false) (bound : Nat)
    (statements : List Stmt) : program choice bound statements = Run.program bound statements := by
  have hsame : evaluator choice = Run.evaluator := by simp [evaluator, hnone]
  rw [program, hsame]

end Direct

/-! ## Distances -/

/-- Does it open no scope of a direct execution? -/
def Opener.isBare (choice : Choice) : Opener → Bool
  | block body => choice.isBare body
  | _ => false

/-- The scopes around a place that a direct execution opens. -/
def Surroundings.direct (choice : Choice) (around : Surroundings) : Surroundings :=
  around.filter fun x => !x.opener.isBare choice

/-- The number of those scopes between the node and the innermost one that declares its name. -/
def Use.directDistance? (choice : Choice) (u : Use) : Option Nat :=
  (u.around.direct choice).distance? u.reference.name.lexeme

/-- The distances of a program that is executed directly. -/
def Program.directDistances (choice : Choice) (p : Program) : List (NodeId × Nat) :=
  p.uses.filterMap fun u => (u.directDistance? choice).map fun d => (u.reference.id, d)

namespace Program.Accepted

variable {p : Program} {n n' : Nat}

/-- What a direct execution knows of the uses of a program. -/
theorem get?_directDistances (h : p.Accepted n n') (choice : Choice) {u : Use} (hu : u ∈ p.uses)
    {t : Distances} (ht : t.get? u.reference.id = none) :
    (t.insertAll (p.directDistances choice)).get? u.reference.id = u.directDistance? choice := by
  refine Distances.get?_insertAll_of_mem_iff t (fun d => ?_) ht
  rw [Program.directDistances, List.mem_filterMap]
  -- no two uses have the same identity, so an entry for it is that of this use
  constructor
  · rintro ⟨u', hu', heq⟩
    obtain ⟨d', hd', heq⟩ := Option.map_eq_some_iff.mp heq
    obtain ⟨hid, rfl⟩ := Prod.mk.inj heq
    rwa [h.eq_of_id_eq hu hu' hid.symm]
  · intro hd
    exact ⟨u, hu, by rw [hd]; rfl⟩

/-- It knows nothing of the nodes of other programs. -/
theorem get?_directDistances_of_lt (h : p.Accepted n n') (choice : Choice) {t : Distances}
    {id : NodeId} (hid : id.index < n ∨ n' ≤ id.index) :
    (t.insertAll (p.directDistances choice)).get? id = t.get? id := by
  refine Distances.get?_insertAll_of_not_mem t fun d hd => ?_
  obtain ⟨u, hu, heq⟩ := List.mem_filterMap.mp hd
  obtain ⟨d', -, heq⟩ := Option.map_eq_some_iff.mp heq
  obtain ⟨rfl, -⟩ := Prod.mk.inj heq
  have hbounds := h.bounds hu
  omega

end Program.Accepted

end Lox
