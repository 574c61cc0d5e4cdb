import Lox.Proofs.ParseSound
import Lox.Syntax.Reference

/-!
# Nothing is used twice

A parser puts the tokens that it consumes and the identities that it hands out into its tree, each
at most once, whether it notes errors or not: an assignment takes over the name of its target but
not its identity, a `for` moves its parts, and what belongs to a failed statement is dropped. To say
so, tokens and identities are given weights. What the tree weighs and what there is left to take
never weigh more, together, than what there was to take before.

## Key results

- `Stmt.tallyList`: what the tokens and identities of statements weigh
- `Parser.Frugal`: a tree weighs at most what has been taken for it
- `Parsed.tallyList_ofTokens`: whole programs, with all their errors
- `Stmt.tallyList_identity`: how often an identity stands in a tree
-/

namespace Lox

/-- What the elements of a list weigh together. -/
def total {α : Type} (weight : α → Nat) : List α → Nat
  | [] => 0
  | a :: rest => weight a + total weight rest

/-- Weights of tokens and identities. -/
structure Tally where
  token : Token → Nat
  id : NodeId → Nat
  /-- What all identities weigh together from a number on. -/
  supply : Nat → Nat
  supply_le : ∀ n, id ⟨n⟩ + supply (n + 1) ≤ supply n

namespace Tally

variable (w : Tally)

/-- What tokens weigh together. -/
def tokens : List Token → Nat :=
  total w.token

/-- What there is left to take. -/
def left (s : ParserState) : Nat :=
  w.tokens s.rest + w.supply s.nextId

end Tally

/-! ## What trees weigh -/

namespace Expr

mutual

/-- What the tokens and identities in an expression weigh. -/
def tally (w : Tally) : Expr → Nat
  | literal _ => 0
  | grouping inner => inner.tally w
  | unary operator operand => w.token operator + operand.tally w
  | binary operator left right => left.tally w + w.token operator + right.tally w
  | logical operator left right => left.tally w + w.token operator + right.tally w
  | var id name => w.id id + w.token name
  | assign id name value => w.id id + w.token name + value.tally w
  | call callee paren arguments => callee.tally w + tallyList w arguments + w.token paren
  | get object name => object.tally w + w.token name
  | set object name value => object.tally w + w.token name + value.tally w
  | this id keyword => w.id id + w.token keyword
  | super id keyword method => w.id id + w.token keyword + w.token method

/-- What the tokens and identities in several expressions weigh. -/
def tallyList (w : Tally) : List Expr → Nat
  | [] => 0
  | e :: rest => e.tally w + tallyList w rest

end

/-- The tally of a list of expressions is the sum of theirs. -/
theorem tallyList_eq_total (w : Tally) (es : List Expr) :
    tallyList w es = total (tally w) es := by
  induction es with
  | nil => rfl
  | cons e es ih => simp [tallyList, total, ih]

/-- What the tokens and identities in an expression weigh that may be missing. -/
def tallyOption (w : Tally) : Option Expr → Nat
  | none => 0
  | some e => e.tally w

end Expr

namespace Stmt

mutual

/-- What the tokens and identities in a statement weigh. -/
def tally (w : Tally) : Stmt → Nat
  | expression value => value.tally w
  | print value => value.tally w
  | varDecl name initializer => w.token name + Expr.tallyOption w initializer
  | block body => tallyList w body
  | cond condition thenBranch none => condition.tally w + thenBranch.tally w
  | cond condition thenBranch (some elseBranch) =>
    condition.tally w + thenBranch.tally w + elseBranch.tally w
  | loop condition body => condition.tally w + body.tally w
  | funDecl declaration => tallyFunction w declaration
  | ret keyword value => w.token keyword + Expr.tallyOption w value
  | classDecl ⟨name, superclass, methods⟩ =>
    w.token name + Expr.tallyOption w superclass + tallyMethods w methods

/-- What the tokens and identities in several statements weigh. -/
def tallyList (w : Tally) : List Stmt → Nat
  | [] => 0
  | s :: rest => s.tally w + tallyList w rest

/-- What the tokens and identities in a function weigh. -/
def tallyFunction (w : Tally) : FunctionDecl → Nat
  | ⟨name, params, body⟩ => w.token name + w.tokens params + tallyList w body

/-- What the tokens and identities in the methods of a class weigh. -/
def tallyMethods (w : Tally) : List FunctionDecl → Nat
  | [] => 0
  | d :: rest => tallyFunction w d + tallyMethods w rest

end

variable {w : Tally}

/-- Two lists of statements together weigh what each of them does. -/
theorem tallyList_append (ss ss' : List Stmt) :
    tallyList w (ss ++ ss') = tallyList w ss + tallyList w ss' := by
  induction ss with
  | nil => simp [tallyList]
  | cons s ss ih => simp [tallyList, ih, Nat.add_assoc]

/-- A `for` weighs what its parts weigh. -/
theorem tally_forLoop (initializer : Option Stmt) (test increment : Option Expr) (body : Stmt) :
    (forLoop initializer test increment body).tally w =
      tallyList w initializer.toList + Expr.tallyOption w test + Expr.tallyOption w increment +
        body.tally w := by
  cases initializer <;> cases test <;> cases increment <;>
    simp [forLoop, tally, tallyList, Expr.tally, Expr.tallyOption] <;> omega

end Stmt

/-! ## Frugal parsers -/

namespace Parser

variable {α β : Type} {w : Tally} {before : Nat} {s : ParserState}

/-- With so much in hand, the parser's result weighs at most what it had in hand and what it has
    taken. A failed parser has taken what it has taken. -/
def Frugal (w : Tally) (before : Nat) (p : Parser α) (s : ParserState) (weight : α → Nat) : Prop :=
  match p.run s with
  | .ok a s' => weight a + w.left s' ≤ before + w.left s
  | .error _ s' => w.left s' ≤ w.left s

/-- A token is taken off the front. -/
theorem left_advance (h : s.atEnd = false) : w.token s.current + w.left s.advance = w.left s := by
  obtain ⟨rest, position, nextId, errors⟩ := s
  cases rest with
  | nil => simp [ParserState.atEnd, ParserState.current, Token.eof] at h
  | cons t rest =>
    simp only [ParserState.advance, h, ParserState.current, Tally.left, Tally.tokens]
    simp [total, Nat.add_assoc]

namespace Frugal

variable {p : Parser α} {f : α → Parser β} {weight weight' : α → Nat} {weight'' : β → Nat}

/-- More can be in hand. -/
theorem more (h : Frugal w 0 p s weight) : Frugal w before p s weight := by
  unfold Frugal at h ⊢
  cases hp : p.run s with
  | error e s' =>
    rw [hp] at h
    exact h
  | ok a s' =>
    rw [hp] at h
    dsimp only at h ⊢
    omega

/-- What the first parser yields is in hand for the second, which starts where the first has ended.
    -/
theorem bind_of_run (hp : Frugal w 0 p s weight)
    (hf : ∀ a s', p.run s = .ok a s' → Frugal w (before + weight a) (f a) s' weight'') :
    Frugal w before (p >>= f) s weight'' := by
  unfold Frugal at hp ⊢
  simp only [EStateM.run_bind]
  cases h : p.run s with
  | error e s' =>
    rw [h] at hp
    exact hp
  | ok a s' =>
    rw [h] at hp
    have hf := hf a s' h
    unfold Frugal at hf
    dsimp only at hp ⊢
    -- what the first has left over is what the second starts with, so the sums telescope
    cases h' : (f a).run s' with
    | error e s'' =>
      rw [h'] at hf
      dsimp only at hf ⊢
      omega
    | ok b s'' =>
      rw [h'] at hf
      dsimp only at hf ⊢
      omega

/-- In a sequence the second parser may use up what the first one leaves. -/
theorem bind (hp : Frugal w 0 p s weight)
    (hf : ∀ a s', Frugal w (before + weight a) (f a) s' weight'') :
    Frugal w before (p >>= f) s weight'' :=
  hp.bind_of_run fun a s' _ => hf a s'

theorem pure {a : α} (h : weight a ≤ before) : Frugal w before (Pure.pure a) s weight :=
  Nat.add_le_add_right h _

/-- A result that weighs no more costs no more. -/
theorem map {g : α → β} (hp : Frugal w 0 p s weight) (hg : ∀ a, weight'' (g a) ≤ weight a) :
    Frugal w 0 (g <$> p) s weight'' := by
  rw [← bind_pure_comp]
  exact hp.bind fun a s' => pure (Nat.le_trans (hg a) (Nat.le_add_left _ _))

/-- Looking at the state costs nothing. -/
theorem get_bind {f : ParserState → Parser β} (h : Frugal w before (f s) s weight'') :
    Frugal w before (get >>= f) s weight'' :=
  h

/-- Looking at a kind costs nothing. -/
theorem peekKind_bind {f : TokenKind → Parser β}
    (h : Frugal w before (f s.current.kind) s weight'') :
    Frugal w before (peekKind >>= f) s weight'' :=
  h

/-- Counting the tokens that are left costs nothing. -/
theorem remaining_bind {f : Nat → Parser β} (h : Frugal w before (f s.rest.length) s weight'') :
    Frugal w before (remaining >>= f) s weight'' :=
  h

/-- An error yields nothing that would have to be paid for. -/
theorem unexpected (what : Expectation) (weight : α → Nat) :
    Frugal w before (Parser.unexpected what) s weight :=
  Nat.le_refl (w.left s)

/-- An identity is taken from the supply. -/
theorem freshId : Frugal w 0 Parser.freshId s w.id := by
  have hsupply := w.supply_le s.nextId
  show w.id ⟨s.nextId⟩ + w.left { s with nextId := s.nextId + 1 } ≤ 0 + w.left s
  simp only [Tally.left]
  omega

/-- The next number pays for the node that it is given to. -/
theorem freshId_bind {f : NodeId → Parser β}
    (h : Frugal w (before + w.id ⟨s.nextId⟩) (f ⟨s.nextId⟩) { s with nextId := s.nextId + 1 }
      weight'') : Frugal w before (Parser.freshId >>= f) s weight'' := by
  refine freshId.bind_of_run fun id s' hrun => ?_
  cases hrun
  exact h

/-- The token that is read pays for its place in the tree. -/
theorem next (h : s.current.kind ≠ .eof) : Frugal w 0 next s w.token := by
  have hadvance := left_advance (w := w) (s := s) (by simpa [ParserState.atEnd] using h)
  show w.token s.current + w.left s.advance ≤ 0 + w.left s
  omega

/-- An optional token pays for itself if it is there. -/
theorem accept? (q : TokenKind → Bool) :
    Frugal w 0 (Parser.accept? q) s fun t => t.elim 0 w.token := by
  refine get_bind ?_
  split
  · rename_i h
    simp only [Bool.and_eq_true, Bool.not_eq_true'] at h
    have hadvance := left_advance (w := w) h.1
    show w.token s.current + w.left s.advance ≤ 0 + w.left s
    omega
  · exact pure (Nat.le_refl 0)

/-- A token that is only accepted has no place in the tree. -/
theorem accept (kind : TokenKind) : Frugal w 0 (Parser.accept kind) s fun _ => 0 :=
  bind (accept? _) fun _ _ => pure (Nat.zero_le _)

/-- Looking for a kind costs nothing. -/
theorem looksAt (kind : TokenKind) : Frugal w 0 (Parser.looksAt kind) s fun _ => 0 :=
  get_bind (pure (Nat.le_refl 0))

/-- An expected token pays for itself. -/
theorem expect (kind : TokenKind) (what : Expectation) :
    Frugal w 0 (Parser.expect kind what) s w.token := by
  refine bind (accept? _) fun t s' => ?_
  cases t with
  | none => exact unexpected _ _
  | some t => exact pure (Nat.le_add_left _ _)

/-- Noting an error costs nothing. -/
theorem reportHere (fault : SyntaxFault) : Frugal w 0 (Parser.reportHere fault) s fun _ => 0 :=
  Nat.le_refl (0 + w.left s)

end Frugal

/-! ## Expressions -/

/-- Noting that there are too many items costs nothing. -/
private theorem reportTooMany_frugal {p : Parser (List α)} {weight : List α → Nat} {count : Nat}
    {tooMany : SyntaxFault} (h : ∀ s, Frugal w 0 p s weight) (s : ParserState) :
    Frugal w 0 (if maxArguments ≤ count then reportHere tooMany >>= fun _ => p else p) s
      weight := by
  split
  · exact .bind (.reportHere _) fun _ s' => h s'
  · exact h s

/-- Each item of a list pays for itself. -/
theorem commaSeparated_loop_frugal {item : Parser α} {weight : α → Nat} {tooMany : SyntaxFault}
    (h : ∀ s, Frugal w 0 item s weight) (bound count : Nat) (s : ParserState) :
    Frugal w 0 (commaSeparated.loop item tooMany bound count) s (total weight) := by
  induction bound generalizing count s with
  | zero => exact reportTooMany_frugal (fun s => .bind (h s) fun a s' => .pure (by simp [total])) s
  | succ bound ih =>
    refine reportTooMany_frugal (fun s => .bind (h s) fun a s₁ => .bind (.accept _) fun b s₂ => ?_) s
    cases b with
    | false => exact .pure (by simp [total])
    | true => exact .bind (ih (count + 1) s₂) fun as s₃ => .pure (by simp [total])

/-- A list weighs as much as its items, the commas between them nothing. -/
theorem commaSeparated_frugal {item : Parser α} {weight : α → Nat} {tooMany : SyntaxFault}
    (h : ∀ s, Frugal w 0 item s weight) (s : ParserState) :
    Frugal w 0 (commaSeparated item tooMany) s (total weight) := by
  refine .bind (.looksAt _) fun b s' => ?_
  cases b with
  | true => exact .pure (Nat.zero_le _)
  | false => exact .remaining_bind (commaSeparated_loop_frugal h _ 0 s')

variable {nested operand : Parser Expr}

/-- The left operand is paid for before, so each round pays for an operator and an operand. -/
theorem leftAssociative_loop_frugal {isOperator : TokenKind → Bool}
    {node : Token → Expr → Expr → Expr}
    (hnode : ∀ op left right,
      (node op left right).tally w = left.tally w + w.token op + right.tally w)
    (h : ∀ s, Frugal w 0 operand s (Expr.tally w)) (bound : Nat) (left : Expr) (s : ParserState) :
    Frugal w (left.tally w) (leftAssociative.loop isOperator node operand bound left) s
      (Expr.tally w) := by
  induction bound generalizing left s with
  | zero => exact .pure (Nat.le_refl _)
  | succ bound ih =>
    refine .bind (.accept? _) fun op s' => ?_
    cases op with
    | none => exact .pure (Nat.le_refl _)
    | some op =>
      refine .bind (h s') fun right s'' => ?_
      have := ih (node op left right) s''
      rwa [hnode] at this

/-- A chain of operators is paid for by its operators and operands. -/
theorem leftAssociative_frugal {isOperator : TokenKind → Bool} {node : Token → Expr → Expr → Expr}
    (hnode : ∀ op left right,
      (node op left right).tally w = left.tally w + w.token op + right.tally w)
    (h : ∀ s, Frugal w 0 operand s (Expr.tally w)) (s : ParserState) :
    Frugal w 0 (leftAssociative isOperator node operand) s (Expr.tally w) := by
  refine .bind (h s) fun left s' => .remaining_bind ?_
  rw [Nat.zero_add]
  exact leftAssociative_loop_frugal hnode h _ left s'

/-- A primary expression is paid for by its tokens, and a variable by its number, too. -/
theorem primary_frugal (h : ∀ s, Frugal w 0 nested s (Expr.tally w)) (s : ParserState) :
    Frugal w 0 (primary nested) s (Expr.tally w) := by
  refine .peekKind_bind ?_
  split <;> rename_i hkind
  · exact .bind (.next (hkind ▸ nofun)) fun _ _ => .pure (Nat.zero_le _)
  · exact .bind (.next (hkind ▸ nofun)) fun _ _ => .pure (Nat.zero_le _)
  · exact .bind (.next (hkind ▸ nofun)) fun _ _ => .pure (Nat.zero_le _)
  · exact .bind (.next (hkind ▸ nofun)) fun _ _ => .pure (Nat.zero_le _)
  · exact .bind (.next (hkind ▸ nofun)) fun _ _ => .pure (Nat.zero_le _)
  · refine .freshId_bind (.bind (.next (by exact hkind ▸ nofun)) fun name s₂ => .pure ?_)
    -- the number has been handed out before the token was read
    simp [Expr.tally]
  · refine .freshId_bind (.bind (.next (by exact hkind ▸ nofun)) fun keyword s₂ => .pure ?_)
    simp [Expr.tally]
  · refine .bind (.next (hkind ▸ nofun)) fun keyword s₁ => .bind (.expect _ _) fun _ s₂ =>
      .bind (.expect _ _) fun method s₃ => .freshId_bind (.pure ?_)
    simp only [Expr.tally]
    omega
  · refine .bind (.next (hkind ▸ nofun)) fun _ s₁ => .bind (h s₁) fun inner s₂ =>
      .bind (.expect _ _) fun _ s₃ => .pure ?_
    simp only [Expr.tally]
    omega
  · exact .unexpected _ _

/-- The callee is paid for before, so each round pays for a call or a property. -/
theorem postfixes_frugal (h : ∀ s, Frugal w 0 nested s (Expr.tally w)) (bound : Nat) (left : Expr)
    (s : ParserState) :
    Frugal w (left.tally w) (postfixes nested bound left) s (Expr.tally w) := by
  induction bound generalizing left s with
  | zero => exact .pure (Nat.le_refl _)
  | succ bound ih =>
    refine .bind (.accept _) fun b s₁ => ?_
    cases b with
    | true =>
      refine .bind (commaSeparated_frugal h s₁) fun es s₂ => .bind (.expect _ _) fun paren s₃ => ?_
      -- the call takes the place of its callee, with what both have paid for
      have := ih (.call left paren es) s₃
      rwa [Expr.tally, Expr.tallyList_eq_total] at this
    | false =>
      refine .bind (.accept _) fun b s₂ => ?_
      cases b with
      | true => exact .bind (.expect _ _) fun name s₃ => ih (.get left name) s₃
      | false => exact .pure (Nat.le_refl _)

/-- A call is paid for by its callee and its arguments. -/
theorem call_frugal (h : ∀ s, Frugal w 0 nested s (Expr.tally w)) (s : ParserState) :
    Frugal w 0 (call nested) s (Expr.tally w) := by
  refine .bind (primary_frugal h s) fun left s' => .remaining_bind ?_
  rw [Nat.zero_add]
  exact postfixes_frugal h _ left s'

/-- Unary operators pay for themselves. -/
theorem unaryOperators_frugal (bound : Nat) (s : ParserState) :
    Frugal w 0 (unaryOperators bound) s w.tokens := by
  induction bound generalizing s with
  | zero => exact .pure (Nat.le_refl 0)
  | succ bound ih =>
    refine .bind (.accept? _) fun op s₁ => ?_
    cases op with
    | none => exact .pure (Nat.le_refl 0)
    | some op => exact .bind (ih s₁) fun ops s₂ => .pure (by simp [Tally.tokens, total])

/-- Operators in front of an operand weigh as much as one by one. -/
private theorem tally_foldr_unary (ops : List Token) (e : Expr) :
    (ops.foldr .unary e).tally w = w.tokens ops + e.tally w := by
  induction ops with
  | nil => simp [Tally.tokens, total]
  | cons op ops ih =>
    simp only [List.foldr_cons, Expr.tally, ih, Tally.tokens, total]
    omega

/-- A unary expression is paid for by its operators and its operand. -/
theorem unary_frugal (h : ∀ s, Frugal w 0 nested s (Expr.tally w)) (s : ParserState) :
    Frugal w 0 (unary nested) s (Expr.tally w) :=
  .remaining_bind <| .bind (unaryOperators_frugal _ s) fun ops s₁ =>
    .bind (call_frugal h s₁) fun e s₂ => .pure (by simp [tally_foldr_unary])

/-- Every level of binary operators is paid for by its operators and operands. -/
theorem disjunction_frugal (h : ∀ s, Frugal w 0 nested s (Expr.tally w)) (s : ParserState) :
    Frugal w 0 (disjunction nested) s (Expr.tally w) := by
  -- the two kinds of nodes weigh the same, so all levels are one argument
  have hbinary (op : Token) (left right : Expr) :
      (Expr.binary op left right).tally w = left.tally w + w.token op + right.tally w := rfl
  have hlogical (op : Token) (left right : Expr) :
      (Expr.logical op left right).tally w = left.tally w + w.token op + right.tally w := rfl
  have hfactor (s) : Frugal w 0 (factor nested) s (Expr.tally w) :=
    leftAssociative_frugal hbinary (unary_frugal h) s
  have hterm (s) : Frugal w 0 (term nested) s (Expr.tally w) :=
    leftAssociative_frugal hbinary hfactor s
  have hcomparison (s) : Frugal w 0 (comparison nested) s (Expr.tally w) :=
    leftAssociative_frugal hbinary hterm s
  have hequality (s) : Frugal w 0 (equality nested) s (Expr.tally w) :=
    leftAssociative_frugal hbinary hcomparison s
  have hconjunction (s) : Frugal w 0 (conjunction nested) s (Expr.tally w) :=
    leftAssociative_frugal hlogical hequality s
  exact leftAssociative_frugal hlogical hconjunction s

/-- An assignment drops the variable that it has been given as its target, and takes over its
    name. -/
theorem assignment_frugal (h : ∀ s, Frugal w 0 nested s (Expr.tally w)) (s : ParserState) :
    Frugal w 0 (assignment nested) s (Expr.tally w) := by
  refine .bind (disjunction_frugal h s) fun target s₁ => .get_bind (.bind (.accept _) fun b s₂ => ?_)
  cases b with
  | true =>
    -- a variable, a property, or a target that cannot be assigned to
    refine .bind (h s₂) fun value s₃ => ?_
    split
    · refine .freshId_bind (.pure ?_)
      simp only [Expr.tally]
      omega
    · refine .pure ?_
      simp only [Expr.tally]
      omega
    · have hreport : Frugal w 0 (modify (·.report (s₁.errorHere .invalidAssignmentTarget)) :
          Parser Unit) s₃ fun _ => 0 := Nat.le_refl (0 + w.left s₃)
      refine .bind hreport fun _ s₄ => .pure ?_
      omega
  | false =>
    refine .pure ?_
    omega

/-- An expression of any depth is paid for. -/
theorem expression_frugal (depth : Nat) (s : ParserState) :
    Frugal w 0 (expression depth) s (Expr.tally w) := by
  induction depth generalizing s with
  | zero => exact .unexpected _ _
  | succ depth ih => exact assignment_frugal ih s

/-- An expression is paid for. -/
theorem fullExpression_frugal (s : ParserState) : Frugal w 0 fullExpression s (Expr.tally w) :=
  .remaining_bind (expression_frugal _ s)

/-- An expression that may be missing is paid for if it is there. -/
theorem expressionUnless_frugal (kind : TokenKind) (s : ParserState) :
    Frugal w 0 (expressionUnless kind) s (Expr.tallyOption w) := by
  refine .bind (.looksAt _) fun b s' => ?_
  cases b with
  | true => exact .pure (Nat.le_refl 0)
  | false => exact .map (fullExpression_frugal s') fun e => Nat.le_refl _

/-! ## Statements -/

variable {nestedStatement : Parser Stmt} {nestedDeclaration : Parser (Option Stmt)}

/-- The declarations of a block pay for themselves. -/
theorem declarations_frugal
    (h : ∀ s, Frugal w 0 nestedDeclaration s fun o => Stmt.tallyList w o.toList) (bound : Nat)
    (s : ParserState) :
    Frugal w 0 (declarations nestedDeclaration bound) s (Stmt.tallyList w) := by
  induction bound generalizing s with
  | zero => exact .pure (Nat.le_refl 0)
  | succ bound ih =>
    refine .get_bind ?_
    split
    · exact .pure (Nat.le_refl 0)
    · exact .bind (h s) fun first s₁ => .bind (ih s₁) fun body s₂ =>
        .pure (by simp [Stmt.tallyList_append])

/-- A block is paid for by its declarations. -/
theorem block_frugal (h : ∀ s, Frugal w 0 nestedDeclaration s fun o => Stmt.tallyList w o.toList)
    (s : ParserState) : Frugal w 0 (block nestedDeclaration) s (Stmt.tallyList w) :=
  .remaining_bind <| .bind (declarations_frugal h _ s) fun body s₁ =>
    .bind (.expect _ _) fun _ s₂ => .pure (by omega)

/-- A function is paid for by its name, its parameters and its body. -/
theorem function_frugal (h : ∀ s, Frugal w 0 nestedDeclaration s fun o => Stmt.tallyList w o.toList)
    (method : Bool) (s : ParserState) :
    Frugal w 0 (function method nestedDeclaration) s (Stmt.tallyFunction w) := by
  refine .bind (.expect _ _) fun name s₁ => .bind (.expect _ _) fun _ s₂ =>
    .bind (commaSeparated_frugal (fun s => .expect _ _) s₂) fun params s₃ =>
    .bind (.expect _ _) fun _ s₄ => .bind (.expect _ _) fun _ s₅ =>
    .bind (block_frugal h s₅) fun body s₆ => .pure ?_
  simp only [Stmt.tallyFunction, Tally.tokens]
  omega

/-- The methods of a class pay for themselves. -/
theorem methods_frugal (h : ∀ s, Frugal w 0 nestedDeclaration s fun o => Stmt.tallyList w o.toList)
    (bound : Nat) (s : ParserState) :
    Frugal w 0 (methods nestedDeclaration bound) s (Stmt.tallyMethods w) := by
  induction bound generalizing s with
  | zero => exact .pure (Nat.le_refl 0)
  | succ bound ih =>
    refine .get_bind ?_
    split
    · exact .pure (Nat.le_refl 0)
    · exact .bind (function_frugal h true s) fun first s₁ => .bind (ih s₁) fun ds s₂ =>
        .pure (by simp [Stmt.tallyMethods])

/-- The inside of a class, from its opening brace on. -/
private theorem classBody_frugal
    (h : ∀ s, Frugal w 0 nestedDeclaration s fun o => Stmt.tallyList w o.toList)
    (name : Token) (superclass : Option Expr)
    (hbefore : w.token name + Expr.tallyOption w superclass ≤ before) (s : ParserState) :
    Frugal w before (do
      let _ ← expect .leftBrace .classBodyStart
      let methods ← methods nestedDeclaration (← remaining)
      let _ ← expect .rightBrace .classBodyEnd
      return Stmt.classDecl ⟨name, superclass, methods⟩) s (Stmt.tally w) := by
  refine .bind (.expect _ _) fun _ s₁ => .remaining_bind <|
    .bind (methods_frugal h _ s₁) fun ds s₂ => .bind (.expect _ _) fun _ s₃ => .pure ?_
  simp only [Stmt.tally]
  omega

/-- A class is paid for by its name, its superclass and its methods. -/
theorem classDeclaration_frugal
    (h : ∀ s, Frugal w 0 nestedDeclaration s fun o => Stmt.tallyList w o.toList)
    (s : ParserState) : Frugal w 0 (classDeclaration nestedDeclaration) s (Stmt.tally w) := by
  refine .bind (.expect _ _) fun name s₁ => .bind (.accept _) fun b s₂ => ?_
  cases b with
  | true =>
    refine .bind (.expect _ _) fun superName s₃ => .freshId_bind ?_
    -- the superclass is a variable: a number and a token, both paid for here
    refine classBody_frugal h name (some (.var ⟨s₃.nextId⟩ superName)) ?_ _
    simp only [Expr.tallyOption, Expr.tally]
    omega
  | false =>
    refine classBody_frugal h name none ?_ s₂
    simp [Expr.tallyOption]

/-- A variable declaration is paid for by its name and its initializer. -/
theorem varDeclaration_frugal (s : ParserState) : Frugal w 0 varDeclaration s (Stmt.tally w) := by
  refine .bind (.expect _ _) fun name s₁ => .bind (.accept _) fun b s₂ => ?_
  -- behind the initializer there is only the semicolon, which weighs nothing
  have hafter (initializer : Option Expr) (s : ParserState) :
      Frugal w (w.token name + Expr.tallyOption w initializer) (do
        let _ ← expect .semicolon .variableEnd
        return Stmt.varDecl name initializer) s (Stmt.tally w) :=
    .bind (.expect _ _) fun _ s' => .pure (by simp [Stmt.tally])
  cases b with
  | true =>
    have hvalue : Frugal w 0 (some <$> fullExpression) s₂ (Expr.tallyOption w) :=
      .map (fullExpression_frugal s₂) fun _ => Nat.le_refl _
    refine .bind hvalue fun initializer s₃ => ?_
    rw [Nat.zero_add, Nat.add_zero]
    exact hafter initializer s₃
  | false =>
    rw [Nat.zero_add]
    exact hafter none s₂

/-- An expression statement is paid for by its expression. -/
theorem expressionStatement_frugal (s : ParserState) :
    Frugal w 0 expressionStatement s (Stmt.tally w) := by
  refine .bind (fullExpression_frugal s) fun e s₁ => .bind (.expect _ _) fun _ s₂ => .pure ?_
  simp only [Stmt.tally]
  omega

/-- The initializer of a `for` statement is paid for if it is there. -/
theorem forInitializer_frugal (s : ParserState) :
    Frugal w 0 forInitializer s fun o => Stmt.tallyList w o.toList := by
  -- a statement on its own weighs what it weighs in a list of one
  have hsome (stmt : Stmt) : Stmt.tallyList w (some stmt).toList ≤ stmt.tally w := by
    simp [Stmt.tallyList]
  refine .bind (.accept _) fun b s₁ => ?_
  cases b with
  | true => exact .pure (Nat.le_refl 0)
  | false =>
    refine .bind (.accept _) fun b s₂ => ?_
    cases b with
    | true => exact .map (varDeclaration_frugal s₂) hsome
    | false => exact .map (expressionStatement_frugal s₂) hsome

/-- A `for` statement is paid for by its clauses and its body, though it becomes several nodes. -/
theorem forStatement_frugal (h : ∀ s, Frugal w 0 nestedStatement s (Stmt.tally w))
    (s : ParserState) : Frugal w 0 (forStatement nestedStatement) s (Stmt.tally w) := by
  refine .bind (.expect _ _) fun _ s₁ => .bind (forInitializer_frugal s₁) fun initializer s₂ =>
    .bind (expressionUnless_frugal _ s₂) fun test s₃ => .bind (.expect _ _) fun _ s₄ =>
    .bind (expressionUnless_frugal _ s₄) fun increment s₅ => .bind (.expect _ _) fun _ s₆ =>
    .bind (h s₆) fun body s₇ => .pure ?_
  rw [Stmt.tally_forLoop]
  omega

/-- An `if` statement is paid for by its condition and its branches. -/
theorem ifStatement_frugal (h : ∀ s, Frugal w 0 nestedStatement s (Stmt.tally w))
    (s : ParserState) : Frugal w 0 (ifStatement nestedStatement) s (Stmt.tally w) := by
  refine .bind (.expect _ _) fun _ s₁ => .bind (fullExpression_frugal s₁) fun condition s₂ =>
    .bind (.expect _ _) fun _ s₃ => .bind (h s₃) fun thenBranch s₄ =>
    .bind (.accept _) fun b s₅ => ?_
  cases b with
  | true =>
    -- the missing branch weighs nothing, as does the empty list
    have helse : Frugal w 0 (some <$> nestedStatement) s₅ fun o => Stmt.tallyList w o.toList :=
      .map (h s₅) fun _ => by simp [Stmt.tallyList]
    refine .bind helse fun elseBranch s₆ => .pure ?_
    cases elseBranch <;> simp only [Stmt.tally, Stmt.tallyList, Option.toList] <;> omega
  | false =>
    refine .pure ?_
    simp only [Stmt.tally]
    omega

/-- A `while` statement is paid for by its condition and its body. -/
theorem whileStatement_frugal (h : ∀ s, Frugal w 0 nestedStatement s (Stmt.tally w))
    (s : ParserState) : Frugal w 0 (whileStatement nestedStatement) s (Stmt.tally w) := by
  refine .bind (.expect _ _) fun _ s₁ => .bind (fullExpression_frugal s₁) fun condition s₂ =>
    .bind (.expect _ _) fun _ s₃ => .bind (h s₃) fun body s₄ => .pure ?_
  simp only [Stmt.tally]
  omega

/-- The keyword of a `return` statement is paid for before, when it is read. -/
theorem returnStatement_frugal (keyword : Token) (s : ParserState) :
    Frugal w (w.token keyword) (returnStatement keyword) s (Stmt.tally w) := by
  refine .bind (expressionUnless_frugal _ s) fun value s₁ => .bind (.expect _ _) fun _ s₂ => .pure ?_
  simp only [Stmt.tally]
  omega

/-- A `print` statement is paid for by its expression. -/
theorem printStatement_frugal (s : ParserState) : Frugal w 0 printStatement s (Stmt.tally w) := by
  refine .bind (fullExpression_frugal s) fun e s₁ => .bind (.expect _ _) fun _ s₂ => .pure ?_
  simp only [Stmt.tally]
  omega

/-- A statement that declares nothing is paid for by its parts. -/
theorem plainStatement_frugal (h : ∀ s, Frugal w 0 nestedStatement s (Stmt.tally w))
    (h' : ∀ s, Frugal w 0 nestedDeclaration s fun o => Stmt.tallyList w o.toList)
    (s : ParserState) :
    Frugal w 0 (plainStatement nestedStatement nestedDeclaration) s (Stmt.tally w) := by
  refine .peekKind_bind ?_
  split <;> rename_i hkind
  -- most keywords are in no tree, so what they weigh is left over
  · exact .bind (.next (hkind ▸ nofun)) fun _ s' => (forStatement_frugal h s').more
  · exact .bind (.next (hkind ▸ nofun)) fun _ s' => (ifStatement_frugal h s').more
  · exact .bind (.next (hkind ▸ nofun)) fun _ s' => (whileStatement_frugal h s').more
  · refine .bind (.next (hkind ▸ nofun)) fun keyword s' => ?_
    -- a `return` keeps its keyword
    rw [Nat.zero_add]
    exact returnStatement_frugal keyword s'
  · refine .bind (.next (hkind ▸ nofun)) fun _ s₁ => .bind (block_frugal h' s₁) fun body s₂ => .pure ?_
    simp only [Stmt.tally]
    omega
  · exact .bind (.next (hkind ▸ nofun)) fun _ s' => (printStatement_frugal s').more
  · exact expressionStatement_frugal s

/-- A statement of any kind is paid for by its parts. -/
theorem anyStatement_frugal (h : ∀ s, Frugal w 0 nestedStatement s (Stmt.tally w))
    (h' : ∀ s, Frugal w 0 nestedDeclaration s fun o => Stmt.tallyList w o.toList)
    (s : ParserState) :
    Frugal w 0 (anyStatement nestedStatement nestedDeclaration) s (Stmt.tally w) := by
  refine .peekKind_bind ?_
  split <;> rename_i hkind
  · exact .bind (.next (hkind ▸ nofun)) fun _ s' => (classDeclaration_frugal h' s').more
  · refine .bind (.next (hkind ▸ nofun)) fun _ s₁ =>
      .bind (function_frugal h' false s₁) fun d s₂ => .pure ?_
    simp only [Stmt.tally]
    omega
  · exact .bind (.next (hkind ▸ nofun)) fun _ s' => (varDeclaration_frugal s').more
  · exact plainStatement_frugal h h' s

/-- Going on at the next statement boundary takes tokens and puts them nowhere. -/
theorem tokens_skipStatement_le (previous : Token) (rest : List Token) (position : Nat) :
    w.tokens (ParserState.skipStatement previous rest position).1 ≤ w.tokens rest := by
  induction rest generalizing previous position with
  | nil => exact Nat.le_refl _
  | cons t rest ih =>
    rw [ParserState.skipStatement]
    split
    · exact Nat.le_refl _
    · refine Nat.le_trans (ih t (position + 1)) ?_
      simp [Tally.tokens, total]

/-- Recovery drops tokens, so what is left weighs no more. -/
theorem left_recover_le (s : ParserState) : w.left s.recover ≤ w.left s := by
  unfold ParserState.recover
  split
  · exact Nat.le_refl _
  · have hskip := tokens_skipStatement_le (w := w) s.current s.rest.tail (s.position + 1)
    have htail : w.tokens s.rest.tail ≤ w.tokens s.rest := by
      cases s.rest <;> simp [Tally.tokens, total]
    exact Nat.add_le_add_right (Nat.le_trans hskip htail) _

/-- What a failed statement has taken is lost. -/
theorem recovering_frugal {p : Parser Stmt} (h : Frugal w 0 p s (Stmt.tally w)) :
    Frugal w 0 (recovering p) s fun o => Stmt.tallyList w o.toList := by
  unfold Frugal at h ⊢
  rw [recovering_run]
  cases hp : p.run s with
  | ok stmt s' =>
    rw [hp] at h
    simpa [Stmt.tallyList] using h
  | error e s' =>
    rw [hp] at h
    have hreport : w.left (s'.report e) = w.left s' := rfl
    -- recovering only skips tokens, so there is less left than before
    have hrecover := left_recover_le (w := w) (s'.report e)
    simp only [Option.toList_none, Stmt.tallyList]
    omega

/-- Statements and declarations, however deeply they are nested. -/
theorem statement_declaration_frugal (depth : Nat) :
    (∀ s, Frugal w 0 (statement depth) s (Stmt.tally w)) ∧
      ∀ s, Frugal w 0 (declaration depth) s fun o => Stmt.tallyList w o.toList := by
  induction depth with
  | zero =>
    refine ⟨fun s => ?_, fun s => ?_⟩
    · unfold statement
      exact .unexpected _ _
    · unfold declaration
      exact recovering_frugal (.unexpected _ _)
  | succ depth ih =>
    refine ⟨fun s => ?_, fun s => ?_⟩
    · unfold statement
      exact plainStatement_frugal ih.1 ih.2 s
    · unfold declaration
      exact recovering_frugal (anyStatement_frugal ih.1 ih.2 s)

/-- A whole program, with the statements that have failed left out. -/
theorem program_frugal (bound : Nat) (s : ParserState) :
    Frugal w 0 (program bound) s (Stmt.tallyList w) := by
  induction bound generalizing s with
  | zero => exact .pure (Nat.le_refl 0)
  | succ bound ih =>
    refine .get_bind ?_
    split
    · exact .pure (Nat.le_refl 0)
    · exact .bind ((statement_declaration_frugal _).2 s) fun first s₁ =>
        .bind (ih s₁) fun body s₂ => .pure (by simp [Stmt.tallyList_append])

end Parser

/-- What parsing yields, with errors or without, weighs at most what there was to take. -/
theorem Parsed.tallyList_ofTokens (w : Tally) (tokens : List Token) (nextId : Nat) :
    Stmt.tallyList w (ofTokens tokens nextId).statements + w.supply (ofTokens tokens nextId).nextId ≤
      w.tokens tokens + w.supply nextId := by
  have hfrugal := Parser.program_frugal (w := w) tokens.length ⟨tokens, 0, nextId, #[]⟩
  unfold Parser.Frugal at hfrugal
  unfold ofTokens
  -- a program cannot fail, but the inequality would hold even so
  cases h : (Parser.program tokens.length).run ⟨tokens, 0, nextId, #[]⟩ with
  | ok body s =>
    rw [h] at hfrugal
    simp only [Tally.left] at hfrugal ⊢
    omega
  | error e s =>
    rw [h] at hfrugal
    simp only [Tally.left, Stmt.tallyList] at hfrugal ⊢
    omega

/-! ## Identities -/

/-- Counts an identity. -/
def Tally.identity (i : NodeId) : Tally where
  token _ := 0
  id i' := if i' = i then 1 else 0
  supply n := if i.index < n then 0 else 1
  supply_le := by
    intro n
    have hindex : (⟨n⟩ : NodeId) = i ↔ n = i.index := by
      cases i
      simp
    simp only [hindex]
    split <;> split <;> split <;> omega

/-- Tokens weigh nothing where one identity is counted. -/
@[simp] theorem Tally.token_identity (i : NodeId) (t : Token) : (identity i).token t = 0 :=
  rfl

/-- Lists of tokens weigh nothing where one identity is counted. -/
@[simp] theorem Tally.tokens_identity (i : NodeId) (ts : List Token) :
    (identity i).tokens ts = 0 := by
  induction ts with
  | nil => rfl
  | cons t ts ih => simpa [tokens, total] using ih

/-- Where one identity is counted only that one weighs something. -/
@[simp] theorem Tally.id_identity (i i' : NodeId) :
    (identity i).id i' = if i' = i then 1 else 0 :=
  rfl

variable (i : NodeId)

namespace Expr

mutual

/-- An identity is counted once for each reference that has it. -/
theorem tally_identity (e : Expr) :
    e.tally (.identity i) = (e.references.map (·.id)).count i := by
  match e with
  | literal _ => rfl
  | grouping inner => exact inner.tally_identity
  | unary _ operand => simp [tally, references, operand.tally_identity]
  | binary _ left right | logical _ left right =>
    simp [tally, references, left.tally_identity, right.tally_identity]
  -- a node with a number is the one reference of itself
  | var id _ | this id _ | super id _ _ => simp [tally, references, List.count_cons]
  | assign id _ value =>
    simp [tally, references, value.tally_identity, List.count_cons, Nat.add_comm]
  | call callee _ arguments =>
    simp [tally, references, callee.tally_identity, tallyList_identity arguments]
  | get object _ => simp [tally, references, object.tally_identity]
  | set object _ value => simp [tally, references, object.tally_identity, value.tally_identity]

/-- How often an identity is in expressions is how often a reference has it. -/
theorem tallyList_identity (es : List Expr) :
    tallyList (.identity i) es = ((referencesList es).map (·.id)).count i := by
  match es with
  | [] => rfl
  | e :: rest => simp [tallyList, referencesList, e.tally_identity, tallyList_identity rest]

end

/-- How often an identity is in an expression that may be missing is how often a reference has
    it. -/
theorem tallyOption_identity (o : Option Expr) :
    tallyOption (.identity i) o = ((referencesOption o).map (·.id)).count i := by
  cases o with
  | none => rfl
  | some e => exact e.tally_identity i

end Expr

namespace Stmt

mutual

/-- An identity is counted once for each reference that has it. -/
theorem tally_identity (s : Stmt) :
    s.tally (.identity i) = (s.references.map (·.id)).count i := by
  match s with
  | expression value | print value => exact value.tally_identity i
  | varDecl _ initializer => simp [tally, references, Expr.tallyOption_identity]
  | block body => exact tallyList_identity body
  | cond condition thenBranch none =>
    simp [tally, references, condition.tally_identity, thenBranch.tally_identity]
  | cond condition thenBranch (some elseBranch) =>
    simp [tally, references, condition.tally_identity, thenBranch.tally_identity,
      elseBranch.tally_identity, Nat.add_assoc]
  | loop condition body => simp [tally, references, condition.tally_identity, body.tally_identity]
  | funDecl declaration => exact tallyFunction_identity declaration
  | ret _ value => simp [tally, references, Expr.tallyOption_identity]
  | classDecl ⟨_, superclass, methods⟩ =>
    simp [tally, references, Expr.tallyOption_identity, tallyMethods_identity methods]

/-- How often an identity is in statements is how often a reference has it. -/
theorem tallyList_identity (body : List Stmt) :
    tallyList (.identity i) body = ((referencesList body).map (·.id)).count i := by
  match body with
  | [] => rfl
  | s :: rest => simp [tallyList, referencesList, s.tally_identity, tallyList_identity rest]

/-- How often an identity is in a function is how often a reference has it. -/
theorem tallyFunction_identity (d : FunctionDecl) :
    tallyFunction (.identity i) d = ((functionReferences d).map (·.id)).count i := by
  match d with
  | ⟨_, _, body⟩ => simp [tallyFunction, functionReferences, tallyList_identity body]

/-- How often an identity is in methods is how often a reference has it. -/
theorem tallyMethods_identity (ds : List FunctionDecl) :
    tallyMethods (.identity i) ds = ((methodReferences ds).map (·.id)).count i := by
  match ds with
  | [] => rfl
  | d :: rest =>
    simp [tallyMethods, methodReferences, tallyFunction_identity d, tallyMethods_identity rest]

end

end Stmt

end Lox
