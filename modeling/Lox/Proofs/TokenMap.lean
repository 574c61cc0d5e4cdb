import Lox.Proofs.ParseSound
import Lox.Proofs.Relabel

/-!
# Other tokens of the same kinds

The parser only looks at the kinds of tokens. So if the tokens of a text are replaced by others of
the same kinds, it does the same, and the tree that it yields is the tree from before with the other
tokens in it.

## Key results

- `Parser.InStep`: what the parser does on the tokens and on the others
- `Parsed.ofTokens_map`: whole programs
-/

namespace Lox

/-! ## Parsers in step -/

/-- The other tokens are left on another state, and as many identities have been given and as many
    errors noted. The token for the end of the text is still there. -/
structure ParserState.Follows (f : Token → Token) (s s' : ParserState) : Prop where
  rest : s'.rest = s.rest.map f
  nextId : s'.nextId = s.nextId
  errors : s'.errors.size = s.errors.size
  ended : ∃ t ∈ s.rest, t.kind = .eof

namespace ParserState.Follows

variable {f : Token → Token} {s s' : ParserState}

/-- The current tokens correspond. -/
theorem current (h : s.Follows f s') : s'.current = f s.current := by
  obtain ⟨t, ht, -⟩ := h.ended
  unfold ParserState.current
  rw [h.rest]
  cases hrest : s.rest with
  | nil =>
    rw [hrest] at ht
    cases ht
  | cons t rest => rfl

/-- As many tokens are left. -/
theorem length (h : s.Follows f s') : s'.rest.length = s.rest.length := by
  rw [h.rest, List.length_map]

/-- Noting an error on both sides keeps them together, whatever the errors say. -/
theorem report (h : s.Follows f s') (e e' : SyntaxError) :
    (s.report e).Follows f (s'.report e') :=
  ⟨h.rest, h.nextId, by simp [ParserState.report, h.errors], h.ended⟩

variable (hf : ∀ t, (f t).kind = t.kind)

include hf

/-- The current tokens are of the same kind. -/
theorem kind (h : s.Follows f s') : s'.current.kind = s.current.kind := by
  rw [h.current, hf]

/-- Both are at the end or neither is. -/
theorem atEnd (h : s.Follows f s') : s'.atEnd = s.atEnd := by
  rw [ParserState.atEnd, ParserState.atEnd, h.kind hf]

/-- Both advance over tokens that correspond. -/
theorem advance (h : s.Follows f s') : s.advance.Follows f s'.advance := by
  unfold ParserState.advance
  rw [h.atEnd hf]
  cases hend : s.atEnd with
  | true => exact h
  | false =>
    refine ⟨by simp [h.rest], h.nextId, h.errors, ?_⟩
    -- what is consumed is not the token for the end
    obtain ⟨t, ht, heof⟩ := h.ended
    cases hrest : s.rest with
    | nil =>
      rw [hrest] at ht
      cases ht
    | cons first rest =>
      rw [hrest] at ht
      rcases List.mem_cons.mp ht with rfl | ht
      · simp [ParserState.atEnd, ParserState.current, hrest, heof] at hend
      · exact ⟨t, ht, heof⟩

end ParserState.Follows

/-- Reading goes on at the same boundary. -/
theorem ParserState.skipStatement_map {f : Token → Token} (hf : ∀ t, (f t).kind = t.kind)
    (previous : Token) (rest : List Token) (position position' : Nat)
    (hended : ∃ t ∈ rest, t.kind = .eof) :
    (skipStatement (f previous) (rest.map f) position').1 =
        (skipStatement previous rest position).1.map f ∧
      ∃ t ∈ (skipStatement previous rest position).1, t.kind = .eof := by
  induction rest generalizing previous position position' with
  | nil => exact ⟨rfl, hended⟩
  | cons t rest ih =>
    simp only [List.map_cons, skipStatement, hf]
    split
    · exact ⟨rfl, hended⟩
    · rename_i h
      simp only [Bool.or_eq_true, decide_eq_true_eq, not_or] at h
      -- the dropped token is not the end of the text, which is still ahead
      obtain ⟨u, hu, heof⟩ := hended
      refine ih t (position + 1) (position' + 1) ⟨u, ?_, heof⟩
      rcases List.mem_cons.mp hu with rfl | hu
      · exact absurd heof h.1.1
      · exact hu

/-- Both recover up to the same boundary, because that is decided by kinds. -/
theorem ParserState.Follows.recover {f : Token → Token} (hf : ∀ t, (f t).kind = t.kind)
    {s s' : ParserState} (h : s.Follows f s') : s.recover.Follows f s'.recover := by
  unfold ParserState.recover
  rw [h.atEnd hf]
  cases hend : s.atEnd with
  | true => exact h
  | false =>
    have hadvance := (h.advance hf).ended
    rw [ParserState.advance, hend] at hadvance
    -- the positions of the two may differ, since positions are only for errors
    obtain ⟨hrest, hended⟩ := ParserState.skipStatement_map hf s.current s.rest.tail
      (s.position + 1) (s'.position + 1) hadvance
    refine ⟨?_, h.nextId, h.errors, hended⟩
    rw [← h.current, List.map_tail, ← h.rest] at hrest
    exact hrest

namespace Parser

variable {α β α' β' : Type} {f : Token → Token}

/-- On states of which one follows the other, two parsers both fail, or the result of the second one
    is that of the first one mapped by `g`. -/
def InStep (f : Token → Token) (g : α → α') (p : Parser α) (p' : Parser α') : Prop :=
  ∀ s s', s.Follows f s' →
    match p.run s, p'.run s' with
    | .ok a t, .ok a' t' => a' = g a ∧ t.Follows f t'
    | .error _ t, .error _ t' => t.Follows f t'
    | _, _ => False

namespace InStep

variable {g : α → α'} {k : β → β'} {p : Parser α} {p' : Parser α'} {q : α → Parser β}
  {q' : α' → Parser β'}

theorem pure (a : α) : InStep f g (Pure.pure a) (Pure.pure (g a)) :=
  fun _ _ h => ⟨rfl, h⟩

/-- Either both parsers yield a result or both fail. -/
theorem outcomes {s s' : ParserState} (h : InStep f g p p') (hs : s.Follows f s') :
    (∃ a t t', p.run s = .ok a t ∧ p'.run s' = .ok (g a) t' ∧ t.Follows f t') ∨
      ∃ e e' t t', p.run s = .error e t ∧ p'.run s' = .error e' t' ∧ t.Follows f t' := by
  have h := h s s' hs
  cases hrun : p.run s with
  | ok a t =>
    cases hrun' : p'.run s' with
    | ok a' t' =>
      rw [hrun, hrun'] at h
      obtain ⟨rfl, ht⟩ := h
      exact .inl ⟨a, t, t', rfl, rfl, ht⟩
    | error e' t' =>
      rw [hrun, hrun'] at h
      -- one that fails and one that does not are not in step
      exact h.elim
  | error e t =>
    cases hrun' : p'.run s' with
    | ok a' t' =>
      rw [hrun, hrun'] at h
      exact h.elim
    | error e' t' =>
      rw [hrun, hrun'] at h
      exact .inr ⟨e, e', t, t', rfl, rfl, h⟩

/-- In a sequence the second parser goes on from results that correspond. -/
theorem bind (hp : InStep f g p p') (hq : ∀ a, InStep f k (q a) (q' (g a))) :
    InStep f k (p >>= q) (p' >>= q') := by
  intro s s' h
  rw [EStateM.run_bind, EStateM.run_bind]
  rcases hp.outcomes h with ⟨a, t, t', hrun, hrun', ht⟩ | ⟨e, e', t, t', hrun, hrun', ht⟩
  · rw [hrun, hrun']
    exact hq a t t' ht
  · rw [hrun, hrun']
    exact ht

/-- Results may be mapped on both sides, if they correspond afterwards. -/
theorem map (hp : InStep f g p p') {u : α → β} {u' : α' → β'} (hu : ∀ a, u' (g a) = k (u a)) :
    InStep f k (u <$> p) (u' <$> p') := by
  rw [← bind_pure_comp, ← bind_pure_comp]
  refine hp.bind fun a => ?_
  rw [hu]
  exact pure _

/-- Looking at the states. -/
theorem get_bind {q : ParserState → Parser β} {q' : ParserState → Parser β'}
    (h : ∀ s s', s.Follows f s' → InStep f k (q s) (q' s')) :
    InStep f k (MonadState.get >>= q) (MonadState.get >>= q') :=
  fun s s' hs => h s s' hs s s' hs

/-- States that follow each other may be set. -/
theorem set {s s' : ParserState} (h : s.Follows f s') :
    InStep f id (MonadStateOf.set s : Parser PUnit) (MonadStateOf.set s') :=
  fun _ _ _ => ⟨rfl, h⟩

/-- Both fail. -/
theorem unexpected (what : Expectation) :
    InStep f g (Parser.unexpected what) (Parser.unexpected what) :=
  fun _ _ h => h

/-- As many tokens are left on both sides. -/
theorem remaining : InStep f id Parser.remaining Parser.remaining :=
  fun _ _ h => ⟨h.length, h⟩

/-- The same number is given on both sides. -/
theorem freshId : InStep f id Parser.freshId Parser.freshId := fun _ _ h =>
  ⟨congrArg NodeId.mk h.nextId, h.rest, congrArg (· + 1) h.nextId, h.errors, h.ended⟩

/-- An error is noted on both sides. -/
theorem reportHere (fault : SyntaxFault) :
    InStep f id (Parser.reportHere fault) (Parser.reportHere fault) :=
  fun _ _ h => ⟨rfl, h.report _ _⟩

section Kinds

variable (hf : ∀ t, (f t).kind = t.kind)

include hf

/-- The same kind is seen on both sides. -/
theorem peekKind : InStep f id Parser.peekKind Parser.peekKind :=
  fun _ _ h => ⟨h.kind hf, h⟩

/-- Tokens that correspond are read. -/
theorem next : InStep f f Parser.next Parser.next :=
  fun _ _ h => ⟨h.current, h.advance hf⟩

/-- An optional token is there on both sides or on none. -/
theorem accept? (accepts : TokenKind → Bool) :
    InStep f (Option.map f) (Parser.accept? accepts) (Parser.accept? accepts) := by
  refine get_bind fun s s' h => ?_
  rw [h.atEnd hf, h.kind hf, h.current]
  split
  · exact (set (h.advance hf)).bind fun _ => pure (some s.current)
  · exact pure none

/-- A token of one kind is there on both sides or on none. -/
theorem accept (kind : TokenKind) : InStep f id (Parser.accept kind) (Parser.accept kind) := by
  refine (accept? hf _).bind fun t => ?_
  cases t <;> exact pure _

/-- The same answer is given on both sides. -/
theorem looksAt (kind : TokenKind) :
    InStep f id (Parser.looksAt kind) (Parser.looksAt kind) := by
  refine get_bind fun s s' h => ?_
  rw [h.atEnd hf, h.kind hf]
  exact pure _

/-- An expected token is there on both sides, or both fail. -/
theorem expect (kind : TokenKind) (what : Expectation) :
    InStep f f (Parser.expect kind what) (Parser.expect kind what) := by
  refine (accept? hf _).bind fun t => ?_
  cases t with
  | none => exact unexpected what
  | some t => exact pure t

end Kinds

end InStep

/-! ## Expressions -/

section Grammar

variable (hf : ∀ t, (f t).kind = t.kind)

include hf

/-- Lists whose items correspond have as many of them. -/
theorem commaSeparated_inStep {item : Parser α} {item' : Parser α'} {g : α → α'}
    (h : InStep f g item item') (tooMany : SyntaxFault) :
    InStep f (List.map g) (commaSeparated item tooMany) (commaSeparated item' tooMany) := by
  -- both note the error at the same item, because both have read as many
  have htooMany (count : Nat) {p : Parser (List α)} {p' : Parser (List α')}
      (hp : InStep f (List.map g) p p') : InStep f (List.map g)
        (if maxArguments ≤ count then reportHere tooMany >>= fun _ => p else p)
        (if maxArguments ≤ count then reportHere tooMany >>= fun _ => p' else p') := by
    split
    · exact (InStep.reportHere tooMany).bind fun _ => hp
    · exact hp
  have hloop (bound count : Nat) : InStep f (List.map g) (commaSeparated.loop item tooMany bound count)
      (commaSeparated.loop item' tooMany bound count) := by
    induction bound generalizing count with
    | zero => exact htooMany count (h.bind fun a => .pure [a])
    | succ bound ih =>
      refine htooMany count (h.bind fun a => (InStep.accept hf .comma).bind fun b => ?_)
      cases b with
      | false => exact .pure [a]
      | true => exact (ih (count + 1)).bind fun as => .pure (a :: as)
  refine (InStep.looksAt hf _).bind fun b => ?_
  cases b with
  | true => exact .pure []
  | false => exact InStep.remaining.bind fun n => hloop n 0

variable {nested operand : Parser Expr}

/-- Chains of operators correspond, because the tokens decide where they end only by their kinds. -/
theorem leftAssociative_inStep {isOperator : TokenKind → Bool} {node : Token → Expr → Expr → Expr}
    (hnode : ∀ op left right,
      node (f op) (left.relabel f) (right.relabel f) = (node op left right).relabel f)
    (h : InStep f (Expr.relabel f) operand operand) :
    InStep f (Expr.relabel f) (leftAssociative isOperator node operand)
      (leftAssociative isOperator node operand) := by
  -- the loop builds on a left operand that has been mapped already
  have hloop (bound : Nat) (left : Expr) : InStep f (Expr.relabel f)
      (leftAssociative.loop isOperator node operand bound left)
      (leftAssociative.loop isOperator node operand bound (left.relabel f)) := by
    induction bound generalizing left with
    | zero => exact .pure left
    | succ bound ih =>
      refine (InStep.accept? hf _).bind fun op => ?_
      cases op with
      | none => exact .pure left
      | some op =>
        refine h.bind fun right => ?_
        rw [hnode]
        exact ih _
  exact h.bind fun left => InStep.remaining.bind fun n => hloop n left

/-- A primary expression is read in step. -/
theorem primary_inStep (h : InStep f (Expr.relabel f) nested nested) :
    InStep f (Expr.relabel f) (primary nested) (primary nested) := by
  refine (InStep.peekKind hf).bind fun kind => ?_
  -- the kind of a token holds the value of its literal, so the values are the same
  have hliteral (value : Literal) : InStep f (Expr.relabel f)
      (do let _ ← next; return Expr.literal value) (do let _ ← next; return Expr.literal value) :=
    (InStep.next hf).bind fun _ => .pure (Expr.literal value)
  unfold id
  split
  · exact hliteral .false
  · exact hliteral .true
  · exact hliteral .nil
  · exact hliteral (.number _)
  · exact hliteral (.string _)
  · exact InStep.freshId.bind fun id => (InStep.next hf).bind fun t => .pure (Expr.var id t)
  · exact InStep.freshId.bind fun id => (InStep.next hf).bind fun t => .pure (Expr.this id t)
  · refine (InStep.next hf).bind fun keyword => (InStep.expect hf _ _).bind fun _ => ?_
    refine (InStep.expect hf _ _).bind fun method => ?_
    exact InStep.freshId.bind fun id => .pure (Expr.super id keyword method)
  · refine (InStep.next hf).bind fun _ => h.bind fun inner => ?_
    exact (InStep.expect hf _ _).bind fun _ => .pure (Expr.grouping inner)
  · exact .unexpected _

/-- Calls and properties behind expressions that correspond are read in step. -/
theorem postfixes_inStep (h : InStep f (Expr.relabel f) nested nested) (bound : Nat)
    (left : Expr) : InStep f (Expr.relabel f) (postfixes nested bound left)
      (postfixes nested bound (left.relabel f)) := by
  induction bound generalizing left with
  | zero => exact .pure left
  | succ bound ih =>
    refine (InStep.accept hf _).bind fun b => ?_
    cases b with
    | true =>
      refine (commaSeparated_inStep hf h _).bind fun arguments => ?_
      refine (InStep.expect hf _ _).bind fun paren => ?_
      -- the arguments are mapped one by one, which is how a call is mapped
      rw [← Expr.relabelList_eq_map]
      exact ih (.call left paren arguments)
    | false =>
      refine (InStep.accept hf _).bind fun b => ?_
      cases b with
      | true => exact (InStep.expect hf _ _).bind fun name => ih (.get left name)
      | false => exact .pure left

/-- A call is read in step. -/
theorem call_inStep (h : InStep f (Expr.relabel f) nested nested) :
    InStep f (Expr.relabel f) (call nested) (call nested) :=
  (primary_inStep hf h).bind fun left => InStep.remaining.bind fun n => postfixes_inStep hf h n left

/-- A unary expression is read in step. -/
theorem unary_inStep (h : InStep f (Expr.relabel f) nested nested) :
    InStep f (Expr.relabel f) (unary nested) (unary nested) := by
  have hoperators (bound : Nat) :
      InStep f (List.map f) (unaryOperators bound) (unaryOperators bound) := by
    induction bound with
    | zero => exact .pure []
    | succ bound ih =>
      refine (InStep.accept? hf _).bind fun op => ?_
      cases op with
      | none => exact .pure []
      | some op => exact ih.bind fun ops => .pure (op :: ops)
  -- the operators are put in front of the operand from the inside out
  have hfold (ops : List Token) (e : Expr) :
      (ops.map f).foldr Expr.unary (e.relabel f) = (ops.foldr Expr.unary e).relabel f := by
    induction ops with
    | nil => rfl
    | cons op ops ih =>
      rw [List.map_cons, List.foldr_cons, ih, List.foldr_cons, Expr.relabel, Token.relabel_apply]
  refine InStep.remaining.bind fun n => (hoperators n).bind fun ops => ?_
  refine (call_inStep hf h).bind fun e => ?_
  rw [hfold]
  exact .pure _

/-- Every level of binary operators is read in step, from factors up to `or`. -/
theorem disjunction_inStep (h : InStep f (Expr.relabel f) nested nested) :
    InStep f (Expr.relabel f) (disjunction nested) (disjunction nested) := by
  have hbinary (op : Token) (left right : Expr) :
      Expr.binary (f op) (left.relabel f) (right.relabel f) =
        (Expr.binary op left right).relabel f := rfl
  have hlogical (op : Token) (left right : Expr) :
      Expr.logical (f op) (left.relabel f) (right.relabel f) =
        (Expr.logical op left right).relabel f := rfl
  -- one level after the other, from the tightest to the loosest
  have hfactor : InStep f (Expr.relabel f) (factor nested) (factor nested) :=
    leftAssociative_inStep hf hbinary (unary_inStep hf h)
  have hterm : InStep f (Expr.relabel f) (term nested) (term nested) :=
    leftAssociative_inStep hf hbinary hfactor
  have hcomparison : InStep f (Expr.relabel f) (comparison nested) (comparison nested) :=
    leftAssociative_inStep hf hbinary hterm
  have hequality : InStep f (Expr.relabel f) (equality nested) (equality nested) :=
    leftAssociative_inStep hf hbinary hcomparison
  have hconjunction : InStep f (Expr.relabel f) (conjunction nested) (conjunction nested) :=
    leftAssociative_inStep hf hlogical hequality
  exact leftAssociative_inStep hf hlogical hconjunction

/-- An assignment is read in step: its target is a variable or a property on both sides. -/
theorem assignment_inStep (h : InStep f (Expr.relabel f) nested nested) :
    InStep f (Expr.relabel f) (assignment nested) (assignment nested) := by
  refine (disjunction_inStep hf h).bind fun target => InStep.get_bind fun _ _ _ => ?_
  refine (InStep.accept hf _).bind fun b => ?_
  cases b with
  | false => exact .pure target
  | true =>
    refine h.bind fun value => ?_
    -- a wrong target is reported on both sides, with a token of its own each
    have hreport (e e' : SyntaxError) : InStep f (Expr.relabel f)
        (do modify (·.report e); return target) (do modify (·.report e'); return target.relabel f) :=
      fun _ _ ht => ⟨rfl, ht.report _ _⟩
    cases target with
    | var id name => exact InStep.freshId.bind fun id => .pure (Expr.assign id name value)
    | get object name => exact .pure (Expr.set object name value)
    | _ => exact hreport _ _

/-- An expression of any depth is read in step. -/
theorem expression_inStep (depth : Nat) :
    InStep f (Expr.relabel f) (expression depth) (expression depth) := by
  induction depth with
  | zero => exact .unexpected _
  | succ depth ih => exact assignment_inStep hf ih

/-- An expression is read in step. -/
theorem fullExpression_inStep :
    InStep f (Expr.relabel f) fullExpression fullExpression :=
  InStep.remaining.bind fun n => expression_inStep hf n

/-- An expression that may be missing is read in step: the next token decides by its kind. -/
theorem expressionUnless_inStep (kind : TokenKind) :
    InStep f (Option.map (Expr.relabel f)) (expressionUnless kind) (expressionUnless kind) := by
  refine (InStep.looksAt hf _).bind fun b => ?_
  cases b with
  | true => exact .pure none
  | false => exact (fullExpression_inStep hf).map fun _ => rfl

/-! ## Statements -/

variable {nested : Parser (Option Stmt)} {nestedStatement : Parser Stmt}

/-- The declarations of a block are read in step. -/
theorem declarations_inStep (h : InStep f (Option.map (Stmt.relabel f)) nested nested)
    (bound : Nat) : InStep f (List.map (Stmt.relabel f)) (declarations nested bound)
      (declarations nested bound) := by
  induction bound with
  | zero => exact .pure []
  | succ bound ih =>
    refine InStep.get_bind fun s s' hs => ?_
    rw [hs.atEnd hf, hs.kind hf]
    split
    · exact .pure []
    · refine h.bind fun first => ih.bind fun rest => ?_
      -- a statement that has been dropped is dropped on both sides
      have hfirst : (first.map (Stmt.relabel f)).toList ++ rest.map (Stmt.relabel f) =
          (first.toList ++ rest).map (Stmt.relabel f) := by
        cases first <;> rfl
      rw [hfirst]
      exact .pure _

/-- A block is read in step. -/
theorem block_inStep (h : InStep f (Option.map (Stmt.relabel f)) nested nested) :
    InStep f (List.map (Stmt.relabel f)) (block nested) (block nested) := by
  refine InStep.remaining.bind fun n => (declarations_inStep hf h n).bind fun body => ?_
  exact (InStep.expect hf _ _).bind fun _ => .pure body

/-- A function is read in step, with its name and its parameters. -/
theorem function_inStep (method : Bool)
    (h : InStep f (Option.map (Stmt.relabel f)) nested nested) :
    InStep f (Stmt.relabelFunction f) (function method nested) (function method nested) := by
  refine (InStep.expect hf _ _).bind fun name => (InStep.expect hf _ _).bind fun _ => ?_
  refine (commaSeparated_inStep hf (InStep.expect hf _ _) _).bind fun params => ?_
  refine (InStep.expect hf _ _).bind fun _ => (InStep.expect hf _ _).bind fun _ => ?_
  refine (block_inStep hf h).bind fun body => ?_
  rw [← Stmt.relabelList_eq_map]
  exact .pure (⟨name, params, body⟩ : FunctionDecl)

/-- The methods of a class are read in step. -/
theorem methods_inStep (h : InStep f (Option.map (Stmt.relabel f)) nested nested)
    (bound : Nat) : InStep f (List.map (Stmt.relabelFunction f)) (methods nested bound)
      (methods nested bound) := by
  induction bound with
  | zero => exact .pure []
  | succ bound ih =>
    refine InStep.get_bind fun s s' hs => ?_
    rw [hs.atEnd hf, hs.kind hf]
    split
    · exact .pure []
    · exact (function_inStep hf true h).bind fun first => ih.bind fun rest => .pure (first :: rest)

/-- A class is read in step, with its name and its superclass. -/
theorem classDeclaration_inStep (h : InStep f (Option.map (Stmt.relabel f)) nested nested) :
    InStep f (Stmt.relabel f) (classDeclaration nested) (classDeclaration nested) := by
  -- the superclass is a node of its own, so it takes an identity
  have hsuperclass : InStep f (Option.map (Expr.relabel f))
      (do
        if ← accept .less then
          let superName ← expect .identifier .superclassName
          pure (some (.var (← freshId) superName))
        else pure none)
      (do
        if ← accept .less then
          let superName ← expect .identifier .superclassName
          pure (some (.var (← freshId) superName))
        else pure none) := by
    refine (InStep.accept hf _).bind fun b => ?_
    cases b with
    | false => exact .pure none
    | true =>
      exact (InStep.expect hf _ _).bind fun superName =>
        InStep.freshId.bind fun id => .pure (some (Expr.var id superName))
  refine (InStep.expect hf _ _).bind fun name => ?_
  have hbody (superclass : Option Expr) : InStep f (Stmt.relabel f)
      (do
        let _ ← expect .leftBrace .classBodyStart
        let methods ← methods nested (← remaining)
        let _ ← expect .rightBrace .classBodyEnd
        return Stmt.classDecl ⟨name, superclass, methods⟩)
      (do
        let _ ← expect .leftBrace .classBodyStart
        let methods ← methods nested (← remaining)
        let _ ← expect .rightBrace .classBodyEnd
        return Stmt.classDecl ⟨f name, superclass.map (Expr.relabel f), methods⟩) := by
    refine (InStep.expect hf _ _).bind fun _ => InStep.remaining.bind fun n => ?_
    refine (methods_inStep hf h n).bind fun methods => (InStep.expect hf _ _).bind fun _ => ?_
    rw [← Stmt.relabelFunctions_eq_map]
    exact .pure (Stmt.classDecl ⟨name, superclass, methods⟩)
  refine (InStep.accept hf _).bind fun b => ?_
  cases b with
  | false => exact hbody none
  | true =>
    exact (InStep.expect hf _ _).bind fun superName =>
      InStep.freshId.bind fun id => hbody (some (Expr.var id superName))

/-- A variable declaration is read in step. -/
theorem varDeclaration_inStep :
    InStep f (Stmt.relabel f) varDeclaration varDeclaration := by
  refine (InStep.expect hf _ _).bind fun name => (InStep.accept hf _).bind fun b => ?_
  cases b with
  | false => exact (InStep.expect hf _ _).bind fun _ => .pure (Stmt.varDecl name none)
  | true =>
    have hinitializer : InStep f (Option.map (Expr.relabel f)) (some <$> fullExpression)
        (some <$> fullExpression) := (fullExpression_inStep hf).map fun _ => rfl
    exact hinitializer.bind fun initializer =>
      (InStep.expect hf _ _).bind fun _ => .pure (Stmt.varDecl name initializer)

/-- An expression statement is read in step. -/
theorem expressionStatement_inStep :
    InStep f (Stmt.relabel f) expressionStatement expressionStatement :=
  (fullExpression_inStep hf).bind fun value =>
    (InStep.expect hf _ _).bind fun _ => .pure (Stmt.expression value)

/-- The initializer of a `for` statement is read in step. -/
theorem forInitializer_inStep :
    InStep f (Option.map (Stmt.relabel f)) forInitializer forInitializer := by
  refine (InStep.accept hf _).bind fun b => ?_
  cases b with
  | true => exact .pure none
  | false =>
    refine (InStep.accept hf _).bind fun b => ?_
    cases b with
    | true => exact (varDeclaration_inStep hf).map fun _ => rfl
    | false => exact (expressionStatement_inStep hf).map fun _ => rfl

/-- A `for` statement is read in step, as the loop that it stands for. -/
theorem forStatement_inStep (h : InStep f (Stmt.relabel f) nestedStatement nestedStatement) :
    InStep f (Stmt.relabel f) (forStatement nestedStatement) (forStatement nestedStatement) := by
  refine (InStep.expect hf _ _).bind fun _ => (forInitializer_inStep hf).bind fun initializer => ?_
  refine (expressionUnless_inStep hf _).bind fun test => (InStep.expect hf _ _).bind fun _ => ?_
  refine (expressionUnless_inStep hf _).bind fun increment => (InStep.expect hf _ _).bind fun _ => ?_
  refine h.bind fun body => ?_
  rw [← Stmt.relabel_forLoop]
  exact .pure _

/-- An `if` statement is read in step. -/
theorem ifStatement_inStep (h : InStep f (Stmt.relabel f) nestedStatement nestedStatement) :
    InStep f (Stmt.relabel f) (ifStatement nestedStatement) (ifStatement nestedStatement) := by
  refine (InStep.expect hf _ _).bind fun _ => (fullExpression_inStep hf).bind fun condition => ?_
  refine (InStep.expect hf _ _).bind fun _ => h.bind fun thenBranch => ?_
  refine (InStep.accept hf _).bind fun b => ?_
  cases b with
  | false => exact .pure (Stmt.cond condition thenBranch none)
  | true =>
    have helse : InStep f (Option.map (Stmt.relabel f)) (some <$> nestedStatement)
        (some <$> nestedStatement) := h.map fun _ => rfl
    refine helse.bind fun elseBranch => ?_
    cases elseBranch with
    | none => exact .pure (Stmt.cond condition thenBranch none)
    | some elseBranch => exact .pure (Stmt.cond condition thenBranch (some elseBranch))

/-- A `while` statement is read in step. -/
theorem whileStatement_inStep (h : InStep f (Stmt.relabel f) nestedStatement nestedStatement) :
    InStep f (Stmt.relabel f) (whileStatement nestedStatement)
      (whileStatement nestedStatement) := by
  refine (InStep.expect hf _ _).bind fun _ => (fullExpression_inStep hf).bind fun condition => ?_
  exact (InStep.expect hf _ _).bind fun _ => h.bind fun body => .pure (Stmt.loop condition body)

/-- A `return` statement is read in step, behind its keyword. -/
theorem returnStatement_inStep (keyword : Token) :
    InStep f (Stmt.relabel f) (returnStatement keyword) (returnStatement (f keyword)) :=
  (expressionUnless_inStep hf _).bind fun value =>
    (InStep.expect hf _ _).bind fun _ => .pure (Stmt.ret keyword value)

/-- A `print` statement is read in step. -/
theorem printStatement_inStep : InStep f (Stmt.relabel f) printStatement printStatement :=
  (fullExpression_inStep hf).bind fun value =>
    (InStep.expect hf _ _).bind fun _ => .pure (Stmt.print value)

/-- A statement that declares nothing is read in step. -/
theorem plainStatement_inStep (hstatement : InStep f (Stmt.relabel f) nestedStatement nestedStatement)
    (h : InStep f (Option.map (Stmt.relabel f)) nested nested) :
    InStep f (Stmt.relabel f) (plainStatement nestedStatement nested)
      (plainStatement nestedStatement nested) := by
  refine (InStep.peekKind hf).bind fun kind => ?_
  unfold id
  split
  · exact (InStep.next hf).bind fun _ => forStatement_inStep hf hstatement
  · exact (InStep.next hf).bind fun _ => ifStatement_inStep hf hstatement
  · exact (InStep.next hf).bind fun _ => whileStatement_inStep hf hstatement
  · exact (InStep.next hf).bind fun keyword => returnStatement_inStep hf keyword
  · refine (InStep.next hf).bind fun _ => (block_inStep hf h).bind fun body => ?_
    rw [← Stmt.relabelList_eq_map]
    exact .pure (Stmt.block body)
  · exact (InStep.next hf).bind fun _ => printStatement_inStep hf
  · exact expressionStatement_inStep hf

/-- A statement of any kind is read in step. -/
theorem anyStatement_inStep (hstatement : InStep f (Stmt.relabel f) nestedStatement nestedStatement)
    (h : InStep f (Option.map (Stmt.relabel f)) nested nested) :
    InStep f (Stmt.relabel f) (anyStatement nestedStatement nested)
      (anyStatement nestedStatement nested) := by
  -- the kind is the same on both sides, so the same branch is taken
  refine (InStep.peekKind hf).bind fun kind => ?_
  unfold id
  split
  · exact (InStep.next hf).bind fun _ => classDeclaration_inStep hf h
  · exact (InStep.next hf).bind fun _ =>
      (function_inStep hf false h).bind fun d => .pure (Stmt.funDecl d)
  · exact (InStep.next hf).bind fun _ => varDeclaration_inStep hf
  · exact plainStatement_inStep hf hstatement h

/-- After an error both go on behind it. -/
theorem recovering_inStep {statement : Parser Stmt}
    (h : InStep f (Stmt.relabel f) statement statement) :
    InStep f (Option.map (Stmt.relabel f)) (recovering statement) (recovering statement) := by
  intro s s' hs
  rw [recovering_run, recovering_run]
  rcases h.outcomes hs with ⟨a, t, t', hrun, hrun', ht⟩ | ⟨e, e', t, t', hrun, hrun', ht⟩
  · rw [hrun, hrun']
    exact ⟨rfl, ht⟩
  · -- the errors differ, but what is dropped behind them depends on kinds only
    rw [hrun, hrun']
    exact ⟨rfl, (ht.report e e').recover hf⟩

/-- By induction on the depth, statements and declarations correspond. -/
theorem statement_declaration_inStep (depth : Nat) :
    InStep f (Stmt.relabel f) (statement depth) (statement depth) ∧
      InStep f (Option.map (Stmt.relabel f)) (declaration depth) (declaration depth) := by
  induction depth with
  | zero =>
    rw [statement, declaration]
    exact ⟨.unexpected _, recovering_inStep hf (.unexpected _)⟩
  | succ depth ih =>
    rw [statement, declaration]
    exact ⟨plainStatement_inStep hf ih.1 ih.2, recovering_inStep hf (anyStatement_inStep hf ih.1 ih.2)⟩

/-- By induction on the bound, programs correspond. -/
theorem program_inStep (bound : Nat) :
    InStep f (List.map (Stmt.relabel f)) (program bound) (program bound) := by
  induction bound with
  | zero => exact .pure []
  | succ bound ih =>
    refine InStep.get_bind fun s s' hs => ?_
    -- bound and depth come from the number of tokens, which is the same
    rw [hs.atEnd hf, hs.length]
    split
    · exact .pure []
    · refine (statement_declaration_inStep hf _).2.bind fun first => ih.bind fun rest => ?_
      have hfirst : (first.map (Stmt.relabel f)).toList ++ rest.map (Stmt.relabel f) =
          (first.toList ++ rest).map (Stmt.relabel f) := by
        cases first <;> rfl
      rw [hfirst]
      exact .pure _

end Grammar

end Parser

/-- Other tokens of the same kinds give the same tree with the other tokens in it, and as many
    errors. -/
theorem Parsed.ofTokens_map {f : Token → Token} (hf : ∀ t, (f t).kind = t.kind)
    {tokens : List Token} (hended : ∃ t ∈ tokens, t.kind = .eof) (n : Nat) :
    (ofTokens (tokens.map f) n).statements = (ofTokens tokens n).statements.map (Stmt.relabel f) ∧
      (ofTokens (tokens.map f) n).errors.length = (ofTokens tokens n).errors.length ∧
      (ofTokens (tokens.map f) n).nextId = (ofTokens tokens n).nextId := by
  have hfollows : ParserState.Follows f ⟨tokens, 0, n, #[]⟩ ⟨tokens.map f, 0, n, #[]⟩ :=
    ⟨rfl, rfl, rfl, hended⟩
  unfold ofTokens
  rw [List.length_map]
  -- in case of a failure there is no tree, but the errors are counted, too
  rcases (Parser.program_inStep hf tokens.length).outcomes hfollows with
    ⟨statements, s, s', hrun, hrun', hs⟩ | ⟨e, e', s, s', hrun, hrun', hs⟩
  · rw [hrun, hrun']
    exact ⟨rfl, hs.errors, hs.nextId⟩
  · rw [hrun, hrun']
    exact ⟨rfl, by simp [hs.errors], hs.nextId⟩

end Lox
