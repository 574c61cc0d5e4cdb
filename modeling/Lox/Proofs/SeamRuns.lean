import Lox.Proofs.Seam

/-!
# Parsers on both sides of a seam

Each parser does the same on two texts up to where they stop being alike. The parsers that are
compared may differ in the bounds on their repetitions and on their nesting: with a token left
before the seam no bound has been reached, as every round and every nesting consumes one.

## Key results

- `expression_along`: expressions before the seam
- `statement_declaration_along`: statements and declarations, which may end at the seam
- `program_along`: programs
-/

namespace Lox

namespace Parser

variable {α α' : Type} {σ : Seam} {closing : Prop} {s : ParserState}

/-! ## Expressions -/

/-- `Along` for parsers of expressions, which have to stay before the seam. -/
abbrev AlongExpr (σ : Seam) : Parser Expr → Parser Expr → ParserState → Prop :=
  Along σ False (Expr.relabel σ.shift)

variable {n : Nat}

/-- Lists of items agree as far as the seam. -/
theorem commaSeparated_along {item : Parser α} {item' : Parser α'} {g : α → α'}
    (tooMany : SyntaxFault) (h : ∀ s, s.rest.length ≤ n → Along σ False g item item' s)
    (hs : s.rest.length ≤ n) :
    Along σ False (List.map g) (commaSeparated item tooMany) (commaSeparated item' tooMany) s := by
  have htooMany (count : Nat) {p : Parser (List α)} {p' : Parser (List α')} {s : ParserState}
      (hp : ∀ t, t.rest.length ≤ s.rest.length → Along σ False (List.map g) p p' t) :
      Along σ False (List.map g)
        (if maxArguments ≤ count then reportHere tooMany >>= fun _ => p else p)
        (if maxArguments ≤ count then reportHere tooMany >>= fun _ => p' else p') s := by
    split
    · exact (Along.reportHere tooMany).bind fun _ t hle => hp t hle
    · exact hp s (Nat.le_refl _)
  have hloop (bound bound' count : Nat) (s : ParserState) (hs : s.rest.length ≤ n)
      (hbound : s.rest.length ≤ bound + σ.behind.length)
      (hbound' : s.rest.length ≤ bound' + σ.behind.length) :
      Along σ False (List.map g) (commaSeparated.loop item tooMany bound count)
        (commaSeparated.loop item' tooMany bound' count) s := by
    induction bound generalizing bound' count s with
    | zero =>
      -- without rounds left there is no token left before the seam, so nothing is compared
      have hone : Along σ False (List.map g) (commaSeparated.loop item tooMany 0 count)
          (commaSeparated.loop item' tooMany 0 count) s :=
        htooMany count fun t hle => (h t (by omega)).bind fun a u _ => .pure [a]
      exact hone.elsewhere (by omega) False.elim
    | succ bound ih =>
      refine Along.of_succ (fun m => commaSeparated.loop item' tooMany m count)
        (fun bound' hbound' => ?_) bound' hbound'
      refine htooMany count fun t ht => (h t (by omega)).bind fun a u hu => ?_
      refine Along.accept_bind (fun v hv => ?_) (.pure [a])
      have hrest := ih bound' (count + 1) v (by omega) (by omega) (by omega)
      exact hrest.bind fun as _ _ => .pure (a :: as)
  refine Along.looksAt_bind fun b => ?_
  cases b with
  | true => exact .pure []
  | false => exact .remaining_bind fun m m' hm hm' => hloop m m' 0 s hs hm hm'

variable {nested nested' operand operand' : Parser Expr}

/-- Chains of operators agree as far as the seam. -/
theorem leftAssociative_along {isOperator : TokenKind → Bool} {node : Token → Expr → Expr → Expr}
    (hnode : ∀ op left right, node op (left.relabel σ.shift) (right.relabel σ.shift) =
      (node op left right).relabel σ.shift)
    (h : ∀ s, s.rest.length ≤ n → AlongExpr σ operand operand' s) (hs : s.rest.length ≤ n) :
    AlongExpr σ (leftAssociative isOperator node operand)
      (leftAssociative isOperator node operand') s := by
  -- on the two sides the loop has different bounds, and both are large enough
  have hloop (bound bound' : Nat) (left : Expr) (s : ParserState) (hs : s.rest.length ≤ n)
      (hbound : s.rest.length ≤ bound + σ.behind.length)
      (hbound' : s.rest.length ≤ bound' + σ.behind.length) :
      AlongExpr σ (leftAssociative.loop isOperator node operand bound left)
        (leftAssociative.loop isOperator node operand' bound' (left.relabel σ.shift)) s := by
    induction bound generalizing bound' left s with
    | zero => exact .pure_elsewhere left (by omega)
    | succ bound ih =>
      refine Along.of_succ
        (fun m => leftAssociative.loop isOperator node operand' m (left.relabel σ.shift))
        (fun bound' hbound' => ?_) bound' hbound'
      refine Along.accept?_bind (fun op t ht => ?_) (.pure left)
      refine (h t (by omega)).bind fun right u hu => ?_
      rw [hnode]
      exact ih bound' _ u (by omega) (by omega) (by omega)
  exact (h s hs).bind fun left t ht => .remaining_bind fun m m' hm hm' =>
    hloop m m' left t (by omega) hm hm'

/-- Primary expressions agree as far as the seam. -/
theorem primary_along (h : ∀ s, s.rest.length < n → AlongExpr σ nested nested' s)
    (hs : s.rest.length ≤ n) : AlongExpr σ (primary nested) (primary nested') s := by
  refine Along.peekKind_bind False.elim ?_
  -- a token is consumed, so reading has not come to the seam yet
  have hliteral (value : Literal) (hkind : s.current.kind ≠ .eof) : AlongExpr σ
      (do let _ ← next; return Expr.literal value) (do let _ ← next; return Expr.literal value) s :=
    .next_bind hkind fun _ _ _ => .pure (Expr.literal value)
  split <;> rename_i hkind
  · exact hliteral .false (by simp [hkind])
  · exact hliteral .true (by simp [hkind])
  · exact hliteral .nil (by simp [hkind])
  · exact hliteral (.number _) (by simp [hkind])
  · exact hliteral (.string _) (by simp [hkind])
  · refine Along.freshId_bind (.next_bind ?_ fun name _ _ => .pure (Expr.var ⟨s.nextId⟩ name))
    exact (show s.current.kind ≠ .eof by simp [hkind])
  · refine Along.freshId_bind (.next_bind ?_ fun keyword _ _ =>
      .pure (Expr.this ⟨s.nextId⟩ keyword))
    exact (show s.current.kind ≠ .eof by simp [hkind])
  · refine Along.next_bind (by simp [hkind]) fun keyword _ _ => .expect_bind fun _ _ _ => ?_
    exact .expect_bind fun method t _ =>
      .freshId_bind (.pure (Expr.super ⟨t.nextId⟩ keyword method))
  · refine Along.next_bind (by simp [hkind]) fun _ t ht => .bind_expect (h t (by omega)) ?_
    exact fun inner _ _ _ => .pure (Expr.grouping inner)
  · exact .unexpected _

/-- Calls and properties agree as far as the seam. -/
theorem postfixes_along (h : ∀ s, s.rest.length < n → AlongExpr σ nested nested' s)
    (bound bound' : Nat) (left : Expr) (s : ParserState) (hs : s.rest.length ≤ n)
    (hbound : s.rest.length ≤ bound + σ.behind.length)
    (hbound' : s.rest.length ≤ bound' + σ.behind.length) :
    AlongExpr σ (postfixes nested bound left)
      (postfixes nested' bound' (left.relabel σ.shift)) s := by
  induction bound generalizing bound' left s with
  | zero => exact .pure_elsewhere left (by omega)
  | succ bound ih =>
    -- a round may use up a bound, but the tokens before the seam are used up with it
    refine Along.of_succ (fun m => postfixes nested' m (left.relabel σ.shift))
      (fun bound' hbound' => ?_) bound' hbound'
    refine Along.accept_bind (fun t ht => ?_) (.accept_bind (fun t ht => ?_) (.pure left))
    · refine Along.bind_expect (commaSeparated_along .tooManyArguments
        (fun s hs => h s (Nat.lt_of_le_of_lt hs (Nat.lt_of_lt_of_le ht ‹_›))) (Nat.le_refl _)) ?_
      intro arguments paren u hu
      rw [← Expr.relabelList_eq_map]
      exact ih bound' (.call left paren arguments) u (by omega) (by omega) (by omega)
    · refine Along.expect_bind fun name u hu => ?_
      exact ih bound' (.get left name) u (by omega) (by omega) (by omega)

/-- Calls agree as far as the seam. -/
theorem call_along (h : ∀ s, s.rest.length < n → AlongExpr σ nested nested' s)
    (hs : s.rest.length ≤ n) : AlongExpr σ (call nested) (call nested') s :=
  (primary_along h hs).bind fun left t ht => .remaining_bind fun m m' hm hm' =>
    postfixes_along h m m' left t (by omega) hm hm'

/-- Unary operators agree as far as the seam. -/
theorem unaryOperators_along (bound bound' : Nat) (s : ParserState)
    (hbound : s.rest.length ≤ bound + σ.behind.length)
    (hbound' : s.rest.length ≤ bound' + σ.behind.length) :
    Along σ False id (unaryOperators bound) (unaryOperators bound') s := by
  induction bound generalizing bound' s with
  | zero => exact .pure_elsewhere [] (by omega)
  | succ bound ih =>
    refine Along.of_succ unaryOperators (fun bound' hbound' => ?_) bound' hbound'
    refine Along.accept?_bind (fun op t ht => ?_) (.pure [])
    exact (ih bound' t (by omega) (by omega)).bind fun ops _ _ => .pure (op :: ops)

/-- Operators in front of an operand have no identities. -/
private theorem foldr_unary_relabel (ops : List Token) (e : Expr) :
    ops.foldr Expr.unary (e.relabel σ.shift) = (ops.foldr Expr.unary e).relabel σ.shift := by
  induction ops with
  | nil => rfl
  | cons op ops ih =>
    rw [List.foldr_cons, ih, List.foldr_cons, Expr.relabel]
    rfl

/-- Unary expressions agree as far as the seam. -/
theorem unary_along (h : ∀ s, s.rest.length < n → AlongExpr σ nested nested' s)
    (hs : s.rest.length ≤ n) : AlongExpr σ (unary nested) (unary nested') s := by
  refine Along.remaining_bind fun m m' hm hm' => (unaryOperators_along m m' s hm hm').bind ?_
  refine fun ops t ht => (call_along h (by omega)).bind fun e _ _ => ?_
  rw [id, foldr_unary_relabel]
  exact .pure _

/-- Every level of binary operators agrees as far as the seam. -/
theorem disjunction_along (h : ∀ s, s.rest.length < n → AlongExpr σ nested nested' s)
    (hs : s.rest.length ≤ n) : AlongExpr σ (disjunction nested) (disjunction nested') s := by
  -- level by level, from the tightest operators to the loosest
  have hfactor {s : ParserState} (hs : s.rest.length ≤ n) :
      AlongExpr σ (factor nested) (factor nested') s :=
    leftAssociative_along (fun _ _ _ => rfl) (fun _ hs => unary_along h hs) hs
  have hterm {s : ParserState} (hs : s.rest.length ≤ n) :
      AlongExpr σ (term nested) (term nested') s :=
    leftAssociative_along (fun _ _ _ => rfl) (fun _ hs => hfactor hs) hs
  have hcomparison {s : ParserState} (hs : s.rest.length ≤ n) :
      AlongExpr σ (comparison nested) (comparison nested') s :=
    leftAssociative_along (fun _ _ _ => rfl) (fun _ hs => hterm hs) hs
  have hequality {s : ParserState} (hs : s.rest.length ≤ n) :
      AlongExpr σ (equality nested) (equality nested') s :=
    leftAssociative_along (fun _ _ _ => rfl) (fun _ hs => hcomparison hs) hs
  have hconjunction {s : ParserState} (hs : s.rest.length ≤ n) :
      AlongExpr σ (conjunction nested) (conjunction nested') s :=
    leftAssociative_along (fun _ _ _ => rfl) (fun _ hs => hequality hs) hs
  exact leftAssociative_along (fun _ _ _ => rfl) (fun _ hs => hconjunction hs) hs

/-- Assignments agree as far as the seam. -/
theorem assignment_along (h : ∀ s, s.rest.length < n → AlongExpr σ nested nested' s)
    (hs : s.rest.length ≤ n) : AlongExpr σ (assignment nested) (assignment nested') s := by
  refine (disjunction_along h hs).bind fun target t ht => ?_
  refine Along.get_bind fun t' hcurrent hposition _ => .accept_bind (fun u hu => ?_) (.pure target)
  refine (h u (by omega)).bind fun value v hv => ?_
  -- the error is at the equals sign, which both have seen before they read the value
  have hreport (e : Expr) : AlongExpr σ
      (do
        modify (·.report (t.errorHere .invalidAssignmentTarget))
        return e)
      (do
        modify (·.report (t'.errorHere .invalidAssignmentTarget))
        return e.relabel σ.shift) v := by
    refine ⟨.report v _, fun hinside v' habreast => ⟨_, rfl, ?_⟩⟩
    have hbefore : σ.behind.length < v.rest.length := hinside.before
    have herror : t'.errorHere .invalidAssignmentTarget =
        (t.errorHere .invalidAssignmentTarget).later σ.tokens := by
      rw [ParserState.errorHere, hcurrent (by omega), hposition]
      rfl
    show σ.Abreast (v.report _) (v'.report _)
    rw [herror]
    exact habreast.report _
  cases target with
  | var id name => exact .freshId_bind (.pure (Expr.assign ⟨v.nextId⟩ name value))
  | get object name => exact .pure (Expr.set object name value)
  | _ => exact hreport _

/-- Expressions agree as far as the seam, if both depths reach that far. -/
theorem expression_along (depth depth' : Nat) (s : ParserState)
    (hdepth : s.rest.length ≤ depth + σ.behind.length)
    (hdepth' : s.rest.length ≤ depth' + σ.behind.length) :
    AlongExpr σ (expression depth) (expression depth') s := by
  induction depth generalizing depth' s with
  | zero =>
    exact (Along.unexpected .expression : AlongExpr σ _ _ s).elsewhere (by omega) False.elim
  | succ depth ih =>
    refine Along.of_succ expression (fun depth' hdepth' => ?_) depth' hdepth'
    exact assignment_along (fun t ht => ih depth' t (by omega) (by omega)) (Nat.le_refl _)

/-- Expressions agree as far as the seam. -/
theorem fullExpression_along (s : ParserState) : AlongExpr σ fullExpression fullExpression s :=
  .remaining_bind fun m m' hm hm' => expression_along m m' s hm hm'

/-- Expressions that may be missing agree as far as the seam. -/
theorem expressionUnless_along (kind : TokenKind) (s : ParserState) :
    Along σ False (Option.map (Expr.relabel σ.shift)) (expressionUnless kind)
      (expressionUnless kind) s := by
  refine Along.looksAt_bind fun b => ?_
  cases b with
  | true => exact .pure none
  | false => exact (fullExpression_along s).map fun _ => rfl

/-! ## Statements -/

/-- The superclass of a class, if one is named. -/
def superclassClause : Parser (Option Expr) := do
  if ← accept .less then
    let superName ← expect .identifier .superclassName
    return some (.var (← freshId) superName)
  else
    return none

/-- A class is parsed clause by clause. -/
theorem classDeclaration_eq (nested : Parser (Option Stmt)) : classDeclaration nested = (do
    let name ← expect .identifier .className
    let superclass ← superclassClause
    let _ ← expect .leftBrace .classBodyStart
    let methods ← methods nested (← remaining)
    let _ ← expect .rightBrace .classBodyEnd
    return .classDecl ⟨name, superclass, methods⟩) := by
  unfold classDeclaration superclassClause
  refine bind_congr fun name => ?_
  rw [bind_assoc]
  -- the clause of the superclass is a part of its own, so it can be spoken of
  refine bind_congr fun named => ?_
  cases named
  · rfl
  · simp only [bind_assoc, if_true, pure_bind]

/-- The initializer of a variable, if there is one. -/
def initializerClause : Parser (Option Expr) := do
  if ← accept .equal then some <$> fullExpression else return none

/-- A variable declaration is parsed clause by clause. -/
theorem varDeclaration_eq : varDeclaration = (do
    let name ← expect .identifier .variableName
    let initializer ← initializerClause
    let _ ← expect .semicolon .variableEnd
    return .varDecl name initializer) := by
  unfold varDeclaration initializerClause
  refine bind_congr fun name => ?_
  rw [bind_assoc]
  refine bind_congr fun initialized => ?_
  cases initialized <;> rfl

/-- The head of a `for` up to its second semicolon. -/
def forStart : Parser (Option Stmt × Option Expr) := do
  let initializer ← forInitializer
  return (initializer, ← expressionUnless .semicolon)

/-- A `for` statement is parsed clause by clause. -/
theorem forStatement_eq (nested : Parser Stmt) : forStatement nested = (do
    let _ ← expect .leftParen .forStart
    let start ← forStart
    let _ ← expect .semicolon .forConditionEnd
    let increment ← expressionUnless .rightParen
    let _ ← expect .rightParen .forEnd
    return .forLoop start.1 start.2 increment (← nested)) := by
  unfold forStatement forStart
  simp only [bind_assoc, pure_bind]

/-- `Along` for parsers of statements. -/
abbrev AlongStmt (σ : Seam) (closing : Prop) : Parser Stmt → Parser Stmt → ParserState → Prop :=
  Along σ closing (Stmt.relabel σ.shift)

/-- `Along` for parsers of declarations. -/
abbrev AlongDeclaration (σ : Seam) (closing : Prop) :
    Parser (Option Stmt) → Parser (Option Stmt) → ParserState → Prop :=
  Along σ closing (Option.map (Stmt.relabel σ.shift))

/-- A failed declaration leaves no statement in either text. -/
private theorem toList_append_relabel (first : Option Stmt) (rest : List Stmt) :
    (first.map (Stmt.relabel σ.shift)).toList ++ rest.map (Stmt.relabel σ.shift) =
      (first.toList ++ rest).map (Stmt.relabel σ.shift) := by
  cases first <;> rfl

variable {depth : Nat} {nestedStatement' : Parser Stmt} {nested' : Parser (Option Stmt)}

/-- The declarations of a block agree as far as the seam. -/
theorem declarations_along
    (h : ∀ s, s.rest.length < n → AlongDeclaration σ False (declaration depth) nested' s)
    (bound bound' : Nat) (s : ParserState) (hs : s.rest.length < n)
    (hbound : s.rest.length ≤ bound + σ.behind.length)
    (hbound' : s.rest.length ≤ bound' + σ.behind.length) :
    Along σ False (List.map (Stmt.relabel σ.shift)) (declarations (declaration depth) bound)
      (declarations nested' bound') s := by
  induction bound generalizing bound' s with
  | zero => exact .pure_elsewhere [] (by omega)
  | succ bound ih =>
    refine Along.of_succ (declarations nested') (fun bound' hbound' => ?_) bound' hbound'
    refine Along.stop_bind (fun s' hcurrent => ?_) (.pure []) fun hstop s' _ => ?_
    · simp only [ParserState.atEnd, hcurrent]
    -- a declaration consumes a token, so fewer are left before the next one
    · have hend : s.atEnd = false := (Bool.or_eq_false_iff.mp hstop).1
      refine (h s hs).bind_lt (fun o t => declaration_length_lt hend) fun first t ht => ?_
      refine (ih bound' t (by omega) (by omega) (by omega)).bind fun rest _ _ => ?_
      rw [toList_append_relabel]
      exact .pure _

/-- Blocks agree as far as the seam. -/
theorem block_along
    (h : ∀ s, s.rest.length < n → AlongDeclaration σ False (declaration depth) nested' s)
    (hs : s.rest.length < n) : Along σ closing (List.map (Stmt.relabel σ.shift))
      (block (declaration depth)) (block nested') s :=
  .remaining_bind fun m m' hm hm' =>
    .bind_expect (declarations_along h m m' s hs hm hm') fun body _ _ _ => .pure body

/-- Functions agree as far as the seam. -/
theorem function_along (method : Bool)
    (h : ∀ s, s.rest.length < n → AlongDeclaration σ False (declaration depth) nested' s)
    (hs : s.rest.length ≤ n) : Along σ closing (Stmt.relabelFunction σ.shift)
      (function method (declaration depth)) (function method nested') s := by
  refine Along.expect_bind fun name t ht => .expect_bind fun _ u hu => ?_
  refine Along.bind_expect (commaSeparated_along .tooManyParameters
    (fun s _ => .expect .identifier .parameterName) (Nat.le_refl _)) fun params _ v hv => ?_
  refine Along.expect_bind fun _ w hw => (block_along h (by omega)).bind fun body _ _ => ?_
  rw [← Stmt.relabelList_eq_map]
  exact .pure (⟨name, params, body⟩ : FunctionDecl)

/-- The methods of a class agree as far as the seam. -/
theorem methods_along
    (h : ∀ s, s.rest.length < n → AlongDeclaration σ False (declaration depth) nested' s)
    (bound bound' : Nat) (s : ParserState) (hs : s.rest.length ≤ n)
    (hbound : s.rest.length ≤ bound + σ.behind.length)
    (hbound' : s.rest.length ≤ bound' + σ.behind.length) :
    Along σ False (List.map (Stmt.relabelFunction σ.shift)) (methods (declaration depth) bound)
      (methods nested' bound') s := by
  induction bound generalizing bound' s with
  | zero => exact .pure_elsewhere [] (by omega)
  | succ bound ih =>
    refine Along.of_succ (methods nested') (fun bound' hbound' => ?_) bound' hbound'
    refine Along.stop_bind (fun s' hcurrent => ?_) (.pure []) fun _ _ _ => ?_
    · simp only [ParserState.atEnd, hcurrent]
    -- a method takes at least one token, so the induction goes on with less in front
    · have hfunction := function_proceeds (fun _ => trivial)
        (declaration_proceeds_any (fun _ => trivial) depth) true s
      refine (function_along true h hs).bind_lt (fun d t => hfunction.length_lt) ?_
      intro first t ht
      have hrest := ih bound' t (by omega) (by omega) (by omega)
      exact hrest.bind fun rest _ _ => .pure (first :: rest)

/-- Classes agree as far as the seam. -/
theorem classDeclaration_along
    (h : ∀ s, s.rest.length < n → AlongDeclaration σ False (declaration depth) nested' s)
    (hs : s.rest.length ≤ n) : AlongStmt σ closing (classDeclaration (declaration depth))
      (classDeclaration nested') s := by
  -- the superclass gets the next number, so its two trees differ by the shift
  have hsuperclass (t : ParserState) : Along σ False (Option.map (Expr.relabel σ.shift))
      superclassClause superclassClause t :=
    .accept_bind (fun u _ => .expect_bind fun superName v _ =>
      .freshId_bind (.pure (some (Expr.var ⟨v.nextId⟩ superName)))) (.pure none)
  rw [classDeclaration_eq, classDeclaration_eq]
  refine Along.expect_bind fun name t ht => .bind_expect (hsuperclass t) fun superclass _ u hu => ?_
  refine Along.remaining_bind fun m m' hm hm' =>
    .bind_expect (methods_along h m m' u (by omega) hm hm') fun methods _ _ _ => ?_
  rw [← Stmt.relabelFunctions_eq_map]
  exact .pure (Stmt.classDecl ⟨name, superclass, methods⟩)

/-- The initializers of variables agree as far as the seam. -/
theorem initializerClause_along (s : ParserState) :
    Along σ False (Option.map (Expr.relabel σ.shift)) initializerClause initializerClause s :=
  .accept_bind (fun t _ => (fullExpression_along t).map fun _ => rfl) (.pure none)

/-- Variable declarations agree as far as the seam. -/
theorem varDeclaration_along (s : ParserState) :
    AlongStmt σ closing varDeclaration varDeclaration s := by
  rw [varDeclaration_eq]
  refine Along.expect_bind fun name t _ => .bind_expect (initializerClause_along t) ?_
  exact fun initializer _ _ _ => .pure (Stmt.varDecl name initializer)

/-- Expression statements agree as far as the seam. -/
theorem expressionStatement_along (s : ParserState) :
    AlongStmt σ closing expressionStatement expressionStatement s :=
  .bind_expect (fullExpression_along s) fun value _ _ _ => .pure (Stmt.expression value)

/-- The first clauses of `for` statements agree as far as the seam. -/
theorem forStart_along (s : ParserState) :
    Along σ False (Prod.map (Option.map (Stmt.relabel σ.shift)) (Option.map (Expr.relabel σ.shift)))
      forStart forStart s := by
  have hinitializer : Along σ False (Option.map (Stmt.relabel σ.shift)) forInitializer
      forInitializer s :=
    .accept_bind (fun _ _ => .pure none) <| .accept_bind
      (fun t _ => (varDeclaration_along t).map fun _ => rfl)
      ((expressionStatement_along s).map fun _ => rfl)
  exact hinitializer.bind fun initializer t _ => (expressionUnless_along _ t).bind
    fun condition _ _ => .pure (initializer, condition)

/-- A `return` statement agrees as far as the seam. -/
theorem returnStatement_along (keyword : Token) (s : ParserState) :
    AlongStmt σ closing (returnStatement keyword) (returnStatement keyword) s :=
  .bind_expect (expressionUnless_along _ s) fun value _ _ _ => .pure (Stmt.ret keyword value)

/-- A `print` statement agrees as far as the seam. -/
theorem printStatement_along (s : ParserState) :
    AlongStmt σ closing printStatement printStatement s :=
  .bind_expect (fullExpression_along s) fun value _ _ _ => .pure (Stmt.print value)

section Nested

variable (h : ∀ s, s.rest.length < n → AlongStmt σ closing (statement depth) nestedStatement' s)

include h

/-- A `for` statement agrees as far as the seam. -/
theorem forStatement_along (hs : s.rest.length ≤ n) :
    AlongStmt σ closing (forStatement (statement depth)) (forStatement nestedStatement') s := by
  rw [forStatement_eq, forStatement_eq]
  refine Along.expect_bind fun _ t ht => .bind_expect (forStart_along t) fun start _ u hu => ?_
  refine Along.bind_expect (expressionUnless_along _ u) fun increment _ v hv => ?_
  refine (h v (by omega)).bind fun body _ _ => ?_
  rw [Prod.map_fst, Prod.map_snd, ← Stmt.relabel_forLoop]
  exact .pure _

/-- A `if` statement agrees as far as the seam. -/
theorem ifStatement_along (hs : s.rest.length ≤ n) :
    AlongStmt σ closing (ifStatement (statement depth)) (ifStatement nestedStatement') s := by
  refine Along.expect_bind fun _ t ht => .bind_expect (fullExpression_along t) ?_
  refine fun condition _ u hu => (h u (by omega)).bind fun thenBranch v hv => ?_
  refine Along.accept_else_bind (fun w hw => ?_) (.pure (Stmt.cond condition thenBranch none))
  have helse : Along σ closing (Option.map (Stmt.relabel σ.shift)) (some <$> statement depth)
      (some <$> nestedStatement') w := (h w (by omega)).map fun _ => rfl
  refine helse.bind fun elseBranch _ _ => ?_
  cases elseBranch with
  | none => exact .pure (Stmt.cond condition thenBranch none)
  | some elseBranch => exact .pure (Stmt.cond condition thenBranch (some elseBranch))

/-- A `while` statement agrees as far as the seam. -/
theorem whileStatement_along (hs : s.rest.length ≤ n) :
    AlongStmt σ closing (whileStatement (statement depth)) (whileStatement nestedStatement') s := by
  refine Along.expect_bind fun _ t ht => .bind_expect (fullExpression_along t) ?_
  exact fun condition _ u hu => (h u (by omega)).bind fun body _ _ =>
    .pure (Stmt.loop condition body)

variable (h' : ∀ s, s.rest.length < n →
  AlongDeclaration σ False (declaration depth) nested' s)

include h'

/-- Statements that declare nothing agree as far as the seam. -/
theorem plainStatement_along (hs : s.rest.length ≤ n) : AlongStmt σ closing
    (plainStatement (statement depth) (declaration depth))
    (plainStatement nestedStatement' nested') s := by
  have hproceeds := plainStatement_proceeds (fun _ => trivial)
    (statement_proceeds (fun _ => trivial) depth)
    (declaration_proceeds_any (fun _ => trivial) depth) s
  -- at the end of the first text there is no statement to agree upon
  refine Along.peekKind_bind (fun _ hend => hproceeds.not_ok_of_atEnd hend) ?_
  split <;> rename_i hkind
  · exact .next_bind (by simp [hkind]) fun _ t ht => forStatement_along h (by omega)
  · exact .next_bind (by simp [hkind]) fun _ t ht => ifStatement_along h (by omega)
  · exact .next_bind (by simp [hkind]) fun _ t ht => whileStatement_along h (by omega)
  · exact .next_bind (by simp [hkind]) fun keyword t _ => returnStatement_along keyword t
  · refine Along.next_bind (by simp [hkind]) fun _ t ht => (block_along h' (by omega)).bind ?_
    intro body _ _
    rw [← Stmt.relabelList_eq_map]
    exact .pure (Stmt.block body)
  · exact .next_bind (by simp [hkind]) fun _ t _ => printStatement_along t
  · exact expressionStatement_along s

/-- Statements of any kind agree as far as the seam. -/
theorem anyStatement_along (hs : s.rest.length ≤ n) : AlongStmt σ closing
    (anyStatement (statement depth) (declaration depth))
    (anyStatement nestedStatement' nested') s := by
  have hproceeds := anyStatement_proceeds (fun _ => trivial)
    (statement_proceeds (fun _ => trivial) depth)
    (declaration_proceeds_any (fun _ => trivial) depth) s
  refine Along.peekKind_bind (fun _ hend => hproceeds.not_ok_of_atEnd hend) ?_
  split <;> rename_i hkind
  · exact .next_bind (by simp [hkind]) fun _ t ht => classDeclaration_along h' (by omega)
  · exact .next_bind (by simp [hkind]) fun _ t ht => (function_along false h' (by omega)).bind
      fun d _ _ => .pure (Stmt.funDecl d)
  · exact .next_bind (by simp [hkind]) fun _ t _ => varDeclaration_along t
  · exact plainStatement_along h h' hs

end Nested

/-- After an error before the seam both go on at the same boundary, if that is before the seam. A
    statement that has failed is never done at the seam. -/
theorem recovering_along {p p' : Parser Stmt} (h : AlongStmt σ closing p p' s)
    (hp : Proceeds (fun _ => True) 1 p s) :
    AlongDeclaration σ closing (recovering p) (recovering p') s := by
  unfold Proceeds at hp
  unfold AlongStmt Along at h
  unfold AlongDeclaration Along
  rw [recovering_run]
  cases hrun : p.run s with
  | ok stmt t =>
    rw [hrun] at h
    refine ⟨h.1, fun hinside s' habreast => ?_⟩
    obtain ⟨t', hrun', ht⟩ := h.2 hinside s' habreast
    exact ⟨t', by rw [recovering_run, hrun']; rfl, ht⟩
  | error e t =>
    rw [hrun] at h hp
    have hreport := ParserState.Later.report t e
    have hrecover := ParserState.Later.recover (t.report e)
    refine ⟨(h.1.trans hreport).trans hrecover, fun hinside s' habreast => ?_⟩
    -- what may end at the seam has noted no such error
    have hlt : σ.behind.length < (t.report e).recover.rest.length := by
      refine hinside.resolve_right fun ⟨_, _, hclean⟩ => ?_
      obtain ⟨-, what, rfl⟩ := hp
      have hfault := hclean _ (hrecover.errors _ (by simp [ParserState.report]; exact .inr rfl))
      cases hfault
    have hbefore := Nat.lt_of_lt_of_le hlt hrecover.length_le
    obtain ⟨t', hrun', ht⟩ := h.2 (.of_before hbefore) s' habreast
    exact ⟨_, by rw [recovering_run, hrun']; rfl, (ht.report e).recover hlt⟩

/-- Statements and declarations that are nested no deeper than there are tokens before the seam,
    and not quite as deeply if they may end there. -/
theorem statement_declaration_along (depth depth' : Nat) (s : ParserState)
    (hdepth : s.rest.length ≤ depth + σ.behind.length)
    (hdepth' : s.rest.length ≤ depth' + σ.behind.length)
    (hclosing : closing → s.rest.length < depth + σ.behind.length ∧
      s.rest.length < depth' + σ.behind.length) :
    AlongStmt σ closing (statement depth) (statement depth') s ∧
      AlongDeclaration σ closing (declaration depth) (declaration depth') s := by
  induction depth generalizing depth' s with
  | zero =>
    rw [statement, declaration]
    have hfails : AlongStmt σ False (unexpected .expression) (unexpected .expression) s :=
      .unexpected .expression
    have hseam (hc : closing) : s.rest.length < σ.behind.length := by
      have := hclosing hc
      omega
    refine ⟨hfails.elsewhere (by omega) hseam, ?_⟩
    exact (recovering_along hfails (.unexpected _)).elsewhere (by omega) hseam
  | succ depth ih =>
    -- the second parser may have no nesting left, so it is compared with one that has some first
    have hsucc (depth' : Nat) (hdepth' : s.rest.length ≤ depth' + 1 + σ.behind.length)
        (hclosing' : closing → s.rest.length < depth' + 1 + σ.behind.length) :
        AlongStmt σ closing (statement (depth + 1)) (statement (depth' + 1)) s ∧
          AlongDeclaration σ closing (declaration (depth + 1)) (declaration (depth' + 1)) s := by
      have hnested (t : ParserState) (ht : t.rest.length < s.rest.length) :=
        ih depth' t (by omega) (by omega) fun hc => by
          have := hclosing hc
          have := hclosing' hc
          omega
      rw [statement, declaration, statement, declaration]
      have hstatement (t : ParserState) (ht : t.rest.length < s.rest.length) := (hnested t ht).1
      have hdeclaration (t : ParserState) (ht : t.rest.length < s.rest.length) :=
        (hnested t ht).2.before
      refine ⟨plainStatement_along hstatement hdeclaration (Nat.le_refl _),
        recovering_along (anyStatement_along hstatement hdeclaration (Nat.le_refl _)) ?_⟩
      exact anyStatement_proceeds (fun _ => trivial) (statement_proceeds (fun _ => trivial) depth)
        (declaration_proceeds_any (fun _ => trivial) depth) s
    cases depth' with
    | zero =>
      have hseam (hc : closing) : s.rest.length < σ.behind.length := by
        have := hclosing hc
        omega
      have hmany := hsucc s.rest.length (by omega) fun _ => by omega
      exact ⟨hmany.1.elsewhere (by omega) hseam, hmany.2.elsewhere (by omega) hseam⟩
    | succ depth' => exact hsucc depth' hdepth' fun hc => (hclosing hc).2

/-- A program, as far as it stays before the seam. -/
theorem program_along (bound bound' : Nat) (s : ParserState)
    (hbound : s.rest.length ≤ bound + σ.behind.length)
    (hbound' : s.rest.length ≤ bound' + σ.behind.length) :
    Along σ False (List.map (Stmt.relabel σ.shift)) (program bound) (program bound') s := by
  induction bound generalizing bound' s with
  | zero => exact .pure_elsewhere [] (by omega)
  | succ bound ih =>
    refine Along.of_succ program (fun bound' hbound' => ?_) bound' hbound'
    refine Along.stop_bind (fun s' hcurrent => ?_) (.pure []) fun hend s' hlength => ?_
    · simp only [ParserState.atEnd, hcurrent]
    -- the depths differ with what is left, but either is enough for the declaration
    · have hfirst : AlongDeclaration σ False (declaration s.rest.length)
          (declaration s'.rest.length) s :=
        (statement_declaration_along _ _ s (Nat.le_add_right _ _) hlength False.elim).2
      refine hfirst.bind_lt (fun o t => declaration_length_lt hend) fun first t ht => ?_
      refine (ih bound' t (by omega) (by omega)).bind fun rest _ _ => ?_
      rw [toList_append_relabel]
      exact .pure _

end Parser

end Lox
