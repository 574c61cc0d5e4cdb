import Lox.Syntax

/-!
# The grammar

What the tokens of a program stand for. A `Phrase` is a part of an expression with its tree,
a `Clause` a part of a statement with its tree; their derivations follow the grammar rule by rule.
A repetition carries the tree of what stands before it, so operators of one level group to the
left. Derivations also number the referring nodes: `first` is the number of the first one and
`next` that of the first one after them.

Without further rules an `else` may belong to any `if` before it that has none. In the derivations
with `nearest` no statement before an `else` may end with an `if` that has none.

## Key results

- `Phrase.Derives.var_cases`, `Phrase.Derives.get_cases`: only a name or a property stands where a
  target does
- `Clause.Derives.declarations_begins`, `Clause.Derives.statement_begins`: first tokens
- `Clause.Derives.exists_nearest`: tokens with any derivation have one that attaches each `else` to
  the nearest `if`
-/

namespace Lox

/-! ## Expressions -/

/-- The levels of binary and logical operators, from the loosest to the tightest. -/
inductive Level where
  | disjunction | conjunction | equality | comparison | term | factor
  deriving DecidableEq

/-- A part of an expression and its tree. -/
inductive Phrase where
  | expression (e : Expr)
  /-- An operand of this level and the operators of the level after it. -/
  | level (l : Level) (e : Expr)
  /-- What follows an operand of a level. -/
  | operands (l : Level) (left e : Expr)
  | unary (e : Expr)
  | call (e : Expr)
  /-- What follows a primary expression. -/
  | postfixes (left e : Expr)
  | primary (e : Expr)
  | arguments (es : List Expr)

namespace Level

/-- The operators of a level. -/
def operators : Level → List TokenKind
  | disjunction => [.keyword .or]
  | conjunction => [.keyword .and]
  | equality => [.bangEqual, .equalEqual]
  | comparison => [.greater, .greaterEqual, .less, .lessEqual]
  | term => [.minus, .plus]
  | factor => [.slash, .star]

/-- The node for an operator of a level. -/
def node : Level → Token → Expr → Expr → Expr
  | disjunction | conjunction => .logical
  | equality | comparison | term | factor => .binary

/-- The operands of a level: expressions of the next tighter one. -/
def operand : Level → Expr → Phrase
  | disjunction => .level .conjunction
  | conjunction => .level .equality
  | equality => .level .comparison
  | comparison => .level .term
  | term => .level .factor
  | factor => .unary

end Level

/-- The value of a token that is a literal. -/
def TokenKind.literal? : TokenKind → Option Literal
  | .number value => some (.number value)
  | .string contents => some (.string contents)
  | .keyword .true => some .true
  | .keyword .false => some .false
  | .keyword .nil => some .nil
  | _ => none

namespace Phrase

/-- The derivations of expressions. -/
inductive Derives : Phrase → (first : Nat) → (tokens : List Token) → (next : Nat) → Prop
  -- assignment → ( call "." )? IDENT "=" assignment | logic_or
  | assign {value : Expr} {name equal : Token} {ts : List Token} {n m : Nat}
      (hname : name.kind = .identifier) (hequal : equal.kind = .equal)
      (hvalue : Derives (.expression value) (n + 1) ts m) :
      Derives (.expression (.assign ⟨m⟩ name value)) n (name :: equal :: ts) (m + 1)
  | set {object value : Expr} {dot name equal : Token} {ts ts' : List Token} {n m n' : Nat}
      (hobject : Derives (.call object) n ts m) (hdot : dot.kind = .dot)
      (hname : name.kind = .identifier) (hequal : equal.kind = .equal)
      (hvalue : Derives (.expression value) m ts' n') :
      Derives (.expression (.set object name value)) n (ts ++ dot :: name :: equal :: ts') n'
  | operation {e : Expr} {ts : List Token} {n n' : Nat}
      (h : Derives (.level .disjunction e) n ts n') : Derives (.expression e) n ts n'
  -- level → operand ( operator operand )*
  | level {l : Level} {left e : Expr} {ts ts' : List Token} {n m n' : Nat}
      (hleft : Derives (l.operand left) n ts m) (hrest : Derives (.operands l left e) m ts' n') :
      Derives (.level l e) n (ts ++ ts') n'
  | lastOperand {l : Level} {left : Expr} {n : Nat} : Derives (.operands l left left) n [] n
  | nextOperand {l : Level} {right left e : Expr} {op : Token} {ts ts' : List Token} {n m n' : Nat}
      (hop : op.kind ∈ l.operators) (hright : Derives (l.operand right) n ts m)
      (hrest : Derives (.operands l (l.node op left right) e) m ts' n') :
      Derives (.operands l left e) n (op :: ts ++ ts') n'
  -- unary → ( "!" | "-" ) unary | call
  | unary {e : Expr} {op : Token} {ts : List Token} {n n' : Nat} (hop : op.kind ∈ [.bang, .minus])
      (h : Derives (.unary e) n ts n') : Derives (.unary (.unary op e)) n (op :: ts) n'
  | operand {e : Expr} {ts : List Token} {n n' : Nat} (h : Derives (.call e) n ts n') :
      Derives (.unary e) n ts n'
  -- call → primary ( "(" arguments? ")" | "." IDENT )*
  | call {left e : Expr} {ts ts' : List Token} {n m n' : Nat}
      (hleft : Derives (.primary left) n ts m) (hrest : Derives (.postfixes left e) m ts' n') :
      Derives (.call e) n (ts ++ ts') n'
  | lastPostfix {left : Expr} {n : Nat} : Derives (.postfixes left left) n [] n
  | emptyCall {left e : Expr} {lparen rparen : Token} {ts : List Token} {n n' : Nat}
      (hlparen : lparen.kind = .leftParen) (hrparen : rparen.kind = .rightParen)
      (hrest : Derives (.postfixes (.call left rparen []) e) n ts n') :
      Derives (.postfixes left e) n (lparen :: rparen :: ts) n'
  | callWith {left e : Expr} {es : List Expr} {lparen rparen : Token} {ts ts' : List Token}
      {n m n' : Nat} (hlparen : lparen.kind = .leftParen)
      (harguments : Derives (.arguments es) n ts m) (hcount : es.length ≤ 255)
      (hrparen : rparen.kind = .rightParen)
      (hrest : Derives (.postfixes (.call left rparen es) e) m ts' n') :
      Derives (.postfixes left e) n (lparen :: ts ++ rparen :: ts') n'
  | property {left e : Expr} {dot name : Token} {ts : List Token} {n n' : Nat}
      (hdot : dot.kind = .dot) (hname : name.kind = .identifier)
      (hrest : Derives (.postfixes (.get left name) e) n ts n') :
      Derives (.postfixes left e) n (dot :: name :: ts) n'
  -- arguments → expression ( "," expression )*
  | lastArgument {e : Expr} {ts : List Token} {n n' : Nat} (h : Derives (.expression e) n ts n') :
      Derives (.arguments [e]) n ts n'
  | nextArgument {e : Expr} {es : List Expr} {comma : Token} {ts ts' : List Token} {n m n' : Nat}
      (h : Derives (.expression e) n ts m) (hcomma : comma.kind = .comma)
      (hrest : Derives (.arguments es) m ts' n') :
      Derives (.arguments (e :: es)) n (ts ++ comma :: ts') n'
  -- primary
  | literal {constant : Literal} {t : Token} {n : Nat} (h : t.kind.literal? = some constant) :
      Derives (.primary (.literal constant)) n [t] n
  | var {name : Token} {n : Nat} (hname : name.kind = .identifier) :
      Derives (.primary (.var ⟨n⟩ name)) n [name] (n + 1)
  | this {keyword : Token} {n : Nat} (h : keyword.kind = .keyword .this) :
      Derives (.primary (.this ⟨n⟩ keyword)) n [keyword] (n + 1)
  | super {keyword dot method : Token} {n : Nat} (h : keyword.kind = .keyword .super)
      (hdot : dot.kind = .dot) (hmethod : method.kind = .identifier) :
      Derives (.primary (.super ⟨n⟩ keyword method)) n [keyword, dot, method] (n + 1)
  | grouping {e : Expr} {lparen rparen : Token} {ts : List Token} {n n' : Nat}
      (hlparen : lparen.kind = .leftParen) (h : Derives (.expression e) n ts n')
      (hrparen : rparen.kind = .rightParen) :
      Derives (.primary (.grouping e)) n (lparen :: ts ++ [rparen]) n'

/-! ### First tokens -/

/-- Tokens of which the first is of such a kind. -/
def Begins (p : TokenKind → Bool) (ts : List Token) : Prop :=
  ∃ t rest, ts = t :: rest ∧ p t.kind

/-- What begins in some way does so whatever stands behind it. -/
theorem Begins.append {p : TokenKind → Bool} {ts : List Token} (h : Begins p ts)
    (ts' : List Token) : Begins p (ts ++ ts') := by
  obtain ⟨t, rest, rfl, ht⟩ := h
  exact ⟨t, rest ++ ts', rfl, ht⟩

/-- What begins in some way begins in any weaker one. -/
theorem Begins.mono {p q : TokenKind → Bool} {ts : List Token} (h : Begins p ts)
    (hpq : ∀ kind, p kind → q kind) : Begins q ts := by
  obtain ⟨t, rest, rfl, ht⟩ := h
  exact ⟨t, rest, rfl, hpq _ ht⟩

/-- The kinds of tokens with which a primary expression starts. -/
def startsPrimary (kind : TokenKind) : Bool :=
  kind.literal?.isSome || kind ∈ [.identifier, .keyword .this, .keyword .super, .leftParen]

/-- The kinds of tokens with which an expression starts. -/
def startsExpression (kind : TokenKind) : Bool :=
  startsPrimary kind || kind ∈ [.bang, .minus]

/-- With what the tokens of a phrase start. -/
private def Starts : Phrase → List Token → Prop
  | .operands .., _ | .postfixes .., _ => True
  | .call _, ts | .primary _, ts => Begins startsPrimary ts
  | .expression _, ts | .level .., ts | .unary _, ts | .arguments _, ts =>
    Begins startsExpression ts

/-- An operand starts like an expression. -/
private theorem starts_operand {l : Level} {e : Expr} {ts : List Token}
    (h : (l.operand e).Starts ts) : Begins startsExpression ts := by
  cases l <;> exact h

/-- What a phrase starts with, by induction on its derivation. -/
private theorem Derives.start {p : Phrase} {n n' : Nat} {ts : List Token}
    (h : p.Derives n ts n') : p.Starts ts := by
  have hprimary : ∀ kind, startsPrimary kind → startsExpression kind := by
    intro kind h
    simp [startsExpression, h]
  induction h with
  | assign hname => exact ⟨_, _, rfl, by simp [startsExpression, startsPrimary, hname]⟩
  | set _ _ _ _ _ ih => exact (Begins.mono ih hprimary).append _
  | operation _ ih => exact ih
  | level _ _ ih => exact (starts_operand ih).append _
  -- what stands behind a left operand is not said to start in any way
  | lastOperand | nextOperand | lastPostfix | emptyCall | callWith | property => trivial
  | unary hop => exact ⟨_, _, rfl, by simpa [startsExpression] using .inr (by simpa using hop)⟩
  | operand _ ih => exact Begins.mono ih hprimary
  | call _ _ ih => exact Begins.append ih _
  | lastArgument _ ih => exact ih
  | nextArgument _ _ _ ih => exact Begins.append ih _
  | literal h => exact ⟨_, _, rfl, by simp [startsPrimary, h]⟩
  | var h | this h | super h | grouping h => exact ⟨_, _, rfl, by simp [startsPrimary, h]⟩

/-- An expression starts with a literal, a name, a parenthesis or an operator in front. -/
theorem Derives.expression_begins {e : Expr} {n n' : Nat} {ts : List Token}
    (h : (Phrase.expression e).Derives n ts n') : Begins startsExpression ts :=
  h.start

/-- Arguments start as expressions do. -/
theorem Derives.arguments_begins {es : List Expr} {n n' : Nat} {ts : List Token}
    (h : (Phrase.arguments es).Derives n ts n') : Begins startsExpression ts :=
  h.start

/-- A call starts with no operator. -/
theorem Derives.call_begins {e : Expr} {n n' : Nat} {ts : List Token}
    (h : (Phrase.call e).Derives n ts n') : Begins startsPrimary ts :=
  h.start

/-! ### Targets of assignments -/

/-- If the tree is a variable or a property, the tokens are just that. -/
private def IsTarget (e : Expr) (n : Nat) (ts : List Token) (n' : Nat) : Prop :=
  match e with
  | .var id name => id = ⟨n⟩ ∧ ts = [name] ∧ name.kind = .identifier ∧ n' = n + 1
  | .get object name => ∃ before dot, ts = before ++ [dot, name] ∧ dot.kind = .dot ∧
      name.kind = .identifier ∧ (call object).Derives n before n'
  | _ => True

/-- What is known of a phrase whose tree is a variable or a property. -/
private def Targets : Phrase → Nat → List Token → Nat → Prop
  | .level _ e, n, ts, n' | .unary e, n, ts, n' | .call e, n, ts, n' => IsTarget e n ts n'
  | .primary e, n, ts, n' => IsTarget e n ts n' ∧ ∀ object name, e ≠ .get object name
  | .operands _ left e, n, ts, n' => (ts = [] ∧ n' = n ∧ e = left) ∨ ∀ k us k', IsTarget e k us k'
  | .postfixes left e, n, ts, n' => (ts = [] ∧ n' = n ∧ e = left) ∨
      match e with
      | .var .. => False
      | .get object name => ∃ before dot, ts = before ++ [dot, name] ∧ dot.kind = .dot ∧
          name.kind = .identifier ∧ (postfixes left object).Derives n before n'
      | _ => True
  | .expression _, _, _, _ | .arguments _, _, _, _ => True

/-- What an operand says about targets is said of its expression. -/
private theorem targets_operand {l : Level} {e : Expr} {n n' : Nat} {ts : List Token}
    (h : (l.operand e).Targets n ts n') : IsTarget e n ts n' := by
  cases l <;> exact h

/-- A node is never a target, because an operator is the last that is applied in it. -/
private theorem isTarget_node (l : Level) (op : Token) (left right : Expr) (n : Nat)
    (ts : List Token) (n' : Nat) : IsTarget (l.node op left right) n ts n' := by
  cases l <;> trivial

/-- A property after a call is one after the call with more in front of it. -/
private theorem Targets.prepend {left before e : Expr} {n m n' : Nat} {ts : List Token}
    (us : List Token) (h : (postfixes left e).Targets m ts n')
    (hlast : ∀ object name, left = .get object name → ∃ us' dot, us = us' ++ [dot, name] ∧
      dot.kind = .dot ∧ name.kind = .identifier ∧ (postfixes before object).Derives n us' m)
    (hvar : ∀ id name, left ≠ .var id name)
    (hcons : ∀ object ts n', (postfixes left object).Derives m ts n' →
      (postfixes before object).Derives n (us ++ ts) n') :
    (postfixes before e).Targets n (us ++ ts) n' := by
  refine .inr ?_
  rcases h with ⟨rfl, rfl, rfl⟩ | h
  · -- nothing follows, so the property is the last one
    rw [List.append_nil]
    cases e with
    | var id name => exact absurd rfl (hvar id name)
    | get object name => exact hlast object name rfl
    | _ => trivial
  · cases e with
    | var => exact h
    | get object name =>
      obtain ⟨us', dot, rfl, hdot, hname, h⟩ := h
      exact ⟨us ++ us', dot, (List.append_assoc ..).symm, hdot, hname, hcons _ _ _ h⟩
    | _ => trivial

/-- Which expressions are targets, by induction on the derivation. -/
private theorem Derives.targets {p : Phrase} {n n' : Nat} {ts : List Token}
    (h : p.Derives n ts n') : p.Targets n ts n' := by
  induction h with
  | assign | set | operation | lastArgument | nextArgument => trivial
  | @level l left e ts ts' n m n' _ _ ihleft ihrest =>
    rcases ihrest with ⟨rfl, rfl, rfl⟩ | h
    · rw [List.append_nil]
      exact targets_operand ihleft
    · exact h _ _ _
  | lastOperand | lastPostfix => exact .inl ⟨rfl, rfl, rfl⟩
  | @nextOperand l right left e op ts ts' n m n' _ _ _ _ ihrest =>
    rcases ihrest with ⟨rfl, rfl, rfl⟩ | h
    · exact .inr (isTarget_node l op left right)
    · exact .inr h
  | unary => trivial
  | operand _ ih => exact ih
  -- with nothing behind the operand it is the target itself; otherwise only a property at the end
  -- can be one
  | @call left e ts ts' n m n' hleft _ ihleft ihrest =>
    rcases ihrest with ⟨rfl, rfl, rfl⟩ | h
    · rw [List.append_nil]
      exact ihleft.1
    · cases e with
      | var => exact h.elim
      | get object name =>
        obtain ⟨before, dot, rfl, hdot, hname, h⟩ := h
        exact ⟨ts ++ before, dot, (List.append_assoc ..).symm, hdot, hname, .call hleft h⟩
      | _ => trivial
  | @emptyCall left e lparen rparen ts n n' hlparen hrparen _ ih =>
    exact Targets.prepend [lparen, rparen] ih (by simp) (by simp)
      fun _ _ _ h => .emptyCall hlparen hrparen h
  | @callWith left e es lparen rparen ts ts' n m n' hlparen harguments hcount hrparen _ _ ih =>
    have := Targets.prepend (lparen :: ts ++ [rparen]) ih (by simp) (by simp)
      fun _ _ _ h => by simpa using .callWith hlparen harguments hcount hrparen h
    simpa using this
  | @property left e dot name ts n n' hdot hname _ ih =>
    refine Targets.prepend [dot, name] ih ?_ (by simp) fun _ _ _ h => .property hdot hname h
    rintro object name ⟨⟩
    exact ⟨[], dot, rfl, hdot, hname, .lastPostfix⟩
  | literal => exact ⟨trivial, by simp⟩
  | var hname => exact ⟨⟨rfl, rfl, hname, rfl⟩, by simp⟩
  | this | super | grouping => exact ⟨trivial, by simp⟩

/-- A variable stands alone. -/
theorem Derives.var_cases {l : Level} {id : NodeId} {name : Token} {n n' : Nat} {ts : List Token}
    (h : (Phrase.level l (.var id name)).Derives n ts n') :
    id = ⟨n⟩ ∧ ts = [name] ∧ name.kind = .identifier ∧ n' = n + 1 :=
  h.targets

/-- A property stands after a call. -/
theorem Derives.get_cases {l : Level} {object : Expr} {name : Token} {n n' : Nat}
    {ts : List Token} (h : (Phrase.level l (.get object name)).Derives n ts n') :
    ∃ before dot, ts = before ++ [dot, name] ∧ dot.kind = .dot ∧ name.kind = .identifier ∧
      (Phrase.call object).Derives n before n' :=
  h.targets

end Phrase

/-! ## Statements -/

/-- The derivations of expressions that may be missing. -/
inductive OptionalExpression : Option Expr → (first : Nat) → List Token → (next : Nat) → Prop
  | none {n : Nat} : OptionalExpression none n [] n
  | some {e : Expr} {ts : List Token} {n n' : Nat} (h : (Phrase.expression e).Derives n ts n') :
      OptionalExpression (some e) n ts n'

/-- The derivations of variable declarations. -/
inductive VariableDeclaration : Stmt → (first : Nat) → List Token → (next : Nat) → Prop
  -- varDecl → "var" IDENT ( "=" expression )? ";"
  | bare {var name semicolon : Token} {n : Nat} (hvar : var.kind = .keyword .var)
      (hname : name.kind = .identifier) (hsemicolon : semicolon.kind = .semicolon) :
      VariableDeclaration (.varDecl name none) n [var, name, semicolon] n
  | initialized {e : Expr} {var name equal semicolon : Token} {ts : List Token} {n n' : Nat}
      (hvar : var.kind = .keyword .var) (hname : name.kind = .identifier)
      (hequal : equal.kind = .equal) (h : (Phrase.expression e).Derives n ts n')
      (hsemicolon : semicolon.kind = .semicolon) :
      VariableDeclaration (.varDecl name (some e)) n (var :: name :: equal :: ts ++ [semicolon]) n'

/-- The derivations of expressions as statements. -/
inductive ExpressionStatement : Stmt → (first : Nat) → List Token → (next : Nat) → Prop
  -- exprStmt → expression ";"
  | expression {e : Expr} {semicolon : Token} {ts : List Token} {n n' : Nat}
      (h : (Phrase.expression e).Derives n ts n') (hsemicolon : semicolon.kind = .semicolon) :
      ExpressionStatement (.expression e) n (ts ++ [semicolon]) n'

/-- An expression statement begins like its expression. -/
theorem ExpressionStatement.begins {s : Stmt} {n n' : Nat} {ts : List Token}
    (h : ExpressionStatement s n ts n') : Phrase.Begins Phrase.startsExpression ts := by
  cases h with
  | expression h => exact h.expression_begins.append _

/-- The derivations of what stands first in the head of a `for`. -/
inductive Initializer : Option Stmt → (first : Nat) → List Token → (next : Nat) → Prop
  -- varDecl | exprStmt | ";"
  | none {semicolon : Token} {n : Nat} (hsemicolon : semicolon.kind = .semicolon) :
      Initializer none n [semicolon] n
  | varDecl {s : Stmt} {ts : List Token} {n n' : Nat} (h : VariableDeclaration s n ts n') :
      Initializer (some s) n ts n'
  | expression {s : Stmt} {ts : List Token} {n n' : Nat} (h : ExpressionStatement s n ts n') :
      Initializer (some s) n ts n'

/-- The derivations of parameters that may be missing. -/
inductive Parameters : (params : List Token) → List Token → Prop
  -- ( IDENT ( "," IDENT )* )?
  | none : Parameters [] []
  | last {name : Token} (hname : name.kind = .identifier) : Parameters [name] [name]
  | next {name comma : Token} {params ts : List Token} (hname : name.kind = .identifier)
      (hcomma : comma.kind = .comma) (hne : params ≠ []) (hrest : Parameters params ts) :
      Parameters (name :: params) (name :: comma :: ts)

/-- Does a statement end with an `if` that has no `else`? -/
inductive Ending where
  | opened
  | closed
  deriving DecidableEq

/-- A part of a program and its tree. -/
inductive Clause where
  | declarations (body : List Stmt)
  | declaration (s : Stmt)
  | statement (ending : Ending) (s : Stmt)
  /-- A function from its name on. -/
  | function (d : FunctionDecl)
  | methods (ds : List FunctionDecl)

namespace Clause

/-- The derivations of declarations and statements. -/
inductive Derives (nearest : Bool) :
    Clause → (first : Nat) → (tokens : List Token) → (next : Nat) → Prop
  -- program and the inside of a block → declaration*
  | noDeclaration {n : Nat} : Derives nearest (.declarations []) n [] n
  | nextDeclaration {s : Stmt} {body : List Stmt} {ts₁ ts₂ : List Token} {n m n' : Nat}
      (h : Derives nearest (.declaration s) n ts₁ m)
      (hrest : Derives nearest (.declarations body) m ts₂ n') :
      Derives nearest (.declarations (s :: body)) n (ts₁ ++ ts₂) n'
  -- classDecl → "class" IDENT ( "<" IDENT )? "{" function* "}"
  | classDecl {ds : List FunctionDecl} {keyword name lbrace rbrace : Token} {ts : List Token}
      {n n' : Nat} (hkeyword : keyword.kind = .keyword .class_) (hname : name.kind = .identifier)
      (hlbrace : lbrace.kind = .leftBrace) (hmethods : Derives nearest (.methods ds) n ts n')
      (hrbrace : rbrace.kind = .rightBrace) :
      Derives nearest (.declaration (.classDecl ⟨name, none, ds⟩)) n
        (keyword :: name :: lbrace :: ts ++ [rbrace]) n'
  | subclassDecl {ds : List FunctionDecl} {keyword name less superName lbrace rbrace : Token}
      {ts : List Token} {n n' : Nat} (hkeyword : keyword.kind = .keyword .class_)
      (hname : name.kind = .identifier) (hless : less.kind = .less)
      (hsuper : superName.kind = .identifier) (hlbrace : lbrace.kind = .leftBrace)
      (hmethods : Derives nearest (.methods ds) (n + 1) ts n')
      (hrbrace : rbrace.kind = .rightBrace) :
      Derives nearest (.declaration (.classDecl ⟨name, some (.var ⟨n⟩ superName), ds⟩)) n
        (keyword :: name :: less :: superName :: lbrace :: ts ++ [rbrace]) n'
  -- funDecl → "fun" function
  | funDecl {d : FunctionDecl} {keyword : Token} {ts : List Token} {n n' : Nat}
      (hkeyword : keyword.kind = .keyword .fun_) (h : Derives nearest (.function d) n ts n') :
      Derives nearest (.declaration (.funDecl d)) n (keyword :: ts) n'
  | varDecl {s : Stmt} {ts : List Token} {n n' : Nat} (h : VariableDeclaration s n ts n') :
      Derives nearest (.declaration s) n ts n'
  | statement {s : Stmt} {ending : Ending} {ts : List Token} {n n' : Nat}
      (h : Derives nearest (.statement ending s) n ts n') : Derives nearest (.declaration s) n ts n'
  -- function → IDENT "(" parameters? ")" block
  | function {body : List Stmt} {name lparen rparen lbrace rbrace : Token}
      {params ts₁ ts₂ : List Token} {n n' : Nat} (hname : name.kind = .identifier)
      (hlparen : lparen.kind = .leftParen) (hparams : Parameters params ts₁)
      (hcount : params.length ≤ 255) (hrparen : rparen.kind = .rightParen)
      (hlbrace : lbrace.kind = .leftBrace) (hbody : Derives nearest (.declarations body) n ts₂ n')
      (hrbrace : rbrace.kind = .rightBrace) :
      Derives nearest (.function ⟨name, params, body⟩) n
        (name :: lparen :: ts₁ ++ rparen :: lbrace :: ts₂ ++ [rbrace]) n'
  | noMethod {n : Nat} : Derives nearest (.methods []) n [] n
  | nextMethod {d : FunctionDecl} {ds : List FunctionDecl} {ts₁ ts₂ : List Token} {n m n' : Nat}
      (h : Derives nearest (.function d) n ts₁ m) (hrest : Derives nearest (.methods ds) m ts₂ n') :
      Derives nearest (.methods (d :: ds)) n (ts₁ ++ ts₂) n'
  -- statement
  | exprStmt {s : Stmt} {ts : List Token} {n n' : Nat} (h : ExpressionStatement s n ts n') :
      Derives nearest (.statement .closed s) n ts n'
  | printStmt {e : Expr} {keyword semicolon : Token} {ts : List Token} {n n' : Nat}
      (hkeyword : keyword.kind = .keyword .print) (h : (Phrase.expression e).Derives n ts n')
      (hsemicolon : semicolon.kind = .semicolon) :
      Derives nearest (.statement .closed (.print e)) n (keyword :: ts ++ [semicolon]) n'
  | returnStmt {value : Option Expr} {keyword semicolon : Token} {ts : List Token} {n n' : Nat}
      (hkeyword : keyword.kind = .keyword .return_) (h : OptionalExpression value n ts n')
      (hsemicolon : semicolon.kind = .semicolon) :
      Derives nearest (.statement .closed (.ret keyword value)) n (keyword :: ts ++ [semicolon]) n'
  | block {body : List Stmt} {lbrace rbrace : Token} {ts : List Token} {n n' : Nat}
      (hlbrace : lbrace.kind = .leftBrace) (h : Derives nearest (.declarations body) n ts n')
      (hrbrace : rbrace.kind = .rightBrace) :
      Derives nearest (.statement .closed (.block body)) n (lbrace :: ts ++ [rbrace]) n'
  | whileStmt {s : Stmt} {condition : Expr} {ending : Ending} {keyword lparen rparen : Token}
      {ts₁ ts₂ : List Token} {n m n' : Nat} (hkeyword : keyword.kind = .keyword .while_)
      (hlparen : lparen.kind = .leftParen)
      (hcondition : (Phrase.expression condition).Derives n ts₁ m)
      (hrparen : rparen.kind = .rightParen)
      (hbody : Derives nearest (.statement ending s) m ts₂ n') :
      Derives nearest (.statement ending (.loop condition s)) n
        (keyword :: lparen :: ts₁ ++ rparen :: ts₂) n'
  -- forStmt → "for" "(" ( varDecl | exprStmt | ";" ) expression? ";" expression? ")" statement
  | forStmt {s : Stmt} {initializer : Option Stmt} {test increment : Option Expr} {ending : Ending}
      {keyword lparen semicolon rparen : Token} {ts₁ ts₂ ts₃ ts₄ : List Token} {n m m₁ m₂ n' : Nat}
      (hkeyword : keyword.kind = .keyword .for_) (hlparen : lparen.kind = .leftParen)
      (hinitializer : Initializer initializer n ts₁ m) (htest : OptionalExpression test m ts₂ m₁)
      (hsemicolon : semicolon.kind = .semicolon)
      (hincrement : OptionalExpression increment m₁ ts₃ m₂) (hrparen : rparen.kind = .rightParen)
      (hbody : Derives nearest (.statement ending s) m₂ ts₄ n') :
      Derives nearest (.statement ending (.forLoop initializer test increment s)) n
        (keyword :: lparen :: ts₁ ++ (ts₂ ++ semicolon :: (ts₃ ++ rparen :: ts₄))) n'
  -- ifStmt → "if" "(" expression ")" statement ( "else" statement )?
  | ifStmt {thenBranch : Stmt} {condition : Expr} {ending : Ending} {keyword lparen rparen : Token}
      {ts₁ ts₂ : List Token} {n m n' : Nat} (hkeyword : keyword.kind = .keyword .if_)
      (hlparen : lparen.kind = .leftParen)
      (hcondition : (Phrase.expression condition).Derives n ts₁ m)
      (hrparen : rparen.kind = .rightParen)
      (hthen : Derives nearest (.statement ending thenBranch) m ts₂ n') :
      Derives nearest (.statement .opened (.cond condition thenBranch none)) n
        (keyword :: lparen :: ts₁ ++ rparen :: ts₂) n'
  | ifElseStmt {thenBranch elseBranch : Stmt} {condition : Expr} {before ending : Ending}
      {keyword lparen rparen else_ : Token} {ts₁ ts₂ ts₃ : List Token} {n m m₁ n' : Nat}
      (hkeyword : keyword.kind = .keyword .if_) (hlparen : lparen.kind = .leftParen)
      (hcondition : (Phrase.expression condition).Derives n ts₁ m)
      (hrparen : rparen.kind = .rightParen)
      (hthen : Derives nearest (.statement before thenBranch) m ts₂ m₁)
      (hnearest : nearest → before = .closed) (helse : else_.kind = .keyword .else_)
      (h : Derives nearest (.statement ending elseBranch) m₁ ts₃ n') :
      Derives nearest (.statement ending (.cond condition thenBranch (some elseBranch))) n
        (keyword :: lparen :: ts₁ ++ rparen :: (ts₂ ++ else_ :: ts₃)) n'

/-! ### First tokens -/

/-- The kinds of tokens with which a statement starts that declares nothing. -/
def startsPlain (kind : TokenKind) : Bool :=
  Phrase.startsExpression kind ||
    kind ∈ [.leftBrace, .keyword .for_, .keyword .if_, .keyword .while_, .keyword .return_,
      .keyword .print]

/-- The kinds of tokens with which a declaration or any other statement starts. -/
def startsDeclaration (kind : TokenKind) : Bool :=
  startsPlain kind || kind ∈ [.keyword .class_, .keyword .fun_, .keyword .var]

/-- With what the tokens of a clause start. -/
private def Starts : Clause → List Token → Prop
  | .declarations _, ts => ts = [] ∨ Phrase.Begins startsDeclaration ts
  | .declaration _, ts => Phrase.Begins startsDeclaration ts
  | .statement .., ts => Phrase.Begins startsPlain ts
  | .function _, ts => Phrase.Begins (· = .identifier) ts
  | .methods _, ts => ts = [] ∨ Phrase.Begins (· = .identifier) ts

variable {nearest : Bool} {s : Stmt} {n n' : Nat} {ts : List Token}

/-- What a clause starts with, by induction on its derivation. -/
private theorem Derives.start {c : Clause} (h : c.Derives nearest n ts n') : c.Starts ts := by
  induction h with
  | noDeclaration | noMethod => exact .inl rfl
  | nextDeclaration _ _ ih => exact .inr (ih.append _)
  | nextMethod _ _ ih =>
    have ih : Phrase.Begins (· = .identifier) _ := ih
    exact .inr (ih.append _)
  | classDecl h | subclassDecl h | funDecl h =>
    exact ⟨_, _, rfl, by simp [startsDeclaration, h]⟩
  | varDecl h =>
    cases h with
    | bare h | initialized h => exact ⟨_, _, rfl, by simp [startsDeclaration, h]⟩
  -- a statement starts like a declaration, but not the other way round
  | statement _ ih => exact ih.mono fun kind h => by simp [startsDeclaration, h]
  | function h => exact ⟨_, _, rfl, by simpa using h⟩
  | exprStmt h => exact h.begins.mono fun kind h => by simp [startsPlain, h]
  | printStmt h | returnStmt h | block h | whileStmt h | forStmt h | ifStmt h | ifElseStmt h =>
    exact ⟨_, _, rfl, by simp [startsPlain, h]⟩

/-- Declarations start as each of them does. -/
theorem Derives.declarations_begins {body : List Stmt}
    (h : (Clause.declarations body).Derives nearest n ts n') :
    ts = [] ∨ Phrase.Begins startsDeclaration ts :=
  h.start

/-- A declaration has a first token. -/
theorem Derives.declaration_begins (h : (Clause.declaration s).Derives nearest n ts n') :
    Phrase.Begins startsDeclaration ts :=
  h.start

/-- A statement that declares nothing starts with no keyword of a declaration. -/
theorem Derives.statement_begins {ending : Ending}
    (h : (Clause.statement ending s).Derives nearest n ts n') : Phrase.Begins startsPlain ts :=
  h.start

/-- A function starts with its name. -/
theorem Derives.function_begins {d : FunctionDecl} (h : (Clause.function d).Derives nearest n ts n') :
    Phrase.Begins (· = .identifier) ts :=
  h.start

/-! ### Attaching an `else` to the nearest `if` -/

/-- An `else` after a statement that ends with an `if` without one attaches to that `if`. -/
private theorem Derives.attach {thenBranch elseBranch : Stmt} {ending : Ending} {m : Nat}
    {else_ : Token} {ts₁ ts₂ : List Token}
    (hthen : (Clause.statement .opened thenBranch).Derives true n ts₁ m)
    (helse : else_.kind = .keyword .else_)
    (h : (Clause.statement ending elseBranch).Derives true m ts₂ n') :
    ∃ ending' s, (Clause.statement ending' s).Derives true n (ts₁ ++ else_ :: ts₂) n' := by
  generalize hc : Clause.statement .opened thenBranch = c at hthen
  induction hthen generalizing thenBranch with
  | whileStmt hkeyword hlparen hcondition hrparen _ ih =>
    cases hc
    obtain ⟨_, _, hbody⟩ := ih h rfl
    exact ⟨_, _, by simpa using .whileStmt hkeyword hlparen hcondition hrparen hbody⟩
  | forStmt hkeyword hlparen hinitializer htest hsemicolon hincrement hrparen _ ih =>
    cases hc
    obtain ⟨_, _, hbody⟩ := ih h rfl
    exact ⟨_, _, by
      simpa using .forStmt hkeyword hlparen hinitializer htest hsemicolon hincrement hrparen hbody⟩
  -- an `if` without an `else` takes it, unless one further inside still can
  | @ifStmt _ _ before _ _ _ _ _ _ _ _ hkeyword hlparen hcondition hrparen hthen ih =>
    cases hc
    cases before with
    | closed =>
      exact ⟨_, _, by
        simpa using .ifElseStmt hkeyword hlparen hcondition hrparen hthen (fun _ => rfl) helse h⟩
    | opened =>
      obtain ⟨_, _, hbody⟩ := ih h rfl
      exact ⟨_, _, by simpa using .ifStmt hkeyword hlparen hcondition hrparen hbody⟩
  | ifElseStmt hkeyword hlparen hcondition hrparen hthen hnearest helse' _ _ ih =>
    cases hc
    obtain ⟨_, _, hbody⟩ := ih h rfl
    exact ⟨_, _, by
      simpa using
        .ifElseStmt hkeyword hlparen hcondition hrparen hthen hnearest helse' hbody⟩
  | _ => cases hc

/-- The tokens of a clause have a derivation with each `else` at the nearest `if`. -/
private def HasNearest : Clause → Nat → List Token → Nat → Prop
  | .declarations _, n, ts, n' => ∃ body, (Clause.declarations body).Derives true n ts n'
  | .declaration _, n, ts, n' => ∃ s, (Clause.declaration s).Derives true n ts n'
  | .statement .., n, ts, n' => ∃ ending s, (Clause.statement ending s).Derives true n ts n'
  | .function _, n, ts, n' => ∃ d, (Clause.function d).Derives true n ts n'
  | .methods _, n, ts, n' => ∃ ds, (Clause.methods ds).Derives true n ts n'

/-- A derivation in which each `else` belongs to the nearest `if`, by induction on any
    derivation. -/
private theorem Derives.hasNearest {c : Clause} (h : c.Derives false n ts n') :
    c.HasNearest n ts n' := by
  induction h with
  | noDeclaration => exact ⟨_, .noDeclaration⟩
  | nextDeclaration _ _ ih ihrest =>
    obtain ⟨_, h⟩ := ih
    obtain ⟨_, hrest⟩ := ihrest
    exact ⟨_, .nextDeclaration h hrest⟩
  | classDecl hkeyword hname hlbrace _ hrbrace ih =>
    obtain ⟨_, hmethods⟩ := ih
    exact ⟨_, .classDecl hkeyword hname hlbrace hmethods hrbrace⟩
  | subclassDecl hkeyword hname hless hsuper hlbrace _ hrbrace ih =>
    obtain ⟨_, hmethods⟩ := ih
    exact ⟨_, .subclassDecl hkeyword hname hless hsuper hlbrace hmethods hrbrace⟩
  | funDecl hkeyword _ ih =>
    obtain ⟨_, h⟩ := ih
    exact ⟨_, .funDecl hkeyword h⟩
  | varDecl h => exact ⟨_, .varDecl h⟩
  | statement _ ih =>
    obtain ⟨_, _, h⟩ := ih
    exact ⟨_, .statement h⟩
  | function hname hlparen hparams hcount hrparen hlbrace _ hrbrace ih =>
    obtain ⟨_, hbody⟩ := ih
    exact ⟨_, .function hname hlparen hparams hcount hrparen hlbrace hbody hrbrace⟩
  | noMethod => exact ⟨_, .noMethod⟩
  | nextMethod _ _ ih ihrest =>
    obtain ⟨_, h⟩ := ih
    obtain ⟨_, hrest⟩ := ihrest
    exact ⟨_, .nextMethod h hrest⟩
  | exprStmt h => exact ⟨_, _, .exprStmt h⟩
  | printStmt hkeyword h hsemicolon => exact ⟨_, _, .printStmt hkeyword h hsemicolon⟩
  | returnStmt hkeyword h hsemicolon => exact ⟨_, _, .returnStmt hkeyword h hsemicolon⟩
  | block hlbrace _ hrbrace ih =>
    obtain ⟨_, h⟩ := ih
    exact ⟨_, _, .block hlbrace h hrbrace⟩
  | whileStmt hkeyword hlparen hcondition hrparen _ ih =>
    obtain ⟨_, _, hbody⟩ := ih
    exact ⟨_, _, .whileStmt hkeyword hlparen hcondition hrparen hbody⟩
  | forStmt hkeyword hlparen hinitializer htest hsemicolon hincrement hrparen _ ih =>
    obtain ⟨_, _, hbody⟩ := ih
    exact ⟨_, _,
      .forStmt hkeyword hlparen hinitializer htest hsemicolon hincrement hrparen hbody⟩
  | ifStmt hkeyword hlparen hcondition hrparen _ ih =>
    obtain ⟨_, _, hthen⟩ := ih
    exact ⟨_, _, .ifStmt hkeyword hlparen hcondition hrparen hthen⟩
  | ifElseStmt hkeyword hlparen hcondition hrparen _ _ helse _ ihthen ih =>
    obtain ⟨before, _, hthen⟩ := ihthen
    obtain ⟨_, _, h⟩ := ih
    cases before with
    | closed =>
      exact ⟨_, _, .ifElseStmt hkeyword hlparen hcondition hrparen hthen (fun _ => rfl) helse h⟩
    | opened =>
      -- the `else` goes to an `if` inside the branch, and this `if` is left without one
      obtain ⟨_, _, hthen⟩ := hthen.attach helse h
      exact ⟨_, _, .ifStmt hkeyword hlparen hcondition hrparen hthen⟩

/-- A program with each `else` at some `if` is one with each at the nearest. -/
theorem Derives.exists_nearest {body : List Stmt}
    (h : (Clause.declarations body).Derives false n ts n') :
    ∃ body', (Clause.declarations body').Derives true n ts n' :=
  h.hasNearest

end Clause

end Lox
