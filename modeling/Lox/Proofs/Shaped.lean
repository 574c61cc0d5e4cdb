import Lox.Proofs.NumeralTexts
import Lox.Proofs.Words

/-!
# Tokens in trees

Every token in the tree of a text is a lexeme, and its place in the tree says of which kinds it can
be. As a lexeme alone in a text is scanned as itself, its spelling then tells its kind.

## Key results

- `Lexeme.ofText`: a lexeme is one segment
- `Clause.Derives.shaped`: the tokens in trees
- `Stmt.Shaped.of_mem_parts`: the statements inside a statement
-/

namespace Lox

/-! ## Lexemes alone -/

namespace Lexeme

open Segment

/-- A text that starts with a segment of its length is that segment. -/
private theorem ofText_eq_singleton {c : Char} {rest : List Char} {kind : SegmentKind}
    (h : first c rest = ⟨kind, c :: rest⟩) : Segment.ofText (c :: rest) = [⟨kind, c :: rest⟩] := by
  have hsegments := ofText_of_first h (List.append_nil _)
  rwa [List.append_nil] at hsegments

/-- A lexeme is one segment. -/
theorem ofText {text : List Char} {kind : TokenKind} (h : Lexeme text kind) :
    Segment.ofText text = [⟨.lexeme kind, text⟩] := by
  -- there are only so many keywords and symbols
  have hwords : ∀ k : Keyword,
      Segment.ofText k.word.toList = [⟨.lexeme (.keyword k), k.word.toList⟩] := by
    intro k
    cases k <;> rfl
  cases h with
  | symbol h =>
    have hsymbols : ∀ s ∈ symbols, Segment.ofText s.1 = [⟨.lexeme s.2, s.1⟩] := by decide
    exact hsymbols _ h
  | @string contents h =>
    have htake : (contents ++ ['"']).takeWhile (· ≠ '"') = contents :=
      (takeWhile_run (fun c hc => by simpa using ne_of_mem_of_not_mem hc h) (by simp)).1
    have hstring : first '"' (contents ++ ['"']) = Segment.string (contents ++ ['"']) := by
      simp [first, isBlank]
    have hfirst : first '"' (contents ++ ['"']) =
        ⟨.lexeme (.string (String.ofList contents)), '"' :: (contents ++ ['"'])⟩ := by
      rw [hstring, Segment.string, htake, if_pos (by simp)]
      rfl
    exact ofText_eq_singleton hfirst
  | @whole digits x hne hd hx =>
    -- rounding has one solution, so the number read is the one that the lexeme stands for
    have hread : floatOfDigits text [] = x := by
      refine (floatOfDigits_rounds text []).unique Nat.one_pos ?_
      rwa [List.append_nil]
    exact ofText_numeral ⟨text, [], ⟨hne, hd, by simp⟩, rfl, hread⟩
  | @decimal whole fraction x hwne hfne hw hf hx =>
    have hread : floatOfDigits whole fraction = x :=
      (floatOfDigits_rounds whole fraction).unique (Nat.pow_pos (by decide)) hx
    have htext : numeral whole fraction = whole ++ '.' :: fraction := by
      rw [numeral, if_neg (by simpa using hfne)]
    exact ofText_numeral ⟨whole, fraction, ⟨hwne, hw, hf⟩, htext, hread⟩
  | keyword k => exact hwords k
  | @identifier c rest hc hrest hk =>
    obtain ⟨-, -, -, -, -, hword⟩ := identifier_cases (.identifier hc hrest hk)
    have hnone : ∀ d ∈ [].head?, ¬ isWordPart d := by simp
    have hfirst := first_word hc hrest hword hnone
    rw [List.append_nil] at hfirst
    exact ofText_eq_singleton hfirst

end Lexeme

namespace Token

/-- A token as it is spelled, on no line. -/
def ofSpelling (text : String) : Token :=
  match Segment.ofText text.toList with
  | [⟨.lexeme kind, _⟩] => ⟨kind, text, 0⟩
  | _ => .eof 0

/-- The token is spelled as a lexeme of its kind. -/
def IsLexeme (t : Token) : Prop :=
  Lexeme t.lexeme.toList t.kind

/-- The token is a lexeme of one of the kinds. -/
structure IsOneOf (t : Token) (kinds : List TokenKind) : Prop where
  kind_mem : t.kind ∈ kinds
  isLexeme : t.IsLexeme

/-- A token is of the one kind that it has. -/
theorem isOneOf_of_kind {t : Token} {kind : TokenKind} (h : t.IsLexeme) (hkind : t.kind = kind) :
    t.IsOneOf [kind] :=
  ⟨List.mem_singleton.mpr hkind, h⟩

/-- A token is known from its spelling up to its line. -/
theorem IsOneOf.ofSpelling_eq {t : Token} {kinds : List TokenKind} (h : t.IsOneOf kinds) :
    ofSpelling t.lexeme = ⟨t.kind, t.lexeme, 0⟩ := by
  unfold ofSpelling
  rw [Lexeme.ofText h.isLexeme]

end Token

/-! ## Trees of such tokens -/

/-- A number that is written has no sign. -/
def Literal.Signless : Literal → Prop
  | number x => ∀ m, Double.ofFloat x ≠ .finite Bool.true m
  | _ => True

/-- The operators of binary nodes. -/
def binaryOperators : List TokenKind :=
  [.bangEqual, .equalEqual, .greater, .greaterEqual, .less, .lessEqual, .minus, .plus, .slash,
    .star]

/-- The operators of logical nodes. -/
def logicalOperators : List TokenKind :=
  [.keyword .or, .keyword .and]

namespace Expr

mutual

/-- The tokens of an expression are lexemes of the kinds that stand in their places. -/
def Shaped : Expr → Prop
  | literal value => value.Signless
  | grouping inner => inner.Shaped
  | unary operator operand => operator.IsOneOf [.bang, .minus] ∧ operand.Shaped
  | binary operator left right =>
    operator.IsOneOf binaryOperators ∧ left.Shaped ∧ right.Shaped
  | logical operator left right =>
    operator.IsOneOf logicalOperators ∧ left.Shaped ∧ right.Shaped
  | var _ name => name.IsOneOf [.identifier]
  | assign _ name value => name.IsOneOf [.identifier] ∧ value.Shaped
  | call callee paren arguments =>
    paren.IsOneOf [.rightParen] ∧ callee.Shaped ∧ ShapedList arguments
  | get object name => object.Shaped ∧ name.IsOneOf [.identifier]
  | set object name value => object.Shaped ∧ name.IsOneOf [.identifier] ∧ value.Shaped
  | this _ keyword => keyword.IsOneOf [.keyword .this]
  | super _ keyword method => keyword.IsOneOf [.keyword .super] ∧ method.IsOneOf [.identifier]

/-- Several such expressions. -/
def ShapedList : List Expr → Prop
  | [] => True
  | e :: rest => e.Shaped ∧ ShapedList rest

end

end Expr

namespace Stmt

mutual

/-- The tokens of a statement are lexemes of the kinds that stand in their places. -/
def Shaped : Stmt → Prop
  | expression value => value.Shaped
  | print value => value.Shaped
  | varDecl name initializer => name.IsOneOf [.identifier] ∧ ∀ e ∈ initializer, e.Shaped
  | block body => ShapedList body
  | cond condition thenBranch none => condition.Shaped ∧ thenBranch.Shaped
  | cond condition thenBranch (some elseBranch) =>
    condition.Shaped ∧ thenBranch.Shaped ∧ elseBranch.Shaped
  | loop condition body => condition.Shaped ∧ body.Shaped
  | funDecl declaration => ShapedFunction declaration
  | ret keyword value => keyword.IsOneOf [.keyword .return_] ∧ ∀ e ∈ value, e.Shaped
  | classDecl ⟨name, superclass, methods⟩ =>
    name.IsOneOf [.identifier] ∧
      (∀ e ∈ superclass, ∃ id superName, e = .var id superName ∧ superName.IsOneOf [.identifier]) ∧
      ShapedMethods methods

/-- Several such statements. -/
def ShapedList : List Stmt → Prop
  | [] => True
  | s :: rest => s.Shaped ∧ ShapedList rest

/-- A function with such tokens. -/
def ShapedFunction : FunctionDecl → Prop
  | ⟨name, params, body⟩ => name.IsOneOf [.identifier] ∧
    (∀ param ∈ params, param.IsOneOf [.identifier]) ∧ ShapedList body

/-- Several such functions. -/
def ShapedMethods : List FunctionDecl → Prop
  | [] => True
  | d :: rest => ShapedFunction d ∧ ShapedMethods rest

end

/-- The loop that a `for` statement stands for has the shape of a statement. -/
theorem shaped_forLoop {initializer : Option Stmt} {test increment : Option Expr} {body : Stmt}
    (hinitializer : ∀ s ∈ initializer, s.Shaped) (htest : ∀ e ∈ test, e.Shaped)
    (hincrement : ∀ e ∈ increment, e.Shaped) (h : body.Shaped) :
    (forLoop initializer test increment body).Shaped := by
  have htest : (test.getD (.literal .true)).Shaped := by
    cases test with
    | none => trivial
    | some e => exact htest e rfl
  -- the loop is in one block with its initializer, and its body in one with its increment
  cases initializer <;> cases increment <;> simp_all [forLoop, Shaped, ShapedList]

end Stmt

/-- A numeral has no sign. -/
theorem Lexeme.signless {text : List Char} {x : Float} (h : Lexeme text (.number x)) :
    (Literal.number x).Signless := by
  -- a quotient of natural numbers rounds to infinity or to a number with the sign plus
  have hrounds : ∀ {num den : Nat}, Rounds num den x → (Literal.number x).Signless := by
    rintro num den (⟨-, hx⟩ | ⟨-, hx, -⟩) m hm
    · rw [hx] at hm
      cases hm
    · rw [hx] at hm
      cases hm
  cases h with
  | symbol h =>
    have hsymbols : ∀ s ∈ symbols, s.2 ≠ .number x := by simp [symbols]
    exact absurd rfl (hsymbols _ h)
  | whole _ _ hx => exact hrounds hx
  | decimal _ _ _ _ hx => exact hrounds hx

namespace Phrase

/-- The tokens in the tree of a phrase are in their places, if those before it are. -/
def Shaped : Phrase → Prop
  | expression e | level _ e | unary e | call e | primary e => e.Shaped
  | operands _ left e | postfixes left e => left.Shaped → e.Shaped
  | arguments es => Expr.ShapedList es

/-- An operand has the shape of an expression just if the expression has. -/
theorem shaped_operand {l : Level} {e : Expr} : (l.operand e).Shaped ↔ e.Shaped := by
  cases l <;> rfl

/-- A node of a level has the shape of an expression. -/
theorem shaped_node {l : Level} {op : Token} {left right : Expr} (hop : op.kind ∈ l.operators)
    (h : op.IsLexeme) (hleft : left.Shaped) (hright : right.Shaped) :
    (l.node op left right).Shaped := by
  have hlogical : ∀ kinds ⊆ logicalOperators, op.kind ∈ kinds → op.IsOneOf logicalOperators :=
    fun kinds hsub hmem => ⟨hsub hmem, h⟩
  have hbinary : ∀ kinds ⊆ binaryOperators, op.kind ∈ kinds → op.IsOneOf binaryOperators :=
    fun kinds hsub hmem => ⟨hsub hmem, h⟩
  -- the two loosest levels are logical
  cases l
  · exact ⟨hlogical _ (by decide) hop, hleft, hright⟩
  · exact ⟨hlogical _ (by decide) hop, hleft, hright⟩
  all_goals exact ⟨hbinary _ (by decide) hop, hleft, hright⟩

/-- Expressions read from lexemes. -/
theorem Derives.shaped {p : Phrase} {n n' : Nat} {ts : List Token} (h : p.Derives n ts n')
    (hts : ∀ t ∈ ts, t.IsLexeme) : p.Shaped := by
  -- the grammar checks the kind of each token where it stands
  induction h with
  | @assign _ name _ _ _ _ hname _ _ ih =>
    exact ⟨Token.isOneOf_of_kind (hts name (by simp)) hname, ih fun t ht => hts t (by simp [ht])⟩
  | @set _ _ _ name _ _ _ _ _ _ _ _ hname _ _ ihobject ih =>
    exact ⟨ihobject fun t ht => hts t (by simp [ht]),
      Token.isOneOf_of_kind (hts name (by simp)) hname, ih fun t ht => hts t (by simp [ht])⟩
  | operation _ ih => exact ih hts
  | level _ _ ihleft ihrest =>
    refine ihrest (fun t ht => hts t (by simp [ht])) ?_
    exact shaped_operand.mp (ihleft fun t ht => hts t (by simp [ht]))
  | lastOperand | lastPostfix => exact id
  | @nextOperand _ _ _ _ op _ _ _ _ _ hop _ _ ihright ihrest =>
    intro hleft
    have hright := shaped_operand.mp (ihright fun t ht => hts t (by simp [ht]))
    exact ihrest (fun t ht => hts t (by simp [ht]))
      (shaped_node hop (hts op (by simp)) hleft hright)
  | @unary _ op _ _ _ hop _ ih =>
    exact ⟨⟨hop, hts op (by simp)⟩, ih fun t ht => hts t (by simp [ht])⟩
  | operand _ ih => exact ih hts
  | call _ _ ihleft ihrest =>
    exact ihrest (fun t ht => hts t (by simp [ht])) (ihleft fun t ht => hts t (by simp [ht]))
  | @emptyCall _ _ _ rparen _ _ _ _ hrparen _ ih =>
    exact fun hleft => ih (fun t ht => hts t (by simp [ht]))
      ⟨Token.isOneOf_of_kind (hts rparen (by simp)) hrparen, hleft, trivial⟩
  | @callWith _ _ _ _ rparen _ _ _ _ _ _ _ _ hrparen _ ihes ih =>
    intro hleft
    have hes := ihes fun t ht => hts t (by simp [ht])
    exact ih (fun t ht => hts t (by simp [ht]))
      ⟨Token.isOneOf_of_kind (hts rparen (by simp)) hrparen, hleft, hes⟩
  | @property _ _ _ name _ _ _ _ hname _ ih =>
    exact fun hleft => ih (fun t ht => hts t (by simp [ht]))
      ⟨hleft, Token.isOneOf_of_kind (hts name (by simp)) hname⟩
  | lastArgument _ ih => exact ⟨ih hts, trivial⟩
  | nextArgument _ _ _ ih ihrest =>
    exact ⟨ih fun t ht => hts t (by simp [ht]), ihrest fun t ht => hts t (by simp [ht])⟩
  | @literal constant t _ h =>
    cases constant with
    | number x =>
      have hkind : t.kind = .number x := by
        unfold TokenKind.literal? at h
        split at h <;> simp_all
      -- the number is that of the token, which is a numeral
      have hlexeme : t.IsLexeme := hts t (by simp)
      rw [Token.IsLexeme, hkind] at hlexeme
      exact hlexeme.signless
    | _ => trivial
  | @var name _ hname => exact Token.isOneOf_of_kind (hts name (by simp)) hname
  | @this keyword _ h => exact Token.isOneOf_of_kind (hts keyword (by simp)) h
  | @super keyword _ method _ h _ hmethod =>
    exact ⟨Token.isOneOf_of_kind (hts keyword (by simp)) h,
      Token.isOneOf_of_kind (hts method (by simp)) hmethod⟩
  | grouping _ _ _ ih => exact ih fun t ht => hts t (by simp [ht])

end Phrase

section Parts

variable {ts : List Token} {n n' : Nat}

/-- An expression that may be missing has the shape of one if it is there. -/
theorem OptionalExpression.shaped {o : Option Expr} (h : OptionalExpression o n ts n')
    (hts : ∀ t ∈ ts, t.IsLexeme) : ∀ e ∈ o, e.Shaped := by
  cases h with
  | none => simp
  | some h =>
    rintro _ ⟨⟩
    exact h.shaped hts

/-- A variable declaration has the shape of one. -/
theorem VariableDeclaration.shaped {s : Stmt} (h : VariableDeclaration s n ts n')
    (hts : ∀ t ∈ ts, t.IsLexeme) : s.Shaped := by
  cases h with
  | @bare _ name _ _ _ hname => exact ⟨Token.isOneOf_of_kind (hts name (by simp)) hname, by simp⟩
  | @initialized _ _ name _ _ _ _ _ _ hname _ h =>
    refine ⟨Token.isOneOf_of_kind (hts name (by simp)) hname, ?_⟩
    rintro _ ⟨⟩
    exact h.shaped fun t ht => hts t (by simp [ht])

/-- An expression statement has the shape of one. -/
theorem ExpressionStatement.shaped {s : Stmt} (h : ExpressionStatement s n ts n')
    (hts : ∀ t ∈ ts, t.IsLexeme) : s.Shaped := by
  cases h with
  | expression h => exact h.shaped fun t ht => hts t (by simp [ht])

/-- The initializer of a `for` statement has the shape of a statement if it is there. -/
theorem Initializer.shaped {o : Option Stmt} (h : Initializer o n ts n')
    (hts : ∀ t ∈ ts, t.IsLexeme) : ∀ s ∈ o, s.Shaped := by
  cases h with
  | none => simp
  | varDecl h =>
    rintro _ ⟨⟩
    exact h.shaped hts
  | expression h =>
    rintro _ ⟨⟩
    exact h.shaped hts

/-- Parameters are identifiers. -/
theorem Parameters.shaped {params : List Token} (h : Parameters params ts)
    (hts : ∀ t ∈ ts, t.IsLexeme) :
    ∀ param ∈ params, param.IsOneOf [.identifier] := by
  induction h with
  | none => simp
  | @last name hname => simpa using Token.isOneOf_of_kind (hts name (by simp)) hname
  | @next name _ _ _ hname _ _ _ ih =>
    refine List.forall_mem_cons.mpr ⟨Token.isOneOf_of_kind (hts name (by simp)) hname, ?_⟩
    exact ih fun t ht => hts t (by simp [ht])

end Parts

namespace Clause

/-- The tokens in the tree of a clause are in their places. -/
def Shaped : Clause → Prop
  | declarations body => Stmt.ShapedList body
  | declaration s | statement _ s => s.Shaped
  | function d => Stmt.ShapedFunction d
  | methods ds => Stmt.ShapedMethods ds

/-- Programs read from lexemes. -/
theorem Derives.shaped {nearest : Bool} {c : Clause} {n n' : Nat} {ts : List Token}
    (h : c.Derives nearest n ts n') (hts : ∀ t ∈ ts, t.IsLexeme) : c.Shaped := by
  induction h with
  | noDeclaration | noMethod => trivial
  | nextDeclaration _ _ ih ihrest | nextMethod _ _ ih ihrest =>
    exact ⟨ih fun t ht => hts t (by simp [ht]), ihrest fun t ht => hts t (by simp [ht])⟩
  | @classDecl _ _ name _ _ _ _ _ _ hname _ _ _ ih =>
    refine ⟨Token.isOneOf_of_kind (hts name (by simp)) hname, by simp, ?_⟩
    exact ih fun t ht => hts t (by simp [ht])
  | @subclassDecl _ _ name _ superName _ _ _ _ _ _ hname _ hsuper _ _ _ ih =>
    refine ⟨Token.isOneOf_of_kind (hts name (by simp)) hname, ?_, ?_⟩
    -- only a class with a superclass has a name in front of its body that is read as a variable
    · rintro _ ⟨⟩
      exact ⟨_, superName, rfl, Token.isOneOf_of_kind (hts superName (by simp)) hsuper⟩
    · exact ih fun t ht => hts t (by simp [ht])
  | funDecl _ _ ih => exact ih fun t ht => hts t (by simp [ht])
  | varDecl h => exact h.shaped hts
  | statement _ ih => exact ih hts
  | @function _ name _ _ _ _ _ _ _ _ _ hname _ hparams _ _ _ _ _ ih =>
    refine ⟨Token.isOneOf_of_kind (hts name (by simp)) hname,
      hparams.shaped fun t ht => hts t (by simp [ht]), ?_⟩
    exact ih fun t ht => hts t (by simp [ht])
  | exprStmt h => exact h.shaped hts
  | printStmt _ h => exact h.shaped fun t ht => hts t (by simp [ht])
  | @returnStmt _ keyword _ _ _ _ hkeyword h =>
    refine ⟨Token.isOneOf_of_kind (hts keyword (by simp)) hkeyword, ?_⟩
    exact h.shaped fun t ht => hts t (by simp [ht])
  | block _ _ _ ih => exact ih fun t ht => hts t (by simp [ht])
  | whileStmt _ _ hcondition _ _ ih =>
    refine ⟨hcondition.shaped fun t ht => hts t (by simp [ht]), ?_⟩
    exact ih fun t ht => hts t (by simp [ht])
  -- the loop that a `for` stands for is made of parts of it
  | forStmt _ _ hinitializer htest _ hincrement _ _ ih =>
    exact Stmt.shaped_forLoop (hinitializer.shaped fun t ht => hts t (by simp [ht]))
      (htest.shaped fun t ht => hts t (by simp [ht]))
      (hincrement.shaped fun t ht => hts t (by simp [ht])) (ih fun t ht => hts t (by simp [ht]))
  | ifStmt _ _ hcondition _ _ ih =>
    refine ⟨hcondition.shaped fun t ht => hts t (by simp [ht]), ?_⟩
    exact ih fun t ht => hts t (by simp [ht])
  | ifElseStmt _ _ hcondition _ _ _ _ _ ihthen ih =>
    refine ⟨hcondition.shaped fun t ht => hts t (by simp [ht]), ?_, ?_⟩
    · exact ihthen fun t ht => hts t (by simp [ht])
    · exact ih fun t ht => hts t (by simp [ht])

end Clause

/-- The tokens in the trees of an accepted text are in their places. -/
theorem Parsed.shaped {text : String} {n : Nat}
    (h : (ofTokens (Scan.ofText text).tokens n).errors = []) :
    Stmt.ShapedList (ofTokens (Scan.ofText text).tokens n).statements := by
  obtain ⟨ts, line, htokens, hspelled⟩ := Scan.tokens_ofText text
  -- the closing token is no lexeme, but it is in no tree either
  have hlexeme : ∀ t ∈ ts, t.IsLexeme := by
    intro t ht
    have hmem : t ∈ (Scan.ofText text).tokens := by
      rw [htokens]
      exact List.mem_append_left _ ht
    exact (Scan.lexeme_of_mem_tokens hmem).resolve_left fun heof =>
      (hspelled t ht).kind_ne_eof heof.1
  rw [htokens] at h ⊢
  exact (statements_derives rfl (fun t ht => (hspelled t ht).kind_ne_eof) h).shaped hlexeme

/-! ## Parts of statements -/

namespace Stmt

mutual

/-- A statement and all the statements inside it. -/
def parts : Stmt → List Stmt
  | expression value => [expression value]
  | print value => [print value]
  | varDecl name initializer => [varDecl name initializer]
  | block body => block body :: partsList body
  | cond condition thenBranch none => cond condition thenBranch none :: thenBranch.parts
  | cond condition thenBranch (some elseBranch) =>
    cond condition thenBranch (some elseBranch) :: (thenBranch.parts ++ elseBranch.parts)
  | loop condition body => loop condition body :: body.parts
  | funDecl declaration => funDecl declaration :: functionParts declaration
  | ret keyword value => [ret keyword value]
  | classDecl ⟨name, superclass, methods⟩ =>
    classDecl ⟨name, superclass, methods⟩ :: methodParts methods

/-- Several statements and all those inside them. -/
def partsList : List Stmt → List Stmt
  | [] => []
  | s :: rest => s.parts ++ partsList rest

/-- The statements inside a function. -/
def functionParts : FunctionDecl → List Stmt
  | ⟨_, _, body⟩ => partsList body

/-- The statements inside several functions. -/
def methodParts : List FunctionDecl → List Stmt
  | [] => []
  | d :: rest => functionParts d ++ methodParts rest

end

mutual

/-- What is inside a statement has its tokens in their places as well. -/
theorem Shaped.of_mem_parts (s : Stmt) (h : s.Shaped) : ∀ part ∈ s.parts, part.Shaped := by
  match s with
  -- a statement is one of its own parts
  | expression _ | print _ | varDecl .. | ret .. => exact List.forall_mem_singleton.mpr h
  | block body => exact List.forall_mem_cons.mpr ⟨h, ShapedList.of_mem_parts body h⟩
  | cond _ thenBranch none =>
    exact List.forall_mem_cons.mpr ⟨h, Shaped.of_mem_parts thenBranch h.2⟩
  | cond _ thenBranch (some elseBranch) =>
    exact List.forall_mem_cons.mpr ⟨h, List.forall_mem_append.mpr
      ⟨Shaped.of_mem_parts thenBranch h.2.1, Shaped.of_mem_parts elseBranch h.2.2⟩⟩
  | loop _ body => exact List.forall_mem_cons.mpr ⟨h, Shaped.of_mem_parts body h.2⟩
  | funDecl declaration =>
    exact List.forall_mem_cons.mpr ⟨h, ShapedFunction.of_mem_parts declaration h⟩
  | classDecl ⟨_, _, methods⟩ =>
    exact List.forall_mem_cons.mpr ⟨h, ShapedMethods.of_mem_parts methods h.2.2⟩

/-- The parts of statements have the shape of expressions. -/
theorem ShapedList.of_mem_parts (body : List Stmt) (h : ShapedList body) :
    ∀ part ∈ partsList body, part.Shaped := by
  match body with
  | [] => exact fun _ hmem => absurd hmem List.not_mem_nil
  | s :: rest =>
    exact List.forall_mem_append.mpr
      ⟨Shaped.of_mem_parts s h.1, ShapedList.of_mem_parts rest h.2⟩

/-- The parts of a function have the shape of expressions. -/
theorem ShapedFunction.of_mem_parts (d : FunctionDecl) (h : ShapedFunction d) :
    ∀ part ∈ functionParts d, part.Shaped := by
  match d with
  | ⟨_, _, body⟩ => exact ShapedList.of_mem_parts body h.2.2

/-- The parts of methods have the shape of expressions. -/
theorem ShapedMethods.of_mem_parts (ds : List FunctionDecl) (h : ShapedMethods ds) :
    ∀ part ∈ methodParts ds, part.Shaped := by
  match ds with
  | [] => exact fun _ hmem => absurd hmem List.not_mem_nil
  | d :: rest =>
    exact List.forall_mem_append.mpr
      ⟨ShapedFunction.of_mem_parts d h.1, ShapedMethods.of_mem_parts rest h.2⟩

end

end Stmt

end Lox
