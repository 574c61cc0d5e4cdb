import Lox.Proofs.ParseSound

/-!
# What is derived is parsed

`Yields` says that a parser reads exactly these tokens before the others and notes no error. By
induction on derivations it holds of the parser of each phrase and clause, if the token behind it
does not go on with it. What follows a primary expression is read in a loop, of which a derivation
describes some rounds and not the last, so a call is only said to have got as far as that.

## Key results

- `looseness`: how loose an expression must be for a token to go on with it
- `Phrase.Derives.accepted`, `Clause.Derives.accepted`: what is derived is read
- `program_yields`: a program is read up to the end
-/

namespace Lox

namespace Parser

variable {α β : Type}

/-- Before the tokens `rest`, a parser reads the tokens `ts` without errors, numbers the nodes from
    `n` up to `n'`, and goes on like another. -/
def Leads (p : Parser α) (n : Nat) (ts rest : List Token) (q : Parser α) (n' : Nat) : Prop :=
  ∀ position errors, p.run ⟨ts ++ rest, position, n, errors⟩ =
    q.run ⟨rest, position + ts.length, n', errors⟩

/-- A parser reads these tokens before the others, and nothing else. -/
def Yields (p : Parser α) (n : Nat) (ts rest : List Token) (a : α) (n' : Nat) : Prop :=
  Leads p n ts rest (pure a) n'

/-- The next token, if there is one, is not of such a kind. -/
def Stops (q : TokenKind → Bool) (rest : List Token) : Prop :=
  ∀ t ∈ rest.head?, ¬ q t.kind

/-! ## Steps -/

theorem Leads.refl {p : Parser α} {n : Nat} {rest : List Token} : Leads p n [] rest p n :=
  fun _ _ => rfl

/-- To lead on over some tokens and then over more is to lead on over all of them. -/
theorem Leads.trans {p q r : Parser α} {n m n' : Nat} {ts us rest : List Token}
    (h : Leads p n ts (us ++ rest) q m) (h' : Leads q m us rest r n') :
    Leads p n (ts ++ us) rest r n' := by
  intro position errors
  rw [List.append_assoc, h, h', List.length_append, Nat.add_assoc]

/-- What a parser reads, it reads before another. -/
theorem Yields.step {p : Parser α} {f : α → Parser β} {n m : Nat} {ts rest : List Token} {a : α}
    (hp : Yields p n ts rest a m) : Leads (p >>= f) n ts rest (f a) m := by
  intro position errors
  rw [EStateM.run_bind, hp position errors]
  rfl

/-- What a parser yields, the rest of the `do` block goes on from. -/
theorem Leads.bind {p : Parser α} {f : α → Parser β} {q : Parser β} {n m n' : Nat}
    {ts us rest : List Token} {a : α} (hp : Yields p n ts (us ++ rest) a m)
    (h : Leads (f a) m us rest q n') : Leads (p >>= f) n (ts ++ us) rest q n' :=
  .trans hp.step h

namespace Yields

variable {p : Parser α} {f : α → Parser β} {n m n' : Nat} {ts ts' rest : List Token} {a : α} {b : β}
  {t : Token} {kind : TokenKind} {q : TokenKind → Bool}

theorem pure : Yields (Pure.pure a) n [] rest a n :=
  fun _ _ => rfl

/-- In a sequence the second parser reads the tokens that the first one leaves. -/
theorem bind (hp : Yields p n ts (ts' ++ rest) a m) (hf : Yields (f a) m ts' rest b n') :
    Yields (p >>= f) n (ts ++ ts') rest b n' :=
  Leads.bind hp hf

/-- A step that reads nothing. -/
theorem bind_nil (hp : Yields p n [] (ts ++ rest) a m) (hf : Yields (f a) m ts rest b n') :
    Yields (p >>= f) n ts rest b n' :=
  bind hp hf

/-- A step that reads one token. -/
theorem bind_cons (hp : Yields p n [t] (ts ++ rest) a m) (hf : Yields (f a) m ts rest b n') :
    Yields (p >>= f) n (t :: ts) rest b n' :=
  bind hp hf

/-- A step behind which nothing is read. -/
theorem bind_pure {g : α → β} (hp : Yields p n ts rest a n') :
    Yields (p >>= fun a => Pure.pure (g a)) n ts rest (g a) n' := by
  rw [← List.append_nil ts]
  exact bind (by rwa [List.nil_append]) pure

/-- Mapping the result reads no more tokens. -/
theorem map {g : α → β} (hp : Yields p n ts rest a n') : Yields (g <$> p) n ts rest (g a) n' := by
  rw [← bind_pure_comp]
  exact bind_pure hp

/-- What is done after looking at the state may depend on the tokens ahead. -/
theorem get_bind {f : ParserState → Parser β}
    (h : ∀ s : ParserState, s.rest = ts ++ rest → Yields (f s) n ts rest b n') :
    Yields (get >>= f) n ts rest b n' :=
  fun position errors => h ⟨ts ++ rest, position, n, errors⟩ rfl position errors

/-- What is done after counting the tokens that are left may depend on how many they are. -/
theorem remaining_bind {f : Nat → Parser β} (h : Yields (f (ts ++ rest).length) n ts rest b n') :
    Yields (remaining >>= f) n ts rest b n' :=
  h

/-- What is done after looking at a kind may depend on the kind of the first token. -/
theorem peekKind_bind {f : TokenKind → Parser β} (h : Yields (f t.kind) n (t :: ts) rest b n') :
    Yields (peekKind >>= f) n (t :: ts) rest b n' :=
  h

/-- A fresh identity is the next number, and no token is read for it. -/
theorem freshId : Yields freshId n [] rest ⟨n⟩ (n + 1) :=
  fun _ _ => rfl

/-- Any token but the one for the end is read by `next`. -/
theorem next (h : t.kind ≠ .eof) : Yields next n [t] rest t n := by
  intro position errors
  show EStateM.Result.ok _ (ParserState.advance _) = _
  have hend : ParserState.atEnd ⟨t :: rest, position, n, errors⟩ = false := by
    simpa [ParserState.atEnd, ParserState.current] using h
  simp [ParserState.advance, ParserState.current, hend]

/-- A parser that looks at the kind of the next token and consumes it. -/
theorem dispatch {f : TokenKind → Parser α} {p : Token → Parser α} (ht : t.kind ≠ .eof)
    (hf : f t.kind = Parser.next >>= p) (h : Yields (p t) n ts rest a n') :
    Yields (peekKind >>= f) n (t :: ts) rest a n' := by
  refine peekKind_bind ?_
  rw [hf]
  exact bind_cons (next ht) h

/-- An optional token is yielded if it is one of those looked for. -/
theorem accept?_some (h : q t.kind) (hkind : t.kind ≠ .eof) :
    Yields (accept? q) n [t] rest (some t) n := by
  intro position errors
  have hend : ParserState.atEnd ⟨t :: rest, position, n, errors⟩ = false := by
    simpa [ParserState.atEnd, ParserState.current] using hkind
  rw [accept?_run]
  simp [ParserState.advance, ParserState.current, hend, h]

/-- In front of any other token nothing is yielded and nothing read. -/
theorem accept?_none (h : Stops q rest) : Yields (accept? q) n [] rest none n := by
  intro position errors
  rw [accept?_run]
  cases rest with
  | nil => simp [ParserState.atEnd, ParserState.current, Token.eof]
  | cons t rest =>
    have hq : q t.kind = false := by simpa using h t rfl
    simp [ParserState.current, hq]

/-- A token of the kind is accepted. -/
theorem accept_true (h : t.kind = kind) (hkind : kind ≠ .eof) :
    Yields (accept kind) n [t] rest true n := by
  have hsome : Yields (accept? (· = kind)) n [t] rest (some t) n :=
    accept?_some (by simpa using h) (h ▸ hkind)
  show Yields (accept? (· = kind) >>= fun o => Pure.pure o.isSome) n ([t] ++ []) rest true n
  exact bind hsome pure

/-- In front of a token of another kind nothing is accepted. -/
theorem accept_false (h : Stops (· = kind) rest) : Yields (accept kind) n [] rest false n :=
  bind_nil (accept?_none h) pure

/-- A token of the expected kind is yielded. -/
theorem expect {what : Expectation} (h : t.kind = kind) (hkind : kind ≠ .eof) :
    Yields (expect kind what) n [t] rest t n := by
  have hsome : Yields (accept? (· = kind)) n [t] rest (some t) n :=
    accept?_some (by simpa using h) (h ▸ hkind)
  rw [← List.append_nil [t]]
  exact bind hsome pure

/-- The kind of the token ahead is seen without reading it. -/
theorem looksAt_true (h : t.kind = kind) (hkind : kind ≠ .eof) :
    Yields (looksAt kind) n [] (t :: rest) true n := by
  intro position errors
  show EStateM.Result.ok _ _ = _
  have hend : ParserState.atEnd ⟨t :: rest, position, n, errors⟩ = false := by
    simpa [ParserState.atEnd, ParserState.current, h] using hkind
  simp [ParserState.current, hend, h]

/-- Another kind ahead is not taken for the one looked for. -/
theorem looksAt_false (h : Stops (· = kind) rest) : Yields (looksAt kind) n [] rest false n := by
  intro position errors
  show EStateM.Result.ok _ _ = _
  cases rest with
  | nil => simp [ParserState.atEnd, ParserState.current, Token.eof]
  | cons t rest =>
    have hq : t.kind ≠ kind := by simpa using h t rfl
    simp [ParserState.current, hq]

end Yields

/-! ## How far an expression reaches -/

/-- How loose an expression must be for a token of this kind to go on with it. Tokens behind which
    no expression goes on are the loosest. -/
def looseness : TokenKind → Nat
  | .leftParen | .dot => 0
  | .slash | .star => 1
  | .minus | .plus => 2
  | .greater | .greaterEqual | .less | .lessEqual => 3
  | .bangEqual | .equalEqual => 4
  | .keyword .and => 5
  | .keyword .or => 6
  | .equal => 7
  | _ => 8

/-- The looseness of the operators of a level. -/
def levelLooseness : Level → Nat
  | .factor => 1
  | .term => 2
  | .comparison => 3
  | .equality => 4
  | .conjunction => 5
  | .disjunction => 6

/-- The next token does not go on with an expression of this looseness. -/
def Ends (loosest : Nat) (rest : List Token) : Prop :=
  Stops (looseness · ≤ loosest) rest

variable {l : Level} {kind : TokenKind} {rest ts : List Token} {k k' : Nat}

/-- The operators of a level bind as loosely as the level does. -/
theorem looseness_of_mem (h : kind ∈ l.operators) : looseness kind = levelLooseness l := by
  cases l <;> simp only [Level.operators, List.mem_cons, List.not_mem_nil, or_false] at h
  case disjunction | conjunction => exact h ▸ rfl
  case equality | term | factor => rcases h with rfl | rfl <;> rfl
  case comparison => rcases h with rfl | rfl | rfl | rfl <;> rfl

/-- What ends an expression of a level ends those of the tighter levels, too. -/
theorem Ends.mono (h : Ends k rest) (hle : k' ≤ k) : Ends k' rest := by
  intro t ht
  have := h t ht
  simp only [decide_eq_true_eq] at this ⊢
  omega

/-- What ends an expression is none of the tokens by which it could go on. -/
theorem Ends.stops {q : TokenKind → Bool} (h : Ends k rest)
    (hq : ∀ kind, q kind → looseness kind ≤ k) : Stops q rest := by
  intro t ht hqt
  exact h t ht (by simpa using hq _ hqt)

/-- An operator of its own level does not stand behind an expression that is over. -/
theorem Ends.not_operator (h : Ends (levelLooseness l) rest) : Stops (· ∈ l.operators) rest :=
  h.stops fun kind hkind => by simp [looseness_of_mem (of_decide_eq_true hkind)]

/-- A token that binds more loosely ends an expression. -/
theorem Ends.cons {t : Token} (h : k < looseness t.kind) : Ends k (t :: ts) := by
  intro u hu
  obtain rfl : t = u := by simpa using hu
  simpa using h

/-! ## Expressions -/

variable {nested operand : Parser Expr} {e : Expr} {n n' : Nat}

/-- Without an operator behind it, an operand is an expression of its level. -/
theorem Yields.of_operand (h : Yields (operandParser nested l) n ts rest e n')
    (hrest : Ends (levelLooseness l) rest) : Yields (levelParser nested l) n ts rest e n' := by
  rw [levelParser_eq, ← List.append_nil ts]
  refine bind (by rwa [List.nil_append]) (remaining_bind ?_)
  cases hb : ([] ++ rest).length with
  | zero => exact pure
  | succ bound => exact bind_nil (accept?_none hrest.not_operator) pure

/-- What begins with a primary expression begins with no unary operator. -/
theorem stops_isUnary (h : Phrase.Begins Phrase.startsPrimary ts) (rest : List Token) :
    Stops isUnary (ts ++ rest) := by
  obtain ⟨t, us, rfl, ht⟩ := h
  intro u hu hunary
  obtain rfl : t = u := by simpa using hu
  simp only [isUnary, Bool.or_eq_true, decide_eq_true_eq] at hunary
  rcases hunary with h | h <;> simp [h, Phrase.startsPrimary, TokenKind.literal?] at ht

/-- All unary operators in front of an operand are read. -/
theorem unaryOperators_yields {ops : List Token} (hops : ∀ op ∈ ops, op.kind ∈ [.bang, .minus])
    (hrest : Stops isUnary rest) {bound : Nat} (hbound : ops.length ≤ bound) :
    Yields (unaryOperators bound) n ops rest ops n := by
  induction ops generalizing bound with
  | nil =>
    cases bound with
    | zero => exact .pure
    | succ bound => exact .bind_nil (.accept?_none hrest) .pure
  | cons op ops ih =>
    -- the bound is no less than the number of operators, so it does not run out
    cases bound with
    | zero => simp at hbound
    | succ bound =>
      have hop := hops op (by simp)
      have hsome : Yields (accept? isUnary) n [op] (ops ++ rest) (some op) n :=
        .accept?_some (by simpa [isUnary] using hop) (by rintro h; simp [h] at hop)
      have htail := ih (fun t ht => hops t (by simp [ht])) (Nat.le_of_succ_le_succ hbound)
      exact .bind_cons hsome (.bind_pure htail)

/-- A call with operators in front of it. -/
theorem Yields.unary (ops : List Token) (hops : ∀ op ∈ ops, op.kind ∈ [.bang, .minus])
    (hts : Phrase.Begins Phrase.startsPrimary ts) (h : Yields (call nested) n ts rest e n') :
    Yields (unary nested) n (ops ++ ts) rest (ops.foldr .unary e) n' := by
  refine remaining_bind (.bind (unaryOperators_yields hops (stops_isUnary hts rest) ?_) ?_)
  · simp only [List.length_append]
    omega
  · exact .bind_pure h

/-- Without operators in front of it and behind it, a call is an expression of the loosest level. -/
theorem Yields.of_call (h : Yields (call nested) n ts rest e n')
    (hts : Phrase.Begins Phrase.startsPrimary ts) (hrest : Ends 6 rest) :
    Yields (disjunction nested) n ts rest e n' := by
  have hunary : Yields (Parser.unary nested) n ts rest e n' := Yields.unary [] nofun hts h
  have hfactor := @of_operand .factor _ _ nested e n n' hunary (hrest.mono (by decide))
  have hterm := @of_operand .term _ _ nested e n n' hfactor (hrest.mono (by decide))
  have hcomparison := @of_operand .comparison _ _ nested e n n' hterm (hrest.mono (by decide))
  have hequality := @of_operand .equality _ _ nested e n n' hcomparison (hrest.mono (by decide))
  have hconjunction := @of_operand .conjunction _ _ nested e n n' hequality (hrest.mono (by decide))
  exact @of_operand .disjunction _ _ nested e n n' hconjunction hrest

/-- A name is a variable, with a fresh identity. -/
theorem primary_var {name : Token} (hname : name.kind = .identifier) :
    Yields (primary nested) n [name] rest (.var ⟨n⟩ name) (n + 1) := by
  refine .peekKind_bind ?_
  rw [hname]
  exact .bind_nil .freshId (.bind_pure (.next (by rw [hname]; decide)))

/-- A literal is the value that its token holds. -/
theorem primary_literal {t : Token} {constant : Literal} (h : t.kind.literal? = some constant) :
    Yields (primary nested) n [t] rest (.literal constant) n := by
  have hkind : t.kind ≠ .eof := by
    intro heof
    rw [heof] at h
    cases h
  have hnext : Yields (next >>= fun _ => Pure.pure (Expr.literal constant)) n [t] rest
    (.literal constant) n := .bind_pure (.next hkind)
  refine .peekKind_bind ?_
  generalize t.kind = kind at h
  unfold TokenKind.literal? at h
  split at h <;> cases h <;> exact hnext

/-- Reading a call gets as far as this expression, with a bound for what is left. -/
def Reaches (p nested : Parser Expr) (n : Nat) (ts rest : List Token) (e : Expr) (n' : Nat) :
    Prop :=
  ∃ bound, rest.length ≤ bound ∧ Leads p n ts rest (postfixes nested bound e) n'

variable {us : List Token} {left : Expr} {m bound : Nat} {p : Parser Expr}

theorem Reaches.trans {q : Parser Expr} (h : Leads p n ts (us ++ rest) q m)
    (h' : Reaches q nested m us rest e n') : Reaches p nested n (ts ++ us) rest e n' := by
  obtain ⟨bound, hbound, h'⟩ := h'
  exact ⟨bound, hbound, h.trans h'⟩

/-- Nothing follows an expression that is not followed by a parenthesis or a point. -/
theorem Reaches.yields (h : Reaches p nested n ts rest e n') (hrest : Ends 0 rest) :
    Yields p n ts rest e n' := by
  obtain ⟨bound, -, h⟩ := h
  -- what follows belongs to no call and no property, so the loop ends here
  have hlast : Yields (postfixes nested bound e) n' [] rest e n' := by
    cases bound with
    | zero => exact .pure
    | succ bound =>
      refine .bind_nil (.accept_false ?_) (.bind_nil (.accept_false ?_) .pure)
      · exact hrest.stops fun kind hkind => by simp [of_decide_eq_true hkind, looseness]
      · exact hrest.stops fun kind hkind => by simp [of_decide_eq_true hkind, looseness]
  rw [← List.append_nil ts]
  exact h.trans hlast

/-- A primary expression and what follows it. -/
theorem call_reaches (hleft : Yields (primary nested) n ts (us ++ rest) left m)
    (h : ∀ bound, (us ++ rest).length ≤ bound →
      Reaches (postfixes nested bound left) nested m us rest e n') :
    Reaches (call nested) nested n (ts ++ us) rest e n' :=
  .trans hleft.step (.trans Leads.refl (h _ (Nat.le_refl _)))

/-- One round of the loop: a property. -/
theorem property_leads {dot name : Token} (hdot : dot.kind = .dot)
    (hname : name.kind = .identifier) :
    Leads (postfixes nested (bound + 1) left) n [dot, name] rest
      (postfixes nested bound (.get left name)) n := by
  have hparen : Yields (accept .leftParen) n [] (dot :: name :: rest) false n :=
    .accept_false (by rintro t ⟨⟩; simp [hdot])
  have hpoint : Yields (accept .dot) n [dot] (name :: rest) true n :=
    .accept_true hdot (by decide)
  have hexpect : Yields (expect .identifier .propertyName) n [name] rest name n :=
    .expect hname (by decide)
  show Leads _ n ([] ++ ([dot] ++ ([name] ++ []))) rest _ n
  exact .bind hparen (.bind hpoint (.bind hexpect .refl))

/-- One round of the loop: an argument list. -/
theorem arguments_leads {lparen rparen : Token} {es : List Expr} (hlparen : lparen.kind = .leftParen)
    (harguments : Yields (commaSeparated nested .tooManyArguments) n ts (rparen :: rest) es m)
    (hrparen : rparen.kind = .rightParen) :
    Leads (postfixes nested (bound + 1) left) n (lparen :: ts ++ [rparen]) rest
      (postfixes nested bound (.call left rparen es)) m := by
  have hparen : Yields (accept .leftParen) n [lparen] (ts ++ [rparen] ++ rest) true n :=
    .accept_true hlparen (by decide)
  have hexpect : Yields (expect .rightParen .argumentsEnd) m [rparen] rest rparen m :=
    .expect hrparen (by decide)
  show Leads _ n ([lparen] ++ (ts ++ ([rparen] ++ []))) rest _ m
  exact .bind hparen (.bind harguments (.bind hexpect .refl))

/-- The loop over the operands of a level goes on behind an operator of the level. -/
theorem operands_next {l : Level} {op : Token} {right : Expr} (hop : op.kind ∈ l.operators)
    (hright : Yields (operandParser nested l) n ts (us ++ rest) right m)
    (hothers : Yields (leftAssociative.loop (· ∈ l.operators) l.node (operandParser nested l) bound
      (l.node op left right)) m us rest e n') :
    Yields (leftAssociative.loop (· ∈ l.operators) l.node (operandParser nested l) (bound + 1) left)
      n (op :: (ts ++ us)) rest e n' := by
  have hsome : Yields (accept? (· ∈ l.operators)) n [op] (ts ++ us ++ rest) (some op) n := by
    refine .accept?_some (by simpa using hop) fun heof => ?_
    rw [heof] at hop
    cases l <;> simp [Level.operators] at hop
  exact .bind_cons hsome (.bind hright hothers)

/-! ### Assignments -/

section Assignments

variable {name equal dot : Token} {value object : Expr}

/-- Behind an assignment target the equal sign ends the expression. -/
theorem ends_equal (hequal : equal.kind = .equal) (ts : List Token) : Ends 6 (equal :: ts) :=
  .cons (by simp [hequal, looseness])

/-- What stands before the equals sign is read as any expression is, and seen to be a variable
    afterwards. -/
theorem assignment_variable (hname : name.kind = .identifier) (hequal : equal.kind = .equal)
    (hvalue : Yields nested (n + 1) ts rest value m) :
    Yields (assignment nested) n (name :: equal :: ts) rest (.assign ⟨m⟩ name value) (m + 1) := by
  -- an equals sign is looser than any operator, so the left side stops in front of it
  have hends : Ends 6 (equal :: (ts ++ rest)) := ends_equal hequal _
  have hcall : Reaches (call nested) nested n [name] (equal :: (ts ++ rest)) (.var ⟨n⟩ name)
      (n + 1) :=
    call_reaches (primary_var hname) fun bound hbound => ⟨bound, hbound, .refl⟩
  have htarget : Yields (disjunction nested) n [name] (equal :: (ts ++ rest)) (.var ⟨n⟩ name)
      (n + 1) :=
    .of_call (hcall.yields (hends.mono (by decide)))
      ⟨name, [], rfl, by simp [Phrase.startsPrimary, hname]⟩ hends
  show Yields (assignment nested) n ([name] ++ ([equal] ++ ts)) rest _ _
  refine .bind htarget (.get_bind fun _ _ => .bind (.accept_true hequal (by decide)) ?_)
  rw [← List.append_nil ts]
  exact .bind (by rwa [List.nil_append]) (.bind_nil .freshId .pure)

/-- What stands before the equals sign is read as a call, whose last property is assigned to. -/
theorem assignment_property (hts : Phrase.Begins Phrase.startsPrimary ts)
    (hobject : Reaches (call nested) nested n ts (dot :: name :: equal :: (us ++ rest)) object m)
    (hdot : dot.kind = .dot) (hname : name.kind = .identifier) (hequal : equal.kind = .equal)
    (hvalue : Yields nested m us rest value n') :
    Yields (assignment nested) n (ts ++ dot :: name :: equal :: us) rest (.set object name value)
      n' := by
  have hends : Ends 6 (equal :: (us ++ rest)) := ends_equal hequal _
  have hcall : Reaches (call nested) nested n (ts ++ [dot, name]) (equal :: (us ++ rest))
      (.get object name) m := by
    obtain ⟨bound, hbound, hleads⟩ := hobject
    simp only [List.length_cons] at hbound
    -- the property is one more round, so the bound is not used up yet
    obtain ⟨bound, rfl⟩ : ∃ b, bound = b + 1 := ⟨bound - 1, by omega⟩
    exact ⟨bound, by simp only [List.length_cons]; omega, hleads.trans (property_leads hdot hname)⟩
  have htarget : Yields (disjunction nested) n (ts ++ [dot, name]) (equal :: (us ++ rest))
      (.get object name) m :=
    .of_call (hcall.yields (hends.mono (by decide))) (hts.append _) hends
  have hsplit : ts ++ dot :: name :: equal :: us = (ts ++ [dot, name]) ++ ([equal] ++ us) := by simp
  rw [hsplit]
  refine .bind htarget (.get_bind fun _ _ => .bind (.accept_true hequal (by decide)) ?_)
  exact .bind_pure hvalue

/-- An expression behind which there is no equal sign is an operation. -/
theorem assignment_operation (h : Yields (disjunction nested) n ts rest e n')
    (hrest : Ends 7 rest) : Yields (assignment nested) n ts rest e n' := by
  have hequal : Stops (· = .equal) rest :=
    hrest.stops fun kind hkind => by simp [of_decide_eq_true hkind, looseness]
  rw [← List.append_nil ts]
  refine .bind (by rwa [List.nil_append]) ?_
  exact .get_bind fun _ _ => .bind_nil (.accept_false hequal) .pure

end Assignments

/-! ### Lists -/

section Lists

variable {item : Parser α} {tooMany : SyntaxFault} {a : α} {as : List α} {count : Nat}

/-- The last item of a list is one behind which there is no comma. -/
theorem commaSeparated_loop_last (hcount : count < 255)
    (hitem : Yields item n ts rest a n') (hrest : Stops (· = .comma) rest) :
    Yields (commaSeparated.loop item tooMany bound count) n ts rest [a] n' := by
  -- the parser counts before it reads, so the 255th item is still read
  have hfew : ¬ maxArguments ≤ count := by
    simp only [maxArguments]
    omega
  unfold commaSeparated.loop
  dsimp only
  rw [if_neg hfew, ← List.append_nil ts]
  refine .bind (by rwa [List.nil_append]) ?_
  cases bound with
  | zero => exact .pure
  | succ bound => exact .bind_nil (.accept_false hrest) .pure

/-- Behind a comma the list goes on. -/
theorem commaSeparated_loop_next {comma : Token} (hcount : count < 255)
    (hitem : Yields item n ts (comma :: us ++ rest) a m) (hcomma : comma.kind = .comma)
    (h : Yields (commaSeparated.loop item tooMany bound (count + 1)) m us rest as n') :
    Yields (commaSeparated.loop item tooMany (bound + 1) count) n (ts ++ comma :: us) rest
      (a :: as) n' := by
  have hfew : ¬ maxArguments ≤ count := by
    simp only [maxArguments]
    omega
  unfold commaSeparated.loop
  dsimp only
  rw [if_neg hfew]
  exact .bind hitem (.bind_cons (.accept_true hcomma (by decide)) (.bind_pure h))

/-- In front of the right parenthesis the list is empty. -/
theorem commaSeparated_nil {rparen : Token} (hrparen : rparen.kind = .rightParen) :
    Yields (commaSeparated item tooMany) n [] (rparen :: rest) [] n :=
  .bind_nil (.looksAt_true hrparen (by decide)) .pure

/-- A list that does not begin with the right parenthesis has an item. -/
theorem commaSeparated_of_loop (hts : Stops (· = .rightParen) (ts ++ rest))
    (h : Yields (commaSeparated.loop item tooMany (ts ++ rest).length 0) n ts rest as n') :
    Yields (commaSeparated item tooMany) n ts rest as n' :=
  .bind_nil (.looksAt_false hts) (.remaining_bind h)

end Lists

/-! ### Derivations -/

/-- What is proved of the tokens of a phrase: they are read as the phrase is derived. -/
private def Accepted : Phrase → Nat → List Token → Nat → Prop
  | .expression e, n, ts, n' => ∀ depth rest, ts.length ≤ depth → Ends 7 rest →
      Yields (expression depth) n ts rest e n'
  | .level l e, n, ts, n' => ∀ depth rest, ts.length ≤ depth + 1 → Ends (levelLooseness l) rest →
      Yields (levelParser (expression depth) l) n ts rest e n'
  | .operands l left e, n, ts, n' => ∀ depth rest bound, ts.length ≤ depth + 1 →
      ts.length ≤ bound → Ends (levelLooseness l) rest →
      Yields (leftAssociative.loop (· ∈ l.operators) l.node (operandParser (expression depth) l)
        bound left) n ts rest e n'
  | .unary e, n, ts, n' => ∃ ops us e', ts = ops ++ us ∧ e = ops.foldr .unary e' ∧
      (∀ op ∈ ops, op.kind ∈ [.bang, .minus]) ∧ Phrase.Begins Phrase.startsPrimary us ∧
      ∀ depth rest, us.length ≤ depth + 1 →
        Reaches (call (expression depth)) (expression depth) n us rest e' n'
  | .call e, n, ts, n' => ∀ depth rest, ts.length ≤ depth + 1 →
      Reaches (call (expression depth)) (expression depth) n ts rest e n'
  | .postfixes left e, n, ts, n' => ∀ depth rest bound, ts.length ≤ depth + 1 →
      (ts ++ rest).length ≤ bound →
      Reaches (postfixes (expression depth) bound left) (expression depth) n ts rest e n'
  | .primary e, n, ts, n' => ∀ depth rest, ts.length ≤ depth + 1 →
      Yields (primary (expression depth)) n ts rest e n'
  | .arguments es, n, ts, n' => ∀ depth rest bound count, ts.length ≤ depth → ts.length ≤ bound →
      count + es.length ≤ 255 → (∀ t ∈ rest.head?, t.kind = .rightParen) →
      Yields (commaSeparated.loop (expression depth) .tooManyArguments bound count) n ts rest es n'

/-- An operand of a level is read by the parser of the level below. -/
private theorem accepted_operand {l : Level} {e : Expr} {n n' : Nat} {ts : List Token}
    (h : Accepted (l.operand e) n ts n') {depth : Nat} {rest : List Token}
    (hdepth : ts.length ≤ depth + 1) (hrest : Ends (levelLooseness l - 1) rest) :
    Yields (operandParser (expression depth) l) n ts rest e n' := by
  cases l with
  | factor =>
    obtain ⟨ops, us, e', rfl, rfl, hops, hus, h⟩ := h
    rw [List.length_append] at hdepth
    exact Yields.unary ops hops hus ((h depth rest (by omega)).yields hrest)
  | _ => exact h depth rest hdepth hrest

/-- Tokens that start like an expression do not start with a token that starts none. -/
theorem stops_of_begins {q p : TokenKind → Bool} (h : Phrase.Begins p ts)
    (hq : ∀ kind, q kind → ¬ p kind) (rest : List Token) : Stops q (ts ++ rest) := by
  obtain ⟨t, us, rfl, ht⟩ := h
  intro u hu hqu
  obtain rfl : t = u := by simpa using hu
  exact hq _ hqu ht

/-- Behind an operand stands an operator of the level, or what ends the level. -/
private theorem ends_of_operands {l : Level} {left : Expr}
    (h : (Phrase.operands l left e).Derives n ts n') (hrest : Ends (levelLooseness l) rest) :
    Ends (levelLooseness l - 1) (ts ++ rest) := by
  cases h with
  | lastOperand => exact hrest.mono (Nat.sub_le _ _)
  | nextOperand hop =>
    refine .cons ?_
    rw [looseness_of_mem hop]
    cases l <;> decide

/-- What is derived is read as it is derived. By induction on the derivation: the depth of nesting
    and the rounds of each loop stay bounded by the tokens of the phrase. -/
private theorem accepted {p : Phrase} (h : p.Derives n ts n') :
    Accepted p n ts n' := by
  induction h with
  | @assign value name equal ts n m hname hequal _ ih =>
    intro depth rest hdepth hrest
    simp only [List.length_cons] at hdepth
    obtain ⟨depth, rfl⟩ : ∃ d, depth = d + 1 := ⟨depth - 1, by omega⟩
    exact assignment_variable hname hequal (ih depth _ (by omega) hrest)
  | @set object value dot name equal ts ts' n m n' hobject hdot hname hequal _ ihobject ih =>
    intro depth rest hdepth hrest
    simp only [List.length_append, List.length_cons] at hdepth
    obtain ⟨depth, rfl⟩ : ∃ d, depth = d + 1 := ⟨depth - 1, by omega⟩
    exact assignment_property hobject.call_begins (ihobject depth _ (by omega)) hdot hname hequal
      (ih depth rest (by omega) hrest)
  | @operation e ts n n' h ih =>
    intro depth rest hdepth hrest
    have hlength : 0 < ts.length := by
      obtain ⟨t, us, rfl, -⟩ := (Phrase.Derives.operation h).expression_begins
      simp
    obtain ⟨depth, rfl⟩ : ∃ d, depth = d + 1 := ⟨depth - 1, by omega⟩
    exact assignment_operation (ih depth _ hdepth (hrest.mono (by decide))) hrest
  | @level l left e ts ts' n m n' _ hoperands ihleft ihrest =>
    intro depth rest hdepth hends
    rw [List.length_append] at hdepth
    rw [levelParser_eq]
    refine .bind (accepted_operand ihleft (by omega) (ends_of_operands hoperands hends)) ?_
    exact .remaining_bind (ihrest depth rest _ (by omega) (by simp) hends)
  | lastOperand =>
    intro depth rest bound _ _ hends
    cases bound with
    | zero => exact .pure
    | succ bound => exact .bind_nil (.accept?_none hends.not_operator) .pure
  | @nextOperand l right left e op ts ts' n m n' hop _ hoperands ihright ihrest =>
    intro depth rest bound hdepth hbound hends
    simp only [List.length_append, List.length_cons] at hdepth hbound
    obtain ⟨bound, rfl⟩ : ∃ b, bound = b + 1 := ⟨bound - 1, by omega⟩
    exact operands_next hop
      (accepted_operand ihright (by omega) (ends_of_operands hoperands hends))
      (ihrest depth rest bound (by omega) (by omega) hends)
  | @unary e op ts n n' hop _ ih =>
    obtain ⟨ops, us, e', rfl, rfl, hops, hus, h⟩ := ih
    refine ⟨op :: ops, us, e', rfl, rfl, ?_, hus, h⟩
    intro t ht
    rcases List.mem_cons.mp ht with rfl | ht
    · exact hop
    · exact hops t ht
  | @operand e ts n n' hcall ih => exact ⟨[], ts, e, rfl, rfl, by simp, hcall.call_begins, ih⟩
  | @call left e ts ts' n m n' _ _ ihleft ihrest =>
    intro depth rest hdepth
    rw [List.length_append] at hdepth
    exact call_reaches (ihleft depth _ (by omega)) fun bound hbound =>
      ihrest depth rest bound (by omega) hbound
  | lastPostfix =>
    intro depth rest bound _ hbound
    exact ⟨bound, hbound, .refl⟩
  | @emptyCall left e lparen rparen ts n n' hlparen hrparen _ ih =>
    intro depth rest bound hdepth hbound
    simp only [List.length_append, List.length_cons] at hdepth hbound
    obtain ⟨bound, rfl⟩ : ∃ b, bound = b + 1 := ⟨bound - 1, by omega⟩
    refine .trans (arguments_leads hlparen (commaSeparated_nil hrparen) hrparen)
      (ih depth rest bound (by omega) ?_)
    rw [List.length_append]
    omega
  | @callWith left e es lparen rparen ts ts' n m n' hlparen harguments hcount hrparen _ ihes ih =>
    intro depth rest bound hdepth hbound
    simp only [List.length_append, List.length_cons] at hdepth hbound
    obtain ⟨bound, rfl⟩ : ∃ b, bound = b + 1 := ⟨bound - 1, by omega⟩
    have hstops : Stops (· = .rightParen) (ts ++ rparen :: (ts' ++ rest)) :=
      stops_of_begins harguments.arguments_begins
        (fun kind hkind => by rw [of_decide_eq_true hkind]; decide) _
    have hes : Yields (commaSeparated (expression depth) .tooManyArguments) n ts
        (rparen :: (ts' ++ rest)) es m :=
      commaSeparated_of_loop hstops (ihes depth _ _ 0 (by omega) (by simp) (by omega)
        (by simp [hrparen]))
    have hsplit : lparen :: ts ++ rparen :: ts' = (lparen :: ts ++ [rparen]) ++ ts' := by simp
    rw [hsplit]
    refine .trans (arguments_leads hlparen hes hrparen) (ih depth rest bound (by omega) ?_)
    rw [List.length_append]
    omega
  | @property left e dot name ts n n' hdot hname _ ih =>
    intro depth rest bound hdepth hbound
    simp only [List.length_append, List.length_cons] at hdepth hbound
    obtain ⟨bound, rfl⟩ : ∃ b, bound = b + 1 := ⟨bound - 1, by omega⟩
    refine .trans (property_leads hdot hname) (ih depth rest bound (by omega) ?_)
    rw [List.length_append]
    omega
  | @lastArgument e ts n n' h ih =>
    intro depth rest bound count hdepth _ hcount hrest
    simp only [List.length_cons, List.length_nil] at hcount
    refine commaSeparated_loop_last (by omega) (ih depth rest hdepth fun t ht => ?_) fun t ht => ?_
    · simp [hrest t ht, looseness]
    · simp [hrest t ht]
  | @nextArgument e es comma ts ts' n m n' h hcomma _ ih ihrest =>
    intro depth rest bound count hdepth hbound hcount hrest
    simp only [List.length_append, List.length_cons] at hdepth hbound hcount
    obtain ⟨bound, rfl⟩ : ∃ b, bound = b + 1 := ⟨bound - 1, by omega⟩
    refine commaSeparated_loop_next (by omega) (ih depth _ (by omega) (.cons ?_)) hcomma
      (ihrest depth rest bound (count + 1) (by omega) (by omega) (by omega) hrest)
    simp [hcomma, looseness]
  | @literal constant t n h =>
    intro depth rest hdepth
    exact primary_literal h
  | @var name n hname =>
    intro depth rest hdepth
    exact primary_var hname
  | @this keyword n h =>
    intro depth rest hdepth
    refine .peekKind_bind ?_
    rw [h]
    -- the identity is given out before the keyword is consumed
    exact .bind_nil .freshId (.bind_pure (.next (by rw [h]; decide)))
  | @super keyword dot method n h hdot hmethod =>
    intro depth rest hdepth
    refine .dispatch (by rw [h]; decide) (by rw [h]) ?_
    exact .bind_cons (.expect hdot (by decide))
      (.bind_cons (.expect hmethod (by decide)) (.bind_nil .freshId .pure))
  | @grouping e lparen rparen ts n n' hlparen _ hrparen ih =>
    intro depth rest hdepth
    simp only [List.length_append, List.length_cons, List.length_nil] at hdepth
    refine .dispatch (by rw [hlparen]; decide) (by rw [hlparen]) ?_
    refine .bind (ih depth _ (by omega) (.cons ?_)) (.bind_cons (.expect hrparen (by decide)) .pure)
    simp [hrparen, looseness]

/-- An expression is read up to a token that does not go on with it. -/
theorem fullExpression_yields (h : (Phrase.expression e).Derives n ts n') (hrest : Ends 7 rest) :
    Yields fullExpression n ts rest e n' :=
  .remaining_bind (accepted h _ rest (by simp) hrest)

/-- An expression that may be missing is read up to the token that ends it. -/
theorem expressionUnless_yields {o : Option Expr} {t : Token}
    (h : OptionalExpression o n ts n') (ht : t.kind = kind)
    (hkind : kind ∈ [.semicolon, .rightParen]) :
    Yields (expressionUnless kind) n ts (t :: rest) o n' := by
  have heof : kind ≠ .eof := by
    rintro rfl
    simp at hkind
  cases h with
  | none => exact .bind_nil (.looksAt_true ht heof) .pure
  | some h =>
    -- no expression starts with the token that stands for a missing one
    have hstops : Stops (· = kind) (ts ++ t :: rest) := by
      refine stops_of_begins h.expression_begins (fun k hk => ?_) _
      rw [of_decide_eq_true hk]
      rcases List.mem_cons.mp hkind with rfl | hkind
      · decide
      · obtain rfl := List.mem_singleton.mp hkind
        decide
    refine .bind_nil (.looksAt_false hstops) (.map (fullExpression_yields h (.cons ?_)))
    rw [ht]
    rcases List.mem_cons.mp hkind with rfl | hkind
    · decide
    · obtain rfl := List.mem_singleton.mp hkind
      decide

/-! ## Statements -/

variable {stmt : Stmt}

/-- A variable declaration is read behind its keyword. -/
theorem varDeclaration_yields (h : VariableDeclaration stmt n ts n') :
    ∃ keyword us, ts = keyword :: us ∧ keyword.kind = .keyword .var ∧
      ∀ rest, Yields varDeclaration n us rest stmt n' := by
  cases h with
  | bare hvar hname hsemicolon =>
    refine ⟨_, _, rfl, hvar, fun rest => ?_⟩
    have hequal (t : Token) (ht : t.kind = .semicolon) (rest : List Token) :
        Stops (· = .equal) (t :: rest) := by
      rintro u ⟨⟩
      simp [ht]
    exact .bind_cons (.expect hname (by decide)) (.bind_nil (.accept_false (hequal _ hsemicolon _))
      (.bind_nil .pure (.bind_cons (.expect hsemicolon (by decide)) .pure)))
  | initialized hvar hname hequal h hsemicolon =>
    refine ⟨_, _, rfl, hvar, fun rest => ?_⟩
    refine .bind_cons (.expect hname (by decide)) (.bind_cons (.accept_true hequal (by decide))
      (.bind (.map (fullExpression_yields h (.cons ?_)))
        (.bind_cons (.expect hsemicolon (by decide)) .pure)))
    simp [hsemicolon, looseness]

/-- An expression statement is read together with its semicolon. -/
theorem expressionStatement_yields (h : ExpressionStatement stmt n ts n') :
    Yields expressionStatement n ts rest stmt n' := by
  cases h with
  | expression h hsemicolon =>
    refine .bind (fullExpression_yields h (.cons ?_))
      (.bind_cons (.expect hsemicolon (by decide)) .pure)
    simp [hsemicolon, looseness]

/-- The initializer of a `for` statement is read together with its semicolon. -/
theorem forInitializer_yields {o : Option Stmt} (h : Initializer o n ts n') :
    Yields forInitializer n ts rest o n' := by
  cases h with
  | none hsemicolon => exact .bind_cons (.accept_true hsemicolon (by decide)) .pure
  | varDecl h =>
    obtain ⟨keyword, us, rfl, hkeyword, h⟩ := varDeclaration_yields h
    refine .bind_nil (.accept_false ?_) (.bind_cons (.accept_true hkeyword (by decide)) (.map (h _)))
    rintro t ⟨⟩
    simp [hkeyword]
  | expression h =>
    -- the parser tries a semicolon and `var` first, with neither of which an expression starts
    have hstops (kind : TokenKind) (hkind : ¬ Phrase.startsExpression kind) :
        Stops (· = kind) (ts ++ rest) :=
      stops_of_begins h.begins (fun k hk => by rwa [of_decide_eq_true hk]) rest
    exact .bind_nil (.accept_false (hstops _ (by decide)))
      (.bind_nil (.accept_false (hstops _ (by decide))) (.map (expressionStatement_yields h)))

/-- What is read without an error needs no recovery. -/
theorem recovering_yields {p : Parser Stmt} (h : Yields p n ts rest stmt n') :
    Yields (recovering p) n ts rest (some stmt) n' := by
  intro position errors
  rw [recovering_run, h]
  rfl

/-- What stands behind declarations. -/
def Closes (rest : List Token) : Prop :=
  ∀ t ∈ rest.head?, t.kind = .rightBrace ∨ t.kind = .eof

/-- What is proved of the tokens of a clause: they are read as the clause is derived. -/
private def AcceptedClause : Clause → Nat → List Token → Nat → Prop
  | .declarations body, n, ts, n' => ∀ depth rest bound, ts.length ≤ depth → ts.length ≤ bound →
      Closes rest → Yields (declarations (declaration depth) bound) n ts rest body n'
  | .declaration stmt, n, ts, n' => ∀ depth rest, ts.length ≤ depth →
      Stops (· = .keyword .else_) rest → Yields (declaration depth) n ts rest (some stmt) n'
  | .statement ending stmt, n, ts, n' => ∀ depth rest, ts.length ≤ depth →
      (ending = .opened → Stops (· = .keyword .else_) rest) →
      Yields (statement depth) n ts rest stmt n'
  | .function d, n, ts, n' => ∀ method depth rest, ts.length ≤ depth + 1 →
      Yields (function method (declaration depth)) n ts rest d n'
  | .methods ds, n, ts, n' => ∀ depth rest bound, ts.length ≤ depth → ts.length ≤ bound →
      Closes rest → Yields (methods (declaration depth) bound) n ts rest ds n'

/-- A token that closes a list of declarations is no `else`. -/
theorem Closes.stops (h : Closes rest) : Stops (· = .keyword .else_) rest := by
  intro t ht
  rcases h t ht with h | h <;> simp [h]

/-- Repetitions stop before what stands behind declarations. -/
private theorem closed_of_closes {s : ParserState} (h : Closes s.rest) :
    (s.atEnd || decide (s.current.kind = .rightBrace)) = true := by
  unfold ParserState.atEnd ParserState.current
  cases hr : s.rest with
  | nil => simp [Token.eof]
  | cons t rest =>
    rw [hr] at h
    rcases h t rfl with h | h <;> simp [h]

/-- Repetitions go on before what starts an item. -/
private theorem not_closed_of_begins {s : ParserState} {q : TokenKind → Bool}
    (h : Phrase.Begins q ts) (hs : s.rest = ts ++ rest) (hbrace : ¬ q .rightBrace)
    (heof : ¬ q .eof) : ¬ (s.atEnd || decide (s.current.kind = .rightBrace)) = true := by
  obtain ⟨t, us, rfl, ht⟩ := h
  simp only [ParserState.atEnd, ParserState.current, hs, List.cons_append, List.headD_cons,
    Bool.or_eq_true, decide_eq_true_eq]
  rintro (h | h) <;> rw [h] at ht
  · exact heof ht
  · exact hbrace ht

/-- A closing brace is behind a block. -/
private theorem block_yields {nested : Parser (Option Stmt)} {body : List Stmt} {rbrace : Token}
    (h : ∀ bound, ts.length ≤ bound →
      Yields (declarations nested bound) n ts (rbrace :: rest) body n')
    (hrbrace : rbrace.kind = .rightBrace) :
    Yields (block nested) n (ts ++ [rbrace]) rest body n' := by
  refine .remaining_bind (.bind (h _ ?_) (.bind_cons (.expect hrbrace (by decide)) .pure))
  simp only [List.length_append]
  omega

/-- The methods of a class between its braces. -/
private theorem classBody_yields {nested : Parser (Option Stmt)} {ds : List FunctionDecl}
    {lbrace rbrace : Token} (hlbrace : lbrace.kind = .leftBrace)
    (h : ∀ bound, ts.length ≤ bound → Yields (methods nested bound) n ts (rbrace :: rest) ds n')
    (hrbrace : rbrace.kind = .rightBrace) (name : Token) (superclass : Option Expr) : Yields (do
      let _ ← expect .leftBrace .classBodyStart
      let methods ← methods nested (← remaining)
      let _ ← expect .rightBrace .classBodyEnd
      return Stmt.classDecl ⟨name, superclass, methods⟩) n (lbrace :: (ts ++ [rbrace])) rest
      (.classDecl ⟨name, superclass, ds⟩) n' := by
  refine .bind_cons (.expect hlbrace (by decide)) (.remaining_bind (.bind (h _ ?_)
    (.bind_cons (.expect hrbrace (by decide)) .pure)))
  simp only [List.length_append]
  omega

/-- Parameters are read one after the other, as long as they are at most 255. -/
private theorem parameters_loop_yields {params : List Token} (h : Parameters params ts)
    (hne : params ≠ []) {bound count : Nat} (hbound : ts.length ≤ bound)
    (hcount : count + params.length ≤ 255) (hrest : Stops (· = .comma) rest) :
    Yields (commaSeparated.loop (expect .identifier .parameterName) .tooManyParameters bound count)
      n ts rest params n := by
  induction h generalizing bound count with
  | none => exact absurd rfl hne
  | last hname =>
    simp only [List.length_cons, List.length_nil] at hcount
    exact commaSeparated_loop_last (by omega) (.expect hname (by decide)) hrest
  | @next name comma params ts hname hcomma hne' _ ih =>
    simp only [List.length_cons] at hbound hcount
    obtain ⟨bound, rfl⟩ : ∃ b, bound = b + 1 := ⟨bound - 1, by omega⟩
    -- a round takes one parameter with its comma, and counts one up
    show Yields _ n ([name] ++ comma :: ts) rest _ n
    exact commaSeparated_loop_next (by omega) (.expect hname (by decide)) hcomma
      (ih hne' (by omega) (by omega))

/-- The parameters of a function are read up to the right parenthesis. -/
theorem parameters_yields {params : List Token} {rparen : Token} (h : Parameters params ts)
    (hcount : params.length ≤ 255) (hrparen : rparen.kind = .rightParen) :
    Yields (commaSeparated (expect .identifier .parameterName) .tooManyParameters) n ts
      (rparen :: rest) params n := by
  have hcomma : Stops (· = .comma) (rparen :: rest) := by
    rintro t ⟨⟩
    simp [hrparen]
  -- the three ways differ in what the parser sees first: the parenthesis or a name
  cases h with
  | none => exact commaSeparated_nil hrparen
  | last hname =>
    refine commaSeparated_of_loop ?_
      (parameters_loop_yields (.last hname) (by simp) (by simp) (by omega) hcomma)
    rintro t ⟨⟩
    simp [hname]
  | next hname hcomma' hne hrest =>
    refine commaSeparated_of_loop ?_
      (parameters_loop_yields (.next hname hcomma' hne hrest) (by simp) (by simp) (by omega) hcomma)
    rintro t ⟨⟩
    simp [hname]

/-- A condition in parentheses. -/
private theorem condition_yields {what what' : Expectation} {lparen rparen : Token} {m : Nat}
    {us : List Token} {f : Expr → Parser Stmt} (hlparen : lparen.kind = .leftParen)
    (h : (Phrase.expression e).Derives n ts m) (hrparen : rparen.kind = .rightParen)
    (hf : Yields (f e) m us rest stmt n') :
    Yields (do
      let _ ← expect .leftParen what
      let condition ← fullExpression
      let _ ← expect .rightParen what'
      f condition) n (lparen :: ts ++ rparen :: us) rest stmt n' := by
  show Yields _ n (lparen :: (ts ++ rparen :: us)) rest _ n'
  refine .bind_cons (.expect hlparen (by decide))
    (.bind (fullExpression_yields h (.cons ?_)) (.bind_cons (.expect hrparen (by decide)) hf))
  simp [hrparen, looseness]

/-! ### One lemma for each kind of declaration and statement -/

variable {lparen rparen lbrace rbrace semicolon keyword name : Token}
  {nestedStatement : Parser Stmt} {nestedDeclaration : Parser (Option Stmt)} {params : List Token}
  {body : List Stmt} {d : FunctionDecl} {ds : List FunctionDecl} {us us' vs : List Token}
  {m m' n₁ depth bound : Nat} {rest : List Token}

/-- A function is read from its name to the end of its body. -/
theorem function_yields {method : Bool} (hname : name.kind = .identifier)
    (hlparen : lparen.kind = .leftParen) (hparams : Parameters params ts)
    (hcount : params.length ≤ 255) (hrparen : rparen.kind = .rightParen)
    (hlbrace : lbrace.kind = .leftBrace)
    (hbody : Yields (block nestedDeclaration) n us rest body n') :
    Yields (function method nestedDeclaration) n
      (name :: lparen :: (ts ++ rparen :: lbrace :: us)) rest ⟨name, params, body⟩ n' :=
  .bind_cons (.expect hname (by decide)) (.bind_cons (.expect hlparen (by decide))
    (.bind (parameters_yields hparams hcount hrparen) (.bind_cons (.expect hrparen (by decide))
      (.bind_cons (.expect hlbrace (by decide)) (.bind_pure hbody)))))

/-- A `print` statement is read behind its keyword. -/
theorem printStatement_yields (h : (Phrase.expression e).Derives n ts n')
    (hsemicolon : semicolon.kind = .semicolon) :
    Yields printStatement n (ts ++ [semicolon]) rest (.print e) n' := by
  refine .bind (fullExpression_yields h (.cons ?_))
    (.bind_cons (.expect hsemicolon (by decide)) .pure)
  simp [hsemicolon, looseness]

/-- A `return` statement is read behind its keyword, with or without a value. -/
theorem returnStatement_yields {value : Option Expr} (h : OptionalExpression value n ts n')
    (hsemicolon : semicolon.kind = .semicolon) :
    Yields (returnStatement keyword) n (ts ++ [semicolon]) rest (.ret keyword value) n' :=
  .bind (expressionUnless_yields h hsemicolon (by simp))
    (.bind_cons (.expect hsemicolon (by decide)) .pure)

/-- A `while` statement is read behind its keyword. -/
theorem whileStatement_yields (hlparen : lparen.kind = .leftParen)
    (h : (Phrase.expression e).Derives n ts m) (hrparen : rparen.kind = .rightParen)
    (hbody : Yields nestedStatement m us rest stmt n') :
    Yields (whileStatement nestedStatement) n (lparen :: ts ++ rparen :: us) rest (.loop e stmt)
      n' :=
  condition_yields hlparen h hrparen (.bind_pure hbody)

/-- A `for` statement is read behind its keyword, as the loop that it stands for. -/
theorem forStatement_yields {initializer : Option Stmt} {test increment : Option Expr}
    (hlparen : lparen.kind = .leftParen) (hinitializer : Initializer initializer n ts m)
    (htest : OptionalExpression test m us m') (hsemicolon : semicolon.kind = .semicolon)
    (hincrement : OptionalExpression increment m' us' n₁) (hrparen : rparen.kind = .rightParen)
    (hbody : Yields nestedStatement n₁ vs rest stmt n') :
    Yields (forStatement nestedStatement) n
      (lparen :: (ts ++ (us ++ semicolon :: (us' ++ rparen :: vs)))) rest
      (.forLoop initializer test increment stmt) n' :=
  .bind_cons (.expect hlparen (by decide)) (.bind (forInitializer_yields hinitializer)
    (.bind (expressionUnless_yields htest hsemicolon (by simp))
      (.bind_cons (.expect hsemicolon (by decide))
        (.bind (expressionUnless_yields hincrement hrparen (by simp))
          (.bind_cons (.expect hrparen (by decide)) (.bind_pure hbody))))))

/-- An `if` statement without `else` is read behind its keyword. -/
theorem ifStatement_yields (hlparen : lparen.kind = .leftParen)
    (h : (Phrase.expression e).Derives n ts m) (hrparen : rparen.kind = .rightParen)
    (hthen : Yields nestedStatement m us rest stmt n')
    (hrest : Stops (· = .keyword .else_) rest) :
    Yields (ifStatement nestedStatement) n (lparen :: ts ++ rparen :: us) rest (.cond e stmt none)
      n' := by
  refine condition_yields hlparen h hrparen ?_
  rw [← List.append_nil us]
  exact .bind (by rwa [List.nil_append]) (.bind_nil (.accept_false hrest) (.bind_nil .pure .pure))

/-- An `if` statement with `else` is read behind its keyword, and the `else` is its own. -/
theorem ifElseStatement_yields {else_ : Token} {stmt' : Stmt} (hlparen : lparen.kind = .leftParen)
    (h : (Phrase.expression e).Derives n ts m) (hrparen : rparen.kind = .rightParen)
    (hthen : Yields nestedStatement m us (else_ :: us' ++ rest) stmt m')
    (helse : else_.kind = .keyword .else_) (hother : Yields nestedStatement m' us' rest stmt' n') :
    Yields (ifStatement nestedStatement) n (lparen :: ts ++ rparen :: (us ++ else_ :: us')) rest
      (.cond e stmt (some stmt')) n' := by
  refine condition_yields hlparen h hrparen
    (.bind hthen (.bind_cons (.accept_true helse (by decide)) ?_))
  rw [← List.append_nil us']
  exact .bind (.map (by rwa [List.nil_append])) .pure

/-- No keyword of another statement starts an expression. -/
theorem plainStatement_expression (h : ExpressionStatement stmt n ts n') :
    Yields (plainStatement nestedStatement nestedDeclaration) n ts rest stmt n' := by
  have hstmt : Yields expressionStatement n ts rest stmt n' := expressionStatement_yields h
  obtain ⟨t, us, rfl, ht⟩ := h.begins
  refine .peekKind_bind ?_
  split
  case h_7 => exact hstmt
  all_goals
    rename_i hkind
    rw [hkind] at ht
    exact absurd ht (by decide)

/-- No keyword of a declaration starts another statement. -/
theorem anyStatement_plain {t : Token} (ht : Clause.startsPlain t.kind)
    (h : Yields (plainStatement nestedStatement nestedDeclaration) n (t :: ts) rest stmt n') :
    Yields (anyStatement nestedStatement nestedDeclaration) n (t :: ts) rest stmt n' := by
  refine .peekKind_bind ?_
  split
  case h_4 => exact h
  all_goals
    rename_i hkind
    rw [hkind] at ht
    exact absurd ht (by decide)

/-! ### Repetitions and nesting -/

/-- A right brace closes a list of declarations. -/
theorem closes_rightBrace (h : rbrace.kind = .rightBrace) : Closes (rbrace :: rest) := by
  rintro t ⟨⟩
  exact .inl h

/-- Where declarations are closed none is read. -/
theorem declarations_end (h : Closes rest) :
    Yields (declarations nestedDeclaration bound) n [] rest [] n := by
  cases bound with
  | zero => exact .pure
  | succ bound =>
    refine .get_bind fun s hs => ?_
    rw [if_pos (closed_of_closes (by rwa [hs]))]
    exact .pure

/-- Where methods are closed none is read. -/
theorem methods_end (h : Closes rest) :
    Yields (methods nestedDeclaration bound) n [] rest [] n := by
  cases bound with
  | zero => exact .pure
  | succ bound =>
    refine .get_bind fun s hs => ?_
    rw [if_pos (closed_of_closes (by rwa [hs]))]
    exact .pure

/-- One declaration is read, and then the others. -/
theorem declarations_next {q : TokenKind → Bool} (hts : Phrase.Begins q ts)
    (hbrace : ¬ q .rightBrace) (heof : ¬ q .eof)
    (hfirst : Yields nestedDeclaration n ts (us ++ rest) (some stmt) m)
    (hothers : Yields (declarations nestedDeclaration bound) m us rest body n') :
    Yields (declarations nestedDeclaration (bound + 1)) n (ts ++ us) rest (stmt :: body) n' := by
  refine .get_bind fun s hs => ?_
  rw [List.append_assoc] at hs
  rw [if_neg (not_closed_of_begins hts hs hbrace heof)]
  exact .bind hfirst (.bind_pure hothers)

/-- One method is read, and then the others. -/
theorem methods_next {q : TokenKind → Bool} (hts : Phrase.Begins q ts) (hbrace : ¬ q .rightBrace)
    (heof : ¬ q .eof) (hfirst : Yields (function true nestedDeclaration) n ts (us ++ rest) d m)
    (hothers : Yields (methods nestedDeclaration bound) m us rest ds n') :
    Yields (methods nestedDeclaration (bound + 1)) n (ts ++ us) rest (d :: ds) n' := by
  refine .get_bind fun s hs => ?_
  rw [List.append_assoc] at hs
  rw [if_neg (not_closed_of_begins hts hs hbrace heof)]
  exact .bind hfirst (.bind_pure hothers)

/-- The first token of a statement is read on its own level of nesting. -/
theorem statement_of_plain (hdepth : 0 < depth)
    (h : ∀ below, depth = below + 1 →
      Yields (plainStatement (statement below) (declaration below)) n ts rest stmt n') :
    Yields (statement depth) n ts rest stmt n' := by
  obtain ⟨below, rfl⟩ : ∃ k, depth = k + 1 := ⟨depth - 1, by omega⟩
  unfold statement
  exact h below rfl

/-- A declaration is any statement, read with as much depth as there is. -/
theorem declaration_of_any (hdepth : 0 < depth)
    (h : ∀ below, depth = below + 1 →
      Yields (anyStatement (statement below) (declaration below)) n ts rest stmt n') :
    Yields (declaration depth) n ts rest (some stmt) n' := by
  obtain ⟨below, rfl⟩ : ∃ k, depth = k + 1 := ⟨depth - 1, by omega⟩
  unfold declaration
  exact recovering_yields (h below rfl)

/-! ### Derivations of clauses -/

/-- What is derived is read as it is derived. By induction on the derivation: the depth of nesting
    and the number of repetitions stay bounded by the tokens of the clause. -/
private theorem acceptedClause {c : Clause} (h : c.Derives true n ts n') :
    AcceptedClause c n ts n' := by
  induction h with
  | noDeclaration => exact fun depth rest bound _ _ hcloses => declarations_end hcloses
  | @nextDeclaration s body ts₁ ts₂ n m n' h hrest ih ihrest =>
    intro depth rest bound hdepth hbound hcloses
    have hbegins := h.declaration_begins
    have hlength : 0 < ts₁.length := by
      obtain ⟨t, us, rfl, -⟩ := hbegins
      simp
    rw [List.length_append] at hdepth hbound
    obtain ⟨bound, rfl⟩ : ∃ b, bound = b + 1 := ⟨bound - 1, by omega⟩
    -- an `if` without `else` may end the first one, and no other declaration starts with `else`
    have helse : Stops (· = .keyword .else_) (ts₂ ++ rest) := by
      rcases hrest.declarations_begins with rfl | hbegins
      · exact hcloses.stops
      · exact stops_of_begins hbegins (fun k hk => by rw [of_decide_eq_true hk]; decide) rest
    exact declarations_next hbegins (by decide) (by decide) (ih depth _ (by omega) helse)
      (ihrest depth rest bound (by omega) (by omega) hcloses)
  | @classDecl ds keyword name lbrace rbrace ts n n' hkeyword hname hlbrace _ hrbrace ih =>
    intro depth rest hdepth _
    simp only [List.length_append, List.length_cons, List.length_nil] at hdepth
    refine declaration_of_any (by omega) fun below hbelow => ?_
    have hbody := classBody_yields hlbrace (fun bound hbound =>
      ih below (rbrace :: rest) bound (by omega) hbound (closes_rightBrace hrbrace)) hrbrace name none
    have hless : Stops (· = .less) (lbrace :: (ts ++ [rbrace]) ++ rest) := by
      rintro t ⟨⟩
      simp [hlbrace]
    refine .dispatch (by rw [hkeyword]; decide) (by rw [hkeyword]) ?_
    exact .bind_cons (.expect hname (by decide))
      (.bind_nil (.accept_false hless) (.bind_nil .pure hbody))
  | @subclassDecl ds keyword name less superName lbrace rbrace ts n n' hkeyword hname hless hsuper
      hlbrace _ hrbrace ih =>
    intro depth rest hdepth _
    simp only [List.length_append, List.length_cons, List.length_nil] at hdepth
    refine declaration_of_any (by omega) fun below hbelow => ?_
    have hbody := classBody_yields hlbrace (fun bound hbound =>
      ih below (rbrace :: rest) bound (by omega) hbound (closes_rightBrace hrbrace)) hrbrace name
      (some (.var ⟨n⟩ superName))
    refine .dispatch (by rw [hkeyword]; decide) (by rw [hkeyword]) ?_
    exact .bind_cons (.expect hname (by decide)) (.bind_cons (.accept_true hless (by decide))
      (.bind_cons (.expect hsuper (by decide)) (.bind_nil .freshId (.bind_nil .pure hbody))))
  | @funDecl d keyword ts n n' hkeyword _ ih =>
    intro depth rest hdepth _
    rw [List.length_cons] at hdepth
    refine declaration_of_any (by omega) fun below hbelow => ?_
    exact .dispatch (by rw [hkeyword]; decide) (by rw [hkeyword])
      (.bind_pure (ih false below rest (by omega)))
  | @varDecl s ts n n' h =>
    intro depth rest hdepth _
    obtain ⟨keyword, us, rfl, hkeyword, h⟩ := varDeclaration_yields h
    rw [List.length_cons] at hdepth
    refine declaration_of_any (by omega) fun below hbelow => ?_
    exact .dispatch (by rw [hkeyword]; decide) (by rw [hkeyword]) (h rest)
  | @statement s ending ts n n' h ih =>
    intro depth rest hdepth hrest
    obtain ⟨t, us, rfl, ht⟩ := h.statement_begins
    have hplain := ih depth rest hdepth fun _ => hrest
    rw [List.length_cons] at hdepth
    refine declaration_of_any (by omega) fun below hbelow => anyStatement_plain ht ?_
    rw [hbelow] at hplain
    unfold statement at hplain
    exact hplain
  | @function body name lparen rparen lbrace rbrace params ts₁ ts₂ n n' hname hlparen hparams
      hcount hrparen hlbrace _ hrbrace ih =>
    intro method depth rest hdepth
    simp only [List.length_append, List.length_cons, List.length_nil] at hdepth
    have hbody : Yields (block (declaration depth)) n (ts₂ ++ [rbrace]) rest body n' :=
      block_yields (fun bound hbound =>
        ih depth _ bound (by omega) hbound (closes_rightBrace hrbrace)) hrbrace
    have hsplit : name :: lparen :: ts₁ ++ rparen :: lbrace :: ts₂ ++ [rbrace] =
        name :: lparen :: (ts₁ ++ rparen :: lbrace :: (ts₂ ++ [rbrace])) := by simp
    rw [hsplit]
    exact function_yields hname hlparen hparams hcount hrparen hlbrace hbody
  | noMethod => exact fun depth rest bound _ _ hcloses => methods_end hcloses
  | @nextMethod d ds ts₁ ts₂ n m n' h _ ih ihrest =>
    intro depth rest bound hdepth hbound hcloses
    have hbegins := h.function_begins
    have hlength : 0 < ts₁.length := by
      obtain ⟨t, us, rfl, -⟩ := hbegins
      simp
    rw [List.length_append] at hdepth hbound
    obtain ⟨bound, rfl⟩ : ∃ b, bound = b + 1 := ⟨bound - 1, by omega⟩
    exact methods_next hbegins (by decide) (by decide) (ih true depth _ (by omega))
      (ihrest depth rest bound (by omega) (by omega) hcloses)
  | @exprStmt s ts n n' h =>
    intro depth rest hdepth _
    obtain ⟨t, us, rfl, -⟩ := h.begins
    rw [List.length_cons] at hdepth
    exact statement_of_plain (by omega) fun below _ => plainStatement_expression h
  | @printStmt e keyword semicolon ts n n' hkeyword h hsemicolon =>
    intro depth rest hdepth _
    simp only [List.length_append, List.length_cons] at hdepth
    refine statement_of_plain (by omega) fun below _ => ?_
    exact .dispatch (by rw [hkeyword]; decide) (by rw [hkeyword])
      (printStatement_yields h hsemicolon)
  | @returnStmt value keyword semicolon ts n n' hkeyword h hsemicolon =>
    intro depth rest hdepth _
    simp only [List.length_append, List.length_cons] at hdepth
    refine statement_of_plain (by omega) fun below _ => ?_
    exact .dispatch (by rw [hkeyword]; decide) (by rw [hkeyword])
      (returnStatement_yields h hsemicolon)
  | @block body lbrace rbrace ts n n' hlbrace _ hrbrace ih =>
    intro depth rest hdepth _
    simp only [List.length_append, List.length_cons, List.length_nil] at hdepth
    refine statement_of_plain (by omega) fun below hbelow => ?_
    have hbody : Yields (block (declaration below)) n (ts ++ [rbrace]) rest body n' :=
      block_yields (fun bound hbound =>
        ih below _ bound (by omega) hbound (closes_rightBrace hrbrace)) hrbrace
    exact .dispatch (by rw [hlbrace]; decide) (by rw [hlbrace]) (.bind_pure hbody)
  | @whileStmt s condition ending keyword lparen rparen ts₁ ts₂ n m n' hkeyword hlparen hcondition
      hrparen _ ih =>
    intro depth rest hdepth hrest
    simp only [List.length_append, List.length_cons] at hdepth
    refine statement_of_plain (by omega) fun below hbelow => ?_
    exact .dispatch (by rw [hkeyword]; decide) (by rw [hkeyword])
      (whileStatement_yields hlparen hcondition hrparen (ih below rest (by omega) hrest))
  | @forStmt s initializer test increment ending keyword lparen semicolon rparen ts₁ ts₂ ts₃ ts₄
      n m m₁ m₂ n' hkeyword hlparen hinitializer htest hsemicolon hincrement hrparen _ ih =>
    intro depth rest hdepth hrest
    simp only [List.length_append, List.length_cons] at hdepth
    refine statement_of_plain (by omega) fun below hbelow => ?_
    exact .dispatch (by rw [hkeyword]; decide) (by rw [hkeyword])
      (forStatement_yields hlparen hinitializer htest hsemicolon hincrement hrparen
        (ih below rest (by omega) hrest))
  | @ifStmt s condition ending keyword lparen rparen ts₁ ts₂ n m n' hkeyword hlparen hcondition
      hrparen _ ih =>
    intro depth rest hdepth hrest
    simp only [List.length_append, List.length_cons] at hdepth
    refine statement_of_plain (by omega) fun below hbelow => ?_
    -- the statement is opened, so what follows it is known not to be an `else`
    exact .dispatch (by rw [hkeyword]; decide) (by rw [hkeyword])
      (ifStatement_yields hlparen hcondition hrparen
        (ih below _ (by omega) fun _ => hrest rfl) (hrest rfl))
  | @ifElseStmt s s' condition before ending keyword lparen rparen else_ ts₁ ts₂ ts₃ n m m₁ n'
      hkeyword hlparen hcondition hrparen _ hnearest helse _ ihthen ih =>
    intro depth rest hdepth hrest
    simp only [List.length_append, List.length_cons] at hdepth
    refine statement_of_plain (by omega) fun below hbelow => ?_
    -- the first branch is closed, or the `else` would belong to an `if` in it
    have hthen := ihthen below (else_ :: ts₃ ++ rest) (by omega) fun hopened => by
      rw [hnearest rfl] at hopened
      cases hopened
    exact .dispatch (by rw [hkeyword]; decide) (by rw [hkeyword])
      (ifElseStatement_yields hlparen hcondition hrparen hthen helse
        (ih below rest (by omega) hrest))

/-- The declarations of a program are read up to the end of the text. -/
theorem program_yields {body : List Stmt} (h : (Clause.declarations body).Derives true n ts n')
    {eof : Token} (heof : eof.kind = .eof) {bound : Nat} (hbound : ts.length ≤ bound) :
    Yields (program bound) n ts [eof] body n' := by
  -- the induction is on the derivation of any clause; all but two are no declarations
  generalize hc : Clause.declarations body = c at h
  induction h generalizing body bound with
  | noDeclaration =>
    cases hc
    cases bound with
    | zero => exact .pure
    | succ bound =>
      refine .get_bind fun s hs => ?_
      rw [if_pos (by simp [ParserState.atEnd, ParserState.current, hs, heof])]
      exact .pure
  | @nextDeclaration s body ts₁ ts₂ n m n' h hrest _ ihrest =>
    cases hc
    have hbegins := h.declaration_begins
    obtain ⟨t, us, rfl, ht⟩ := hbegins
    simp only [List.length_append, List.length_cons] at hbound
    obtain ⟨bound, rfl⟩ : ∃ b, bound = b + 1 := ⟨bound - 1, by omega⟩
    -- an `else` behind the declaration would be taken into it, so it is ruled out
    have helse : Stops (· = .keyword .else_) (ts₂ ++ [eof]) := by
      rcases hrest.declarations_begins with rfl | hbegins
      · rintro u ⟨⟩
        simp [heof]
      · exact stops_of_begins hbegins (fun k hk => by rw [of_decide_eq_true hk]; decide) _
    refine .get_bind fun s hs => ?_
    have hend : ¬ s.atEnd := by
      simp only [ParserState.atEnd, ParserState.current, hs, List.append_assoc, List.cons_append,
        List.headD_cons, decide_eq_true_eq]
      intro h
      rw [h] at ht
      exact absurd ht (by decide)
    rw [if_neg hend]
    exact .bind (acceptedClause h _ _ (by simp [hs]) helse) (.bind_pure (ihrest (by omega) rfl))
  | _ => cases hc

end Parser

end Lox
