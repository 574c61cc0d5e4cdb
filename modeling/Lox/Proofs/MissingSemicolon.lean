import Lox.Proofs.ParseComplete
import Lox.Proofs.Segments

/-!
# Statements without their semicolon

A simple statement that is complete but for its semicolon is in error at the token behind it. That
token is skipped before a statement boundary is looked for, even if a statement starts with it. So
the next statement is lost: reading goes on behind it if it is a simple one, and somewhere inside
it if it is not.

## Key results

- `Parsed.ofTokens_unfinished`: what is read behind a statement without its semicolon
- `Parsed.ofTokens_unfinished_inner`: a simple statement behind it is lost, and nothing else
-/

namespace Lox

/-- A primary expression is an expression. -/
theorem Phrase.Derives.of_primary {e : Expr} {ts : List Token} {n n' : Nat}
    (h : (Phrase.primary e).Derives n ts n') : (Phrase.expression e).Derives n ts n' := by
  have hcall : (Phrase.call e).Derives n ts n' := by
    rw [← List.append_nil ts]
    exact .call h .lastPostfix
  -- a level without any operator is its operand
  have hlevel (l : Level) (h : (l.operand e).Derives n ts n') :
      (Phrase.level l e).Derives n ts n' := by
    rw [← List.append_nil ts]
    exact .level h .lastOperand
  have hterm := hlevel .term (hlevel .factor (.operand hcall))
  have hequality := hlevel .equality (hlevel .comparison hterm)
  exact .operation (hlevel .disjunction (hlevel .conjunction hequality))

namespace TokenKind

variable {kind : TokenKind}

/-- What starts a statement ends neither a statement nor the text. -/
theorem ne_of_startsStatement (h : kind.startsStatement) : kind ≠ .eof ∧ kind ≠ .semicolon := by
  constructor <;> rintro rfl <;> cases h

/-- No expression goes on with what starts a statement. -/
theorem looseness_of_startsStatement (h : kind.startsStatement) : Parser.looseness kind = 8 := by
  cases kind with
  | keyword k =>
    revert h
    cases k <;> decide
  | _ => cases h

end TokenKind

namespace ParserState

/-- A statement boundary is where it is, however many tokens stand before it. -/
theorem skipStatement_fst (previous : Token) (rest : List Token) (position : Nat) :
    (skipStatement previous rest position).1 = (skipStatement previous rest 0).1 := by
  induction rest generalizing previous position with
  | nil => rfl
  | cons t rest ih =>
    rw [skipStatement, skipStatement]
    split
    · rfl
    · rw [ih, ih t (0 + 1)]

/-- The next token is skipped in any case. -/
theorem recover_eq {s : ParserState} {next : Token} {rest : List Token}
    (hrest : s.rest = next :: rest) (hnext : next.kind ≠ .eof) : s.recover =
      ⟨(skipStatement next rest 0).1, (skipStatement next rest (s.position + 1)).2, s.nextId,
        s.errors⟩ := by
  have hcurrent : s.current = next := by rw [current, hrest]; rfl
  have hend : s.atEnd = false := by simp [atEnd, hcurrent, hnext]
  rw [recover, hend, hcurrent, hrest, ← skipStatement_fst next rest (s.position + 1)]
  rfl

end ParserState

namespace Parser

variable {α : Type} {ts rest : List Token} {next : Token} {what : Expectation}

/-- A simple statement without its semicolon, and what is missing from it. -/
inductive Unfinished : Expectation → List Token → Prop
  | expression {e : Expr} {ts : List Token} {n n' : Nat}
      (h : (Phrase.expression e).Derives n ts n') : Unfinished .expressionEnd ts
  | print {e : Expr} {keyword : Token} {ts : List Token} {n n' : Nat}
      (hkeyword : keyword.kind = .keyword .print) (h : (Phrase.expression e).Derives n ts n') :
      Unfinished .printEnd (keyword :: ts)
  | declared {keyword name : Token} (hkeyword : keyword.kind = .keyword .var)
      (hname : name.kind = .identifier) : Unfinished .variableEnd [keyword, name]
  | initialized {e : Expr} {keyword name equal : Token} {ts : List Token} {n n' : Nat}
      (hkeyword : keyword.kind = .keyword .var) (hname : name.kind = .identifier)
      (hequal : equal.kind = .equal) (h : (Phrase.expression e).Derives n ts n') :
      Unfinished .variableEnd (keyword :: name :: equal :: ts)

/-- A parser reads these tokens before the others, and fails at the next token. -/
def Breaks (p : Parser α) (n : Nat) (ts rest : List Token) (what : Expectation) : Prop :=
  ∃ n', ∀ position errors, p.run ⟨ts ++ rest, position, n, errors⟩ =
    .error (ParserState.errorHere (.expected what) ⟨rest, position + ts.length, n', errors⟩)
      ⟨rest, position + ts.length, n', errors⟩

variable {n n' : Nat} {nestedStatement : Parser Stmt} {nested : Parser (Option Stmt)}

/-- Where no semicolon follows a statement fails. -/
theorem Yields.breaks {front : Parser α} {a : α} (h : Yields front n ts (next :: rest) a n')
    (hnext : next.kind ≠ .semicolon) (what : Expectation) (make : α → Stmt) :
    Breaks (upToSemicolon front what make) n ts (next :: rest) what := by
  refine ⟨n', fun position errors => ?_⟩
  have hcurrent : ParserState.current ⟨next :: rest, position + ts.length, n', errors⟩ = next := rfl
  rw [upToSemicolon, EStateM.run_bind, h position errors]
  show EStateM.run (Parser.expect .semicolon what >>= fun _ => Pure.pure (make a)) _ = _
  rw [EStateM.run_bind, expect_run, hcurrent, decide_eq_false hnext, Bool.and_false]
  rfl

/-- What fails behind a keyword fails as a whole. -/
theorem Breaks.led {keyword : Token}
    (hkeyword : keyword.kind ∈ [.keyword .var, .keyword .print, .keyword .return_])
    (h : Breaks (behindKeyword keyword) n ts rest what) :
    Breaks (anyStatement nestedStatement nested) n (keyword :: ts) rest what := by
  obtain ⟨n', h⟩ := h
  refine ⟨n', fun position errors => ?_⟩
  -- none of the keywords ends the text, so the parser advances past it
  have hend : ParserState.atEnd ⟨keyword :: ts ++ rest, position, n, errors⟩ = false := by
    simp only [List.mem_cons, List.not_mem_nil, or_false] at hkeyword
    rcases hkeyword with hkind | hkind | hkind <;>
      simp [ParserState.atEnd, ParserState.current, hkind]
  have hadvance : ParserState.advance ⟨keyword :: ts ++ rest, position, n, errors⟩ =
      ⟨ts ++ rest, position + 1, n, errors⟩ := by
    rw [ParserState.advance, hend]
    rfl
  rw [anyStatement_run_led hkeyword rfl, hadvance, h, List.length_cons, Nat.add_assoc,
    Nat.add_comm 1]

/-- No statement but an expression starts like one. -/
private theorem not_starts_of_startsExpression {kind : TokenKind}
    (h : Phrase.startsExpression kind) : kind.startsStatement = false ∧ kind ≠ .leftBrace := by
  refine ⟨?_, by rintro rfl; cases h⟩
  cases kind with
  | keyword k =>
    revert h
    cases k <;> decide
  | _ => rfl

/-- What fails as an expression fails as a statement if it starts like an expression. -/
theorem Breaks.bare (hts : Phrase.Begins Phrase.startsExpression ts)
    (h : Breaks expressionStatement n ts rest what) :
    Breaks (anyStatement nestedStatement nested) n ts rest what := by
  obtain ⟨n', h⟩ := h
  obtain ⟨first, us, rfl, hfirst⟩ := hts
  obtain ⟨hkeyword, hbrace⟩ := not_starts_of_startsExpression hfirst
  refine ⟨n', fun position errors => ?_⟩
  have hrun : (anyStatement nestedStatement nested).run
      ⟨first :: us ++ rest, position, n, errors⟩ = expressionStatement.run _ :=
    anyStatement_run_bare hkeyword hbrace
  rw [hrun, h]

/-- In front of a keyword that starts a statement an unfinished one fails. -/
theorem Unfinished.breaks (h : Unfinished what ts) (hnext : next.kind.startsStatement) (n : Nat) :
    Breaks (anyStatement nestedStatement nested) n ts (next :: rest) what := by
  have hends : Ends 7 (next :: rest) :=
    .cons (by simp [TokenKind.looseness_of_startsStatement hnext])
  have hsemicolon := (TokenKind.ne_of_startsStatement hnext).2
  -- both forms of a declaration fail where the semicolon should stand
  have hvariable {keyword : Token} {us : List Token} {a : Token × Option Expr} {n' : Nat}
      (hkeyword : keyword.kind = .keyword .var)
      (h : Yields variableClause n us (next :: rest) a n') :
      Breaks (anyStatement nestedStatement nested) n (keyword :: us) (next :: rest)
        .variableEnd := by
    refine .led (by simp [hkeyword]) ?_
    rw [behindKeyword, hkeyword]
    show Breaks varDeclaration _ _ _ _
    rw [varDeclaration_eq_upToSemicolon]
    exact h.breaks hsemicolon _ _
  cases h with
  | expression h =>
    refine .bare h.expression_begins ?_
    exact (fullExpression_yields (h.renumber n) hends).breaks hsemicolon _ _
  | print hkeyword h =>
    refine .led (by simp [hkeyword]) ?_
    rw [behindKeyword, hkeyword]
    exact (fullExpression_yields (h.renumber n) hends).breaks hsemicolon _ _
  | @declared keyword name hkeyword hname =>
    have hequal : Stops (· = .equal) (next :: rest) :=
      hends.stops fun kind hkind => by simp [of_decide_eq_true hkind, looseness]
    have hnone : Yields initializerClause n [] (next :: rest) none n :=
      .bind_nil (.accept_false hequal) .pure
    exact hvariable hkeyword (.bind_cons (.expect hname (by decide)) (.bind_pure hnone))
  | initialized hkeyword hname hequal h =>
    have hvalue := fullExpression_yields (h.renumber n) hends
    have hsome : Yields initializerClause n _ (next :: rest) (some _) _ :=
      .bind_cons (.accept_true hequal (by decide)) (.map hvalue)
    exact hvariable hkeyword (.bind_cons (.expect hname (by decide)) (.bind_pure hsome))

/-- The declaration is dropped, and reading goes on at a boundary behind the next token. -/
theorem Unfinished.declaration_run (h : Unfinished what ts) (hnext : next.kind.startsStatement)
    (depth n : Nat) : ∃ n', ∀ position errors,
      (declaration (depth + 1)).run ⟨ts ++ next :: rest, position, n, errors⟩ =
        .ok none ⟨(ParserState.skipStatement next rest 0).1,
          (ParserState.skipStatement next rest (position + ts.length + 1)).2, n',
          errors.push ⟨.expected what, next, position + ts.length⟩⟩ := by
  obtain ⟨n', hbreaks⟩ := h.breaks hnext n
  refine ⟨n', fun position errors => ?_⟩
  rw [declaration, recovering_run, hbreaks]
  exact congrArg _ (ParserState.recover_eq rfl (TokenKind.ne_of_startsStatement hnext).1)

/-- A statement starts with a token of its own. -/
theorem Unfinished.exists_cons (h : Unfinished what ts) :
    ∃ first us, ts = first :: us ∧ first.kind ≠ .eof := by
  cases h with
  | expression h =>
    obtain ⟨first, us, rfl, hfirst⟩ := h.expression_begins
    refine ⟨first, us, rfl, fun hkind => ?_⟩
    rw [hkind] at hfirst
    cases hfirst
  | print hkeyword | declared hkeyword | initialized hkeyword =>
    exact ⟨_, _, rfl, by simp [hkeyword]⟩

/-- An unfinished statement contributes an error, and what stands behind it what is left of it
    behind the next boundary. -/
theorem Unfinished.contributes {stmts : List Stmt} {reports : List (SyntaxFault × Token)}
    (h : Unfinished what ts) (hnext : next.kind.startsStatement)
    (hrest : Contributes (ParserState.skipStatement next rest 0).1 stmts reports) :
    Contributes (ts ++ next :: rest) stmts ((.expected what, next) :: reports) := by
  intro bound position nextId errors hbound
  rw [List.length_append, List.length_cons] at hbound
  obtain ⟨bound, rfl⟩ : ∃ b, bound = b + 1 := ⟨bound - 1, by omega⟩
  have hend : ParserState.atEnd ⟨ts ++ next :: rest, position, nextId, errors⟩ = false := by
    obtain ⟨first, us, rfl, hfirst⟩ := h.exists_cons
    simp [ParserState.atEnd, ParserState.current, hfirst]
  have hlength : (ts ++ next :: rest).length = ts.length + rest.length + 1 := by
    rw [List.length_append, List.length_cons, Nat.add_assoc]
  obtain ⟨nextId', hdeclaration⟩ := h.declaration_run hnext (ts.length + rest.length) nextId
  have hfirst := hdeclaration position errors
  rw [← hlength] at hfirst
  have hskipped : (ParserState.skipStatement next rest 0).1.length ≤ bound := by
    obtain ⟨us, hus, -⟩ := ParserState.skipStatement_consumed next rest 0
    have hconsumed := congrArg List.length hus
    rw [List.length_append] at hconsumed
    omega
  -- the first round of the loop is the declaration that fails, the others read what is left
  obtain ⟨body, t, hrun, hbody, hreports⟩ := hrest bound _ nextId'
    (errors.push ⟨.expected what, next, position + ts.length⟩) hskipped
  refine ⟨body, t, program_run_cons hend hfirst hrun, hbody, ?_⟩
  rw [hreports, Array.toList_push, List.map_append, List.append_assoc]
  rfl

end Parser

namespace Parsed

variable {what : Expectation} {ts rest : List Token} {next : Token}

/-- In front of a statement that starts with a keyword, a simple statement without its semicolon is
    one error, at that keyword. What stands behind the keyword is read from the next statement
    boundary on, as if it stood alone. -/
theorem ofTokens_unfinished (h : Parser.Unfinished what ts) (hnext : next.kind.startsStatement)
    (hended : ∃ t ∈ rest, t.kind = .eof) (n m : Nat) :
    (ofTokens (ts ++ next :: rest) n).anonymous =
        (ofTokens (ParserState.skipStatement next rest 0).1 m).anonymous ∧
      (ofTokens (ts ++ next :: rest) n).reports = (.expected what, next) ::
        (ofTokens (ParserState.skipStatement next rest 0).1 m).reports := by
  have hleft : ∃ t ∈ (ParserState.skipStatement next rest 0).1, t.kind = .eof := by
    obtain ⟨us, hus, -, hkinds⟩ := ParserState.skipStatement_consumed next rest 0
    exact ParserState.ended_of_consumed hended hus hkinds
  exact (h.contributes hnext (Parser.contributes_ofTokens hleft m)).ofTokens n

/-- The tokens of `print a`. -/
private def printA : List Token :=
  [⟨.keyword .print, "print", 1⟩, .name "a" 1]

/-- The statement lacks its semicolon. -/
private theorem unfinished_printA : Parser.Unfinished .printEnd printA :=
  .print rfl (.of_primary (.var (n := 0) rfl))

/-- The tokens of `f() {} print a;`, with which a function goes on. -/
private def functionBody : List Token :=
  [.name "f" 1, ⟨.leftParen, "(", 1⟩, ⟨.rightParen, ")", 1⟩, ⟨.leftBrace, "\x7b", 1⟩,
    ⟨.rightBrace, "\x7d", 1⟩] ++ printA ++ [⟨.semicolon, ";", 1⟩, .eof 1]

/-- A function behind a missing semicolon is not declared, and what stands behind it is read. -/
theorem ofTokens_unfinished_function :
    Parser.Unfinished .printEnd printA ∧ (TokenKind.keyword .fun_).startsStatement ∧
    (∃ t ∈ functionBody, t.kind = .eof) ∧
    (ofTokens (printA ++ ⟨.keyword .fun_, "fun", 1⟩ :: functionBody) 0).anonymous =
        [.print (.var ⟨0⟩ (.name "a" 1))] ∧
      (ofTokens (printA ++ ⟨.keyword .fun_, "fun", 1⟩ :: functionBody) 0).reports =
        [(.expected .printEnd, ⟨.keyword .fun_, "fun", 1⟩)] := by
  have hended : ∃ t ∈ functionBody, t.kind = .eof := by decide
  exact ⟨unfinished_printA, rfl, hended, ofTokens_unfinished unfinished_printA rfl hended 0 0⟩

/-- The tokens of `a;`. -/
private def printedBody : List Token :=
  [.name "a" 1, ⟨.semicolon, ";", 1⟩]

/-- The statement that stands behind a missing semicolon is not read as if it stood alone. -/
theorem unfinished_print_swallows :
    ¬ ∀ (what : Expectation) (ts us : List Token) (next eof : Token),
      Parser.Unfinished what ts → next.kind.startsStatement → (∀ t ∈ us, t.kind ≠ .eof) →
      eof.kind = .eof →
      (ofTokens (ts ++ next :: us ++ [eof]) 0).anonymous =
          (ofTokens (next :: us ++ [eof]) 0).anonymous ∧
        (ofTokens (ts ++ next :: us ++ [eof]) 0).reports =
          (.expected what, next) :: (ofTokens (next :: us ++ [eof]) 0).reports := by
  intro h
  have hkinds : ∀ t ∈ printedBody, t.kind ≠ .eof := by decide
  obtain ⟨hstatements, -⟩ := h .printEnd printA printedBody ⟨.keyword .print, "print", 1⟩ (.eof 1)
    unfinished_printA rfl hkinds rfl
  -- the second statement is skipped together with the first one
  have hlost : (ofTokens (printA ++ ⟨.keyword .print, "print", 1⟩ :: printedBody ++ [.eof 1])
      0).anonymous = [] := by rfl
  rw [hlost] at hstatements
  cases hstatements

/-- If the statement behind a missing semicolon is a simple one then exactly that one is lost. -/
theorem ofTokens_unfinished_inner {body : List Token} {semicolon : Token}
    (h : Parser.Unfinished what ts) (hnext : next.kind.startsStatement)
    (hbody : ∀ t ∈ body, t.kind.isInner) (hsemicolon : semicolon.kind = .semicolon)
    (hended : ∃ t ∈ rest, t.kind = .eof) (n m : Nat) :
    (ofTokens (ts ++ next :: (body ++ semicolon :: rest)) n).anonymous =
        (ofTokens rest m).anonymous ∧
      (ofTokens (ts ++ next :: (body ++ semicolon :: rest)) n).reports =
        (.expected what, next) :: (ofTokens rest m).reports := by
  -- the parser goes on behind the semicolon of the statement that it has run into
  have hskip : (ParserState.skipStatement next (body ++ semicolon :: rest) 0).1 = rest := by
    rw [ParserState.skipStatement_inner hbody hsemicolon (TokenKind.ne_of_startsStatement hnext).2]
  have hrest := Parser.contributes_ofTokens hended m
  rw [← hskip] at hrest
  have hread := (h.contributes hnext hrest).ofTokens n
  rwa [hskip] at hread

end Parsed

end Lox
