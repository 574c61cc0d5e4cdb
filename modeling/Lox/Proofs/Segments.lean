import Lox.Proofs.SeamRuns

/-!
# Text that is read in segments

A declaration that is complete, and a simple statement up to its semicolon whether it can be read or
not, are read by themselves: what stands behind them plays no part, and what is wrong in them does
not reach further. In a simple statement that cannot be read no semicolon has been consumed, and no
token in it starts a statement, so reading goes on right behind the semicolon. A text that begins
with such segments yields what they and the rest of the text yield.

## Key results

- `Parser.Simple.abut`, `Parser.Complete.abut`: segments of a text
- `Parsed.ofTokens_segments`: texts that begin with segments
-/

namespace Lox

/-- A statement in which all identities are the same. -/
def Stmt.anonymous (stmt : Stmt) : Stmt :=
  stmt.relabel (.ofId fun _ => 0)

/-- Relabelling identities does not matter if they are all the same anyway. -/
theorem Stmt.anonymous_relabel (stmt : Stmt) (id : Nat → Nat) :
    (stmt.relabel (.ofId id)).anonymous = stmt.anonymous :=
  stmt.relabel_relabel _ _

/-- What is reported of an error, which does not depend on how many tokens stand before it. -/
def SyntaxError.reported (e : SyntaxError) : SyntaxFault × Token :=
  (e.fault, e.token)

namespace Parsed

/-- The statements, in which all identities are the same. -/
def anonymous (p : Parsed) : List Stmt :=
  p.statements.map Stmt.anonymous

/-- What is reported of the errors. -/
def reports (p : Parsed) : List (SyntaxFault × Token) :=
  p.errors.map SyntaxError.reported

end Parsed

namespace TokenKind

/-- Inside a simple statement: no token ends a statement or starts one. -/
def isInner (kind : TokenKind) : Bool :=
  kind ≠ .eof && kind ≠ .semicolon && !kind.startsStatement

/-- An inner token is neither the end nor a semicolon, and starts no statement. -/
theorem isInner_iff {kind : TokenKind} :
    kind.isInner ↔ kind ≠ .eof ∧ kind ≠ .semicolon ∧ kind.startsStatement = false := by
  simp [isInner, and_assoc]

end TokenKind

namespace ParserState

variable {ts rest : List Token} {semicolon : Token}

/-- Right behind a semicolon is a statement boundary. -/
theorem skipStatement_semicolon (hsemicolon : semicolon.kind = .semicolon) (position : Nat) :
    skipStatement semicolon rest position = (rest, position) := by
  cases rest with
  | nil => rfl
  | cons t rest => simp [skipStatement, hsemicolon]

/-- Tokens inside a statement are skipped up to its semicolon. -/
theorem skipStatement_inner (hts : ∀ t ∈ ts, t.kind.isInner)
    (hsemicolon : semicolon.kind = .semicolon) {previous : Token}
    (hprevious : previous.kind ≠ .semicolon) (position : Nat) :
    skipStatement previous (ts ++ semicolon :: rest) position =
      (rest, position + ts.length + 1) := by
  induction ts generalizing previous position with
  | nil =>
    simp [skipStatement, hsemicolon, hprevious, TokenKind.startsStatement,
      skipStatement_semicolon hsemicolon]
  | cons t ts ih =>
    obtain ⟨ht, hts⟩ := List.forall_mem_cons.mp hts
    -- an inner token is no boundary, whether it is skipped or looked at
    obtain ⟨hend, hkind, hstarts⟩ := TokenKind.isInner_iff.mp ht
    have hgo := ih hts hkind (position + 1)
    simp only [List.cons_append, skipStatement, hend, hprevious, hstarts, decide_false,
      Bool.or_self, Bool.false_eq_true, if_false, hgo, List.length_cons]
    simp only [Nat.add_assoc, Nat.add_comm 1]

/-- After an error inside a simple statement reading goes on behind its semicolon. -/
theorem recover_inner {s : ParserState} (hrest : s.rest = ts ++ semicolon :: rest)
    (hts : ∀ t ∈ ts, t.kind.isInner) (hsemicolon : semicolon.kind = .semicolon) :
    s.recover.rest = rest ∧ s.recover.position = s.position + ts.length + 1 := by
  unfold recover
  -- the first token is skipped without being looked at, so it is treated apart
  cases ts with
  | nil =>
    have hcurrent : s.current = semicolon := by rw [current, hrest]; rfl
    have hend : s.atEnd = false := by simp [atEnd, hcurrent, hsemicolon]
    rw [hend, hcurrent, hrest]
    simp [skipStatement_semicolon hsemicolon]
  | cons t ts =>
    have hcurrent : s.current = t := by rw [current, hrest]; rfl
    obtain ⟨ht, hts⟩ := List.forall_mem_cons.mp hts
    obtain ⟨hkind, hinside, -⟩ := TokenKind.isInner_iff.mp ht
    have hend : s.atEnd = false := by simp [atEnd, hcurrent, hkind]
    rw [hend, hcurrent, hrest]
    simp [skipStatement_inner hts hsemicolon hinside, Nat.add_assoc, Nat.add_comm 1]

end ParserState

namespace Parser

variable {α : Type} {ts body rest : List Token} {eof semicolon : Token}

/-! ## Segments -/

/-- A simple statement up to its semicolon, well-formed or not: with a keyword in front of it, or an
    expression, which does not begin like a block. -/
inductive Simple : List Token → Prop
  | led {keyword semicolon : Token} {body : List Token}
      (hkeyword : keyword.kind ∈ [.keyword .var, .keyword .print, .keyword .return_])
      (hbody : ∀ t ∈ body, t.kind.isInner) (hsemicolon : semicolon.kind = .semicolon) :
      Simple (keyword :: (body ++ [semicolon]))
  | bare {semicolon : Token} {body : List Token} (hfirst : ∀ t ∈ body.head?, t.kind ≠ .leftBrace)
      (hbody : ∀ t ∈ body, t.kind.isInner) (hsemicolon : semicolon.kind = .semicolon) :
      Simple (body ++ [semicolon])

/-- A text that is read as one declaration if nothing follows it, with no error that ends a
    statement. -/
def Complete (eof : Token) (ts : List Token) : Prop :=
  ∃ stmt s, (declaration (ts ++ [eof]).length).run ⟨ts ++ [eof], 0, 0, #[]⟩ = .ok (some stmt) s ∧
    s.rest = [eof] ∧ ∀ e ∈ s.errors.toList, e.fault.isStructural = false

/-- A text that is read as one declaration wherever it stands. -/
structure SelfContained (eof : Token) (ts : List Token) : Prop where
  reads : Complete eof ts ∨ Simple ts
  noElse : ∀ t ∈ ts.head?, t.kind ≠ .keyword .else_

/-! ## Reading a segment -/

/-- Two declarations are read side by side, the first up to the seam. -/
def Abut (σ : Seam) (p p' : Parser (Option Stmt)) (s s' : ParserState) : Prop :=
  ∃ o t t', p.run s = .ok o t ∧ t.rest = σ.behind ∧
    p'.run s' = .ok (o.map (Stmt.relabel σ.shift)) t' ∧ σ.Abreast t t'

/-- A statement up to its semicolon, made of what stands in front of it. -/
def upToSemicolon (front : Parser α) (what : Expectation) (make : α → Stmt) : Parser Stmt := do
  let a ← front
  let _ ← expect .semicolon what
  return make a

/-- Up to the seam there stands what is left of a simple statement, with its semicolon. -/
def InStatement (σ : Seam) (s : ParserState) : Prop :=
  ∃ body semicolon, s.rest = body ++ semicolon :: σ.behind ∧ (∀ t ∈ body, t.kind.isInner) ∧
    semicolon.kind = .semicolon

variable {σ : Seam} {s s' t t' : ParserState}

namespace InStatement

/-- Inside a statement the seam is still ahead. -/
theorem before (hs : InStatement σ s) : σ.behind.length < s.rest.length := by
  obtain ⟨body, semicolon, hrest, -⟩ := hs
  rw [hrest, List.length_append, List.length_cons]
  omega

/-- Who consumes no semicolon stays in the statement. -/
theorem consumed (hs : InStatement σ s) {us : List Token} (hconsumed : s.rest = us ++ t.rest)
    (hus : ∀ t ∈ us, t.kind ≠ .semicolon) : InStatement σ t := by
  obtain ⟨body, semicolon, hrest, hbody, hsemicolon⟩ := hs
  rcases List.append_eq_append_iff.mp (hrest.symm.trans hconsumed) with
    ⟨as, hus', ht⟩ | ⟨as, hbody', ht⟩
  · -- more than the body cannot have been consumed, as the semicolon would have been too
    cases as with
    | nil => exact ⟨[], semicolon, ht.symm, by simp, hsemicolon⟩
    | cons a as =>
      obtain ⟨rfl, -⟩ := List.cons.inj ht
      exact absurd hsemicolon (hus _ (by simp [hus']))
  · exact ⟨as, semicolon, ht, fun t ht => hbody t (by simp [hbody', ht]), hsemicolon⟩

/-- After an error in a statement both go on right behind its semicolon. -/
theorem recover (hs : InStatement σ t) (h : σ.Abreast t t') (e : SyntaxError) :
    (t.report e).recover.rest = σ.behind ∧
      σ.Abreast (t.report e).recover (t'.report (e.later σ.tokens)).recover := by
  obtain ⟨body, semicolon, hrest, hbody, hsemicolon⟩ := hs
  obtain ⟨us, hus, hus'⟩ := h.rest
  -- what both have left up to the seam is the rest of the statement
  have hsame : us = body ++ [semicolon] := by
    have hbehind : us ++ σ.behind = (body ++ [semicolon]) ++ σ.behind := by
      rw [← hus, hrest, List.append_assoc]
      rfl
    exact List.append_cancel_right hbehind
  have hrest' : t'.rest = body ++ semicolon :: σ.behind' := by
    rw [hus', hsame, List.append_assoc]
    rfl
  have hreport := h.report e
  -- all of it is inner but the semicolon, so both stop there
  obtain ⟨hbehind, hposition⟩ :=
    ParserState.recover_inner (s := t.report e) hrest hbody hsemicolon
  obtain ⟨hbehind', hposition'⟩ :=
    ParserState.recover_inner (s := t'.report (e.later σ.tokens)) hrest' hbody hsemicolon
  refine ⟨hbehind, ⟨[], hbehind, hbehind'⟩, ?_, ?_, ?_⟩
  · rw [hposition, hposition', hreport.position]
    omega
  · simpa using hreport.nextId
  · simpa using hreport.errors

/-- Where a statement fails in both texts it is skipped in both. -/
theorem abut_of_error {p p' : Parser Stmt} {e : SyntaxError} (ht : InStatement σ t)
    (h : σ.Abreast t t') (hrun : p.run s = .error e t)
    (hrun' : p'.run s' = .error (e.later σ.tokens) t') :
    Abut σ (recovering p) (recovering p') s s' := by
  obtain ⟨hbehind, hrecovered⟩ := ht.recover h e
  unfold Abut
  rw [recovering_run, recovering_run, hrun, hrun']
  exact ⟨none, _, _, rfl, hbehind, rfl, hrecovered⟩

/-- Where a semicolon is expected it is consumed, or what is left in front of it is skipped. -/
theorem abut_expect (ht : InStatement σ t) (h : σ.Abreast t t') (what : Expectation)
    (stmt : Stmt) :
    Abut σ (recovering (expect .semicolon what >>= fun _ => pure stmt))
      (recovering (expect .semicolon what >>= fun _ => pure (stmt.relabel σ.shift))) t t' := by
  have hend' := h.atEnd ht.before
  have hcurrent' := h.current ht.before
  have hat := ht
  obtain ⟨body, semicolon, hrest, hbody, hsemicolon⟩ := hat
  -- either the semicolon is next, or an inner token is in front of it
  cases body with
  | nil =>
    have hkind : t.current.kind = .semicolon := by
      rw [ParserState.current, hrest]
      exact hsemicolon
    have hend : t.atEnd = false := by simp [ParserState.atEnd, hkind]
    unfold Abut
    rw [recovering_run, recovering_run, EStateM.run_bind, EStateM.run_bind, expect_run, expect_run,
      hend', hcurrent', hend, hkind]
    refine ⟨some stmt, t.advance, t'.advance, rfl, ?_, rfl, h.advance ht.before⟩
    simp [ParserState.advance, hend, hrest]
  | cons first body =>
    have hkind : t.current.kind ≠ .semicolon := by
      rw [ParserState.current, hrest]
      exact (TokenKind.isInner_iff.mp (hbody first List.mem_cons_self)).2.1
    refine ht.abut_of_error h ?_ ?_ (e := t.errorHere (.expected what))
    · rw [EStateM.run_bind, expect_run, decide_eq_false hkind, Bool.and_false]
      rfl
    · rw [EStateM.run_bind, expect_run, hcurrent', decide_eq_false hkind, Bool.and_false,
        ← h.errorHere ht.before]
      rfl

end InStatement

/-- Catching errors only looks at what happens. -/
private theorem recovering_congr {p p' : Parser Stmt} {t : ParserState} (h : p.run s = p'.run t) :
    (recovering p).run s = (recovering p').run t := by
  rw [recovering_run, recovering_run, h]

/-- Parsers that run like others abut where those do. -/
theorem Abut.congr {p p' q q' : Parser Stmt} (h : Abut σ (recovering q) (recovering q') t t')
    (hrun : p.run s = q.run t) (hrun' : p'.run s' = q'.run t') :
    Abut σ (recovering p) (recovering p') s s' := by
  unfold Abut at h ⊢
  rwa [recovering_congr hrun, recovering_congr hrun']

/-- What stands in front of a semicolon stays there, so the statement ends behind it whether it can
    be read or not. -/
theorem Along.upToSemicolon {front : Parser α} {g : α → α} {make : α → Stmt} {least : Nat}
    (hfront : Along σ False g front front s) (hmake : ∀ a, make (g a) = (make a).relabel σ.shift)
    (hproceeds : Proceeds (· ≠ .semicolon) least front s) (hs : InStatement σ s)
    (h : σ.Abreast s s') (what : Expectation) :
    Abut σ (recovering (upToSemicolon front what make))
      (recovering (upToSemicolon front what make)) s s' := by
  unfold Proceeds at hproceeds
  -- the front never takes the semicolon, so where it ends is still in the statement
  cases hrun : front.run s with
  | error e t =>
    rw [hrun] at hproceeds
    obtain ⟨us, hconsumed, -, -, hus⟩ := hproceeds.1.consumed
    have ht : InStatement σ t := hs.consumed hconsumed fun t ht => (hus t ht).2
    obtain ⟨t', hrun', habreast⟩ := hfront.run_error hrun ht.before h
    refine ht.abut_of_error habreast ?_ ?_ (e := e)
    · rw [Parser.upToSemicolon, EStateM.run_bind, hrun]
    · rw [Parser.upToSemicolon, EStateM.run_bind, hrun']
  | ok a t =>
    rw [hrun] at hproceeds
    obtain ⟨us, hconsumed, -, -, hus⟩ := hproceeds.consumed
    have ht : InStatement σ t := hs.consumed hconsumed fun t ht => (hus t ht).2
    obtain ⟨t', hrun', habreast⟩ := hfront.run_ok hrun (.of_before ht.before) h
    refine (ht.abut_expect habreast what (make a)).congr ?_ ?_
    · rw [Parser.upToSemicolon, EStateM.run_bind, hrun]
    · rw [Parser.upToSemicolon, EStateM.run_bind, hrun', ← hmake]

/-- A variable and its initializer, in front of the semicolon of its declaration. -/
def variableClause : Parser (Token × Option Expr) := do
  let name ← expect .identifier .variableName
  return (name, ← initializerClause)

/-- A variable declaration is a clause up to its semicolon. -/
theorem varDeclaration_eq_upToSemicolon :
    varDeclaration = upToSemicolon variableClause .variableEnd fun a => .varDecl a.1 a.2 := by
  rw [varDeclaration_eq, upToSemicolon, variableClause]
  simp only [bind_assoc, pure_bind]

/-- The clause of a variable declaration agrees as far as the seam. -/
theorem variableClause_along (s : ParserState) :
    Along σ False (Prod.map (Token.relabel σ.shift) (Option.map (Expr.relabel σ.shift)))
      variableClause variableClause s :=
  .expect_bind fun name t _ => (initializerClause_along t).bind fun initializer _ _ =>
    .pure (name, initializer)

/-- The clause of a variable declaration does not get past a semicolon. -/
theorem variableClause_proceeds (s : ParserState) :
    Proceeds (· ≠ .semicolon) 1 variableClause s := by
  have hinitializer (t : ParserState) : Proceeds (· ≠ .semicolon) 0 initializerClause t := by
    refine .bind (.accept (by decide)) fun b u => ?_
    cases b with
    | true => exact (fullExpression_proceeds (fun _ h => h) u).map.any
    | false => exact .pure none
  exact .bind (.expect (by decide) _) fun name t =>
    .bind (hinitializer t) fun initializer _ => .pure _

/-! ### Simple statements -/

/-- What stands behind the keyword of a simple statement. -/
def behindKeyword (keyword : Token) : Parser Stmt :=
  match keyword.kind with
  | .keyword .var => varDeclaration
  | .keyword .print => printStatement
  | _ => returnStatement keyword

/-- What is done after looking at a kind is done for the kind of the current token. -/
private theorem peekKind_run (f : TokenKind → Parser α) (s : ParserState) :
    (peekKind >>= f).run s = (f s.current.kind).run s :=
  rfl

section Simple

variable {nestedStatement : Parser Stmt} {nested : Parser (Option Stmt)}

/-- A simple statement with a keyword in front of it. -/
theorem anyStatement_run_led {keyword : Token}
    (hkeyword : keyword.kind ∈ [.keyword .var, .keyword .print, .keyword .return_])
    (hcurrent : s.current = keyword) :
    (anyStatement nestedStatement nested).run s = (behindKeyword keyword).run s.advance := by
  simp only [List.mem_cons, List.not_mem_nil, or_false] at hkeyword
  rw [anyStatement, peekKind_run, hcurrent, behindKeyword]
  -- the parser chooses by the keyword, first among declarations and then among statements
  rcases hkeyword with hkind | hkind | hkind
  · rw [hkind]
    rfl
  · rw [hkind]
    show (plainStatement nestedStatement nested).run s = _
    rw [plainStatement, peekKind_run, hcurrent, hkind]
    rfl
  · rw [hkind]
    show (plainStatement nestedStatement nested).run s = _
    rw [plainStatement, peekKind_run, hcurrent, hkind, ← hcurrent]
    rfl

/-- A statement that starts with no keyword and no brace is an expression. -/
theorem anyStatement_run_bare (hkind : s.current.kind.startsStatement = false)
    (hbrace : s.current.kind ≠ .leftBrace) :
    (anyStatement nestedStatement nested).run s = expressionStatement.run s := by
  rw [anyStatement, peekKind_run]
  split <;> rename_i h
  case h_4 =>
    rw [plainStatement, peekKind_run]
    split <;> rename_i h
    case h_5 => exact absurd h hbrace
    case h_7 => rfl
    -- all other cases have a keyword at the start
    all_goals simp [h, TokenKind.startsStatement] at hkind
  all_goals simp [h, TokenKind.startsStatement] at hkind

end Simple

/-- A statement behind its keyword abuts. -/
private theorem behindKeyword_abut {keyword : Token} (hs : InStatement σ s)
    (h : σ.Abreast s s') :
    Abut σ (recovering (behindKeyword keyword)) (recovering (behindKeyword keyword)) s s' := by
  unfold behindKeyword
  split
  · rw [varDeclaration_eq_upToSemicolon]
    exact (variableClause_along s).upToSemicolon (fun _ => rfl) (variableClause_proceeds s) hs h _
  · exact (fullExpression_along s).upToSemicolon (fun _ => rfl)
      (fullExpression_proceeds (fun _ hne => hne) s) hs h _
  · exact (expressionUnless_along _ s).upToSemicolon (fun _ => rfl)
      (expressionUnless_proceeds (fun _ hne => hne) _ s) hs h _

/-- A simple statement is read up to its semicolon, whether it can be read or not. -/
theorem Simple.abut (hts : Simple ts) (hrest : s.rest = ts ++ σ.behind) (h : σ.Abreast s s')
    (depth depth' : Nat) : Abut σ (declaration (depth + 1)) (declaration (depth' + 1)) s s' := by
  rw [declaration, declaration]
  cases hts with
  | @led keyword semicolon body hkeyword hbody hsemicolon =>
    have hlt : σ.behind.length < s.rest.length := by
      rw [hrest, List.length_append, List.length_cons]
      omega
    have hcurrent : s.current = keyword := by rw [ParserState.current, hrest]; rfl
    have hend : s.atEnd = false := by
      rw [ParserState.atEnd, hcurrent]
      simp only [List.mem_cons, List.not_mem_nil, or_false] at hkeyword
      rcases hkeyword with hkind | hkind | hkind <;> simp [hkind]
    have hbehind : s.advance.rest = body ++ semicolon :: σ.behind := by
      simp [ParserState.advance, hend, hrest]
    have hcurrent' : s'.current = keyword := (h.current hlt).trans hcurrent
    have hs : InStatement σ s.advance := ⟨body, semicolon, hbehind, hbody, hsemicolon⟩
    have habut := @behindKeyword_abut _ _ _ keyword hs (h.advance hlt)
    exact habut.congr (anyStatement_run_led hkeyword hcurrent)
      (anyStatement_run_led hkeyword hcurrent')
  | @bare semicolon body hfirst hbody hsemicolon =>
    have hrest : s.rest = body ++ semicolon :: σ.behind := by simpa using hrest
    have hs : InStatement σ s := ⟨body, semicolon, hrest, hbody, hsemicolon⟩
    have hkind : s.current.kind.startsStatement = false ∧ s.current.kind ≠ .leftBrace := by
      rw [ParserState.current, hrest]
      cases body with
      | nil => simp [hsemicolon, TokenKind.startsStatement]
      | cons t body =>
        exact ⟨(TokenKind.isInner_iff.mp (hbody t List.mem_cons_self)).2.2, hfirst t rfl⟩
    -- the other text starts with the same token
    have hkind' := hkind
    rw [← h.current hs.before] at hkind'
    have habut : Abut σ (recovering expressionStatement) (recovering expressionStatement) s s' :=
      (fullExpression_along s).upToSemicolon (fun _ => rfl)
        (fullExpression_proceeds (fun _ hne => hne) s) hs h _
    exact habut.congr (anyStatement_run_bare hkind.1 hkind.2)
      (anyStatement_run_bare hkind'.1 hkind'.2)

/-! ### Complete declarations -/

/-- At the end there is nothing to be read. -/
theorem declaration_run_atEnd (hend : s.atEnd) (depth : Nat) (stmt : Stmt) (t : ParserState) :
    (declaration depth).run s ≠ .ok (some stmt) t := by
  cases depth with
  | zero => exact fun hrun => by cases hrun
  | succ depth =>
    -- a statement that is read has taken a token, of which there is none
    have hproceeds := anyStatement_proceeds (fun _ => trivial)
      (statement_proceeds (fun _ => trivial) depth)
      (declaration_proceeds_any (fun _ => trivial) depth) s
    rw [declaration, recovering_run]
    cases hrun : (anyStatement (statement depth) (declaration depth)).run s with
    | ok stmt t => exact absurd hrun (hproceeds.not_ok_of_atEnd hend stmt t)
    | error e t => exact fun hrun => by cases hrun

/-- The seam between a segment and what stands behind it. -/
def seamBehind (eof : Token) (rest : List Token) (position nextId : Nat)
    (errors : Array SyntaxError) : Seam :=
  ⟨[eof], rest, position, nextId, [], errors.toList⟩

variable {eof : Token} {position nextId depth : Nat} {errors : Array SyntaxError}

/-- Both start at the first token of the segment. -/
private theorem seamBehind_abreast (eof : Token) (ts rest : List Token) (position nextId : Nat)
    (errors : Array SyntaxError) : (seamBehind eof rest position nextId errors).Abreast
      ⟨ts ++ [eof], 0, 0, #[]⟩ ⟨ts ++ rest, position, nextId, errors⟩ :=
  ⟨⟨ts, rfl, rfl⟩, by simp [seamBehind], by simp [seamBehind], [], by simp [seamBehind],
    by simp [seamBehind]⟩

/-- When the first has come to the end of the segment, so has the second. -/
private theorem eq_of_seamBehind (hrest : s.rest = [eof])
    (h : (seamBehind eof rest position nextId errors).Abreast s s') :
    s' = ⟨rest, s.position + position, s.nextId + nextId,
      errors ++ (s.errors.toList.map (·.later position)).toArray⟩ := by
  obtain ⟨⟨us, hus, hus'⟩, hposition, hnextId, es, herrors, herrors'⟩ := h
  -- with one token left on the first side, none is left in front of the seam
  have hnil : us = [] := by simpa [hrest, seamBehind] using hus
  obtain ⟨rest', position', nextId', errors'⟩ := s'
  simp only [seamBehind, hnil, List.nil_append] at hus' hposition hnextId herrors herrors'
  subst hus' hposition hnextId
  congr 1
  apply Array.toList_inj.mp
  simp [herrors, herrors']

/-- A complete declaration may end at the seam. -/
theorem Complete.abut (heof : eof.kind = .eof) (h : Complete eof ts)
    (hrest : ∀ t ∈ rest.head?, t.kind ≠ .keyword .else_) (hdepth : ts.length < depth) :
    Abut (seamBehind eof rest position nextId errors) (declaration (ts ++ [eof]).length)
      (declaration depth) ⟨ts ++ [eof], 0, 0, #[]⟩ ⟨ts ++ rest, position, nextId, errors⟩ := by
  obtain ⟨stmt, s, hrun, hs, hclean⟩ := h
  have hlength : (ts ++ [eof]).length = ts.length + 1 := List.length_append
  -- both depths are above the number of tokens in front of the seam
  have halong : AlongDeclaration (seamBehind eof rest position nextId errors) True
      (declaration (ts ++ [eof]).length) (declaration depth) ⟨ts ++ [eof], 0, 0, #[]⟩ := by
    have hseam : (seamBehind eof rest position nextId errors).behind.length = 1 := rfl
    refine (statement_declaration_along _ _ _ ?_ ?_ fun _ => ⟨?_, ?_⟩).2 <;> dsimp only <;> omega
  obtain ⟨s', hrun', habreast⟩ := halong.run_ok hrun
    (.inr ⟨trivial, ⟨⟨eof, rfl, heof⟩, hrest⟩, hclean⟩) (seamBehind_abreast _ _ _ _ _ _)
  exact ⟨some stmt, s, s', hrun, hs, hrun', habreast⟩

/-- A declaration of a self-contained segment abuts on what stands behind the segment. -/
theorem SelfContained.abut (heof : eof.kind = .eof) (h : SelfContained eof ts)
    (hrest : ∀ t ∈ rest.head?, t.kind ≠ .keyword .else_) (hdepth : ts.length < depth) :
    Abut (seamBehind eof rest position nextId errors) (declaration (ts ++ [eof]).length)
      (declaration depth) ⟨ts ++ [eof], 0, 0, #[]⟩ ⟨ts ++ rest, position, nextId, errors⟩ := by
  rcases h.reads with hcomplete | hsimple
  · exact hcomplete.abut heof hrest hdepth
  · obtain ⟨depth, rfl⟩ : ∃ d, depth = d + 1 := ⟨depth - 1, by omega⟩
    rw [List.length_append]
    exact hsimple.abut rfl (seamBehind_abreast _ _ _ _ _ _) ts.length depth

/-- A segment starts with a token of its own. -/
theorem SelfContained.exists_cons (heof : eof.kind = .eof) (h : SelfContained eof ts) :
    ∃ first us, ts = first :: us ∧ first.kind ≠ .eof := by
  -- at the end of the text no declaration can be read
  rcases h.reads with ⟨stmt, s, hrun, -⟩ | hsimple
  · cases ts with
    | nil =>
      refine absurd hrun (declaration_run_atEnd ?_ _ _ _)
      simp [ParserState.atEnd, ParserState.current, heof]
    | cons first us =>
      refine ⟨first, us, rfl, fun hfirst => absurd hrun (declaration_run_atEnd ?_ _ _ _)⟩
      simp [ParserState.atEnd, ParserState.current, hfirst]
  · cases hsimple with
    | @led keyword semicolon body hkeyword hbody hsemicolon =>
      refine ⟨keyword, _, rfl, fun hkind => ?_⟩
      simp [hkind] at hkeyword
    | @bare semicolon body hfirst hbody hsemicolon =>
      cases body with
      | nil => exact ⟨semicolon, [], rfl, by simp [hsemicolon]⟩
      | cons first us =>
        exact ⟨first, _, rfl, (TokenKind.isInner_iff.mp (hbody first List.mem_cons_self)).1⟩

/-- Wherever a segment stands and whatever follows it, it is read in the same way. -/
theorem SelfContained.declaration_run (heof : eof.kind = .eof) (h : SelfContained eof ts) :
    ∃ (o : Option Stmt) (ids : Nat) (es : List SyntaxError),
      ∀ rest position nextId errors depth, (∀ t ∈ rest.head?, t.kind ≠ .keyword .else_) →
        ts.length < depth →
        (declaration depth).run ⟨ts ++ rest, position, nextId, errors⟩ =
          .ok (o.map (Stmt.relabel (.ofId (· + nextId)))) ⟨rest, position + ts.length,
            ids + nextId, errors ++ (es.map (·.later position)).toArray⟩ := by
  -- what it reads is found by a run over the segment alone
  obtain ⟨o, s, hrun, honward⟩ := declaration_proceeds (fun _ => trivial) (ts ++ [eof]).length
    ⟨ts ++ [eof], 0, 0, #[]⟩
  obtain ⟨us, hconsumed, hposition, -, -⟩ := honward.consumed
  refine ⟨o, s.nextId, s.errors.toList, fun rest position nextId errors depth hrest hdepth => ?_⟩
  -- and carried over to any other text by the seam behind it
  have habut : Abut (seamBehind eof rest position nextId errors) _ (declaration depth) _ _ :=
    h.abut heof hrest hdepth
  obtain ⟨o', t, t', hrun', ht, hsecond, habreast⟩ := habut
  obtain ⟨rfl, rfl⟩ := EStateM.Result.ok.inj (hrun.symm.trans hrun')
  have hs : s.rest = [eof] := ht
  have hus : ts = us := List.append_cancel_right (hs ▸ hconsumed)
  rw [hsecond, eq_of_seamBehind hs habreast, hposition, ← hus, Nat.zero_add, Nat.add_comm position]
  rfl

/-! ## Texts -/

/-- Wherever these tokens are read up to the end, they yield these statements, whatever their
    identities, and these faults at these tokens. -/
def Contributes (tokens : List Token) (body : List Stmt) (reports : List (SyntaxFault × Token)) :
    Prop :=
  ∀ bound position nextId errors, tokens.length ≤ bound → ∃ body' t,
    (program bound).run ⟨tokens, position, nextId, errors⟩ = .ok body' t ∧
      body'.map Stmt.anonymous = body ∧
      t.errors.toList.map SyntaxError.reported = errors.toList.map SyntaxError.reported ++ reports

variable {tokens : List Token} {stmts : List Stmt} {reports : List (SyntaxFault × Token)}

/-- The token for the end contributes nothing. -/
theorem contributes_eof (heof : eof.kind = .eof) : Contributes [eof] [] [] := by
  intro bound position nextId errors _
  have hend : ParserState.atEnd ⟨[eof], position, nextId, errors⟩ := by
    simp [ParserState.atEnd, ParserState.current, heof]
  exact ⟨[], _, program_run_atEnd hend bound, rfl, by simp⟩

/-- What tokens contribute is what they yield alone. -/
theorem Contributes.ofTokens (h : Contributes tokens stmts reports) (n : Nat) :
    (Parsed.ofTokens tokens n).anonymous = stmts ∧
      (Parsed.ofTokens tokens n).reports = reports := by
  obtain ⟨body, t, hrun, hbody, hreports⟩ := h tokens.length 0 n #[] (Nat.le_refl _)
  unfold Parsed.ofTokens
  rw [hrun]
  exact ⟨hbody, by rw [Parsed.reports, hreports]; rfl⟩

/-- Every list of tokens with an end contributes something. -/
theorem exists_contributes (hended : ∃ t ∈ tokens, t.kind = .eof) :
    ∃ stmts reports, Contributes tokens stmts reports := by
  -- the run over the tokens from position zero says what they contribute
  obtain ⟨body, s, hrun, honward, -⟩ :=
    program_run tokens.length ⟨tokens, 0, 0, #[]⟩ (Nat.le_refl _)
  refine ⟨body.map Stmt.anonymous, s.errors.toList.map SyntaxError.reported, ?_⟩
  intro bound position nextId errors hbound
  -- nothing stands behind the seam: the two runs only differ in where they start
  have halong : Along ⟨[], [], position, nextId, [], errors.toList⟩ False _ (program tokens.length)
      (program bound) ⟨tokens, 0, 0, #[]⟩ := program_along _ _ _ (Nat.le_refl _) hbound
  have hinside : 0 < s.rest.length := by
    obtain ⟨t, ht, -⟩ := honward.ended hended
    exact List.length_pos_of_mem ht
  have hstart : Seam.Abreast ⟨[], [], position, nextId, [], errors.toList⟩ ⟨tokens, 0, 0, #[]⟩
      ⟨tokens, position, nextId, errors⟩ :=
    ⟨⟨tokens, by simp, by simp⟩, by simp, by simp, [], by simp, by simp⟩
  obtain ⟨t, hrun', habreast⟩ := halong.run_ok hrun (.of_before hinside) hstart
  obtain ⟨es, herrors, herrors'⟩ := habreast.errors
  refine ⟨_, t, hrun', ?_, ?_⟩
  · rw [List.map_map]
    exact List.map_congr_left fun stmt _ => stmt.anonymous_relabel _
  · rw [herrors, herrors', List.map_append, List.map_map]
    rfl

/-- What a list of tokens contributes is what the parser finds in it. -/
theorem contributes_ofTokens (hended : ∃ t ∈ tokens, t.kind = .eof) (n : Nat) :
    Contributes tokens (Parsed.ofTokens tokens n).anonymous (Parsed.ofTokens tokens n).reports := by
  obtain ⟨stmts, reports, h⟩ := exists_contributes hended
  rw [(h.ofTokens n).1, (h.ofTokens n).2]
  exact h

/-- A segment contributes what it yields alone, in front of what stands behind it. -/
theorem SelfContained.contributes (heof : eof.kind = .eof) (h : SelfContained eof ts)
    (hcontributes : Contributes rest stmts reports) (hne : rest ≠ [])
    (hrest : ∀ t ∈ rest.head?, t.kind ≠ .keyword .else_) (n : Nat) :
    Contributes (ts ++ rest) ((Parsed.ofTokens (ts ++ [eof]) n).anonymous ++ stmts)
      ((Parsed.ofTokens (ts ++ [eof]) n).reports ++ reports) := by
  obtain ⟨o, ids, es, hdeclaration⟩ := h.declaration_run heof
  obtain ⟨first, us, hts, hfirst⟩ := h.exists_cons heof
  have happend {rest : List Token} {stmts : List Stmt} {reports : List (SyntaxFault × Token)}
      (hcontributes : Contributes rest stmts reports) (hne : rest ≠ [])
      (hrest : ∀ t ∈ rest.head?, t.kind ≠ .keyword .else_) :
      Contributes (ts ++ rest) (o.toList.map Stmt.anonymous ++ stmts)
        (es.map SyntaxError.reported ++ reports) := by
    intro bound position nextId errors hbound
    rw [List.length_append] at hbound
    have hlength : 0 < ts.length := by simp [hts]
    obtain ⟨bound, rfl⟩ : ∃ b, bound = b + 1 := ⟨bound - 1, by omega⟩
    have hend : ParserState.atEnd ⟨ts ++ rest, position, nextId, errors⟩ = false := by
      simp [ParserState.atEnd, ParserState.current, hts, hfirst]
    have hfirst := hdeclaration rest position nextId errors (ts ++ rest).length hrest (by
      rw [List.length_append]
      exact Nat.lt_add_of_pos_right (List.length_pos_iff.mpr hne))
    obtain ⟨body, t, hrun, hbody, hreports⟩ := hcontributes bound (position + ts.length)
      (ids + nextId) (errors ++ (es.map (·.later position)).toArray) (by omega)
    refine ⟨_, t, (program_run_cons hend hfirst hrun), ?_, ?_⟩
    · rw [List.map_append, hbody]
      cases o with
      | none => rfl
      | some stmt => exact congrArg (· :: _) (stmt.anonymous_relabel _)
    · rw [hreports]
      simp only [Array.toList_append, List.map_append, List.map_map, List.append_assoc]
      rfl
  -- alone it stands in front of the token for the end, which contributes nothing
  have halone := happend (contributes_eof heof) (List.cons_ne_nil _ _) (by simp [heof])
  rw [List.append_nil, List.append_nil] at halone
  rw [(halone.ofTokens n).1, (halone.ofTokens n).2]
  exact happend hcontributes hne hrest

end Parser

namespace Parsed

variable {eof : Token} {rest : List Token}

/-- What starts with segments yields what they yield alone, one after the other, and then what the
    rest yields alone, whatever that is. -/
theorem ofTokens_segments (heof : eof.kind = .eof) {segments : List (List Token)}
    (hsegments : ∀ ts ∈ segments, Parser.SelfContained eof ts) (hended : ∃ t ∈ rest, t.kind = .eof)
    (hrest : ∀ t ∈ rest.head?, t.kind ≠ .keyword .else_) (n m : Nat) :
    (ofTokens (segments.flatten ++ rest) n).anonymous =
        segments.flatMap (fun ts => (ofTokens (ts ++ [eof]) m).anonymous) ++
          (ofTokens rest m).anonymous ∧
      (ofTokens (segments.flatten ++ rest) n).reports =
        segments.flatMap (fun ts => (ofTokens (ts ++ [eof]) m).reports) ++
          (ofTokens rest m).reports := by
  -- each segment has to know that what stands behind it does not start with an `else`
  suffices h : segments.flatten ++ rest ≠ [] ∧
      (∀ t ∈ (segments.flatten ++ rest).head?, t.kind ≠ .keyword .else_) ∧
      Parser.Contributes (segments.flatten ++ rest)
        (segments.flatMap (fun ts => (ofTokens (ts ++ [eof]) m).anonymous) ++
          (ofTokens rest m).anonymous)
        (segments.flatMap (fun ts => (ofTokens (ts ++ [eof]) m).reports) ++
          (ofTokens rest m).reports) from h.2.2.ofTokens n
  induction segments with
  | nil =>
    refine ⟨?_, hrest, Parser.contributes_ofTokens hended m⟩
    obtain ⟨t, ht, -⟩ := hended
    exact List.ne_nil_of_mem ht
  | cons ts segments ih =>
    obtain ⟨hsegment, hsegments⟩ := List.forall_mem_cons.mp hsegments
    obtain ⟨hne, helse, hcontributes⟩ := ih hsegments
    obtain ⟨first, us, rfl, -⟩ := hsegment.exists_cons heof
    rw [List.flatten_cons, List.flatMap_cons, List.flatMap_cons, List.append_assoc,
      List.append_assoc, List.append_assoc]
    exact ⟨List.cons_ne_nil _ _, hsegment.noElse,
      hsegment.contributes heof hcontributes hne helse m⟩

/-- The tokens of `var = a;`, in which a name is missing. -/
private def nameless : List Token :=
  [⟨.keyword .var, "var", 1⟩, ⟨.equal, "=", 1⟩, .name "a" 1, ⟨.semicolon, ";", 1⟩]

/-- The tokens of `if (a) print a;`. -/
private def choice : List Token :=
  [⟨.keyword .if_, "if", 1⟩, ⟨.leftParen, "(", 1⟩, .name "a" 1, ⟨.rightParen, ")", 1⟩,
    ⟨.keyword .print, "print", 1⟩, .name "a" 1, ⟨.semicolon, ";", 1⟩]

/-- The tokens of `print;` and the end of the text. -/
private def bare : List Token :=
  [⟨.keyword .print, "print", 1⟩, ⟨.semicolon, ";", 1⟩, .eof 1]

/-- The first segment is self-contained. -/
private theorem selfContained_nameless : Parser.SelfContained (.eof 1) nameless := by
  have hinner : ∀ t ∈ [(⟨.equal, "=", 1⟩ : Token), .name "a" 1], t.kind.isInner := by decide
  refine ⟨.inr (.led (by decide) hinner rfl), ?_⟩
  rintro t ⟨⟩
  decide

/-- The second segment is self-contained. -/
private theorem selfContained_choice : Parser.SelfContained (.eof 1) choice := by
  refine ⟨.inl ⟨_, _, rfl, rfl, by simp⟩, ?_⟩
  rintro t ⟨⟩
  decide

/-- A variable without a name, which is not declared, and a choice in front of something that cannot
    be read either. -/
theorem ofTokens_nameless_segments :
    (Token.eof 1).kind = .eof ∧ (∀ ts ∈ [nameless, choice], Parser.SelfContained (.eof 1) ts) ∧
    (∃ t ∈ bare, t.kind = .eof) ∧ (∀ t ∈ bare.head?, t.kind ≠ .keyword .else_) ∧
    (ofTokens ([nameless, choice].flatten ++ bare) 0).anonymous =
        (ofTokens (choice ++ [.eof 1]) 0).anonymous ∧
      (ofTokens ([nameless, choice].flatten ++ bare) 0).reports =
        [(.expected .variableName, ⟨.equal, "=", 1⟩),
          (.expected .expression, ⟨.semicolon, ";", 1⟩)] := by
  -- each segment is self-contained on its own, before they are put in a row
  have hsegments : ∀ ts ∈ [nameless, choice], Parser.SelfContained (.eof 1) ts := by
    rintro ts (_ | ⟨_, _ | ⟨_, ⟨⟩⟩⟩)
    · exact selfContained_nameless
    · exact selfContained_choice
  have hended : ∃ t ∈ bare, t.kind = .eof := by decide
  have helse : ∀ t ∈ bare.head?, t.kind ≠ .keyword .else_ := by decide
  exact ⟨rfl, hsegments, hended, helse, ofTokens_segments rfl hsegments hended helse 0 0⟩

end Parsed

end Lox
