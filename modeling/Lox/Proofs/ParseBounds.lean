import Lox.Proofs.SeamRuns

/-!
# Parsing ends, inside the text

The bounds on repetitions and nesting are never reached: with larger ones, or with more tokens
behind the one for the end, from which larger bounds follow, everything is the same. So the parsers
satisfy the equations of recursive descent, in which no bound occurs. On the way the cursor stays
inside the text, and the errors that end statements are at later and later tokens.

## Key results

- `Parser.fullStatement_run`, `Parser.fullDeclaration_run`: recursive descent without bounds
- `Parsed.ofTokens_bounded`: any text of tokens
-/

namespace Lox

namespace ParserState

/-- The cursor is at a token of the text, and the tokens from there on are left. -/
structure Within (tokens : List Token) (s : ParserState) : Prop where
  rest : s.rest = tokens.drop s.position
  inside : s.position < tokens.length

/-- The same place in a text that goes on. -/
def followedBy (behind : List Token) (s : ParserState) : ParserState :=
  { s with rest := s.rest ++ behind }

variable {s s' : ParserState} {q : TokenKind → Prop} {tokens : List Token} {least : Nat}

/-- Whoever starts inside the text stays inside, if the token for the end is not consumed. -/
theorem Within.of_consumed (h : s.Within tokens) (hended : ∃ t ∈ s.rest, t.kind = .eof)
    {ts : List Token} (hrest : s.rest = ts ++ s'.rest)
    (hposition : s'.position = s.position + ts.length) (hts : ∀ t ∈ ts, t.kind ≠ .eof) :
    s'.Within tokens := by
  obtain ⟨t, ht, -⟩ := ended_of_consumed hended hrest hts
  have hdrop : s'.rest = tokens.drop s'.position := by
    rw [hposition, ← List.drop_drop, ← h.rest, hrest, List.drop_left]
  refine ⟨hdrop, Nat.lt_of_not_le fun hle => ?_⟩
  rw [hdrop, List.drop_eq_nil_of_le hle] at ht
  cases ht

/-- A parser that moves on stays inside the text. -/
theorem Within.onward (h : s.Within tokens) (hended : ∃ t ∈ s.rest, t.kind = .eof)
    (honward : s.Onward q least s') : s'.Within tokens := by
  obtain ⟨ts, hrest, hposition, -, hts⟩ := honward.consumed
  exact h.of_consumed hended hrest hposition fun t ht => (hts t ht).1

end ParserState

/-! ## Bounds are never reached -/

/-- The seam behind the end of a text. -/
def Seam.atEnd (behind : List Token) (s : ParserState) : Seam :=
  ⟨[], behind, 0, 0, s.errors.toList, s.errors.toList⟩

/-- A state and the one with more tokens behind it are abreast. -/
theorem Seam.atEnd_abreast (behind : List Token) (s : ParserState) :
    (Seam.atEnd behind s).Abreast s (s.followedBy behind) :=
  ⟨⟨s.rest, (List.append_nil _).symm, rfl⟩, rfl, rfl, [], by simp [Seam.atEnd], by
    simp [Seam.atEnd, ParserState.followedBy]⟩

/-- What is abreast of a state at this seam has the tokens behind it, and differs in nothing
    else. -/
theorem Seam.Abreast.eq_followedBy {behind : List Token} {s t t' : ParserState}
    (h : (Seam.atEnd behind s).Abreast t t') : t' = t.followedBy behind := by
  obtain ⟨rest, position, nextId, errors⟩ := t
  obtain ⟨rest', position', nextId', errors'⟩ := t'
  obtain ⟨⟨ts, hrest, hrest'⟩, hposition, hnextId, es, herrors, herrors'⟩ := h
  -- the seam at the end moves nothing, so both states differ in their rest alone
  simp only [Seam.atEnd, List.append_nil] at hrest hrest' hposition hnextId
  have hlater : es.map (·.later 0) = es := List.map_id es
  have hsame : errors' = errors := by
    apply Array.toList_inj.mp
    rw [herrors, herrors']
    exact congrArg _ hlater
  rw [hrest', hrest, hposition, hnextId, hsame]
  rfl

namespace Parser

variable {α : Type} {s : ParserState} {q : TokenKind → Prop} {least : Nat} {behind : List Token}

/-- The same outcome in a text that goes on. -/
def followedBy (behind : List Token) :
    EStateM.Result SyntaxError ParserState α → EStateM.Result SyntaxError ParserState α
  | .ok a t => .ok a (t.followedBy behind)
  | .error e t => .error e (t.followedBy behind)

/-- With more tokens behind the end of the text everything is the same. -/
theorem Along.run_followedBy {p p' : Parser α} {g : α → α}
    (h : Along (Seam.atEnd behind s) False g p p' s) (hg : ∀ a, g a = a) (hp : Proceeds q least p s)
    (hended : ∃ t ∈ s.rest, t.kind = .eof) :
    p'.run (s.followedBy behind) = followedBy behind (p.run s) := by
  -- the end of the text is never consumed, so the parser stays in front of the seam
  have hinside {t : ParserState} (hended : ∃ x ∈ t.rest, x.kind = .eof) :
      (Seam.atEnd behind s).Inside False t := by
    obtain ⟨x, hx, -⟩ := hended
    exact .of_before (List.length_pos_of_mem hx)
  unfold Along at h
  unfold Proceeds at hp
  cases hrun : p.run s with
  | error e t =>
    rw [hrun] at h hp
    obtain ⟨t', hrun', ht⟩ := h.2 (hinside (hp.1.ended hended)) _ (Seam.atEnd_abreast behind s)
    rw [hrun', ht.eq_followedBy]
    rfl
  | ok a t =>
    rw [hrun] at h hp
    obtain ⟨t', hrun', ht⟩ := h.2 (hinside (hp.ended hended)) _ (Seam.atEnd_abreast behind s)
    rw [hrun', ht.eq_followedBy, hg]
    rfl

/-- Two parsers that go along at the end of a text run alike. -/
theorem Along.run_eq {p p' : Parser α} {g : α → α} (h : Along (Seam.atEnd [] s) False g p p' s)
    (hg : ∀ a, g a = a) (hp : Proceeds q least p s) (hended : ∃ t ∈ s.rest, t.kind = .eof) :
    p.run s = p'.run s := by
  have hrun := h.run_followedBy hg hp hended
  have hself (t : ParserState) : t.followedBy [] = t := by
    rw [ParserState.followedBy, List.append_nil]
  rw [hself] at hrun
  rw [hrun]
  cases p.run s <;> simp only [followedBy, hself]

/-! ### Recursive descent -/

/-- A statement over the tokens that are left. -/
def fullStatement : Parser Stmt := do
  statement (← remaining)

/-- A declaration over the tokens that are left. -/
def fullDeclaration : Parser (Option Stmt) := do
  declaration (← remaining)

/-- A program over the tokens that are left. -/
def fullProgram : Parser (List Stmt) := do
  program (← remaining)

/-- Relabelling by nothing. -/
private theorem relabel_atEnd (stmt : Stmt) : stmt.relabel (Seam.atEnd behind s).shift = stmt :=
  stmt.relabel_eq_self (fun _ => rfl) fun _ _ => rfl

/-- Relabelling by nothing, where there may be no statement. -/
private theorem relabelOption_atEnd (o : Option Stmt) :
    o.map (Stmt.relabel (Seam.atEnd behind s).shift) = o := by
  cases o <;> simp [relabel_atEnd]

/-- Relabelling by nothing, in an expression. -/
private theorem relabelExpr_atEnd (e : Expr) : e.relabel (Seam.atEnd behind s).shift = e :=
  e.relabel_eq_self (fun _ => rfl) fun _ _ => rfl

section Equations

variable (hended : ∃ t ∈ s.rest, t.kind = .eof)

include hended

/-- An expression that may be nested as deep as there are tokens is nested as deep as it gets. -/
theorem expression_run_eq {depth : Nat} (hdepth : s.rest.length ≤ depth) :
    (expression depth).run s = fullExpression.run s := by
  have h : AlongExpr (Seam.atEnd [] s) (expression depth) (expression s.rest.length) s :=
    expression_along depth _ s hdepth (Nat.le_refl _)
  exact h.run_eq relabelExpr_atEnd (expression_proceeds (fun _ _ => trivial) depth s) hended

omit hended in
/-- As many tokens as there are bound the nesting, before the end of the text. -/
private theorem statement_declaration_along_atEnd {depth depth' : Nat} {t : ParserState}
    (hdepth : t.rest.length ≤ depth) (hdepth' : t.rest.length ≤ depth') :
    AlongStmt (Seam.atEnd behind s) False (statement depth) (statement depth') t ∧
      AlongDeclaration (Seam.atEnd behind s) False (declaration depth) (declaration depth') t :=
  statement_declaration_along depth depth' t hdepth hdepth' False.elim

/-- A statement that may be nested as deep as there are tokens is nested as deep as it gets. -/
theorem statement_run_eq {depth : Nat} (hdepth : s.rest.length ≤ depth) :
    (statement depth).run s = fullStatement.run s :=
  (statement_declaration_along_atEnd hdepth (Nat.le_refl _)).1.run_eq relabel_atEnd
    (statement_proceeds (fun _ => trivial) depth s) hended

/-- A declaration that may be nested as deep as there are tokens is nested as deep as it gets. -/
theorem declaration_run_eq {depth : Nat} (hdepth : s.rest.length ≤ depth) :
    (declaration depth).run s = fullDeclaration.run s :=
  (statement_declaration_along_atEnd hdepth (Nat.le_refl _)).2.run_eq relabelOption_atEnd
    (declaration_proceeds_any (fun _ => trivial) depth s) hended

omit hended in
/-- Programs under two bounds that both reach the end are read alike. -/
private theorem program_along_atEnd {bound bound' : Nat} (hbound : s.rest.length ≤ bound)
    (hbound' : s.rest.length ≤ bound') :
    Along (Seam.atEnd behind s) False (List.map (Stmt.relabel (Seam.atEnd behind s).shift))
      (program bound) (program bound') s :=
  program_along bound bound' s hbound hbound'

omit hended in
/-- Relabelling by nothing, in several statements. -/
private theorem relabelList_atEnd (body : List Stmt) :
    body.map (Stmt.relabel (Seam.atEnd behind s).shift) = body := by
  rw [funext relabel_atEnd]
  exact List.map_id body

/-- A program and what stands behind it, with larger bounds. -/
theorem program_run_followedBy {bound bound' : Nat} (hbound : s.rest.length ≤ bound)
    (hbound' : s.rest.length ≤ bound') :
    (program bound').run (s.followedBy behind) = followedBy behind ((program bound).run s) :=
  (program_along_atEnd hbound hbound').run_followedBy relabelList_atEnd
    (program_proceeds (fun _ => trivial) bound s) hended

/-- A program that may be as long as there are tokens is as long as it gets. -/
theorem program_run_eq {bound : Nat} (hbound : s.rest.length ≤ bound) :
    (program bound).run s = fullProgram.run s :=
  (program_along_atEnd hbound (Nat.le_refl _)).run_eq relabelList_atEnd
    (program_proceeds (fun _ => trivial) bound s) hended

/-- An expression is an assignment of which the parts are expressions. -/
theorem fullExpression_run : fullExpression.run s = (assignment fullExpression).run s := by
  have hnested (t : ParserState) (ht : t.rest.length < s.rest.length) :
      AlongExpr (Seam.atEnd [] s) (expression s.rest.length) fullExpression t :=
    .remaining_right fun m hm => expression_along s.rest.length m t (Nat.le_of_lt ht) hm
  rw [← expression_run_eq hended (Nat.le_succ _)]
  exact (assignment_along hnested (Nat.le_refl _)).run_eq relabelExpr_atEnd
    (expression_proceeds (fun _ _ => trivial) (s.rest.length + 1) s) hended

omit hended in
/-- Nested statements and declarations over the tokens that are left. -/
private theorem full_along_atEnd {t : ParserState} (ht : t.rest.length < s.rest.length) :
    AlongStmt (Seam.atEnd [] s) False (statement s.rest.length) fullStatement t ∧
      AlongDeclaration (Seam.atEnd [] s) False (declaration s.rest.length) fullDeclaration t :=
  ⟨.remaining_right fun _ hm => (statement_declaration_along_atEnd (Nat.le_of_lt ht) hm).1,
    .remaining_right fun _ hm => (statement_declaration_along_atEnd (Nat.le_of_lt ht) hm).2⟩

/-- A statement is a plain statement of which the parts are statements and declarations. -/
theorem fullStatement_run :
    fullStatement.run s = (plainStatement fullStatement fullDeclaration).run s := by
  rw [← statement_run_eq hended (Nat.le_succ _), statement]
  have h := plainStatement_along (fun _ ht => (full_along_atEnd ht).1)
    (fun _ ht => (full_along_atEnd ht).2) (Nat.le_refl s.rest.length)
  have hproceeds := plainStatement_proceeds (fun _ => trivial)
    (statement_proceeds (fun _ => trivial) s.rest.length)
    (declaration_proceeds_any (fun _ => trivial) s.rest.length) s
  exact h.run_eq relabel_atEnd hproceeds hended

/-- A declaration is any statement of which the parts are statements and declarations, with
    whatever goes wrong in it caught. -/
theorem fullDeclaration_run : fullDeclaration.run s =
    (recovering (anyStatement fullStatement fullDeclaration)).run s := by
  rw [← declaration_run_eq hended (Nat.le_succ _), declaration]
  have h := anyStatement_along (fun _ ht => (full_along_atEnd ht).1)
    (fun _ ht => (full_along_atEnd ht).2) (Nat.le_refl s.rest.length)
  have hproceeds := anyStatement_proceeds (fun _ => trivial)
    (statement_proceeds (fun _ => trivial) s.rest.length)
    (declaration_proceeds_any (fun _ => trivial) s.rest.length) s
  rw [recovering_run, recovering_run, h.run_eq relabel_atEnd hproceeds hended]

/-- A program is a declaration and a program behind it, up to the end. -/
theorem fullProgram_run : fullProgram.run s = EStateM.run (do
    if (← get).atEnd then return []
    else
      let first ← fullDeclaration
      return first.toList ++ (← fullProgram)) s := by
  rw [← program_run_eq hended (Nat.le_succ _)]
  show EStateM.run (if s.atEnd then _ else declaration s.rest.length >>= _) s =
    EStateM.run (if s.atEnd then _ else fullDeclaration >>= _) s
  split
  · rfl
  -- behind the first declaration fewer tokens are left, but any larger bound does the same
  · obtain ⟨o, t, hrun, honward⟩ := declaration_proceeds (fun _ => trivial) s.rest.length s
    have hfull : fullDeclaration.run s = .ok o t := hrun
    rw [EStateM.run_bind, EStateM.run_bind, hrun, hfull]
    dsimp only
    rw [EStateM.run_bind, EStateM.run_bind, program_run_eq (honward.ended hended) ?_]
    exact Nat.le_trans (Nat.le_add_right _ _) honward.length_le

end Equations

/-- Recursive descent, in which no bound occurs. -/
structure Descends (s : ParserState) : Prop where
  program : fullProgram.run s = EStateM.run (do
    if (← get).atEnd then return []
    else
      let first ← fullDeclaration
      return first.toList ++ (← fullProgram)) s
  declaration :
    fullDeclaration.run s = (recovering (anyStatement fullStatement fullDeclaration)).run s
  statement : fullStatement.run s = (plainStatement fullStatement fullDeclaration).run s
  expression : fullExpression.run s = (assignment fullExpression).run s

/-- In front of the token for the end the parser descends without bounds. -/
theorem descends (hended : ∃ t ∈ s.rest, t.kind = .eof) : Descends s :=
  ⟨fullProgram_run hended, fullDeclaration_run hended, fullStatement_run hended,
    fullExpression_run hended⟩

/-! ## The cursor -/

/-- Wherever in a text a parser starts, it stops there, and not in front of where it has started. -/
def Stays (tokens : List Token) (p : Parser α) : Prop :=
  ∀ s, s.Within tokens →
    match p.run s with
    | .ok _ t => t.Within tokens ∧ s.position ≤ t.position
    | .error _ t => t.Within tokens ∧ s.position ≤ t.position

end Parser

namespace ParserState

variable {ts : List Token} {eof : Token} {s s' : ParserState} {q : TokenKind → Prop} {least : Nat}
  (heof : eof.kind = .eof)

include heof

/-- Inside a text the token for its end is ahead. -/
theorem Within.ended (h : s.Within (ts ++ [eof])) : ∃ t ∈ s.rest, t.kind = .eof := by
  have hle : s.position ≤ ts.length := by
    have := h.inside
    rw [List.length_append, List.length_singleton] at this
    omega
  refine ⟨eof, ?_, heof⟩
  rw [h.rest, List.drop_append_of_le_length hle]
  exact List.mem_append_right _ List.mem_cons_self

/-- Inside a text the current token is the one at the position. -/
theorem Within.current (h : s.Within (ts ++ [eof])) :
    (ts ++ [eof])[s.position]? = some s.current := by
  obtain ⟨t, ht, -⟩ := h.ended heof
  exact getElem?_position h.rest (List.ne_nil_of_mem ht)

/-- To advance stays inside the text. -/
theorem Within.advance (h : s.Within (ts ++ [eof])) : s.advance.Within (ts ++ [eof]) := by
  cases hend : s.atEnd with
  | true =>
    rw [ParserState.advance, hend]
    exact h
  | false => exact h.onward (h.ended heof) (.advance (q := fun _ => True) hend trivial)

/-- To recover stays inside the text. -/
theorem Within.recover (h : s.Within (ts ++ [eof])) : s.recover.Within (ts ++ [eof]) := by
  obtain ⟨us, hrest, hposition, -, hus⟩ := s.recover_consumed
  exact h.of_consumed (h.ended heof) hrest hposition hus

/-- To move on stays inside the text, and does not go back. -/
theorem Within.stays (h : s.Within (ts ++ [eof])) (honward : s.Onward q least s') :
    s'.Within (ts ++ [eof]) ∧ s.position ≤ s'.position :=
  ⟨h.onward (h.ended heof) honward, Nat.le_trans (Nat.le_add_right _ _) honward.position_le⟩

end ParserState

/-- What moves on from wherever it starts stays inside the text. -/
theorem Parser.Stays.of_proceeds {α : Type} {p : Parser α} {q : TokenKind → Prop} {least : Nat}
    {ts : List Token} {eof : Token} (heof : eof.kind = .eof) (h : ∀ s, Proceeds q least p s) :
    Stays (ts ++ [eof]) p := by
  intro s hwithin
  have hp := h s
  unfold Proceeds at hp
  -- a failure has not moved past the end either
  cases hrun : p.run s with
  | error e t =>
    rw [hrun] at hp
    exact hwithin.stays heof hp.1
  | ok a t =>
    rw [hrun] at hp
    exact hwithin.stays heof hp

namespace Parsed

/-- Parsing a text of tokens, of which only the last is one for the end, ends inside the text. -/
structure Bounded (ts : List Token) (eof : Token) (n : Nat) : Prop where
  /-- Parsing ends where only the last token is left, whatever larger bounds there are and whatever
      stands behind it. -/
  ends : ∃ body, ∃ s : ParserState, s.rest = [eof] ∧ s.position = ts.length ∧
    ∀ behind bound, ts.length < bound →
      (Parser.program bound).run (.followedBy behind ⟨ts ++ [eof], 0, n, #[]⟩) =
        .ok body (s.followedBy behind)
  /-- Anywhere in the text no bound is reached. -/
  descends : ∀ s : ParserState, s.Within (ts ++ [eof]) → Parser.Descends s
  /-- Anywhere in the text the next token is one of the text. -/
  current : ∀ s : ParserState, s.Within (ts ++ [eof]) → (ts ++ [eof])[s.position]? = some s.current
  /-- Consuming a token leads to a place in the text, -/
  advance : ∀ s : ParserState, s.Within (ts ++ [eof]) → s.advance.Within (ts ++ [eof])
  /-- and so does going on at a statement boundary -/
  recover : ∀ s : ParserState, s.Within (ts ++ [eof]) → s.recover.Within (ts ++ [eof])
  /-- and everything that is read in the text. -/
  stays : ∀ depth bound, Parser.Stays (ts ++ [eof]) (Parser.expression depth) ∧
    Parser.Stays (ts ++ [eof]) (Parser.statement depth) ∧
    Parser.Stays (ts ++ [eof]) (Parser.declaration depth) ∧
    Parser.Stays (ts ++ [eof]) (Parser.declarations (Parser.declaration depth) bound) ∧
    Parser.Stays (ts ++ [eof]) (Parser.methods (Parser.declaration depth) bound) ∧
    Parser.Stays (ts ++ [eof]) (Parser.program bound)
  /-- Each round of the loops over declarations consumes a token. -/
  round : ∀ depth (s : ParserState), s.Within (ts ++ [eof]) → s.atEnd = false →
    ∃ o s', (Parser.declaration depth).run s = .ok o s' ∧ s'.Within (ts ++ [eof]) ∧
      s.position < s'.position
  /-- The loop over a block stops before a closing brace or at the end, and not for want of
      rounds. -/
  block : ∀ depth bound (s : ParserState), s.Within (ts ++ [eof]) → s.rest.length ≤ bound →
    ∃ body s', (Parser.declarations (Parser.declaration depth) bound).run s = .ok body s' ∧
      s'.Within (ts ++ [eof]) ∧ (s'.atEnd ∨ s'.current.kind = .rightBrace)
  /-- Errors are at the tokens that they name. -/
  located : ∀ e ∈ (ofTokens (ts ++ [eof]) n).errors, (ts ++ [eof])[e.position]? = some e.token
  /-- Errors that end statements are at later and later tokens, except at the end. -/
  ordered : ((ofTokens (ts ++ [eof]) n).errors.filter (·.fault.isStructural)).Pairwise fun e e' =>
    e.position < e'.position ∨ (e.position = ts.length ∧ e'.position = ts.length)

variable {ts : List Token} {eof : Token}

/-- Parsing starts at the first token, with no errors. -/
private theorem reads_start (heof : eof.kind = .eof) (n : Nat) :
    ParserState.Reads (ts ++ [eof]) ⟨ts ++ [eof], 0, n, #[]⟩ :=
  ⟨rfl, ⟨eof, List.mem_append_right _ List.mem_cons_self, heof⟩, by simp, by simp, by simp⟩

/-- Where the rest of a text begins with the token for its end, all others have been consumed. -/
private theorem rest_eq_singleton (hts : ∀ t ∈ ts, t.kind ≠ .eof) {us rest : List Token}
    {first : Token} (hfirst : first.kind = .eof) (h : ts ++ [eof] = us ++ first :: rest) :
    us = ts ∧ first :: rest = [eof] := by
  -- whichever of the two cuts comes first, nothing can stand between them
  rcases List.append_eq_append_iff.mp h with ⟨as, hus, hrest⟩ | ⟨as, hts', hrest⟩
  · cases as with
    | nil => exact ⟨by rw [hus, List.append_nil], hrest.symm⟩
    | cons a as => simp at hrest
  · cases as with
    | nil => exact ⟨by rw [hts', List.append_nil], hrest⟩
    | cons a as =>
      obtain ⟨rfl, -⟩ := List.cons.inj hrest
      exact absurd hfirst (hts first (by simp [hts']))

/-- The token for the end stands last. -/
private theorem position_eq_length (hts : ∀ t ∈ ts, t.kind ≠ .eof) {i : Nat} {t : Token}
    (h : (ts ++ [eof])[i]? = some t) (ht : t.kind = .eof) : i = ts.length := by
  obtain ⟨hlt, hget⟩ := List.getElem?_eq_some_iff.mp h
  rw [List.length_append, List.length_singleton] at hlt
  refine Nat.le_antisymm (Nat.le_of_lt_succ hlt) (Nat.le_of_not_lt fun hlt => ?_)
  rw [List.getElem_append_left hlt] at hget
  exact hts t (hget ▸ List.getElem_mem hlt) ht

/-- The run of a whole text. -/
private theorem program_run_whole (heof : eof.kind = .eof) (hts : ∀ t ∈ ts, t.kind ≠ .eof)
    (n : Nat) : ∃ body s,
      (Parser.program (ts ++ [eof]).length).run ⟨ts ++ [eof], 0, n, #[]⟩ = .ok body s ∧
        s.rest = [eof] ∧ s.position = ts.length ∧ s.Reads (ts ++ [eof]) := by
  obtain ⟨body, s, hrun, honward, hend⟩ := Parser.program_run (ts ++ [eof]).length
    ⟨ts ++ [eof], 0, n, #[]⟩ (Nat.le_refl _)
  have hreads := honward.reads _ (reads_start heof n)
  refine ⟨body, s, hrun, ?_⟩
  obtain ⟨us, hconsumed, hposition, -⟩ := honward.consumed
  obtain ⟨t, ht, -⟩ := hreads.ended
  cases hrest : s.rest with
  | nil =>
    rw [hrest] at ht
    cases ht
  | cons first rest =>
    have hfirst : first.kind = .eof := by
      simpa [ParserState.atEnd, ParserState.current, hrest] using hend
    -- only the last token is an end, so where the run stops everything else is consumed
    obtain ⟨rfl, hsingle⟩ := rest_eq_singleton hts hfirst (hrest ▸ hconsumed)
    exact ⟨hsingle, by simpa using hposition, hreads⟩

/-- Whatever the tokens of a text are, parsing it is bounded. -/
theorem ofTokens_bounded (heof : eof.kind = .eof) (hts : ∀ t ∈ ts, t.kind ≠ .eof) (n : Nat) :
    Bounded ts eof n := by
  obtain ⟨body, s, hrun, hrest, hposition, hreads⟩ := program_run_whole heof hts n
  have herrors : (ofTokens (ts ++ [eof]) n).errors = s.errors.toList := by
    rw [ofTokens, hrun]
  refine {
    ends := ⟨body, s, hrest, hposition, fun behind bound hbound => ?_⟩
    descends := fun s hs => Parser.descends (hs.ended heof)
    current := fun s hs => hs.current heof
    advance := fun s hs => hs.advance heof
    recover := fun s hs => hs.recover heof
    stays := fun depth bound => ?_
    round := fun depth s hs hend => ?_
    block := fun depth bound s hs hbound => ?_
    located := herrors ▸ hreads.located
    ordered := ?_ }
  · rw [Parser.program_run_followedBy (reads_start heof n).ended (Nat.le_refl _) ?_]
    · exact congrArg (Parser.followedBy behind) hrun
    · rwa [List.length_append]
  · have hdeclaration := Parser.declaration_proceeds_any (fun _ => trivial) depth
    exact ⟨.of_proceeds heof (Parser.expression_proceeds (fun _ _ => trivial) depth),
      .of_proceeds heof (Parser.statement_proceeds (fun _ => trivial) depth),
      .of_proceeds heof hdeclaration,
      .of_proceeds heof (Parser.declarations_proceeds hdeclaration bound),
      .of_proceeds heof (Parser.methods_proceeds (fun _ => trivial) hdeclaration bound),
      .of_proceeds heof (Parser.program_proceeds (fun _ => trivial) bound)⟩
  · obtain ⟨o, s', hrun', honward⟩ := Parser.declaration_proceeds (fun _ => trivial) depth s
    have hlt := honward.position_le
    rw [ParserState.leastSkipped_eq_one hend] at hlt
    exact ⟨o, s', hrun', hs.onward (hs.ended heof) honward, hlt⟩
  · obtain ⟨body', s', hrun', honward, hstop⟩ := Parser.declarations_run depth bound s hbound
    exact ⟨body', s', hrun', hs.onward (hs.ended heof) honward, hstop⟩
  · -- errors at a token for the end are at the last one, as no other token is one
    rw [herrors]
    refine hreads.ordered.imp_of_mem fun he he' h => h.imp_right fun ⟨hkind, hkind'⟩ => ⟨?_, ?_⟩
    · exact position_eq_length hts (hreads.located _ (List.mem_filter.mp he).1) hkind
    · exact position_eq_length hts (hreads.located _ (List.mem_filter.mp he').1) hkind'

/-- The tokens of `{ print ; (`. -/
private def unclosed : List Token :=
  [⟨.leftBrace, "\x7b", 1⟩, ⟨.keyword .print, "print", 1⟩, ⟨.semicolon, ";", 1⟩,
    ⟨.leftParen, "(", 1⟩]

/-- What is printed is missing, and then both an expression and a brace are missing at the end. -/
theorem ofTokens_unclosed_bounded :
    (Token.eof 1).kind = .eof ∧ (∀ t ∈ unclosed, t.kind ≠ .eof) ∧
    (ofTokens (unclosed ++ [.eof 1]) 0).errors.map (·.position) = [2, 4, 4] ∧
    Bounded unclosed (.eof 1) 0 := by
  have hkinds : ∀ t ∈ unclosed, t.kind ≠ .eof := by decide
  exact ⟨rfl, hkinds, by rfl, ofTokens_bounded rfl hkinds 0⟩

end Parsed

end Lox
