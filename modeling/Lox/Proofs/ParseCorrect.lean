import Lox.Proofs.ParseComplete
import Lox.Proofs.ParseSound
import Lox.Proofs.Relabel

/-!
# Parsing follows the grammar

The parser finds no error in exactly the lists of tokens that the grammar derives, and then yields
the one tree whose `else`s belong to the nearest `if`s, its nodes numbered in the order in which
they are completed.

## Key results

- `Parsed.errors_of_derives`, `Parsed.derives_of_errors`: the two directions
- `Parsed.ofTokens_correct`: what is accepted and what is yielded for it
-/

namespace Lox

namespace Parsed

variable {ts : List Token} {eof : Token} {n n' : Nat} {body : List Stmt}

/-- A derivation with each `else` at the nearest `if` is what parsing finds. -/
theorem ofTokens_of_derives (heof : eof.kind = .eof)
    (h : (Clause.declarations body).Derives true n ts n') :
    ofTokens (ts ++ [eof]) n = ⟨body, [], n'⟩ := by
  have hbound : ts.length ≤ (ts ++ [eof]).length := by simp
  have hrun := Parser.program_yields h heof hbound 0 #[]
  rw [ofTokens, hrun]
  rfl

/-- Any derivation, whatever its numbers, shows that parsing finds no errors. -/
theorem errors_of_derives (heof : eof.kind = .eof) {first next : Nat}
    (h : (Clause.declarations body).Derives false first ts next) :
    (ofTokens (ts ++ [eof]) n).errors = [] := by
  obtain ⟨_, hnearest⟩ := h.exists_nearest
  rw [ofTokens_of_derives heof (hnearest.renumber n)]

/-- Tokens in which parsing finds no errors have a derivation. -/
theorem derives_of_errors (heof : eof.kind = .eof) (hts : ∀ t ∈ ts, t.kind ≠ .eof)
    (h : (ofTokens (ts ++ [eof]) n).errors = []) :
    ∃ body n', (Clause.declarations body).Derives false n ts n' := by
  have hsound := Parser.program_sound (ts ++ [eof]).length ⟨ts ++ [eof], 0, n, #[]⟩
  unfold ofTokens at h
  unfold Parser.Sound at hsound
  cases hrun : (Parser.program (ts ++ [eof]).length).run ⟨ts ++ [eof], 0, n, #[]⟩ with
  | error e s =>
    rw [hrun] at h
    simp at h
  | ok body s =>
    rw [hrun] at h hsound
    have hclean : s.errors.size = 0 := by simpa using congrArg List.length h
    obtain ⟨us, hconsumed, hus, hderives⟩ := hsound.2 hclean
    have hend := Parser.program_atEnd (s := ⟨ts ++ [eof], 0, n, #[]⟩) (Nat.le_refl _) hrun hclean
    have hconsumed : ts ++ [eof] = us ++ s.rest := hconsumed
    -- what has been consumed is what stands before the first token for the end
    have hstop : s.rest.takeWhile (fun t => decide (t.kind ≠ .eof)) = [] := by
      cases hrest : s.rest with
      | nil => rfl
      | cons t rest =>
        have ht : t.kind = .eof := by
          simpa [ParserState.atEnd, ParserState.current, hrest] using hend
        simp [ht]
    have htake := congrArg (List.takeWhile fun t => decide (t.kind ≠ .eof)) hconsumed
    rw [List.takeWhile_append_of_pos (by simpa using hts),
      List.takeWhile_append_of_pos (by simpa using hus), hstop] at htake
    have hts : ts = us := by simpa [heof] using htake
    exact ⟨body, s.nextId, hts ▸ hderives⟩

/-- Numbers are only added, whatever is wrong with the tokens. -/
theorem le_nextId_ofTokens (tokens : List Token) (n : Nat) : n ≤ (ofTokens tokens n).nextId := by
  have hsound := Parser.program_sound tokens.length ⟨tokens, 0, n, #[]⟩
  unfold Parser.Sound at hsound
  unfold ofTokens
  cases hrun : (Parser.program tokens.length).run ⟨tokens, 0, n, #[]⟩ with
  | error e s =>
    rw [hrun] at hsound
    exact hsound.nextId
  | ok body s =>
    rw [hrun] at hsound
    exact hsound.1.nextId

/-- What is yielded for accepted tokens is a tree of a derivation of them. -/
theorem statements_derives (heof : eof.kind = .eof) (hts : ∀ t ∈ ts, t.kind ≠ .eof)
    (h : (ofTokens (ts ++ [eof]) n).errors = []) :
    (Clause.declarations (ofTokens (ts ++ [eof]) n).statements).Derives true n ts
      (ofTokens (ts ++ [eof]) n).nextId := by
  obtain ⟨_, _, hderives⟩ := derives_of_errors heof hts h
  obtain ⟨_, hnearest⟩ := hderives.exists_nearest
  rw [ofTokens_of_derives heof hnearest]
  exact hnearest

/-- The parser accepts exactly the lists of tokens that the grammar derives. What it yields is a
    tree of a derivation in which each `else` belongs to the nearest `if`, and any tree of such a
    derivation up to the numbers of its nodes. -/
theorem ofTokens_correct (heof : eof.kind = .eof) (hts : ∀ t ∈ ts, t.kind ≠ .eof) (n : Nat) :
    ((ofTokens (ts ++ [eof]) n).errors = [] ↔
      ∃ body first next, (Clause.declarations body).Derives false first ts next) ∧
    ((ofTokens (ts ++ [eof]) n).errors = [] →
      (Clause.declarations (ofTokens (ts ++ [eof]) n).statements).Derives true n ts
        (ofTokens (ts ++ [eof]) n).nextId) ∧
    ∀ body first next, (Clause.declarations body).Derives true first ts next →
      body.map (Stmt.relabel (.ofId fun i => i - first + n)) =
        (ofTokens (ts ++ [eof]) n).statements := by
  refine ⟨⟨fun h => ?_, ?_⟩, statements_derives heof hts, fun body first next h => ?_⟩
  · obtain ⟨body, next, h⟩ := derives_of_errors heof hts h
    exact ⟨body, n, next, h⟩
  · rintro ⟨body, first, next, h⟩
    exact errors_of_derives heof h
  -- a derivation can be numbered from anywhere, and the parser finds the one from `n`
  · rw [ofTokens_of_derives heof (h.renumber n)]

/-- The tokens of `if (a) if (b) c; else d;`. -/
private def nestedIf : List Token :=
  [⟨.keyword .if_, "if", 1⟩, ⟨.leftParen, "(", 1⟩, .name "a" 1, ⟨.rightParen, ")", 1⟩,
    ⟨.keyword .if_, "if", 1⟩, ⟨.leftParen, "(", 1⟩, .name "b" 1, ⟨.rightParen, ")", 1⟩,
    .name "c" 1, ⟨.semicolon, ";", 1⟩, ⟨.keyword .else_, "else", 1⟩, .name "d" 1,
    ⟨.semicolon, ";", 1⟩]

/-- They are accepted, and the tree is the one that the grammar gives them. -/
theorem ofTokens_nestedIf_correct :
    (Token.eof 1).kind = .eof ∧ (∀ t ∈ nestedIf, t.kind ≠ .eof) ∧
    (Clause.declarations (ofTokens (nestedIf ++ [.eof 1]) 0).statements).Derives true 0 nestedIf
      (ofTokens (nestedIf ++ [.eof 1]) 0).nextId := by
  have hkinds : ∀ t ∈ nestedIf, t.kind ≠ .eof := by decide
  exact ⟨rfl, hkinds, (ofTokens_correct rfl hkinds 0).2.1 (by rfl)⟩

end Parsed

end Lox
