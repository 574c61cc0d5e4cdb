import Lox.Proofs.ParseSound

/-!
# Where the cursor goes

A parser only moves forward, over tokens of which none is the one for the end of the text, and it
blames tokens of the text. `ParserState.Reads` is what is kept on the way: the cursor is inside the
text, every error noted is at the token it names, and no token before the end is blamed twice for
ending a statement. The last needs that whoever catches such an error goes on behind it.

`Proceeds` says this of one run of a parser, and with it which kinds of tokens are consumed and how
many at least. It is proved of every parser from that of the parsers it is made of.

## Key results

- `expression_proceeds`: an expression consumes at least one token and no semicolon
- `declaration_proceeds`: a declaration never fails, and consumes at least one token if there is one
- `declarations_run`, `program_run`: the loops only stop where they should
-/

namespace Lox

namespace ParserState

/-- The rest of the text is read: it is not used up, the errors are at the tokens that they name,
    and those that end statements are at different ones before the cursor, except that there may be
    several at the end of the text. -/
structure Reads (tokens : List Token) (s : ParserState) : Prop where
  rest : s.rest = tokens.drop s.position
  ended : ∃ t ∈ s.rest, t.kind = .eof
  located : ∀ e ∈ s.errors.toList, tokens[e.position]? = some e.token
  passed : ∀ e ∈ s.errors.toList, e.fault.isStructural →
    e.position < s.position ∨ (e.token.kind = .eof ∧ s.atEnd)
  ordered : (s.errors.toList.filter (·.fault.isStructural)).Pairwise fun e e' =>
    e.position < e'.position ∨ (e.token.kind = .eof ∧ e'.token.kind = .eof)

/-- From one state to a later one tokens of such kinds have been consumed, and at least so many. -/
structure Onward (q : TokenKind → Prop) (least : Nat) (s s' : ParserState) : Prop where
  consumed : ∃ ts, s.rest = ts ++ s'.rest ∧ s'.position = s.position + ts.length ∧
    least ≤ ts.length ∧ ∀ t ∈ ts, t.kind ≠ .eof ∧ q t.kind
  reads : ∀ tokens, s.Reads tokens → s'.Reads tokens

variable {s s' s'' : ParserState} {q : TokenKind → Prop} {tokens : List Token} {least least' : Nat}

/-- Where no token is left the parser is at the end. -/
theorem atEnd_of_length_le_zero (h : s.rest.length ≤ 0) : s.atEnd := by
  have hnil : s.rest = [] := List.length_eq_zero_iff.mp (Nat.le_zero.mp h)
  simp [atEnd, current, hnil, Token.eof]

/-- The token for the end is still there if it has not been consumed. -/
theorem ended_of_consumed {us ts rest : List Token} (hended : ∃ t ∈ us, t.kind = .eof)
    (hrest : us = ts ++ rest) (hts : ∀ t ∈ ts, t.kind ≠ .eof) : ∃ t ∈ rest, t.kind = .eof := by
  obtain ⟨t, ht, heof⟩ := hended
  rw [hrest] at ht
  rcases List.mem_append.mp ht with ht | ht
  · exact absurd heof (hts t ht)
  · exact ⟨t, ht, heof⟩

/-- The token that is read next is the one at the cursor. -/
theorem getElem?_position (h : s.rest = tokens.drop s.position) (hne : s.rest ≠ []) :
    tokens[s.position]? = some s.current := by
  rw [← List.head?_drop, ← h, current]
  cases hrest : s.rest with
  | nil => exact absurd hrest hne
  | cons first rest => rfl

/-- The current token of a parser that reads `tokens` is the one at its position. -/
theorem Reads.current (h : s.Reads tokens) : tokens[s.position]? = some s.current := by
  obtain ⟨t, ht, -⟩ := h.ended
  exact getElem?_position h.rest (List.ne_nil_of_mem ht)

/-- An error noted at the current token carries that token and its position. -/
theorem Reads.errorHere (h : s.Reads tokens) (fault : SyntaxFault) :
    tokens[(s.errorHere fault).position]? = some (s.errorHere fault).token :=
  h.current

/-- An error that does not end a statement is noted anywhere in the text. -/
theorem Reads.report (h : s.Reads tokens) {e : SyntaxError}
    (hlocated : tokens[e.position]? = some e.token) (hfault : e.fault.isStructural = false) :
    (s.report e).Reads tokens := by
  have herrors : (s.report e).errors.toList = s.errors.toList ++ [e] := by simp [ParserState.report]
  -- an error that ends no statement need not have been passed
  refine ⟨h.rest, h.ended, ?_, ?_, ?_⟩
  · rw [herrors]
    intro e' he'
    rcases List.mem_append.mp he' with he' | he'
    · exact h.located e' he'
    · rw [List.mem_singleton.mp he']
      exact hlocated
  · rw [herrors]
    intro e' he' hstructural
    rcases List.mem_append.mp he' with he' | he'
    · exact h.passed e' he' hstructural
    · rw [List.mem_singleton.mp he', hfault] at hstructural
      cases hstructural
  · rw [herrors]
    simpa [hfault] using h.ordered

namespace Onward

theorem refl (s : ParserState) : s.Onward q 0 s :=
  ⟨⟨[], rfl, rfl, Nat.le_refl 0, nofun⟩, fun _ h => h⟩

/-- Two moves make one, over as many tokens as both of them at least. -/
theorem trans (h : s.Onward q least s') (h' : s'.Onward q least' s'') :
    s.Onward q (least + least') s'' := by
  refine ⟨?_, fun tokens hreads => h'.reads tokens (h.reads tokens hreads)⟩
  obtain ⟨ts, hrest, hposition, hleast, hts⟩ := h.consumed
  obtain ⟨ts', hrest', hposition', hleast', hts'⟩ := h'.consumed
  -- the tokens of the second move stand behind those of the first
  refine ⟨ts ++ ts', by rw [hrest, hrest', List.append_assoc], ?_, ?_, ?_⟩
  · rw [hposition', hposition, List.length_append, Nat.add_assoc]
  · rw [List.length_append]
    exact Nat.add_le_add hleast hleast'
  · intro t ht
    rcases List.mem_append.mp ht with ht | ht
    · exact hts t ht
    · exact hts' t ht

/-- What is consumed at least may be given smaller. -/
theorem weaken (h : s.Onward q least s') (hle : least' ≤ least) : s.Onward q least' s' := by
  obtain ⟨ts, hrest, hposition, hleast, hts⟩ := h.consumed
  exact ⟨⟨ts, hrest, hposition, Nat.le_trans hle hleast, hts⟩, h.reads⟩

/-- The position grows by at least as many tokens as are consumed. -/
theorem position_le (h : s.Onward q least s') : s.position + least ≤ s'.position := by
  obtain ⟨ts, -, hposition, hleast, -⟩ := h.consumed
  omega

/-- As many tokens fewer are left. -/
theorem length_le (h : s.Onward q least s') : s'.rest.length + least ≤ s.rest.length := by
  obtain ⟨ts, hrest, -, hleast, -⟩ := h.consumed
  have hlength := congrArg List.length hrest
  rw [List.length_append] at hlength
  omega

/-- The token for the end of the text is never consumed. -/
theorem ended (h : s.Onward q least s') (hended : ∃ t ∈ s.rest, t.kind = .eof) :
    ∃ t ∈ s'.rest, t.kind = .eof := by
  obtain ⟨ts, hrest, -, -, hts⟩ := h.consumed
  exact ended_of_consumed hended hrest fun t ht => (hts t ht).1

/-- At the end there is nothing to consume. -/
theorem least_eq_zero (h : s.Onward q least s') (hend : s.atEnd) :
    least = 0 ∧ s'.rest = s.rest := by
  obtain ⟨ts, hrest, -, hleast, hts⟩ := h.consumed
  cases ts with
  | nil => exact ⟨Nat.le_zero.mp hleast, hrest.symm⟩
  | cons t ts =>
    have hkind : s.current.kind = .eof := by simpa [atEnd] using hend
    rw [ParserState.current, hrest] at hkind
    exact absurd hkind (hts t (by simp)).1

/-- To advance consumes the current token, whose kind is then among those allowed. -/
theorem advance (hend : s.atEnd = false) (hq : q s.current.kind) : s.Onward q 1 s.advance := by
  have hrest := rest_eq_of_not_atEnd (s := s) (by simp [hend])
  have hposition : s.advance.position = s.position + 1 := by simp [ParserState.advance, hend]
  have hkind : s.current.kind ≠ .eof := by simpa [atEnd] using hend
  refine ⟨⟨[s.current], hrest, hposition, Nat.le_refl 1, ?_⟩, fun tokens h => ⟨?_, ?_, ?_, ?_, ?_⟩⟩
  · intro t ht
    rw [List.mem_singleton.mp ht]
    exact ⟨hkind, hq⟩
  · rw [hposition, ← List.drop_drop, ← h.rest, hrest]
    rfl
  · obtain ⟨t, ht, heof⟩ := h.ended
    rw [hrest] at ht
    rcases List.mem_cons.mp ht with rfl | ht
    · exact absurd heof hkind
    · exact ⟨t, ht, heof⟩
  · rw [advance_errors]
    exact h.located
  · rw [advance_errors]
    intro e he hstructural
    -- an error at the end has not been noted, because the parser is not there yet
    rcases h.passed e he hstructural with hlt | ⟨-, hatEnd⟩
    · exact .inl (by omega)
    · rw [hend] at hatEnd
      cases hatEnd
  · rw [advance_errors]
    exact h.ordered

/-- Identities play no part. -/
theorem nextId (n : Nat) : s.Onward q 0 { s with nextId := n } :=
  ⟨⟨[], rfl, rfl, Nat.le_refl 0, nofun⟩, fun _ h =>
    ⟨h.rest, h.ended, h.located, h.passed, h.ordered⟩⟩

/-- On the way an error may be noted at the token where it began. -/
theorem report (h : s.Onward q least s') {fault : SyntaxFault}
    (hfault : fault.isStructural = false) : s.Onward q least (s'.report (s.errorHere fault)) := by
  refine ⟨h.consumed, fun tokens hreads => ?_⟩
  exact (h.reads tokens hreads).report (hreads.errorHere fault) hfault

end Onward

/-- No token is skipped twice, and none that is the one for the end. -/
theorem skipStatement_consumed (previous : Token) (rest : List Token) (position : Nat) :
    ∃ ts, rest = ts ++ (skipStatement previous rest position).1 ∧
      (skipStatement previous rest position).2 = position + ts.length ∧
      ∀ t ∈ ts, t.kind ≠ .eof := by
  induction rest generalizing previous position with
  | nil => exact ⟨[], rfl, rfl, nofun⟩
  | cons t rest ih =>
    rw [skipStatement]
    -- reading stops at a boundary without consuming the token there
    split
    · exact ⟨[], rfl, rfl, nofun⟩
    · rename_i hstop
      simp only [Bool.or_eq_true, decide_eq_true_eq, not_or] at hstop
      obtain ⟨ts, hrest, hposition, hts⟩ := ih t (position + 1)
      refine ⟨t :: ts, by rw [List.cons_append, ← hrest], ?_,
        List.forall_mem_cons.mpr ⟨hstop.1.1, hts⟩⟩
      rw [hposition, List.length_cons, Nat.add_assoc, Nat.add_comm 1]

/-- How many tokens are skipped at least. -/
def leastSkipped (s : ParserState) : Nat :=
  if s.atEnd then 0 else 1

/-- Recovery drops at most one token that it does not look at. -/
theorem leastSkipped_le (s : ParserState) : s.leastSkipped ≤ 1 := by
  unfold leastSkipped
  split <;> decide

/-- In front of the end of the text recovery drops one token in any case. -/
theorem leastSkipped_eq_one (hend : s.atEnd = false) : s.leastSkipped = 1 := by
  rw [leastSkipped, hend]
  rfl

/-- Who has not been at the end and is there now has consumed a token. -/
theorem Onward.skipped (h : s.Onward q least s') :
    ∃ least', s.Onward q least' s' ∧ s.leastSkipped ≤ least' + s'.leastSkipped := by
  obtain ⟨ts, hrest, hposition, -, hts⟩ := h.consumed
  refine ⟨ts.length, ⟨⟨ts, hrest, hposition, Nat.le_refl _, hts⟩, h.reads⟩, ?_⟩
  cases ts with
  -- nothing has been consumed, so recovery has just as much to drop as before
  | nil =>
    have hcurrent : s'.current = s.current := by
      rw [ParserState.current, ParserState.current, hrest]
      rfl
    rw [leastSkipped, leastSkipped, atEnd, atEnd, hcurrent]
    exact Nat.le_add_left _ _
  | cons t ts => exact Nat.le_trans s.leastSkipped_le (Nat.le_add_right_of_le (by simp))

/-- The token that is blamed is skipped, unless it is the one for the end. -/
theorem recover_consumed (s : ParserState) : ∃ ts, s.rest = ts ++ s.recover.rest ∧
    s.recover.position = s.position + ts.length ∧ s.leastSkipped ≤ ts.length ∧
    ∀ t ∈ ts, t.kind ≠ .eof := by
  unfold recover leastSkipped
  cases hend : s.atEnd with
  | true => exact ⟨[], rfl, rfl, Nat.le_refl 0, nofun⟩
  | false =>
    obtain ⟨ts, hrest, hskip, hts⟩ :=
      skipStatement_consumed s.current s.rest.tail (s.position + 1)
    have hadvance := rest_eq_of_not_atEnd (s := s) (by simp [hend])
    have htail : s.advance.rest = s.rest.tail := by simp [ParserState.advance, hend]
    -- the blamed token is dropped first, and then those up to the boundary
    refine ⟨s.current :: ts, ?_, ?_, by simp, List.forall_mem_cons.mpr ⟨?_, hts⟩⟩
    · rw [htail] at hadvance
      exact hadvance.trans (congrArg (s.current :: ·) hrest)
    · rw [List.length_cons, ← Nat.add_assoc, Nat.add_right_comm]
      exact hskip
    · simpa [atEnd] using hend

/-- What is known of an error that has just been noted at the next token. -/
theorem Reads.blames (h : s.Reads tokens) {e : SyntaxError} (hposition : e.position = s.position)
    (htoken : e.token = s.current) :
    ((s.errors.toList ++ [e]).filter (·.fault.isStructural)).Pairwise fun e e' =>
      e.position < e'.position ∨ (e.token.kind = .eof ∧ e'.token.kind = .eof) := by
  rw [List.filter_append, List.pairwise_append]
  refine ⟨h.ordered, by cases hfault : e.fault.isStructural <;> simp [hfault], ?_⟩
  intro e₁ he₁ e₂ he₂
  obtain ⟨he₁, hstructural₁⟩ := List.mem_filter.mp he₁
  have he₂ : e₂ = e := List.mem_singleton.mp (List.mem_filter.mp he₂).1
  rw [he₂, hposition, htoken]
  -- an earlier error is at a token that has been passed, or both are at the end of the text
  rcases h.passed e₁ he₁ hstructural₁ with hlt | ⟨heof, hend⟩
  · exact .inl hlt
  · exact .inr ⟨heof, by simpa [atEnd] using hend⟩

/-- After an error that ends a statement, reading goes on behind the token that is blamed. -/
theorem onward_recover (s : ParserState) (what : Expectation) (hq : ∀ kind, q kind) :
    s.Onward q s.leastSkipped (s.report (s.errorHere (.expected what))).recover := by
  generalize he : s.errorHere (.expected what) = e
  have hposition : e.position = s.position := by rw [← he]; rfl
  have htoken : e.token = s.current := by rw [← he]; rfl
  have herrors : (s.report e).recover.errors.toList = s.errors.toList ++ [e] := by
    simp [ParserState.report]
  obtain ⟨ts, hrest, hskip, hleast, hts⟩ := (s.report e).recover_consumed
  change s.rest = _ at hrest
  change _ = s.position + _ at hskip
  change s.leastSkipped ≤ _ at hleast
  refine ⟨⟨ts, hrest, hskip, hleast, fun t ht => ⟨hts t ht, hq _⟩⟩, fun tokens h => ?_⟩
  refine ⟨?_, ?_, ?_, ?_, herrors ▸ h.blames hposition htoken⟩
  · rw [hskip, ← List.drop_drop, ← h.rest, hrest, List.drop_left]
  · obtain ⟨t, ht, heof⟩ := h.ended
    rw [hrest] at ht
    rcases List.mem_append.mp ht with ht | ht
    · exact absurd heof (hts t ht)
    · exact ⟨t, ht, heof⟩
  · rw [herrors]
    refine List.forall_mem_append.mpr ⟨h.located, List.forall_mem_singleton.mpr ?_⟩
    rw [hposition, htoken]
    exact h.current
  · rw [herrors, hskip]
    -- at the end nothing is skipped, which is why the end may be blamed again
    have hatEnd (hend : s.atEnd) : (s.report e).recover.atEnd := by
      unfold recover
      rw [if_pos (show (s.report e).atEnd from hend)]
      exact hend
    refine List.forall_mem_append.mpr ⟨fun e' he' hstructural => ?_,
      List.forall_mem_singleton.mpr fun _ => ?_⟩
    · rcases h.passed e' he' hstructural with hlt | ⟨heof, hend⟩
      · exact .inl (by omega)
      · exact .inr ⟨heof, hatEnd hend⟩
    · rw [hposition, htoken]
      cases hend : s.atEnd with
      | true => exact .inr ⟨by simpa [atEnd] using hend, hatEnd hend⟩
      | false =>
        simp only [leastSkipped, hend] at hleast
        exact .inl (Nat.lt_add_of_pos_right hleast)

end ParserState

namespace Parser

variable {α β : Type} {s : ParserState} {q : TokenKind → Prop} {least least' : Nat}

/-- `accept` yields whether the current token is of the kind, and then consumes it. -/
theorem accept_run (kind : TokenKind) (s : ParserState) : (accept kind).run s =
    if !s.atEnd && s.current.kind = kind then .ok true s.advance else .ok false s := by
  rw [accept, EStateM.run_bind, accept?_run]
  cases !s.atEnd && decide (s.current.kind = kind) <;> rfl

/-- `expect` yields and consumes a token of the kind, or else fails at the current one. -/
theorem expect_run (kind : TokenKind) (what : Expectation) (s : ParserState) :
    (expect kind what).run s =
      if !s.atEnd && s.current.kind = kind then .ok s.current s.advance
      else .error (s.errorHere (.expected what)) s := by
  rw [expect, EStateM.run_bind, accept?_run]
  cases !s.atEnd && decide (s.current.kind = kind) <;> rfl

/-- A parser moves forward over tokens of such kinds, at least so many if it succeeds. If it fails
    then because something else is expected at the token where it stands. -/
def Proceeds (q : TokenKind → Prop) (least : Nat) (p : Parser α) (s : ParserState) : Prop :=
  match p.run s with
  | .ok _ s' => s.Onward q least s'
  | .error e s' => s.Onward q 0 s' ∧ ∃ what, e = s'.errorHere (.expected what)

/-! ## Steps -/

namespace Proceeds

variable {p : Parser α} {f : α → Parser β}

/-- What is consumed at least may be given smaller. -/
theorem weaken (h : Proceeds q least p s) (hle : least' ≤ least) : Proceeds q least' p s := by
  unfold Proceeds at h ⊢
  cases hp : p.run s with
  | error e s' =>
    rw [hp] at h
    exact h
  | ok a s' =>
    rw [hp] at h
    exact h.weaken hle

/-- Of two parsers that run alike both proceed or neither does. -/
theorem congr {p' : Parser α} (h : Proceeds q least p' s) (hrun : p.run s = p'.run s) :
    Proceeds q least p s := by
  unfold Proceeds at h ⊢
  rwa [hrun]

/-- It does not matter how many tokens are consumed. -/
theorem any (h : Proceeds q least p s) : Proceeds q 0 p s :=
  h.weaken (Nat.zero_le least)

/-- Who consumes a token leaves fewer. -/
theorem length_lt (h : Proceeds q 1 p s) {a : α} {s' : ParserState} (hrun : p.run s = .ok a s') :
    s'.rest.length < s.rest.length := by
  unfold Proceeds at h
  rw [hrun] at h
  exact h.length_le

/-- Who consumes a token fails at the end. -/
theorem not_ok_of_atEnd (h : Proceeds q 1 p s) (hend : s.atEnd) (a : α) (s' : ParserState) :
    p.run s ≠ .ok a s' := by
  intro hrun
  unfold Proceeds at h
  rw [hrun] at h
  exact absurd (h.least_eq_zero hend).1 Nat.one_ne_zero

/-- One parser goes on where the other has stopped. -/
private theorem bind_add (hp : Proceeds q least p s)
    (hf : ∀ a s', p.run s = .ok a s' → Proceeds q least' (f a) s') :
    Proceeds q (least + least') (p >>= f) s := by
  unfold Proceeds at hp ⊢
  rw [EStateM.run_bind]
  -- an error of the first parser ends both
  cases hrun : p.run s with
  | error e s' =>
    rw [hrun] at hp
    exact hp
  | ok a s' =>
    rw [hrun] at hp
    have hf := hf a s' hrun
    unfold Proceeds at hf
    dsimp only
    -- where the second one fails, the first has already consumed its part
    cases hrun' : (f a).run s' with
    | error e s'' =>
      rw [hrun'] at hf
      exact ⟨(hp.trans hf.1).weaken (Nat.zero_le _), hf.2⟩
    | ok b s'' =>
      rw [hrun'] at hf
      exact hp.trans hf

/-- The first parser consumes what is to be consumed at least. -/
theorem bind (hp : Proceeds q least p s) (hf : ∀ a s', Proceeds q 0 (f a) s') :
    Proceeds q least (p >>= f) s :=
  hp.bind_add fun a s' _ => hf a s'

/-- The second parser consumes what is to be consumed at least. -/
theorem bind_last (hp : Proceeds q least' p s) (hf : ∀ a s', Proceeds q least (f a) s') :
    Proceeds q least (p >>= f) s :=
  (hp.bind_add fun a s' _ => hf a s').weaken (Nat.le_add_left _ _)

theorem pure (a : α) : Proceeds q 0 (Pure.pure a) s :=
  ParserState.Onward.refl s

/-- Mapping the result changes nothing about where the parser goes. -/
theorem map {g : α → β} (hp : Proceeds q least p s) : Proceeds q least (g <$> p) s := by
  rw [← bind_pure_comp]
  exact hp.bind fun a s' => pure (g a)

/-- Looking at the state consumes nothing. -/
theorem get_bind {f : ParserState → Parser β} (h : Proceeds q least (f s) s) :
    Proceeds q least (get >>= f) s :=
  h

/-- Looking at the kind of the current token consumes nothing. -/
theorem peekKind_bind {f : TokenKind → Parser β} (h : Proceeds q least (f s.current.kind) s) :
    Proceeds q least (peekKind >>= f) s :=
  h

/-- Looking at how many tokens are left consumes nothing. -/
theorem remaining_bind {f : Nat → Parser β} (h : Proceeds q least (f s.rest.length) s) :
    Proceeds q least (remaining >>= f) s :=
  h

/-- An error leaves the parser where it is. -/
theorem unexpected (what : Expectation) : Proceeds q least (Parser.unexpected what : Parser α) s :=
  ⟨.refl s, what, rfl⟩

/-- A number is handed out, and no token is read. -/
theorem freshId_bind {f : NodeId → Parser β}
    (h : Proceeds q least (f ⟨s.nextId⟩) { s with nextId := s.nextId + 1 }) :
    Proceeds q least (freshId >>= f) s := by
  have hfresh : Proceeds q 0 freshId s := ParserState.Onward.nextId (s.nextId + 1)
  refine (hfresh.bind_add fun id s' hrun => ?_).weaken (Nat.le_add_left _ _)
  obtain ⟨rfl, rfl⟩ := EStateM.Result.ok.inj hrun
  exact h

/-- An error that is only noted leaves the parser where it is. -/
theorem reportHere {fault : SyntaxFault} (hfault : fault.isStructural = false) :
    Proceeds q 0 (reportHere fault) s :=
  (ParserState.Onward.refl s).report hfault

/-- A token that is not the one for the end is consumed. -/
theorem next {kind : TokenKind} (h : s.current.kind = kind) (hend : kind ≠ .eof) (hq : q kind) :
    Proceeds q 1 next s :=
  ParserState.Onward.advance (by simpa [ParserState.atEnd, h] using hend) (h ▸ hq)

/-- An optional token is consumed or not, and is of an allowed kind if it is. -/
theorem accept? {kinds : TokenKind → Bool} (hq : ∀ kind, kinds kind → q kind) :
    Proceeds q 0 (accept? kinds) s := by
  unfold Proceeds
  rw [accept?_run]
  cases h : !s.atEnd && kinds s.current.kind with
  | true =>
    simp only [Bool.and_eq_true, Bool.not_eq_true'] at h
    exact (ParserState.Onward.advance h.1 (hq _ h.2)).weaken (Nat.zero_le 1)
  | false => exact ParserState.Onward.refl s

/-- An optional token of one kind is consumed or not. -/
theorem accept {kind : TokenKind} (hq : q kind) : Proceeds q 0 (accept kind) s :=
  (accept? fun _ h => of_decide_eq_true h ▸ hq).bind fun _ _ => pure _

/-- Behind a parser an error is noted at the token where it began. -/
theorem noting {fault : SyntaxFault} (hp : Proceeds q least p s)
    (hfault : fault.isStructural = false) (b : β) : Proceeds q least (p >>= fun _ => do
      modify (·.report (s.errorHere fault))
      return b) s := by
  unfold Proceeds at hp ⊢
  rw [EStateM.run_bind]
  -- the error is noted only if the parser succeeds
  cases hrun : p.run s with
  | error e s' =>
    rw [hrun] at hp
    exact hp
  | ok a s' =>
    rw [hrun] at hp
    exact hp.report hfault

/-- Looking for a kind consumes nothing. -/
theorem looksAt (kind : TokenKind) : Proceeds q 0 (looksAt kind) s :=
  get_bind (pure _)

/-- An expected token is consumed, unless the parser fails. -/
theorem expect {kind : TokenKind} (hq : q kind) (what : Expectation) :
    Proceeds q 1 (expect kind what) s := by
  unfold Proceeds
  rw [expect_run]
  cases h : !s.atEnd && decide (s.current.kind = kind) with
  | true =>
    simp only [Bool.and_eq_true, Bool.not_eq_true', decide_eq_true_eq] at h
    exact ParserState.Onward.advance h.1 (h.2 ▸ hq)
  | false => exact ⟨.refl s, what, rfl⟩

end Proceeds

/-! ## Expressions -/

section Expressions

variable (hq : ∀ kind, kind ≠ .semicolon → q kind)

include hq

/-- Each round of a list reads one item at least as far as the item goes. -/
theorem commaSeparated_loop_proceeds {item : Parser α} {tooMany : SyntaxFault}
    (htooMany : tooMany.isStructural = false) (h : ∀ s, Proceeds q least item s)
    (bound count : Nat) (s : ParserState) :
    Proceeds q least (commaSeparated.loop item tooMany bound count) s := by
  -- too many items are noted as an error and read all the same
  have hreport (count : Nat) {p : Parser (List α)} (hp : ∀ s, Proceeds q least p s)
      (s : ParserState) : Proceeds q least
        (if maxArguments ≤ count then reportHere tooMany >>= fun _ => p else p) s := by
    split
    · exact .bind_last (.reportHere htooMany) fun _ s' => hp s'
    · exact hp s
  induction bound generalizing count s with
  | zero => exact hreport count (fun s => .bind (h s) fun a _ => .pure [a]) s
  | succ bound ih =>
    refine hreport count (fun s => .bind (h s) fun a s₁ =>
      .bind (.accept (hq .comma nofun)) fun b s₂ => ?_) s
    cases b with
    | false => exact .pure [a]
    | true => exact .bind (ih (count + 1) s₂).any fun as _ => .pure (a :: as)

/-- A list may be empty, so nothing has to be consumed. -/
theorem commaSeparated_proceeds {item : Parser α} {tooMany : SyntaxFault}
    (htooMany : tooMany.isStructural = false) (h : ∀ s, Proceeds q least item s)
    (s : ParserState) : Proceeds q 0 (commaSeparated item tooMany) s := by
  refine .bind (.looksAt _) fun b s' => ?_
  cases b with
  | true => exact .pure []
  | false =>
    exact .remaining_bind (commaSeparated_loop_proceeds hq htooMany h _ 0 s').any

variable {nested operand : Parser Expr}

omit hq in
/-- A chain of operators goes on from its left operand. -/
theorem leftAssociative_loop_proceeds {isOperator : TokenKind → Bool}
    {node : Token → Expr → Expr → Expr} (hop : ∀ kind, isOperator kind → q kind)
    (h : ∀ s, Proceeds q 1 operand s) (bound : Nat) (left : Expr) (s : ParserState) :
    Proceeds q 0 (leftAssociative.loop isOperator node operand bound left) s := by
  induction bound generalizing left s with
  | zero => exact .pure left
  | succ bound ih =>
    refine .bind (.accept? hop) fun op s₁ => ?_
    cases op with
    | none => exact .pure left
    | some op => exact .bind (h s₁).any fun right s₂ => ih _ s₂

/-- A level consumes what its operands consume, and operators. -/
theorem level_proceeds {l : Level} (h : ∀ s, Proceeds q 1 (operandParser nested l) s)
    (s : ParserState) : Proceeds q 1 (levelParser nested l) s := by
  rw [levelParser_eq]
  refine .bind (h s) fun left s₁ => .remaining_bind (leftAssociative_loop_proceeds ?_ h _ left s₁)
  intro kind hkind
  refine hq kind ?_
  rintro rfl
  cases l <;> simp [Level.operators] at hkind

/-- A primary expression consumes a token at least. -/
theorem primary_proceeds (h : ∀ s, Proceeds q 1 nested s) (s : ParserState) :
    Proceeds q 1 (primary nested) s := by
  refine .peekKind_bind ?_
  -- one case for each kind of token that starts a primary expression, and one for the others
  split <;> rename_i hkind
  · exact .bind (.next hkind nofun (hq _ nofun)) fun _ _ => .pure _
  · exact .bind (.next hkind nofun (hq _ nofun)) fun _ _ => .pure _
  · exact .bind (.next hkind nofun (hq _ nofun)) fun _ _ => .pure _
  · exact .bind (.next hkind nofun (hq _ nofun)) fun _ _ => .pure _
  · exact .bind (.next hkind nofun (hq _ nofun)) fun _ _ => .pure _
  · exact .freshId_bind (.bind (.next hkind nofun (hq _ nofun)) fun _ _ => .pure _)
  · exact .freshId_bind (.bind (.next hkind nofun (hq _ nofun)) fun _ _ => .pure _)
  · refine .bind (.next hkind nofun (hq _ nofun)) fun _ s₁ => ?_
    refine .bind (.any (.expect (hq .dot nofun) _)) fun _ s₂ => ?_
    exact .bind (.any (.expect (hq .identifier nofun) _)) fun _ s₃ => .freshId_bind (.pure _)
  · refine .bind (.next hkind nofun (hq _ nofun)) fun _ s₁ => .bind (h s₁).any fun inner s₂ => ?_
    exact .bind (.any (.expect (hq .rightParen nofun) _)) fun _ _ => .pure _
  · exact .unexpected _

/-- Calls and properties behind an expression go on from it. -/
theorem postfixes_proceeds (h : ∀ s, Proceeds q 1 nested s) (bound : Nat) (left : Expr)
    (s : ParserState) : Proceeds q 0 (postfixes nested bound left) s := by
  induction bound generalizing left s with
  | zero => exact .pure left
  | succ bound ih =>
    refine .bind (.accept (hq .leftParen nofun)) fun b s₁ => ?_
    -- a call, or else a property, or else neither
    cases b with
    | true =>
      refine .bind (commaSeparated_proceeds hq rfl h s₁) fun arguments s₂ => ?_
      exact .bind (.any (.expect (hq .rightParen nofun) _)) fun paren s₃ => ih _ s₃
    | false =>
      refine .bind (.accept (hq .dot nofun)) fun b s₂ => ?_
      cases b with
      | true => exact .bind (.any (.expect (hq .identifier nofun) _)) fun name s₃ => ih _ s₃
      | false => exact .pure left

/-- A call consumes a token at least, that of its callee. -/
theorem call_proceeds (h : ∀ s, Proceeds q 1 nested s) (s : ParserState) :
    Proceeds q 1 (call nested) s :=
  .bind (primary_proceeds hq h s) fun left s' =>
    .remaining_bind (postfixes_proceeds hq h _ left s')

/-- There need not be any unary operator. -/
theorem unaryOperators_proceeds (bound : Nat) (s : ParserState) :
    Proceeds q 0 (unaryOperators bound) s := by
  induction bound generalizing s with
  | zero => exact .pure []
  | succ bound ih =>
    refine .bind (.accept? fun kind hkind => hq kind ?_) fun op s₁ => ?_
    · rintro rfl
      simp [isUnary] at hkind
    · cases op with
      | none => exact .pure []
      | some op => exact .bind (ih s₁) fun ops _ => .pure (op :: ops)

/-- A unary expression consumes a token at least, that of its operand. -/
theorem unary_proceeds (h : ∀ s, Proceeds q 1 nested s) (s : ParserState) :
    Proceeds q 1 (unary nested) s :=
  .remaining_bind (.bind_last (unaryOperators_proceeds hq _ s) fun _ s₁ =>
    .bind (call_proceeds hq h s₁) fun _ _ => .pure _)

/-- Every level of binary operators consumes a token at least, from factors up to `or`. -/
theorem disjunction_proceeds (h : ∀ s, Proceeds q 1 nested s) (s : ParserState) :
    Proceeds q 1 (disjunction nested) s := by
  have hfactor := @level_proceeds q hq nested .factor (unary_proceeds hq h)
  have hterm := @level_proceeds q hq nested .term hfactor
  have hcomparison := @level_proceeds q hq nested .comparison hterm
  have hequality := @level_proceeds q hq nested .equality hcomparison
  have hconjunction := @level_proceeds q hq nested .conjunction hequality
  exact @level_proceeds q hq nested .disjunction hconjunction s

/-- The error of an assignment is noted behind its value, but it is at the equals sign. -/
theorem assignment_proceeds (h : ∀ s, Proceeds q 1 nested s) (s : ParserState) :
    Proceeds q 1 (assignment nested) s := by
  refine .bind (disjunction_proceeds hq h s) fun target s₁ => .get_bind ?_
  have hvalue : Proceeds q 0 (accept .equal >>= fun _ => nested) s₁ :=
    .bind (.accept (hq _ (by decide))) fun _ s₂ => (h s₂).any
  have hrun := accept_run .equal s₁
  -- the value is read after the equals sign or not at all, so the two can be read as one
  have hassigned {node : Expr → Parser Expr}
      (hnode : Proceeds q 0 ((accept .equal >>= fun _ => nested) >>= node) s₁) : Proceeds q 0 (do
        if ← accept .equal then
          let value ← nested
          node value
        else
          return target) s₁ := by
    split at hrun
    · refine hnode.congr ?_
      rw [EStateM.run_bind, hrun, bind_assoc, EStateM.run_bind, hrun]
      rfl
    · refine (Proceeds.pure target).congr ?_
      rw [EStateM.run_bind, hrun]
      rfl
  cases target with
  | var id name => exact hassigned (.bind hvalue fun value _ => .freshId_bind (.pure _))
  | get object name => exact hassigned (.bind hvalue fun value _ => .pure _)
  | _ => exact hassigned (hvalue.noting rfl _)

/-- An expression of any depth consumes a token at least. -/
theorem expression_proceeds (depth : Nat) (s : ParserState) :
    Proceeds q 1 (expression depth) s := by
  induction depth generalizing s with
  | zero => exact .unexpected _
  | succ depth ih => exact assignment_proceeds hq ih s

/-- An expression consumes a token at least. -/
theorem fullExpression_proceeds (s : ParserState) : Proceeds q 1 fullExpression s :=
  .remaining_bind (expression_proceeds hq _ s)

/-- An expression that may be missing need not consume anything. -/
theorem expressionUnless_proceeds (kind : TokenKind) (s : ParserState) :
    Proceeds q 0 (expressionUnless kind) s := by
  refine .bind (.looksAt _) fun b s' => ?_
  cases b with
  | true => exact .pure none
  | false => exact (fullExpression_proceeds hq s').map.any

end Expressions

/-! ## Statements -/

section Statements

variable (hq : ∀ kind, q kind) {nestedStatement : Parser Stmt} {nested : Parser (Option Stmt)}

include hq

omit hq in
/-- The declarations of a block may be none. -/
theorem declarations_proceeds (h : ∀ s, Proceeds q 0 nested s) (bound : Nat) (s : ParserState) :
    Proceeds q 0 (declarations nested bound) s := by
  induction bound generalizing s with
  | zero => exact .pure []
  | succ bound ih =>
    refine .get_bind ?_
    split
    · exact .pure []
    · exact .bind (h s) fun first s₁ => .bind (ih s₁) fun rest _ => .pure _

/-- A block consumes its right brace at least. -/
theorem block_proceeds (h : ∀ s, Proceeds q 0 nested s) (s : ParserState) :
    Proceeds q 1 (block nested) s :=
  .remaining_bind (.bind_last (declarations_proceeds h _ s) fun body _ =>
    .bind (.expect (hq _) _) fun _ _ => .pure body)

/-- A function consumes its name at least. -/
theorem function_proceeds (h : ∀ s, Proceeds q 0 nested s) (method : Bool) (s : ParserState) :
    Proceeds q 1 (function method nested) s := by
  refine .bind (.expect (hq _) _) fun name s₁ => .bind (.any (.expect (hq _) _)) fun _ s₂ => ?_
  refine .bind (commaSeparated_proceeds (fun kind _ => hq kind) rfl
    (fun s => .expect (hq _) _) s₂) fun params s₃ => ?_
  refine .bind (.any (.expect (hq _) _)) fun _ s₄ => .bind (.any (.expect (hq _) _)) fun _ s₅ => ?_
  exact .bind (block_proceeds hq h s₅).any fun body _ => .pure _

/-- The methods of a class may be none. -/
theorem methods_proceeds (h : ∀ s, Proceeds q 0 nested s) (bound : Nat) (s : ParserState) :
    Proceeds q 0 (methods nested bound) s := by
  induction bound generalizing s with
  | zero => exact .pure []
  | succ bound ih =>
    refine .get_bind ?_
    split
    · exact .pure []
    · exact .bind (function_proceeds hq h true s).any fun first s₁ => .bind (ih s₁) fun rest _ =>
        .pure _

/-- A class consumes its name at least. -/
theorem classDeclaration_proceeds (h : ∀ s, Proceeds q 0 nested s) (s : ParserState) :
    Proceeds q 1 (classDeclaration nested) s := by
  refine .bind (.expect (hq _) _) fun name s₁ => .bind (.accept (hq _)) fun b s₂ => ?_
  -- behind the superclass a class goes on in the same way with or without it
  have hbody (superclass : Option Expr) (s : ParserState) : Proceeds q 0 (do
      let _ ← expect .leftBrace .classBodyStart
      let methods ← methods nested (← remaining)
      let _ ← expect .rightBrace .classBodyEnd
      return Stmt.classDecl ⟨name, superclass, methods⟩) s :=
    .bind (.any (.expect (hq _) _)) fun _ s₃ => .remaining_bind <|
      .bind (methods_proceeds hq h _ s₃) fun methods s₄ =>
        .bind (.any (.expect (hq _) _)) fun _ _ => .pure _
  cases b with
  | false => exact hbody none s₂
  | true =>
    exact .bind (.any (.expect (hq _) _)) fun superName s₃ => .freshId_bind (hbody (some _) _)

/-- A variable declaration consumes its name at least. -/
theorem varDeclaration_proceeds (s : ParserState) : Proceeds q 1 varDeclaration s := by
  refine .bind (.expect (hq _) _) fun name s₁ => .bind (.accept (hq _)) fun b s₂ => ?_
  have hend (initializer : Option Expr) (s : ParserState) : Proceeds q 0 (do
      let _ ← expect .semicolon .variableEnd
      return Stmt.varDecl name initializer) s :=
    .bind (.any (.expect (hq _) _)) fun _ _ => .pure _
  cases b with
  | false => exact hend none s₂
  | true =>
    exact .bind (fullExpression_proceeds (fun kind _ => hq kind) s₂).map.any fun initializer s₃ =>
      hend initializer s₃

/-- An expression statement consumes its semicolon at least. -/
theorem expressionStatement_proceeds (s : ParserState) : Proceeds q 1 expressionStatement s :=
  .bind (fullExpression_proceeds (fun kind _ => hq kind) s) fun _ _ =>
    .bind (.any (.expect (hq _) _)) fun _ _ => .pure _

/-- The initializer of a `for` statement may be missing. -/
theorem forInitializer_proceeds (s : ParserState) : Proceeds q 0 forInitializer s := by
  refine .bind (.accept (hq _)) fun b s₁ => ?_
  cases b with
  | true => exact .pure none
  | false =>
    refine .bind (.accept (hq _)) fun b s₂ => ?_
    cases b with
    | true => exact (varDeclaration_proceeds hq s₂).map.any
    | false => exact (expressionStatement_proceeds hq s₂).map.any

/-- A `for` statement consumes its left parenthesis at least. -/
theorem forStatement_proceeds (h : ∀ s, Proceeds q 1 nestedStatement s) (s : ParserState) :
    Proceeds q 1 (forStatement nestedStatement) s := by
  refine .bind (.expect (hq _) _) fun _ s₁ => ?_
  refine .bind (forInitializer_proceeds hq s₁) fun initializer s₂ => ?_
  refine .bind (expressionUnless_proceeds (fun kind _ => hq kind) _ s₂) fun condition s₃ => ?_
  refine .bind (.any (.expect (hq _) _)) fun _ s₄ => ?_
  refine .bind (expressionUnless_proceeds (fun kind _ => hq kind) _ s₄) fun increment s₅ => ?_
  exact .bind (.any (.expect (hq _) _)) fun _ s₆ => .bind (h s₆).any fun body _ => .pure _

/-- An `if` statement consumes its left parenthesis at least. -/
theorem ifStatement_proceeds (h : ∀ s, Proceeds q 1 nestedStatement s) (s : ParserState) :
    Proceeds q 1 (ifStatement nestedStatement) s := by
  refine .bind (.expect (hq _) _) fun _ s₁ => ?_
  refine .bind (fullExpression_proceeds (fun kind _ => hq kind) s₁).any fun condition s₂ => ?_
  refine .bind (.any (.expect (hq _) _)) fun _ s₃ => .bind (h s₃).any fun thenBranch s₄ => ?_
  refine .bind (.accept (hq _)) fun b s₅ => ?_
  cases b with
  | false => exact .pure _
  | true => exact .bind (h s₅).map.any fun elseBranch _ => .pure _

/-- A `while` statement consumes its left parenthesis at least. -/
theorem whileStatement_proceeds (h : ∀ s, Proceeds q 1 nestedStatement s) (s : ParserState) :
    Proceeds q 1 (whileStatement nestedStatement) s := by
  refine .bind (.expect (hq _) _) fun _ s₁ => ?_
  refine .bind (fullExpression_proceeds (fun kind _ => hq kind) s₁).any fun condition s₂ => ?_
  exact .bind (.any (.expect (hq _) _)) fun _ s₃ => .bind (h s₃).any fun body _ => .pure _

/-- A `return` statement consumes its semicolon at least. -/
theorem returnStatement_proceeds (keyword : Token) (s : ParserState) :
    Proceeds q 1 (returnStatement keyword) s :=
  .bind_last (expressionUnless_proceeds (fun kind _ => hq kind) _ s) fun _ _ =>
    .bind (.expect (hq _) _) fun _ _ => .pure _

/-- A `print` statement consumes its semicolon at least. -/
theorem printStatement_proceeds (s : ParserState) : Proceeds q 1 printStatement s :=
  .bind (fullExpression_proceeds (fun kind _ => hq kind) s) fun _ _ =>
    .bind (.any (.expect (hq _) _)) fun _ _ => .pure _

/-- A statement that declares nothing consumes a token at least. -/
theorem plainStatement_proceeds (h : ∀ s, Proceeds q 1 nestedStatement s)
    (h' : ∀ s, Proceeds q 0 nested s) (s : ParserState) :
    Proceeds q 1 (plainStatement nestedStatement nested) s := by
  refine .peekKind_bind ?_
  -- the keyword is consumed here, so the statement behind it need not consume anything
  split <;> rename_i hkind
  · exact .bind (.next hkind nofun (hq _)) fun _ s₁ => (forStatement_proceeds hq h s₁).any
  · exact .bind (.next hkind nofun (hq _)) fun _ s₁ => (ifStatement_proceeds hq h s₁).any
  · exact .bind (.next hkind nofun (hq _)) fun _ s₁ => (whileStatement_proceeds hq h s₁).any
  · exact .bind (.next hkind nofun (hq _)) fun t s₁ => (returnStatement_proceeds hq t s₁).any
  · exact .bind (.next hkind nofun (hq _)) fun _ s₁ =>
      .bind (block_proceeds hq h' s₁).any fun body _ => .pure _
  · exact .bind (.next hkind nofun (hq _)) fun _ s₁ => (printStatement_proceeds hq s₁).any
  · exact expressionStatement_proceeds hq s

/-- A statement of any kind consumes a token at least. -/
theorem anyStatement_proceeds (h : ∀ s, Proceeds q 1 nestedStatement s)
    (h' : ∀ s, Proceeds q 0 nested s) (s : ParserState) :
    Proceeds q 1 (anyStatement nestedStatement nested) s := by
  refine .peekKind_bind ?_
  split <;> rename_i hkind
  · exact .bind (.next hkind nofun (hq _)) fun _ s₁ => (classDeclaration_proceeds hq h' s₁).any
  · exact .bind (.next hkind nofun (hq _)) fun _ s₁ =>
      .bind (function_proceeds hq h' false s₁).any fun d _ => .pure _
  · exact .bind (.next hkind nofun (hq _)) fun _ s₁ => (varDeclaration_proceeds hq s₁).any
  · exact plainStatement_proceeds hq h h' s

/-- Whoever catches errors never fails, and leaves at least one token less if there is one. -/
theorem recovering_proceeds {p : Parser Stmt} (h : Proceeds q 1 p s) :
    ∃ o s', (recovering p).run s = .ok o s' ∧ s.Onward q s.leastSkipped s' := by
  unfold Proceeds at h
  rw [recovering_run]
  cases hrun : p.run s with
  | ok stmt s' =>
    rw [hrun] at h
    exact ⟨_, _, rfl, h.weaken s.leastSkipped_le⟩
  | error e s' =>
    rw [hrun] at h
    obtain ⟨hfailed, what, rfl⟩ := h
    -- if the statement has failed on its first token then recovery drops that one
    obtain ⟨least, honward, hle⟩ := hfailed.skipped
    exact ⟨_, _, rfl, (honward.trans (s'.onward_recover what hq)).weaken hle⟩

/-- A statement consumes a token at least. A declaration never fails, because it recovers, and then
    has dropped at least what recovery drops. -/
theorem statement_declaration_proceeds (depth : Nat) :
    (∀ s, Proceeds q 1 (statement depth) s) ∧
      ∀ s, ∃ o s', (declaration depth).run s = .ok o s' ∧ s.Onward q s.leastSkipped s' := by
  induction depth with
  | zero =>
    rw [statement, declaration]
    exact ⟨fun s => .unexpected _, fun s => recovering_proceeds hq (.unexpected _)⟩
  | succ depth ih =>
    -- a nested declaration never fails, and what it drops is not counted here
    have hnested (s : ParserState) : Proceeds q 0 (declaration depth) s := by
      obtain ⟨o, s', hrun, honward⟩ := ih.2 s
      unfold Proceeds
      rw [hrun]
      exact honward.weaken (Nat.zero_le _)
    rw [statement, declaration]
    exact ⟨plainStatement_proceeds hq ih.1 hnested,
      fun s => recovering_proceeds hq (anyStatement_proceeds hq ih.1 hnested s)⟩

/-- A statement of any depth consumes a token at least. -/
theorem statement_proceeds (depth : Nat) (s : ParserState) : Proceeds q 1 (statement depth) s :=
  (statement_declaration_proceeds hq depth).1 s

/-- A declaration never fails, and at least one token is consumed if there is one. -/
theorem declaration_proceeds (depth : Nat) (s : ParserState) :
    ∃ o s', (declaration depth).run s = .ok o s' ∧ s.Onward q s.leastSkipped s' :=
  (statement_declaration_proceeds hq depth).2 s

/-- A declaration moves forward. -/
theorem declaration_proceeds_any (depth : Nat) (s : ParserState) :
    Proceeds q 0 (declaration depth) s := by
  obtain ⟨o, s', hrun, honward⟩ := declaration_proceeds hq depth s
  unfold Proceeds
  rw [hrun]
  exact honward.weaken (Nat.zero_le _)

/-- A program goes on from where it starts. -/
theorem program_proceeds (bound : Nat) (s : ParserState) : Proceeds q 0 (program bound) s := by
  induction bound generalizing s with
  | zero => exact .pure []
  | succ bound ih =>
    refine .get_bind ?_
    split
    · exact .pure []
    · exact .bind (declaration_proceeds_any hq _ s) fun first s₁ => .bind (ih s₁) fun rest _ =>
        .pure _

end Statements

/-- Each round of a loop leaves a token less. -/
theorem declaration_length_lt {depth : Nat} {o : Option Stmt} {s s' : ParserState}
    (hend : s.atEnd = false) (hrun : (declaration depth).run s = .ok o s') :
    s'.rest.length < s.rest.length := by
  obtain ⟨o', s'', hrun', honward⟩ := declaration_proceeds (fun _ => trivial) depth s
  obtain ⟨rfl, rfl⟩ := EStateM.Result.ok.inj (hrun.symm.trans hrun')
  have hlength := honward.length_le
  rwa [ParserState.leastSkipped_eq_one hend] at hlength

/-- The run of a loop whose rounds are declarations, if it goes on behind the first. -/
private theorem run_round {loop : Parser (List Stmt)} {depth : Nat} {o : Option Stmt}
    {body : List Stmt} {s s₁ s₂ : ParserState} (hfirst : (declaration depth).run s = .ok o s₁)
    (hloop : loop.run s₁ = .ok body s₂) :
    (do let first ← declaration depth; return first.toList ++ (← loop)).run s =
      .ok (o.toList ++ body) s₂ := by
  rw [EStateM.run_bind, hfirst]
  dsimp only
  rw [EStateM.run_bind, hloop]
  rfl

/-- The loop over a block only stops before a closing brace or at the end, if there are as many
    rounds as tokens: each round leaves a token less. -/
theorem declarations_run (depth bound : Nat) (s : ParserState) (hbound : s.rest.length ≤ bound) :
    ∃ body s', (declarations (declaration depth) bound).run s = .ok body s' ∧
      s.Onward (fun _ => True) 0 s' ∧ (s'.atEnd ∨ s'.current.kind = .rightBrace) := by
  induction bound generalizing s with
  | zero => exact ⟨[], s, rfl, .refl s, .inl (ParserState.atEnd_of_length_le_zero hbound)⟩
  | succ bound ih =>
    have hrun : (declarations (declaration depth) (bound + 1)).run s =
        EStateM.run (if s.atEnd || s.current.kind = .rightBrace then pure [] else do
          let first ← declaration depth
          return first.toList ++ (← declarations (declaration depth) bound)) s := rfl
    rw [hrun]
    split <;> rename_i hstop
    · exact ⟨[], s, rfl, .refl s, by simpa using hstop⟩
    · simp only [Bool.or_eq_true, decide_eq_true_eq, not_or, Bool.not_eq_true] at hstop
      obtain ⟨o, s₁, hfirst, honward⟩ := declaration_proceeds (fun _ => trivial) depth s
      -- the round has consumed a token, so the others have enough rounds left
      have hlength := declaration_length_lt hstop.1 hfirst
      obtain ⟨body, s₂, hrest, honward', hstop⟩ := ih s₁ (by omega)
      exact ⟨_, s₂, run_round hfirst hrest, (honward.trans honward').weaken (Nat.zero_le _), hstop⟩

/-- A program in front of the end is a declaration and a program behind it. -/
theorem program_run_cons {bound : Nat} {o : Option Stmt} {body : List Stmt}
    {s s₁ s₂ : ParserState} (hend : s.atEnd = false)
    (hfirst : (declaration s.rest.length).run s = .ok o s₁)
    (hrest : (program bound).run s₁ = .ok body s₂) :
    (program (bound + 1)).run s = .ok (o.toList ++ body) s₂ := by
  have hrun : (program (bound + 1)).run s = EStateM.run (if s.atEnd then pure [] else do
        let first ← declaration s.rest.length
        return first.toList ++ (← program bound)) s := rfl
  rw [hrun, if_neg (by simp [hend])]
  exact run_round hfirst hrest

/-- At the end of the text a program is over. -/
theorem program_run_atEnd {s : ParserState} (hend : s.atEnd) (bound : Nat) :
    (program bound).run s = .ok [] s := by
  cases bound with
  | zero => rfl
  | succ bound =>
    show EStateM.run (if s.atEnd then _ else _) s = _
    rw [if_pos hend]
    rfl

/-- The loop over a program only stops at the end, if there are as many rounds as tokens. -/
theorem program_run (bound : Nat) (s : ParserState) (hbound : s.rest.length ≤ bound) :
    ∃ body s', (program bound).run s = .ok body s' ∧ s.Onward (fun _ => True) 0 s' ∧ s'.atEnd := by
  induction bound generalizing s with
  | zero => exact ⟨[], s, rfl, .refl s, ParserState.atEnd_of_length_le_zero hbound⟩
  | succ bound ih =>
    cases hend : s.atEnd with
    | true => exact ⟨[], s, program_run_atEnd hend _, .refl s, hend⟩
    | false =>
      obtain ⟨o, s₁, hfirst, honward⟩ := declaration_proceeds (fun _ => trivial) s.rest.length s
      -- the round has consumed a token, so the others have enough rounds left
      have hlength := declaration_length_lt hend hfirst
      obtain ⟨body, s₂, hrest, honward', hend'⟩ := ih s₁ (by omega)
      exact ⟨_, s₂, program_run_cons hend hfirst hrest,
        (honward.trans honward').weaken (Nat.zero_le _), hend'⟩

end Parser

end Lox
