import Lox.Proofs.Grammar
import Lox.Syntax.Parser.Stmt

/-!
# What is parsed without errors is derived

`Sound` says what a parser has read when it succeeds and has noted no error: the tokens taken off
the front, and a relation between them, the result and the state behind them. It is proved of every
parser from that of the parsers it is made of. The relation of a composed parser is found from the
end: after each step, `Sound.bind` leaves to show what follows once the rest has been read.

## Key results

- `ParserState.Grows`: identities and errors are only added
- `expression_sound`, `statement_declaration_sound`: what is read is derived by the grammar
- `program_sound`: a program without errors is derived from all its tokens
-/

namespace Lox

namespace ParserState

/-- Identities and errors are only added. -/
structure Grows (s s' : ParserState) : Prop where
  nextId : s.nextId ≤ s'.nextId
  errors : s.errors.size ≤ s'.errors.size

variable {s s' s'' : ParserState}

theorem Grows.refl (s : ParserState) : s.Grows s :=
  ⟨Nat.le_refl _, Nat.le_refl _⟩

theorem Grows.trans (h : s.Grows s') (h' : s'.Grows s'') : s.Grows s'' :=
  ⟨Nat.le_trans h.nextId h'.nextId, Nat.le_trans h.errors h'.errors⟩

/-- Noting an error gives no number. -/
theorem grows_report (e : SyntaxError) (s : ParserState) : s.Grows (s.report e) :=
  ⟨Nat.le_refl _, by simp [report]⟩

/-- Recovery gives no number. -/
@[simp] theorem recover_nextId (s : ParserState) : s.recover.nextId = s.nextId := by
  unfold recover
  split <;> rfl

/-- Recovery notes no error. -/
@[simp] theorem recover_errors (s : ParserState) : s.recover.errors = s.errors := by
  unfold recover
  split <;> rfl

/-- Advancing gives no number. -/
@[simp] theorem advance_nextId (s : ParserState) : s.advance.nextId = s.nextId := by
  unfold advance
  split <;> rfl

/-- Advancing notes no error. -/
@[simp] theorem advance_errors (s : ParserState) : s.advance.errors = s.errors := by
  unfold advance
  split <;> rfl

/-- A token that can be consumed stands at the front. -/
theorem rest_eq_of_not_atEnd (h : ¬ s.atEnd) : s.rest = s.current :: s.advance.rest := by
  cases hr : s.rest with
  | nil => simp [atEnd, current, hr, Token.eof] at h
  | cons t rest => simp [advance, h, current, hr]

end ParserState

namespace Parser

variable {α β : Type} {s : ParserState}

/-- `accept?` yields the current token if it is one of those looked for, and then consumes it. -/
theorem accept?_run (kinds : TokenKind → Bool) (s : ParserState) : (accept? kinds).run s =
    if !s.atEnd && kinds s.current.kind then .ok (some s.current) s.advance else .ok none s := by
  show EStateM.run (if !s.atEnd && kinds s.current.kind then _ else _) s = _
  split <;> rfl

/-- What has been read: the number of the first referring node, the tokens, the result and the
    number of the first referring node behind them. -/
abbrev Post (α : Type) : Type :=
  Nat → List Token → α → Nat → Prop

/-- If a parser succeeds and notes no error then the tokens that it consumes are related like this
    to its result. Whatever happens, identities and errors are only added. -/
def Sound (p : Parser α) (s : ParserState) (R : Post α) : Prop :=
  match p.run s with
  | .ok a s' => s.Grows s' ∧ (s'.errors.size = s.errors.size →
      ∃ ts, s.rest = ts ++ s'.rest ∧ (∀ t ∈ ts, t.kind ≠ .eof) ∧ R s.nextId ts a s'.nextId)
  | .error _ s' => s.Grows s'

/-! ## Steps -/

namespace Sound

variable {p : Parser α} {f : α → Parser β} {R R' : Post α} {R'' : Post β}

/-- What is known of a result may be weakened. -/
theorem mono (h : Sound p s R) (hR : ∀ n ts a n', R n ts a n' → R' n ts a n') : Sound p s R' := by
  unfold Sound at h ⊢
  cases hp : p.run s with
  | error e s' =>
    rw [hp] at h
    exact h
  | ok a s' =>
    rw [hp] at h
    refine ⟨h.1, fun hclean => ?_⟩
    obtain ⟨ts, hrest, hts, hr⟩ := h.2 hclean
    exact ⟨ts, hrest, hts, hR _ _ _ _ hr⟩

/-- What the first parser has read goes in front of what the second reads. -/
theorem bind (hp : Sound p s R)
    (hf : ∀ a s', p.run s = .ok a s' →
      Sound (f a) s' fun m ts' b n' => ∀ n ts, R n ts a m → R'' n (ts ++ ts') b n') :
    Sound (p >>= f) s R'' := by
  unfold Sound at hp ⊢
  simp only [EStateM.run_bind]
  cases h : p.run s with
  | error e s' =>
    rw [h] at hp
    exact hp
  | ok a s' =>
    rw [h] at hp
    have hf := hf a s' h
    unfold Sound at hf
    dsimp only at hp ⊢
    cases h' : (f a).run s' with
    | error e s'' =>
      rw [h'] at hf
      exact hp.1.trans hf
    | ok b s'' =>
      rw [h'] at hf
      refine ⟨hp.1.trans hf.1, fun hclean => ?_⟩
      -- no error overall means none in either part
      have := hp.1.errors
      have := hf.1.errors
      obtain ⟨ts, hrest, hts, hr⟩ := hp.2 (by omega)
      obtain ⟨ts', hrest', hts', hr'⟩ := hf.2 (by omega)
      refine ⟨ts ++ ts', by rw [hrest, hrest', List.append_assoc], ?_, hr' _ _ hr⟩
      intro t ht
      rcases List.mem_append.mp ht with ht | ht
      · exact hts t ht
      · exact hts' t ht

theorem pure {a : α} (h : R s.nextId [] a s.nextId) : Sound (Pure.pure a) s R :=
  ⟨.refl s, fun _ => ⟨[], rfl, nofun, h⟩⟩

/-- Yielding a value and going on is going on with it. -/
theorem pure_bind {a : α} (h : Sound (f a) s R'') : Sound (Pure.pure a >>= f) s R'' :=
  h

/-- What is known of a mapped result is known of the result before. -/
theorem map {g : α → β} (hp : Sound p s R) :
    Sound (g <$> p) s fun n ts b n' => ∃ a, b = g a ∧ R n ts a n' := by
  rw [← bind_pure_comp]
  refine bind hp fun a s' _ => pure ?_
  intro n ts hr
  exact ⟨a, rfl, by rwa [List.append_nil]⟩

/-- Looking at the state reads nothing. -/
theorem get_bind {f : ParserState → Parser β} (h : Sound (f s) s R'') :
    Sound (get >>= f) s R'' :=
  h

/-- Looking at a kind reads nothing. -/
theorem peekKind_bind {f : TokenKind → Parser β} (h : Sound (f s.current.kind) s R'') :
    Sound (peekKind >>= f) s R'' :=
  h

/-- Counting the tokens that are left reads nothing. -/
theorem remaining_bind {f : Nat → Parser β} (h : Sound (f s.rest.length) s R'') :
    Sound (remaining >>= f) s R'' :=
  h

/-- An error promises nothing about a result. -/
theorem unexpected (what : Expectation) (R : Post α) : Sound (Parser.unexpected what) s R :=
  ParserState.Grows.refl s

/-- A number is handed out, and no token is read. -/
theorem freshId_bind {f : NodeId → Parser β}
    (h : Sound (f ⟨s.nextId⟩) { s with nextId := s.nextId + 1 } fun m ts b n' =>
      m = s.nextId + 1 → R'' s.nextId ts b n') :
    Sound (freshId >>= f) s R'' := by
  unfold Sound at h ⊢
  -- only the count moves, so what the rest reads is what all of it reads
  have hrun : (freshId >>= f).run s = (f ⟨s.nextId⟩).run { s with nextId := s.nextId + 1 } := rfl
  rw [hrun]
  cases hf : (f ⟨s.nextId⟩).run { s with nextId := s.nextId + 1 } with
  | error e s' =>
    rw [hf] at h
    exact ⟨Nat.le_of_succ_le h.nextId, h.errors⟩
  | ok b s' =>
    rw [hf] at h
    refine ⟨⟨Nat.le_of_succ_le h.1.nextId, h.1.errors⟩, fun hclean => ?_⟩
    obtain ⟨ts, hrest, hts, hr⟩ := h.2 hclean
    exact ⟨ts, hrest, hts, hr rfl⟩

/-- After a noted error nothing is claimed. -/
theorem of_report {p : Parser α} {e : SyntaxError} {s' : ParserState} {a : α} {R : Post α}
    (hrun : p.run s = .ok a s') (h : (s.report e).Grows s') : Sound p s R := by
  unfold Sound
  rw [hrun]
  have := h.errors
  refine ⟨(ParserState.grows_report e s).trans h, fun hclean => ?_⟩
  simp only [ParserState.report, Array.size_push] at this
  omega

/-- Noting an error promises nothing, because the parse is not free of errors then. -/
theorem reportHere (fault : SyntaxFault) (R : Post Unit) : Sound (Parser.reportHere fault) s R :=
  of_report rfl (.refl _)

/-- A token is consumed, unless the text is at its end. -/
theorem next_bind {f : Token → Parser β} (h : s.current.kind ≠ .eof)
    (hf : ∀ s', Sound (f s.current) s' fun n ts b n' => R'' n (s.current :: ts) b n') :
    Sound (next >>= f) s R'' := by
  -- away from the end the current token is the first of the rest
  have hnext : Sound next s fun n ts t n' => ts = [t] ∧ t = s.current ∧ n' = n := by
    refine ⟨⟨by simp, by simp⟩, fun _ => ⟨[s.current], ?_, ?_, rfl, rfl, by simp⟩⟩
    · exact ParserState.rest_eq_of_not_atEnd (by simpa [ParserState.atEnd] using h)
    · simpa using h
  refine .bind hnext fun t s' hrun => ?_
  have hrun : EStateM.Result.ok s.current s.advance = .ok t s' := hrun
  obtain ⟨rfl, rfl⟩ := EStateM.Result.ok.inj hrun
  refine (hf s.advance).mono ?_
  rintro m ts b n' hr n us ⟨rfl, -, rfl⟩
  exact hr

/-- A token is consumed if it is of such a kind. -/
theorem accept? (q : TokenKind → Bool) :
    Sound (Parser.accept? q) s fun n ts o n' => n' = n ∧
      match o with
      | none => ts = []
      | some t => ts = [t] ∧ q t.kind := by
  refine get_bind ?_
  split
  · rename_i h
    simp only [Bool.and_eq_true, Bool.not_eq_true'] at h
    refine ⟨⟨by simp, by simp⟩, fun _ => ⟨[s.current], ?_, ?_, by simp, rfl, h.2⟩⟩
    · exact ParserState.rest_eq_of_not_atEnd (by simp [h.1])
    · simpa [ParserState.atEnd] using h.1
  · exact pure ⟨rfl, rfl⟩

/-- An accepted token is of the kind looked for. -/
theorem accept (kind : TokenKind) :
    Sound (Parser.accept kind) s fun n ts b n' => n' = n ∧
      if b then ∃ t, ts = [t] ∧ t.kind = kind else ts = [] := by
  refine bind (accept? _) fun o s' _ => pure ?_
  rintro n ts ⟨rfl, h⟩
  cases o with
  | none => exact ⟨rfl, by simpa using h⟩
  | some t => exact ⟨rfl, t, by simpa using h⟩

/-- Looking for a kind reads nothing. -/
theorem looksAt (kind : TokenKind) :
    Sound (Parser.looksAt kind) s fun n ts _ n' => n' = n ∧ ts = [] :=
  get_bind (pure ⟨rfl, rfl⟩)

/-- An expected token is of the kind expected. -/
theorem expect (kind : TokenKind) (what : Expectation) :
    Sound (Parser.expect kind what) s fun n ts t n' =>
      n' = n ∧ ts = [t] ∧ t.kind = kind := by
  refine bind (accept? _) fun o s' _ => ?_
  cases o with
  | none => exact unexpected _ _
  | some t =>
    refine pure ?_
    rintro n ts ⟨rfl, rfl, h⟩
    exact ⟨rfl, rfl, by simpa using h⟩

end Sound

/-! ## Expressions -/

/-- Items separated by commas. -/
inductive Separated (R : Post α) : Post (List α)
  | last {n n' : Nat} {ts : List Token} {a : α} (h : R n ts a n') : Separated R n ts [a] n'
  | next {n m n' : Nat} {ts ts' : List Token} {comma : Token} {a : α} {as : List α}
      (h : R n ts a m) (hcomma : comma.kind = .comma) (hrest : Separated R m ts' as n') :
      Separated R n (ts ++ comma :: ts') (a :: as) n'

/-- An item too many is noted, so without errors there are not too many. -/
private theorem reportTooMany_sound {p : Parser (List α)} {R : Post (List α)} {count : Nat}
    {tooMany : SyntaxFault}
    (h : ∀ s, Sound p s fun n ts as n' => R n ts as n' ∧ (count < 255 → count + as.length ≤ 255)) :
    Sound (if maxArguments ≤ count then reportHere tooMany >>= fun _ => p else p) s
      fun n ts as n' => R n ts as n' ∧ count + as.length ≤ 255 := by
  split
  · exact .bind (.reportHere _ fun _ _ _ _ => False) fun _ _ _ => (h _).mono (by simp)
  · rename_i hcount
    refine (h s).mono fun n ts as n' hr => ⟨hr.1, hr.2 ?_⟩
    simpa [maxArguments] using hcount

/-- From the item with number `count` on there are items, and with the earlier ones at most 255. -/
theorem commaSeparated_loop_sound {item : Parser α} {R : Post α} {tooMany : SyntaxFault}
    (h : ∀ s, Sound item s R) (bound count : Nat) (s : ParserState) :
    Sound (commaSeparated.loop item tooMany bound count) s fun n ts as n' =>
      Separated R n ts as n' ∧ count + as.length ≤ 255 := by
  induction bound generalizing count s with
  | zero =>
    -- the count is only of interest below the limit: above it an error is noted
    have hone : ∀ s, Sound (do let first ← item; return [first]) s fun n ts as n' =>
        Separated R n ts as n' ∧ (count < 255 → count + as.length ≤ 255) := by
      refine fun s => .bind (h s) fun a s' _ => .pure fun n ts hr => ⟨?_, fun h => h⟩
      rw [List.append_nil]
      exact .last hr
    exact reportTooMany_sound hone
  | succ bound ih =>
    -- an item, and behind a comma the others, of which one more precedes
    have hmore : ∀ s, Sound (do
        let first ← item
        if ← Parser.accept .comma then
          return first :: (← commaSeparated.loop item tooMany bound (count + 1))
        else return [first]) s fun n ts as n' =>
        Separated R n ts as n' ∧ (count < 255 → count + as.length ≤ 255) := by
      refine fun s => .bind (h s) fun a s' _ => .bind (.accept _) fun b s'' _ => ?_
      cases b with
      | false =>
        refine .pure ?_
        rintro m ts' ⟨rfl, rfl⟩ n ts hr
        simp only [List.append_nil]
        exact ⟨.last hr, fun h => h⟩
      | true =>
        refine .bind (ih _ _) fun as s₃ _ => .pure ?_
        rintro m ts' ⟨hrest, hcount⟩ m' us ⟨rfl, comma, rfl, hcomma⟩ n ts hr
        simp only [List.append_nil, List.length_cons]
        exact ⟨.next hr hcomma hrest, by omega⟩
    exact reportTooMany_sound hmore

/-- A list has no items, or several between commas and at most 255. -/
theorem commaSeparated_sound {item : Parser α} {R : Post α} {tooMany : SyntaxFault}
    (h : ∀ s, Sound item s R) (s : ParserState) :
    Sound (commaSeparated item tooMany) s fun n ts as n' =>
      (ts = [] ∧ as = [] ∧ n' = n) ∨ (Separated R n ts as n' ∧ as.length ≤ 255) := by
  refine .bind (.looksAt _) fun b s' _ => ?_
  cases b with
  | true =>
    refine .pure ?_
    rintro n ts ⟨rfl, rfl⟩
    exact .inl ⟨rfl, rfl, rfl⟩
  | false =>
    refine .remaining_bind ((commaSeparated_loop_sound h _ 0 s').mono ?_)
    rintro n ts as n' ⟨hr, hcount⟩ m us ⟨rfl, rfl⟩
    -- the loop counts from 0, so its bound is that of the whole list
    exact .inr ⟨hr, by omega⟩

/-- What is read is derived as the phrase that the result is the tree of. -/
abbrev Derived (phrase : α → Phrase) : Post α :=
  fun n ts a n' => (phrase a).Derives n ts n'

/-- Expressions between commas are arguments. -/
theorem Separated.arguments {n n' : Nat} {ts : List Token} {es : List Expr}
    (h : Separated (Derived .expression) n ts es n') : (Phrase.arguments es).Derives n ts n' := by
  induction h with
  | last h => exact .lastArgument h
  | next h hcomma _ ih => exact .nextArgument h hcomma ih

variable {nested operand : Parser Expr} {l : Level}

/-- The parser of a level of operators. -/
def levelParser (nested : Parser Expr) : Level → Parser Expr
  | .disjunction => disjunction nested
  | .conjunction => conjunction nested
  | .equality => equality nested
  | .comparison => comparison nested
  | .term => term nested
  | .factor => factor nested

/-- The parser of the operands of a level. -/
def operandParser (nested : Parser Expr) : Level → Parser Expr
  | .disjunction => conjunction nested
  | .conjunction => equality nested
  | .equality => comparison nested
  | .comparison => term nested
  | .term => factor nested
  | .factor => unary nested

/-- Every level is read in the same way. -/
theorem levelParser_eq (nested : Parser Expr) (l : Level) : levelParser nested l =
    leftAssociative (· ∈ l.operators) l.node (operandParser nested l) := by
  cases l <;>
    simp only [levelParser, disjunction, conjunction, equality, comparison, term, factor] <;>
    congr 1 <;> funext kind <;> simp [Level.operators, Bool.or_assoc]

/-- What stands behind a left operand is a chain of operators of the level. -/
theorem leftAssociative_loop_sound (h : ∀ s, Sound operand s (Derived l.operand)) (bound : Nat)
    (left : Expr) (s : ParserState) :
    Sound (leftAssociative.loop (· ∈ l.operators) l.node operand bound left) s
      (Derived (.operands l left)) := by
  induction bound generalizing left s with
  | zero => exact .pure .lastOperand
  | succ bound ih =>
    refine .bind (.accept? _) fun o s' _ => ?_
    cases o with
    | none =>
      refine .pure ?_
      rintro n ts ⟨rfl, rfl⟩
      exact .lastOperand
    | some op =>
      -- the left operand grows with each round, so the claim is about any
      refine .bind (h s') fun right s'' _ => (ih _ s'').mono ?_
      rintro m ts e n' hrest n us hright k vs ⟨rfl, rfl, hkind⟩
      simpa using .nextOperand (of_decide_eq_true hkind) hright hrest

/-- A level is read as it is derived if its operands are. -/
theorem level_sound (h : ∀ s, Sound (operandParser nested l) s (Derived l.operand))
    (s : ParserState) : Sound (levelParser nested l) s (Derived (.level l)) := by
  rw [levelParser_eq]
  refine .bind (h s) fun left s' _ => .remaining_bind ?_
  exact (leftAssociative_loop_sound h _ left s').mono fun _ _ _ _ hrest _ _ hleft =>
    .level hleft hrest

/-- A primary expression is one of the grammar. -/
theorem primary_sound (h : ∀ s, Sound nested s (Derived .expression)) (s : ParserState) :
    Sound (primary nested) s (Derived .primary) := by
  refine .peekKind_bind ?_
  split <;> rename_i hkind
  · exact .next_bind (by simp [hkind]) fun s' => .pure (.literal (by rw [hkind]; rfl))
  · exact .next_bind (by simp [hkind]) fun s' => .pure (.literal (by rw [hkind]; rfl))
  · exact .next_bind (by simp [hkind]) fun s' => .pure (.literal (by rw [hkind]; rfl))
  · exact .next_bind (by simp [hkind]) fun s' => .pure (.literal (by rw [hkind]; rfl))
  · exact .next_bind (by simp [hkind]) fun s' => .pure (.literal (by rw [hkind]; rfl))
  · refine .freshId_bind (.next_bind (by exact hkind ▸ nofun) fun s' => .pure ?_)
    -- the identity of the node is the number given out before the name is consumed
    rintro hn
    rw [hn]
    exact .var hkind
  · refine .freshId_bind (.next_bind (by exact hkind ▸ nofun) fun s' => .pure ?_)
    rintro hn
    rw [hn]
    exact .this hkind
  · refine .next_bind (by simp [hkind]) fun s₁ => .bind (.expect _ _) fun dot s₂ _ =>
      .bind (.expect _ _) fun name s₃ _ => .freshId_bind (.pure ?_)
    rintro - m ts ⟨rfl, rfl, hname⟩ k us ⟨rfl, rfl, hdot⟩
    exact .super hkind hdot hname
  · refine .next_bind (by simp [hkind]) fun s₁ => .bind (h s₁) fun inner s₂ _ =>
      .bind (.expect _ _) fun rparen s₃ _ => .pure ?_
    rintro m ts ⟨rfl, rfl, hrparen⟩ k us hinner
    simpa using .grouping hkind hinner hrparen
  · exact .unexpected _ _

/-- What stands behind a callee are calls and properties. -/
theorem postfixes_sound (h : ∀ s, Sound nested s (Derived .expression)) (bound : Nat) (left : Expr)
    (s : ParserState) : Sound (postfixes nested bound left) s (Derived (.postfixes left)) := by
  induction bound generalizing left s with
  | zero => exact .pure .lastPostfix
  | succ bound ih =>
    refine .bind (.accept _) fun b s₁ _ => ?_
    cases b with
    | true =>
      refine .bind (commaSeparated_sound h s₁) fun es s₂ _ => .bind (.expect _ _) fun rparen s₃ _ =>
        (ih _ s₃).mono ?_
      rintro m ts e n' hrest k us ⟨rfl, rfl, hrparen⟩ k' us' hes n vs ⟨rfl, lparen, rfl, hlparen⟩
      -- no arguments, or some and not too many of them
      rcases hes with ⟨rfl, rfl, rfl⟩ | ⟨hes, hcount⟩
      · exact .emptyCall hlparen hrparen hrest
      · simpa using .callWith hlparen hes.arguments hcount hrparen hrest
    | false =>
      refine .bind (.accept _) fun b s₂ _ => ?_
      cases b with
      | true =>
        refine .bind (.expect _ _) fun name s₃ _ => (ih _ s₃).mono ?_
        rintro m ts e n' hrest k us ⟨rfl, rfl, hname⟩ k' us' ⟨rfl, dot, rfl, hdot⟩ n vs ⟨rfl, rfl⟩
        exact .property hdot hname hrest
      | false =>
        refine .pure ?_
        rintro k us ⟨rfl, rfl⟩ n vs ⟨rfl, rfl⟩
        exact .lastPostfix

/-- A call is one of the grammar. -/
theorem call_sound (h : ∀ s, Sound nested s (Derived .expression)) (s : ParserState) :
    Sound (call nested) s (Derived .call) := by
  refine .bind (primary_sound h s) fun left s' _ => .remaining_bind ?_
  exact (postfixes_sound h _ left s').mono fun _ _ _ _ hrest _ _ hleft => .call hleft hrest

/-- The operators in front of an operand are unary ones. -/
theorem unaryOperators_sound (bound : Nat) (s : ParserState) :
    Sound (unaryOperators bound) s fun n ts ops n' =>
      n' = n ∧ ts = ops ∧ ∀ op ∈ ops, op.kind ∈ [.bang, .minus] := by
  induction bound generalizing s with
  | zero => exact .pure ⟨rfl, rfl, nofun⟩
  | succ bound ih =>
    refine .bind (.accept? _) fun o s₁ _ => ?_
    cases o with
    | none =>
      refine .pure ?_
      rintro n ts ⟨rfl, rfl⟩
      exact ⟨rfl, rfl, nofun⟩
    | some op =>
      refine .bind (ih s₁) fun ops s₂ _ => .pure ?_
      -- the postconditions come in reverse, the last step first
      rintro m ts ⟨rfl, rfl, hops⟩ n us ⟨rfl, rfl, hop⟩
      refine ⟨rfl, by simp, ?_⟩
      intro t ht
      rcases List.mem_cons.mp ht with rfl | ht
      · simpa [isUnary] using hop
      · exact hops t ht

/-- Operators in front of an operand are part of the expression. -/
private theorem unary_derives {ops ts : List Token} {e : Expr} {n n' : Nat}
    (hops : ∀ op ∈ ops, op.kind ∈ [.bang, .minus]) (h : (Phrase.call e).Derives n ts n') :
    (Phrase.unary (ops.foldr .unary e)).Derives n (ops ++ ts) n' := by
  induction ops with
  | nil => exact .operand h
  | cons op ops ih =>
    exact .unary (hops op (by simp)) (ih fun t ht => hops t (by simp [ht]))

/-- A unary expression is one of the grammar. -/
theorem unary_sound (h : ∀ s, Sound nested s (Derived .expression)) (s : ParserState) :
    Sound (unary nested) s (Derived .unary) := by
  refine .remaining_bind (.bind (unaryOperators_sound _ s) fun ops s₁ _ =>
    .bind (call_sound h s₁) fun e s₂ _ => .pure ?_)
  rintro m ts he n us ⟨rfl, rfl, hops⟩
  simpa using unary_derives hops he

/-- Each level of binary operators is one of the grammar, from factors up to `or`. -/
theorem disjunction_sound (h : ∀ s, Sound nested s (Derived .expression)) (s : ParserState) :
    Sound (disjunction nested) s (Derived (.level .disjunction)) := by
  have hfactor := @level_sound nested .factor (unary_sound h)
  have hterm := @level_sound nested .term hfactor
  have hcomparison := @level_sound nested .comparison hterm
  have hequality := @level_sound nested .equality hcomparison
  have hconjunction := @level_sound nested .conjunction hequality
  exact @level_sound nested .disjunction hconjunction s

/-- An assignment is one of the grammar: its target is a variable or a property. -/
theorem assignment_sound (h : ∀ s, Sound nested s (Derived .expression)) (s : ParserState) :
    Sound (assignment nested) s (Derived .expression) := by
  refine .bind (disjunction_sound h s) fun target s₁ _ =>
    .get_bind (.bind (.accept _) fun b s₂ _ => ?_)
  cases b with
  | true =>
    refine .bind (h s₂) fun value s₃ _ => ?_
    split
    · refine .freshId_bind (.pure ?_)
      rintro - m ts hvalue k us ⟨rfl, equal, rfl, hequal⟩ n vs htarget
      -- a variable can only have been derived from its name
      obtain ⟨rfl, rfl, hname, rfl⟩ := htarget.var_cases
      simpa using .assign hname hequal hvalue
    · refine .pure ?_
      rintro m ts hvalue k us ⟨rfl, equal, rfl, hequal⟩ n vs htarget
      -- a property can only have been derived as the last one of a call
      obtain ⟨before, dot, rfl, hdot, hname, hobject⟩ := htarget.get_cases
      simpa using .set hobject hdot hname hequal hvalue
    -- any other target is noted as an error, so nothing is claimed
    · exact .of_report rfl (.refl _)
  | false =>
    refine .pure ?_
    rintro k us ⟨rfl, rfl⟩ n vs htarget
    simpa using .operation htarget

/-- An expression of any depth is one of the grammar. -/
theorem expression_sound (depth : Nat) (s : ParserState) :
    Sound (expression depth) s (Derived .expression) := by
  induction depth generalizing s with
  | zero => exact .unexpected _ _
  | succ depth ih => exact assignment_sound ih s

/-- An expression is one of the grammar. -/
theorem fullExpression_sound (s : ParserState) : Sound fullExpression s (Derived .expression) :=
  .remaining_bind (expression_sound _ s)

/-- An expression that may be missing is one of the grammar if it is there. -/
theorem expressionUnless_sound (kind : TokenKind) (s : ParserState) :
    Sound (expressionUnless kind) s fun n ts o n' => OptionalExpression o n ts n' := by
  refine .bind (.looksAt _) fun b s' _ => ?_
  cases b with
  | true =>
    refine .pure ?_
    rintro n ts ⟨rfl, rfl⟩
    exact .none
  | false =>
    refine (Sound.map (fullExpression_sound s')).mono ?_
    rintro m ts o n' ⟨e, rfl, h⟩ n us ⟨rfl, rfl⟩
    exact .some h

/-! ## Statements -/

/-- What is read is derived as a statement that declares nothing. -/
abbrev DerivedStatement : Post Stmt :=
  fun n ts s n' => ∃ ending, (Clause.statement ending s).Derives false n ts n'

/-- What is read is derived as a declaration or any other statement, and none has failed. -/
abbrev DerivedDeclaration : Post (Option Stmt) :=
  fun n ts o n' => ∃ s, o = some s ∧ (Clause.declaration s).Derives false n ts n'

variable {nestedStatement : Parser Stmt} {nestedDeclaration : Parser (Option Stmt)}

/-- The declarations of a block are those of the grammar. -/
theorem declarations_sound (h : ∀ s, Sound nestedDeclaration s DerivedDeclaration) (bound : Nat)
    (s : ParserState) : Sound (declarations nestedDeclaration bound) s fun n ts body n' =>
      (Clause.declarations body).Derives false n ts n' := by
  induction bound generalizing s with
  | zero => exact .pure .noDeclaration
  | succ bound ih =>
    refine .get_bind ?_
    split
    · exact .pure .noDeclaration
    -- a declaration that failed has been reported, so each of them is there
    · refine .bind (h s) fun first s₁ _ => .bind (ih s₁) fun body s₂ _ => .pure ?_
      rintro m ts hbody n us ⟨stmt, rfl, hfirst⟩
      simpa using .nextDeclaration hfirst hbody

/-- The inside of a block and its closing brace. -/
theorem block_sound (h : ∀ s, Sound nestedDeclaration s DerivedDeclaration) (s : ParserState) :
    Sound (block nestedDeclaration) s fun n ts body n' => ∃ us rbrace, ts = us ++ [rbrace] ∧
      rbrace.kind = .rightBrace ∧ (Clause.declarations body).Derives false n us n' := by
  refine .remaining_bind (.bind (declarations_sound h _ s) fun body s₁ _ =>
    .bind (.expect _ _) fun rbrace s₂ _ => .pure ?_)
  rintro m ts ⟨rfl, rfl, hrbrace⟩ n us hbody
  exact ⟨us, rbrace, rfl, hrbrace, hbody⟩

/-- Names between commas are parameters. -/
theorem Separated.parameters {n n' : Nat} {ts params : List Token}
    (h : Separated (fun n ts t n' => n' = n ∧ ts = [t] ∧ t.kind = .identifier) n ts params n') :
    n' = n ∧ params ≠ [] ∧ Parameters params ts := by
  induction h with
  | last h =>
    obtain ⟨rfl, rfl, hname⟩ := h
    exact ⟨rfl, by simp, .last hname⟩
  | next h hcomma _ ih =>
    obtain ⟨rfl, rfl, hname⟩ := h
    obtain ⟨rfl, hne, hrest⟩ := ih
    exact ⟨rfl, by simp, .next hname hcomma hne hrest⟩

/-- A function is one of the grammar. -/
theorem function_sound (h : ∀ s, Sound nestedDeclaration s DerivedDeclaration) (method : Bool)
    (s : ParserState) : Sound (function method nestedDeclaration) s fun n ts d n' =>
      (Clause.function d).Derives false n ts n' := by
  refine .bind (.expect _ _) fun name s₁ _ => .bind (.expect _ _) fun lparen s₂ _ =>
    .bind (commaSeparated_sound (fun s => .expect _ _) s₂) fun params s₃ _ =>
    .bind (.expect _ _) fun rparen s₄ _ => .bind (.expect _ _) fun lbrace s₅ _ =>
    .bind (block_sound h s₅) fun body s₆ _ => .pure ?_
  rintro _ _ ⟨ts₂, rbrace, rfl, hrbrace, hbody⟩ _ _ ⟨rfl, rfl, hlbrace⟩ _ _ ⟨rfl, rfl, hrparen⟩
    _ ts₁ hparams _ _ ⟨rfl, rfl, hlparen⟩ _ _ ⟨rfl, rfl, hname⟩
  -- without parameters there are no commas either
  rcases hparams with ⟨rfl, rfl, rfl⟩ | ⟨hparams, hcount⟩
  · simpa using .function hname hlparen .none (Nat.zero_le _) hrparen hlbrace hbody hrbrace
  · obtain ⟨rfl, _, hparams⟩ := hparams.parameters
    have := Clause.Derives.function hname hlparen hparams hcount hrparen hlbrace hbody hrbrace
    simpa using this

/-- The methods of a class are those of the grammar. -/
theorem methods_sound (h : ∀ s, Sound nestedDeclaration s DerivedDeclaration) (bound : Nat)
    (s : ParserState) : Sound (methods nestedDeclaration bound) s fun n ts ds n' =>
      (Clause.methods ds).Derives false n ts n' := by
  induction bound generalizing s with
  | zero => exact .pure .noMethod
  | succ bound ih =>
    refine .get_bind ?_
    split
    · exact .pure .noMethod
    · refine .bind (function_sound h true s) fun first s₁ _ => .bind (ih s₁) fun ds s₂ _ =>
        .pure ?_
      rintro m ts hrest n us hfirst
      simpa using .nextMethod hfirst hrest

/-- A declaration from behind its keyword on. -/
abbrev DerivedAfter (keyword : Token) : Post Stmt :=
  fun n ts s n' => (Clause.declaration s).Derives false n (keyword :: ts) n'

/-- The inside of a class, from its opening brace on. -/
private theorem classBody_sound (h : ∀ s, Sound nestedDeclaration s DerivedDeclaration)
    (name : Token) (superclass : Option Expr) (s : ParserState) : Sound (do
      let _ ← expect .leftBrace .classBodyStart
      let methods ← methods nestedDeclaration (← remaining)
      let _ ← expect .rightBrace .classBodyEnd
      return Stmt.classDecl ⟨name, superclass, methods⟩) s fun n ts s n' => ∃ lbrace us ds rbrace,
        ts = lbrace :: us ++ [rbrace] ∧ lbrace.kind = .leftBrace ∧ rbrace.kind = .rightBrace ∧
        s = .classDecl ⟨name, superclass, ds⟩ ∧ (Clause.methods ds).Derives false n us n' := by
  refine .bind (.expect _ _) fun lbrace s₁ _ => .remaining_bind <|
    .bind (methods_sound h _ s₁) fun ds s₂ _ => .bind (.expect _ _) fun rbrace s₃ _ => .pure ?_
  rintro _ _ ⟨rfl, rfl, hrbrace⟩ _ us hmethods _ _ ⟨rfl, rfl, hlbrace⟩
  exact ⟨lbrace, us, ds, rbrace, rfl, hlbrace, hrbrace, rfl, hmethods⟩

/-- Behind its keyword a class is one of the grammar. -/
theorem classDeclaration_sound (h : ∀ s, Sound nestedDeclaration s DerivedDeclaration)
    {keyword : Token} (hkeyword : keyword.kind = .keyword .class_) (s : ParserState) :
    Sound (classDeclaration nestedDeclaration) s (DerivedAfter keyword) := by
  refine .bind (.expect _ _) fun name s₁ _ => .bind (.accept _) fun b s₂ _ => ?_
  cases b with
  | true =>
    -- the name of the superclass is a variable, so it gets a number
    refine .bind (.expect _ _) fun superName s₃ _ => .freshId_bind (.pure_bind ?_)
    refine (classBody_sound h name _ _).mono ?_
    rintro _ _ _ n' ⟨lbrace, us, ds, rbrace, rfl, hlbrace, hrbrace, rfl, hmethods⟩ rfl
      _ _ ⟨rfl, rfl, hsuper⟩ _ _ ⟨rfl, less, rfl, hless⟩ _ _ ⟨rfl, rfl, hname⟩
    exact .subclassDecl hkeyword hname hless hsuper hlbrace hmethods hrbrace
  | false =>
    refine .pure_bind ((classBody_sound h name _ _).mono ?_)
    rintro _ _ _ n' ⟨lbrace, us, ds, rbrace, rfl, hlbrace, hrbrace, rfl, hmethods⟩
      _ _ ⟨rfl, rfl⟩ _ _ ⟨rfl, rfl, hname⟩
    exact .classDecl hkeyword hname hlbrace hmethods hrbrace

/-- Behind its keyword a variable declaration is one of the grammar. -/
theorem varDeclaration_sound (s : ParserState) : Sound varDeclaration s fun n ts s n' =>
    ∀ keyword, keyword.kind = .keyword .var → VariableDeclaration s n (keyword :: ts) n' := by
  refine .bind (.expect _ _) fun name s₁ _ => .bind (.accept _) fun b s₂ _ => ?_
  cases b with
  | true =>
    refine .bind (.map (fullExpression_sound s₂)) fun value s₃ _ =>
      .bind (.expect _ _) fun semicolon s₄ _ => .pure ?_
    rintro _ _ ⟨rfl, rfl, hsemicolon⟩ _ ts ⟨e, rfl, he⟩ _ _ ⟨rfl, equal, rfl, hequal⟩
      _ _ ⟨rfl, rfl, hname⟩ keyword hkeyword
    exact .initialized hkeyword hname hequal he hsemicolon
  | false =>
    refine .pure_bind (.bind (.expect _ _) fun semicolon s₄ _ => .pure ?_)
    rintro _ _ ⟨rfl, rfl, hsemicolon⟩ _ _ ⟨rfl, rfl⟩ _ _ ⟨rfl, rfl, hname⟩ keyword hkeyword
    exact .bare hkeyword hname hsemicolon

/-- An expression statement is one of the grammar. -/
theorem expressionStatement_sound (s : ParserState) :
    Sound expressionStatement s fun n ts s n' => ExpressionStatement s n ts n' := by
  refine .bind (fullExpression_sound s) fun e s₁ _ => .bind (.expect _ _) fun semicolon s₂ _ =>
    .pure ?_
  rintro _ _ ⟨rfl, rfl, hsemicolon⟩ _ ts he
  exact .expression he hsemicolon

/-- A statement from behind its keyword on. -/
abbrev DerivedStatementAfter (keyword : Token) : Post Stmt :=
  fun n ts s n' => DerivedStatement n (keyword :: ts) s n'

/-- The initializer of a `for` statement is one of the grammar. -/
theorem forInitializer_sound (s : ParserState) :
    Sound forInitializer s fun n ts o n' => Initializer o n ts n' := by
  refine .bind (.accept _) fun b s₁ _ => ?_
  cases b with
  | true =>
    refine .pure ?_
    rintro _ _ ⟨rfl, semicolon, rfl, hsemicolon⟩
    exact .none hsemicolon
  | false =>
    -- no semicolon, so a declaration if there is `var`, else an expression
    refine .bind (.accept _) fun b s₂ _ => ?_
    cases b with
    | true =>
      refine (Sound.map (varDeclaration_sound s₂)).mono ?_
      rintro _ _ _ _ ⟨stmt, rfl, hvar⟩ _ _ ⟨rfl, var, rfl, hkind⟩ _ _ ⟨rfl, rfl⟩
      exact .varDecl (hvar _ hkind)
    | false =>
      refine (Sound.map (expressionStatement_sound s₂)).mono ?_
      rintro _ _ _ _ ⟨stmt, rfl, hstmt⟩ _ _ ⟨rfl, rfl⟩ _ _ ⟨rfl, rfl⟩
      exact .expression hstmt

/-- Behind its keyword a `for` statement is one of the grammar, and the loop is what it stands
    for. -/
theorem forStatement_sound (h : ∀ s, Sound nestedStatement s DerivedStatement)
    {keyword : Token} (hkeyword : keyword.kind = .keyword .for_) (s : ParserState) :
    Sound (forStatement nestedStatement) s (DerivedStatementAfter keyword) := by
  refine .bind (.expect _ _) fun lparen s₁ _ => .bind (forInitializer_sound s₁)
    fun initializer s₂ _ => .bind (expressionUnless_sound _ s₂) fun test s₃ _ =>
    .bind (.expect _ _) fun _ s₄ _ => .bind (expressionUnless_sound _ s₄) fun increment s₅ _ =>
    .bind (.expect _ _) fun _ s₆ _ => .bind (h s₆) fun body s₇ _ => .pure ?_
  rintro _ _ ⟨ending, hbody⟩ _ _ ⟨rfl, rfl, hrparen⟩ _ ts₃ hincrement _ _ ⟨rfl, rfl, hsemicolon⟩
    _ ts₂ htest _ ts₁ hinitializer _ _ ⟨rfl, rfl, hlparen⟩
  refine ⟨ending, ?_⟩
  simpa using
    .forStmt hkeyword hlparen hinitializer htest hsemicolon hincrement hrparen hbody

/-- Behind its keyword an `if` statement is one of the grammar. -/
theorem ifStatement_sound (h : ∀ s, Sound nestedStatement s DerivedStatement)
    {keyword : Token} (hkeyword : keyword.kind = .keyword .if_) (s : ParserState) :
    Sound (ifStatement nestedStatement) s (DerivedStatementAfter keyword) := by
  refine .bind (.expect _ _) fun lparen s₁ _ => .bind (fullExpression_sound s₁) fun condition s₂ _ =>
    .bind (.expect _ _) fun rparen s₃ _ => .bind (h s₃) fun thenBranch s₄ _ =>
    .bind (.accept _) fun b s₅ _ => ?_
  cases b with
  | true =>
    refine .bind (.map (h s₅)) fun elseBranch s₆ _ => .pure ?_
    -- the postconditions come in reverse, the last step first
    rintro _ _ ⟨stmt, rfl, ending, helseBranch⟩ _ _ ⟨rfl, else_, rfl, helse⟩ _ _ ⟨before, hthen⟩
      _ _ ⟨rfl, rfl, hrparen⟩ _ _ hcondition _ _ ⟨rfl, rfl, hlparen⟩
    refine ⟨ending, ?_⟩
    simpa using .ifElseStmt hkeyword hlparen hcondition hrparen hthen nofun helse helseBranch
  | false =>
    refine .pure_bind (.pure ?_)
    rintro _ _ ⟨rfl, rfl⟩ _ _ ⟨before, hthen⟩ _ _ ⟨rfl, rfl, hrparen⟩ _ _ hcondition
      _ _ ⟨rfl, rfl, hlparen⟩
    refine ⟨.opened, ?_⟩
    simpa using .ifStmt hkeyword hlparen hcondition hrparen hthen

/-- Behind its keyword a `while` statement is one of the grammar. -/
theorem whileStatement_sound (h : ∀ s, Sound nestedStatement s DerivedStatement)
    {keyword : Token} (hkeyword : keyword.kind = .keyword .while_) (s : ParserState) :
    Sound (whileStatement nestedStatement) s (DerivedStatementAfter keyword) := by
  refine .bind (.expect _ _) fun lparen s₁ _ => .bind (fullExpression_sound s₁) fun condition s₂ _ =>
    .bind (.expect _ _) fun rparen s₃ _ => .bind (h s₃) fun body s₄ _ => .pure ?_
  rintro _ _ ⟨ending, hbody⟩ _ _ ⟨rfl, rfl, hrparen⟩ _ _ hcondition _ _ ⟨rfl, rfl, hlparen⟩
  refine ⟨ending, ?_⟩
  simpa using .whileStmt hkeyword hlparen hcondition hrparen hbody

/-- Behind its keyword a `return` statement is one of the grammar. -/
theorem returnStatement_sound {keyword : Token} (hkeyword : keyword.kind = .keyword .return_)
    (s : ParserState) : Sound (returnStatement keyword) s (DerivedStatementAfter keyword) := by
  refine .bind (expressionUnless_sound _ s) fun value s₁ _ => .bind (.expect _ _) fun _ s₂ _ =>
    .pure ?_
  rintro _ _ ⟨rfl, rfl, hsemicolon⟩ _ _ hvalue
  exact ⟨.closed, .returnStmt hkeyword hvalue hsemicolon⟩

/-- Behind its keyword a `print` statement is one of the grammar. -/
theorem printStatement_sound {keyword : Token} (hkeyword : keyword.kind = .keyword .print)
    (s : ParserState) : Sound printStatement s (DerivedStatementAfter keyword) := by
  refine .bind (fullExpression_sound s) fun value s₁ _ => .bind (.expect _ _) fun _ s₂ _ => .pure ?_
  rintro _ _ ⟨rfl, rfl, hsemicolon⟩ _ _ hvalue
  exact ⟨.closed, .printStmt hkeyword hvalue hsemicolon⟩

/-- A statement that declares nothing is one of the grammar. -/
theorem plainStatement_sound (h : ∀ s, Sound nestedStatement s DerivedStatement)
    (h' : ∀ s, Sound nestedDeclaration s DerivedDeclaration) (s : ParserState) :
    Sound (plainStatement nestedStatement nestedDeclaration) s DerivedStatement := by
  refine .peekKind_bind ?_
  -- the parser goes by the first token, and so does the grammar
  split <;> rename_i hkind
  · exact .next_bind (by simp [hkind]) fun s' => forStatement_sound h hkind s'
  · exact .next_bind (by simp [hkind]) fun s' => ifStatement_sound h hkind s'
  · exact .next_bind (by simp [hkind]) fun s' => whileStatement_sound h hkind s'
  · exact .next_bind (by simp [hkind]) fun s' => returnStatement_sound hkind s'
  · refine .next_bind (by simp [hkind]) fun s₁ => .bind (block_sound h' s₁) fun body s₂ _ => .pure ?_
    rintro _ _ ⟨us, rbrace, rfl, hrbrace, hbody⟩
    exact ⟨.closed, by simpa using .block hkind hbody hrbrace⟩
  · exact .next_bind (by simp [hkind]) fun s' => printStatement_sound hkind s'
  · exact (expressionStatement_sound s).mono fun _ _ _ _ h => ⟨.closed, .exprStmt h⟩

/-- A statement of any kind is a declaration of the grammar. -/
theorem anyStatement_sound (h : ∀ s, Sound nestedStatement s DerivedStatement)
    (h' : ∀ s, Sound nestedDeclaration s DerivedDeclaration) (s : ParserState) :
    Sound (anyStatement nestedStatement nestedDeclaration) s fun n ts s n' =>
      (Clause.declaration s).Derives false n ts n' := by
  refine .peekKind_bind ?_
  split <;> rename_i hkind
  · exact .next_bind (by simp [hkind]) fun s' => classDeclaration_sound h' hkind s'
  · refine .next_bind (by simp [hkind]) fun s₁ => .bind (function_sound h' false s₁) fun d s₂ _ =>
      .pure ?_
    intro n ts hd
    exact .funDecl hkind (by simpa using hd)
  · exact .next_bind (by simp [hkind]) fun s' => (varDeclaration_sound s').mono fun _ _ _ _ h =>
      .varDecl (h _ hkind)
  · exact (plainStatement_sound h h' s).mono fun _ _ _ _ ⟨_, h⟩ => .statement h

/-- A statement that fails is noted and dropped, and the parser recovers. -/
theorem recovering_run (p : Parser Stmt) (s : ParserState) : (recovering p).run s =
    match p.run s with
    | .ok stmt s' => .ok (some stmt) s'
    | .error e s' => .ok none (s'.report e).recover := by
  have hmap : (some <$> p) s = EStateM.map some p s := rfl
  show EStateM.tryCatch (some <$> p) _ s = _
  delta EStateM.tryCatch
  simp only [EStateM.run, hmap, EStateM.map]
  cases p s <;> rfl

/-- A failed statement is noted, so without errors it has not failed. -/
theorem recovering_sound {p : Parser Stmt} {R : Post Stmt} (h : Sound p s R) :
    Sound (recovering p) s fun n ts o n' => ∃ stmt, o = some stmt ∧ R n ts stmt n' := by
  unfold Sound at h ⊢
  rw [recovering_run]
  cases hp : p.run s with
  | ok stmt s' =>
    rw [hp] at h
    refine ⟨h.1, fun hclean => ?_⟩
    obtain ⟨ts, hrest, hts, hr⟩ := h.2 hclean
    exact ⟨ts, hrest, hts, stmt, rfl, hr⟩
  | error e s' =>
    rw [hp] at h
    -- the failure itself is reported, so there is an error more than before
    have herrors := h.errors
    refine ⟨⟨by simpa [ParserState.report] using h.nextId, ?_⟩, fun hclean => ?_⟩
    · simpa [ParserState.report] using Nat.le_succ_of_le herrors
    · simp only [ParserState.recover_errors, ParserState.report, Array.size_push] at hclean
      omega

/-- What statements and declarations read is derived, however deeply they are nested. -/
theorem statement_declaration_sound (depth : Nat) :
    (∀ s, Sound (statement depth) s DerivedStatement) ∧
      ∀ s, Sound (declaration depth) s DerivedDeclaration := by
  induction depth with
  | zero =>
    refine ⟨fun s => ?_, fun s => ?_⟩
    · unfold statement
      -- where the depth ends nothing is read
      exact .unexpected _ _
    · unfold declaration
      exact recovering_sound (.unexpected _ _)
  | succ depth ih =>
    refine ⟨fun s => ?_, fun s => ?_⟩
    · unfold statement
      exact plainStatement_sound ih.1 ih.2 s
    · unfold declaration
      exact recovering_sound (anyStatement_sound ih.1 ih.2 s)

/-- A program that is read without errors up to the end is derived from what has been read. -/
theorem program_sound (bound : Nat) (s : ParserState) :
    Sound (program bound) s fun n ts body n' => (Clause.declarations body).Derives false n ts n' := by
  induction bound generalizing s with
  | zero => exact .pure .noDeclaration
  | succ bound ih =>
    refine .get_bind ?_
    split
    · exact .pure .noDeclaration
    · refine .bind ((statement_declaration_sound _).2 s) fun first s₁ _ =>
        .bind (ih s₁) fun body s₂ _ => .pure ?_
      rintro _ _ hbody _ _ ⟨stmt, rfl, hfirst⟩
      simpa using .nextDeclaration hfirst hbody

/-- A sequence that ends well does so in both of its parts. -/
private theorem run_bind_ok {p : Parser α} {f : α → Parser β} {b : β} {s'' : ParserState}
    (h : (p >>= f).run s = .ok b s'') :
    ∃ a s', p.run s = .ok a s' ∧ (f a).run s' = .ok b s'' := by
  rw [EStateM.run_bind] at h
  cases hp : p.run s with
  | error e s' =>
    rw [hp] at h
    cases h
  | ok a s' =>
    rw [hp] at h
    exact ⟨a, s', rfl, h⟩

/-- A program that is read without errors is read up to the end. -/
theorem program_atEnd {bound : Nat} {s s' : ParserState} {body : List Stmt}
    (hbound : s.rest.length ≤ bound) (hrun : (program bound).run s = .ok body s')
    (hclean : s'.errors.size = s.errors.size) : s'.atEnd := by
  induction bound generalizing s body with
  | zero =>
    have hnil : s.rest = [] := List.length_eq_zero_iff.mp (Nat.le_zero.mp hbound)
    cases hrun
    simp [ParserState.atEnd, ParserState.current, hnil, Token.eof]
  | succ bound ih =>
    have hstep : (program (bound + 1)).run s = EStateM.run (if s.atEnd then pure [] else do
        let first ← declaration s.rest.length
        return first.toList ++ (← program bound)) s := rfl
    rw [hstep] at hrun
    split at hrun
    · rename_i hend
      cases hrun
      exact hend
    · obtain ⟨first, s₁, hfirst, hrun⟩ := run_bind_ok hrun
      obtain ⟨others, s₂, hothers, hrun⟩ := run_bind_ok hrun
      cases hrun
      -- the first declaration has at least one token, so the bound is large enough for the others
      have hsound := (statement_declaration_sound s.rest.length).2 s
      have hgrows := program_sound bound s₁
      unfold Sound at hsound hgrows
      rw [hfirst] at hsound
      rw [hothers] at hgrows
      have := hsound.1.errors
      have := hgrows.1.errors
      obtain ⟨ts, hts, -, stmt, -, hderives⟩ := hsound.2 (by omega)
      obtain ⟨t, us, rfl, -⟩ := hderives.declaration_begins
      refine ih ?_ hothers (by omega)
      rw [hts] at hbound
      simp only [List.length_append, List.length_cons] at hbound
      omega

end Parser

end Lox
