import Lox.Proofs.Cursor
import Lox.Proofs.Relabel

/-!
# What stands behind does not matter

A parser looks one token ahead and no further. So on two texts that begin alike it does the same as
long as it stays before the seam, where they stop being alike. `Along` says this of two parsers and
a state before the seam; the tokens may be read elsewhere in a text, after other identities have
been given and other errors been noted. A parser of expressions has to look at the token behind an
expression. A statement ends with a token of its own, so that nothing behind it matters, but for an
`else`: it may end at the seam itself.

## Key results

- `Seam.Abreast`: two texts read up to the same place
- `Parser.Along`: two parsers that do the same before the seam
- `Along.bind`, `Along.bind_expect`: parsers made of others
-/

namespace Lox

/-- An error so many tokens later in the text. -/
def SyntaxError.later (n : Nat) (e : SyntaxError) : SyntaxError :=
  { e with position := e.position + n }

/-- Two texts that begin alike and are read in different places: what stands behind what they
    share, how many more tokens have been consumed and identities given before the second, and which
    errors have been noted before each. -/
structure Seam where
  behind : List Token
  behind' : List Token
  tokens : Nat
  ids : Nat
  noted : List SyntaxError
  noted' : List SyntaxError

namespace Seam

variable (σ : Seam)

/-- How identities differ. -/
def shift : Relabeling :=
  .ofId (· + σ.ids)

/-- The first text may end at the seam, and the second does not go on with an `else` there. -/
structure Closable : Prop where
  ended : ∃ t, σ.behind = [t] ∧ t.kind = .eof
  goesOn : ∀ t ∈ σ.behind'.head?, t.kind ≠ .keyword .else_

/-- Both texts are read up to the same place, with the same errors on the way. -/
structure Abreast (s s' : ParserState) : Prop where
  rest : ∃ ts, s.rest = ts ++ σ.behind ∧ s'.rest = ts ++ σ.behind'
  position : s'.position = s.position + σ.tokens
  nextId : s'.nextId = s.nextId + σ.ids
  errors : ∃ es, s.errors.toList = σ.noted ++ es ∧
    s'.errors.toList = σ.noted' ++ es.map (·.later σ.tokens)

/-- A state before the seam; or at the seam if that is allowed, when no statement has failed. -/
def Inside (closing : Prop) (s : ParserState) : Prop :=
  σ.behind.length < s.rest.length ∨
    closing ∧ σ.Closable ∧ ∀ e ∈ s.errors.toList, e.fault.isStructural = false

end Seam

/-- Tokens are only consumed, errors only added. -/
structure ParserState.Later (s s' : ParserState) : Prop where
  rest : s'.rest <:+ s.rest
  errors : ∀ e ∈ s.errors.toList, e ∈ s'.errors.toList

namespace ParserState.Later

variable {s s' s'' : ParserState}

theorem refl (s : ParserState) : s.Later s :=
  ⟨List.suffix_refl _, fun _ h => h⟩

theorem trans (h : s.Later s') (h' : s'.Later s'') : s.Later s'' :=
  ⟨h'.rest.trans h.rest, fun e he => h'.errors e (h.errors e he)⟩

/-- At a later moment no more tokens are left. -/
theorem length_le (h : s.Later s') : s'.rest.length ≤ s.rest.length :=
  h.rest.length_le

/-- Advancing consumes at most the current token. -/
theorem advance (s : ParserState) : s.Later s.advance := by
  refine ⟨?_, fun e he => by simpa using he⟩
  unfold ParserState.advance
  split
  · exact List.suffix_refl _
  · exact List.tail_suffix _

/-- To hand out a number consumes nothing. -/
theorem nextId (s : ParserState) (n : Nat) : s.Later { s with nextId := n } :=
  ⟨List.suffix_refl _, fun _ h => h⟩

/-- Noting an error consumes nothing. -/
theorem report (s : ParserState) (e : SyntaxError) : s.Later (s.report e) :=
  ⟨List.suffix_refl _, fun e' he' => by simp [ParserState.report, he']⟩

/-- Recovering consumes what is dropped. -/
theorem recover (s : ParserState) : s.Later s.recover := by
  obtain ⟨ts, hrest, -⟩ := s.recover_consumed
  exact ⟨⟨ts, hrest.symm⟩, fun e he => by simpa using he⟩

end ParserState.Later

/-- Before the end one token fewer is left after advancing. -/
theorem ParserState.advance_length_lt {s : ParserState} (hend : s.atEnd = false) :
    s.advance.rest.length < s.rest.length := by
  rw [ParserState.rest_eq_of_not_atEnd (s := s) (by simp [hend])]
  exact Nat.lt_succ_self _

/-- A statement boundary before the seam is found where it is found in the other text. -/
theorem ParserState.skipStatement_append {r r' : List Token} (previous : Token) (ts : List Token)
    (position m : Nat) (h : r.length < (skipStatement previous (ts ++ r) position).1.length) :
    ∃ us, (skipStatement previous (ts ++ r) position).1 = us ++ r ∧
      skipStatement previous (ts ++ r') (position + m) =
        (us ++ r', (skipStatement previous (ts ++ r) position).2 + m) := by
  induction ts generalizing previous position with
  | nil =>
    -- no token is left in front of the seam, so the boundary would be behind it
    obtain ⟨skipped, hrest, -⟩ := skipStatement_consumed previous r position
    have hlength := congrArg List.length hrest
    rw [List.length_append] at hlength
    rw [List.nil_append] at h
    omega
  | cons t ts ih =>
    simp only [List.cons_append, skipStatement] at h ⊢
    split
    · exact ⟨t :: ts, rfl, rfl⟩
    · rename_i hstop
      rw [if_neg hstop] at h
      rw [Nat.add_right_comm]
      exact ih t (position + 1) h

namespace Seam

variable {σ : Seam} {closing : Prop} {s s' t : ParserState}

/-- Inside and not at the seam is before it. -/
theorem Inside.before (h : σ.Inside False s) : σ.behind.length < s.rest.length :=
  h.resolve_right fun h => h.1

/-- Before the seam is inside. -/
theorem Inside.of_before (h : σ.behind.length < s.rest.length) : σ.Inside closing s :=
  .inl h

/-- Who is still before the seam has been there before. -/
theorem Inside.earlier (h : σ.Inside closing t) (hlater : s.Later t) : σ.Inside closing s := by
  rcases h with h | ⟨hclosing, hclosable, hclean⟩
  · exact .inl (Nat.lt_of_lt_of_le h hlater.length_le)
  · exact .inr ⟨hclosing, hclosable, fun e he => hclean e (hlater.errors e he)⟩

/-- At the seam the first text is at its end. -/
theorem Closable.atEnd (h : σ.Closable) (habreast : σ.Abreast s s') (hlater : s.Later t)
    (hseam : t.rest.length ≤ σ.behind.length) : t.atEnd := by
  obtain ⟨eof, hbehind, heof⟩ := h.ended
  obtain ⟨ts, hrest, -⟩ := habreast.rest
  -- at the seam at most the closing token is left, and behind it reading is at the end, too
  have hsuffix : t.rest <:+ [eof] := by
    rw [← hbehind]
    refine List.suffix_of_suffix_length_le hlater.rest ?_ hseam
    rw [hrest]
    exact List.suffix_append _ _
  rcases List.suffix_cons_iff.mp hsuffix with hrest | hrest
  · simp [ParserState.atEnd, ParserState.current, hrest, heof]
  · simp [ParserState.atEnd, ParserState.current, List.suffix_nil.mp hrest, Token.eof]

namespace Abreast

/-- Before the seam both have the same token before them. -/
theorem exists_cons (h : σ.Abreast s s') (hlt : σ.behind.length < s.rest.length) :
    ∃ first ts, s.rest = first :: (ts ++ σ.behind) ∧ s'.rest = first :: (ts ++ σ.behind') := by
  obtain ⟨ts, hrest, hrest'⟩ := h.rest
  cases ts with
  | nil =>
    rw [hrest] at hlt
    exact absurd hlt (Nat.lt_irrefl _)
  | cons first ts => exact ⟨first, ts, hrest, hrest'⟩

/-- Before the seam both have the same current token. -/
theorem current (h : σ.Abreast s s') (hlt : σ.behind.length < s.rest.length) :
    s'.current = s.current := by
  obtain ⟨first, ts, hrest, hrest'⟩ := h.exists_cons hlt
  rw [ParserState.current, ParserState.current, hrest, hrest']
  rfl

/-- Before the seam both are at the end or neither is. -/
theorem atEnd (h : σ.Abreast s s') (hlt : σ.behind.length < s.rest.length) :
    s'.atEnd = s.atEnd := by
  rw [ParserState.atEnd, ParserState.atEnd, h.current hlt]

/-- Before the seam both advance over the same token. -/
theorem advance (h : σ.Abreast s s') (hlt : σ.behind.length < s.rest.length) :
    σ.Abreast s.advance s'.advance := by
  unfold ParserState.advance
  rw [h.atEnd hlt]
  split
  · exact h
  · obtain ⟨first, ts, hrest, hrest'⟩ := h.exists_cons hlt
    refine ⟨⟨ts, by rw [hrest]; rfl, by rw [hrest']; rfl⟩, ?_, h.nextId, h.errors⟩
    show s'.position + 1 = s.position + 1 + σ.tokens
    rw [h.position, Nat.add_right_comm]

/-- Before the seam both have the same error to note, at positions that differ by the shift. -/
theorem errorHere (h : σ.Abreast s s') (hlt : σ.behind.length < s.rest.length)
    (fault : SyntaxFault) : s'.errorHere fault = (s.errorHere fault).later σ.tokens := by
  rw [ParserState.errorHere, ParserState.errorHere, h.current hlt, h.position]
  rfl

/-- Both note an error, at positions that differ by the shift. -/
theorem report (h : σ.Abreast s s') (e : SyntaxError) :
    σ.Abreast (s.report e) (s'.report (e.later σ.tokens)) := by
  obtain ⟨es, herrors, herrors'⟩ := h.errors
  exact ⟨h.rest, h.position, h.nextId, es ++ [e], by simp [ParserState.report, herrors],
    by simp [ParserState.report, herrors']⟩

/-- Both go on at the same boundary if it is before the seam. -/
theorem recover (h : σ.Abreast s s') (hlt : σ.behind.length < s.recover.rest.length) :
    σ.Abreast s.recover s'.recover := by
  have hbefore : σ.behind.length < s.rest.length :=
    Nat.lt_of_lt_of_le hlt (ParserState.Later.recover s).length_le
  obtain ⟨first, ts, hrest, hrest'⟩ := h.exists_cons hbefore
  unfold ParserState.recover at hlt ⊢
  rw [h.atEnd hbefore]
  split
  · exact h
  · rename_i hend
    rw [if_neg hend] at hlt
    rw [h.current hbefore, h.position, hrest, hrest', Nat.add_right_comm]
    rw [hrest] at hlt
    -- a boundary before the seam is found from the tokens in front of it, which both have
    obtain ⟨us, hus, hskip⟩ := ParserState.skipStatement_append s.current ts (s.position + 1)
      σ.tokens hlt
    refine ⟨⟨us, hus, ?_⟩, ?_, h.nextId, h.errors⟩
    · exact congrArg Prod.fst hskip
    · exact congrArg Prod.snd hskip

/-- Both hand out a number, and the numbers differ by the shift. -/
theorem nextId_succ (h : σ.Abreast s s') :
    σ.Abreast { s with nextId := s.nextId + 1 } { s' with nextId := s'.nextId + 1 } :=
  ⟨h.rest, h.position, by simp [h.nextId, Nat.add_right_comm], h.errors⟩

end Abreast

end Seam

namespace Parser

variable {α β α' β' : Type} {σ : Seam} {closing : Prop} {s : ParserState}

/-- If a parser stays before the seam then another one does the same on the second text, with a
    result that is the same up to `g`. If `closing` then it may stop at the seam when it
    succeeds. -/
def Along (σ : Seam) (closing : Prop) (g : α → α') (p : Parser α) (p' : Parser α')
    (s : ParserState) : Prop :=
  match p.run s with
  | .ok a t => s.Later t ∧ (σ.Inside closing t → ∀ s', σ.Abreast s s' →
      ∃ t', p'.run s' = .ok (g a) t' ∧ σ.Abreast t t')
  | .error e t => s.Later t ∧ (σ.Inside False t → ∀ s', σ.Abreast s s' →
      ∃ t', p'.run s' = .error (e.later σ.tokens) t' ∧ σ.Abreast t t')

/-! ## Steps -/

namespace Along

variable {g : α → α'} {k : β → β'} {p : Parser α} {p' : Parser α'} {q : α → Parser β}
  {q' : α' → Parser β'}

/-- A parser that is followed along only consumes tokens and adds errors. -/
theorem later {a : α} {t : ParserState} (h : Along σ closing g p p' s) (hrun : p.run s = .ok a t) :
    s.Later t := by
  unfold Along at h
  rw [hrun] at h
  exact h.1

/-- What the second parser does if the first one succeeds. -/
theorem run_ok {a : α} {t s' : ParserState} (h : Along σ closing g p p' s)
    (hrun : p.run s = .ok a t) (hinside : σ.Inside closing t) (habreast : σ.Abreast s s') :
    ∃ t', p'.run s' = .ok (g a) t' ∧ σ.Abreast t t' := by
  unfold Along at h
  rw [hrun] at h
  exact h.2 hinside s' habreast

/-- What the second parser does if the first one fails. -/
theorem run_error {e : SyntaxError} {t s' : ParserState} (h : Along σ closing g p p' s)
    (hrun : p.run s = .error e t) (hbefore : σ.behind.length < t.rest.length)
    (habreast : σ.Abreast s s') :
    ∃ t', p'.run s' = .error (e.later σ.tokens) t' ∧ σ.Abreast t t' := by
  unfold Along at h
  rw [hrun] at h
  exact h.2 (.of_before hbefore) s' habreast

/-- What may end at the seam may end before it. -/
theorem before (h : Along σ closing g p p' s) : Along σ False g p p' s := by
  unfold Along at h ⊢
  cases hrun : p.run s with
  | error e t =>
    rw [hrun] at h
    exact h
  | ok a t =>
    rw [hrun] at h
    exact ⟨h.1, fun hinside => h.2 (.of_before hinside.before)⟩

/-- Behind the seam nothing is said of the second parser. -/
theorem elsewhere {closing' : Prop} {g₂ : α → β'} {p₂ : Parser β'} (h : Along σ closing g p p' s)
    (hseam : s.rest.length ≤ σ.behind.length)
    (hbehind : closing' → s.rest.length < σ.behind.length) : Along σ closing' g₂ p p₂ s := by
  -- both parsers being in front of the seam contradicts where the first one is
  have houtside {t s' : ParserState} (hlater : s.Later t) (hinside : σ.Inside closing' t) :
      ¬ σ.Abreast s s' := by
    intro habreast
    rcases hinside.earlier hlater with hlt | ⟨hclosing, -⟩
    · omega
    · have := hbehind hclosing
      obtain ⟨ts, hrest, -⟩ := habreast.rest
      rw [hrest, List.length_append] at this
      omega
  unfold Along at h ⊢
  cases hrun : p.run s with
  | error e t =>
    rw [hrun] at h
    exact ⟨h.1, fun hinside s' habreast =>
      absurd habreast (houtside h.1 (.of_before hinside.before))⟩
  | ok a t =>
    rw [hrun] at h
    exact ⟨h.1, fun hinside s' habreast => absurd habreast (houtside h.1 hinside)⟩

theorem pure (a : α) : Along σ closing g (Pure.pure a) (Pure.pure (g a)) s :=
  ⟨.refl s, fun _ s' h => ⟨s', rfl, h⟩⟩

/-- No rounds are left when there is nothing left before the seam. -/
theorem pure_elsewhere (a : α) {p₂ : Parser α'} (hseam : s.rest.length ≤ σ.behind.length) :
    Along σ False g (Pure.pure a) p₂ s :=
  (pure a : Along σ False id (Pure.pure a) (Pure.pure a) s).elsewhere hseam False.elim

/-- The second parser starts inside if the whole ends inside. -/
private theorem bind_of_inside {closing' : Prop} (hp : Along σ closing' g p p' s)
    (hq : ∀ a t, p.run s = .ok a t → Along σ closing k (q a) (q' (g a)) t)
    (hinside : ∀ a t b u s', p.run s = .ok a t → (q a).run t = .ok b u → s.Later t → t.Later u →
      σ.Abreast s s' → σ.Inside closing u → σ.Inside closing' t) :
    Along σ closing k (p >>= q) (p' >>= q') s := by
  unfold Along at hp ⊢
  rw [EStateM.run_bind]
  -- that the whole ends inside is known only afterwards, so both runs come before the comparison
  cases hrun : p.run s with
  | error e t =>
    rw [hrun] at hp
    refine ⟨hp.1, fun hbefore s' habreast => ?_⟩
    obtain ⟨t', hrun', ht⟩ := hp.2 hbefore s' habreast
    exact ⟨t', by rw [EStateM.run_bind, hrun'], ht⟩
  | ok a t =>
    rw [hrun] at hp
    have hq := hq a t hrun
    unfold Along at hq
    dsimp only
    cases hrun₂ : (q a).run t with
    | error e u =>
      rw [hrun₂] at hq
      refine ⟨hp.1.trans hq.1, fun hbefore s' habreast => ?_⟩
      obtain ⟨t', hrun', ht⟩ := hp.2 (.of_before (hbefore.earlier hq.1).before) s' habreast
      obtain ⟨u', hrun₂', hu⟩ := hq.2 hbefore t' ht
      exact ⟨u', by rw [EStateM.run_bind, hrun']; exact hrun₂', hu⟩
    | ok b u =>
      rw [hrun₂] at hq
      refine ⟨hp.1.trans hq.1, fun hu s' habreast => ?_⟩
      have hmiddle := hinside a t b u s' hrun hrun₂ hp.1 hq.1 habreast hu
      obtain ⟨t', hrun', ht⟩ := hp.2 hmiddle s' habreast
      obtain ⟨u', hrun₂', hu⟩ := hq.2 hu t' ht
      exact ⟨u', by rw [EStateM.run_bind, hrun']; exact hrun₂', hu⟩

/-- A parser from which there are fewer tokens left. -/
theorem bind_lt (hp : Along σ closing g p p' s)
    (hlt : ∀ a t, p.run s = .ok a t → t.rest.length < s.rest.length)
    (hq : ∀ a t, t.rest.length < s.rest.length → Along σ closing k (q a) (q' (g a)) t) :
    Along σ closing k (p >>= q) (p' >>= q') s :=
  hp.bind_of_inside (fun a t hrun => hq a t (hlt a t hrun))
    fun _ _ _ _ _ _ _ _ hlater _ hu => hu.earlier hlater

/-- In a sequence the second parsers go on from states that are abreast. -/
theorem bind (hp : Along σ closing g p p' s)
    (hq : ∀ a t, t.rest.length ≤ s.rest.length → Along σ closing k (q a) (q' (g a)) t) :
    Along σ closing k (p >>= q) (p' >>= q') s :=
  hp.bind_of_inside (fun a t hrun => hq a t (hp.later hrun).length_le)
    fun _ _ _ _ _ _ _ _ hlater _ hu => hu.earlier hlater

/-- Results may be mapped along the seam. -/
theorem map (hp : Along σ closing g p p' s) {f : α → β} {f' : α' → β'}
    (hf : ∀ a, f' (g a) = k (f a)) : Along σ closing k (f <$> p) (f' <$> p') s := by
  rw [← bind_pure_comp, ← bind_pure_comp]
  refine hp.bind fun a t _ => ?_
  rw [hf]
  exact pure _

/-- Before the seam both fail at the same token. -/
theorem unexpected (what : Expectation) :
    Along σ closing g (Parser.unexpected what) (Parser.unexpected what) s := by
  refine ⟨.refl s, fun hbefore s' habreast => ⟨s', ?_, habreast⟩⟩
  rw [← habreast.errorHere hbefore.before]
  rfl

/-- Before the seam both note the same error. -/
theorem reportHere (fault : SyntaxFault) :
    Along σ False id (reportHere fault) (reportHere fault) s := by
  refine ⟨.report s _, fun hbefore s' habreast => ⟨_, rfl, ?_⟩⟩
  show σ.Abreast (s.report _) (s'.report _)
  rw [habreast.errorHere (show _ < s.rest.length from hbefore.before)]
  exact habreast.report _

/-- Looking at the states, of which the next token, the position and the length may be used. -/
theorem get_bind {q : ParserState → Parser β} {q' : ParserState → Parser β'}
    (h : ∀ s', (σ.behind.length < s.rest.length → s'.current = s.current) →
      s'.position = s.position + σ.tokens →
      s.rest.length ≤ s'.rest.length + σ.behind.length → Along σ closing k (q s) (q' s') s) :
    Along σ closing k (get >>= q) (get >>= q') s := by
  have hrun : (get >>= q : Parser β).run s = (q s).run s := rfl
  -- some state looks like that, if only to know that tokens are only consumed
  have hself := h { s with position := s.position + σ.tokens } (fun _ => rfl) rfl
    (Nat.le_add_right _ _)
  have hsecond (s' : ParserState) (habreast : σ.Abreast s s') :
      Along σ closing k (q s) (q' s') s := by
    refine h s' (fun hlt => habreast.current hlt) habreast.position ?_
    obtain ⟨ts, hrest, hrest'⟩ := habreast.rest
    rw [hrest, hrest', List.length_append, List.length_append]
    omega
  unfold Along at hself hsecond ⊢
  rw [hrun]
  cases hq : (q s).run s with
  | error e t =>
    simp only [hq] at hself hsecond
    exact ⟨hself.1, fun hbefore s' habreast => (hsecond s' habreast).2 hbefore s' habreast⟩
  | ok b t =>
    simp only [hq] at hself hsecond
    exact ⟨hself.1, fun hinside s' habreast => (hsecond s' habreast).2 hinside s' habreast⟩

/-- Stopping or going on as the next token says. -/
theorem stop_bind {stops : ParserState → Bool}
    (hstops : ∀ s', s'.current = s.current → stops s' = stops s) {u : Parser β} {u' : Parser β'}
    {q : ParserState → Parser β} {q' : ParserState → Parser β'} (hu : Along σ False k u u' s)
    (hq : stops s = false → ∀ s', s.rest.length ≤ s'.rest.length + σ.behind.length →
      Along σ False k (q s) (q' s') s) :
    Along σ False k (get >>= fun s => if stops s then u else q s)
      (get >>= fun s => if stops s then u' else q' s) s := by
  refine get_bind fun s' hcurrent _ hlength => ?_
  have hsame : Along σ False k (if stops s then u else q s) (if stops s then u' else q' s') s := by
    cases hstop : stops s with
    | true => exact hu
    | false => exact hq hstop s' hlength
  by_cases hlt : σ.behind.length < s.rest.length
  · rwa [hstops s' (hcurrent hlt)]
  -- past the seam nothing is asked of the second parser
  · exact hsame.elsewhere (Nat.le_of_not_lt hlt) False.elim

/-- The numbers of tokens that are left are both enough before the seam. -/
theorem remaining_bind {q : Nat → Parser β} {q' : Nat → Parser β'}
    (h : ∀ n n', s.rest.length ≤ n + σ.behind.length → s.rest.length ≤ n' + σ.behind.length →
      Along σ closing k (q n) (q' n') s) :
    Along σ closing k (remaining >>= q) (remaining >>= q') s :=
  get_bind fun _ _ _ hlength => h _ _ (Nat.le_add_right _ _) hlength

/-- Only the second parser asks how many tokens are left. -/
theorem remaining_right {q' : Nat → Parser α'}
    (h : ∀ n, s.rest.length ≤ n + σ.behind.length → Along σ closing g p (q' n) s) :
    Along σ closing g p (remaining >>= q') s := by
  have hboth : Along σ closing g (remaining >>= fun _ => p) (remaining >>= q') s :=
    remaining_bind fun _ n _ hn => h n hn
  exact hboth

/-- Where a token is consumed is before the seam. -/
private theorem lt_of_inside {t s' : ParserState} (hend : s.atEnd = false) (hlater : s.Later t)
    (hinside : σ.Inside closing t) (habreast : σ.Abreast s s') :
    σ.behind.length < s.rest.length := by
  rcases hinside.earlier hlater with hlt | ⟨-, hclosable, -⟩
  · exact hlt
  · refine Nat.lt_of_not_le fun hle => ?_
    rw [hclosable.atEnd habreast (.refl s) hle] at hend
    cases hend

/-- A step of both parsers, from which they go on side by side. -/
private theorem step {r : Parser β} {r' : Parser β'} {u : Parser β} {u' : Parser β'}
    {t : ParserState} (hrun : r.run s = u.run t) (hlater : s.Later t)
    (hrun' : σ.Inside closing t → ∀ s', σ.Abreast s s' →
      ∃ t', r'.run s' = u'.run t' ∧ σ.Abreast t t')
    (h : Along σ closing k u u' t) : Along σ closing k r r' s := by
  unfold Along at h ⊢
  rw [hrun]
  cases hu : u.run t with
  | error e v =>
    rw [hu] at h
    refine ⟨hlater.trans h.1, fun hbefore s' habreast => ?_⟩
    -- whether the end is inside is known of the last state, and so of those before it
    obtain ⟨t', hrun', ht⟩ := hrun' (.of_before (hbefore.earlier h.1).before) s' habreast
    rw [hrun']
    exact h.2 hbefore t' ht
  | ok b v =>
    rw [hu] at h
    refine ⟨hlater.trans h.1, fun hinside s' habreast => ?_⟩
    obtain ⟨t', hrun', ht⟩ := hrun' (hinside.earlier h.1) s' habreast
    rw [hrun']
    exact h.2 hinside t' ht

/-- The number that is handed out differs as the numbers do. -/
theorem freshId_bind {q : NodeId → Parser β} {q' : NodeId → Parser β'}
    (h : Along σ closing k (q ⟨s.nextId⟩) (q' (NodeId.relabel σ.shift ⟨s.nextId⟩))
      { s with nextId := s.nextId + 1 }) :
    Along σ closing k (freshId >>= q) (freshId >>= q') s := by
  refine step (t := { s with nextId := s.nextId + 1 }) rfl (.nextId s _)
    (fun _ s' habreast => ⟨_, ?_, habreast.nextId_succ⟩) h
  show (q' ⟨s'.nextId⟩).run _ = _
  rw [habreast.nextId]
  rfl

/-- The current token is consumed on both sides, unless the text is over. -/
theorem next_bind {q : Token → Parser β} {q' : Token → Parser β'} (hkind : s.current.kind ≠ .eof)
    (h : ∀ x t, t.rest.length < s.rest.length → Along σ closing k (q x) (q' x) t) :
    Along σ closing k (next >>= q) (next >>= q') s := by
  have hend : s.atEnd = false := by simpa [ParserState.atEnd] using hkind
  refine step (t := s.advance) rfl (.advance s) (fun hinside s' habreast => ?_)
    (h s.current _ (ParserState.advance_length_lt hend))
  have hlt := lt_of_inside hend (.advance s) hinside habreast
  refine ⟨s'.advance, ?_, habreast.advance hlt⟩
  rw [← habreast.current hlt]
  rfl

/-- A token of such a kind is consumed, or none. -/
theorem accept?_bind {kinds : TokenKind → Bool} {q : Option Token → Parser β}
    {q' : Option Token → Parser β'}
    (hsome : ∀ x t, t.rest.length < s.rest.length → Along σ False k (q (some x)) (q' (some x)) t)
    (hnone : Along σ False k (q none) (q' none) s) :
    Along σ False k (accept? kinds >>= q) (accept? kinds >>= q') s := by
  cases haccept : !s.atEnd && kinds s.current.kind with
  | true =>
    have hend : s.atEnd = false := by simpa using (Bool.and_eq_true_iff.mp haccept).1
    refine step (t := s.advance) (by rw [EStateM.run_bind, accept?_run, haccept]; rfl) (.advance s)
      (fun hinside s' habreast => ⟨s'.advance, ?_, ?_⟩)
      (hsome s.current _ (ParserState.advance_length_lt hend))
    -- inside, the two see the same current token
    · have hlt := (hinside.earlier (.advance s)).before
      rw [EStateM.run_bind, accept?_run, habreast.atEnd hlt, habreast.current hlt, haccept]
      rfl
    · exact habreast.advance (hinside.earlier (.advance s)).before
  | false =>
    refine step (t := s) (by rw [EStateM.run_bind, accept?_run, haccept]; rfl) (.refl s)
      (fun hinside s' habreast => ⟨s', ?_, habreast⟩) hnone
    rw [EStateM.run_bind, accept?_run, habreast.atEnd hinside.before,
      habreast.current hinside.before, haccept]
    rfl

/-- A token of one kind is consumed, or none. -/
theorem accept_bind {kind : TokenKind} {q : Bool → Parser β} {q' : Bool → Parser β'}
    (htrue : ∀ t, t.rest.length < s.rest.length → Along σ False k (q true) (q' true) t)
    (hfalse : Along σ False k (q false) (q' false) s) :
    Along σ False k (accept kind >>= q) (accept kind >>= q') s := by
  rw [accept, bind_assoc, bind_assoc]
  exact accept?_bind (fun x t hlt => htrue t hlt) hfalse

/-- Both see the same kind, since they are before the seam. -/
theorem looksAt_bind {kind : TokenKind} {q : Bool → Parser β} {q' : Bool → Parser β'}
    (h : ∀ b, Along σ False k (q b) (q' b) s) :
    Along σ False k (looksAt kind >>= q) (looksAt kind >>= q') s := by
  refine step (t := s) rfl (.refl s) (fun hinside s' habreast => ⟨s', ?_, habreast⟩)
    (h (!s.atEnd && decide (s.current.kind = kind)))
  rw [← habreast.atEnd hinside.before, ← habreast.current hinside.before]
  rfl

/-- A token of one kind is consumed, or both fail. -/
theorem expect_bind {kind : TokenKind} {what : Expectation} {q : Token → Parser β}
    {q' : Token → Parser β'}
    (h : ∀ x t, t.rest.length < s.rest.length → Along σ closing k (q x) (q' x) t) :
    Along σ closing k (expect kind what >>= q) (expect kind what >>= q') s := by
  cases haccept : !s.atEnd && decide (s.current.kind = kind) with
  | true =>
    have hend : s.atEnd = false := by simpa using (Bool.and_eq_true_iff.mp haccept).1
    refine step (t := s.advance) (by rw [EStateM.run_bind, expect_run, haccept]; rfl) (.advance s)
      (fun hinside s' habreast => ?_) (h s.current _ (ParserState.advance_length_lt hend))
    have hlt := lt_of_inside hend (.advance s) hinside habreast
    refine ⟨s'.advance, ?_, habreast.advance hlt⟩
    rw [EStateM.run_bind, expect_run, habreast.atEnd hlt, habreast.current hlt, haccept]
    rfl
  | false =>
    unfold Along
    rw [EStateM.run_bind, expect_run, haccept]
    -- both fail at the token that they see, with the same error
    refine ⟨.refl s, fun hbefore s' habreast => ⟨s', ?_, habreast⟩⟩
    rw [EStateM.run_bind, expect_run, habreast.atEnd hbefore.before,
      habreast.current hbefore.before, haccept, habreast.errorHere hbefore.before]
    rfl

/-- A token that is expected stands before the seam, so what is in front of it stays before the
    seam too. -/
theorem bind_expect {kind : TokenKind} {what : Expectation} {q : α → Token → Parser β}
    {q' : α' → Token → Parser β'} (hp : Along σ False g p p' s)
    (hq : ∀ a x t, t.rest.length < s.rest.length → Along σ closing k (q a x) (q' (g a) x) t) :
    Along σ closing k (p >>= fun a => expect kind what >>= q a)
      (p' >>= fun a => expect kind what >>= q' a) s := by
  refine hp.bind_of_inside (fun a t hrun => expect_bind fun x u hlt =>
    hq a x u (Nat.lt_of_lt_of_le hlt (hp.later hrun).length_le)) ?_
  intro a t b u s' _ hrun hlater hlater' habreast hinside
  rcases hinside.earlier hlater' with hlt | ⟨-, hclosable, -⟩
  · exact .of_before hlt
  · -- at the seam the text has ended, and the token that is expected would not be there
    refine .of_before (Nat.lt_of_not_le fun hle => ?_)
    have hend := hclosable.atEnd habreast hlater hle
    rw [EStateM.run_bind, expect_run, hend] at hrun
    cases hrun

/-- Deciding by the next token. At the end nothing must succeed. -/
theorem peekKind_bind {q : TokenKind → Parser β} {q' : TokenKind → Parser β'}
    (hend : closing → s.atEnd → ∀ b t, (peekKind >>= q).run s ≠ .ok b t)
    (h : Along σ closing k (q s.current.kind) (q' s.current.kind) s) :
    Along σ closing k (peekKind >>= q) (peekKind >>= q') s := by
  have hrun : (peekKind >>= q).run s = (q s.current.kind).run s := rfl
  have hrun' (s' : ParserState) : (peekKind >>= q').run s' = (q' s'.current.kind).run s' := rfl
  unfold Along at h ⊢
  rw [hrun]
  cases hq : (q s.current.kind).run s with
  | error e t =>
    rw [hq] at h
    refine ⟨h.1, fun hbefore s' habreast => ?_⟩
    rw [hrun', habreast.current (hbefore.earlier h.1).before]
    exact h.2 hbefore s' habreast
  | ok b t =>
    rw [hq] at h
    refine ⟨h.1, fun hinside s' habreast => ?_⟩
    -- at the seam the first text would be at its end, where nothing succeeds
    have hlt : σ.behind.length < s.rest.length := by
      refine Nat.lt_of_not_le fun hle => ?_
      rcases hinside.earlier h.1 with hlt | ⟨hclosing, hclosable, -⟩
      · exact absurd hlt (Nat.not_lt_of_le hle)
      · exact hend hclosing (hclosable.atEnd habreast (.refl s) hle) b t hq
    rw [hrun', habreast.current hlt]
    exact h.2 hinside s' habreast

/-- An `else` at the seam is there in neither text. -/
theorem accept_else_bind {q : Bool → Parser β} {q' : Bool → Parser β'}
    (htrue : ∀ t, t.rest.length < s.rest.length → Along σ closing k (q true) (q' true) t)
    (hfalse : Along σ closing k (q false) (q' false) s) :
    Along σ closing k (accept (.keyword .else_) >>= q) (accept (.keyword .else_) >>= q') s := by
  cases haccept : !s.atEnd && decide (s.current.kind = .keyword .else_) with
  | true =>
    have hend : s.atEnd = false := by simpa using (Bool.and_eq_true_iff.mp haccept).1
    refine step (t := s.advance) (by rw [EStateM.run_bind, accept_run, haccept]; rfl) (.advance s)
      (fun hinside s' habreast => ?_) (htrue _ (ParserState.advance_length_lt hend))
    have hlt := lt_of_inside hend (.advance s) hinside habreast
    refine ⟨s'.advance, ?_, habreast.advance hlt⟩
    rw [EStateM.run_bind, accept_run, habreast.atEnd hlt, habreast.current hlt, haccept]
    rfl
  | false =>
    refine step (t := s) (by rw [EStateM.run_bind, accept_run, haccept]; rfl) (.refl s)
      (fun hinside s' habreast => ⟨s', ?_, habreast⟩) hfalse
    -- before the seam the tokens are the same, and behind it the second text has no `else`
    suffices h : (!s'.atEnd && decide (s'.current.kind = .keyword .else_)) = false by
      rw [EStateM.run_bind, accept_run, h]
      rfl
    by_cases hlt : σ.behind.length < s.rest.length
    · rw [habreast.atEnd hlt, habreast.current hlt, haccept]
    · obtain ⟨-, hclosable, -⟩ := hinside.resolve_left hlt
      obtain ⟨ts, hrest, hrest'⟩ := habreast.rest
      have hnil : ts = [] := by
        rw [hrest, List.length_append] at hlt
        exact List.length_eq_zero_iff.mp (by omega)
      rw [hnil, List.nil_append] at hrest'
      cases hbehind : σ.behind' with
      | nil => simp [ParserState.atEnd, ParserState.current, hrest', hbehind, Token.eof]
      | cons t ts =>
        have hkind := hclosable.goesOn t (by simp [hbehind])
        simp [ParserState.current, hrest', hbehind, hkind]

/-- Rounds are only counted up to the seam: it is enough to compare as many rounds as there are
    with at least one. -/
theorem of_succ (loop : Nat → Parser α') (h : ∀ n, s.rest.length ≤ n + 1 + σ.behind.length →
    Along σ False g p (loop (n + 1)) s) (n : Nat) (hn : s.rest.length ≤ n + σ.behind.length) :
    Along σ False g p (loop n) s := by
  cases n with
  | zero => exact (h s.rest.length (by omega)).elsewhere (by omega) False.elim
  | succ n => exact h n hn

/-- The expected token is the same on both sides. -/
theorem expect (kind : TokenKind) (what : Expectation) :
    Along σ closing (Token.relabel σ.shift) (expect kind what)
      (expect kind what) s := by
  rw [← bind_pure (Parser.expect kind what)]
  exact expect_bind fun x _ _ => pure x

end Along

end Parser

end Lox
