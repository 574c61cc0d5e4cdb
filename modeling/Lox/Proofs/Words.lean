import Lox.Proofs.WellFormed

/-!
# Other words in a text

In a text identifiers are replaced by another one. Everything around them is read as before, as
whatever starts or ends next to a word starts or ends next to any other word.

## Key results

- `Segment.Resembles`: texts that differ from the start of a word on
- `Segment.ofText_withWord`: the segments of a text with another word in it
- `Scan.ofText_withWord`: its tokens
-/

namespace Lox

namespace Segment

/-- The kind of the lexeme that a segment is. -/
def lexeme? (s : Segment) : Option TokenKind :=
  match s.kind with
  | .lexeme kind => some kind
  | _ => none

/-- The kinds of the lexemes, and of the end of the text. -/
def kinds : List Segment → List TokenKind
  | [] => [.eof]
  | s :: rest => s.lexeme?.toList ++ kinds rest

/-- The segments with a word in place of the lexemes at some places. So many lexemes come before
    them. -/
def withWord (places : List Nat) (word : List Char) : (before : Nat) → List Segment → List Segment
  | _, [] => []
  | before, s :: rest =>
    match s.lexeme? with
    | some kind =>
      (if before ∈ places then ⟨.lexeme kind, word⟩ else s) :: withWord places word (before + 1) rest
    | none => s :: withWord places word before rest

/-! ## What stands before a word -/

/-- Two texts that are the same up to the start of a word. -/
inductive Resembles : List Char → List Char → Prop
  | nil : Resembles [] []
  | cons (c : Char) {rest rest' : List Char} (h : Resembles rest rest') :
      Resembles (c :: rest) (c :: rest')
  | word {c c' : Char} {rest rest' : List Char} (hc : isWordStart c) (hc' : isWordStart c') :
      Resembles (c :: rest) (c' :: rest')

namespace Resembles

variable {text text' : List Char} {p : Char → Bool}

/-- Texts that resemble each other do so behind the same characters. -/
theorem append (body : List Char) (h : Resembles text text') :
    Resembles (body ++ text) (body ++ text') := by
  induction body with
  | nil => exact h
  | cons c body ih => exact .cons c ih

/-- What holds of the first character, if words are all the same to it. -/
theorem head (h : Resembles text text')
    (hp : ∀ c c', isWordStart c → isWordStart c' → p c = p c')
    (hhead : ∀ c ∈ text.head?, ¬ p c) : ∀ c ∈ text'.head?, ¬ p c := by
  cases h with
  | nil => exact hhead
  | cons c _ => exact hhead
  | @word c c' _ _ hc hc' =>
    rintro _ ⟨⟩
    rw [← hp c c' hc hc']
    exact hhead c rfl

/-- A character that starts no word is ahead in both texts or in neither. -/
theorem head_eq_iff (h : Resembles text text') {c : Char} (hc : ¬ isWordStart c) :
    text'.head? = some c ↔ text.head? = some c := by
  cases h with
  | nil => rfl
  | cons d _ => rfl
  | word hd hd' =>
    simp only [List.head?_cons, Option.some.injEq]
    constructor
    · rintro rfl
      exact absurd hd' hc
    · rintro rfl
      exact absurd hd hc

/-- Words are no digits. -/
theorem digits (h : Resembles text text') : text'.takeWhile isDigit = text.takeWhile isDigit ∧
    Resembles (text.dropWhile isDigit) (text'.dropWhile isDigit) := by
  have hword : ∀ c, isWordStart c → ¬ isDigit c := fun c hc hd => (isDigit_apart hd).1 hc
  -- the words may differ in anything but that they start with no digit
  induction h with
  | nil => exact ⟨rfl, .nil⟩
  | cons c h ih =>
    by_cases hc : isDigit c
    · rw [List.takeWhile_cons_of_pos hc, List.takeWhile_cons_of_pos hc,
        List.dropWhile_cons_of_pos hc, List.dropWhile_cons_of_pos hc]
      exact ⟨congrArg _ ih.1, ih.2⟩
    · rw [List.takeWhile_cons_of_neg hc, List.takeWhile_cons_of_neg hc,
        List.dropWhile_cons_of_neg hc, List.dropWhile_cons_of_neg hc]
      exact ⟨rfl, .cons c h⟩
  | word hc hc' =>
    rw [List.takeWhile_cons_of_neg (hword _ hc), List.takeWhile_cons_of_neg (hword _ hc'),
      List.dropWhile_cons_of_neg (hword _ hc), List.dropWhile_cons_of_neg (hword _ hc')]
    exact ⟨rfl, .word hc hc'⟩

/-- Words in front of which no digit stands make no difference for a fraction. -/
theorem fraction (h : Resembles text text') : fraction text' = fraction text := by
  cases h with
  | nil => rfl
  | cons c h =>
    by_cases hc : c = '.'
    · subst hc
      exact h.digits.1
    · simp [Segment.fraction, hc]
  | @word c c' _ _ hc hc' =>
    -- no word starts with a point, so there is no fraction in front of one
    have hpoint : ¬ isWordStart '.' := by decide
    have hne : c ≠ '.' := fun h => hpoint (h ▸ hc)
    have hne' : c' ≠ '.' := fun h => hpoint (h ▸ hc')
    simp [Segment.fraction, hne, hne']

end Resembles

/-! ## The first segment -/

section First

variable {c : Char} {body after after' : List Char}

/-- A string literal that ends before the words makes no difference between them. -/
private theorem string_congr (h : Resembles after after')
    (htext : (string (body ++ after)).text = '"' :: body) :
    string (body ++ after') = string (body ++ after) := by
  unfold string at htext ⊢
  by_cases hmem : '"' ∈ body ++ after
  · -- the contents end at the quote at the end of the body
    rw [if_pos hmem] at htext ⊢
    have hbody : (body ++ after).takeWhile (· ≠ '"') ++ ['"'] = body := (List.cons.inj htext).2
    generalize hcontents : (body ++ after).takeWhile (· ≠ '"') = contents at hbody ⊢
    subst hbody
    rw [List.append_assoc, List.singleton_append] at hcontents
    have hafter : (contents ++ '"' :: after').takeWhile (· ≠ '"') = contents :=
      (takeWhile_run (run_of_takeWhile hcontents).1 (by simp)).1
    rw [if_pos (by simp)]
    simp only [List.append_assoc, List.singleton_append, hafter]
  · -- no quote follows, so there is nothing after the body
    rw [if_neg hmem] at htext
    have hafter : body ++ after = body := (List.cons.inj htext).2
    obtain rfl : after = [] := List.append_right_eq_self.mp hafter
    cases h
    rfl

/-- A number does not go on with a word. -/
private theorem number_congr (h : Resembles after after') :
    number c (body ++ after') = number c (body ++ after) := by
  obtain ⟨hwhole, hbehind⟩ := (h.append body).digits
  unfold number
  rw [hwhole, hbehind.fraction]

/-- What goes on with a word does so after any letter. -/
private theorem isWordPart_congr (c c' : Char) (hc : isWordStart c) (hc' : isWordStart c') :
    isWordPart c = isWordPart c' := by
  simp [isWordPart, hc, hc']

/-- A word that ends before the other words makes no difference between them. -/
private theorem word_congr (h : Resembles after after')
    (htext : (word c (body ++ after)).text = c :: body) :
    word c (body ++ after') = word c (body ++ after) := by
  -- how far a word goes is seen from its text, which is what it has been cut from
  have hbody : (body ++ after).takeWhile isWordPart = body := by
    unfold word at htext
    dsimp only at htext
    split at htext <;> exact (List.cons.inj htext).2
  obtain ⟨hrun, hafter⟩ := run_of_takeWhile hbody
  have hbody' : (body ++ after').takeWhile isWordPart = body :=
    (takeWhile_run hrun (h.head isWordPart_congr hafter)).1
  unfold word
  rw [hbody, hbody']

/-- The first segment stays what it is if another word starts somewhere behind it. -/
theorem first_congr (h : Resembles after after')
    (htext : (first c (body ++ after)).text = c :: body) :
    first c (body ++ after') = first c (body ++ after) := by
  have hslash := (h.append body).head_eq_iff (show ¬ isWordStart '/' by decide)
  have hequal := (h.append body).head_eq_iff (show ¬ isWordStart '=' by decide)
  unfold first at htext ⊢
  simp only [hslash, hequal] at htext ⊢
  split
  · rename_i hcomment
    rw [if_pos hcomment] at htext
    have hbody : (body ++ after).takeWhile (· ≠ '\n') = body := (List.cons.inj htext).2
    -- a comment ends at a newline, and no word starts with one
    obtain ⟨hrun, hafter⟩ := run_of_takeWhile hbody
    have hbreak : ∀ c c', isWordStart c → isWordStart c' →
        decide (c ≠ '\n') = decide (c' ≠ '\n') := by
      intro c c' hc hc'
      have hne : c ≠ '\n' := fun heq => absurd (heq ▸ hc) (by decide)
      have hne' : c' ≠ '\n' := fun heq => absurd (heq ▸ hc') (by decide)
      simp [hne, hne']
    have hbody' : (body ++ after').takeWhile (· ≠ '\n') = body :=
      (takeWhile_run hrun (h.head hbreak hafter)).1
    rw [hbody, hbody']
  · rename_i hcomment
    rw [if_neg hcomment] at htext
    -- a string, a number and a word each end where they did before
    split
    · rfl
    · rename_i hblank
      rw [if_neg hblank] at htext
      split
      · rename_i hquote
        subst hquote
        rw [if_pos rfl] at htext
        exact string_congr h htext
      · rename_i hquote
        rw [if_neg hquote] at htext
        split
        · exact number_congr h
        · rename_i hdigit
          rw [if_neg hdigit] at htext
          split
          · rename_i hword
            rw [if_pos hword] at htext
            exact word_congr h htext
          · rfl

end First

/-! ## All segments -/

/-- An identifier starts with a letter, and all of it are letters and digits. -/
theorem identifier_cases {word : List Char} (h : Lexeme word .identifier) :
    ∃ c rest, word = c :: rest ∧ isWordStart c ∧ (∀ d ∈ rest, isWordPart d) ∧
      Keyword.ofWord? (String.ofList word) = none := by
  cases h with
  | symbol h =>
    have hsymbols : ∀ s ∈ symbols, s.2 ≠ .identifier := by simp [symbols]
    exact absurd rfl (hsymbols _ h)
  | @identifier c rest hc hrest hk =>
    refine ⟨c, rest, rfl, hc, hrest, List.find?_eq_none.mpr fun k _ heq => hk k ?_⟩
    rw [of_decide_eq_true heq, String.toList_ofList]

/-- What starts like a word is one. -/
private theorem first_eq_word {c : Char} (hc : isWordStart c) (rest : List Char) :
    first c rest = word c rest := by
  obtain ⟨hquote, hblank⟩ := isWordStart_apart hc
  have hdigit : ¬ isDigit c := fun hd => (isDigit_apart hd).1 hc
  have hslash : c ≠ '/' := fun h => absurd (h ▸ hc) (by decide)
  unfold first
  rw [if_neg (by simp [hslash]), if_neg hblank, if_neg hquote, if_neg hdigit, if_pos hc]

/-- A word stands before anything that does not continue it. -/
theorem first_word {c : Char} {rest after : List Char} (hc : isWordStart c)
    (hrest : ∀ d ∈ rest, isWordPart d)
    (hk : Keyword.ofWord? (String.ofList (c :: rest)) = none)
    (hafter : ∀ d ∈ after.head?, ¬ isWordPart d) :
    first c (rest ++ after) = ⟨.lexeme .identifier, c :: rest⟩ := by
  rw [first_eq_word hc]
  unfold word
  rw [(takeWhile_run hrest hafter).1]
  simp only [hk]

/-- What follows a word does not continue it. -/
private theorem not_isWordPart_after {c : Char} {body after : List Char} (hc : isWordStart c)
    (htext : (first c (body ++ after)).text = c :: body) : ∀ d ∈ after.head?, ¬ isWordPart d := by
  rw [first_eq_word hc] at htext
  unfold word at htext
  dsimp only at htext
  have hbody : (body ++ after).takeWhile isWordPart = body := by
    split at htext <;> exact (List.cons.inj htext).2
  exact (run_of_takeWhile hbody).2

/-- A text that starts with a segment, and the others. -/
theorem ofText_of_first {c : Char} {rest after : List Char} {s : Segment}
    (hfirst : first c rest = s) (h : s.text ++ after = c :: rest) :
    ofText (s.text ++ after) = s :: ofText after := by
  rw [h, ofText_cons, hfirst, ← h, List.drop_left]

/-- A segment that is a lexeme is of its kind. -/
theorem lexeme?_eq_some {s : Segment} {kind : TokenKind} (h : s.lexeme? = some kind) :
    s.kind = .lexeme kind := by
  unfold lexeme? at h
  split at h
  · cases h
    assumption
  · cases h

variable {places : List Nat} {word : List Char}

/-- Another identifier in place of identifiers is a segment there, and the other segments stay. -/
theorem ofText_withWord (hword : Lexeme word .identifier) (before : Nat) (text : List Char)
    (hplaces : ∀ i kind, (kinds (ofText text))[i]? = some kind → before + i ∈ places →
      kind = .identifier) :
    ofText ((withWord places word before (ofText text)).flatMap (·.text)) =
        withWord places word before (ofText text) ∧
      Resembles text ((withWord places word before (ofText text)).flatMap (·.text)) := by
  match text with
  | [] => exact ⟨rfl, .nil⟩
  | c :: rest =>
    obtain ⟨after, heq⟩ := first_text_prefix c rest
    have hlt : after.length < (c :: rest).length := by
      have := List.length_pos_iff.mpr (first_text_ne_nil c rest)
      rw [← heq, List.length_append]
      omega
    have hsegments : ofText (c :: rest) = first c rest :: ofText after := by
      rw [← heq]
      exact ofText_of_first rfl heq
    have hmem : first c rest ∈ ofText (c :: rest) := by
      rw [hsegments]
      exact List.mem_cons_self
    obtain ⟨body, hbody⟩ : ∃ body, (first c rest).text = c :: body := by
      cases htext : (first c rest).text with
      | nil => exact absurd htext (first_text_ne_nil c rest)
      | cons d body =>
        rw [htext] at heq
        exact ⟨body, by rw [(List.cons.inj heq).1]⟩
    have hrest : rest = body ++ after := by
      rw [hbody] at heq
      exact (List.cons.inj heq).2.symm
    rw [hsegments] at hplaces ⊢
    rw [hrest] at hbody hplaces hmem ⊢
    -- the first segment stays, and the others are those of the rest with the word in it
    have hkeep : ∀ segments, ofText (segments.flatMap (·.text)) = segments →
        Resembles after (segments.flatMap (·.text)) →
        ofText ((first c (body ++ after) :: segments).flatMap (·.text)) =
            first c (body ++ after) :: segments ∧
          Resembles (c :: (body ++ after))
            ((first c (body ++ after) :: segments).flatMap (·.text)) := by
      intro segments hsegments hresembles
      have hfirst := first_congr hresembles hbody
      rw [List.flatMap_cons]
      refine ⟨?_, ?_⟩
      · rw [ofText_of_first hfirst (by rw [hbody]; rfl), hsegments]
      · rw [hbody]
        exact .cons c (hresembles.append body)
    cases hkind : (first c (body ++ after)).lexeme? with
    | none =>
      have hrest := ofText_withWord hword before after fun i kind hi =>
        hplaces i kind (by simpa [kinds, hkind] using hi)
      rw [withWord, hkind]
      exact hkeep _ hrest.1 hrest.2
    | some kind =>
      have hrest := ofText_withWord hword (before + 1) after fun i kind hi hplace =>
        hplaces (i + 1) kind (by simpa [kinds, hkind] using hi) (by
          rwa [Nat.add_assoc, Nat.add_comm 1] at hplace)
      rw [withWord, hkind]
      dsimp only
      split
      · rename_i hplace
        obtain rfl := hplaces 0 kind (by simp [kinds, hkind]) hplace
        have hlexeme := lexeme_of_mem_ofText hmem (lexeme?_eq_some hkind)
        rw [hbody] at hlexeme
        obtain ⟨_, _, htext, hc, -⟩ := identifier_cases hlexeme
        obtain rfl := (List.cons.inj htext).1
        obtain ⟨d, parts, rfl, hd, hparts, hk⟩ := identifier_cases hword
        have hafter := hrest.2.head isWordPart_congr (not_isWordPart_after hc hbody)
        rw [List.flatMap_cons]
        refine ⟨?_, .word hc hd⟩
        rw [ofText_of_first (first_word hd hparts hk hafter) rfl, hrest.1]
      · exact hkeep _ hrest.1 hrest.2
termination_by text.length
decreasing_by all_goals exact hlt

end Segment

/-! ## Tokens -/

/-- The token with this number has another spelling if the number is one of these. -/
def Token.spellAt (places : List Nat) (word : String) (i : Nat) (t : Token) : Token :=
  if i ∈ places then { t with lexeme := word } else t

/-- An identifier is no reserved word. -/
theorem Lexeme.ne_word {name : String} (h : Lexeme name.toList .identifier) (k : Keyword) :
    name ≠ k.word := by
  rintro rfl
  obtain ⟨_, _, -, -, -, hk⟩ := Segment.identifier_cases h
  rw [String.ofList_toList, Keyword.ofWord?_word] at hk
  cases hk

/-- No other kind of lexeme is spelled like an identifier. -/
theorem Lexeme.kind_eq_identifier {word : List Char} {kind : TokenKind}
    (h : Lexeme word .identifier) (h' : Lexeme word kind) : kind = .identifier := by
  obtain ⟨c, rest, hword, hc, -, hk⟩ := Segment.identifier_cases h
  cases h' with
  | symbol hmem =>
    -- the kinds of lexeme differ in their first character, keywords excepted
    have hsymbols : ∀ s ∈ symbols, s.1.head?.all fun c => !Segment.isWordStart c := by decide
    have hhead := hsymbols _ hmem
    simp [hword, hc] at hhead
  | string =>
    cases hword
    exact absurd hc (by decide)
  | whole _ hd =>
    rw [hword] at hd
    exact absurd hc (Segment.isDigit_apart (hd c List.mem_cons_self)).1
  | @decimal whole _ _ hwne _ hw =>
    cases whole with
    | nil => exact absurd rfl hwne
    | cons d whole =>
      obtain rfl := (List.cons.inj hword).1
      exact absurd hc (Segment.isDigit_apart (hw d List.mem_cons_self)).1
  | keyword k =>
    -- a keyword would be looked up as one
    rw [String.ofList_toList, Keyword.ofWord?_word] at hk
    cases hk
  | identifier => rfl

/-- An identifier stands on one line. -/
private theorem Lexeme.count_newline {word : List Char} (h : Lexeme word .identifier) :
    word.count '\n' = 0 := by
  obtain ⟨c, rest, rfl, hc, hrest, -⟩ := Segment.identifier_cases h
  refine List.count_eq_zero.mpr fun hmem => ?_
  rcases List.mem_cons.mp hmem with heq | hmem
  · exact absurd (heq ▸ hc) (by decide)
  · exact absurd (hrest _ hmem) (by decide)

namespace ScanItem

/-- The token that an item is. -/
def token? : ScanItem → Option Token
  | .ok t => some t
  | .error _ => none

/-- The error that an item is. -/
def error? : ScanItem → Option LexError
  | .ok _ => none
  | .error e => some e

section Items

variable (t : Token) (e : LexError) (items : List ScanItem)

/-- A token is one of the tokens among the items. -/
@[simp] theorem filterMap_token?_ok :
    (.ok t :: items).filterMap token? = t :: items.filterMap token? :=
  rfl

/-- An error is no token. -/
@[simp] theorem filterMap_token?_error :
    (.error e :: items).filterMap token? = items.filterMap token? :=
  rfl

/-- A token is no error. -/
@[simp] theorem filterMap_error?_ok : (.ok t :: items).filterMap error? = items.filterMap error? :=
  rfl

/-- An error is one of the errors among the items. -/
@[simp] theorem filterMap_error?_error :
    (.error e :: items).filterMap error? = e :: items.filterMap error? :=
  rfl

end Items

variable {places : List Nat} {word : List Char}

/-- What kinds of tokens there are does not depend on lines. -/
theorem map_kind_ofSegments (line : Nat) (segments : List Segment) :
    ((ofSegments line segments).filterMap token?).map (·.kind) = Segment.kinds segments := by
  induction segments generalizing line with
  | nil => rfl
  | cons s segments ih =>
    rw [ofSegments, Segment.kinds, ← ih (line + s.text.count '\n')]
    cases hkind : s.kind <;> simp [ofSegment?, Segment.lexeme?, hkind]

/-- A token is a lexeme among the segments, or the end of the text. -/
theorem lexeme_of_mem_ofSegments {line : Nat} {segments : List Segment} {t : Token}
    (h : t ∈ (ofSegments line segments).filterMap token?) : t.kind = .eof ∧ t.lexeme = "" ∨
      ∃ s ∈ segments, s.kind = .lexeme t.kind ∧ t.lexeme = String.ofList s.text := by
  induction segments generalizing line with
  | nil =>
    obtain rfl := List.mem_singleton.mp h
    exact .inl ⟨rfl, rfl⟩
  | cons s segments ih =>
    rw [ofSegments, List.filterMap_append] at h
    rcases List.mem_append.mp h with h | h
    · refine .inr ⟨s, List.mem_cons_self, ?_⟩
      unfold ofSegment? at h
      split at h
      · cases h
      · rename_i hkind
        obtain rfl := List.mem_singleton.mp h
        exact ⟨hkind, rfl⟩
      · cases h
    · refine (ih h).imp_right ?_
      rintro ⟨s, hs, hlexeme⟩
      exact ⟨s, List.mem_cons_of_mem _ hs, hlexeme⟩

/-- Another word at some places is another spelling of the tokens there. -/
theorem ofSegments_withWord (hword : Lexeme word .identifier) (before line : Nat)
    (segments : List Segment)
    (hlexemes : ∀ s ∈ segments, ∀ kind, s.kind = .lexeme kind → Lexeme s.text kind)
    (hplaces : ∀ i kind, (Segment.kinds segments)[i]? = some kind → before + i ∈ places →
      kind = .identifier) :
    (ofSegments line (Segment.withWord places word before segments)).filterMap token? =
        ((ofSegments line segments).filterMap token?).mapIdx
          (fun i t => t.spellAt places (String.ofList word) (before + i)) ∧
      (ofSegments line (Segment.withWord places word before segments)).filterMap error? =
        (ofSegments line segments).filterMap error? := by
  induction segments generalizing before line with
  | nil =>
    have heof : before ∉ places := by
      intro h
      cases hplaces 0 .eof rfl h
    refine ⟨?_, rfl⟩
    simp [Segment.withWord, ofSegments, Token.spellAt, heof]
  | cons s segments ih =>
    obtain ⟨hs, hlexemes⟩ := List.forall_mem_cons.mp hlexemes
    rw [Segment.withWord]
    cases hkind : s.kind with
    | trivia | fault =>
      have hlexeme : s.lexeme? = none := by simp [Segment.lexeme?, hkind]
      obtain ⟨htokens, herrors⟩ := ih before (line + s.text.count '\n') hlexemes fun i kind hi =>
        hplaces i kind (by simpa [Segment.kinds, hlexeme] using hi)
      simp [hlexeme, ofSegments, ofSegment?, hkind, htokens, herrors]
    | lexeme kind =>
      have hlexeme : s.lexeme? = some kind := by simp [Segment.lexeme?, hkind]
      have ih := ih (before + 1) (line + s.text.count '\n') hlexemes fun i kind hi hplace =>
        hplaces (i + 1) kind (by simpa [Segment.kinds, hlexeme] using hi)
          (by rwa [Nat.add_assoc, Nat.add_comm 1] at hplace)
      have hshift : ∀ i, before + 1 + i = before + (i + 1) := fun i => by omega
      simp only [hshift] at ih
      by_cases hplace : before ∈ places
      · obtain rfl := hplaces 0 kind (by simp [Segment.kinds, hlexeme]) hplace
        -- no line ends in a word
        have hline := (hs _ hkind).count_newline
        rw [hline, Nat.add_zero] at ih
        simp [hlexeme, hplace, ofSegments, ofSegment?, hkind, hword.count_newline, hline, ih,
          List.mapIdx_cons, Token.spellAt]
      · simp [hlexeme, hplace, ofSegments, ofSegment?, hkind, ih, List.mapIdx_cons, Token.spellAt]

end ScanItem

namespace Scan

/-- The text with a word in place of the tokens at some places. -/
def withWord (text : String) (places : List Nat) (word : String) : String :=
  String.ofList ((Segment.withWord places word.toList 0 (Segment.ofText text.toList)).flatMap (·.text))

/-- The tokens of a text are lexemes of their kinds, up to the one for its end. -/
theorem lexeme_of_mem_tokens {text : String} {t : Token} (h : t ∈ (ofText text).tokens) :
    t.kind = .eof ∧ t.lexeme = "" ∨ Lexeme t.lexeme.toList t.kind := by
  refine (ScanItem.lexeme_of_mem_ofSegments h).imp_right ?_
  rintro ⟨s, hs, hkind, hlexeme⟩
  rw [hlexeme, String.toList_ofList]
  exact Segment.lexeme_of_mem_ofText hs hkind

/-- In a text with another identifier in place of identifiers, the tokens there are spelled in
    another way, and everything else is as before. -/
theorem ofText_withWord {text word : String} {places : List Nat}
    (hword : Lexeme word.toList .identifier)
    (hplaces : ∀ i t, (ofText text).tokens[i]? = some t → i ∈ places → t.kind = .identifier) :
    ofText (withWord text places word) =
      ⟨(ofText text).tokens.mapIdx fun i t => t.spellAt places word i, (ofText text).errors⟩ := by
  -- lexemes are counted as tokens are, so the places are those of identifiers
  have hkinds : ∀ i kind, (Segment.kinds (Segment.ofText text.toList))[i]? = some kind →
      0 + i ∈ places → kind = .identifier := by
    intro i kind hi hplace
    rw [← ScanItem.map_kind_ofSegments 1, List.getElem?_map] at hi
    obtain ⟨t, ht, rfl⟩ := Option.map_eq_some_iff.mp hi
    exact hplaces i t ht (by rwa [Nat.zero_add] at hplace)
  have hsegments := (Segment.ofText_withWord hword 0 text.toList hkinds).1
  obtain ⟨htokens, herrors⟩ := ScanItem.ofSegments_withWord hword 0 1 _
    (fun _ hs _ hkind => Segment.lexeme_of_mem_ofText hs hkind) hkinds
  have hitems : ScanItem.ofText (withWord text places word) = ScanItem.ofSegments 1
      (Segment.withWord places word.toList 0 (Segment.ofText text.toList)) := by
    rw [ScanItem.ofText, withWord, String.toList_ofList, hsegments]
  simp only [Nat.zero_add, String.ofList_toList] at htokens
  rw [← hitems] at htokens herrors
  exact congrArg₂ Scan.mk htokens herrors

end Scan

end Lox
