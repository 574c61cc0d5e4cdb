import Lox.Proofs.NumeralCorrect
import Lox.Proofs.Runs
import Lox.Token.Scan

/-!
# Scanning follows the lexical grammar

The lexical grammar says which texts are lexemes and of what kind. `Segment.Stands` says what may
stand at one place of a text, and `Scanned` what the items of a text are: a decomposition of the
whole text into such segments, and one item for each segment that is not trivia.

## Key results

- `Lexeme.head_cases`: the first character of a lexeme tells its form
- `Segment.first_stands`: the first segment is a comment, a blank, the longest lexeme or a fault
- `ScanItem.ofText_scanned`: scanning yields the items of a decomposition, for every text
-/

namespace Lox

/-! ## The lexical grammar -/

/-- The punctuation marks and the operators. -/
def symbols : List (List Char × TokenKind) :=
  [(['('], .leftParen), ([')'], .rightParen), (['{'], .leftBrace), (['}'], .rightBrace),
    ([','], .comma), (['.'], .dot), ([';'], .semicolon), (['-'], .minus), (['+'], .plus),
    (['/'], .slash), (['*'], .star), (['!'], .bang), (['!', '='], .bangEqual),
    (['='], .equal), (['=', '='], .equalEqual), (['>'], .greater), (['>', '='], .greaterEqual),
    (['<'], .less), (['<', '='], .lessEqual)]

/-- The lexemes and their kinds. A number carries the double nearest to it, a string the text
    between its quotes. -/
inductive Lexeme : List Char → TokenKind → Prop
  | symbol {text : List Char} {kind : TokenKind} (h : (text, kind) ∈ symbols) : Lexeme text kind
  | string {contents : List Char} (h : '"' ∉ contents) :
      Lexeme ('"' :: contents ++ ['"']) (.string (String.ofList contents))
  | whole {digits : List Char} {x : Float} (hne : digits ≠ [])
      (hd : ∀ c ∈ digits, Segment.isDigit c) (hx : Rounds (digitsValue digits) 1 x) :
      Lexeme digits (.number x)
  | decimal {whole fraction : List Char} {x : Float} (hwne : whole ≠ []) (hfne : fraction ≠ [])
      (hw : ∀ c ∈ whole, Segment.isDigit c) (hf : ∀ c ∈ fraction, Segment.isDigit c)
      (hx : Rounds (digitsValue (whole ++ fraction)) (10 ^ fraction.length) x) :
      Lexeme (whole ++ '.' :: fraction) (.number x)
  | keyword (k : Keyword) : Lexeme k.word.toList (.keyword k)
  | identifier {c : Char} {rest : List Char} (hc : Segment.isWordStart c)
      (hrest : ∀ d ∈ rest, Segment.isWordPart d) (hk : ∀ k : Keyword, k.word.toList ≠ c :: rest) :
      Lexeme (c :: rest) .identifier

/-- The segments that may stand before the rest of a text. -/
inductive Segment.Stands : Segment → (after : List Char) → Prop
  | comment {body after : List Char} (hbody : '\n' ∉ body)
      (hafter : ∀ c ∈ after.head?, c = '\n') : Stands ⟨.trivia, '/' :: '/' :: body⟩ after
  | blank {c : Char} {after : List Char} (h : c ∈ [' ', '\r', '\t', '\n']) :
      Stands ⟨.trivia, [c]⟩ after
  | lexeme {text after : List Char} {kind : TokenKind} (hcomment : ¬ ['/', '/'] <+: text ++ after)
      (h : Lexeme text kind)
      (hlongest : ∀ other otherKind, Lexeme other otherKind → other <+: text ++ after →
        other.length ≤ text.length) :
      Stands ⟨.lexeme kind, text⟩ after
  | unexpected {c : Char} {after : List Char} (hblank : c ∉ [' ', '\r', '\t', '\n'])
      (h : ∀ text kind, Lexeme text kind → text.head? ≠ some c) :
      Stands ⟨.fault (.unexpectedCharacter c), [c]⟩ after
  | unterminated {contents : List Char} (h : '"' ∉ contents) :
      Stands ⟨.fault .unterminatedString, '"' :: contents⟩ []

/-- The items of the rest of a text that starts after the characters `before`. The line of an item
    counts the line breaks up to the end of its segment. -/
inductive Scanned : (before text : List Char) → List ScanItem → Prop
  | eof {before : List Char} : Scanned before [] [.ok ⟨.eof, "", 1 + before.count '\n'⟩]
  | trivia {before text after : List Char} {items : List ScanItem}
      (h : Segment.Stands ⟨.trivia, text⟩ after) (hafter : Scanned (before ++ text) after items) :
      Scanned before (text ++ after) items
  | token {before text after : List Char} {kind : TokenKind} {items : List ScanItem}
      (h : Segment.Stands ⟨.lexeme kind, text⟩ after)
      (hafter : Scanned (before ++ text) after items) :
      Scanned before (text ++ after)
        (.ok ⟨kind, String.ofList text, 1 + (before ++ text).count '\n'⟩ :: items)
  | fault {before text after : List Char} {fault : LexFault} {items : List ScanItem}
      (h : Segment.Stands ⟨.fault fault, text⟩ after)
      (hafter : Scanned (before ++ text) after items) :
      Scanned before (text ++ after)
        (.error ⟨fault, 1 + (before ++ text).count '\n'⟩ :: items)

/-! ## The forms of lexemes -/

namespace Segment

/-- A digit starts no word, no string and is no blank. -/
theorem isDigit_apart {c : Char} (h : isDigit c) :
    ¬ isWordStart c ∧ c ≠ '"' ∧ ¬ isBlank c := by
  simp only [isDigit, Bool.and_eq_true, decide_eq_true_eq, Char.le_def,
    UInt32.le_iff_toNat_le] at h
  -- the three ranges are compared by the numbers of their characters
  refine ⟨?_, ?_, ?_⟩
  · simp only [isWordStart, Bool.or_eq_true, Bool.and_eq_true, decide_eq_true_eq, Char.le_def,
      UInt32.le_iff_toNat_le]
    rintro ((h' | h') | rfl)
    · simp at h h'; omega
    · simp at h h'; omega
    · simp at h
  · rintro rfl
    simp at h
  · simp only [isBlank, Bool.or_eq_true, decide_eq_true_eq]
    rintro (((rfl | rfl) | rfl) | rfl) <;> simp at h

/-- A letter starts no string and is no blank. -/
theorem isWordStart_apart {c : Char} (h : isWordStart c) : c ≠ '"' ∧ ¬ isBlank c := by
  refine ⟨?_, ?_⟩
  · rintro rfl
    exact absurd h (by decide)
  · simp only [isBlank, Bool.or_eq_true, decide_eq_true_eq]
    rintro (((rfl | rfl) | rfl) | rfl) <;> exact absurd h (by decide)

end Segment

namespace Lexeme

open Segment

/-- No symbol starts as a word, a number or a string does, or with a blank. -/
private theorem head_symbols : ∀ s ∈ symbols, s.1 ≠ [] ∧ s.1.head?.all fun c =>
    !isDigit c && !isWordStart c && c ≠ '"' && !isBlank c := by
  decide

/-- A reserved word is a word. -/
private theorem word_parts (k : Keyword) :
    k.word.toList.head?.all isWordStart ∧ k.word.toList.all isWordPart ∧ k.word.toList ≠ [] := by
  cases k <;> decide

/-- A lexeme is not empty. -/
theorem ne_nil {text : List Char} {kind : TokenKind} (h : Lexeme text kind) : text ≠ [] := by
  cases h with
  | symbol h => exact (head_symbols _ h).1
  | string => simp
  | whole hne => exact hne
  | decimal hwne => simp
  | keyword k => exact (word_parts k).2.2
  | identifier => simp

/-- The first character of a lexeme tells its form: a symbol, a string, a number or a word. -/
theorem head_cases {c : Char} {rest : List Char} {kind : TokenKind} (h : Lexeme (c :: rest) kind) :
    ((c :: rest, kind) ∈ symbols ∧ ¬ isDigit c ∧ ¬ isWordStart c ∧ c ≠ '"' ∧ ¬ isBlank c) ∨
      (c = '"' ∧ ∃ contents, '"' ∉ contents ∧ rest = contents ++ ['"']) ∨
      (isDigit c ∧ ∃ whole, (∀ d ∈ whole, isDigit d) ∧ (c :: rest = whole ∨
        ∃ fraction, fraction ≠ [] ∧ (∀ d ∈ fraction, isDigit d) ∧
          c :: rest = whole ++ '.' :: fraction)) ∨
      (isWordStart c ∧ ∀ d ∈ c :: rest, isWordPart d) := by
  -- each form of lexeme has its own first characters
  generalize htext : c :: rest = text at h ⊢
  cases h with
  | symbol h =>
    have hc := (head_symbols _ h).2
    rw [← htext] at hc
    refine .inl ⟨h, ?_⟩
    simpa [and_assoc] using hc
  | @string contents h =>
    obtain ⟨rfl, rfl⟩ := List.cons.inj htext
    exact .inr (.inl ⟨rfl, contents, h, rfl⟩)
  | whole hne hd =>
    subst htext
    exact .inr (.inr (.inl ⟨hd c (by simp), c :: rest, hd, .inl rfl⟩))
  | @decimal whole fraction _ hwne hfne hw hf =>
    refine .inr (.inr (.inl ⟨?_, whole, hw, .inr ⟨fraction, hfne, hf, rfl⟩⟩))
    cases whole with
    | nil => exact absurd rfl hwne
    | cons d whole =>
      obtain ⟨rfl, _⟩ := List.cons.inj htext
      exact hw c (by simp)
  | keyword k =>
    obtain ⟨hhead, hall, _⟩ := word_parts k
    rw [← htext] at hhead
    exact .inr (.inr (.inr ⟨by simpa using hhead, List.all_eq_true.mp hall⟩))
  | identifier hc hrest =>
    obtain ⟨rfl, rfl⟩ := List.cons.inj htext
    refine .inr (.inr (.inr ⟨hc, ?_⟩))
    intro d hd
    rcases List.mem_cons.mp hd with rfl | hd
    · simp [isWordPart, hc]
    · exact hrest d hd

/-- A lexeme that starts with a quote ends at the next one. -/
private theorem of_quote {rest : List Char} {kind : TokenKind} (h : Lexeme ('"' :: rest) kind) :
    ∃ contents, '"' ∉ contents ∧ rest = contents ++ ['"'] := by
  rcases h.head_cases with ⟨_, _, _, hq, _⟩ | ⟨_, h⟩ | ⟨hd, _⟩ | ⟨hw, _⟩
  · exact absurd rfl hq
  · exact h
  · exact absurd hd (by decide)
  · exact absurd hw (by decide)

/-- A lexeme that starts with a digit is a number. -/
private theorem of_digit {c : Char} {rest : List Char} {kind : TokenKind}
    (h : Lexeme (c :: rest) kind) (hc : isDigit c) :
    ∃ whole, (∀ d ∈ whole, isDigit d) ∧ (c :: rest = whole ∨
      ∃ fraction, fraction ≠ [] ∧ (∀ d ∈ fraction, isDigit d) ∧
        c :: rest = whole ++ '.' :: fraction) := by
  rcases h.head_cases with ⟨_, hd, _⟩ | ⟨rfl, _⟩ | ⟨_, h⟩ | ⟨hw, _⟩
  · exact absurd hc hd
  · exact absurd hc (by decide)
  · exact h
  · exact absurd hw (isDigit_apart hc).1

/-- A lexeme that starts with a letter is a word. -/
private theorem of_wordStart {c : Char} {rest : List Char} {kind : TokenKind}
    (h : Lexeme (c :: rest) kind) (hc : isWordStart c) : ∀ d ∈ c :: rest, isWordPart d := by
  rcases h.head_cases with ⟨_, _, hw, _⟩ | ⟨rfl, _⟩ | ⟨hd, _⟩ | ⟨_, h⟩
  · exact absurd hc hw
  · exact absurd hc (by decide)
  · exact absurd hc (isDigit_apart hd).1
  · exact h

/-- A lexeme that starts with any other character is a symbol. -/
private theorem of_other {c : Char} {rest : List Char} {kind : TokenKind}
    (h : Lexeme (c :: rest) kind) (hd : ¬ isDigit c) (hw : ¬ isWordStart c) (hq : c ≠ '"') :
    (c :: rest, kind) ∈ symbols := by
  rcases h.head_cases with ⟨h, _⟩ | ⟨h, _⟩ | ⟨h, _⟩ | ⟨h, _⟩
  · exact h
  · exact absurd h hq
  · exact absurd h hd
  · exact absurd h hw

end Lexeme

/-! ## The first segment of a text -/

namespace Segment

variable {c : Char} {rest after : List Char}

/-- A lexeme stands where no comment does, if no lexeme there is longer. -/
private theorem Stands.lexeme_of_cons {text : List Char} {kind : TokenKind}
    (htext : text ++ after = c :: rest) (hcomment : ¬ (c = '/' ∧ rest.head? = some '/'))
    (h : Lexeme text kind)
    (hlongest : ∀ other otherKind, Lexeme (c :: other) otherKind → c :: other <+: c :: rest →
      (c :: other).length ≤ text.length) :
    Stands ⟨.lexeme kind, text⟩ after := by
  refine .lexeme ?_ h ?_
  · rw [htext]
    rintro ⟨t, ht⟩
    obtain ⟨rfl, rfl⟩ := List.cons.inj ht
    exact hcomment ⟨rfl, rfl⟩
  · rw [htext]
    -- any other lexeme here starts with the same character
    intro other otherKind hother hpre
    cases other with
    | nil => simp
    | cons d other =>
      obtain ⟨rfl, _⟩ := List.cons_prefix_cons.mp hpre
      exact hlongest other otherKind hother hpre

/-- After a quote stands a string, or everything if no quote closes it. -/
private theorem string_stands (h : (string rest).text ++ after = '"' :: rest) :
    (string rest).Stands after := by
  unfold string at h ⊢
  split at h
  · rename_i hmem
    rw [if_pos hmem]
    have hq : '"' ∉ rest.takeWhile (· ≠ '"') := by
      intro hq
      simpa using List.mem_takeWhile_imp hq
    refine Stands.lexeme_of_cons h (by simp) (.string hq) ?_
    intro other otherKind hother hpre
    obtain ⟨contents, hcontents, rfl⟩ := hother.of_quote
    -- both end at the first quote
    obtain ⟨heq, _⟩ := @eq_run_of_cons (· ≠ '"') [] (rest.takeWhile (· ≠ '"'))
      (rest.dropWhile (· ≠ '"')) '"' contents
      (fun d hd => by simpa using ne_of_mem_of_not_mem hd hcontents)
      (fun d hd => List.mem_takeWhile_imp (p := (· ≠ '"')) hd)
      (by simp) (fun d hd => not_of_head?_dropWhile hd)
      (by rw [List.takeWhile_append_dropWhile]; exact (List.cons_prefix_cons.mp hpre).2)
    rw [heq]
    simp
  · rename_i hmem
    rw [if_neg hmem]
    obtain rfl : after = [] := by simpa using h
    exact .unterminated hmem

/-- Either no digit follows a point, or the digits after it are the fraction. -/
private theorem fraction_cases (rest : List Char) :
    (fraction rest = [] ∧ ∀ digits, digits ≠ [] → (∀ d ∈ digits, isDigit d) →
        ¬ '.' :: digits <+: rest) ∨
      (fraction rest ≠ [] ∧ ∃ more, rest = '.' :: more ∧ fraction rest = more.takeWhile isDigit) := by
  -- a point without a digit behind it is no part of a number
  by_cases h : fraction rest = []
  · refine .inl ⟨h, ?_⟩
    rintro digits hne hd ⟨t, rfl⟩
    cases digits with
    | nil => exact hne rfl
    | cons d digits => simp [fraction, hd d (by simp)] at h
  · refine .inr ⟨h, ?_⟩
    unfold fraction at h ⊢
    split at h
    · exact ⟨_, rfl, rfl⟩
    · exact absurd rfl h

/-- At a digit stands the longest number. -/
private theorem number_stands (hc : isDigit c) (h : (number c rest).text ++ after = c :: rest) :
    (number c rest).Stands after := by
  have hcomment : ¬ (c = '/' ∧ rest.head? = some '/') := by
    rintro ⟨rfl, _⟩
    exact absurd hc (by decide)
  -- the text is a run of digits and what stands after it
  have hwhole : ∀ d ∈ c :: rest.takeWhile isDigit, isDigit d := by
    intro d hd
    rcases List.mem_cons.mp hd with rfl | hd
    · exact hc
    · exact List.mem_takeWhile_imp hd
  have htext : c :: rest = (c :: rest.takeWhile isDigit) ++ rest.dropWhile isDigit := by
    rw [List.cons_append, List.takeWhile_append_dropWhile]
  have hend : ∀ d ∈ (rest.dropWhile isDigit).head?, ¬ isDigit d :=
    fun d hd => not_of_head?_dropWhile hd
  have hx := floatOfDigits_rounds (c :: rest.takeWhile isDigit) (fraction (rest.dropWhile isDigit))
  unfold number at h ⊢
  generalize c :: rest.takeWhile isDigit = whole at h hwhole htext hx ⊢
  generalize rest.dropWhile isDigit = behind at h htext hend hx ⊢
  have hne : whole ≠ [] := by
    rintro rfl
    cases behind with
    | nil => simp at htext
    | cons d behind =>
      obtain ⟨rfl, _⟩ := List.cons.inj htext
      exact hend c (by simp) hc
  dsimp only at h ⊢
  rcases fraction_cases behind with ⟨hf, hnone⟩ | ⟨hf, more, hmore, hfraction⟩
  · rw [hf] at h hx ⊢
    simp only [List.isEmpty_nil, if_true, List.append_nil] at h hx ⊢
    refine Stands.lexeme_of_cons h hcomment (.whole hne hwhole (by simpa using hx)) ?_
    intro other otherKind hother hpre
    rw [htext] at hpre
    obtain ⟨digits, hdigits, heq | ⟨digits', hne', hdigits', heq⟩⟩ := hother.of_digit hc
    · rw [heq] at hpre ⊢
      exact length_le_run hdigits hend hpre
    · rw [heq] at hpre
      obtain ⟨_, hpoint⟩ := eq_run_of_cons hdigits hwhole (by decide) hend hpre
      exact absurd hpoint (hnone digits' hne' hdigits')
  · have hempty : (fraction behind).isEmpty = false := by simpa using hf
    simp only [hempty, Bool.false_eq_true, if_false] at h ⊢
    have hfdigits : ∀ d ∈ fraction behind, isDigit d := by
      rw [hfraction]
      exact fun d hd => List.mem_takeWhile_imp hd
    refine Stands.lexeme_of_cons h hcomment (.decimal hne hf hwhole hfdigits hx) ?_
    intro other otherKind hother hpre
    rw [htext] at hpre
    obtain ⟨digits, hdigits, heq | ⟨digits', hne', hdigits', heq⟩⟩ := hother.of_digit hc
    · rw [heq] at hpre ⊢
      have := length_le_run hdigits hend hpre
      simp only [List.length_append, List.length_cons]
      omega
    · rw [heq] at hpre ⊢
      obtain ⟨rfl, hpoint⟩ := eq_run_of_cons hdigits hwhole (by decide) hend hpre
      rw [hmore, List.cons_prefix_cons, ← @List.takeWhile_append_dropWhile _ isDigit more] at hpoint
      have := length_le_run hdigits' (fun d hd => not_of_head?_dropWhile hd) hpoint.2
      simp only [List.length_append, List.length_cons, hfraction]
      omega

/-- At a letter stands the longest word. -/
private theorem word_stands (hc : isWordStart c) (h : (word c rest).text ++ after = c :: rest) :
    (word c rest).Stands after := by
  have hcomment : ¬ (c = '/' ∧ rest.head? = some '/') := by
    rintro ⟨rfl, _⟩
    exact absurd hc (by decide)
  -- whatever its kind, no word that stands here is longer
  have hlongest : ∀ other otherKind, Lexeme (c :: other) otherKind → c :: other <+: c :: rest →
      (c :: other).length ≤ (c :: rest.takeWhile isWordPart).length := by
    intro other otherKind hother hpre
    rw [← @List.takeWhile_append_dropWhile _ isWordPart rest] at hpre
    exact length_le_run (hother.of_wordStart hc) (fun d hd => not_of_head?_dropWhile hd)
      hpre
  unfold word at h ⊢
  dsimp only at h ⊢
  cases hk : Keyword.ofWord? (String.ofList (c :: rest.takeWhile isWordPart)) with
  | some k =>
    rw [hk] at h
    have hword : k.word = String.ofList (c :: rest.takeWhile isWordPart) := by
      simpa using List.find?_some hk
    have htext : c :: rest.takeWhile isWordPart = k.word.toList := by
      rw [hword, String.toList_ofList]
    refine Stands.lexeme_of_cons h hcomment ?_ hlongest
    rw [htext]
    exact .keyword k
  | none =>
    rw [hk] at h
    refine Stands.lexeme_of_cons h hcomment ?_ hlongest
    refine .identifier hc (fun d hd => List.mem_takeWhile_imp hd) ?_
    intro k hword
    have := List.find?_eq_none.mp hk k (Keyword.mem_all k)
    rw [← hword, String.ofList_toList] at this
    simp at this

/-- A symbol is one character, or one that may be extended and an equals sign. -/
private theorem mem_symbols_cases {other : List Char} {kind : TokenKind}
    (h : (c :: other, kind) ∈ symbols) :
    (other = [] ∧ ((punctuation? c).isSome ∨ (extensible? c).isSome)) ∨
      (other = ['='] ∧ punctuation? c = none ∧ (extensible? c).isSome) := by
  have hall : ∀ s ∈ symbols, s.1.head?.all fun c =>
      (s.1 = [c] && ((punctuation? c).isSome || (extensible? c).isSome)) ||
        (s.1 = [c, '='] && (punctuation? c).isNone && (extensible? c).isSome) := by
    decide
  simpa [and_assoc] using hall _ h

/-- Each punctuation character is among the symbols. -/
private theorem mem_symbols_of_punctuation {kind : TokenKind} (h : punctuation? c = some kind) :
    ([c], kind) ∈ symbols := by
  unfold punctuation? at h
  split at h <;> simp only [Option.some.injEq, reduceCtorEq] at h <;> subst h <;> simp [symbols]

/-- Each operator that can be extended is among the symbols, alone and extended. -/
private theorem mem_symbols_of_extensible {short long : TokenKind}
    (h : extensible? c = some (short, long)) :
    ([c], short) ∈ symbols ∧ ([c, '='], long) ∈ symbols := by
  unfold extensible? at h
  split at h <;> simp only [Option.some.injEq, Prod.mk.injEq, reduceCtorEq] at h <;>
    obtain ⟨rfl, rfl⟩ := h <;> simp [symbols]

/-- At a character that starts only symbols stands the longest symbol, or nothing but itself. -/
private theorem symbol_stands (hcomment : ¬ (c = '/' ∧ rest.head? = some '/'))
    (hblank : ¬ isBlank c)
    (hsymbol : ∀ other kind, Lexeme (c :: other) kind → (c :: other, kind) ∈ symbols) {s : Segment}
    (hs : s = match punctuation? c, extensible? c with
      | some kind, _ => ⟨.lexeme kind, [c]⟩
      | none, some (short, long) =>
        if rest.head? = some '=' then ⟨.lexeme long, [c, '=']⟩ else ⟨.lexeme short, [c]⟩
      | none, none => ⟨.fault (.unexpectedCharacter c), [c]⟩)
    (h : s.text ++ after = c :: rest) : s.Stands after := by
  -- punctuation is never extended; an operator is if an equals sign follows
  cases hp : punctuation? c with
  | some kind =>
    simp only [hp] at hs
    subst hs
    refine Stands.lexeme_of_cons h hcomment (.symbol (mem_symbols_of_punctuation hp)) ?_
    intro other otherKind hother hpre
    rcases mem_symbols_cases (hsymbol _ _ hother) with ⟨rfl, _⟩ | ⟨_, hnone, _⟩
    · exact Nat.le_refl 1
    · rw [hp] at hnone
      cases hnone
  | none =>
    cases he : extensible? c with
    | some kinds =>
      obtain ⟨short, long⟩ := kinds
      obtain ⟨hshort, hlong⟩ := mem_symbols_of_extensible he
      simp only [hp, he] at hs
      by_cases heq : rest.head? = some '='
      · rw [if_pos heq] at hs
        subst hs
        refine Stands.lexeme_of_cons h hcomment (.symbol hlong) ?_
        intro other otherKind hother hpre
        rcases mem_symbols_cases (hsymbol _ _ hother) with ⟨rfl, _⟩ | ⟨rfl, _⟩ <;> simp
      · rw [if_neg heq] at hs
        subst hs
        refine Stands.lexeme_of_cons h hcomment (.symbol hshort) ?_
        intro other otherKind hother hpre
        rcases mem_symbols_cases (hsymbol _ _ hother) with ⟨rfl, _⟩ | ⟨rfl, _⟩
        · exact Nat.le_refl 1
        · obtain ⟨t, ht⟩ := hpre
          obtain ⟨_, rfl⟩ := List.cons.inj ht
          exact absurd rfl heq
    | none =>
      simp only [hp, he] at hs
      subst hs
      refine .unexpected (by simpa [isBlank, or_assoc] using hblank) ?_
      intro text kind hlex hhead
      cases text with
      | nil => cases hhead
      | cons d text =>
        obtain rfl : d = c := by simpa using hhead
        rcases mem_symbols_cases (hsymbol _ _ hlex) with ⟨_, hsome⟩ | ⟨_, _, hsome⟩ <;>
          simp [hp, he] at hsome

/-- Every text starts with a segment that stands there. -/
theorem first_stands (h : (first c rest).text ++ after = c :: rest) :
    (first c rest).Stands after := by
  unfold first at h ⊢
  simp only [Bool.and_eq_true, decide_eq_true_eq] at h ⊢
  by_cases hcomment : c = '/' ∧ rest.head? = some '/'
  · -- a comment ends before the next line break
    rw [if_pos hcomment] at h ⊢
    obtain ⟨rfl, hslash⟩ := hcomment
    cases rest with
    | nil => simp at hslash
    | cons d rest =>
      obtain rfl : d = '/' := by simpa using hslash
      have hafter := eq_dropWhile (List.cons.inj h).2
      rw [List.takeWhile_cons_of_pos (by decide)]
      rw [List.dropWhile_cons_of_pos (by decide)] at hafter
      refine .comment (fun hmem => ?_) (fun d hd => ?_)
      · simpa using List.mem_takeWhile_imp hmem
      · rw [hafter] at hd
        simpa using not_of_head?_dropWhile hd
  · rw [if_neg hcomment] at h ⊢
    by_cases hblank : isBlank c
    · rw [if_pos hblank] at h ⊢
      exact .blank (by simpa [isBlank, or_assoc] using hblank)
    · rw [if_neg hblank] at h ⊢
      by_cases hq : c = '"'
      · rw [if_pos hq] at h ⊢
        subst hq
        exact string_stands h
      · rw [if_neg hq] at h ⊢
        by_cases hd : isDigit c
        · rw [if_pos hd] at h ⊢
          exact number_stands hd h
        · rw [if_neg hd] at h ⊢
          by_cases hw : isWordStart c
          · rw [if_pos hw] at h ⊢
            exact word_stands hw h
          · rw [if_neg hw] at h ⊢
            exact symbol_stands hcomment hblank (fun _ _ hlex => hlex.of_other hd hw hq) rfl h

end Segment

/-! ## The items of a text -/

namespace ScanItem

/-- The items of the rest of a text are those of its segments. -/
private theorem ofSegments_scanned (before text : List Char) :
    Scanned before text (ofSegments (1 + before.count '\n') (Segment.ofText text)) := by
  match text with
  | [] => exact .eof
  | c :: rest =>
    obtain ⟨after, h⟩ := Segment.first_text_prefix c rest
    have hlt : after.length < (c :: rest).length := by
      have := List.length_pos_iff.mpr (Segment.first_text_ne_nil c rest)
      rw [← h, List.length_append]
      omega
    have hstands := Segment.first_stands h
    -- the line of a token is counted over all that stands before it, its own text included
    have ih := ofSegments_scanned (before ++ (Segment.first c rest).text) after
    rw [Segment.ofText_cons]
    generalize Segment.first c rest = s at h hstands ih ⊢
    rw [← h, List.drop_left]
    rw [List.count_append, ← Nat.add_assoc] at ih
    obtain ⟨kind, segmentText⟩ := s
    cases kind with
    | trivia => exact .trivia hstands ih
    | lexeme kind =>
      have := Scanned.token hstands ih
      rwa [List.count_append, ← Nat.add_assoc] at this
    | fault fault =>
      have := Scanned.fault hstands ih
      rwa [List.count_append, ← Nat.add_assoc] at this
termination_by text.length
decreasing_by exact hlt

/-- Scanning a text follows the lexical grammar: its items are those of a decomposition of the
    whole text into blanks, comments, longest lexemes and faults, with the line on which each ends,
    and the end of the text. -/
theorem ofText_scanned (text : String) : Scanned [] text.toList (ofText text) :=
  ofSegments_scanned [] text.toList

end ScanItem

end Lox
