import Lox.Decimal.Nearest
import Lox.Token

/-!
# Cutting a text into segments

Every text is a sequence of segments, with nothing between them: trivia (a blank, a line break or
a comment), lexemes, and stretches that are neither. `Segment.first` is the segment at the start
of a text and `Segment.ofText` cuts a whole text.

Main statement: `Segment.flatMap_ofText` (the segments of a text, joined, are the text).
-/

namespace Lox

/-- What is wrong with a stretch of text that is no lexeme. -/
inductive LexFault where
  | unexpectedCharacter (c : Char)
  | unterminatedString
  deriving DecidableEq, Repr

/-- What a segment of a text is. -/
inductive SegmentKind where
  | trivia
  | lexeme (kind : TokenKind)
  | fault (fault : LexFault)
  deriving DecidableEq

/-- A stretch of text that is read as a whole. -/
structure Segment where
  kind : SegmentKind
  text : List Char
  deriving DecidableEq

namespace Segment

/-- The characters between lexemes. -/
def isBlank (c : Char) : Bool :=
  c = ' ' || c = '\r' || c = '\t' || c = '\n'

/-- The decimal digits. -/
def isDigit (c : Char) : Bool :=
  '0' ≤ c && c ≤ '9'

/-- The characters with which a word starts: the ASCII letters and the underscore. -/
def isWordStart (c : Char) : Bool :=
  ('a' ≤ c && c ≤ 'z') || ('A' ≤ c && c ≤ 'Z') || c = '_'

/-- The characters of which a word consists. -/
def isWordPart (c : Char) : Bool :=
  isWordStart c || isDigit c

/-- The lexemes that consist of one character which starts no longer one. A slash is one unless
    it starts a comment. -/
def punctuation? : Char → Option TokenKind
  | '(' => some .leftParen
  | ')' => some .rightParen
  | '{' => some .leftBrace
  | '}' => some .rightBrace
  | ',' => some .comma
  | '.' => some .dot
  | ';' => some .semicolon
  | '-' => some .minus
  | '+' => some .plus
  | '*' => some .star
  | '/' => some .slash
  | _ => none

/-- The lexemes that an equals sign may extend: the kinds without and with it. -/
def extensible? : Char → Option (TokenKind × TokenKind)
  | '!' => some (.bang, .bangEqual)
  | '=' => some (.equal, .equalEqual)
  | '<' => some (.less, .lessEqual)
  | '>' => some (.greater, .greaterEqual)
  | _ => none

/-- The segment after an opening quote: up to the next quote, or all the rest and no lexeme. -/
def string (rest : List Char) : Segment :=
  let contents := rest.takeWhile (· ≠ '"')
  if '"' ∈ rest then ⟨.lexeme (.string (String.ofList contents)), '"' :: contents ++ ['"']⟩
  else ⟨.fault .unterminatedString, '"' :: rest⟩

/-- The digits after a point that follows a number. A point without a digit after it is not part
    of the number. -/
def fraction : List Char → List Char
  | '.' :: rest => rest.takeWhile isDigit
  | _ => []

/-- The number that starts with a digit: digits, and if more of them follow a point, both. -/
def number (c : Char) (rest : List Char) : Segment :=
  let whole := c :: rest.takeWhile isDigit
  let fraction := fraction (rest.dropWhile isDigit)
  let text := if fraction.isEmpty then whole else whole ++ '.' :: fraction
  ⟨.lexeme (.number (floatOfDigits whole fraction)), text⟩

/-- The word that starts with a letter: a reserved word or an identifier. -/
def word (c : Char) (rest : List Char) : Segment :=
  let text := c :: rest.takeWhile isWordPart
  match Keyword.ofWord? (String.ofList text) with
  | some k => ⟨.lexeme (.keyword k), text⟩
  | none => ⟨.lexeme .identifier, text⟩

/-- The segment at the start of a text. -/
def first (c : Char) (rest : List Char) : Segment :=
  -- a comment leaves the line break after it to the next segment
  if c = '/' && rest.head? = some '/' then ⟨.trivia, c :: rest.takeWhile (· ≠ '\n')⟩
  else if isBlank c then ⟨.trivia, [c]⟩
  else if c = '"' then string rest
  else if isDigit c then number c rest
  else if isWordStart c then word c rest
  else
    match punctuation? c, extensible? c with
    | some kind, _ => ⟨.lexeme kind, [c]⟩
    | none, some (short, long) =>
      if rest.head? = some '=' then ⟨.lexeme long, [c, '=']⟩ else ⟨.lexeme short, [c]⟩
    | none, none => ⟨.fault (.unexpectedCharacter c), [c]⟩

/-- The segments of a text of which so many characters belong to a segment already cut. -/
def cut : (skip : Nat) → List Char → List Segment
  | _, [] => []
  | skip + 1, _ :: rest => cut skip rest
  | 0, c :: rest =>
    let s := first c rest
    s :: cut (s.text.length - 1) rest

/-- The segments of a text. -/
def ofText (text : List Char) : List Segment :=
  cut 0 text

/-! ### The segments of a text, joined, are the text -/

/-- What starts with what is dropped may follow what is taken. -/
private theorem takeWhile_append_prefix {p : Char → Bool} {xs rest : List Char}
    (h : rest <+: xs.dropWhile p) : xs.takeWhile p ++ rest <+: xs := by
  obtain ⟨t, ht⟩ := h
  exact ⟨t, by rw [List.append_assoc, ht, List.takeWhile_append_dropWhile]⟩

/-- A character and what is taken behind it is the start of the text. -/
private theorem cons_takeWhile_prefix (p : Char → Bool) (c : Char) (rest : List Char) :
    c :: rest.takeWhile p <+: c :: rest :=
  List.cons_prefix_cons.mpr ⟨rfl, List.takeWhile_prefix p⟩

/-- A string literal is the start of the text. -/
private theorem string_text_prefix (rest : List Char) :
    (string rest).text <+: '"' :: rest := by
  unfold string
  split
  · rename_i h
    refine List.cons_prefix_cons.mpr ⟨rfl, takeWhile_append_prefix ?_⟩
    induction rest with
    | nil => simp at h
    | cons d rest ih =>
      by_cases hd : d = '"'
      · subst hd
        simp
      · have : '"' ∈ rest := by
          rcases List.mem_cons.mp h with h | h
          · exact absurd h.symm hd
          · exact h
        simpa [hd] using ih this
  · exact List.prefix_refl _

/-- A number is the start of the text. -/
private theorem number_text_prefix (c : Char) (rest : List Char) :
    (number c rest).text <+: c :: rest := by
  unfold number
  dsimp only
  split
  · exact cons_takeWhile_prefix _ c rest
  · rename_i h
    refine List.cons_prefix_cons.mpr ⟨rfl, takeWhile_append_prefix ?_⟩
    generalize rest.dropWhile isDigit = after at h
    match after, h with
    | [], h => simp [fraction] at h
    | d :: after, h =>
      by_cases hd : d = '.'
      · subst hd
        exact cons_takeWhile_prefix isDigit '.' after
      · have : fraction (d :: after) = [] := by
          unfold fraction
          split
          · rename_i heq
            simp_all
          · rfl
        simp [this] at h

/-- A word is the letters and digits at the start of the text. -/
private theorem word_text (c : Char) (rest : List Char) :
    (word c rest).text = c :: rest.takeWhile isWordPart := by
  unfold word
  dsimp only
  split <;> rfl

/-- The first segment stands at the start of the text. -/
theorem first_text_prefix (c : Char) (rest : List Char) : (first c rest).text <+: c :: rest := by
  have single : [c] <+: c :: rest := ⟨rest, rfl⟩
  unfold first
  split
  · exact cons_takeWhile_prefix _ c rest
  · split
    · exact single
    · split
      · rename_i h
        exact h ▸ string_text_prefix rest
      · split
        · exact number_text_prefix c rest
        · split
          · rw [word_text]
            exact cons_takeWhile_prefix _ c rest
          · split
            · exact single
            · split
              · rename_i h
                cases rest with
                | nil => simp at h
                | cons d rest =>
                  simp only [List.head?_cons, Option.some.injEq] at h
                  exact h ▸ ⟨rest, rfl⟩
              · exact single
            · exact single

/-- The first segment is not empty. -/
theorem first_text_ne_nil (c : Char) (rest : List Char) : (first c rest).text ≠ [] := by
  unfold first
  repeat' split
  all_goals try simp only [ne_eq, not_false_eq_true, List.cons_ne_nil]
  · unfold string
    dsimp only
    split <;> simp
  · unfold number
    dsimp only
    split <;> simp
  · simp [word_text]

/-- Characters that belong to a segment already cut are left out. -/
theorem cut_eq_ofText_drop (skip : Nat) (text : List Char) :
    cut skip text = ofText (text.drop skip) := by
  induction text generalizing skip with
  | nil => cases skip <;> simp [cut, ofText]
  | cons c rest ih =>
    cases skip with
    | zero => rfl
    | succ skip => simpa [cut] using ih skip

/-- A text starts with its first segment, and the others are those of the rest. -/
theorem ofText_cons (c : Char) (rest : List Char) :
    ofText (c :: rest) =
      first c rest :: ofText ((c :: rest).drop (first c rest).text.length) := by
  have h : (c :: rest).drop (first c rest).text.length =
      rest.drop ((first c rest).text.length - 1) := by
    cases ht : (first c rest).text with
    | nil => exact absurd ht (first_text_ne_nil c rest)
    | cons d text => simp
  rw [h, ← cut_eq_ofText_drop]
  rfl

/-- The segments of a text, joined, are the text: nothing is skipped, nothing read twice. -/
theorem flatMap_ofText (text : List Char) : (ofText text).flatMap (·.text) = text := by
  match text with
  | [] => rfl
  | c :: rest =>
    obtain ⟨after, h⟩ := first_text_prefix c rest
    have hlt : after.length < (c :: rest).length := by
      have := List.length_pos_iff.mpr (first_text_ne_nil c rest)
      rw [← h, List.length_append]
      omega
    rw [ofText_cons, List.flatMap_cons, ← h, List.drop_left, flatMap_ofText after]
termination_by text.length
decreasing_by exact hlt

end Segment

end Lox
