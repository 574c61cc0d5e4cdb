import Lox.Proofs.Joined
import Lox.Proofs.Shaped

/-!
# Texts spaced anew

The lexemes of a text, written down with one space between each and the next, are read as the same
tokens. What stood between them, blanks, line breaks, comments and stretches that are no lexemes,
only decides about lines.

## Key results

- `Segment.ofText_lexeme_blank`: a lexeme before a blank is the segment that it is alone
- `Segment.ofText_spaced`: the segments of lexemes with a space behind each
- `ScanItem.ofSegments_lexemes`: lexemes without what is between them are on earlier lines
- `Scan.ofText_respaced`: the tokens of a text that is spaced anew
- `Program.compile_respaced`: its program
-/

namespace Lox

/-! ## Segments -/

namespace Segment

/-- The segment is a lexeme of its kind. -/
def IsLexeme (s : Segment) : Prop :=
  ∃ kind, s.kind = .lexeme kind ∧ Lexeme s.text kind

/-- The segments that are lexemes. -/
def lexemes (segments : List Segment) : List Segment :=
  segments.filter (·.lexeme?.isSome)

/-- The segment of a single space. -/
def space : Segment :=
  ⟨.trivia, [' ']⟩

/-- A lexeme in front is one of the lexemes. -/
theorem lexemes_cons_of_some {s : Segment} {kind : TokenKind} (h : s.lexeme? = some kind)
    (rest : List Segment) : lexemes (s :: rest) = s :: lexemes rest := by
  simp [lexemes, h]

/-- What is no lexeme is left out. -/
theorem lexemes_cons_of_none {s : Segment} (h : s.lexeme? = none) (rest : List Segment) :
    lexemes (s :: rest) = lexemes rest := by
  simp [lexemes, h]

/-- A lexeme of a text is one by itself. -/
theorem isLexeme_of_mem_lexemes {text : List Char} {s : Segment} (h : s ∈ lexemes (ofText text)) :
    s.IsLexeme := by
  obtain ⟨hmem, hsome⟩ := List.mem_filter.mp h
  obtain ⟨kind, hkind⟩ := Option.isSome_iff_exists.mp hsome
  exact ⟨kind, lexeme?_eq_some hkind, lexeme_of_mem_ofText hmem (lexeme?_eq_some hkind)⟩

/-- A blank is a segment. -/
theorem ofText_blank {b : Char} (hb : isBlank b) (more : List Char) :
    ofText (b :: more) = ⟨.trivia, [b]⟩ :: ofText more := by
  have hslash : b ≠ '/' := by
    rintro rfl
    exact absurd hb (by decide)
  have hfirst : first b more = ⟨.trivia, [b]⟩ := by
    simp [first, hslash, hb]
  exact ofText_of_first hfirst rfl

/-- A lexeme before a blank is the segment that it is alone. -/
theorem ofText_lexeme_blank {text : List Char} {kind : TokenKind} (h : Lexeme text kind) {b : Char}
    (hb : isBlank b) (more : List Char) :
    ofText (text ++ b :: more) = ⟨.lexeme kind, text⟩ :: ⟨.trivia, [b]⟩ :: ofText more := by
  obtain ⟨c, rest, rfl⟩ := List.exists_cons_of_ne_nil h.ne_nil
  have halone := h.ofText
  rw [ofText_cons] at halone
  have hfirst : first c rest = ⟨.lexeme kind, c :: rest⟩ := (List.cons.inj halone).1
  -- neither a string without end nor a comment, so nothing of it reaches beyond the blank
  have hclosed : (first c rest).kind ≠ .fault .unterminatedString := by simp [hfirst]
  have hbefore := first_blank hb hclosed (.inr (by simp [hfirst])) more
  rw [hfirst] at hbefore
  rw [← ofText_blank hb]
  exact ofText_of_first hbefore rfl

/-- Lexemes with a space behind each are segments, and so are the spaces. -/
theorem ofText_spaced {segments : List Segment} (h : ∀ s ∈ segments, s.IsLexeme)
    (more : List Char) :
    ofText (segments.flatMap (fun s => s.text ++ [' ']) ++ more) =
      segments.flatMap (fun s => [s, space]) ++ ofText more := by
  induction segments with
  | nil => rfl
  | cons s segments ih =>
    obtain ⟨⟨kind, hkind, hlexeme⟩, hrest⟩ := List.forall_mem_cons.mp h
    have hs : (⟨.lexeme kind, s.text⟩ : Segment) = s := by rw [← hkind]
    have hspace : isBlank ' ' := by decide
    simp only [List.flatMap_cons, List.append_assoc, List.cons_append, List.nil_append]
    -- the space ends the lexeme, so no longer one is found
    rw [ofText_lexeme_blank hlexeme hspace, hs, ih hrest]
    rfl

/-- A lexeme is one segment. -/
theorem IsLexeme.ofText {s : Segment} (h : s.IsLexeme) : Segment.ofText s.text = [s] := by
  obtain ⟨kind, hkind, hlexeme⟩ := h
  rw [hlexeme.ofText, ← hkind]

end Segment

/-! ## Items -/

namespace ScanItem

/-- Single spaces yield nothing. -/
theorem ofSegments_spaced (line : Nat) (segments more : List Segment) :
    ofSegments line (segments.flatMap (fun s => [s, .space]) ++ more) =
      ofSegments line (segments ++ more) := by
  induction segments generalizing line with
  | nil => rfl
  | cons s segments ih =>
    have hspace : Segment.space.text.count '\n' = 0 := rfl
    simp only [List.flatMap_cons, List.cons_append, List.nil_append, ofSegments, hspace,
      Nat.add_zero, ih]
    rfl

/-- The tokens of segments come one by one. -/
theorem filterMap_token?_cons (line : Nat) (s : Segment) (rest : List Segment) :
    (ofSegments line (s :: rest)).filterMap token? =
      (s.lexeme?.map fun kind => ⟨kind, String.ofList s.text, line + s.text.count '\n'⟩).toList ++
        (ofSegments (line + s.text.count '\n') rest).filterMap token? := by
  rw [ofSegments, List.filterMap_append]
  cases hkind : s.kind <;> simp [Segment.lexeme?, ofSegment?, hkind]

/-- Lexemes are no errors. -/
theorem filterMap_error?_lexemes (line : Nat) (segments : List Segment) :
    (ofSegments line (Segment.lexemes segments)).filterMap error? = [] := by
  induction segments generalizing line with
  | nil => rfl
  | cons s segments ih =>
    cases hlexeme : s.lexeme? with
    | none =>
      rw [Segment.lexemes_cons_of_none hlexeme]
      exact ih line
    | some kind =>
      rw [Segment.lexemes_cons_of_some hlexeme, ofSegments, List.filterMap_append, ih]
      simp [ofSegment?, Segment.lexeme?_eq_some hlexeme]

/-- The tokens are spelled as the lexemes among the segments, and the last one as nothing. -/
theorem map_lexeme_ofSegments (line : Nat) (segments : List Segment) :
    ((ofSegments line segments).filterMap token?).map (·.lexeme) =
      (Segment.lexemes segments).map (fun s => String.ofList s.text) ++ [""] := by
  induction segments generalizing line with
  | nil => rfl
  | cons s segments ih =>
    rw [filterMap_token?_cons, List.map_append, ih]
    cases hlexeme : s.lexeme? with
    | none => simp [Segment.lexemes_cons_of_none hlexeme]
    | some kind => simp [Segment.lexemes_cons_of_some hlexeme]

/-- No token is on a line before that of the first segment. -/
theorem le_line_of_mem_ofSegments {line : Nat} {segments : List Segment} {t : Token}
    (h : t ∈ (ofSegments line segments).filterMap token?) : line ≤ t.line := by
  induction segments generalizing line with
  | nil =>
    obtain rfl := List.mem_singleton.mp h
    exact Nat.le_refl line
  | cons s segments ih =>
    rw [filterMap_token?_cons] at h
    -- a segment counts its own line breaks before its token, so the line only grows
    rcases List.mem_append.mp h with h | h
    · obtain ⟨kind, -, rfl⟩ := Option.map_eq_some_iff.mp (Option.mem_toList.mp h)
      exact Nat.le_add_right line _
    · exact (Nat.le_add_right line _).trans (ih h)

/-- Without what stands between them, lexemes are the same tokens on other lines. The lines that
    they were on tell which ones, and keep their order. -/
theorem ofSegments_lexemes (line line' : Nat) (segments : List Segment) :
    ∃ f : Nat → Nat, Monotone f ∧ (∀ l ≤ line, f l = line') ∧
      (ofSegments line' (Segment.lexemes segments)).filterMap token? =
        ((ofSegments line segments).filterMap token?).map fun t => { t with line := f t.line } := by
  induction segments generalizing line line' with
  | nil => exact ⟨fun _ => line', fun _ _ _ => Nat.le_refl line', fun _ _ => rfl, rfl⟩
  | cons s segments ih =>
    -- how many lines the segment adds, to both sides if it is a lexeme
    generalize hadded : s.text.count '\n' = added
    cases hlexeme : s.lexeme? with
    | none =>
      obtain ⟨f, hmono, hf, htokens⟩ := ih (line + added) line'
      refine ⟨f, hmono, fun l hl => hf l (by omega), ?_⟩
      rw [Segment.lexemes_cons_of_none hlexeme, htokens, filterMap_token?_cons, hlexeme, hadded]
      rfl
    | some kind =>
      obtain ⟨f, hmono, hf, htokens⟩ := ih (line + added) (line' + added)
      -- the lines before that of this token go to the first one, which no token behind it is on
      let f' : Nat → Nat := fun l => if l < line + added then line' else f l
      have hf' : ∀ l, line + added ≤ l → f' l = f l := fun l hl => if_neg (by omega)
      refine ⟨f', ?_, ?_, ?_⟩
      · intro l k hlk
        show f' l ≤ f' k
        by_cases hk : k < line + added
        · have hl : l < line + added := by omega
          simp [f', hl, hk]
        · have hfirst := hf (line + added) (Nat.le_refl _)
          have hfk := hmono (show line + added ≤ k by omega)
          have hflk := hmono hlk
          rw [hf' k (by omega)]
          show (if l < line + added then line' else f l) ≤ f k
          split
          · omega
          · exact hflk
      · intro l hl
        show (if l < line + added then line' else f l) = line'
        split
        · rfl
        · -- then the segment adds no line
          rw [hf l (by omega)]
          omega
      · have hrest : ((ofSegments (line + added) segments).filterMap token?).map
              (fun t => { t with line := f' t.line }) =
            ((ofSegments (line + added) segments).filterMap token?).map
              (fun t => { t with line := f t.line }) := by
          refine List.map_congr_left fun t ht => ?_
          rw [hf' t.line (le_line_of_mem_ofSegments ht)]
        have hthis : f' (line + added) = line' + added :=
          (hf' _ (Nat.le_refl _)).trans (hf _ (Nat.le_refl _))
        rw [Segment.lexemes_cons_of_some hlexeme, filterMap_token?_cons, filterMap_token?_cons,
          hlexeme, hadded, List.map_append, hrest, htokens]
        simp [hthis]

end ScanItem

/-! ## Texts -/

/-- What stands between the first of some lists and the next, and so on, stands behind all but the
    last one. -/
private theorem intercalate_concat {α : Type} (sep : List α) (xs : List (List α)) (x : List α) :
    sep.intercalate (xs ++ [x]) = xs.flatMap (· ++ sep) ++ x := by
  induction xs with
  | nil => simp
  | cons y xs ih =>
    have hne : xs ++ [x] ≠ [] := by simp
    obtain ⟨z, zs, hzs⟩ := List.exists_cons_of_ne_nil hne
    rw [List.cons_append, hzs, List.intercalate_cons_cons, ← hzs, ih]
    simp

/-- The items of lexemes with one space between each and the next, and some text behind them. -/
theorem ScanItem.ofText_intercalate {segments : List Segment} (h : ∀ s ∈ segments, s.IsLexeme)
    (last : String) :
    ofText (" ".intercalate (segments.map (fun s => String.ofList s.text) ++ [last])) =
      ofSegments 1 (segments ++ Segment.ofText last.toList) := by
  have hspace : " ".toList = [' '] := rfl
  rw [ofText, String.toList_intercalate, hspace, List.map_append, List.map_map, List.map_singleton,
    intercalate_concat, List.flatMap_map]
  simp only [Function.comp_apply, String.toList_ofList]
  rw [Segment.ofText_spaced h, ofSegments_spaced]

namespace Scan

/-- The lexemes of tokens with one space between each and the next. -/
def respaced (tokens : List Token) : String :=
  " ".intercalate (tokens.map (·.lexeme))

/-- The items of the tokens of a text, spaced anew with the end of the text or without it, are those
    of its lexemes. -/
private theorem items_respaced (text : String) {tokens : List Token}
    (h : tokens = (ofText text).tokens ∨ tokens = (ofText text).tokens.dropLast) :
    ScanItem.ofText (respaced tokens) =
      ScanItem.ofSegments 1 (Segment.lexemes (Segment.ofText text.toList)) := by
  have hspellings : (ofText text).tokens.map (·.lexeme) =
      (Segment.lexemes (Segment.ofText text.toList)).map (fun s => String.ofList s.text) ++ [""] :=
    ScanItem.map_lexeme_ofSegments 1 _
  have hlexemes : ∀ s ∈ Segment.lexemes (Segment.ofText text.toList), s.IsLexeme :=
    fun s hs => Segment.isLexeme_of_mem_lexemes hs
  generalize Segment.lexemes (Segment.ofText text.toList) = segments at hspellings hlexemes ⊢
  unfold respaced
  rcases h with rfl | rfl
  · rw [hspellings, ScanItem.ofText_intercalate hlexemes]
    simp [Segment.ofText, Segment.cut]
  · rw [List.map_dropLast, hspellings, List.dropLast_concat]
    -- now the text ends with the last lexeme, if there is one
    rcases List.eq_nil_or_concat segments with rfl | ⟨before, s, rfl⟩
    · rfl
    · rw [List.concat_eq_append] at hlexemes ⊢
      obtain ⟨hbefore, hs⟩ := List.forall_mem_append.mp hlexemes
      rw [List.map_append, List.map_singleton, ScanItem.ofText_intercalate hbefore,
        String.toList_ofList, Segment.IsLexeme.ofText (hs s (List.mem_singleton_self s))]

/-- The tokens of a text, spaced anew, on the lines on which they are then. -/
theorem exists_lines_respaced (text : String) : ∃ line : Nat → Nat, Monotone line ∧
    ∀ tokens, tokens = (ofText text).tokens ∨ tokens = (ofText text).tokens.dropLast →
      ofText (respaced tokens) =
        ⟨(ofText text).tokens.map fun t => { t with line := line t.line }, []⟩ := by
  obtain ⟨line, hmono, -, htokens⟩ :=
    ScanItem.ofSegments_lexemes 1 1 (Segment.ofText text.toList)
  have herrors := ScanItem.filterMap_error?_lexemes 1 (Segment.ofText text.toList)
  refine ⟨line, hmono, fun tokens h => ?_⟩
  rw [← items_respaced text h] at htokens herrors
  exact congrArg₂ Scan.mk htokens herrors

/-- Tokens survive if a text is spaced anew.

    The lexemes of the tokens of a text, with one space between each and the next, are scanned
    without an error, and yield tokens of the same kinds with the same spellings and the same values
    in the same order. Their lines are told by those that the tokens were on. Whether the end of the
    text is written as a last, empty lexeme makes no difference. So two texts with the same lexemes
    have the same tokens up to lines. -/
theorem ofText_respaced (text : String) :
    (∃ line : Nat → Nat, Monotone line ∧
      ofText (respaced (ofText text).tokens) =
        ⟨(ofText text).tokens.map fun t => { t with line := line t.line }, []⟩ ∧
      ofText (respaced (ofText text).tokens.dropLast) =
        ⟨(ofText text).tokens.map fun t => { t with line := line t.line }, []⟩) ∧
    ∀ other, (ofText other).tokens.map (·.lexeme) = (ofText text).tokens.map (·.lexeme) →
      (ofText other).tokens.map (fun t => (t.kind, t.lexeme)) =
        (ofText text).tokens.map fun t => (t.kind, t.lexeme) := by
  obtain ⟨line, hmono, hline⟩ := exists_lines_respaced text
  refine ⟨⟨line, hmono, hline _ (.inl rfl), hline _ (.inr rfl)⟩, fun other hlexemes => ?_⟩
  obtain ⟨line', -, hline'⟩ := exists_lines_respaced other
  have htext := hline _ (.inl rfl)
  have hother := hline' _ (.inl rfl)
  -- both are the same text once they are spaced anew
  rw [respaced, hlexemes, ← respaced, htext] at hother
  have hkinds := congrArg (fun s : Scan => s.tokens.map fun t => (t.kind, t.lexeme)) hother
  simp only [List.map_map] at hkinds
  exact hkinds.symm

/-- A comment and a line break fall away, and so does the unexpected character. What looks like a
    comment in a string stays. -/
theorem ofText_respaced_comment :
    (ofText "x=/ / // c\n@\"//\n\";").tokens.map (·.lexeme) =
        (ofText "x = / / \"//\n\" ; ").tokens.map (·.lexeme) ∧
      (ofText "x=/ / // c\n@\"//\n\";").tokens.map (fun t => (t.kind, t.lexeme)) =
        (ofText "x = / / \"//\n\" ; ").tokens.map fun t => (t.kind, t.lexeme) := by
  have hlexemes : (ofText "x=/ / // c\n@\"//\n\";").tokens.map (·.lexeme) =
      (ofText "x = / / \"//\n\" ; ").tokens.map (·.lexeme) := by rfl
  exact ⟨hlexemes, (ofText_respaced "x = / / \"//\n\" ; ").2 _ hlexemes⟩

end Scan

/-! ## Programs -/

/-- A text that is compiled is compiled to the same program on other lines if it is spaced anew. -/
theorem Program.compile_respaced {text : String} {p : Program} {n n' : Nat}
    (h : compile text n = (.ok p, n')) : ∃ line : Nat → Nat, Monotone line ∧
      compile (Scan.respaced (Scan.ofText text).tokens) n =
        (.ok ⟨p.statements.map (Stmt.relabel (.ofLine line)), p.distances⟩, n') := by
  obtain ⟨line, hmono, hline⟩ := Scan.exists_lines_respaced text
  have hscan := hline _ (.inl rfl)
  obtain ⟨-, ts, last, htokens, hderives, hresolved⟩ := compile_iff_derives.mp h
  -- the derivation and what the resolver finds are carried over to the new lines
  refine ⟨line, hmono, compile_iff_derives.mpr ⟨?_, ts.map (Token.relabel (.ofLine line)),
    line last, ?_, ?_, ?_⟩⟩
  · rw [hscan]
  · rw [hscan, htokens, List.map_append]
    rfl
  · exact (hderives.relabel (r := .ofLine line) (fun _ _ => rfl) (Nat.zero_le _)).2
  · rw [Resolution.ofProgram_relabel, hresolved]
    simp [NodeId.relabel_index, Relabeling.ofLine]

end Lox
