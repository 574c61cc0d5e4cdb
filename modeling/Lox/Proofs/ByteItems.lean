import Lox.Proofs.ByteWalks
import Lox.Proofs.NumberTexts

/-!
# Walks over bytes yield the items of a text

A walk reads segments one after the other. It goes through the inside of characters, in comments,
in strings and at a character that starts nothing, but whenever a segment ends it stands between
two characters again, and what it has stepped over is the first segment of the text ahead. So every
text is scanned to its end, with at least one byte for each item before that.

## Key results

- `ByteWalk.segment_leads`: one segment
- `ByteWalk.item_leads`, `ByteWalk.yields_leads`: the items
- `ByteWalk.ofText_sound`: whole texts
-/

namespace Lox

/-! ## First segments -/

namespace Segment

variable {ch : Char} {rest : List Char}

/-- A punctuation character is a lexeme by itself. -/
theorem first_of_punctuation {kind : TokenKind} (hslash : ch ≠ '/')
    (h : punctuation? ch = some kind) : first ch rest = ⟨.lexeme kind, [ch]⟩ := by
  unfold punctuation? at h
  split at h <;> cases h <;> first | rfl | exact absurd rfl hslash

/-- An operator that can be extended is extended by an equal sign behind it. -/
theorem first_of_extensible {short long : TokenKind}
    (h : extensible? ch = some (short, long)) :
    first ch rest = if rest.head? = some '=' then ⟨.lexeme long, [ch, '=']⟩
      else ⟨.lexeme short, [ch]⟩ := by
  unfold extensible? at h
  split at h <;> cases h <;> rfl

/-- What else a first character may start. -/
theorem first_of_none (hslash : ch ≠ '/') (hpunctuation : punctuation? ch = none)
    (hextensible : extensible? ch = none) :
    first ch rest =
      if isBlank ch then ⟨.trivia, [ch]⟩
      else if ch = '"' then string rest
      else if isDigit ch then number ch rest
      else if isWordStart ch then word ch rest
      else ⟨.fault (.unexpectedCharacter ch), [ch]⟩ := by
  simp [first, hslash, hpunctuation, hextensible]

/-- The first segment is cut off. -/
theorem exists_rest (ch : Char) (rest : List Char) :
    ∃ rest', ch :: rest = (first ch rest).text ++ rest' ∧
      ofText (ch :: rest) = first ch rest :: ofText rest' := by
  obtain ⟨rest', hrest⟩ := first_text_prefix ch rest
  refine ⟨rest', hrest.symm, ?_⟩
  rw [ofText_cons]
  conv_lhs => rw [← hrest, List.drop_left]

end Segment

namespace ByteWalk

variable {text : String} {c c' : ByteCursor} {before run after : List Char}
  {ch : Char} {rest : List Char}

/-! ## Cutting out -/

/-- What is cut out as a lexeme is what the cursor has stepped over. -/
theorem cut_lexeme_leads (run : List Char) (h : Stands text c before (run ++ after))
    (hc : c.start = c.pos) :
    Leads text (cut text (c.past run).start (c.past run).pos) (c.past run) (String.ofList run)
      (c.past run) := by
  have hstart : (c.past run).start = c.pos := hc
  rw [hstart]
  exact cut_leads h _

/-- All the rest of the text is cut out, wherever the cursor is by now. -/
theorem cut_rest_leads (h : Stands text c before rest) (hc : c.start = c.pos) (c' : ByteCursor) :
    Leads text (cut text c.start text.utf8ByteSize) c' (String.ofList rest) c' := by
  have hend : (c.past rest).pos = text.utf8ByteSize := by
    have hlength := h.ahead.length_add
    rwa [length_encoded] at hlength
  have hall : Stands text c before (rest ++ []) := by rwa [List.append_nil]
  rw [hc, ← hend]
  exact cut_leads hall c'

/-! ## Strings, words and numbers -/

/-- A string, or all the rest if no quote closes it. -/
theorem string_leads (h : Stands text c before ('"' :: rest)) (hc : c.start = c.pos) :
    Leads text (string text) (c.past ['"']) (Segment.string rest).kind
      (c.past (Segment.string rest).text) := by
  have hopen : Stands text (c.past ['"']) (before ++ ['"']) rest := h.past ['"']
  unfold Segment.string string
  by_cases hmem : '"' ∈ rest
  · obtain ⟨contents, more, rfl, hcontents⟩ := List.eq_append_cons_of_mem hmem
    have htake : (contents ++ '"' :: more).takeWhile (· ≠ '"') = contents :=
      (takeWhile_run (fun d hd => by simpa using ne_of_mem_of_not_mem hd hcontents) (by simp)).1
    have hbehind := hopen.past contents
    have hmore : (encoded ('"' :: more)).isEmpty = false := rfl
    have hcut := cut_leads hopen (c.past ('"' :: contents ++ ['"']))
    rw [if_pos hmem, htake]
    have hskip := stringContents_past hopen hcontents (by simp)
    refine hskip.bind ((atEnd_leads hbehind.ahead).bind ?_)
    rw [hmore, if_neg Bool.false_ne_true]
    refine (forward_past (by decide) (by decide) hbehind).bind ((cursor_leads _).bind ?_)
    simp only [ByteCursor.past_past, List.singleton_append] at hcut ⊢
    -- what is cut out begins behind the first byte, a quote, and ends before the last one
    have hfrom : (c.past ('"' :: contents ++ ['"'])).start + 1 = (c.past ['"']).pos :=
      congrArg (· + 1) hc
    have hto : (c.past ('"' :: contents ++ ['"'])).pos - 1 = (c.past ('"' :: contents)).pos := by
      rw [← ByteCursor.past_past, ByteCursor.past_ascii (by decide) (by decide)]
      exact Nat.add_sub_cancel ..
    rw [hfrom, hto]
    exact hcut.bind (Leads.pure _ _)
  · have hall : Stands text (c.past ['"']) (before ++ ['"']) (rest ++ []) := by
      rwa [List.append_nil]
    have hbehind := hall.past rest
    rw [if_neg hmem]
    refine (stringContents_past hall hmem (by simp)).bind ((atEnd_leads hbehind.ahead).bind ?_)
    rw [ByteCursor.past_past]
    exact Leads.pure _ _

/-- A word. -/
theorem word_leads (h : Stands text c before (ch :: rest)) (hc : c.start = c.pos) :
    Leads text (word text) (c.past [ch]) (Segment.word ch rest).kind
      (c.past (Segment.word ch rest).text) := by
  obtain ⟨run, after, rfl, hrun, hafter⟩ := exists_run Segment.isWordPart rest
  -- the characters of the word and the bytes of the word end at the same place
  have htake := (takeWhile_run hrun hafter).1
  have hopen : Stands text (c.past [ch]) (before ++ [ch]) (run ++ after) := h.past [ch]
  have hskip := skipWhile_past (fun _ => Segment.isWordPart_nonAscii) (by decide) (by decide) hopen
    hrun hafter
  rw [ByteCursor.past_past, List.singleton_append] at hskip
  unfold Segment.word word
  rw [htake]
  refine hskip.bind ((cursor_leads _).bind ((cut_lexeme_leads (ch :: run) h hc).bind ?_))
  dsimp only
  -- an identifier or a keyword
  cases Keyword.ofWord? (String.ofList (ch :: run)) <;> exact Leads.pure _ _

/-- A number is read off its digits. -/
theorem numeralValue_numeral {whole fraction : List Char} (hw : ∀ d ∈ whole, Segment.isDigit d) :
    numeralValue (numeral whole fraction) = floatOfDigits whole fraction := by
  unfold numeralValue numeral
  -- with or without a fraction, the digits end where the numeral says
  split
  · rename_i hempty
    have hwhole : ∀ d ∈ ([] : List Char).head?, ¬ Segment.isDigit d := by simp
    obtain ⟨htake, hdrop⟩ := takeWhile_run hw hwhole
    rw [List.append_nil] at htake hdrop
    rw [htake, hdrop, List.isEmpty_iff.mp hempty]
    rfl
  · have hpoint : ∀ d ∈ ('.' :: fraction).head?, ¬ Segment.isDigit d := by
      rintro d ⟨⟩
      decide
    obtain ⟨htake, hdrop⟩ := takeWhile_run hw hpoint
    rw [htake, hdrop]
    rfl

/-- Digits behind a point are looked for two bytes ahead. -/
theorem fraction_ahead (after : List Char) :
    (decide (ofByte ((encoded after).getD 0 0) = '.') &&
      Segment.isDigit (ofByte ((encoded after).getD 1 0))) = !(Segment.fraction after).isEmpty := by
  have hpoint : '.'.toNat < 0x80 := by decide
  -- a byte is the point just when the character there is: no byte of a longer character is ASCII
  rw [(asciiOnly_eq hpoint).getD_encoded (by decide)]
  cases after with
  | nil => rfl
  | cons d after =>
    by_cases hd : d = '.'
    · subst hd
      -- the point takes one byte, so the digit is looked for in the character behind it
      obtain ⟨b, hb, -⟩ := encoded_ascii hpoint after
      have hdigit := asciiOnly_of_forall fun _ => Segment.isDigit_nonAscii
      rw [hb, List.getD_cons_succ, hdigit.getD_encoded (by decide)]
      cases after with
      | nil => rfl
      | cons e after => cases he : Segment.isDigit e <;> simp [Segment.fraction, he]
    · have hnone : Segment.fraction (d :: after) = [] := by
        unfold Segment.fraction
        split
        · rename_i heq
          exact absurd (List.cons.inj heq).1 hd
        · rfl
      simp [hnone, hd]

/-- What the cursor has stepped over is read as a number. -/
theorem cut_numeral_leads (run : List Char) (h : Stands text c before (run ++ after))
    (hc : c.start = c.pos) :
    Leads text (do
        let c ← cursor
        let digits ← cut text c.start c.pos
        return SegmentKind.lexeme (.number (numeralValue digits.toList)))
      (c.past run) (.lexeme (.number (numeralValue run))) (c.past run) := by
  refine (cursor_leads _).bind ((cut_lexeme_leads run h hc).bind ?_)
  rw [String.toList_ofList]
  exact Leads.pure _ _

/-- A number. -/
theorem number_leads (h : Stands text c before (ch :: rest)) (hc : c.start = c.pos)
    (hch : Segment.isDigit ch) :
    Leads text (number text) (c.past [ch]) (Segment.number ch rest).kind
      (c.past (Segment.number ch rest).text) := by
  have hascii : ∀ d : Char, 0x80 ≤ d.toNat → Segment.isDigit d = false :=
    fun _ => Segment.isDigit_nonAscii
  -- the digits in front of a point, of which the first has been taken
  obtain ⟨run, after, rfl, hrun, hafter⟩ := exists_run Segment.isDigit rest
  obtain ⟨htake, hdrop⟩ := takeWhile_run hrun hafter
  have hnumber : Segment.number ch (run ++ after) =
      ⟨.lexeme (.number (floatOfDigits (ch :: run) (Segment.fraction after))),
        numeral (ch :: run) (Segment.fraction after)⟩ := by
    unfold Segment.number
    rw [htake, hdrop]
    rfl
  have hwhole : ∀ d ∈ ch :: run, Segment.isDigit d := List.forall_mem_cons.mpr ⟨hch, hrun⟩
  have hopen : Stands text (c.past [ch]) (before ++ [ch]) (run ++ after) := h.past [ch]
  have hbehind : Stands text (c.past (ch :: run)) (before ++ ch :: run) after := h.past (ch :: run)
  have hskip := skipWhile_past hascii (by decide) (by decide) hopen hrun hafter
  rw [ByteCursor.past_past, List.singleton_append] at hskip
  rw [hnumber]
  dsimp only
  rw [← numeralValue_numeral hwhole]
  unfold number
  refine hskip.bind ((peek_leads hbehind.ahead 0).bind ((peek_leads hbehind.ahead 1).bind ?_))
  rw [fraction_ahead]
  unfold numeral
  -- a point without a digit behind it is left for the next token
  by_cases hfraction : (Segment.fraction after).isEmpty
  · rw [hfraction]
    exact cut_numeral_leads (ch :: run) h hc
  · obtain ⟨more, rfl⟩ : ∃ more, after = '.' :: more := by
      unfold Segment.fraction at hfraction
      split at hfraction
      · exact ⟨_, rfl⟩
      · exact absurd rfl hfraction
    obtain ⟨digits, more, rfl, hdigits, hmore⟩ := exists_run Segment.isDigit more
    -- over the point, and over the digits behind it
    have hpoint := forward_past (by decide) (by decide) hbehind
    have hdigit : Segment.fraction ('.' :: (digits ++ more)) = digits :=
      (takeWhile_run hdigits hmore).1
    have hskip := skipWhile_past hascii (by decide) (by decide) (hbehind.past ['.']) hdigits hmore
    have hlexeme : Stands text c before ((ch :: run ++ '.' :: digits) ++ more) := by simpa using h
    rw [hdigit] at hfraction ⊢
    rw [if_neg hfraction, Bool.eq_false_iff.mpr hfraction]
    simp only [ByteCursor.past_past, List.append_assoc, List.singleton_append] at hpoint hskip ⊢
    exact hpoint.bind (hskip.bind (cut_numeral_leads _ hlexeme hc))

/-! ## Other segments -/

/-- A character that starts nothing, of which only the first byte has been taken. -/
theorem unexpected_leads (h : Stands text c before (ch :: rest)) (hc : c.start = c.pos)
    (hline : ch ≠ '\n') :
    Leads text (unexpected text) { c with pos := c.pos + 1 } (.fault (.unexpectedCharacter ch))
      (c.past [ch]) := by
  have hnext : Stands text (c.past [ch]) (before ++ [ch]) rest := h.past [ch]
  -- the cursor has moved over one byte, and has to be put behind the whole character
  have hpast : c.past [ch] = { c with pos := c.start + ch.utf8Size } := by
    simp [ByteCursor.past, hline, hc]
  refine (cursor_leads _).bind ((cut_rest_leads h hc _).bind ?_)
  rw [String.toList_ofList, List.head?_cons, Option.getD_some]
  dsimp only
  rw [← hpast]
  exact (moveTo_leads hnext.start_le hnext.ahead.pos_le).bind (Leads.pure _ _)

/-- A slash, which may start a comment. -/
theorem slash_leads (h : Stands text c before ('/' :: rest)) :
    Leads text (do
        if ← accept text '/' then
          comment text
          return SegmentKind.trivia
        else
          return SegmentKind.lexeme .slash)
      (c.past ['/']) (Segment.first '/' rest).kind (c.past (Segment.first '/' rest).text) := by
  have hopen : Stands text (c.past ['/']) (before ++ ['/']) rest := h.past ['/']
  refine (accept_past (by decide) (by decide) (by decide) hopen).bind ?_
  -- a comment runs up to the next newline, which stays
  by_cases hcomment : rest.head? = some '/'
  · obtain ⟨rest, rfl⟩ : ∃ more, rest = '/' :: more := List.head?_eq_some_iff.mp hcomment
    obtain ⟨run, after, rfl, hrun, hafter⟩ := exists_run (· ≠ '\n') rest
    have hline : ∀ d ∈ '/' :: run, decide (d ≠ '\n') :=
      List.forall_mem_cons.mpr ⟨by decide, hrun⟩
    have hfirst : Segment.first '/' ('/' :: (run ++ after)) = ⟨.trivia, '/' :: '/' :: run⟩ :=
      congrArg (fun run => Segment.mk .trivia ('/' :: run)) (takeWhile_run hline hafter).1
    have hnewline : '\n' ∉ run := fun hmem => by simpa using hrun _ hmem
    have hskip := comment_past (hopen.past ['/']) hnewline fun d hd => by simpa using hafter d hd
    simp only [ByteCursor.past_past, List.singleton_append] at hskip
    rw [hfirst]
    exact hskip.bind (Leads.pure _ _)
  · have hfirst : Segment.first '/' rest = ⟨.lexeme .slash, ['/']⟩ := by
      unfold Segment.first
      rw [decide_eq_false hcomment]
      rfl
    rw [hfirst, if_neg hcomment, decide_eq_false hcomment]
    exact Leads.pure _ _

/-- A lexeme that an equals sign may extend. -/
theorem extensible_leads {short long : TokenKind} (h : Stands text c before (ch :: rest))
    (hch : Segment.extensible? ch = some (short, long)) :
    Leads text (do return SegmentKind.lexeme (if ← accept text '=' then long else short))
      (c.past [ch]) (Segment.first ch rest).kind (c.past (Segment.first ch rest).text) := by
  have hopen : Stands text (c.past [ch]) (before ++ [ch]) rest := h.past [ch]
  refine (accept_past (by decide) (by decide) (by decide) hopen).bind ?_
  rw [Segment.first_of_extensible hch]
  -- the byte of an equals sign is ahead just if the character is
  by_cases hequal : rest.head? = some '='
  · simp only [hequal, decide_true, if_true, ByteCursor.past_past]
    exact Leads.pure _ _
  · simp only [hequal, decide_false, if_false]
    exact Leads.pure _ _

/-- A segment that starts with an ASCII character, which has been taken. -/
theorem segment_ascii_leads (h : Stands text c before (ch :: rest)) (hc : c.start = c.pos)
    (hascii : ch.toNat < 0x80) :
    Leads text (segment text) c (Segment.first ch rest).kind
      (c.past (Segment.first ch rest).text) := by
  obtain ⟨b, hb, hread⟩ := encoded_ascii hascii rest
  have hahead := h.ahead
  rw [hb] at hahead
  have htake := take_leads hahead
  rw [hread] at htake
  refine htake.bind ?_
  -- the newline first: it is the one character that moves the line
  by_cases hline : ch = '\n'
  · subst hline
    exact (nextLine_leads (hahead.skip [b] c.line)).bind (Leads.pure _ _)
  have hpast := ByteCursor.past_ascii hascii hline c
  by_cases hslash : ch = '/'
  · subst hslash
    rw [← hpast]
    exact slash_leads h
  rw [if_neg hslash, if_neg hline]
  -- the other cases in the order in which `Segment.first` makes them
  cases hpunctuation : Segment.punctuation? ch with
  | some kind =>
    rw [← hpast, Segment.first_of_punctuation hslash hpunctuation]
    exact Leads.pure _ _
  | none =>
    cases hextensible : Segment.extensible? ch with
    | some kinds =>
      rw [← hpast]
      exact extensible_leads h hextensible
    | none =>
      rw [Segment.first_of_none hslash hpunctuation hextensible]
      dsimp only
      split
      · rw [← hpast]
        exact Leads.pure _ _
      · split
        · rename_i hquote
          subst hquote
          rw [← hpast]
          exact string_leads h hc
        · split
          · rename_i hdigit
            rw [← hpast]
            exact number_leads h hc hdigit
          · split
            · rw [← hpast]
              exact word_leads h hc
            · exact unexpected_leads h hc hline

/-- One segment, which is the first one of what is ahead. -/
theorem segment_leads (h : Stands text c before (ch :: rest)) (hc : c.start = c.pos) :
    Leads text (segment text) c (Segment.first ch rest).kind
      (c.past (Segment.first ch rest).text) := by
  rcases encoded_cases ch with ⟨hascii, -⟩ | ⟨hch, hall⟩
  · exact segment_ascii_leads h hc hascii
  · obtain ⟨b, bytes, hb⟩ := List.exists_cons_of_ne_nil (String.utf8EncodeChar_ne_nil (c := ch))
    have hahead := h.ahead
    have hbyte := hall b (by simp [hb])
    have hslash : '/'.toNat < 0x80 := by decide
    have hquote : '"'.toNat < 0x80 := by decide
    have hline : '\n'.toNat < 0x80 := by decide
    rw [encoded_cons, hb] at hahead
    have hfirst : Segment.first ch rest = ⟨.fault (.unexpectedCharacter ch), [ch]⟩ := by
      simp [Segment.first_of_none, Segment.ne_of_nonAscii hch,
        Segment.punctuation?_nonAscii hch, Segment.extensible?_nonAscii hch,
        Segment.isBlank_nonAscii hch, Segment.isDigit_nonAscii hch,
        Segment.isWordStart_nonAscii hch]
    rw [hfirst]
    refine (take_leads hahead).bind ?_
    -- the first byte is no character of its own, and starts nothing either
    simp only [Segment.ne_of_nonAscii hbyte, hslash, hquote, hline,
      Segment.punctuation?_nonAscii hbyte, Segment.extensible?_nonAscii hbyte,
      Segment.isBlank_nonAscii hbyte, Segment.isDigit_nonAscii hbyte,
      Segment.isWordStart_nonAscii hbyte, if_false, Bool.false_eq_true]
    exact unexpected_leads h hc (Segment.ne_of_nonAscii hch hline)

/-! ## Items -/

/-- How far a walk is with an item: at the end of the text, or behind some bytes and with all other
    items still ahead. -/
inductive Reaches (text : String) (c : ByteCursor) (rest : List Char) (item : ScanItem)
    (c' : ByteCursor) : Prop
  | finish (hfinished : c'.finished) (hitem : item = .ok (.eof c'.line))
      (hitems : ScanItem.ofSegments c.line (Segment.ofText rest) = [item])
  | advance {before' rest' : List Char} (hfinished : c'.finished = false)
      (hstands : Stands text c' before' rest') (hpos : c.pos < c'.pos)
      (hitems : ScanItem.ofSegments c.line (Segment.ofText rest) =
        item :: ScanItem.ofSegments c'.line (Segment.ofText rest'))

/-- Trivia does not matter to what is yielded. -/
theorem Reaches.behind {next : ByteCursor} {rest' : List Char} {item : ScanItem}
    (h : Reaches text next rest' item c') (hpos : c.pos < next.pos)
    (hitems : ScanItem.ofSegments c.line (Segment.ofText rest) =
      ScanItem.ofSegments next.line (Segment.ofText rest')) : Reaches text c rest item c' := by
  cases h with
  | finish hfinished hitem hnext => exact .finish hfinished hitem (hitems.trans hnext)
  | advance hfinished hstands hle hnext =>
    exact .advance hfinished hstands (hpos.trans hle) (hitems.trans hnext)

/-- Segments are not empty, so the cursor moves on. -/
theorem pos_lt_past {chars : List Char} (hchars : chars ≠ []) (c : ByteCursor) :
    c.pos < (c.past chars).pos := by
  obtain ⟨d, chars, rfl⟩ := List.exists_cons_of_ne_nil hchars
  have hsize := d.utf8Size_pos
  show c.pos < c.pos + String.utf8Len (d :: chars)
  rw [String.utf8Len_cons]
  omega

/-- The item that a segment is. -/
theorem itemOf?_leads (s : Segment) (h : Stands text c before (s.text ++ after))
    (hc : c.start = c.pos) :
    Leads text (itemOf? text s.kind) (c.past s.text)
      (ScanItem.ofSegment? (c.line + s.text.count '\n') s) (c.past s.text) := by
  unfold itemOf? ScanItem.ofSegment?
  cases s.kind with
  | trivia => exact Leads.pure _ _
  | lexeme kind => exact (cursor_leads _).bind ((cut_lexeme_leads _ h hc).bind (Leads.pure _ _))
  | fault fault => exact (cursor_leads _).bind (Leads.pure _ _)

/-- A walk goes on where something new begins. -/
theorem begin_leads {α : Type} {x : ByteWalk α} {a : α} (h : Stands text c before rest)
    (hx : Leads text x { c with start := c.pos } a c') :
    Leads text (do
        note (.begins c.pos)
        moveTo { c with start := c.pos }
        x)
      c a c' := by
  have hsound : (ByteEvent.begins c.pos).Sound text := h.isValid
  have hmove : Leads text (moveTo { c with start := c.pos }) c () { c with start := c.pos } :=
    moveTo_leads (Nat.le_refl _) h.ahead.pos_le
  exact (note_leads hsound c).bind (hmove.bind hx)

/-- The next item is read, behind any trivia. -/
theorem item_leads {bound : Nat} (h : Stands text c before rest) (hc : c.finished = false)
    (hbound : text.utf8ByteSize < c.pos + bound) :
    ∃ item c', Leads text (ByteWalk.item text bound) c item c' ∧ Reaches text c rest item c' := by
  induction bound generalizing c before rest with
  | zero =>
    have hle := h.ahead.pos_le
    omega
  | succ bound ih =>
    have hbegin : Stands text { c with start := c.pos } before rest :=
      ⟨Nat.le_refl _, h.pos_eq, h.text_eq⟩
    have hatEnd := atEnd_leads hbegin.ahead
    rw [isEmpty_encoded] at hatEnd
    cases rest with
    | nil =>
      have hmove : Leads text (moveTo { c with start := c.pos, finished := true })
          { c with start := c.pos } () { c with start := c.pos, finished := true } :=
        moveTo_leads (Nat.le_refl _) h.ahead.pos_le
      refine ⟨.ok (.eof c.line), { c with start := c.pos, finished := true }, ?_,
        .finish rfl rfl rfl⟩
      exact (cursor_leads c).bind (begin_leads h (hatEnd.bind (hmove.bind (Leads.pure _ _))))
    | cons ch rest =>
      -- one segment is read, and what stands behind it is again a text of segments
      obtain ⟨rest', hrest, hsegments⟩ := Segment.exists_rest ch rest
      have hsegment := segment_leads hbegin rfl
      have hpos := pos_lt_past (Segment.first_text_ne_nil ch rest) { c with start := c.pos }
      rw [hrest] at hbegin
      generalize Segment.first ch rest = s at *
      have hitem := itemOf?_leads s hbegin rfl
      have hnext := hbegin.past s.text
      have hitems : ScanItem.ofSegments c.line (Segment.ofText (ch :: rest)) =
          (ScanItem.ofSegment? (c.line + s.text.count '\n') s).toList ++
            ScanItem.ofSegments (c.line + s.text.count '\n') (Segment.ofText rest') := by
        rw [hsegments]
        rfl
      -- trivia yields no item and the loop goes on; each round leaves a character less
      cases hs : ScanItem.ofSegment? (c.line + s.text.count '\n') s with
      | none =>
        rw [hs] at hitem hitems
        have hleft : text.utf8ByteSize <
            (ByteCursor.past { c with start := c.pos } s.text).pos + bound := by
          change c.pos < _ at hpos
          omega
        obtain ⟨item, c', hx, hreaches⟩ := ih hnext hc hleft
        refine ⟨item, c', ?_, hreaches.behind hpos hitems⟩
        exact (cursor_leads c).bind
          (begin_leads h (hatEnd.bind (hsegment.bind (hitem.bind hx))))
      | some item =>
        rw [hs] at hitem hitems
        refine ⟨item, ByteCursor.past { c with start := c.pos } s.text, ?_,
          .advance hc hnext hpos hitems⟩
        exact (cursor_leads c).bind
          (begin_leads h (hatEnd.bind (hsegment.bind (hitem.bind (Leads.pure _ _)))))

/-! ## Whole texts -/

/-- Nothing is yielded after the end of the text. -/
theorem next_finished (hc : c.finished) : Leads text (next text) c none c := by
  refine (cursor_leads c).bind ?_
  rw [if_pos hc]
  exact Leads.pure _ _

/-- One call before that yields the next item. -/
theorem next_leads (h : Stands text c before rest) (hc : c.finished = false) :
    ∃ item c', Leads text (next text) c (some item) c' ∧ Reaches text c rest item c' := by
  have hbound : text.utf8ByteSize < c.pos + (text.utf8ByteSize + 1) := by omega
  obtain ⟨item, c', hitem, hreaches⟩ := item_leads h hc hbound
  refine ⟨item, c', (cursor_leads c).bind ?_, hreaches⟩
  rw [hc, if_neg Bool.false_ne_true]
  exact hitem.bind (Leads.pure _ _)

/-- All items are yielded in the end, the last one for the end of the text and each other one for
    some bytes. -/
structure Complete (text : String) (c : ByteCursor) (rest : List Char) (yielded : List ByteYield) :
    Prop where
  items : yielded.map (·.item) = ScanItem.ofSegments c.line (Segment.ofText rest)
  length_le : c.pos + yielded.length ≤ text.utf8ByteSize + 1
  last : ∃ earlier last line, yielded = earlier ++ [last] ∧ last.item = .ok (.eof line) ∧
    ∀ y ∈ earlier, y.before < y.after

/-- Items are yielded until there are none. -/
theorem yields_leads {bound : Nat} (h : Stands text c before rest) (hc : c.finished = false)
    (hbound : text.utf8ByteSize + 1 < c.pos + bound) :
    ∃ yielded c', Leads text (yields text bound) c yielded c' ∧ Complete text c rest yielded := by
  induction bound generalizing c before rest with
  | zero =>
    have hle := h.ahead.pos_le
    omega
  | succ bound ih =>
    have hle := h.ahead.pos_le
    obtain ⟨item, c', hnext, hreaches⟩ := next_leads h hc
    -- behind the item for the end one more call finds nothing
    cases hreaches with
    | finish hfinished hitem hitems =>
      obtain ⟨bound, rfl⟩ : ∃ n, bound = n + 1 := Nat.exists_eq_add_one_of_ne_zero (by omega)
      have hend : Leads text (yields text (bound + 1)) c' [] c' :=
        (cursor_leads c').bind ((next_finished hfinished).bind (Leads.pure _ _))
      refine ⟨[⟨item, c.pos, c'.pos⟩], c', ?_, hitems.symm, ?_, [], _, c'.line, rfl, hitem, by simp⟩
      · exact (cursor_leads c).bind (hnext.bind ((cursor_leads c').bind
          (hend.bind (Leads.pure _ _))))
      · show c.pos + 1 ≤ text.utf8ByteSize + 1
        omega
    | advance hfinished hstands hpos hitems =>
      -- any other item moves on, so the bound suffices for what is left
      obtain ⟨yielded, c'', hyields, hcomplete⟩ := ih hstands hfinished (by omega)
      obtain ⟨earlier, last, line, rfl, hlast, hbefore⟩ := hcomplete.last
      have hlength := hcomplete.length_le
      refine ⟨⟨item, c.pos, c'.pos⟩ :: (earlier ++ [last]), c'', ?_, ?_, ?_,
        ⟨item, c.pos, c'.pos⟩ :: earlier, last, line, rfl, hlast, ?_⟩
      · exact (cursor_leads c).bind (hnext.bind ((cursor_leads c').bind
          (hyields.bind (Leads.pure _ _))))
      · rw [List.map_cons, hcomplete.items, hitems]
      · rw [List.length_cons]
        omega
      · exact List.forall_mem_cons.mpr ⟨hpos, hbefore⟩

/-- Every text is scanned to its end. The cursor stays within it and is not before the start of what
    is being read, every byte that is taken is there, and what is read begins and is cut out at
    boundaries. The items are those of the text, no more than it has bytes and its end. The end of
    the text comes last, and each call before that goes on by at least one byte. -/
theorem ofText_sound (text : String) :
    ∃ yielded s, ofText text = .ok yielded s ∧ (∀ e ∈ s.events, e.Sound text) ∧
      yielded.map (·.item) = ScanItem.ofText text ∧ yielded.length ≤ text.utf8ByteSize + 1 ∧
      ∃ earlier last line, yielded = earlier ++ [last] ∧ last.item = .ok (.eof line) ∧
        ∀ y ∈ earlier, y.before < y.after := by
  have hstands : Stands text init.cursor [] text.toList := ⟨Nat.le_refl _, rfl, rfl⟩
  have hinit : ∀ e ∈ init.events, e.Sound text := by
    intro e he
    rw [List.mem_singleton.mp he]
    exact ⟨Nat.le_refl _, Nat.zero_le _⟩
  -- there are more rounds allowed than bytes, so the walk gets to its end
  have hbound : text.utf8ByteSize + 1 < init.cursor.pos + (text.utf8ByteSize + 2) := by omega
  obtain ⟨yielded, c', hyields, hcomplete⟩ := yields_leads hstands rfl hbound
  obtain ⟨events, hsound, hresult⟩ := hyields init.events hinit
  have hlength := hcomplete.length_le
  refine ⟨yielded, ⟨c', events⟩, hresult, hsound, hcomplete.items, ?_, hcomplete.last⟩
  rwa [show init.cursor.pos = 0 from rfl, Nat.zero_add] at hlength

end ByteWalk

end Lox
