import Lox.Proofs.Encoding

/-!
# Walks over bytes stay in bounds

A walk over the bytes of a text does single steps and runs loops. Where the bytes ahead are known it
leads to a certain cursor, and all that it does on the way is sound. Loops look for ASCII
characters, so they may go through the inside of other ones and still end between two characters.

## Key results

- `ByteWalk.skipWhile_leads`, `ByteWalk.stringContents_leads`, `ByteWalk.comment_leads`: loops over
  bytes
- `ByteWalk.skipWhile_past`, `ByteWalk.stringContents_past`, `ByteWalk.comment_past`: the same over
  characters
- `ByteWalk.cut_leads`: what is cut out between two characters
-/

namespace Lox

/-- What a walk does is sound. The cursor stands within the text and not before what is being read,
    only bytes that are there are taken, and what is read begins and is cut out at boundaries. -/
def ByteEvent.Sound (text : String) : ByteEvent → Prop
  | .stands start pos => start ≤ pos ∧ pos ≤ text.utf8ByteSize
  | .begins start => String.Pos.Raw.IsValid text ⟨start⟩
  | .takes pos => pos < text.utf8ByteSize
  | .searches pos => pos ≤ text.utf8ByteSize
  | .cuts start stop =>
    start ≤ stop ∧ String.Pos.Raw.IsValid text ⟨start⟩ ∧ String.Pos.Raw.IsValid text ⟨stop⟩

namespace ByteWalk

variable {α β : Type} {text : String} {c c' c'' : ByteCursor}

/-- The walk leads from one cursor to another one and yields a result, and all that it does on the
    way is sound. -/
def Leads (text : String) (x : ByteWalk α) (c : ByteCursor) (a : α) (c' : ByteCursor) : Prop :=
  ∀ events, (∀ e ∈ events, e.Sound text) →
    ∃ events', (∀ e ∈ events', ByteEvent.Sound text e) ∧ x ⟨c, events⟩ = .ok a ⟨c', events'⟩

namespace Leads

variable {x : ByteWalk α} {f : α → ByteWalk β} {a : α} {b : β}

theorem pure (a : α) (c : ByteCursor) : Leads text (Pure.pure a) c a c :=
  fun events h => ⟨events, h, rfl⟩

/-- One walk leads on from where the other ends. -/
theorem bind (hx : Leads text x c a c') (hf : Leads text (f a) c' b c'') :
    Leads text (x >>= f) c b c'' := by
  intro events h
  obtain ⟨events₁, h₁, hx⟩ := hx events h
  obtain ⟨events₂, h₂, hf⟩ := hf events₁ h₁
  refine ⟨events₂, h₂, ?_⟩
  show EStateM.bind x f _ = _
  rw [EStateM.bind, hx]
  exact hf

end Leads

/-! ## Single steps -/

/-- Looking at the cursor does not move it. -/
theorem cursor_leads (c : ByteCursor) : Leads text cursor c c c :=
  fun events h => ⟨events, h, rfl⟩

/-- What is noted has to be sound. -/
theorem note_leads {e : ByteEvent} (he : e.Sound text) (c : ByteCursor) :
    Leads text (note e) c () c :=
  fun events h => ⟨e :: events, List.forall_mem_cons.mpr ⟨he, h⟩, rfl⟩

/-- The cursor may be moved to any place in the text that is not before its start. -/
theorem moveTo_leads (hstart : c'.start ≤ c'.pos) (hpos : c'.pos ≤ text.utf8ByteSize) :
    Leads text (moveTo c') c () c' := by
  have hsound : (ByteEvent.stands c'.start c'.pos).Sound text := ⟨hstart, hpos⟩
  exact fun events h => ⟨_, List.forall_mem_cons.mpr ⟨hsound, h⟩, rfl⟩

/-- These bytes are ahead of the cursor. -/
structure Ahead (text : String) (c : ByteCursor) (bytes : List UInt8) : Prop where
  start_le : c.start ≤ c.pos
  pos_le : c.pos ≤ text.utf8ByteSize
  drop_eq : (bytesOf text).drop c.pos = bytes

/-- A text has as many bytes as its size says. -/
theorem length_bytesOf (text : String) : (bytesOf text).length = text.utf8ByteSize := by
  rw [bytesOf_eq_encoded, length_encoded, utf8ByteSize_eq_utf8Len]

namespace Ahead

variable {b : UInt8} {bytes rest : List UInt8}

/-- What is ahead of the cursor reaches to the end of the text. -/
theorem length_add (h : Ahead text c bytes) : c.pos + bytes.length = text.utf8ByteSize := by
  have hpos := h.pos_le
  rw [← h.drop_eq, List.length_drop, length_bytesOf]
  omega

/-- The cursor behind some of the bytes. -/
theorem skip (run : List UInt8) (h : Ahead text c (run ++ rest)) (line : Nat) :
    Ahead text { c with pos := c.pos + run.length, line := line } rest := by
  have hlength := h.length_add
  rw [List.length_append] at hlength
  refine ⟨?_, ?_, ?_⟩
  · exact h.start_le.trans (Nat.le_add_right _ _)
  · show c.pos + run.length ≤ text.utf8ByteSize
    omega
  · show (bytesOf text).drop (c.pos + run.length) = rest
    rw [← List.drop_drop, h.drop_eq, List.drop_left]

/-- The bytes of the text at the cursor are those ahead. -/
theorem getElem?_eq (h : Ahead text c bytes) (k : Nat) :
    (bytesOf text)[c.pos + k]? = bytes[k]? := by
  rw [← h.drop_eq, List.getElem?_drop]

/-- There is a byte to be stepped over. -/
theorem pos_lt (h : Ahead text c (b :: rest)) : c.pos < text.utf8ByteSize := by
  have hlength := h.length_add
  rw [List.length_cons] at hlength
  omega

/-- At the end of the text no byte is ahead. -/
theorem atEnd_iff (h : Ahead text c bytes) : text.utf8ByteSize ≤ c.pos ↔ bytes = [] := by
  have hlength := h.length_add
  rw [← List.length_eq_zero_iff]
  omega

end Ahead

section Steps

variable {b : UInt8} {bytes run rest : List UInt8}

/-- Whether the text is over is whether no byte is ahead. -/
theorem atEnd_leads (h : Ahead text c bytes) : Leads text (atEnd text) c bytes.isEmpty c := by
  have hatEnd : decide (text.utf8ByteSize ≤ c.pos) = bytes.isEmpty := by
    rw [Bool.eq_iff_iff, decide_eq_true_iff, h.atEnd_iff, List.isEmpty_iff]
  intro events hevents
  refine ⟨events, hevents, ?_⟩
  rw [← hatEnd]
  rfl

/-- What is peeked at is the byte that far ahead, or zero behind the end. -/
theorem peek_leads (h : Ahead text c bytes) (k : Nat) :
    Leads text (peek text k) c (ofByte (bytes.getD k 0)) c := by
  intro events hevents
  refine ⟨events, hevents, ?_⟩
  rw [List.getD_eq_getElem?_getD, ← h.getElem?_eq, ← List.getD_eq_getElem?_getD]
  rfl

/-- The cursor moves over the next byte. -/
theorem forward_leads (h : Ahead text c (b :: rest)) :
    Leads text forward c () { c with pos := c.pos + 1 } := by
  have hnext := h.skip [b] c.line
  exact (cursor_leads c).bind (moveTo_leads hnext.start_le hnext.pos_le)

/-- The cursor counts another line. -/
theorem nextLine_leads (h : Ahead text c bytes) :
    Leads text nextLine c () { c with line := c.line + 1 } :=
  (cursor_leads c).bind (moveTo_leads h.start_le h.pos_le)

/-- A byte that is there is taken. -/
theorem take_leads (h : Ahead text c (b :: rest)) :
    Leads text (take text) c (ofByte b) { c with pos := c.pos + 1 } := by
  have hnext := h.skip [b] c.line
  have hbyte : (bytesOf text)[c.pos]? = some b := h.getElem?_eq 0
  have hsound : (ByteEvent.takes c.pos).Sound text := h.pos_lt
  refine (cursor_leads c).bind ((note_leads hsound c).bind ?_)
  rw [hbyte]
  exact (moveTo_leads hnext.start_le hnext.pos_le).bind (Leads.pure _ _)

/-! ## Loops -/

/-- A run of bytes is stepped over, up to the end of the text or to another byte. -/
theorem skipWhile_leads {p : Char → Bool} (hp : p '\x00' = false) {bound : Nat}
    (h : Ahead text c (run ++ rest)) (hrun : ∀ b ∈ run, p (ofByte b))
    (hrest : ∀ b ∈ rest.head?, ¬ p (ofByte b)) (hbound : run.length < bound) :
    Leads text (skipWhile text p bound) c () { c with pos := c.pos + run.length } := by
  induction run generalizing c bound with
  | nil =>
    obtain ⟨bound, rfl⟩ := Nat.exists_eq_add_one_of_ne_zero (Nat.ne_of_gt hbound)
    refine (peek_leads h 0).bind ?_
    -- behind the end there is a zero byte, which is none of the run
    have hstop : p (ofByte (([] ++ rest).getD 0 0)) = false := by
      cases rest with
      | nil => exact hp
      | cons b rest => simpa using hrest b rfl
    rw [hstop]
    exact Leads.pure _ _
  | cons b run ih =>
    obtain ⟨bound, rfl⟩ := Nat.exists_eq_add_one_of_ne_zero (Nat.ne_zero_of_lt hbound)
    obtain ⟨hb, hrun⟩ := List.forall_mem_cons.mp hrun
    have hgo : p (ofByte ((b :: run ++ rest).getD 0 0)) = true := hb
    have hlength : run.length < bound := by simpa using hbound
    have hloop := ih (h.skip [b] c.line) hrun hlength
    refine (peek_leads h 0).bind ?_
    rw [hgo, if_pos rfl]
    refine (forward_leads h).bind ?_
    have hpos : c.pos + 1 + run.length = c.pos + (b :: run).length := by
      rw [List.length_cons]
      omega
    rw [← hpos]
    exact hloop

/-- The contents of a string are stepped over, up to a quote or to the end of the text, and their
    lines are counted. -/
theorem stringContents_leads {bound : Nat} (h : Ahead text c (run ++ rest))
    (hrun : ∀ b ∈ run, ofByte b ≠ '"') (hrest : ∀ b ∈ rest.head?, ofByte b = '"')
    (hbound : run.length < bound) :
    Leads text (stringContents text bound) c ()
      { c with pos := c.pos + run.length, line := c.line + run.countP (ofByte · = '\n') } := by
  -- each round takes a byte of the run, which has to be less long than the bound
  induction run generalizing c bound with
  | nil =>
    obtain ⟨bound, rfl⟩ := Nat.exists_eq_add_one_of_ne_zero (Nat.ne_of_gt hbound)
    refine (atEnd_leads h).bind ((peek_leads h 0).bind ?_)
    have hstop : (!([] ++ rest).isEmpty && decide (ofByte (([] ++ rest).getD 0 0) ≠ '"')) =
        false := by
      cases rest with
      | nil => rfl
      | cons b rest => simpa using hrest b rfl
    rw [hstop]
    exact Leads.pure _ _
  | cons b run ih =>
    obtain ⟨bound, rfl⟩ := Nat.exists_eq_add_one_of_ne_zero (Nat.ne_zero_of_lt hbound)
    obtain ⟨hb, hrun⟩ := List.forall_mem_cons.mp hrun
    have hgo : (!(b :: run ++ rest).isEmpty &&
        decide (ofByte ((b :: run ++ rest).getD 0 0) ≠ '"')) = true := by
      simpa using hb
    have hlength : run.length < bound := by simpa using hbound
    refine (atEnd_leads h).bind ((peek_leads h 0).bind ?_)
    rw [hgo, if_pos rfl]
    refine (take_leads h).bind ?_
    have hpos : c.pos + 1 + run.length = c.pos + (b :: run).length := by
      rw [List.length_cons]
      omega
    -- a newline also moves the line, and counts as one
    by_cases hline : ofByte b = '\n'
    · have hloop := ih (h.skip [b] (c.line + 1)) hrun hlength
      have hcount : c.line + 1 + run.countP (ofByte · = '\n') =
          c.line + (b :: run).countP (ofByte · = '\n') := by
        rw [List.countP_cons_of_pos (by simpa using hline)]
        omega
      rw [if_pos hline, ← hpos, ← hcount]
      exact (nextLine_leads (h.skip [b] c.line)).bind hloop
    · have hloop := ih (h.skip [b] c.line) hrun hlength
      have hcount : (b :: run).countP (ofByte · = '\n') = run.countP (ofByte · = '\n') :=
        List.countP_cons_of_neg (by simpa using hline)
      rw [if_neg hline, ← hpos, hcount]
      exact hloop

/-- A comment is stepped over, up to a line break or to the end of the text. -/
theorem comment_leads (h : Ahead text c (run ++ rest)) (hrun : ∀ b ∈ run, ofByte b ≠ '\n')
    (hrest : ∀ b ∈ rest.head?, ofByte b = '\n') :
    Leads text (comment text) c () { c with pos := c.pos + run.length } := by
  have hnext := h.skip run c.line
  have hsound : (ByteEvent.searches c.pos).Sound text := h.pos_le
  have hrange : ¬ text.utf8ByteSize < c.pos := Nat.not_lt.mpr h.pos_le
  refine (cursor_leads c).bind ((note_leads hsound c).bind ?_)
  rw [if_neg hrange, h.drop_eq]
  -- a comment is not walked over but searched for its newline, which is behind the whole run
  have hnone : run.findIdx? (ofByte · = '\n') = none :=
    List.findIdx?_eq_none_iff.mpr fun b hb => by simpa using hrun b hb
  cases rest with
  | nil =>
    have hend : c.pos + run.length = text.utf8ByteSize := by
      have hlength := h.length_add
      rwa [List.append_nil] at hlength
    rw [List.append_nil, hnone, ← hend]
    exact moveTo_leads hnext.start_le hnext.pos_le
  | cons b rest =>
    have hfound : (run ++ b :: rest).findIdx? (ofByte · = '\n') = some run.length := by
      rw [List.findIdx?_append, hnone, List.findIdx?_cons]
      simp [hrest b rfl]
    rw [hfound]
    exact moveTo_leads hnext.start_le hnext.pos_le

end Steps

/-! ## Steps over characters -/

end ByteWalk

/-- The cursor when it has stepped over characters. -/
def ByteCursor.past (c : ByteCursor) (chars : List Char) : ByteCursor :=
  { c with pos := c.pos + String.utf8Len chars, line := c.line + chars.count '\n' }

/-- To go past some characters and then past more is to go past all of them. -/
@[simp] theorem ByteCursor.past_past (c : ByteCursor) (chars more : List Char) :
    (c.past chars).past more = c.past (chars ++ more) := by
  simp [past, Nat.add_assoc]

/-- An ASCII character is one byte. -/
theorem ByteCursor.past_ascii {e : Char} (he : e.toNat < 0x80) (hline : e ≠ '\n')
    (c : ByteCursor) : c.past [e] = { c with pos := c.pos + 1 } := by
  simp [past, utf8Size_ascii he, hline]

namespace ByteWalk

variable {text : String} {c c' : ByteCursor} {before run after : List Char}

/-- The cursor stands between these characters of the text. -/
structure Stands (text : String) (c : ByteCursor) (before after : List Char) : Prop where
  start_le : c.start ≤ c.pos
  pos_eq : c.pos = String.utf8Len before
  text_eq : text.toList = before ++ after

namespace Stands

/-- Ahead of the cursor are the bytes of the characters behind it. -/
theorem ahead (h : Stands text c before after) : Ahead text c (encoded after) := by
  have hbytes : bytesOf text = encoded before ++ encoded after := by
    rw [bytesOf_eq_encoded, h.text_eq, encoded_append]
  refine ⟨h.start_le, ?_, ?_⟩
  · rw [h.pos_eq, utf8ByteSize_eq_utf8Len, h.text_eq, String.utf8Len_append]
    exact Nat.le_add_right _ _
  · rw [hbytes, h.pos_eq, ← length_encoded, List.drop_left]

/-- Past the next characters the cursor stands between those and the others. -/
theorem past (run : List Char) (h : Stands text c before (run ++ after)) :
    Stands text (c.past run) (before ++ run) after := by
  refine ⟨h.start_le.trans (Nat.le_add_right _ _), ?_, ?_⟩
  · show c.pos + String.utf8Len run = _
    rw [h.pos_eq, String.utf8Len_append]
  · rw [h.text_eq, List.append_assoc]

/-- A loop needs no more rounds than there are bytes. -/
theorem length_lt (h : Stands text c before (run ++ after)) :
    (encoded run).length < text.utf8ByteSize + 1 := by
  have hlength := h.ahead.length_add
  rw [encoded_append, List.length_append] at hlength
  omega

/-- The cursor stands between two characters. -/
theorem isValid (h : Stands text c before after) : String.Pos.Raw.IsValid text ⟨c.pos⟩ := by
  rw [h.pos_eq]
  exact isValid_utf8Len h.text_eq

end Stands

/-- Text is cut out from where the cursor stands. -/
theorem cut_leads (h : Stands text c before (run ++ after)) (c' : ByteCursor) :
    Leads text (cut text c.pos (c.past run).pos) c' (String.ofList run) c' := by
  have hpast := h.past run
  have hle : c.pos ≤ (c.past run).pos := Nat.le_add_right _ _
  have hsound : (ByteEvent.cuts c.pos (c.past run).pos).Sound text :=
    ⟨hle, h.isValid, hpast.isValid⟩
  refine (note_leads hsound c').bind ?_
  rw [if_pos ⟨hle, h.isValid, hpast.isValid⟩, hpast.pos_eq, h.pos_eq, extract_utf8Len h.text_eq]
  exact Leads.pure _ _

section Ascii

variable {e : Char} (he : e.toNat < 0x80) (hline : e ≠ '\n')

include he hline

/-- Over an ASCII character the cursor moves as a whole. -/
theorem forward_past (h : Stands text c before (e :: after)) :
    Leads text forward c () (c.past [e]) := by
  obtain ⟨b, hb, -⟩ := encoded_ascii he after
  have hahead := h.ahead
  rw [hb] at hahead
  rw [ByteCursor.past_ascii he hline]
  exact forward_leads hahead

/-- A character is looked for as a byte, and stepped over if it is there. -/
theorem accept_past (hzero : '\x00' ≠ e) (h : Stands text c before after) :
    Leads text (accept text e) c (decide (after.head? = some e))
      (if after.head? = some e then c.past [e] else c) := by
  have hpeek := (asciiOnly_eq he).getD_encoded (decide_eq_false hzero) after
  refine (peek_leads h.ahead 0).bind ((atEnd_leads h.ahead).bind ?_)
  rw [hpeek, isEmpty_encoded]
  -- the zero byte that is peeked at behind the end stands for no character looked for
  cases after with
  | nil => exact Leads.pure _ _
  | cons d after =>
    by_cases hd : d = e
    · subst hd
      simp only [List.head?_cons, Option.any_some, decide_true, List.isEmpty_cons, Bool.not_false,
        Bool.and_true, if_true]
      exact (forward_past he hline h).bind (Leads.pure _ _)
    · simp only [List.head?_cons, Option.any_some, hd, decide_false, Bool.false_and,
        Bool.false_eq_true, Option.some.injEq, if_false]
      exact Leads.pure _ _

end Ascii

/-- A run of characters that are all ASCII is stepped over. -/
theorem skipWhile_past {p : Char → Bool} (hp : ∀ c : Char, 0x80 ≤ c.toNat → p c = false)
    (hzero : p '\x00' = false) (hline : p '\n' = false) (h : Stands text c before (run ++ after))
    (hrun : ∀ d ∈ run, p d) (hafter : ∀ d ∈ after.head?, ¬ p d) :
    Leads text (skipWhile text p (text.utf8ByteSize + 1)) c () (c.past run) := by
  have hascii := asciiOnly_of_forall hp
  have hahead := h.ahead
  rw [encoded_append] at hahead
  -- a newline is none of these characters, so the line stays
  have hlines : run.count '\n' = 0 := by
    refine List.count_eq_zero.mpr fun hmem => ?_
    rw [hrun _ hmem] at hline
    cases hline
  have hstop : ∀ b ∈ (encoded after).head?, ¬ p (ofByte b) := by
    intro b hb
    have hnone : ∀ d ∈ after.head?, !p d := fun d hd => by simpa using hafter d hd
    simpa using hascii.not.head_encoded hnone b hb
  have hloop := skipWhile_leads hzero hahead (hascii.forall_encoded hrun) hstop h.length_lt
  rw [length_encoded] at hloop
  simpa [ByteCursor.past, hlines] using hloop

/-- The contents of a string are stepped over, whatever characters they are. -/
theorem stringContents_past (h : Stands text c before (run ++ after)) (hrun : '"' ∉ run)
    (hafter : ∀ d ∈ after.head?, d = '"') :
    Leads text (stringContents text (text.utf8ByteSize + 1)) c () (c.past run) := by
  have hahead := h.ahead
  rw [encoded_append] at hahead
  have hloop := stringContents_leads hahead (ofByte_ne_of_mem_encoded (by decide) hrun)
    (ofByte_eq_of_mem_head? (by decide) hafter) h.length_lt
  rwa [length_encoded, count_encoded (by decide)] at hloop

/-- A comment is stepped over, whatever characters it is. -/
theorem comment_past (h : Stands text c before (run ++ after)) (hrun : '\n' ∉ run)
    (hafter : ∀ d ∈ after.head?, d = '\n') : Leads text (comment text) c () (c.past run) := by
  have hahead := h.ahead
  rw [encoded_append] at hahead
  have hloop := comment_leads hahead (ofByte_ne_of_mem_encoded (by decide) hrun)
    (ofByte_eq_of_mem_head? (by decide) hafter)
  rw [length_encoded] at hloop
  simpa [ByteCursor.past, List.count_eq_zero.mpr hrun] using hloop

end ByteWalk

end Lox
