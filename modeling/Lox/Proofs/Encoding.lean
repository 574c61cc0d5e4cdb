import Lox.Token.ByteWalk
import Mathlib.Data.String.Basic

/-!
# The bytes of characters

In UTF-8 an ASCII character is one byte, its own number, and every byte of any other character is
above all of these. So whoever looks for ASCII characters may look at bytes, and finds them where
the characters are.

## Key results

- `encoded_cases`: the bytes of a character
- `AsciiOnly.forall_encoded`, `AsciiOnly.head_encoded`: runs of characters are runs of bytes
- `count_encoded`: line breaks are counted in the bytes
- `Segment.punctuation?_nonAscii`, `Segment.isWordStart_nonAscii` and so on: no lexeme starts with
  a character that is not ASCII
- `isValid_utf8Len`, `extract_utf8Len`: what is before some characters ends at a boundary, and what
  is between two boundaries is cut out
-/

namespace Lox

/-- The bytes of characters. -/
def encoded (chars : List Char) : List UInt8 :=
  chars.flatMap String.utf8EncodeChar

section Encoded

variable (chars more : List Char)

/-- The bytes of a text are those of its characters. -/
theorem bytesOf_eq_encoded (text : String) : bytesOf text = encoded text.toList := by
  rw [bytesOf, String.toUTF8, ← String.utf8Encode_toList, List.utf8Encode, List.data_toByteArray]
  rfl

/-- The bytes of the first character stand before the others. -/
@[simp] theorem encoded_cons (c : Char) :
    encoded (c :: chars) = String.utf8EncodeChar c ++ encoded chars :=
  List.flatMap_cons

/-- The bytes of two parts of a text stand one behind the other. -/
@[simp] theorem encoded_append : encoded (chars ++ more) = encoded chars ++ encoded more :=
  List.flatMap_append

/-- There are as many bytes as the characters take. -/
@[simp] theorem length_encoded : (encoded chars).length = String.utf8Len chars := by
  induction chars with
  | nil => rfl
  | cons c chars ih =>
    simp [ih, String.length_utf8EncodeChar]
    omega

/-- Without characters there are no bytes, and without bytes no characters. -/
@[simp] theorem isEmpty_encoded : (encoded chars).isEmpty = chars.isEmpty := by
  cases chars with
  | nil => rfl
  | cons c chars => simp

/-- The size of a text is that of its characters. -/
theorem utf8ByteSize_eq_utf8Len (text : String) :
    text.utf8ByteSize = String.utf8Len text.toList := by
  rw [← String.utf8ByteSize_ofList, String.ofList_toList]

end Encoded

/-! ## Bytes as characters -/

/-- Bytes below `0x80` are ASCII characters, and other ones are read as characters that are not. -/
theorem toNat_ofByte (b : UInt8) : (ofByte b).toNat = b.toNat := by
  have hvalid : b.toNat.isValidChar := .inl (by have := b.toNat_lt; omega)
  rw [ofByte, Char.ofNat, dif_pos hvalid]
  rfl

/-- An ASCII character is one byte and read off it. No byte of another character is taken for one
    that is ASCII. -/
theorem encoded_cases (c : Char) :
    (c.toNat < 0x80 ∧ ∃ b, String.utf8EncodeChar c = [b] ∧ ofByte b = c) ∨
      (0x80 ≤ c.toNat ∧ ∀ b ∈ String.utf8EncodeChar c, 0x80 ≤ (ofByte b).toNat) := by
  have hnat : c.val.toNat = c.toNat := rfl
  by_cases hascii : c.toNat < 0x80
  · refine .inl ⟨hascii, UInt8.ofNat c.toNat, ?_, ?_⟩
    · unfold String.utf8EncodeChar
      simp only [hnat]
      rw [if_pos (by omega)]
    · have hbyte : (UInt8.ofNat c.toNat).toNat = c.toNat := by
        rw [UInt8.toNat_ofNat']
        omega
      rw [ofByte, hbyte, Char.ofNat_toNat]
  · refine .inr ⟨by omega, fun b hb => ?_⟩
    rw [toNat_ofByte]
    unfold String.utf8EncodeChar at hb
    simp only [hnat] at hb
    rw [if_neg (by omega)] at hb
    -- whatever the width, each byte is some remainder and a mark that is large enough
    split at hb
    · simp only [List.mem_cons, List.not_mem_nil, or_false] at hb
      rcases hb with rfl | rfl <;> rw [UInt8.toNat_ofNat'] <;> omega
    · split at hb
      · simp only [List.mem_cons, List.not_mem_nil, or_false] at hb
        rcases hb with rfl | rfl | rfl <;> rw [UInt8.toNat_ofNat'] <;> omega
      · simp only [List.mem_cons, List.not_mem_nil, or_false] at hb
        rcases hb with rfl | rfl | rfl | rfl <;> rw [UInt8.toNat_ofNat'] <;> omega

/-- An ASCII character is one byte, and the byte stands for it. -/
theorem encoded_ascii {c : Char} (hc : c.toNat < 0x80) (chars : List Char) :
    ∃ b, encoded (c :: chars) = b :: encoded chars ∧ ofByte b = c := by
  rcases encoded_cases c with ⟨-, b, hb, hread⟩ | ⟨hge, -⟩
  · exact ⟨b, by rw [encoded_cons, hb, List.singleton_append], hread⟩
  · omega

/-- An ASCII character takes one byte. -/
theorem utf8Size_ascii {c : Char} (hc : c.toNat < 0x80) : c.utf8Size = 1 := by
  obtain ⟨b, hb, -⟩ := encoded_ascii hc []
  have hlength := congrArg List.length hb
  simpa [length_encoded] using hlength

/-! ## Runs -/

/-- The predicate does not tell characters apart that are not ASCII. -/
def AsciiOnly (p : Char → Bool) : Prop :=
  ∀ c d : Char, 0x80 ≤ c.toNat → 0x80 ≤ d.toNat → p c = p d

/-- A predicate that holds of ASCII characters only. -/
theorem asciiOnly_of_forall {p : Char → Bool} (hp : ∀ c : Char, 0x80 ≤ c.toNat → p c = false) :
    AsciiOnly p :=
  fun c d hc hd => (hp c hc).trans (hp d hd).symm

/-- To be a given ASCII character does not tell the others apart. -/
theorem asciiOnly_eq {e : Char} (he : e.toNat < 0x80) : AsciiOnly fun c => c = e := by
  intro c d hc hd
  have hc : c ≠ e := by rintro rfl; omega
  have hd : d ≠ e := by rintro rfl; omega
  simp [hc, hd]

namespace AsciiOnly

variable {p : Char → Bool} (hp : AsciiOnly p) {chars : List Char}

include hp

/-- What does not tell them apart does not do so when it is negated. -/
theorem not : AsciiOnly fun c => !p c := by
  intro c d hc hd
  show (!p c) = !p d
  rw [hp c d hc hd]

/-- The bytes of a character are all such, or none is. -/
theorem ofByte_eq {c : Char} {b : UInt8} (hb : b ∈ String.utf8EncodeChar c) :
    p (ofByte b) = p c := by
  rcases encoded_cases c with ⟨-, b', hb', hc⟩ | ⟨hc, hall⟩
  · rw [hb'] at hb
    rw [List.mem_singleton.mp hb, hc]
  · exact hp _ _ (hall b hb) hc

/-- A run of characters is a run of bytes. -/
theorem forall_encoded (h : ∀ c ∈ chars, p c) : ∀ b ∈ encoded chars, p (ofByte b) := by
  intro b hb
  obtain ⟨c, hc, hb⟩ := List.mem_flatMap.mp hb
  rw [hp.ofByte_eq hb]
  exact h c hc

/-- What starts with no such character starts with no such byte. -/
theorem head_encoded (h : ∀ c ∈ chars.head?, p c) : ∀ b ∈ (encoded chars).head?, p (ofByte b) := by
  intro b hb
  cases chars with
  | nil => cases hb
  | cons c chars =>
    have hc := h c rfl
    rw [encoded_cons, List.head?_append_of_ne_nil _ String.utf8EncodeChar_ne_nil] at hb
    rwa [hp.ofByte_eq (List.mem_of_mem_head? hb)]

/-- The next byte is looked at in place of the next character, and a zero byte behind the end. -/
theorem getD_encoded (hzero : p '\x00' = false) (chars : List Char) :
    p (ofByte ((encoded chars).getD 0 0)) = chars.head?.any p := by
  cases chars with
  | nil => exact hzero
  | cons c chars =>
    obtain ⟨b, bytes, hb⟩ := List.exists_cons_of_ne_nil (String.utf8EncodeChar_ne_nil (c := c))
    rw [encoded_cons, hb]
    exact hp.ofByte_eq (by simp [hb])

end AsciiOnly

section Single

variable {e : Char} (he : e.toNat < 0x80) {chars : List Char}

include he

/-- Characters among which an ASCII character is not have no byte that is taken for it. -/
theorem ofByte_ne_of_mem_encoded (h : e ∉ chars) : ∀ b ∈ encoded chars, ofByte b ≠ e := by
  intro b hb
  have hnot := (asciiOnly_eq he).not.forall_encoded
    (fun c hc => by simpa using ne_of_mem_of_not_mem hc h) b hb
  simpa using hnot

/-- If a text goes on with an ASCII character then its byte stands for that. -/
theorem ofByte_eq_of_mem_head? (h : ∀ c ∈ chars.head?, c = e) :
    ∀ b ∈ (encoded chars).head?, ofByte b = e := by
  intro b hb
  have heq := (asciiOnly_eq he).head_encoded
    (fun c hc => by simpa using h c hc) b hb
  simpa using heq

end Single

/-- A character that is ASCII occurs as often as its byte does. -/
theorem count_encoded {c : Char} (hc : c.toNat < 0x80) (chars : List Char) :
    (encoded chars).countP (ofByte · = c) = chars.count c := by
  induction chars with
  | nil => rfl
  | cons d chars ih =>
    rw [encoded_cons, List.countP_append, ih, List.count_cons]
    -- an ASCII character is its byte; in any other one all bytes are above ASCII
    rcases encoded_cases d with ⟨-, b, hb, hd⟩ | ⟨hd, hall⟩
    · rw [hb]
      by_cases heq : d = c
      · simp [hd, heq, Nat.add_comm]
      · simp [hd, heq]
    · have hzero : (String.utf8EncodeChar d).countP (ofByte · = c) = 0 := by
        refine List.countP_eq_zero.mpr fun b hb heq => ?_
        have hbyte := hall b hb
        rw [of_decide_eq_true heq] at hbyte
        omega
      have hne : d ≠ c := by
        rintro rfl
        omega
      simp [hzero, hne]

/-! ## What is not ASCII -/

namespace Segment

variable {c : Char} (hc : 0x80 ≤ c.toNat)

include hc

/-- No other character is an ASCII character. -/
theorem ne_of_nonAscii {e : Char} (he : e.toNat < 0x80) : c ≠ e := by
  rintro rfl
  omega

/-- No other character comes before an ASCII character. -/
theorem not_le_of_nonAscii {e : Char} (he : e.toNat < 0x80) : ¬ c ≤ e := by
  intro hle
  have hle : c.toNat ≤ e.toNat := UInt32.le_iff_toNat_le.mp (Char.le_def.mp hle)
  omega

/-- No other character is blank. -/
theorem isBlank_nonAscii : isBlank c = false := by
  simp [isBlank, ne_of_nonAscii hc (e := ' ') (by decide),
    ne_of_nonAscii hc (e := '\r') (by decide), ne_of_nonAscii hc (e := '\t') (by decide),
    ne_of_nonAscii hc (e := '\n') (by decide)]

/-- No other character is a digit. -/
theorem isDigit_nonAscii : isDigit c = false := by
  simp [isDigit, not_le_of_nonAscii hc (e := '9') (by decide)]

/-- No other character starts a word. -/
theorem isWordStart_nonAscii : isWordStart c = false := by
  simp [isWordStart, not_le_of_nonAscii hc (e := 'z') (by decide),
    not_le_of_nonAscii hc (e := 'Z') (by decide), ne_of_nonAscii hc (e := '_') (by decide)]

/-- No other character goes on with a word. -/
theorem isWordPart_nonAscii : isWordPart c = false := by
  simp [isWordPart, isWordStart_nonAscii hc, isDigit_nonAscii hc]

/-- No other character is punctuation. -/
theorem punctuation?_nonAscii : punctuation? c = none := by
  unfold punctuation?
  split <;> first | rfl | exact absurd hc (by decide)

/-- No other character can be extended to an operator. -/
theorem extensible?_nonAscii : extensible? c = none := by
  unfold extensible?
  split <;> first | rfl | exact absurd hc (by decide)

end Segment

/-! ## Boundaries -/

section Boundaries

variable {text : String} {before between after : List Char}

/-- Where some characters of a text end is a boundary. -/
theorem isValid_utf8Len (h : text.toList = before ++ after) :
    String.Pos.Raw.IsValid text ⟨String.utf8Len before⟩ := by
  rw [String.Pos.Raw.isValid_iff_exists_append]
  refine ⟨String.ofList before, String.ofList after, ?_, ?_⟩
  · rw [← String.ofList_append, ← h, String.ofList_toList]
  · rw [String.rawEndPos, String.utf8ByteSize_ofList]

/-- The text between two boundaries. -/
theorem extract_utf8Len (h : text.toList = before ++ (between ++ after)) :
    String.Pos.Raw.extract text ⟨String.utf8Len before⟩ ⟨String.utf8Len (before ++ between)⟩ =
      String.ofList between := by
  have htext : text = String.ofList (before ++ between ++ after) := by
    rw [List.append_assoc, ← h, String.ofList_toList]
  rw [htext, String.utf8Len_append]
  exact String.extract_of_valid before between after

end Boundaries

end Lox
