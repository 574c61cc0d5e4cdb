import Lox.Token.Scan

/-!
# Scanning byte by byte

A text is scanned with a cursor in its bytes. The cursor looks one or two bytes ahead, moves by
single bytes or by the width of a character, and text is cut out between two places. A walk takes
down what it does, and it fails where a byte is taken although none is left, or where a cut would
go through a character.

The same items are obtained from the segments of the text, without a cursor.
-/

namespace Lox

/-- Where a walk stands in the bytes of a text. -/
structure ByteCursor where
  /-- The first byte of what is being read. -/
  start : Nat
  /-- The next byte. -/
  pos : Nat
  /-- The line of the next byte. -/
  line : Nat
  /-- Has the end of the text been yielded? -/
  finished : Bool
  deriving DecidableEq, Repr

/-- What a walk does. -/
inductive ByteEvent where
  /-- From now on the cursor stands here. -/
  | stands (start pos : Nat)
  /-- Something new begins at this byte. -/
  | begins (start : Nat)
  /-- This byte is taken, whether there is one or not. -/
  | takes (pos : Nat)
  /-- The bytes from here on are searched. -/
  | searches (pos : Nat)
  /-- The text from one byte up to another one is cut out. -/
  | cuts (start stop : Nat)
  deriving DecidableEq, Repr

/-- Why a walk breaks off. -/
inductive ByteFault where
  /-- There is no such byte. -/
  | outOfRange
  /-- A place is inside a character, or the two places are in the wrong order. -/
  | noBoundary
  /-- A loop has run more rounds than it may. -/
  | exhausted
  deriving DecidableEq, Repr

/-- A cursor, and what a walk has done so far, the newest first. -/
structure ByteWalk.State where
  cursor : ByteCursor
  events : List ByteEvent

/-- A walk over the bytes of a text. -/
abbrev ByteWalk :=
  EStateM ByteFault ByteWalk.State

/-- The bytes of a text. -/
def bytesOf (text : String) : List UInt8 :=
  text.toUTF8.data.toList

/-- A byte as a character: itself if it is ASCII, and one that is not ASCII if it is a part of a
    longer character. -/
def ofByte (b : UInt8) : Char :=
  Char.ofNat b.toNat

namespace ByteWalk

/-! ### The cursor -/

/-- The cursor at the start of a text. -/
def init : State :=
  ⟨⟨0, 0, 1, false⟩, [.stands 0 0]⟩

def cursor : ByteWalk ByteCursor := do
  return (← get).cursor

/-- Takes down what is done. -/
def note (e : ByteEvent) : ByteWalk Unit :=
  modify fun s => { s with events := e :: s.events }

def moveTo (c : ByteCursor) : ByteWalk Unit :=
  modify fun s => ⟨c, .stands c.start c.pos :: s.events⟩

/-- Steps over one byte. -/
def forward : ByteWalk Unit := do
  let c ← cursor
  moveTo { c with pos := c.pos + 1 }

/-- Counts a line. -/
def nextLine : ByteWalk Unit := do
  let c ← cursor
  moveTo { c with line := c.line + 1 }

section Text

variable (text : String)

def atEnd : ByteWalk Bool := do
  return text.utf8ByteSize ≤ (← cursor).pos

/-- Takes the next byte. Whoever does this knows that there is one. -/
def take : ByteWalk Char := do
  let c ← cursor
  note (.takes c.pos)
  match (bytesOf text)[c.pos]? with
  | some b =>
    moveTo { c with pos := c.pos + 1 }
    return ofByte b
  | none => throw .outOfRange

/-- The byte so many places ahead, or zero behind the end. -/
def peek (offset : Nat) : ByteWalk Char := do
  return ofByte ((bytesOf text).getD ((← cursor).pos + offset) 0)

/-- Steps over the character if it is the next byte. -/
def accept (expected : Char) : ByteWalk Bool := do
  if (← peek text 0) = expected && !(← atEnd text) then
    forward
    return true
  else
    return false

/-- Steps over bytes as long as they are such. -/
def skipWhile (p : Char → Bool) : (bound : Nat) → ByteWalk Unit
  | 0 => throw .exhausted
  | bound + 1 => do
    if p (← peek text 0) then
      forward
      skipWhile p bound

/-- Cuts out the text between two bytes. -/
def cut (start stop : Nat) : ByteWalk String := do
  note (.cuts start stop)
  if start ≤ stop ∧ String.Pos.Raw.IsValid text ⟨start⟩ ∧ String.Pos.Raw.IsValid text ⟨stop⟩ then
    return String.Pos.Raw.extract text ⟨start⟩ ⟨stop⟩
  else
    throw .noBoundary

/-! ### Segments -/

/-- Goes to the end of the line, which is searched for from the next byte on. -/
def comment : ByteWalk Unit := do
  let c ← cursor
  note (.searches c.pos)
  if text.utf8ByteSize < c.pos then
    throw .outOfRange
  match ((bytesOf text).drop c.pos).findIdx? (ofByte · = '\n') with
  | some offset => moveTo { c with pos := c.pos + offset }
  | none => moveTo { c with pos := text.utf8ByteSize }

/-- Goes to the next quote or to the end of the text. -/
def stringContents : (bound : Nat) → ByteWalk Unit
  | 0 => throw .exhausted
  | bound + 1 => do
    if !(← atEnd text) && (← peek text 0) ≠ '"' then
      if (← take text) = '\n' then nextLine
      stringContents bound

/-- The segment after an opening quote. -/
def string : ByteWalk SegmentKind := do
  stringContents text (text.utf8ByteSize + 1)
  if ← atEnd text then
    return .fault .unterminatedString
  forward
  let c ← cursor
  let contents ← cut text (c.start + 1) (c.pos - 1)
  return .lexeme (.string contents)

/-- The number that digits stand for, with a point between them or without one. -/
def numeralValue (digits : List Char) : Float :=
  floatOfDigits (digits.takeWhile Segment.isDigit) ((digits.dropWhile Segment.isDigit).drop 1)

/-- The segment after a first digit. -/
def number : ByteWalk SegmentKind := do
  skipWhile text Segment.isDigit (text.utf8ByteSize + 1)
  if (← peek text 0) = '.' && Segment.isDigit (← peek text 1) then
    forward
    skipWhile text Segment.isDigit (text.utf8ByteSize + 1)
  let c ← cursor
  let digits ← cut text c.start c.pos
  return .lexeme (.number (numeralValue digits.toList))

/-- The segment after a first letter. -/
def word : ByteWalk SegmentKind := do
  skipWhile text Segment.isWordPart (text.utf8ByteSize + 1)
  let c ← cursor
  let spelling ← cut text c.start c.pos
  match Keyword.ofWord? spelling with
  | some k => return .lexeme (.keyword k)
  | none => return .lexeme .identifier

/-- The segment of a character that starts no other one. Its first byte has been taken, and tells
    nothing about how many there are. -/
def unexpected : ByteWalk SegmentKind := do
  let c ← cursor
  let rest ← cut text c.start text.utf8ByteSize
  let found := rest.toList.head?.getD '\uFFFD'
  moveTo { c with pos := c.start + found.utf8Size }
  return .fault (.unexpectedCharacter found)

/-- Reads one segment and says what it is. -/
def segment : ByteWalk SegmentKind := do
  let c ← take text
  if c = '/' then
    if ← accept text '/' then
      comment text
      return .trivia
    else
      return .lexeme .slash
  else
    match Segment.punctuation? c, Segment.extensible? c with
    | some kind, _ => return .lexeme kind
    | none, some (short, long) =>
      return .lexeme (if ← accept text '=' then long else short)
    | none, none =>
      if c = '\n' then
        nextLine
        return .trivia
      else if Segment.isBlank c then
        return .trivia
      else if c = '"' then
        string text
      else if Segment.isDigit c then
        number text
      else if Segment.isWordStart c then
        word text
      else
        unexpected text

/-! ### Items -/

/-- The item that the segment which has just been read is, if it is one. -/
def itemOf? : SegmentKind → ByteWalk (Option ScanItem)
  | .trivia => return none
  | .lexeme kind => do
    let c ← cursor
    let lexeme ← cut text c.start c.pos
    return some (.ok ⟨kind, lexeme, c.line⟩)
  | .fault fault => return some (.error ⟨fault, (← cursor).line⟩)

/-- Reads segments up to the next item, which may be the end of the text. -/
def item : (bound : Nat) → ByteWalk ScanItem
  | 0 => throw .exhausted
  | bound + 1 => do
    let c ← cursor
    note (.begins c.pos)
    moveTo { c with start := c.pos }
    if ← atEnd text then
      moveTo { c with start := c.pos, finished := true }
      return .ok (.eof c.line)
    else
      match ← itemOf? text (← segment text) with
      | some item => return item
      | none => item bound

/-- Yields the next item, and nothing after the end of the text. -/
def next : ByteWalk (Option ScanItem) := do
  if (← cursor).finished then
    return none
  else
    return some (← item text (text.utf8ByteSize + 1))

end Text

end ByteWalk

/-- An item that a walk yields, and the next byte before and after that. -/
structure ByteYield where
  item : ScanItem
  before : Nat
  after : Nat

namespace ByteWalk

variable (text : String)

/-- Yields items until there are none. -/
def yields : (bound : Nat) → ByteWalk (List ByteYield)
  | 0 => throw .exhausted
  | bound + 1 => do
    let before := (← cursor).pos
    match ← next text with
    | none => return []
    | some item =>
      let after := (← cursor).pos
      return ⟨item, before, after⟩ :: (← yields bound)

/-- Walks over a whole text. No text has more items than bytes and its end. -/
def ofText : EStateM.Result ByteFault State (List ByteYield) :=
  yields text (text.utf8ByteSize + 2) init

end ByteWalk

end Lox
