import Lox.Token.Segment

/-!
# Scanning

The items of a text are its lexemes as tokens and its faulty stretches as errors, in order, and
the end of the text as a last token. The line of an item is the one on which its segment ends.
-/

namespace Lox

/-- A stretch of text that is no lexeme, and the line on which it ends. -/
structure LexError where
  fault : LexFault
  line : Nat
  deriving DecidableEq, Repr

/-- What scanning yields: a token, or an error where no lexeme was found. -/
abbrev ScanItem :=
  Except LexError Token

namespace ScanItem

/-- What a segment that ends on the line yields. -/
def ofSegment? (line : Nat) (s : Segment) : Option ScanItem :=
  match s.kind with
  | .trivia => none
  | .lexeme kind => some (.ok ⟨kind, String.ofList s.text, line⟩)
  | .fault fault => some (.error ⟨fault, line⟩)

/-- The items of segments of which the first starts on the line. -/
def ofSegments (line : Nat) : List Segment → List ScanItem
  | [] => [.ok (.eof line)]
  | s :: rest =>
    let line := line + s.text.count '\n'
    (ofSegment? line s).toList ++ ofSegments line rest

/-- The items of a text. -/
def ofText (text : String) : List ScanItem :=
  ofSegments 1 (Segment.ofText text.toList)

end ScanItem

/-- A scanned text: its tokens, which end with the one for the end of the text, and the errors
    between them. -/
structure Scan where
  tokens : List Token
  errors : List LexError

namespace Scan

/-- Scans a text. -/
def ofText (text : String) : Scan :=
  let items := ScanItem.ofText text
  { tokens := items.filterMap fun
      | .ok t => some t
      | .error _ => none
    errors := items.filterMap fun
      | .ok _ => none
      | .error e => some e }

end Scan

end Lox
