import Lox.Answers
import Lox.Diagnostic

/-!
# Program output

A sink takes the bytes that a program writes. How it behaves is up to the host: each write may find
room for only so many bytes, and each flush may fail. A write that does not fit fills the room that
there is, and fails. After a failure a sink may take what it is given again.
-/

namespace Lox

/-- What stands in the way of a write: only so many bytes find room, and the rest is refused. -/
structure Obstacle where
  room : Nat
  fault : OutputFault

/-- How the writes to come will go: what stands in the way of each, if anything does, when so many
    bytes have been written before. -/
abbrev Writer :=
  Answers ((written : Nat) → Option Obstacle)

/-- There is room for so many bytes in total, if they are limited. -/
def Writer.limited (capacity : Option Nat) : Writer :=
  .always fun written => capacity.map fun capacity => ⟨capacity - written, .closed⟩

/-- A number is a limit. -/
instance : Coe (Option Nat) Writer :=
  ⟨.limited⟩

/-- How the flushes to come will go: the fault of each, if it fails. -/
abbrev Flusher :=
  Answers (Option OutputFault)

/-- A flag tells whether flushes fail. -/
instance : Coe Bool Flusher :=
  ⟨fun fails => .always (if fails then some .flushFailed else none)⟩

/-- A place for program output. -/
@[ext] structure Sink where
  /-- All bytes written so far. -/
  written : ByteArray
  writer : Writer
  flusher : Flusher

namespace Sink

/-- A sink that takes everything. -/
def unlimited : Sink :=
  ⟨.empty, .limited none, .always none⟩

/-- Writes text. A part that does not fit is lost, and the write fails. -/
def write (s : Sink) (text : String) : Sink × Option OutputFault :=
  let bytes := text.toUTF8
  let after (taken : ByteArray) : Sink := ⟨s.written ++ taken, s.writer.after 1, s.flusher⟩
  match s.writer.next s.written.size with
  | none => (after bytes, none)
  | some ⟨room, fault⟩ =>
    if bytes.size ≤ room then (after bytes, none)
    else (after (bytes.extract 0 room), some fault)

/-- Makes sure that all bytes have arrived. -/
def flush (s : Sink) : Sink × Option OutputFault :=
  (⟨s.written, s.writer, s.flusher.after 1⟩, s.flusher.next)

end Sink

/-- The text of written bytes. Where the output ends inside a character, the replacement character
    stands for what there is of it. -/
def outputText (bytes : ByteArray) : String :=
  match String.fromUTF8? bytes with
  | some text => text
  | none => cut 3
where
  /-- The text without the last bytes, of which there are at most this many. -/
  cut : Nat → String
    | 0 => "\uFFFD"
    | n + 1 =>
      match String.fromUTF8? (bytes.extract 0 (bytes.size - (3 - n))) with
      | some text => text ++ "\uFFFD"
      | none => cut n

end Lox
