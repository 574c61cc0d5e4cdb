import Lox.Resolution
import Lox.Syntax.Parser.Stmt

/-!
# Programs

A text is a program if scanning, parsing and resolving it find nothing wrong. Each step is only
taken if the one before found nothing, so all errors of a refused text are of one kind.
-/

namespace Lox

/-- A program that may run. -/
structure Program where
  statements : List Stmt
  /-- The distances of its local references. -/
  distances : List (NodeId × Nat)

/-- A text read as far as possible: the statements that could be read, what is wrong, and how many
    identities have been given to nodes. -/
structure Reading where
  statements : List Stmt
  report : Report
  nextId : Nat

namespace Reading

/-- Scans a text and parses the tokens found, whatever was found between them. -/
def ofText (text : String) (nextId : Nat) : Reading :=
  let scan := Scan.ofText text
  let parsed := Parsed.ofTokens scan.tokens nextId
  { statements := parsed.statements
    report := scan.errors.map .lexical ++ parsed.errors.map .syntactic
    nextId := parsed.nextId }

end Reading

namespace Program

/-- Compiles a text, or says what is wrong with it. The number tells how many identities have been
    given to nodes, before and after. -/
def compile (text : String) (nextId : Nat) : Except Report Program × Nat :=
  let scan := Scan.ofText text
  if !scan.errors.isEmpty then (.error (scan.errors.map .lexical), nextId)
  else
    let parsed := Parsed.ofTokens scan.tokens nextId
    if !parsed.errors.isEmpty then (.error (parsed.errors.map .syntactic), parsed.nextId)
    else
      let resolution := Resolution.ofProgram parsed.statements
      if !resolution.errors.isEmpty then
        (.error (resolution.errors.map .scoping), parsed.nextId)
      else
        (.ok ⟨parsed.statements, resolution.distances⟩, parsed.nextId)

end Program

end Lox
