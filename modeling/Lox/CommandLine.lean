import Lox.File
import Lox.Session
import Lox.Syntax.Text
import Lox.Token.Json

/-!
# The command line

What each command prints, on both output streams, and the code with which the process exits. Files
and standard input are given as data.
-/

namespace Lox

/-- The commands. A file that is not given is an error of its use. -/
inductive Command where
  | tokenize (file : Option String) (json : Bool)
  | parse (file : Option String)
  | run (file : Option String)
  | repl
  deriving DecidableEq, Repr

/-- What a process leaves behind. -/
structure Outcome where
  code : Nat
  stdout : String
  stderr : String
  deriving DecidableEq, Repr

namespace Command

/-- Is it a flag? A dash alone is none. -/
def isFlag (argument : String) : Bool :=
  argument.toList.head? = some '-' && argument ≠ "-"

/-- Are these flags all allowed, and none of them given twice? -/
def flagsAmong (allowed flags : List String) : Bool :=
  flags.Nodup && flags.all fun flag => flag ∈ allowed

/-- The file that the operands of a command name: there is at most one, and its name is not
    empty. -/
def operand? : List String → Option (Option String)
  | [] => some none
  | [file] => if file.isEmpty then none else some (some file)
  | _ => none

/-- The command of this name, with flags and operands. -/
def ofName? (name : String) (flags operands : List String) : Option Command := do
  let file ← operand? operands
  match name with
  | "tokenize" =>
    if flagsAmong ["--log", "--json"] flags then some (.tokenize file (flags.contains "--json"))
    else none
  | "parse" => if flagsAmong ["--log"] flags then some (.parse file) else none
  | "run" => if flagsAmong ["--log"] flags then some (.run file) else none
  | "repl" => if flagsAmong ["--log"] flags && file.isNone then some .repl else none
  | _ => none

/-- Reads the arguments of a process. Flags may stand anywhere before two dashes alone, behind which
    every argument is an operand. The flag for a log may also stand before the name of the command;
    it changes nothing else. -/
def ofArguments? (arguments : List String) : Option Command :=
  let marked := arguments.takeWhile (· ≠ "--")
  let plain := (arguments.dropWhile (· ≠ "--")).drop 1
  if flagsAmong ["--log"] (marked.takeWhile isFlag) then
    match marked.dropWhile isFlag with
    | [] => none
    | name :: rest => ofName? name (rest.filter isFlag) (rest.filter (!isFlag ·) ++ plain)
  else
    none

/-- The file that a command reads. -/
def file? : Command → Option String
  | tokenize file _ => file
  | parse file => file
  | run file => file
  | repl => none

end Command

namespace Outcome

/-- Each line followed by a line break. -/
def lines (texts : List String) : String :=
  String.join (texts.map (· ++ "\n"))

/-- A command that reads a file was given none. -/
def missingFile : Outcome :=
  ⟨64, "", "No input filepath was provided.\n"⟩

/-- Prints the tokens of a text. -/
def tokenize (json : Bool) (text : String) : Outcome :=
  let scan := Scan.ofText text
  let report : Report := scan.errors.map .lexical
  let stdout :=
    if json then (Json.array (scan.tokens.map (·.json))).pretty 0 ++ "\n"
    else lines (scan.tokens.map (·.text))
  ⟨if report.isEmpty then 0 else 65, stdout, report.dump⟩

/-- Prints the tree of a text, if nothing is wrong with it. -/
def parse (text : String) : Outcome :=
  let reading := Reading.ofText text 0
  if reading.report.isEmpty then ⟨0, lines (reading.statements.map (·.text)), ""⟩
  else ⟨65, "", reading.report.dump⟩

/-- Runs a text as a program. -/
def run (bound : Nat) (clock : Clock) (text : String) : Outcome :=
  let (s, status) := (Session.start .unlimited clock).run bound text
  ⟨status.exitCode, outputText s.machine.sink.written, s.report.dump⟩

end Outcome

/-- An interactive session: what it has shown so far, and the session that goes on. -/
structure Repl where
  session : Session
  stderr : String

namespace Repl

/-- What stands in front of each line of input. -/
def prompt : String :=
  "> "

/-- Shows text among the program output. -/
def echo (r : Repl) (text : String) : Repl :=
  let m := r.session.machine
  { r with
    session := { r.session with
      machine := { m with sink := { m.sink with written := m.sink.written ++ text.toUTF8 } } } }

/-- Starts an interactive session. -/
def start (clock : Clock) : Repl :=
  ⟨.start .unlimited clock, ""⟩

/-- Runs a line of input; its errors are shown and forgotten. -/
def step (bound : Nat) (r : Repl) (line : String) : Repl :=
  let (s, _) := r.session.run bound line
  ⟨s.resetReport, r.stderr ++ s.report.dump⟩

/-- Runs all lines of input and then ends. -/
def transcript (bound : Nat) (clock : Clock) (lines : List String) : Outcome :=
  let r := lines.foldl (fun r line => (r.echo prompt).step bound line) (start clock)
  let r := (r.echo prompt).echo "\n"
  ⟨0, outputText r.session.machine.sink.written, r.stderr⟩

end Repl

/-- The lines of a text, each with its line break. -/
def inputLines (text : String) : List String :=
  (go text.toList).map String.ofList
where
  /-- The lines of characters. -/
  go : List Char → List (List Char)
    | [] => []
    | c :: rest =>
      if c = '\n' then [c] :: go rest
      else
        match go rest with
        | [] => [[c]]
        | line :: lines => (c :: line) :: lines

namespace Command

/-- What a process leaves behind that is given a command. Files are looked up by name. -/
def outcome (bound : Nat) (clock : Clock) (files : String → Except ReadFault String)
    (stdin : String) (command : Command) : Outcome :=
  match command with
  | .repl => Repl.transcript bound clock (inputLines stdin)
  | .tokenize none _ | .parse none | .run none => .missingFile
  | .tokenize (some file) json => reading file (.tokenize json)
  | .parse (some file) => reading file .parse
  | .run (some file) => reading file (.run bound clock)
where
  /-- Goes on with the text of a file. -/
  reading (file : String) (next : String → Outcome) : Outcome :=
    match files file with
    | .ok text => next text
    | .error fault => ⟨1, "", fault.text file⟩

end Command

end Lox
