import Lox.CommandLine
import Std.Time.DateTime.Timestamp

/-!
# The program

Carries out what the command line asks for: reads files and standard input, and writes what
`Lox.Command.outcome` and `Lox.Repl.step` say.
-/

namespace Lox

/-- A bound on the nesting of actions that no run reaches. -/
def ampleBound : Nat :=
  Nat.pow 2 60

/-- A clock that is set to the time of the host, in seconds. It then goes on by a microsecond with
    each reading. -/
def currentClock : IO Clock := do
  let time ← Std.Time.Timestamp.now
  return .ticking (Float.ofInt (time.toNanosecondsSinceUnixEpoch.val / 1000) / 1000000) 0.000001

/-- The reason why the system refuses something. -/
def systemReason (e : IO.Error) : String :=
  match e with
  | .noFileOrDirectory _ code details
  | .permissionDenied _ code details
  | .inappropriateType _ code details
  | .resourceExhausted _ code details =>
    details ++ " (os error " ++ toString code ++ ")"
  | _ => toString e

/-- Reads a file as text. -/
def readText (file : String) : IO (Except ReadFault String) := do
  match ← (IO.FS.Handle.mk file .read).toBaseIO with
  | .error e => return .error (.unopened (systemReason e))
  | .ok handle =>
    match ← handle.readBinToEnd.toBaseIO with
    | .error e => return .error (.unreadable (systemReason e))
    | .ok bytes => return Directory.textOf bytes

/-- Reads and runs lines until the input ends. -/
partial def interact (stdin stdout stderr : IO.FS.Stream) (r : Repl) : IO Unit := do
  stdout.putStr Repl.prompt
  stdout.flush
  let line ← stdin.getLine
  if line.isEmpty then
    stdout.putStr "\n"
  else
    let written := r.session.machine.sink.written.size
    let r : Repl := ⟨r.session.withClock (← currentClock), ""⟩
    let r := r.step ampleBound line
    let output := r.session.machine.sink.written
    stdout.write (output.extract written output.size)
    stdout.flush
    stderr.putStr r.stderr
    interact stdin stdout stderr r

end Lox

open Lox in
/-- Carries out a command. -/
def main (arguments : List String) : IO UInt32 := do
  let stdin ← IO.getStdin
  let stdout ← IO.getStdout
  let stderr ← IO.getStderr
  match Command.ofArguments? arguments with
  | none =>
    stderr.putStr "Usage: lox [--log] tokenize FILE [--json] | parse FILE | run FILE | repl\n"
    return 2
  | some .repl =>
    interact stdin stdout stderr (.start (← currentClock))
    return 0
  | some command =>
    let contents ←
      match command.file? with
      | some file => readText file
      | none => pure (.error .missing)
    let result := command.outcome ampleBound (← currentClock) (fun _ => contents) ""
    stdout.putStr result.stdout
    stderr.putStr result.stderr
    return UInt32.ofNat result.code
