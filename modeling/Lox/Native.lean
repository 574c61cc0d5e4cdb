import Lox.Machine
import Lox.Quoted

/-!
# Functions of the host

What a host provides to programs: its clock, which every machine has, and functions that look at
their arguments. The latter may be registered under any name and with any number of arguments; one
that misses an argument fails.
-/

namespace Lox

/-- What a host function computes from the time and its arguments. -/
abbrev NativeFunction :=
  (now : Float) → Fields → List Value → Except String Value

namespace NativeFunction

/-- An argument that must be there. -/
def argument (arguments : List Value) (index : Nat) : Except String Value :=
  match arguments[index]? with
  | some v => .ok v
  | none => .error "missing argument"

/-- Twice a number. -/
def double : NativeFunction := fun _ _ arguments => do
  match ← argument arguments 0 with
  | .number x => return .number (x * 2)
  | _ => throw "expected a number"

/-- The texts of the arguments, separated by commas. -/
def display : NativeFunction := fun _ _ arguments =>
  .ok (.string (",".intercalate (arguments.map (·.text))))

/-- The name of the argument's type. -/
def type : NativeFunction := fun _ _ arguments => do
  return .string (← argument arguments 0).typeName

/-- Does a condition with the argument's value hold? -/
def truthy : NativeFunction := fun _ _ arguments => do
  return .bool (← argument arguments 0).isTruthy

/-- Are two arguments equal? -/
def same : NativeFunction := fun _ _ arguments => do
  return .bool ((← argument arguments 0).same (← argument arguments 1))

/-- The number of arguments that the argument takes, if it can be called. -/
def arity : NativeFunction := fun _ _ arguments => do
  match (← argument arguments 0).arity? with
  | some n => return .number (Float.ofNat n)
  | none => return .nil

/-- The last argument. -/
def last : NativeFunction := fun _ _ arguments =>
  .ok (arguments.getLast?.getD .nil)

/-- Always fails, with the texts of the arguments as the message. -/
def fail : NativeFunction := fun _ _ arguments =>
  .error (" ".intercalate (arguments.map (·.text)))

/-- A list of names in quotes. -/
private def quotedList (names : List String) : String :=
  "[" ++ ", ".intercalate (names.map quoted) ++ "]"

/-- A named list of properties. -/
private def record (name : String) (properties : List (String × String)) : String :=
  name ++ " \x7b " ++ ", ".intercalate (properties.map fun p => p.1 ++ ": " ++ p.2) ++ " \x7d"

/-- A description of a function, class or instance: its parts by name. -/
def debug : NativeFunction := fun _ fields arguments => do
  match ← argument arguments 0 with
  | .function c =>
    return .string <| record "Function"
      [("name", quoted c.name), ("arity", toString c.arity),
        ("is_initializer", if c.isInitializer then "true" else "false")]
  | .class_ c =>
    let superclass :=
      match c.superclass with
      | some s => "Some(" ++ quoted s.name ++ ")"
      | none => "None"
    return .string <| record "Class"
      [("name", quoted c.name), ("superclass", superclass),
        ("methods", quotedList c.methods.names)]
  | .instance_ id c =>
    return .string <| record "Instance"
      [("class", quoted c.name), ("fields", quotedList (fields.getD id.index .empty).names)]
  | _ => throw "not an object"

/-- The host functions by name. -/
def library : List (String × NativeFunction) :=
  [("double", double), ("show", display), ("type", type), ("truthy", truthy), ("same", same),
    ("arity", arity), ("last", last), ("fail", fail), ("debug", debug)]

/-- The host function of this name. -/
def ofName? (name : String) : Option NativeFunction :=
  library.lookup name

end NativeFunction

namespace Native

/-- Tells the time, in seconds. -/
def clock : Native :=
  ⟨"clock", 0, fun now _ _ => .ok (.number now)⟩

end Native

end Lox
