import Lox.Quoted

/-!
# Files

Why a file cannot be read and how that is shown, and a directory of files as data. Reading a path in
it does what reading it in a directory on disk does.
-/

namespace Lox

/-- Why a file cannot be read. -/
inductive ReadFault where
  /-- It cannot be opened, for this reason. -/
  | unopened (reason : String)
  /-- It was opened but cannot be read, for this reason. -/
  | unreadable (reason : String)
  deriving DecidableEq, Repr

namespace ReadFault

/-- There is no such file. -/
def missing : ReadFault :=
  .unopened "No such file or directory (os error 2)"

/-- The path leads through a file. -/
def notDirectory : ReadFault :=
  .unopened "Not a directory (os error 20)"

/-- The path has a name that no file can have. -/
def nameTooLong : ReadFault :=
  .unopened "File name too long (os error 36)"

/-- The path leads to a directory. -/
def isDirectory : ReadFault :=
  .unreadable "Is a directory (os error 21)"

/-- The bytes of the file are no text. -/
def notText : ReadFault :=
  .unreadable "stream did not contain valid UTF-8"

/-- How it is shown that a file cannot be read. -/
def text (file : String) : ReadFault → String
  | unopened reason => report "open" reason
  | unreadable reason => report "read" reason
where
  /-- What failed, and why. -/
  report (verb reason : String) : String :=
    "Error: Failed to " ++ verb ++ " file " ++ quoted file ++
      "\n\nCaused by:\n    " ++ reason ++ "\n"

end ReadFault

/-- A directory in which there are only files, with their contents by name. -/
structure Directory where
  files : List (String × ByteArray)

namespace Directory

/-- The most bytes in the name of a file. -/
def maxNameSize : Nat :=
  255

/-- The text of bytes. -/
def textOf (bytes : ByteArray) : Except ReadFault String :=
  match String.fromUTF8? bytes with
  | some text => .ok text
  | none => .error .notText

/-- Reads the file to which a path leads. Outside of the directory there are no files. -/
def read (d : Directory) (path : String) : Except ReadFault String :=
  let steps := path.splitOn "/"
  -- an empty step and a dot stay where they are, and need a directory there
  let names := steps.filter fun step => step ≠ "" && step ≠ "."
  let outside := path.toList.head? = some '/'
  match names with
  | [] => .error (if path.isEmpty then .missing else .isDirectory)
  | [".."] => .error .isDirectory
  | name :: rest =>
    if maxNameSize < name.utf8ByteSize then .error .nameTooLong
    else
      match if outside then none else d.files.lookup name with
      | none => .error .missing
      | some bytes =>
        if rest.isEmpty && steps.getLast? = some name then textOf bytes
        else .error .notDirectory

end Directory

end Lox
