/-
Files by name. A name is a list of steps with slashes between them, followed
from the top of the file tree if it starts with a slash and from the working
folder otherwise. An empty step and `.` stay in a folder, `..` goes to the one
around it, and at the top it stays too. Any step at all needs a folder to be
taken in, so a slash behind the name of a file is an error.
-/
import RawJson.Bytes

namespace RawJson.CommandLine

/-- A file or a folder. -/
inductive FileTree where
  | file (contents : Bytes)
  | folder (entries : List (String × FileTree))
  deriving Repr, Inhabited

/-- Why a file cannot be read. -/
inductive ReadError where
  | missing
  | denied
  /-- A step was taken in a file. -/
  | notFolder
  /-- The name leads to a folder. -/
  | isFolder
  | nameTooLong
  deriving DecidableEq, Repr, Inhabited

/-- The report of an error, with the number the system gives it. -/
def ReadError.message : ReadError → String
  | .missing => "No such file or directory (os error 2)"
  | .denied => "Permission denied (os error 13)"
  | .notFolder => "Not a directory (os error 20)"
  | .isFolder => "Is a directory (os error 21)"
  | .nameTooLong => "File name too long (os error 36)"

/-- The most bytes in one step of a name. -/
def longestStep : Nat := 255

/-- The most bytes in a name. -/
def longestName : Nat := 4095

namespace FileTree

/-- Takes steps from a place in the tree, with the folders around it, innermost
first. -/
def follow (here : FileTree) (around : List FileTree) : List String → Except ReadError FileTree
  | [] => .ok here
  | step :: steps =>
    match here with
    | .file _ => .error .notFolder
    | .folder entries =>
      if step = "" ∨ step = "." then follow here around steps
      else if step = ".." then
        match around with
        | [] => follow here [] steps
        | outer :: around => follow outer around steps
      else if longestStep < step.utf8ByteSize then .error .nameTooLong
      else
        match entries.lookup step with
        | none => .error .missing
        | some inner => follow inner (here :: around) steps

/-- The contents of a file; a folder has none. -/
def contents : FileTree → Except ReadError Bytes
  | .file contents => .ok contents
  | .folder _ => .error .isFolder

end FileTree

/-- The files a run can read. -/
structure Surroundings where
  standardInput : Bytes := []
  /-- The top of the file tree. -/
  top : FileTree := .folder []
  /-- The steps from the top to the working folder. -/
  workingFolder : List String := []
  deriving Repr, Inhabited

namespace Surroundings

/-- What the file of that name holds. -/
def read (surroundings : Surroundings) (name : String) : Except ReadError Bytes :=
  let steps := name.splitOn "/"
  if name = "" then .error .missing
  else if longestName < name.utf8ByteSize then .error .nameTooLong
  else
    let start := if steps.head? = some "" then [] else surroundings.workingFolder
    match surroundings.top.follow [] (start ++ steps) with
    | .error error => .error error
    | .ok place => place.contents

end Surroundings

end RawJson.CommandLine
