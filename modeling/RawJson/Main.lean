/-
The program: it reads what its plan asks for, prints what comes of it, and
exits with the status of the outcome.
-/
import RawJson.CommandLine.Plan

namespace RawJson.CommandLine

/-- The number of a system error, which is negated where a file could not even
be opened. -/
def systemCode (code : UInt32) : UInt32 := if code < 0x80000000 then code else -code

/-- The cause of a failed attempt to read, if it is one that a file's name can
have. -/
def readError? : IO.Error → Option ReadError
  | .noFileOrDirectory _ _ _ => some .missing
  | .permissionDenied _ _ _ => some .denied
  | .inappropriateType _ code _ =>
    if systemCode code = 20 then some .notFolder
    else if systemCode code = 21 then some .isFolder
    else none
  | .invalidArgument _ code _ => if systemCode code = 36 then some .nameTooLong else none
  | _ => none

/-- The report of a document that could not be read. -/
def readFailure (error : IO.Error) : String :=
  match readError? error with
  | some known => known.message
  | none => toString error

/-- Reads a document. -/
def readSource : Source → IO ByteArray
  | .standardInput => do (← IO.getStdin).readBinToEnd
  | .file name => IO.FS.readBinFile name

/-- Carries a plan out. -/
def perform : Plan → IO Outcome
  | .done outcome => pure outcome
  | .read source goOn => do
    match ← (readSource source).toBaseIO with
    | .ok bytes => pure (goOn bytes.toList)
    | .error error => pure (.failure (readFailure error))

/-- Runs the program. -/
def run (arguments : List String) : IO UInt32 := do
  let outcome ← perform (plan arguments)
  let stdout ← IO.getStdout
  stdout.write ⟨outcome.output.toArray⟩
  stdout.flush
  (← IO.getStderr).putStr outcome.complaint
  return outcome.status.toUInt32

end RawJson.CommandLine

/-- The entry point of the program. -/
def main (arguments : List String) : IO UInt32 := RawJson.CommandLine.run arguments
