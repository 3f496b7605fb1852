/-
Command-line arguments. They are read from left to right and the first one
that is wrong is an error, also if help or the version is asked for later;
either of the two ends the reading.

An option may stand anywhere before `--`, after which every argument is
positional; so is a lone `-` everywhere. Short flags can be run together, and
only the verbosity may be given more than once.
-/
import RawJson.Decimal.Integer
import RawJson.Options.Basic

namespace RawJson.CommandLine

/-- What a run of the program is asked to do with a path. -/
structure Invocation where
  path : String
  /-- The file to read, standard input if there is none or it is `-`. -/
  file : Option String := none
  /-- Lay the result out anew, if it is JSON. -/
  pretty : Bool := false
  /-- Show the path instead of following it. -/
  explain : Bool := false
  options : Options := {}
  deriving DecidableEq, Repr

/-- What the arguments ask for. -/
inductive Request where
  | run (invocation : Invocation)
  | help
  | version
  deriving DecidableEq, Repr

/-- The arguments read so far. -/
structure Arguments where
  pretty : Bool := false
  explain : Bool := false
  maxSegments : Option UInt64 := none
  path : Option String := none
  file : Option String := none
  deriving DecidableEq, Repr

namespace Arguments

/-- A number of segments: digits, perhaps behind a plus sign, that 64 bits hold. -/
def segmentCount? (text : String) : Option UInt64 :=
  let digits := match text.toList with
    | '+' :: digits => digits
    | digits => digits
  if digits ≠ [] ∧ digits.all Char.isDigit then
    (Decimal.toNatBelow? Decimal.unsignedLimit digits).map Nat.toUInt64
  else none

/-- Takes the value of `--max-segments`. -/
def withLimit (arguments : Arguments) (text : String) : Option Arguments :=
  match arguments.maxSegments, segmentCount? text with
  | none, some limit => some { arguments with maxSegments := some limit }
  | _, _ => none

/-- Takes a positional argument. The name of a file is not empty. -/
def withPositional (arguments : Arguments) (text : String) : Option Arguments :=
  match arguments.path, arguments.file with
  | none, _ => some { arguments with path := some text }
  | some _, none => if text = "" then none else some { arguments with file := some text }
  | some _, some _ => none

/-- The request these arguments make, if there is a path among them. -/
def request? (arguments : Arguments) : Option Request :=
  arguments.path.map fun path =>
    .run {
      path := path
      file := arguments.file
      pretty := arguments.pretty
      explain := arguments.explain
      options := { maxSegments := arguments.maxSegments.getD Options.default.maxSegments } }

end Arguments

/-- What an argument does to the reading of those after it. -/
inductive Effect where
  | goOn (arguments : Arguments)
  /-- The next argument is the value of `--max-segments`. -/
  | awaitLimit
  /-- All further arguments are positional. -/
  | endOptions
  | stop (request : Request)
  deriving DecidableEq, Repr

/-- Short flags run together, from just past the dash. -/
def shortFlags (arguments : Arguments) : List Char → Option Effect
  | [] => some (.goOn arguments)
  | c :: flags =>
    if c = 'v' then shortFlags arguments flags
    else if c = 'V' then some (.stop .version)
    else if c = 'h' then some (.stop .help)
    else none

/-- A long option, from just past the two dashes. -/
def longOption (arguments : Arguments) (text : List Char) : Option Effect :=
  let name := String.ofList (text.takeWhile (· != '='))
  match text.dropWhile (· != '=') with
  | _ :: value =>
    if name = "max-segments" then
      (arguments.withLimit (String.ofList value)).map .goOn
    else none
  | [] =>
    if name = "pretty" then
      if arguments.pretty then none else some (.goOn { arguments with pretty := true })
    else if name = "explain" then
      if arguments.explain then none else some (.goOn { arguments with explain := true })
    else if name = "verbose" then some (.goOn arguments)
    else if name = "max-segments" then some .awaitLimit
    else if name = "version" then some (.stop .version)
    else if name = "help" then some (.stop .help)
    else none

/-- What one argument does, `none` if it is wrong. -/
def effect (arguments : Arguments) (argument : String) : Option Effect :=
  match argument.toList with
  | ['-', '-'] => some .endOptions
  | '-' :: '-' :: text => longOption arguments text
  | ['-'] => (arguments.withPositional argument).map .goOn
  | '-' :: flags => shortFlags arguments flags
  | _ => (arguments.withPositional argument).map .goOn

/-- Reads the arguments that follow those read so far. -/
def readFrom (arguments : Arguments) : List String → Option Request
  | [] => arguments.request?
  | argument :: rest =>
    match effect arguments argument with
    | none => none
    | some (.goOn arguments) => readFrom arguments rest
    | some .endOptions => (rest.foldlM Arguments.withPositional arguments).bind Arguments.request?
    | some (.stop request) => some request
    | some .awaitLimit =>
      match rest with
      | [] => none
      | value :: rest => (arguments.withLimit value).bind fun arguments => readFrom arguments rest

/-- What the arguments ask for, `none` if they are wrong. -/
def Request.ofArguments? (arguments : List String) : Option Request := readFrom {} arguments

end RawJson.CommandLine
