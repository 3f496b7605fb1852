/-
What a run of the program does, up to the reading of its input. The path is
read first, so that a mistake in it shows before any input is looked at, and a
path that is only to be shown needs no input at all.
-/
import RawJson.CommandLine.FileTree
import RawJson.CommandLine.Request
import RawJson.Extractor
import RawJson.Json.Reader
import RawJson.Path.Outline

namespace RawJson.CommandLine

/-- The name under which the program reports. -/
def programName : String := "jsonslice"

/-- What `--version` prints. -/
def versionText : String := programName ++ " 0.1.0\n"

/-- How the program is called. -/
def usageText : String := "Usage: " ++ programName ++ " [OPTIONS] PATH [FILE]\n"

/-- What `--help` prints. -/
def helpText : String :=
  "Slice a value out of a JSON document by path, without parsing the document\n\n" ++ usageText ++
    "\nArguments:\n" ++
    "  PATH  Path expression, such as `$.store.book[-1].title`\n" ++
    "  FILE  JSON file to read; standard input when omitted or `-`\n" ++
    "\nOptions:\n" ++
    "      --pretty            Re-render the result as pretty-printed JSON\n" ++
    "      --explain           Print the compiled path instead of evaluating it\n" ++
    "      --max-segments N    Maximum number of path segments accepted, 128 by default\n" ++
    "  -v, --verbose           Log more; may be repeated\n" ++
    "  -h, --help              Print help\n" ++
    "  -V, --version           Print version\n"

/-- The end of a run: its exit status and what it prints. -/
structure Outcome where
  status : UInt8
  output : Bytes := []
  complaint : String := ""
  deriving DecidableEq, Repr

namespace Outcome

/-- A run that gave a result. -/
def success (output : Bytes) : Outcome := { status := 0, output }

/-- A run that failed. -/
def failure (message : String) : Outcome :=
  { status := 1, complaint := programName ++ ": " ++ message ++ "\n" }

/-- A run that was called wrongly. -/
def usage : Outcome := { status := 2, complaint := usageText }

end Outcome

/-- Where the document comes from. -/
inductive Source where
  | standardInput
  | file (name : String)
  deriving DecidableEq, Repr, Inhabited

/-- A run that is over, or one that goes on when it has its document. -/
inductive Plan where
  | done (outcome : Outcome)
  | read (source : Source) (goOn : Bytes → Outcome)

/-- The document a source gives. -/
def Source.read (surroundings : Surroundings) : Source → Except ReadError Bytes
  | .standardInput => .ok surroundings.standardInput
  | .file name => surroundings.read name

/-- How a run ends that found these surroundings. -/
def Plan.outcome (surroundings : Surroundings) : Plan → Outcome
  | .done outcome => outcome
  | .read source goOn =>
    match source.read surroundings with
    | .error error => .failure error.message
    | .ok doc => goOn doc

namespace Invocation

/-- Where the document of an invocation comes from. -/
def source (invocation : Invocation) : Source :=
  match invocation.file with
  | none => .standardInput
  | some name => if name = "-" then .standardInput else .file name

/-- The bytes of a result laid out anew, or as they are if they are not JSON. -/
def rendered (bytes : Bytes) : Bytes :=
  match (Bytes.text? bytes).bind Json.Value.parse? with
  | none => bytes
  | some value => Bytes.ofString (value.text .indented)

/-- The result of following a path through the document. -/
def evaluate (invocation : Invocation) (path : Path) (doc : Bytes) : Outcome :=
  match path.get doc with
  | .error error => .failure error.message
  | .ok slice =>
    .success ((if invocation.pretty then rendered slice.bytes else slice.bytes) ++
      [Byte.lineFeed])

/-- What an invocation does. -/
def plan (invocation : Invocation) : Plan :=
  match Path.parse invocation.options.maxSegments invocation.path with
  | .error error => .done (.failure (ExtractError.invalidPath error).message)
  | .ok path =>
    if invocation.explain then
      .done (.success (Bytes.ofString (path.toJson.text .indented ++ "\n")))
    else .read invocation.source (invocation.evaluate path)

end Invocation

/-- What the program does with the given arguments. -/
def plan (arguments : List String) : Plan :=
  match Request.ofArguments? arguments with
  | none => .done .usage
  | some .help => .done (.success (Bytes.ofString helpText))
  | some .version => .done (.success (Bytes.ofString versionText))
  | some (.run invocation) => invocation.plan

end RawJson.CommandLine
