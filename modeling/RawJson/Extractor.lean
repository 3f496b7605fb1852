/-
Reading a path and following it, under one set of options. What went wrong
with the path and what went wrong in the document stay apart.
-/
import RawJson.Lookup
import RawJson.Options.Basic
import RawJson.Path.Parser

namespace RawJson

/-- Why nothing was extracted. -/
inductive ExtractError where
  | invalidPath (error : PathError)
  | lookup (error : LookupError)
  deriving DecidableEq, Repr, Inhabited

/-- The report of an error. -/
def ExtractError.message : ExtractError → String
  | .invalidPath error => s!"invalid path: {error.message}"
  | .lookup error => error.message

/-- Extracts values by paths that its options admit. -/
structure Extractor where
  options : Options := {}
  deriving DecidableEq, Repr, Inhabited

namespace Extractor

/-- Reads a path. -/
def compile (extractor : Extractor) (text : String) : Except PathError Path :=
  Path.parse extractor.options.maxSegments text

/-- The value that the path spelled by `text` selects from a document. -/
def extract (extractor : Extractor) (text : String) (doc : Bytes) : Except ExtractError Slice :=
  match extractor.compile text with
  | .error error => .error (.invalidPath error)
  | .ok path =>
    match path.get doc with
    | .error error => .error (.lookup error)
    | .ok slice => .ok slice

end Extractor

/-- The value that the path spelled by `text` selects from a document, under
the default options. -/
def extract (text : String) (doc : Bytes) : Except ExtractError Slice :=
  Extractor.extract {} text doc

end RawJson
