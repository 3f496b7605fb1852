/-
The options paths are read under, and their JSON form: an object with one
member.
-/
import RawJson.Json.Printer

namespace RawJson

/-- The limits on paths. -/
structure Options where
  /-- The most segments a path may have. -/
  maxSegments : UInt64 := 128
  deriving DecidableEq, Repr

namespace Options

/-- The options in force where none are given. -/
def default : Options := {}

instance : Inhabited Options := ⟨default⟩

/-- The name of the only option in JSON. -/
def segmentsName : String := "max_segments"

/-- Options as a JSON value. -/
def toJson (options : Options) : Json.Value :=
  .object [(segmentsName, .number (.integer options.maxSegments.toNat))]

end Options

end RawJson
