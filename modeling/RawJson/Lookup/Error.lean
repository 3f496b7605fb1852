/-
The ways a path can fail to lead to a value of a document, and how each is
reported. Where the fault lies in the text of the document no key is named,
but for a missing colon, which is reported with the key that was looked up.
-/
import RawJson.Decimal.Integer
import RawJson.Function

namespace RawJson

/-- What a path needs a value to be. -/
inductive Shape where
  | object
  | array
  /-- An object or an array. -/
  | container
  deriving DecidableEq, Repr, Inhabited

/-- Why a path selects nothing. -/
inductive LookupError where
  | unexpectedEnd (region : Region)
  /-- The token with `key` starts at a value that has nothing in it. -/
  | expectedContainer (key : String)
  /-- The member `key` was looked up in an array. -/
  | expectedObject (key : String)
  | expectedColon (key : String)
  /-- The value under `key` is not what the rest of the path needs. -/
  | typeMismatch (key : String) (expected : Shape)
  | keyNotFound (key : String)
  /-- The bounds reach beyond an array of `count` elements, or enclose none of
  them; a single position has no `right` bound. -/
  | indexOutOfRange (key : String) (left : Int64) (right : Option Int64) (count : Nat)
  | functionNotApplicable (function : Function) (found : Kind)
  | unexpectedByte (byte : UInt8) (place : Place)
  deriving DecidableEq, Repr, Inhabited

/-- The name of a region in messages. -/
def Region.name : Region → String
  | .input => "input"
  | .string => "string"
  | .object => "object"
  | .array => "array"

/-- The name of a place in messages. -/
def Place.name : Place → String
  | .value => "value"
  | .objectKey => "object key"

/-- The name of a shape in messages. -/
def Shape.description : Shape → String
  | .object => "object"
  | .array => "array"
  | .container => "object or array"

namespace LookupError

/-- A fault met while `key` was looked up. -/
def ofFault (key : String) : Fault → LookupError
  | .unexpectedEnd region => .unexpectedEnd region
  | .unexpectedByte byte place => .unexpectedByte byte place
  | .missingColon => .expectedColon key

/-- A function that gave no number for the value under `key`. -/
def ofFailure (key : String) (function : Function) : Function.Failure → LookupError
  | .fault fault => ofFault key fault
  | .notApplicable found => .functionNotApplicable function found

/-- The bounds of an array selection as a path spells them. -/
def boundsText (left : Int64) : Option Int64 → String
  | none => Decimal.ofInt left.toInt
  | some right =>
    if right = 0 then Decimal.ofInt left.toInt ++ ":"
    else Decimal.ofInt left.toInt ++ ":" ++ Decimal.ofInt right.toInt

/-- A byte as the character with its number. -/
def byteChar (byte : UInt8) : Char := Char.ofNat byte.toNat

/-- The report of an error. -/
def message : LookupError → String
  | .unexpectedEnd region => s!"unexpected end of input while scanning {region.name}"
  | .expectedContainer key => s!"object or array expected at {key}"
  | .expectedObject key => s!"object expected while looking up {key}"
  | .expectedColon key => s!"`:` expected after a key while looking up {key}"
  | .typeMismatch key expected => s!"{expected.description} expected at {key}"
  | .keyNotFound key => s!"field {key} not found"
  | .indexOutOfRange key left right count =>
    s!"{key}[{boundsText left right}] does not exist (array has {count} elements)"
  | .functionNotApplicable function found =>
    s!"{function.name}() is only applicable to array or string, found {found.name}"
  | .unexpectedByte byte place =>
    s!"unexpected byte `{byteChar byte}` while scanning {place.name}"

end LookupError

end RawJson
