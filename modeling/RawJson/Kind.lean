/-
The kind of a JSON value, read off the first byte of its text. A byte that
starts no other kind is taken for a number, so the answer is total: messages
need a kind even where the text is not JSON.
-/
import RawJson.Bytes

namespace RawJson

/-- The six kinds of JSON value. -/
inductive Kind where
  | object
  | array
  | string
  | boolean
  | null
  | number
  deriving DecidableEq, Repr, Inhabited

namespace Kind

/-- The kind of value that starts with `b`. -/
def ofByte (b : UInt8) : Kind :=
  if b = Byte.openBrace then .object
  else if b = Byte.openSquare then .array
  else if b = Byte.quote then .string
  else if b = 0x74 ∨ b = 0x66 then .boolean
  else if b = 0x6e then .null
  else .number

/-- The name of a kind in messages. -/
def name : Kind → String
  | .object => "object"
  | .array => "array"
  | .string => "string"
  | .boolean => "boolean"
  | .null => "null"
  | .number => "number"

end Kind

end RawJson
