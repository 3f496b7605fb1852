/-
Paths as JSON values: an array with one object for each token, in order.
-/
import RawJson.Json.Printer
import RawJson.Path.Basic

namespace RawJson

/-- A selector as a JSON value. One that is no more than its name is a string,
any other an object with its name as the only member. -/
def Selector.toJson : Selector → Json.Value
  | .member => .string "member"
  | .index position => .object [("index", .number (.integer position.toInt))]
  | .range left right =>
    .object [("range", .object
      [("left", .number (.integer left.toInt)), ("right", .number (.integer right.toInt))])]
  | .function f => .object [("function", .string f.name)]

/-- A token as a JSON value. -/
def Token.toJson (token : Token) : Json.Value :=
  .object [("key", .string token.key), ("selector", token.selector.toJson)]

/-- A path as a JSON value. -/
def Path.toJson (path : Path) : Json.Value := .array (path.tokens.map Token.toJson)

end RawJson
