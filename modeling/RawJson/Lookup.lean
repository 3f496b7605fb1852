/-
Following a path through a document. Each token moves from the value it starts
at to the value under its key, checks that the rest of the path can use it,
and narrows it to an element if it has a position. The last token gives the
result: the value as it stands in the document, or something made from it.

Only what lies on the way is scanned. What follows the selected value is never
looked at, so a document may go on with anything at all.
-/
import RawJson.Lookup.Error
import RawJson.Member
import RawJson.Path.Basic

namespace RawJson

/-- The result of a path. -/
inductive Slice where
  /-- A piece of the document. -/
  | verbatim (bytes : Bytes)
  /-- Bytes made from the document: a range in brackets of its own, or a number. -/
  | assembled (bytes : Bytes)
  deriving DecidableEq, Repr, Inhabited

namespace Slice

/-- The bytes of a result, wherever they come from. -/
def bytes : Slice → Bytes
  | .verbatim bytes => bytes
  | .assembled bytes => bytes

/-- The result is put together, and is not a piece of the document. -/
def isAssembled : Slice → Bool
  | .verbatim _ => false
  | .assembled _ => true

end Slice

namespace Token

/-- The value under a key, in a document that starts at or before the
container to look into. The root key stays at that container. -/
def locate (key : String) (doc : Bytes) : Except LookupError Bytes :=
  match afterGap doc with
  | .error fault => .error (.ofFault key fault)
  | .ok (b, rest) =>
    if b ≠ Byte.openBrace ∧ b ≠ Byte.openSquare then .error (.expectedContainer key)
    else if IsRootKey key then .ok (b :: rest)
    else if b ≠ Byte.openBrace then .error (.expectedObject key)
    else
      match Member.find (Bytes.ofString key) rest with
      | .error fault => .error (.ofFault key fault)
      | .ok none => .error (.keyNotFound key)
      | .ok (some value) => .ok value

/-- What the value under a token has to be: an array, if the token selects
from one; anything, if it is the result or goes to a function; and an object,
if the path goes on from it. -/
def checkShape (token : Token) (following : List Token) (value : Bytes) :
    Except LookupError Unit :=
  let first := value.head?
  if token.isArray then
    if first = some Byte.openSquare then .ok () else .error (.typeMismatch token.key .array)
  else if isTerminal following || isSubject following then .ok ()
  else if first = some Byte.openSquare then .error (.typeMismatch token.key .object)
  else if first = some Byte.openBrace then .ok ()
  else .error (.typeMismatch token.key .container)

/-- The elements of the array under `key`. -/
def elementsOf (key : String) (array : Bytes) : Except LookupError (List Element) :=
  match Element.list array.tail with
  | .error fault => .error (.ofFault key fault)
  | .ok items => .ok items

/-- The element at `position` of the array under `key`. -/
def elementOf (key : String) (position : Int64) (array : Bytes) : Except LookupError Bytes :=
  match elementsOf key array with
  | .error error => .error error
  | .ok items =>
    match Element.at? items position with
    | none => .error (.indexOutOfRange key position none items.length)
    | some element => .ok element.text

/-- An array of the elements from `left` up to `right` of the array under `key`. -/
def rangeOf (key : String) (left right : Int64) (array : Bytes) : Except LookupError Bytes :=
  match elementsOf key array with
  | .error error => .error error
  | .ok items =>
    match Element.window items left right with
    | none => .error (.indexOutOfRange key left (some right) items.length)
    | some (first, last) => .ok (Element.arrayOf first last)

/-- The text of the first value of `doc`, for the token with `key`. -/
def valueText (key : String) (doc : Bytes) : Except LookupError Bytes :=
  match afterValue doc with
  | .error fault => .error (.ofFault key fault)
  | .ok rest => .ok (Bytes.upTo doc rest)

/-- The result that the last token of a path selects from the value under its
key. -/
def result (token : Token) (value : Bytes) : Except LookupError Slice :=
  match token.selector with
  | .index position => (elementOf token.key position value).map .verbatim
  | .range left right => (rangeOf token.key left right value).map .assembled
  | _ => (valueText token.key value).map .verbatim

/-- The value that the tokens after this one start at. -/
def narrow (token : Token) (value : Bytes) : Except LookupError Bytes :=
  match token.selector with
  | .index position => elementOf token.key position value
  | _ => .ok value

/-- The value under a token, fit for the tokens that follow. -/
def enter (token : Token) (following : List Token) (doc : Bytes) : Except LookupError Bytes :=
  match locate token.key doc with
  | .error error => .error error
  | .ok value =>
    match token.checkShape following value with
    | .error error => .error error
    | .ok () => .ok value

/-- Follows a token and those after it from the start of `doc`. -/
def follow (token : Token) : List Token → Bytes → Except LookupError Slice
  | [], doc =>
    match token.enter [] doc with
    | .error error => .error error
    | .ok value => token.result value
  | next :: following, doc =>
    match token.enter (next :: following) doc with
    | .error error => .error error
    | .ok value =>
      match token.narrow value with
      | .error error => .error error
      | .ok value =>
        match next.selector with
        | .function function =>
          match function.call value with
          | .error failure => .error (.ofFailure token.key function failure)
          | .ok number => .ok (.assembled number)
        | _ => next.follow following value

end Token

/-- What a path selects from a document. -/
def Path.get (path : Path) (doc : Bytes) : Except LookupError Slice :=
  path.head.follow path.tail doc

end RawJson
