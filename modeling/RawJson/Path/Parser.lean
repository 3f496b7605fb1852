/-
Reading paths. A path is one or more segments with a dot between neighbours;
the first key starts with `$`, and a key is any text without a dot, a `[` or a
`(`. A segment is a key, a key with a position `[n]`, a key with a range
`[a:b]`, or a function call `name()`; both bounds of a range and the position
itself can be left out. A range or a function ends its path.

Segments are read one at a time from a cursor, which knows its own offset, so
that every error can tell where it arose. The number of segments is limited,
and the limit is looked at before anything else of a segment.
-/
import RawJson.Path.Basic
import RawJson.Path.Error

namespace RawJson

/-- A place in the text of a path: the rest of the text and its offset in bytes. -/
structure Cursor where
  pos : Nat
  rest : List Char
  deriving DecidableEq, Repr, Inhabited

namespace Cursor

/-- The start of a text. -/
def ofString (text : String) : Cursor := ⟨0, text.toList⟩

/-- Splits off the longest run of characters that satisfy `p`. -/
def span (p : Char → Bool) (cursor : Cursor) : List Char × Cursor :=
  let taken := cursor.rest.takeWhile p
  (taken, ⟨cursor.pos + Bytes.utf8Length taken, cursor.rest.dropWhile p⟩)

/-- Steps over `c`, if it stands here. -/
def eat? (c : Char) (cursor : Cursor) : Option Cursor :=
  match cursor.rest with
  | [] => none
  | d :: rest => if d = c then some ⟨cursor.pos + c.utf8Size, rest⟩ else none

/-- The characters that end a key. -/
def endsKey (c : Char) : Bool := c == '.' || c == '[' || c == '('

/-- An integer, with `none` where neither a sign nor a digit stands; a sign
alone, or a number beyond 64 bits, is malformed. -/
def bound (key : String) (start : Cursor) : Except PathError (Option Int64 × Cursor) :=
  let negative := (start.eat? '-').isSome
  let digits := ((start.eat? '-').getD start).span Char.isDigit
  if !negative && digits.1.isEmpty then .ok (none, start)
  else
    match Decimal.toInt64? negative digits.1 with
    | none => .error (.malformedIndex key start.pos)
    | some n => .ok (some n, digits.2)

/-- The upper bound of a range, from just past the colon: zero if there is none. -/
def upperBound (key : String) (start : Cursor) : Except PathError (Int64 × Cursor) :=
  match bound key start with
  | .error error => .error error
  | .ok (none, cursor) => .ok (0, cursor)
  | .ok (some right, cursor) =>
    if right = 0 then .error (.zeroUpperBound key start.pos) else .ok (right, cursor)

/-- What stands between brackets, from just past the opening one to just past
the closing one. -/
def brackets (key : String) (start : Cursor) : Except PathError (Selector × Cursor) :=
  match bound key start with
  | .error error => .error error
  | .ok (left?, cursor) =>
    let left := left?.getD 0
    match cursor.eat? ':' with
    | none => close (.index left) cursor
    | some cursor =>
      match upperBound key cursor with
      | .error error => .error error
      | .ok (right, cursor) => close (.range left right) cursor
where
  close (selector : Selector) (cursor : Cursor) : Except PathError (Selector × Cursor) :=
    match cursor.eat? ']' with
    | none => .error (.malformedIndex key cursor.pos)
    | some cursor => .ok (selector, cursor)

/-- A function call at `start`, its name and brackets read up to `cursor`. -/
def call (name : String) (start cursor : Cursor) : Except PathError Token :=
  match Function.ofName? name with
  | none => .error (.unknownFunction name start.pos)
  | some function =>
    if cursor.rest.isEmpty then .ok ⟨name, .function function⟩
    else .error (.functionNotTerminal name cursor.pos)

/-- The end of a segment: the end of the text, or a dot and then the start of
the next segment. -/
def ending (cursor : Cursor) : Except PathError (Option Cursor) :=
  match cursor.rest with
  | [] => .ok none
  | c :: rest =>
    if c = '.' then .ok (some ⟨cursor.pos + 1, rest⟩) else .error (.expectedDot c cursor.pos)

/-- One segment and, unless the text ends with it, the start of the next. -/
def segment (start : Cursor) : Except PathError (Token × Option Cursor) :=
  let (name, cursor) := start.span fun c => !endsKey c
  let key := String.ofList name
  if name.isEmpty then .error (.emptyKey start.pos)
  else
    match (cursor.eat? '(').bind (eat? ')') with
    | some beyond =>
      match call key start beyond with
      | .error error => .error error
      | .ok token => .ok (token, none)
    | none =>
      match cursor.eat? '[' with
      | none => finish ⟨key, .member⟩ cursor
      | some cursor =>
        match brackets key cursor with
        | .error error => .error error
        | .ok (selector, cursor) =>
          let token : Token := ⟨key, selector⟩
          if token.isRange && !cursor.rest.isEmpty then
            .error (.indefiniteReference key cursor.pos)
          else finish token cursor
where
  finish (token : Token) (cursor : Cursor) : Except PathError (Token × Option Cursor) :=
    match ending cursor with
    | .error error => .error error
    | .ok next => .ok (token, next)

/-- The segments from `start` to the end of the text, of which there may be
`budget`, out of the `limit` of the whole path. -/
def segments (limit : UInt64) : Nat → Cursor → Except PathError Path
  | 0, _ => .error (.tooManySegments limit)
  | budget + 1, start =>
    match segment start with
    | .error error => .error error
    | .ok (token, none) => .ok ⟨token, []⟩
    | .ok (token, some next) =>
      match segments limit budget next with
      | .error error => .error error
      | .ok path => .ok ⟨token, path.tokens⟩

end Cursor

/-- The path that `text` spells, in no more than `limit` segments. -/
def Path.parse (limit : UInt64) (text : String) : Except PathError Path :=
  match text.toList with
  | [] => .error .empty
  | c :: _ =>
    if c = '$' then Cursor.segments limit limit.toNat (Cursor.ofString text)
    else .error .missingRoot

end RawJson
