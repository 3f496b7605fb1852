/-
Reading a whole JSON text into a tree: strict JSON, with at most
`depthLimit` containers inside one another. The reader goes over the lexemes
once and keeps the containers that are open, innermost first; whether the text
is refused is all that matters to its callers, not why.
-/
import RawJson.Json.Lexeme

namespace RawJson.Json

/-- The most containers inside one another. -/
def depthLimit : Nat := 127

/-- A container that is open, with what it holds so far, last first. -/
inductive Frame where
  | array (items : List Value)
  /-- An object whose next value is that of `name`. -/
  | object (members : Members) (name : String)
  deriving Repr, Inhabited

/-- What may come next. -/
inductive Due where
  /-- A value, or just inside an array also its closing bracket. -/
  | value (orClosing : Bool)
  /-- A member's name, or just inside an object also its closing brace. -/
  | name (orClosing : Bool)
  | colon
  /-- A comma or a closing bracket. -/
  | more
  /-- Nothing: the value is complete. -/
  | nothing (value : Value)
  deriving Repr, Inhabited

/-- The reader between two lexemes. -/
structure Reading where
  due : Due
  frames : List Frame
  deriving Repr, Inhabited

namespace Reading

/-- Before the first lexeme. -/
def start : Reading := ⟨.value false, []⟩

/-- A value is complete. -/
def complete (value : Value) : List Frame → Reading
  | [] => ⟨.nothing value, []⟩
  | .array items :: outer => ⟨.more, .array (value :: items) :: outer⟩
  | .object members name :: outer => ⟨.more, .object ((name, value) :: members) name :: outer⟩

/-- A container opens. -/
def push (bracket : Bracket) (frames : List Frame) : Option Reading :=
  if frames.length < depthLimit then
    match bracket with
    | .square => some ⟨.value true, .array [] :: frames⟩
    | .brace => some ⟨.name true, .object [] "" :: frames⟩
  else none

/-- The innermost container closes. -/
def pop (bracket : Bracket) (frames : List Frame) : Option Reading :=
  match bracket, frames with
  | .square, .array items :: outer => some (complete (.array items.reverse) outer)
  | .brace, .object members _ :: outer =>
    some (complete (.object (Members.normalize members.reverse)) outer)
  | _, _ => none

/-- One lexeme further, `none` if it may not stand here. -/
def step (reading : Reading) (lexeme : Lexeme) : Option Reading :=
  match reading.due, lexeme with
  | .value _, .atom value => some (complete value reading.frames)
  | .value _, .string s => some (complete (.string s) reading.frames)
  | .value _, .opening bracket => push bracket reading.frames
  | .value true, .closing .square => pop .square reading.frames
  | .name _, .string s =>
    match reading.frames with
    | .object members _ :: outer => some ⟨.colon, .object members s :: outer⟩
    | _ => none
  | .name true, .closing .brace => pop .brace reading.frames
  | .colon, .colon => some ⟨.value false, reading.frames⟩
  | .more, .comma =>
    match reading.frames with
    | .array _ :: _ => some ⟨.value false, reading.frames⟩
    | .object _ _ :: _ => some ⟨.name false, reading.frames⟩
    | [] => none
  | .more, .closing bracket => pop bracket reading.frames
  | _, _ => none

end Reading

/-- The value that a text spells, if it is JSON. -/
def Value.parse? (text : String) : Option Value :=
  match lexemes text.toList with
  | .error _ => none
  | .ok found =>
    match found.foldlM Reading.step Reading.start with
    | some ⟨.nothing value, _⟩ => some value
    | _ => none

end RawJson.Json
