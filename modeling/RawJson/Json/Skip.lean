/-
Skipping a JSON value without keeping it. Words, strings and numerals are read
as everywhere, but halves of surrogate pairs may stand alone, a numeral may
have any size, and one that is cut short is malformed rather than truncated.
Containers may be inside one another to any depth: those open are kept in a
list of their brackets, innermost first.
-/
import RawJson.Json.Numeral
import RawJson.Scan

namespace RawJson.Json

/-- The character that closes a container. -/
def closer : Bracket → Char
  | .brace => '\x7d'
  | .square => ']'

/-- Skips a value that holds no others; it starts with `c` and goes on with
`rest`. -/
def skipAtom (c : Char) (rest : List Char) : Except Failure (List Char) :=
  if c = 'n' then readWord ['u', 'l', 'l'] rest
  else if c = 't' then readWord ['r', 'u', 'e'] rest
  else if c = 'f' then readWord ['a', 'l', 's', 'e'] rest
  else if c = '"' then
    match readString .unchecked rest with
    | .error failure => .error failure
    | .ok (_, rest) => .ok rest
  else
    match readNumeral (c :: rest) with
    | .error _ => .error .malformed
    | .ok (_, rest) => .ok rest

/-- Skips what closes, from the innermost container on, and the comma after
it. The containers still open are given back; only `afterItem` may a comma
come first. -/
def skipClosers (afterItem : Bool) : List Bracket → List Char →
    Except Failure (List Bracket × List Char)
  | [], text => .ok ([], text)
  | bracket :: outer, text =>
    match skipBlanks text with
    | [] => .error .truncated
    | c :: rest =>
      if afterItem ∧ c = ',' then .ok (bracket :: outer, rest)
      else if c = closer bracket then skipClosers true outer rest
      else if afterItem then .error .malformed
      else .ok (bracket :: outer, c :: rest)

/-- Skips the name of a member and its colon. -/
def skipName (text : List Char) : Except Failure (List Char) :=
  match skipBlanks text with
  | [] => .error .truncated
  | c :: rest =>
    if c = '"' then
      match readString .unchecked rest with
      | .error failure => .error failure
      | .ok (_, rest) =>
        match skipBlanks rest with
        | [] => .error .truncated
        | c :: rest => if c = ':' then .ok rest else .error .malformed
    else .error .malformed

/-- Skips a value with the closing brackets behind it, or the opening bracket
of a container that is not empty. The value starts with `c`, goes on with
`rest`, and lies inside the containers that are open; those still open
afterwards are given back. -/
def skipItem (outer : List Bracket) (c : Char) (rest : List Char) :
    Except Failure (List Bracket × List Char) :=
  if c = '[' then skipClosers false (.square :: outer) rest
  else if c = '\x7b' then skipClosers false (.brace :: outer) rest
  else
    match skipAtom c rest with
    | .error failure => .error failure
    | .ok rest => skipClosers true outer rest

/-- Skips what `skipItem` skips and then, if an object goes on, the name of its
next member, so that the text goes on with a value or is over. -/
def skipStep (outer : List Bracket) (c : Char) (rest : List Char) :
    Except Failure (List Bracket × List Char) :=
  match skipItem outer c rest with
  | .error failure => .error failure
  | .ok (.brace :: outer, rest) =>
    match skipName rest with
    | .error failure => .error failure
    | .ok rest => .ok (.brace :: outer, rest)
  | .ok step => .ok step

theorem skipAtom_length {c : Char} {rest rest' : List Char} (h : skipAtom c rest = .ok rest') :
    rest'.length ≤ rest.length := by
  unfold skipAtom at h
  grind [→ readWord_length, → readString_length, → readNumeral_length]

theorem skipClosers_length {afterItem : Bool} {outer outer' : List Bracket}
    {text rest : List Char} (h : skipClosers afterItem outer text = .ok (outer', rest)) :
    rest.length ≤ text.length := by
  fun_induction skipClosers afterItem outer text <;> grind [→ skipBlanks_cons_length]

theorem skipItem_length {outer outer' : List Bracket} {c : Char} {rest rest' : List Char}
    (h : skipItem outer c rest = .ok (outer', rest')) : rest'.length ≤ rest.length := by
  unfold skipItem at h
  grind [→ skipAtom_length, → skipClosers_length]

theorem skipName_length {text rest : List Char} (h : skipName text = .ok rest) :
    rest.length < text.length := by
  unfold skipName at h
  grind [→ readString_length, → skipBlanks_cons_length]

theorem skipStep_length {outer outer' : List Bracket} {c : Char} {rest rest' : List Char}
    (h : skipStep outer c rest = .ok (outer', rest')) : rest'.length ≤ rest.length := by
  unfold skipStep at h
  grind [→ skipItem_length, → skipName_length]

/-- Skips a value inside the containers that are open, and all that is left of
them. -/
def skipInside (outer : List Bracket) (text : List Char) : Except Failure (List Char) :=
  match _ht : skipBlanks text with
  | [] => .error .truncated
  | c :: rest =>
    match _hs : skipStep outer c rest with
    | .error failure => .error failure
    | .ok ([], rest) => .ok rest
    | .ok (bracket :: outer, rest) => skipInside (bracket :: outer) rest
termination_by text.length
decreasing_by
  have := skipBlanks_cons_length _ht
  have := skipStep_length _hs
  omega

/-- Skips one value. -/
def skipValue (text : List Char) : Except Failure (List Char) := skipInside [] text

theorem skipInside_length {outer : List Bracket} {text rest : List Char}
    (h : skipInside outer text = .ok rest) : rest.length < text.length := by
  fun_induction skipInside outer text <;>
    grind [→ skipBlanks_cons_length, → skipStep_length]

theorem skipValue_length {text rest : List Char} (h : skipValue text = .ok rest) :
    rest.length < text.length :=
  skipInside_length h

end RawJson.Json
