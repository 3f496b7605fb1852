/-
Reading options from JSON: an object, in which members of unknown name are
skipped and a missing one keeps its default, or an array of at most one limit.

The text is read from left to right and the first thing wrong with it decides
how it fails. A text of the wrong type is a mismatch as soon as its type shows:
an array or object is not read any further, anything else to its end.
-/
import RawJson.Json.Skip
import RawJson.Options.Basic

namespace RawJson.Options

open Json

/-- How reading fails at a value of the wrong type, which starts with `c` and
goes on with `rest`. -/
def mismatch (c : Char) (rest : List Char) : Failure :=
  if c = '[' ∨ c = '\x7b' then .mismatched
  else if c = 'n' then failureOf (readWord ['u', 'l', 'l'] rest)
  else if c = 't' then failureOf (readWord ['r', 'u', 'e'] rest)
  else if c = 'f' then failureOf (readWord ['a', 'l', 's', 'e'] rest)
  else if c = '"' then failureOf (readString .paired rest)
  else if c = '-' ∨ c.isDigit then
    failureOf (readNumeral (c :: rest) >>= fun (numeral, _) => numeral.value)
  else .malformed
where
  /-- A value that cannot even be read is no mismatch. -/
  failureOf {α : Type} : Except Failure α → Failure
    | .error failure => failure
    | .ok _ => .mismatched

/-- The limit that a number is, if it is an integer and not negative. -/
def limitOf? : Number → Option UInt64
  | .integer (.ofNat n) => some n.toUInt64
  | _ => none

/-- Reads a limit: a plain integer that 64 bits hold without a sign. -/
def readLimit (text : List Char) : Except Failure (UInt64 × List Char) :=
  match skipBlanks text with
  | [] => .error .truncated
  | c :: rest =>
    if c = '-' ∨ c.isDigit then
      match readNumeral (c :: rest) with
      | .error failure => .error failure
      | .ok (numeral, rest) =>
        match numeral.value with
        | .error failure => .error failure
        | .ok n =>
          match limitOf? n with
          | none => .error .mismatched
          | some limit => .ok (limit, rest)
    else .error (mismatch c rest)

/-- Reads the given character, after any blanks. -/
def readMark (mark : Char) (text : List Char) : Except Failure (List Char) :=
  match skipBlanks text with
  | [] => .error .truncated
  | c :: rest => if c = mark then .ok rest else .error .malformed

/-- Reads a member, from just past the opening quote of its name, when `limit?`
is what the members before it have set. -/
def readMember (limit? : Option UInt64) (text : List Char) :
    Except Failure (Option UInt64 × List Char) :=
  match readString .paired text with
  | .error failure => .error failure
  | .ok (name, rest) =>
    if name = segmentsName ∧ limit?.isSome then .error .mismatched
    else
      match readMark ':' rest with
      | .error failure => .error failure
      | .ok rest =>
        if name = segmentsName then
          match readLimit rest with
          | .error failure => .error failure
          | .ok (limit, rest) => .ok (some limit, rest)
        else
          match skipValue rest with
          | .error failure => .error failure
          | .ok rest => .ok (limit?, rest)

theorem readMark_length {mark : Char} {text rest : List Char}
    (h : readMark mark text = .ok rest) : rest.length < text.length := by
  unfold readMark at h
  grind [→ skipBlanks_cons_length]

theorem readLimit_length {text rest : List Char} {limit : UInt64}
    (h : readLimit text = .ok (limit, rest)) : rest.length < text.length := by
  unfold readLimit at h
  grind [→ skipBlanks_cons_length, → readNumeral_length]

theorem readMember_length {limit? limit?' : Option UInt64} {text rest : List Char}
    (h : readMember limit? text = .ok (limit?', rest)) : rest.length < text.length := by
  unfold readMember at h
  grind [→ readString_length, → readMark_length, → readLimit_length, → skipValue_length]

/-- Reads what is left of an object after its first member. -/
def readMembers (limit? : Option UInt64) (text : List Char) :
    Except Failure (Option UInt64 × List Char) :=
  match _ht : skipBlanks text with
  | [] => .error .truncated
  | c :: rest =>
    if c = '\x7d' then .ok (limit?, rest)
    else if c = ',' then
      match _hq : readMark '"' rest with
      | .error failure => .error failure
      | .ok rest =>
        match _hm : readMember limit? rest with
        | .error failure => .error failure
        | .ok (limit?, rest) => readMembers limit? rest
    else .error .malformed
termination_by text.length
decreasing_by
  have := skipBlanks_cons_length _ht
  have := readMark_length _hq
  have := readMember_length _hm
  omega

/-- Reads an object, from just past its opening brace. -/
def readObject (text : List Char) : Except Failure (Option UInt64 × List Char) :=
  match skipBlanks text with
  | [] => .error .truncated
  | c :: rest =>
    if c = '\x7d' then .ok (none, rest)
    else if c = '"' then do
      let (limit?, rest) ← readMember none rest
      readMembers limit? rest
    else .error .malformed

/-- Reads an array, from just past its opening bracket. -/
def readArray (text : List Char) : Except Failure (Option UInt64 × List Char) :=
  match skipBlanks text with
  | [] => .error .truncated
  | c :: rest =>
    if c = ']' then .ok (none, rest)
    else do
      let (limit, rest) ← readLimit (c :: rest)
      let rest ← readMark ']' rest
      return (some limit, rest)

/-- The options a JSON text gives. -/
def fromJson (text : String) : Except Failure Options :=
  match skipBlanks text.toList with
  | [] => .error .truncated
  | c :: rest => do
    let (limit?, rest) ←
      if c = '[' then readArray rest
      else if c = '\x7b' then readObject rest
      else .error (mismatch c rest)
    if (skipBlanks rest).isEmpty then
      return { maxSegments := limit?.getD default.maxSegments }
    else .error .malformed

end RawJson.Options
