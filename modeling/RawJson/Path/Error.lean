/-
The ways a text can fail to be a path, and how each is reported. A position is
an offset in bytes into the UTF-8 text of the path.
-/
namespace RawJson

/-- Why a text is not a path. -/
inductive PathError where
  | empty
  /-- The text does not start with `$`. -/
  | missingRoot
  /-- A segment starts at `pos` and has no key. -/
  | emptyKey (pos : Nat)
  /-- The segment at `pos` calls a function there is none of that name. -/
  | unknownFunction (name : String) (pos : Nat)
  /-- The text goes on at `pos`, after a function call. -/
  | functionNotTerminal (name : String) (pos : Nat)
  /-- A bound or the closing bracket is due at `pos`. -/
  | malformedIndex (key : String) (pos : Nat)
  /-- The upper bound at `pos` is written as a zero, which means nothing:
  a range to the end of an array is written without one. -/
  | zeroUpperBound (key : String) (pos : Nat)
  /-- The text goes on at `pos`, after a range. -/
  | indefiniteReference (key : String) (pos : Nat)
  /-- A segment is over at `pos`, and neither a dot nor the end follows. -/
  | expectedDot (found : Char) (pos : Nat)
  /-- The path has more segments than `limit`. -/
  | tooManySegments (limit : UInt64)
  deriving DecidableEq, Repr, Inhabited

/-- The report of an error. -/
def PathError.message : PathError → String
  | .empty => "path is empty"
  | .missingRoot => "path must start with `$`"
  | .emptyKey pos => s!"empty key at offset {pos}"
  | .unknownFunction name _ => s!"unknown function {name}()"
  | .functionNotTerminal name _ => s!"function {name}() must be the last segment"
  | .malformedIndex key pos => s!"index bound missing or malformed at {key}, offset {pos}"
  | .zeroUpperBound key pos => s!"0 as a second bound does not make sense at {key}, offset {pos}"
  | .indefiniteReference key pos =>
    s!"indefinite references are not supported mid-path at {key}, offset {pos}"
  | .expectedDot found pos =>
    s!"invalid element reference at offset {pos}: `.` expected, found `{found}`"
  | .tooManySegments limit => s!"path has more than {limit.toNat} segments"

end RawJson
