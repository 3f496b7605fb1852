/-
JSON values as trees, for the texts this library writes itself and for results
that are laid out anew. Documents that paths are followed through are never
made into trees.

A number is an integer as long as its text was one and 64 bits hold it, and a
double otherwise. The members of an object are in the order they are written.
-/
namespace RawJson.Json

/-- A JSON number. -/
inductive Number where
  | integer (n : Int)
  | float (x : Float)
  deriving Repr, Inhabited

/-- A JSON value. -/
inductive Value where
  | null
  | boolean (b : Bool)
  | number (n : Number)
  | string (s : String)
  | array (items : List Value)
  | object (members : List (String × Value))
  deriving Repr, Inhabited

/-- The members of an object with their names, in order. -/
abbrev Members := List (String × Value)

namespace Members

/-- The last member of each run of members with one name. -/
def lastOfEach : Members → Members
  | a :: b :: rest => if a.1 = b.1 then lastOfEach (b :: rest) else a :: lastOfEach (b :: rest)
  | members => members

/-- Members in the order of their names, byte by byte; of several with one
name the last is kept. -/
def normalize (members : Members) : Members :=
  lastOfEach (members.mergeSort fun a b => !decide (b.1 < a.1))

end Members

end RawJson.Json
