/-
Writing JSON, either on one line without blanks or with every item and member
on a line of its own. An empty array or object is a pair of brackets in both.

In strings the quote, the backslash and the control characters below U+0020
are escaped, those with a letter of their own by that letter; all else stands
as it is.
-/
import RawJson.Decimal.Integer
import RawJson.Decimal.Shortest
import RawJson.Json.Value

namespace RawJson.Json

/-- How a character stands in a string. -/
def escape (c : Char) : List Char :=
  if c = '"' then ['\\', '"']
  else if c = '\\' then ['\\', '\\']
  else if c = '\x08' then ['\\', 'b']
  else if c = '\x0c' then ['\\', 'f']
  else if c = '\n' then ['\\', 'n']
  else if c = '\r' then ['\\', 'r']
  else if c = '\t' then ['\\', 't']
  else if c.toNat < 0x20 then
    ['\\', 'u', '0', '0', Nat.digitChar (c.toNat / 16), Nat.digitChar (c.toNat % 16)]
  else [c]

/-- A string in quotes. -/
def quoted (s : String) : String := "\"" ++ String.ofList (s.toList.flatMap escape) ++ "\""

/-- Doubles have a point or an exponent; below 1e-5 and from 1e16 on it is the
exponent. -/
def floatLayout : Decimal.Layout := ⟨-5, 15⟩

/-- How a number is printed: an integer in full, a float with the fewest digits that
read back as it. -/
def Number.text : Number → String
  | .integer n => Decimal.ofInt n
  | .float x => Decimal.ofFloat floatLayout x

/-- How the items of a container are set. -/
inductive Layout where
  /-- All on one line, without blanks. -/
  | compact
  /-- Each on its own line, two blanks deeper than its container. -/
  | indented
  deriving DecidableEq, Repr, Inhabited

namespace Layout

/-- What stands before an item at depth `level`, or a closing bracket there. -/
def lineBreak (layout : Layout) (level : Nat) : String :=
  match layout with
  | .compact => ""
  | .indented => "\n" ++ String.ofList (List.replicate (2 * level) ' ')

/-- What stands between the name and the value of a member. -/
def colon : Layout → String
  | .compact => ":"
  | .indented => ": "

/-- What stands before the value of a member at depth `level`. -/
def memberStart (layout : Layout) (level : Nat) (name : String) : String :=
  layout.lineBreak level ++ quoted name ++ layout.colon

end Layout

mutual

/-- Writes a value that stands at depth `level` behind what is `written`
already. -/
def Value.write (layout : Layout) (level : Nat) (written : String) : Value → String
  | .null => written ++ "null"
  | .boolean b => written ++ if b then "true" else "false"
  | .number n => written ++ n.text
  | .string s => written ++ quoted s
  | .array [] => written ++ "[]"
  | .array (item :: items) =>
    writeItems layout level
      (item.write layout (level + 1) (written ++ "[" ++ layout.lineBreak (level + 1))) items
  | .object [] => written ++ "\x7b\x7d"
  | .object ((name, value) :: members) =>
    writeMembers layout level
      (value.write layout (level + 1) (written ++ "\x7b" ++ layout.memberStart (level + 1) name))
      members

/-- Writes the items after the first, up to the closing bracket. -/
def writeItems (layout : Layout) (level : Nat) (written : String) : List Value → String
  | [] => written ++ layout.lineBreak level ++ "]"
  | item :: items =>
    writeItems layout level
      (item.write layout (level + 1) (written ++ "," ++ layout.lineBreak (level + 1))) items

/-- Writes the members after the first, up to the closing brace. -/
def writeMembers (layout : Layout) (level : Nat) (written : String) :
    List (String × Value) → String
  | [] => written ++ layout.lineBreak level ++ "\x7d"
  | (name, value) :: members =>
    writeMembers layout level
      (value.write layout (level + 1) (written ++ "," ++ layout.memberStart (level + 1) name))
      members

end

/-- The text of a value in the given layout. -/
def Value.text (layout : Layout) (value : Value) : String := value.write layout 0 ""

mutual

/-- What is written already has no bearing on what comes behind it. -/
theorem Value.write_append (layout : Layout) (level : Nat) (front written : String)
    (value : Value) :
    value.write layout level (front ++ written) = front ++ value.write layout level written := by
  match value with
  | .null | .boolean _ | .number _ | .string _ | .array [] | .object [] =>
    simp [Value.write, String.append_assoc]
  | .array (item :: items) =>
    simp only [Value.write, String.append_assoc]
    rw [item.write_append, writeItems_append]
  | .object ((name, value) :: members) =>
    simp only [Value.write, String.append_assoc]
    rw [value.write_append, writeMembers_append]

theorem writeItems_append (layout : Layout) (level : Nat) (front written : String)
    (items : List Value) :
    writeItems layout level (front ++ written) items =
      front ++ writeItems layout level written items := by
  match items with
  | [] => simp [writeItems, String.append_assoc]
  | item :: items =>
    simp only [writeItems, String.append_assoc]
    rw [item.write_append, writeItems_append]

theorem writeMembers_append (layout : Layout) (level : Nat) (front written : String)
    (members : List (String × Value)) :
    writeMembers layout level (front ++ written) members =
      front ++ writeMembers layout level written members := by
  match members with
  | [] => simp [writeMembers, String.append_assoc]
  | (name, value) :: members =>
    simp only [writeMembers, String.append_assoc]
    rw [value.write_append, writeMembers_append]

end

end RawJson.Json
