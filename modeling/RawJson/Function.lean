/-
The functions a path can end in. Both measure the value they are called on and
give a number, so their result is never a piece of the document.
-/
import RawJson.Element
import RawJson.Kind

namespace RawJson

/-- A function of a value. -/
inductive Function where
  /-- The bytes of a string, its quotes included, or the elements of an array. -/
  | length
  /-- The bytes of any value. -/
  | size
  deriving DecidableEq, Repr, Inhabited

/-- Why a function gives no number. -/
inductive Function.Failure where
  | fault (fault : Fault)
  /-- The function has no answer for values of kind `found`. -/
  | notApplicable (found : Kind)
  deriving DecidableEq, Repr, Inhabited

namespace Function

/-- How a path spells a function. -/
def name : Function → String
  | .length => "length"
  | .size => "size"

/-- The function of that name. -/
def ofName? (name : String) : Option Function :=
  if name = "length" then some .length
  else if name = "size" then some .size
  else none

@[simp] theorem ofName?_name (function : Function) : ofName? function.name = some function := by
  cases function <;> decide

theorem ofName?_eq_some_iff {name : String} {function : Function} :
    ofName? name = some function ↔ name = function.name := by
  constructor
  · intro h
    unfold ofName? at h
    split at h
    · next hn => rw [Option.some.injEq] at h; subst h; exact hn
    split at h
    · next hn => rw [Option.some.injEq] at h; subst h; exact hn
    · simp at h
  · rintro rfl
    simp

/-- The bytes from the start of `doc` to the end of its first value; a gap in
front counts. -/
def sizeOf (doc : Bytes) : Except Failure Nat :=
  match afterValue doc with
  | .error fault => .error (.fault fault)
  | .ok rest => .ok (doc.length - rest.length)

/-- The length of the string or array at the very start of `doc`. -/
def lengthOf (doc : Bytes) : Except Failure Nat :=
  match doc with
  | [] => .error (.fault (.unexpectedEnd .input))
  | b :: rest =>
    if b = Byte.quote then
      match splitString rest with
      | none => .error (.fault (.unexpectedEnd .string))
      | some (body, _) => .ok (body.length + 2)
    else if b = Byte.openSquare then
      match Element.list rest with
      | .error fault => .error (.fault fault)
      | .ok items => .ok items.length
    else .error (.notApplicable (Kind.ofByte b))

/-- The number a function gives for the value at the start of `doc`. -/
def measure : Function → Bytes → Except Failure Nat
  | .length => lengthOf
  | .size => sizeOf

/-- The result of a function as bytes. -/
def call (function : Function) (doc : Bytes) : Except Failure Bytes :=
  match function.measure doc with
  | .error failure => .error failure
  | .ok n => .ok (Bytes.ofString n.repr)

end Function

end RawJson
