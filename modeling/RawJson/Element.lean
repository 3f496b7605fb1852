/-
Arrays, element by element. An element is the pair of positions between which
its text stands, so one element or a run of neighbours with the gaps between
them can be given back as it stood.

Positions and bounds in a path are signed 64-bit numbers; a negative one
counts from the end. The arithmetic on them is on exact integers.
-/
import RawJson.Scan

namespace RawJson

/-- An element of an array: the document from its first byte on, and from the
byte after its last on. -/
structure Element where
  start : Bytes
  stop : Bytes
  deriving DecidableEq, Repr, Inhabited

namespace Element

/-- The bytes of an element. -/
def text (element : Element) : Bytes := Bytes.upTo element.start element.stop

/-- The next element of an array, `none` at the closing bracket. -/
def next (doc : Bytes) : Except Fault (Option Element) :=
  match afterGap doc with
  | .error fault => .error fault
  | .ok (b, rest) =>
    if b = Byte.closeSquare then .ok none
    else
      match afterToken b rest with
      | .error fault => .error fault
      | .ok stop => .ok (some ⟨b :: rest, stop⟩)

theorem next_length {doc : Bytes} {element : Element}
    (h : next doc = .ok (some element)) : element.stop.length < doc.length := by
  unfold next at h
  split at h
  · simp at h
  rename_i hg
  have := afterGap_length hg
  split at h
  · simp at h
  split at h
  · simp at h
  rename_i hv
  have := afterToken_length hv
  simp only [Except.ok.injEq, Option.some.injEq] at h
  subst h
  dsimp only; omega

/-- The elements from `doc` on, behind those `found` already, last first. -/
def listFrom (found : List Element) (doc : Bytes) : Except Fault (List Element) :=
  match _h : next doc with
  | .error fault => .error fault
  | .ok none => .ok found.reverse
  | .ok (some element) => listFrom (element :: found) element.stop
termination_by doc.length
decreasing_by exact next_length _h

/-- One turn of a list. -/
theorem listFrom_eq (found : List Element) (doc : Bytes) :
    listFrom found doc =
      match next doc with
      | .error fault => .error fault
      | .ok none => .ok found.reverse
      | .ok (some element) => listFrom (element :: found) element.stop := by
  rw [listFrom.eq_def]
  split
  · next h => rw [h]
  · next h => rw [h]
  · next h => rw [h]

/-- The elements of an array, from just past its opening bracket. -/
def list (doc : Bytes) : Except Fault (List Element) := listFrom [] doc

/-- Where `position` lies in a sequence of `count`, counted from the front. -/
def fromFront (position : Int64) (count : Nat) : Int :=
  if position < 0 then position.toInt + count else position.toInt

/-- The element at `position`. -/
def at? (items : List Element) (position : Int64) : Option Element :=
  let index := fromFront position items.length
  if 0 ≤ index then items[index.toNat]? else none

/-- The end of a range over `count` elements, itself not in the range; zero
stands for the end of the array. -/
def upperBound (right : Int64) (count : Nat) : Int :=
  if right = 0 then count else fromFront right count

/-- The first and the last of the elements from `left` up to `right`, if both
ends are in reach and there is at least one element between them. -/
def window (items : List Element) (left right : Int64) : Option (Element × Element) :=
  let first := fromFront left items.length
  let last := upperBound right items.length
  if 0 ≤ first ∧ first < last then
    match items[first.toNat]?, items[last.toNat - 1]? with
    | some a, some b => some (a, b)
    | _, _ => none
  else none

/-- An array of the elements from `first` to `last`. The gaps between them are
kept, those around them are not. -/
def arrayOf (first last : Element) : Bytes :=
  Byte.openSquare :: (Bytes.upTo first.start last.stop ++ [Byte.closeSquare])

end Element

end RawJson
