/-
Objects, member by member. `Member.next` reads a key and finds its value
without a look at the key's text, so the members of an object and where their
enumeration ends (`Member.listing`) do not depend on the key that is looked
up; `Member.find` stops at the first member with the key it wants.

A key is compared as it stands in the document, its escapes included.
-/
import RawJson.Scan

namespace RawJson

/-- A member of an object: the text between the quotes of its key, and the
document from the first byte of its value on. -/
structure Member where
  key : Bytes
  value : Bytes
  deriving DecidableEq, Repr, Inhabited

namespace Member

/-- The next member of an object, `none` at the closing brace. -/
def next (doc : Bytes) : Except Fault (Option Member) :=
  match afterGap doc with
  | .error fault => .error fault
  | .ok (b, rest) =>
    if b = Byte.closeBrace then .ok none
    else if b = Byte.quote then
      match splitString rest with
      | none => .error (.unexpectedEnd .string)
      | some (key, beyond) =>
        match afterGap beyond with
        | .error fault => .error fault
        | .ok (b, beyond) =>
          if b = Byte.colon then
            match afterGap beyond with
            | .error fault => .error fault
            | .ok (b, beyond) => .ok (some ⟨key, b :: beyond⟩)
          else .error .missingColon
    else .error (.unexpectedByte b .objectKey)

theorem next_length {doc : Bytes} {member : Member} (h : next doc = .ok (some member)) :
    member.value.length < doc.length := by
  unfold next at h
  split at h
  · simp at h
  rename_i hg
  have := afterGap_length hg
  split at h
  · simp at h
  split at h
  · split at h
    · simp at h
    rename_i hs
    have := splitString_length hs
    split at h
    · simp at h
    rename_i hc
    have := afterGap_length hc
    split at h
    · split at h
      · simp at h
      rename_i hv
      have := afterGap_length hv
      simp only [Except.ok.injEq, Option.some.injEq] at h
      subst h
      simp only [List.length_cons]; omega
    · simp at h
  · simp at h

/-- The value of the first member named `key`, from anywhere between the
members of an object on; `none` if the object ends without one. -/
def find (key : Bytes) (doc : Bytes) : Except Fault (Option Bytes) :=
  match _h : next doc with
  | .error fault => .error fault
  | .ok none => .ok none
  | .ok (some member) =>
    if member.key = key then .ok (some member.value)
    else
      match _hv : afterValue member.value with
      | .error fault => .error fault
      | .ok rest => find key rest
termination_by doc.length
decreasing_by
  have := next_length _h
  have := afterValue_length _hv
  omega

/-- One turn of a lookup. -/
theorem find_eq (key doc : Bytes) :
    find key doc =
      match next doc with
      | .error fault => .error fault
      | .ok none => .ok none
      | .ok (some member) =>
        if member.key = key then .ok (some member.value)
        else
          match afterValue member.value with
          | .error fault => .error fault
          | .ok rest => find key rest := by
  rw [find.eq_def]
  split
  · next h => rw [h]
  · next h => rw [h]
  · next member h =>
    rw [h]
    dsimp only
    split
    · rfl
    · split
      · next hv => rw [hv]
      · next hv => rw [hv]

/-- All members of an object that a scan meets, in order, and the fault that
ended it, `none` if it came to the closing brace. -/
structure Listing where
  members : List Member
  fault : Option Fault
  deriving DecidableEq, Repr, Inhabited

/-- The members from `doc` on. A member counts once its colon is seen, also if
its value cannot be skipped. -/
def listing (doc : Bytes) : Listing :=
  match _h : next doc with
  | .error fault => ⟨[], some fault⟩
  | .ok none => ⟨[], none⟩
  | .ok (some member) =>
    match _hv : afterValue member.value with
    | .error fault => ⟨[member], some fault⟩
    | .ok rest =>
      let others := listing rest
      ⟨member :: others.members, others.fault⟩
termination_by doc.length
decreasing_by
  have := next_length _h
  have := afterValue_length _hv
  omega

end Member

end RawJson
