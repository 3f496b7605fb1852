/-
Forward scans over the text of a document. Each takes the suffix it starts at
and gives the suffix just past what it read; nothing is decoded and nothing is
checked beyond what finding the end of a value needs. So a bare scalar is any
run of bytes up to a separator or closing bracket, and a container ends at the
closing bracket of its own kind that balances its opening one: the other kind
of bracket is not counted, and is balanced anyway in well-formed text.

Every scan of a value gives back a proper suffix (`afterValue_length`), which
is what ends the loops over members and elements.
-/
import RawJson.Bytes

namespace RawJson

/-- What was being scanned when a document ended. -/
inductive Region where
  | input
  | string
  | object
  | array
  deriving DecidableEq, Repr, Inhabited

/-- What was due where a byte cannot start it. -/
inductive Place where
  | value
  | objectKey
  deriving DecidableEq, Repr, Inhabited

/-- Why a scan stopped. -/
inductive Fault where
  /-- The document ended inside `region`. -/
  | unexpectedEnd (region : Region)
  /-- No `place` starts with `byte`. -/
  | unexpectedByte (byte : UInt8) (place : Place)
  /-- A key was not followed by a colon. -/
  | missingColon
  deriving DecidableEq, Repr, Inhabited

/-- The two kinds of bracket. -/
inductive Bracket where
  | brace
  | square
  deriving DecidableEq, Repr, Inhabited

namespace Bracket

/-- The byte that opens a container. -/
def opening : Bracket → UInt8
  | .brace => Byte.openBrace
  | .square => Byte.openSquare

/-- The byte that closes a container. -/
def closing : Bracket → UInt8
  | .brace => Byte.closeBrace
  | .square => Byte.closeSquare

/-- The container between brackets of this kind. -/
def region : Bracket → Region
  | .brace => .object
  | .square => .array

end Bracket

/-- The first byte after a gap and what follows it. A gap is always followed
by something. -/
def afterGap (doc : Bytes) : Except Fault (UInt8 × Bytes) :=
  match doc.dropWhile Byte.isSeparator with
  | [] => .error (.unexpectedEnd .input)
  | b :: rest => .ok (b, rest)

/-- The text of a string and what follows it, when the bytes of it that were
`taken` already, last first, end in a backslash that escapes the next one or
not. The string ends at the first quote that is not escaped. -/
def splitStringFrom (taken : Bytes) (escaped : Bool) : Bytes → Option (Bytes × Bytes)
  | [] => none
  | b :: rest =>
    if escaped then splitStringFrom (b :: taken) false rest
    else if b = Byte.quote then some (taken.reverse, rest)
    else splitStringFrom (b :: taken) (b == Byte.backslash) rest

/-- The text of a string and what follows it, from just past its opening
quote. -/
def splitString (doc : Bytes) : Option (Bytes × Bytes) := splitStringFrom [] false doc

theorem splitStringFrom_length {taken doc body rest : Bytes} {escaped : Bool}
    (h : splitStringFrom taken escaped doc = some (body, rest)) : rest.length < doc.length := by
  fun_induction splitStringFrom taken escaped doc <;> grind

theorem splitString_length {doc body rest : Bytes} (h : splitString doc = some (body, rest)) :
    rest.length < doc.length :=
  splitStringFrom_length h

/-- What follows a container, from just past its opening bracket, when `depth`
more brackets of its kind are open. Strings are skipped whole. -/
def afterContainer (bracket : Bracket) (depth : Nat) (doc : Bytes) : Option Bytes :=
  match doc with
  | [] => none
  | b :: rest =>
    if b = Byte.quote then
      match _h : splitString rest with
      | none => none
      | some (_, rest) => afterContainer bracket depth rest
    else if b = bracket.opening then afterContainer bracket (depth + 1) rest
    else if b = bracket.closing then
      match depth with
      | 0 => some rest
      | depth + 1 => afterContainer bracket depth rest
    else afterContainer bracket depth rest
termination_by doc.length
decreasing_by
  · have := splitString_length _h
    simp only [List.length_cons]; omega
  all_goals simp

theorem afterContainer_length {bracket : Bracket} {depth : Nat} {doc rest : Bytes}
    (h : afterContainer bracket depth doc = some rest) : rest.length < doc.length := by
  fun_induction afterContainer bracket depth doc <;> grind [→ splitString_length]

/-- What follows a bare scalar. -/
def afterScalar (doc : Bytes) : Bytes := doc.dropWhile fun b => !Byte.endsScalar b

/-- What follows the value whose text starts with `b` and goes on with `rest`. -/
def afterToken (b : UInt8) (rest : Bytes) : Except Fault Bytes :=
  if b = Byte.quote then
    match splitString rest with
    | none => .error (.unexpectedEnd .string)
    | some (_, rest) => .ok rest
  else if b = Byte.openBrace then container .brace
  else if b = Byte.openSquare then container .square
  else if Byte.endsScalar b then .error (.unexpectedByte b .value)
  else .ok (afterScalar rest)
where
  /-- A container cut short is reported as such, also where the cut falls
  inside one of its strings. -/
  container (bracket : Bracket) : Except Fault Bytes :=
    match afterContainer bracket 0 rest with
    | none => .error (.unexpectedEnd bracket.region)
    | some rest => .ok rest

/-- What follows the next value; a gap may stand before it. -/
def afterValue (doc : Bytes) : Except Fault Bytes :=
  match afterGap doc with
  | .error fault => .error fault
  | .ok (b, rest) => afterToken b rest

theorem afterGap_length {doc rest : Bytes} {b : UInt8} (h : afterGap doc = .ok (b, rest)) :
    rest.length < doc.length := by
  have hle := (List.dropWhile_suffix Byte.isSeparator (l := doc)).length_le
  unfold afterGap at h
  split at h
  · simp at h
  · simp_all only [Except.ok.injEq, Prod.mk.injEq, List.length_cons]; omega

theorem afterToken_length {b : UInt8} {rest rest' : Bytes} (h : afterToken b rest = .ok rest') :
    rest'.length ≤ rest.length := by
  have hc : ∀ bracket, afterToken.container rest bracket = .ok rest' →
      rest'.length ≤ rest.length := by
    intro bracket h
    unfold afterToken.container at h
    split at h
    · simp at h
    · rename_i hr
      have := afterContainer_length hr
      simp_all only [Except.ok.injEq]; omega
  unfold afterToken at h
  split at h
  · split at h
    · simp at h
    · rename_i hr
      have := splitString_length hr
      simp_all only [Except.ok.injEq]; omega
  split at h
  · exact hc _ h
  split at h
  · exact hc _ h
  split at h
  · simp at h
  · have := (List.dropWhile_suffix (fun b => !Byte.endsScalar b) (l := rest)).length_le
    simp only [Except.ok.injEq, afterScalar] at h
    simpa [← h] using this

theorem afterValue_length {doc rest : Bytes} (h : afterValue doc = .ok rest) :
    rest.length < doc.length := by
  unfold afterValue at h
  split at h
  · simp at h
  · rename_i hg
    have := afterGap_length hg
    have := afterToken_length h
    omega

end RawJson
