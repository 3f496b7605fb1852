/-
The words and strings of JSON text. A reader takes the text it starts at and
gives the text just past what it read, or a `Failure`, which tells a text that
is over too soon from one that goes on wrongly.
-/
import RawJson.Bytes

namespace RawJson.Json

/-- Why a text could not be read. -/
inductive Failure where
  /-- The text ends before the value does. -/
  | truncated
  /-- The text is not JSON. -/
  | malformed
  /-- The text is JSON, but not the value that is wanted. -/
  | mismatched
  deriving DecidableEq, Repr, Inhabited

/-- The blanks between tokens. -/
def isBlank (c : Char) : Bool := c == ' ' || c == '\t' || c == '\n' || c == '\r'

/-- The text after any blanks. -/
def skipBlanks (text : List Char) : List Char := text.dropWhile isBlank

theorem skipBlanks_length (text : List Char) : (skipBlanks text).length ≤ text.length :=
  (List.dropWhile_suffix isBlank).length_le

theorem skipBlanks_cons_length {text rest : List Char} {c : Char}
    (h : skipBlanks text = c :: rest) : rest.length < text.length := by
  have := skipBlanks_length text
  simp only [h, List.length_cons] at this
  omega

/-- Reads exactly the given letters. -/
def readWord : List Char → List Char → Except Failure (List Char)
  | [], text => .ok text
  | _ :: _, [] => .error .truncated
  | w :: word, c :: text => if c = w then readWord word text else .error .malformed

/-- The value of a hexadecimal digit. -/
def hexDigit? (c : Char) : Option Nat :=
  if '0' ≤ c ∧ c ≤ '9' then some (c.toNat - '0'.toNat)
  else if 'a' ≤ c ∧ c ≤ 'f' then some (c.toNat - 'a'.toNat + 10)
  else if 'A' ≤ c ∧ c ≤ 'F' then some (c.toNat - 'A'.toNat + 10)
  else none

/-- Reads four hexadecimal digits. A text of less than four bytes is over too
soon, whatever is left of it. -/
def readUnit (text : List Char) : Except Failure (Nat × List Char) :=
  match text with
  | a :: b :: c :: d :: rest =>
    match hexDigit? a, hexDigit? b, hexDigit? c, hexDigit? d with
    | some a, some b, some c, some d => .ok (((a * 16 + b) * 16 + c) * 16 + d, rest)
    | _, _, _, _ => .error .malformed
  | _ => .error (if Bytes.utf8Length text < 4 then .truncated else .malformed)

/-- Whether the halves of surrogate pairs have to match. -/
inductive Surrogates where
  | paired
  | unchecked
  deriving DecidableEq, Repr, Inhabited

/-- Reads a character given by its number, from just past the `u`. Where pairs
are not checked, half a pair is as good as any character. -/
def readNumbered (mode : Surrogates) (text : List Char) : Except Failure (Char × List Char) :=
  match readUnit text with
  | .error failure => .error failure
  | .ok (high, rest) =>
    if mode = .unchecked ∨ high < 0xd800 ∨ 0xe000 ≤ high then .ok (Char.ofNat high, rest)
    else if 0xdc00 ≤ high then .error .malformed
    else
      match readWord ['\\', 'u'] rest with
      | .error failure => .error failure
      | .ok rest =>
        match readUnit rest with
        | .error failure => .error failure
        | .ok (low, rest) =>
          if 0xdc00 ≤ low ∧ low < 0xe000 then
            .ok (Char.ofNat (0x10000 + (high - 0xd800) * 0x400 + (low - 0xdc00)), rest)
          else .error .malformed

/-- Reads what follows a backslash. -/
def readEscape (mode : Surrogates) (text : List Char) : Except Failure (Char × List Char) :=
  match text with
  | [] => .error .truncated
  | c :: rest =>
    if c = 'u' then readNumbered mode rest
    else if c = '"' ∨ c = '\\' ∨ c = '/' then .ok (c, rest)
    else if c = 'b' then .ok ('\x08', rest)
    else if c = 'f' then .ok ('\x0c', rest)
    else if c = 'n' then .ok ('\n', rest)
    else if c = 'r' then .ok ('\r', rest)
    else if c = 't' then .ok ('\t', rest)
    else .error .malformed

theorem readWord_length {word text rest : List Char} (h : readWord word text = .ok rest) :
    rest.length ≤ text.length := by
  fun_induction readWord word text <;> grind

theorem readUnit_length {text rest : List Char} {n : Nat} (h : readUnit text = .ok (n, rest)) :
    rest.length < text.length := by
  unfold readUnit at h
  grind

theorem readNumbered_length {mode : Surrogates} {text rest : List Char} {c : Char}
    (h : readNumbered mode text = .ok (c, rest)) : rest.length < text.length := by
  unfold readNumbered at h
  grind [→ readUnit_length, → readWord_length]

theorem readEscape_length {mode : Surrogates} {text rest : List Char} {c : Char}
    (h : readEscape mode text = .ok (c, rest)) : rest.length < text.length := by
  unfold readEscape at h
  grind [→ readNumbered_length]

/-- Reads the rest of a string, behind the characters `taken` already, last
first. -/
def readStringFrom (mode : Surrogates) (taken text : List Char) :
    Except Failure (String × List Char) :=
  match text with
  | [] => .error .truncated
  | c :: rest =>
    if c = '"' then .ok (String.ofList taken.reverse, rest)
    else if c = '\\' then
      match _h : readEscape mode rest with
      | .error failure => .error failure
      | .ok (c, rest) => readStringFrom mode (c :: taken) rest
    else if c.toNat < 0x20 then .error .malformed
    else readStringFrom mode (c :: taken) rest
termination_by text.length
decreasing_by
  · have := readEscape_length _h
    simp only [List.length_cons]; omega
  · simp

/-- Reads a string, from just past its opening quote. -/
def readString (mode : Surrogates) (text : List Char) : Except Failure (String × List Char) :=
  readStringFrom mode [] text

theorem readStringFrom_length {mode : Surrogates} {taken text rest : List Char} {s : String}
    (h : readStringFrom mode taken text = .ok (s, rest)) : rest.length < text.length := by
  fun_induction readStringFrom mode taken text <;> grind [→ readEscape_length]

theorem readString_length {mode : Surrogates} {text rest : List Char} {s : String}
    (h : readString mode text = .ok (s, rest)) : rest.length < text.length :=
  readStringFrom_length h

end RawJson.Json
