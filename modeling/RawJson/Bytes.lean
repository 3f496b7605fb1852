/-
Documents are byte strings. A position inside one is written as the suffix
that starts there, so a scan takes a suffix and gives back the shorter suffix
it stopped at, and the text between the two is `Bytes.upTo`.

The bytes that matter to the format are all ASCII and are named here; a byte
above `0x7f` is only ever part of a string, a key or a bare scalar.
-/
namespace RawJson

/-- A document or any piece of one. -/
abbrev Bytes := List UInt8

namespace Byte

/-- A blank, which separates values. -/
abbrev tab : UInt8 := 0x09

/-- The end of a line, which separates like a blank. -/
abbrev lineFeed : UInt8 := 0x0a

/-- What may stand in front of a line feed, and separates by itself too. -/
abbrev carriageReturn : UInt8 := 0x0d

/-- The usual blank. -/
abbrev space : UInt8 := 0x20

/-- What opens and closes a string or a key. -/
abbrev quote : UInt8 := 0x22

/-- What separates two values or members. -/
abbrev comma : UInt8 := 0x2c

/-- What stands between a key and its value. -/
abbrev colon : UInt8 := 0x3a

/-- What opens an array. -/
abbrev openSquare : UInt8 := 0x5b

/-- What takes its meaning from the byte behind it, in a string or a key. -/
abbrev backslash : UInt8 := 0x5c

/-- What closes an array. -/
abbrev closeSquare : UInt8 := 0x5d

/-- What opens an object. -/
abbrev openBrace : UInt8 := 0x7b

/-- What closes an object. -/
abbrev closeBrace : UInt8 := 0x7d

/-- Gaps between the tokens of a document are runs of whitespace and commas:
a scan does not tell a comma from a blank. -/
def isSeparator (b : UInt8) : Bool :=
  b == comma || b == space || b == tab || b == carriageReturn || b == lineFeed

/-- A bare scalar runs up to a separator or a closing bracket. -/
def endsScalar (b : UInt8) : Bool :=
  isSeparator b || b == closeBrace || b == closeSquare

end Byte

namespace Bytes

/-- The UTF-8 encoding of a string. -/
def ofString (s : String) : Bytes := s.toList.flatMap String.utf8EncodeChar

/-- The length of the UTF-8 encoding of a text. -/
def utf8Length (text : List Char) : Nat := text.foldr (fun c n => c.utf8Size + n) 0

/-- The string these bytes encode, if they are valid UTF-8. -/
def text? (doc : Bytes) : Option String := String.fromUTF8? ⟨doc.toArray⟩

/-- The part of `doc` in front of its suffix `rest`. -/
def upTo (doc rest : Bytes) : Bytes := doc.take (doc.length - rest.length)

@[simp] theorem upTo_append (text rest : Bytes) : upTo (text ++ rest) rest = text := by
  simp [upTo]

@[simp] theorem ofString_append (s t : String) : ofString (s ++ t) = ofString s ++ ofString t := by
  simp [ofString]

/-- A string is determined by its encoding. -/
theorem ofString_injective {s t : String} (h : ofString s = ofString t) : s = t := by
  have hbytes : s.toList.utf8Encode = t.toList.utf8Encode := congrArg List.toByteArray h
  rw [String.utf8Encode_toList, String.utf8Encode_toList] at hbytes
  exact String.toByteArray_inj.mp hbytes

@[simp] theorem utf8Length_nil : utf8Length [] = 0 := rfl

@[simp] theorem utf8Length_cons (c : Char) (text : List Char) :
    utf8Length (c :: text) = c.utf8Size + utf8Length text := rfl

theorem utf8Length_append (a b : List Char) :
    utf8Length (a ++ b) = utf8Length a + utf8Length b := by
  induction a with
  | nil => simp
  | cons c a ih => rw [List.cons_append, utf8Length_cons, utf8Length_cons, ih, Nat.add_assoc]

theorem length_ofString (s : String) : (ofString s).length = utf8Length s.toList := by
  unfold ofString
  induction s.toList with
  | nil => rfl
  | cons c text ih => simp [ih]

end Bytes

end RawJson
