/-
JSON text as a list of lexemes: brackets, commas, colons, and the values that
hold no others. Strings have to be free of control characters and of halves
of surrogate pairs.
-/
import RawJson.Json.Numeral
import RawJson.Scan

namespace RawJson.Json

/-- A piece of JSON text. -/
inductive Lexeme where
  | opening (bracket : Bracket)
  | closing (bracket : Bracket)
  | comma
  | colon
  | string (s : String)
  /-- A value that is no string and holds no others. -/
  | atom (value : Value)
  deriving Repr, Inhabited

/-- The lexemes of a single character. -/
def mark? (c : Char) : Option Lexeme :=
  if c = '[' then some (.opening .square)
  else if c = ']' then some (.closing .square)
  else if c = '\x7b' then some (.opening .brace)
  else if c = '\x7d' then some (.closing .brace)
  else if c = ',' then some .comma
  else if c = ':' then some .colon
  else none

/-- The lexeme that starts with `c` and goes on with `rest`, and the text
beyond it. -/
def readLexeme (c : Char) (rest : List Char) : Except Failure (Lexeme × List Char) :=
  match mark? c with
  | some lexeme => .ok (lexeme, rest)
  | none =>
    if c = '"' then
      match readString .paired rest with
      | .error failure => .error failure
      | .ok (s, rest) => .ok (.string s, rest)
    else if c = 'n' then word .null ['u', 'l', 'l']
    else if c = 't' then word (.boolean true) ['r', 'u', 'e']
    else if c = 'f' then word (.boolean false) ['a', 'l', 's', 'e']
    else
      match readNumeral (c :: rest) with
      | .error failure => .error failure
      | .ok (numeral, rest) =>
        match numeral.value with
        | .error failure => .error failure
        | .ok n => .ok (.atom (.number n), rest)
where
  word (value : Value) (letters : List Char) : Except Failure (Lexeme × List Char) :=
    match readWord letters rest with
    | .error failure => .error failure
    | .ok rest => .ok (.atom value, rest)

theorem readLexeme_length {c : Char} {rest rest' : List Char} {lexeme : Lexeme}
    (h : readLexeme c rest = .ok (lexeme, rest')) : rest'.length ≤ rest.length := by
  unfold readLexeme readLexeme.word at h
  grind [→ readWord_length, → readString_length, → readNumeral_length]

/-- The lexemes of a text, behind those `found` already, last first. -/
def lexemesFrom (found : List Lexeme) (text : List Char) : Except Failure (List Lexeme) :=
  match _ht : skipBlanks text with
  | [] => .ok found.reverse
  | c :: rest =>
    match _hl : readLexeme c rest with
    | .error failure => .error failure
    | .ok (lexeme, rest) => lexemesFrom (lexeme :: found) rest
termination_by text.length
decreasing_by
  have := skipBlanks_cons_length _ht
  have := readLexeme_length _hl
  omega

/-- The lexemes of a text. -/
def lexemes (text : List Char) : Except Failure (List Lexeme) := lexemesFrom [] text

end RawJson.Json
