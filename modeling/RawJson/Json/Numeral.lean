/-
Numerals: an optional minus sign, digits without a leading zero, and then
perhaps a fraction and an exponent.

A numeral without fraction and exponent is an integer if 64 bits hold it,
signed or unsigned. Any other is a double, made from as many leading digits as
64 bits hold by one multiplication or division with a power of ten, so the
last bit of a long numeral need not be that of the nearest double. A numeral
beyond the range of doubles is malformed.
-/
import RawJson.Decimal.Integer
import RawJson.Json.Text
import RawJson.Json.Value

namespace RawJson.Json

/-- The parts of a numeral; the fraction has no digits if it is left out. -/
structure Numeral where
  negative : Bool
  whole : List Char
  fraction : List Char
  exponent : Option Int
  deriving DecidableEq, Repr, Inhabited

/-- Reads one or more digits. -/
def readDigits (text : List Char) : Except Failure (List Char × List Char) :=
  match text with
  | [] => .error .truncated
  | c :: _ =>
    if c.isDigit then .ok (text.takeWhile Char.isDigit, text.dropWhile Char.isDigit)
    else .error .malformed

/-- Reads digits, of which the first is a zero only if it is the only one. -/
def readWhole (text : List Char) : Except Failure (List Char × List Char) :=
  match readDigits text with
  | .error failure => .error failure
  | .ok (digits, rest) =>
    if digits.head? = some '0' ∧ digits ≠ ['0'] then .error .malformed else .ok (digits, rest)

/-- Reads a fraction, if there is one. -/
def readFraction (text : List Char) : Except Failure (List Char × List Char) :=
  match text with
  | '.' :: rest => readDigits rest
  | _ => .ok ([], text)

/-- Reads an exponent from just past its `e`. One that 64 bits do not hold is
read as their limit: no numeral is long enough for the difference to matter. -/
def readExponentDigits (text : List Char) : Except Failure (Int × List Char) :=
  let negative := text.head? == some '-'
  let unsigned := if negative || text.head? == some '+' then text.tail else text
  match readDigits unsigned with
  | .error failure => .error failure
  | .ok (digits, rest) =>
    let n := (Decimal.toNatBelow? Decimal.unsignedLimit digits).getD Decimal.unsignedLimit
    .ok (if negative then -(n : Int) else n, rest)

/-- Reads an exponent, if there is one. -/
def readExponent (text : List Char) : Except Failure (Option Int × List Char) :=
  match text with
  | [] => .ok (none, [])
  | c :: rest =>
    if c = 'e' ∨ c = 'E' then
      match readExponentDigits rest with
      | .error failure => .error failure
      | .ok (exponent, rest) => .ok (some exponent, rest)
    else .ok (none, text)

/-- Reads a numeral. -/
def readNumeral (text : List Char) : Except Failure (Numeral × List Char) :=
  let negative := text.head? == some '-'
  match readWhole (if negative then text.tail else text) with
  | .error failure => .error failure
  | .ok (whole, rest) =>
    match readFraction rest with
    | .error failure => .error failure
    | .ok (fraction, rest) =>
      match readExponent rest with
      | .error failure => .error failure
      | .ok (exponent, rest) => .ok (⟨negative, whole, fraction, exponent⟩, rest)

/-- Appends digits to a number as long as 64 bits hold it; the second part is
how many were left out. -/
def accumulate : List Char → Nat → Nat × Nat
  | [], n => (n, 0)
  | digit :: digits, n =>
    let next := 10 * n + (digit.toNat - '0'.toNat)
    if next < Decimal.unsignedLimit then accumulate digits next else (n, digits.length + 1)

/-- The powers of ten within the range of doubles, from the zeroth to the 308th,
each as the double nearest to it. -/
def powersOfTen : Array Float := Array.ofFn fun n : Fin 309 => Float.ofScientific 1 false n

/-- `significand * 10 ^ exponent` as a double, `none` beyond their range. The
powers of ten go up to the 308th; a smaller number takes two steps. -/
def scaled? (significand : Nat) (exponent : Int) : Option Float :=
  let x := significand.toUInt64.toFloat
  let power (n : Nat) : Float := powersOfTen.getD n 0
  if 0 ≤ exponent then
    if exponent ≤ 308 then
      let y := x * power exponent.toNat
      if y.isInf then none else some y
    else if significand = 0 then some 0.0
    else none
  else if -308 ≤ exponent then some (x / power (-exponent).toNat)
  else if -616 ≤ exponent then some (x / power 308 / power (-exponent - 308).toNat)
  else some 0.0

/-- The number a numeral stands for. -/
def Numeral.value (numeral : Numeral) : Except Failure Number :=
  let (significand, dropped) := accumulate numeral.whole 0
  if dropped = 0 ∧ numeral.fraction = [] ∧ numeral.exponent = none then
    if !numeral.negative then .ok (.integer significand)
    else if 0 < significand ∧ significand ≤ Decimal.signedLimit then .ok (.integer (-significand))
    else .ok (.float (-significand.toUInt64.toFloat))
  else
    let (significand, unused) := accumulate numeral.fraction significand
    let places : Int := numeral.fraction.length - unused
    match scaled? significand (dropped - places + numeral.exponent.getD 0) with
    | none => .error .malformed
    | some x => .ok (.float (if numeral.negative then -x else x))

theorem readDigits_length {text digits rest : List Char}
    (h : readDigits text = .ok (digits, rest)) : rest.length < text.length := by
  unfold readDigits at h
  split at h
  · simp at h
  · rename_i c cs
    split at h
    · next hc =>
      have := (List.dropWhile_suffix Char.isDigit (l := cs)).length_le
      simp only [List.dropWhile_cons, hc, if_true, Except.ok.injEq, Prod.mk.injEq] at h
      rw [← h.2]
      simp only [List.length_cons]; omega
    · simp at h

theorem readWhole_length {text digits rest : List Char}
    (h : readWhole text = .ok (digits, rest)) : rest.length < text.length := by
  unfold readWhole at h
  grind [→ readDigits_length]

theorem readFraction_length {text digits rest : List Char}
    (h : readFraction text = .ok (digits, rest)) : rest.length ≤ text.length := by
  unfold readFraction at h
  grind [→ readDigits_length]

theorem readExponentDigits_length {text rest : List Char} {exponent : Int}
    (h : readExponentDigits text = .ok (exponent, rest)) : rest.length < text.length := by
  unfold readExponentDigits at h
  dsimp only at h
  split at h
  · simp at h
  · rename_i hd
    have := readDigits_length hd
    have : text.tail.length ≤ text.length := by simp
    grind

theorem readExponent_length {text rest : List Char} {exponent : Option Int}
    (h : readExponent text = .ok (exponent, rest)) : rest.length ≤ text.length := by
  unfold readExponent at h
  grind [→ readExponentDigits_length]

theorem readNumeral_length {text rest : List Char} {numeral : Numeral}
    (h : readNumeral text = .ok (numeral, rest)) : rest.length < text.length := by
  unfold readNumeral at h
  have : text.tail.length ≤ text.length := by simp
  grind [→ readWhole_length, → readFraction_length, → readExponent_length]

end RawJson.Json
