/-
The shortest decimal that reads back as a given binary number.

A finite double is `mantissa * 2 ^ exponent`, and a decimal reads back as it
if it lies between the midpoints to the neighbouring doubles, those included
when the mantissa is even. All of it is computed on exact natural numbers,
over one common denominator: for one digit, two digits and so on up to the
seventeen that always suffice, the two decimals of that many digits next to
the number are tried, and of two that fit the nearer is taken.

`Layout` says how such digits are written out.
-/
namespace RawJson.Decimal

/-- A positive binary number and the width of its interval: `lowerHalf` says
that the double below is half as far away as the one above. -/
structure Binary where
  mantissa : Nat
  exponent : Int
  lowerHalf : Bool
  deriving DecidableEq, Repr, Inhabited

/-- The size of the double with these bits, its sign left out. -/
def Binary.ofBits (bits : UInt64) : Binary :=
  let fraction := (bits &&& 0xfffffffffffff).toNat
  let field := (bits >>> 52 &&& 0x7ff).toNat
  if field = 0 then ⟨fraction, -1074, false⟩
  else ⟨fraction + 0x10000000000000, (field : Int) - 1075, fraction == 0 && 1 < field⟩

/-- A number and the ends of its interval, all over `denominator`. -/
structure Interval where
  low : Nat
  value : Nat
  high : Nat
  denominator : Nat
  closed : Bool
  deriving DecidableEq, Repr, Inhabited

/-- The decimals that read back as `b`. -/
def Interval.ofBinary (b : Binary) : Interval :=
  let up := (b.exponent - 2).toNat
  { low := (4 * b.mantissa - if b.lowerHalf then 1 else 2) <<< up
    value := (4 * b.mantissa) <<< up
    high := (4 * b.mantissa + 2) <<< up
    denominator := 1 <<< (2 - b.exponent).toNat
    closed := b.mantissa % 2 == 0 }

/-- The interval with everything divided by `10 ^ power`. -/
def Interval.scale (i : Interval) (power : Int) : Interval :=
  let up := Nat.pow 10 (-power).toNat
  { i with
    low := i.low * up
    value := i.value * up
    high := i.high * up
    denominator := i.denominator * Nat.pow 10 power.toNat }

/-- Whether the whole number `n` lies in the interval. -/
def Interval.contains (i : Interval) (n : Nat) : Bool :=
  let scaled := n * i.denominator
  if i.closed then i.low ≤ scaled && scaled ≤ i.high else i.low < scaled && scaled < i.high

/-- The whole number in the interval that is next to its value, a tie going to
the even one. -/
def Interval.nearest? (i : Interval) : Option Nat :=
  let below := i.value / i.denominator
  let twice := 2 * (i.value % i.denominator)
  let upward := i.denominator < twice || (twice == i.denominator && below % 2 == 1)
  match i.contains below, i.contains (below + 1) with
  | true, true => some (if upward then below + 1 else below)
  | true, false => some below
  | false, true => some (below + 1)
  | false, false => none

/-- The power of ten of the first digit of a positive number. A power of two
is 0.30103 powers of ten; counted from the binary digits this way, the power is
the right one or the one above it, as long as the number is within the range of
doubles. -/
def Interval.magnitude (i : Interval) : Int :=
  let doublings : Int := (i.value.log2 : Int) - i.denominator.log2
  let guess := (doublings + 1) * 30103 / 100000
  let scaled := i.scale guess
  if scaled.denominator ≤ scaled.value then guess else guess - 1

/-- Decimal digits, the first of which stands for `exponent` tens. -/
structure Scientific where
  digits : List Char
  exponent : Int
  deriving DecidableEq, Repr, Inhabited

/-- `n * 10 ^ power` without zeros at the end. -/
def Scientific.ofNat (n : Nat) (power : Int) : Scientific :=
  let digits := n.repr.toList
  ⟨(digits.reverse.dropWhile (· == '0')).reverse, power + digits.length - 1⟩

/-- The interval in units of a tenth of the old ones. -/
def Interval.tenfold (i : Interval) : Interval :=
  { i with low := 10 * i.low, value := 10 * i.value, high := 10 * i.high }

/-- The first decimal that reads back, when the units of the interval are
`10 ^ power` and up to `count` numbers of digits are tried. -/
def Interval.shortest (i : Interval) (power : Int) (count : Nat) : Scientific :=
  match count with
  | 0 => ⟨[], 0⟩
  | count + 1 =>
    match i.nearest? with
    | some n => Scientific.ofNat n power
    | none => i.tenfold.shortest (power - 1) count

/-- The shortest decimal that reads back as a positive binary number. -/
def shortest (b : Binary) : Scientific :=
  let interval := Interval.ofBinary b
  let magnitude := interval.magnitude
  (interval.scale magnitude).shortest magnitude 17

/-- How digits are written: those with an exponent from `least` to `greatest`
in full, with a point and at least one digit after it, all others with the
exponent behind an `e`, its sign always given. -/
structure Layout where
  least : Int
  greatest : Int
  deriving DecidableEq, Repr, Inhabited

/-- Digits in full. -/
def Scientific.positional (s : Scientific) : String :=
  if s.exponent < 0 then
    "0." ++ String.ofList (List.replicate (-s.exponent - 1).toNat '0' ++ s.digits)
  else
    let whole := s.exponent.toNat + 1
    let padded := s.digits ++ List.replicate (whole - s.digits.length) '0'
    let fraction := s.digits.drop whole
    String.ofList (padded.take whole) ++ "." ++
      if fraction.isEmpty then "0" else String.ofList fraction

/-- Digits with an exponent. -/
def Scientific.exponential (s : Scientific) : String :=
  let sign := if s.exponent < 0 then "-" else "+"
  let point := if s.digits.length ≤ 1 then "" else "."
  String.ofList (s.digits.take 1) ++ point ++ String.ofList (s.digits.drop 1) ++ "e" ++ sign ++
    s.exponent.natAbs.repr

/-- Digits in the given layout. -/
def Scientific.text (layout : Layout) (s : Scientific) : String :=
  if layout.least ≤ s.exponent && s.exponent ≤ layout.greatest then s.positional
  else s.exponential

/-- A finite double in the given layout. -/
def ofFloat (layout : Layout) (x : Float) : String :=
  let bits := x.toBits
  let sign := if bits >>> 63 = 0 then "" else "-"
  sign ++ if bits <<< 1 = 0 then "0.0" else (shortest (Binary.ofBits bits)).text layout

end RawJson.Decimal
