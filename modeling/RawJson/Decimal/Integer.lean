/-
Integers in decimal: the shortest digits, with a minus sign in front of a
negative number. Reading takes any number of leading zeros.
-/
namespace RawJson.Decimal

/-- The digits of an integer. -/
def ofInt : Int → String
  | .ofNat n => n.repr
  | .negSucc n => "-" ++ (n + 1).repr

/-- Signed 64-bit numbers are below this, and not below its negative. -/
abbrev signedLimit : Nat := 0x8000000000000000

/-- Unsigned 64-bit numbers are below this. -/
abbrev unsignedLimit : Nat := 0x10000000000000000

/-- The number that a list of digits stands for. -/
def toNat (digits : List Char) : Nat := Nat.ofDigitChars 10 digits 0

/-- The number that digits stand for, if it is below `limit`. Digits are looked
at no further than to the first that takes the number there. -/
def toNatBelow? (limit : Nat) (digits : List Char) : Option Nat := extend? 0 digits
where
  /-- The number that `n` becomes with more digits behind it. -/
  extend? (n : Nat) : List Char → Option Nat
    | [] => if n < limit then some n else none
    | digit :: digits =>
      if n < limit then extend? (10 * n + (digit.toNat - '0'.toNat)) digits else none

/-- A sign and digits as a 64-bit number, if there is a digit and the number
fits. -/
def toInt64? (negative : Bool) (digits : List Char) : Option Int64 :=
  if digits = [] then none
  else if negative then
    (toNatBelow? (signedLimit + 1) digits).map fun n => Int64.ofInt (-n)
  else (toNatBelow? signedLimit digits).map fun n => Int64.ofInt n

theorem toNat_repr (n : Nat) : toNat n.repr.toList = n := by
  simp [toNat]

theorem le_ofDigitChars (n : Nat) (digits : List Char) : n ≤ Nat.ofDigitChars 10 digits n := by
  induction digits generalizing n with
  | nil => simp
  | cons digit digits ih =>
    have := ih (10 * n + (digit.toNat - '0'.toNat))
    rw [Nat.ofDigitChars_cons]
    omega

theorem toNatBelow?.extend?_eq (limit n : Nat) (digits : List Char) :
    toNatBelow?.extend? limit n digits =
      if Nat.ofDigitChars 10 digits n < limit then some (Nat.ofDigitChars 10 digits n)
      else none := by
  induction digits generalizing n with
  | nil => simp [extend?]
  | cons digit digits ih =>
    have := le_ofDigitChars n (digit :: digits)
    rw [extend?, ih, Nat.ofDigitChars_cons] at *
    grind

/-- Reading stops early only where the number is too large. -/
theorem toNatBelow?_eq (limit : Nat) (digits : List Char) :
    toNatBelow? limit digits = if toNat digits < limit then some (toNat digits) else none :=
  toNatBelow?.extend?_eq limit 0 digits

theorem toInt64?_eq (negative : Bool) (digits : List Char) :
    toInt64? negative digits =
      let n : Int := if negative then -toNat digits else toNat digits
      if digits ≠ [] ∧ -signedLimit ≤ n ∧ n < signedLimit then some (Int64.ofInt n) else none := by
  unfold toInt64?
  simp only [toNatBelow?_eq]
  grind

theorem toInt_of_toInt64? {negative : Bool} {digits : List Char} {n : Int64}
    (h : toInt64? negative digits = some n) :
    n.toInt = if negative then -(toNat digits : Int) else toNat digits := by
  rw [toInt64?_eq] at h
  generalize (if negative then -(toNat digits : Int) else toNat digits) = m at h ⊢
  dsimp only at h
  split at h
  · next hd =>
    rw [Option.some.injEq] at h
    rw [← h, Int64.toInt_ofInt_of_le hd.2.1 hd.2.2]
  · simp at h

/-- Exactly the digits whose number fits are read. -/
theorem toInt64?_eq_some_iff {negative : Bool} {digits : List Char} {n : Int64} :
    toInt64? negative digits = some n ↔
      digits ≠ [] ∧ n.toInt = if negative then -(toNat digits : Int) else toNat digits := by
  constructor
  · intro h
    refine ⟨?_, toInt_of_toInt64? h⟩
    rintro rfl
    exact nomatch h
  · rintro ⟨hd, hn⟩
    have hlow := Int64.le_toInt n
    have hhigh := Int64.toInt_lt n
    rw [toInt64?_eq]
    dsimp only
    rw [← hn, if_pos ⟨hd, hlow, hhigh⟩, Int64.ofInt_toInt]

end RawJson.Decimal
