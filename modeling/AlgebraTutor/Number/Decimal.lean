/-
Exact numbers written in decimal.

A decimal literal is read digit by digit into a rational number, and a rational number is
written back in decimal when its expansion ends.  The expansion of a fraction in lowest
terms ends exactly when the denominator has no prime factor but 2 and 5, and then the
larger of the two exponents is the least number of places.
-/
namespace AlgebraTutor

/-- The number written by a string of digits, most significant first. -/
def digitsValue (digits : List Char) : Nat :=
  digits.foldl (fun n c => 10 * n + (c.toNat - 48)) 0

/-- Reads digits with at most one point among them, such as `12`, `3.5` or `.25`.  There has
to be a digit on one side of the point.

The places are counted by a natural number.  With a count of 32 bits the same number is read only
if there are fewer than `2^32` places. -/
def decimal? (s : List Char) : Option Rat :=
  let whole := s.takeWhile (· != '.')
  let places := (s.dropWhile (· != '.')).drop 1
  if whole.isEmpty && places.isEmpty then none
  else if whole.all Char.isDigit && places.all Char.isDigit then
    some (mkRat (digitsValue (whole ++ places)) (Nat.pow 10 places.length))
  else none

/-- How often `p` divides `n`, and what is left of `n` when it no longer does. -/
def factorOut (p n : Nat) : Nat × Nat :=
  if 1 < p ∧ 0 < n ∧ n % p = 0 then
    let (count, rest) := factorOut p (n / p)
    (count + 1, rest)
  else (0, n)
termination_by n
decreasing_by exact Nat.div_lt_self (by omega) (by omega)

/-- The digits of a natural number. -/
def natText (n : Nat) : List Char := Nat.toDigits 10 n

/-- The digits of an integer, after a minus sign if it is negative. -/
def intText : Int → List Char
  | .ofNat n => natText n
  | .negSucc n => '-' :: natText (n + 1)

/-- The least number of decimal places that writes a fraction with this denominator. -/
def decimalPlaces? (denominator : Nat) : Option Nat :=
  let (twos, rest) := factorOut 2 denominator
  let (fives, rest) := factorOut 5 rest
  if rest = 1 then some (max twos fives) else none

/-- Digits with a point before the last `places` of them, and a digit before the point. -/
def pointedText (digits : List Char) (places : Nat) : List Char :=
  let padded := List.replicate (places + 1 - digits.length) '0' ++ digits
  let whole := padded.length - places
  padded.take whole ++ '.' :: padded.drop whole

/-- The decimal expansion of a number, if it ends.  Integers have no point. -/
def decimalText? (q : Rat) : Option (List Char) :=
  if q.den = 1 then some (intText q.num)
  else (decimalPlaces? q.den).map fun places =>
    let scaled := q.num.natAbs * Nat.pow 10 places / q.den
    let text := pointedText (natText scaled) places
    if q.num < 0 then '-' :: text else text

/-- A number as a quotient of integers, without a denominator of one. -/
def ratioText (q : Rat) : List Char :=
  if q.den = 1 then intText q.num else intText q.num ++ '/' :: natText q.den

end AlgebraTutor
