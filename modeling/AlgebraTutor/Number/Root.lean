/-
Exact roots of integers, and factorisation by trial division.

The root of a natural number is found bit by bit from the top, so it is the greatest
number whose power does not exceed the radicand.
-/
import AlgebraTutor.Number.Decimal

namespace AlgebraTutor

/-- Adds to `root` each of the lowest `bits` bits that keeps its `k`-th power within `n`. -/
def rootBits (n k : Nat) : (bits root : Nat) → Nat
  | 0, root => root
  | bits + 1, root =>
      let larger := root + Nat.pow 2 bits
      rootBits n k bits (if larger.pow k ≤ n then larger else root)

/-- The greatest number whose `k`-th power is at most `n`, for positive `k`. -/
def floorRoot (n k : Nat) : Nat := rootBits n k (n.log2 / k + 1) 0

/-- The `k`-th root of `n`, if it is an integer.  Negative numbers have odd roots only. -/
def exactRoot? (n : Int) (k : Nat) : Option Int :=
  if k = 0 ∨ (n < 0 ∧ k % 2 = 0) then none
  else
    let root := floorRoot n.natAbs k
    if root.pow k = n.natAbs then some (if n < 0 then -(root : Int) else root) else none

/-- What is left is at most what there was. -/
theorem factorOut_le (p n : Nat) : (factorOut p n).2 ≤ n := by
  fun_induction factorOut p n with
  | case1 n h count rest hrec ih =>
      rw [hrec] at ih
      exact Nat.le_trans ih (Nat.div_le_self n p)
  | case2 n h => exact Nat.le_refl n

/-- The prime powers of `n`, given that it has no divisor between 1 and `divisor`.  A divisor is taken
out as often as it divides before the next one is tried, and what is left when the square of the
divisor exceeds it is a prime. -/
def primePowersFrom (divisor n : Nat) : List (Nat × Nat) :=
  if h : 1 < divisor ∧ divisor * divisor ≤ n then
    let split := factorOut divisor n
    if split.1 = 0 then primePowersFrom (divisor + 1) split.2
    else (divisor, split.1) :: primePowersFrom (divisor + 1) split.2
  else if 1 < n then [(n, 1)] else []
termination_by n + 1 - divisor
decreasing_by
  all_goals
    have hsquare : divisor ≤ divisor * divisor := Nat.le_mul_of_pos_left divisor (by omega)
    have hrest : (factorOut divisor n).2 ≤ n := factorOut_le divisor n
    omega

/-- The primes that divide a positive number, in ascending order, each with its exponent. -/
def primePowers (n : Nat) : List (Nat × Nat) := primePowersFrom 2 n

end AlgebraTutor
