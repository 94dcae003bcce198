/-
Arithmetic on constants, and the slips that go with it.

A division by zero is never carried out, and a power only if its exponent and the size of
its result stay within limits.
-/
import AlgebraTutor.Rule.Table

namespace AlgebraTutor

namespace Arithmetic

open Pattern.Wildcard

/-- The largest exponent of a power that is worked out. -/
def maxExponent : Nat := 64

/-- The largest size of a power that is worked out, in bits. -/
def maxPowerBits : Nat := 4096

/-! ### Numbers from bindings -/

/-- The quotient of two bound constants. -/
def fraction? (numerator denominator : String) (b : Bindings) : Option Rat := do
  let d ← b.constant? denominator
  if d = 0 then none else return (← b.constant? numerator) / d

/-- The sum of the two operands. -/
def sum? (b : Bindings) : Option Rat := return (← b.constant? "c1") + (← b.constant? "c2")

/-- The product of the two operands. -/
def product? (b : Bindings) : Option Rat := return (← b.constant? "c1") * (← b.constant? "c2")

/-- The number of bits of a natural number. -/
def bitLength (n : Nat) : Nat := if n = 0 then 0 else n.log2 + 1

/-! ### Replacements -/

/-- A sum, such as `4 + 3 = 7`. -/
def add : Builder := fun _ b => (sum? b).map Expr.ofRat

/-- A sum that is one too large, such as `4 + 3 = 8`. -/
def addedOneTooMany : Builder := fun _ b => (sum? b).map fun q => Expr.ofRat (q + 1)

/-- A sum that is one too small, such as `4 + 3 = 6`. -/
def addedOneTooFew : Builder := fun _ b => (sum? b).map fun q => Expr.ofRat (q - 1)

/-- A product, such as `4 * 3 = 12`, which is also what some slips make of other operations. -/
def multiply : Builder := fun _ b => (product? b).map Expr.ofRat

/-- A sum in place of a difference, such as `5 - 3 = 8`. -/
def addedInsteadOfSubtracted : Builder := fun _ b => do
  let p ← b.constant? "c1"
  let q ← b.constant? "c2"
  if 0 ≤ q then none else return Expr.ofRat (p - q)

/-- A product with one addend too many, such as `4 * 3 = 16`. -/
def multipliedOneTooMany : Builder := fun _ b => do
  let p ← b.constant? "c1"
  return Expr.ofRat ((← product? b) + p)

/-- A product with one addend too few, such as `4 * 3 = 8`. -/
def multipliedOneTooFew : Builder := fun _ b => do
  let p ← b.constant? "c1"
  return Expr.ofRat ((← product? b) - p)

/-- A quotient in place of a product, such as `4 * 3 = 4/3`. -/
def dividedInsteadOfMultiplied : Builder := fun _ b => (fraction? "c1" "c2" b).map Expr.ofRat

/-- A quotient that is an integer, such as `12/3 = 4`. -/
def divide : Builder := fun _ b => do
  let q ← fraction? "c1" "c2" b
  if q.den = 1 then return .const q else none

/-- A fraction of integers in lowest terms, such as `6/4 = 3/2`. -/
def simplifyFraction : Builder := fun _ b => do
  let _ ← b.integer? "c1"
  let _ ← b.integer? "c2"
  return Expr.ofRat (← fraction? "c1" "c2" b)

/-- A power with an integer exponent, such as `2^3 = 8` and `2^-2 = 1/4`. -/
def power : Builder := fun _ b => do
  let base ← b.constant? "c1"
  let exponent ← b.integer? "c2"
  let magnitude := exponent.natAbs
  let bits := max (bitLength base.num.natAbs) (bitLength base.den)
  if maxExponent < magnitude ∨ maxPowerBits < bits * magnitude then none
  else
    let value := base.pow magnitude
    if 0 ≤ exponent then return Expr.ofRat value
    else if value = 0 then none
    else return Expr.quotient (.const 1) (Expr.ofRat value)

/-- A sum of fractions, such as `1/2 + 1/3 = 5/6`. -/
def addFractions : Builder := fun _ b => do
  return Expr.ofRat ((← fraction? "c1" "c2" b) + (← fraction? "c3" "c4" b))

/-- A sum of fractions taken above and below the line, such as `1/2 + 1/3 = 2/5`. -/
def addedDenominators : Builder := fun _ b => do
  let numerator := (← b.constant? "c1") + (← b.constant? "c3")
  let denominator := (← b.constant? "c2") + (← b.constant? "c4")
  if denominator = 0 then none else return Expr.quotient (.const numerator) (.const denominator)

/-- A sum of a number and a fraction, such as `1 + 1/2 = 3/2`. -/
def addIntegerAndFraction : Builder := fun _ b => do
  return Expr.ofRat ((← fraction? "c2" "c3" b) + (← b.constant? "c1"))

/-- A product of fractions, such as `1/2 * 2/3 = 1/3`. -/
def multiplyFractions : Builder := fun _ b => do
  return Expr.ofRat ((← fraction? "c1" "c2" b) * (← fraction? "c3" "c4" b))

/-! ### The table -/

/-- The slips in a sum. -/
def sumSlips : List Misstep := [
  ⟨.addedOneTooMany, addedOneTooMany⟩,
  ⟨.addedOneTooFew, addedOneTooFew⟩,
  ⟨.multipliedInsteadOfAdded, multiply⟩,
  ⟨.addedInsteadOfSubtracted, addedInsteadOfSubtracted⟩]

/-- The slips in a product. -/
def productSlips : List Misstep := [
  ⟨.multipliedOneTooMany, multipliedOneTooMany⟩,
  ⟨.multipliedOneTooFew, multipliedOneTooFew⟩,
  ⟨.addedInsteadOfMultiplied, add⟩,
  ⟨.dividedInsteadOfMultiplied, dividedInsteadOfMultiplied⟩]

/-- The rules of arithmetic as they are written. -/
def table : List RuleText := [
  .withMissteps (.computed .simplifyArithmeticAdd "c1 + c2" add) sumSlips,
  .withMissteps (.computed .simplifyArithmeticMultiply "c1 * c2" multiply) productSlips,
  .withMissteps (.computed .simplifyArithmeticDivide "c1 / c2" divide) [
    ⟨.multipliedInsteadOfDivided, multiply⟩],
  .computed .simplifyFraction "c1 / c2" simplifyFraction,
  .withMissteps (.computed .simplifyArithmeticPower "c1 ^ c2" power) [
    ⟨.multipliedInsteadOfPower, multiply⟩],
  .withMissteps (.computed .addFractions "c1 / c2 + c3 / c4" addFractions) [
    ⟨.addedDenominators, addedDenominators⟩],
  .computed .addIntegerAndFraction "c1 + c2 / c3" addIntegerAndFraction,
  .computed .multiplyFractions "(c1 / c2) * (c3 / c4)" multiplyFractions]

/-- The rules of arithmetic. -/
def rules : List RuleSpec := [
  .withMissteps (.computed .simplifyArithmeticAdd (c1 + c2) add) sumSlips,
  .withMissteps (.computed .simplifyArithmeticMultiply (c1 * c2) multiply) productSlips,
  .withMissteps (.computed .simplifyArithmeticDivide (c1 / c2) divide) [
    ⟨.multipliedInsteadOfDivided, multiply⟩],
  .computed .simplifyFraction (c1 / c2) simplifyFraction,
  .withMissteps (.computed .simplifyArithmeticPower (c1.pow c2) power) [
    ⟨.multipliedInsteadOfPower, multiply⟩],
  .withMissteps (.computed .addFractions (c1 / c2 + c3 / c4) addFractions) [
    ⟨.addedDenominators, addedDenominators⟩],
  .computed .addIntegerAndFraction (c1 + c2 / c3) addIntegerAndFraction,
  .computed .multiplyFractions ((c1 / c2) * (c3 / c4)) multiplyFractions]

end Arithmetic

end AlgebraTutor
