/-
Rules that cancel terms and factors, and rules that collect like ones.

Constants that cancel, as in `3 - 3`, are left to arithmetic.
-/
import AlgebraTutor.Rule.Table

namespace AlgebraTutor

open Pattern.Wildcard

namespace Cancelling

/-- A power divided by its base, such as `x^3/x = x^2`. -/
def baseFromPower : Builder := fun _ b => do
  let exponent := (← b.constant? "c1") - 1
  return Expr.power (← b.get? "v1") (Expr.ofRat exponent)

/-- A power divided by another one of the same base, such as `x^2/x^5 = 1/x^3`. -/
def powers : Builder := fun _ b => do
  let base ← b.get? "v1"
  let difference := (← b.constant? "c1") - (← b.constant? "c2")
  if 0 ≤ difference then return Expr.power base (Expr.ofRat difference)
  else return Expr.quotient (.const 1) (Expr.power base (Expr.ofRat (-difference)))

/-- The rules that cancel terms and factors, as they are written. -/
def table : List RuleText := [
  .structural .cancelTerms "n1 + -n1" "0",
  .structural .cancelFactors "n1 * n2 / n1" "n2",
  .structural .divideBySelf "v1 / v1" "1",
  .structural .cancelCommonFactor "(n1 * n2) / (n1 * n3)" "n2 / n3",
  .structural .cancelNumerator "n1 / (n1 * n2)" "1 / n2",
  .computed .cancelFactors "v1 ^ c1 / v1" baseFromPower,
  .computed .cancelFactors "v1 ^ c1 / v1 ^ c2" powers]

/-- The rules that cancel terms and factors. -/
def rules : List RuleSpec := [
  .structural .cancelTerms (n1 + -n1) 0,
  .structural .cancelFactors (n1 * n2 / n1) n2,
  .structural .divideBySelf (v1 / v1) 1,
  .structural .cancelCommonFactor ((n1 * n2) / (n1 * n3)) (n2 / n3),
  .structural .cancelNumerator (n1 / (n1 * n2)) (1 / n2),
  .computed .cancelFactors (v1.pow c1 / v1) baseFromPower,
  .computed .cancelFactors (v1.pow c1 / v1.pow c2) powers]

end Cancelling

namespace Collecting

/-- A number of times the collected term. -/
def scaled (coefficient : Rat) (b : Bindings) : Option Expr := do
  return Expr.product [Expr.ofRat coefficient, ← b.get? "v1"]

/-- Two multiples of a term, such as `2x + 3x = 5x`. -/
def addCoefficients : Builder := fun _ b => do
  scaled ((← b.constant? "c1") + (← b.constant? "c2")) b

/-- A multiple of a term and the term, such as `2x + x = 3x`. -/
def addOneToCoefficient : Builder := fun _ b => do scaled ((← b.constant? "c1") + 1) b

/-- A multiple of a term less the term, such as `2x - x = x`. -/
def subtractOneFromCoefficient : Builder := fun _ b => do scaled ((← b.constant? "c1") - 1) b

/-- A power times its base, such as `x^2 * x = x^3`. -/
def addOneToExponent : Builder := fun _ b => do
  let exponent := (← b.constant? "c1") + 1
  return Expr.power (← b.get? "v1") (Expr.ofRat exponent)

/-- The slip of multiplying the exponents of a product of powers. -/
def multipliedExponents : Builder := fun _ b => do
  return Expr.power (← b.get? "v1") (Expr.product [← b.get? "n1", ← b.get? "n2"])

/-- The rules that collect like terms and like factors, as they are written. -/
def table : List RuleText := [
  .computed .collectLikeTerms "c1 * v1 + c2 * v1" addCoefficients,
  .computed .collectLikeTerms "c1 * v1 + v1" addOneToCoefficient,
  .computed .collectLikeTerms "c1 * v1 + -v1" subtractOneFromCoefficient,
  .structural .collectLikeTerms "v1 + v1" "2 * v1",
  .structural .multiplyLikeFactors "v1 * v1" "v1 ^ 2",
  .computed .addExponentOfOne "v1 ^ c1 * v1" addOneToExponent,
  .withMissteps (.structural .addExponents "v1 ^ n1 * v1 ^ n2" "v1 ^ (n1 + n2)") [
    ⟨.multipliedExponents, multipliedExponents⟩]]

/-- The rules that collect like terms and like factors. -/
def rules : List RuleSpec := [
  .computed .collectLikeTerms (c1 * v1 + c2 * v1) addCoefficients,
  .computed .collectLikeTerms (c1 * v1 + v1) addOneToCoefficient,
  .computed .collectLikeTerms (c1 * v1 + -v1) subtractOneFromCoefficient,
  .structural .collectLikeTerms (v1 + v1) (2 * v1),
  .structural .multiplyLikeFactors (v1 * v1) (v1.pow 2),
  .computed .addExponentOfOne (v1.pow c1 * v1) addOneToExponent,
  .withMissteps (.structural .addExponents (v1.pow n1 * v1.pow n2) (v1.pow (n1 + n2))) [
    ⟨.multipliedExponents, multipliedExponents⟩]]

end Collecting

end AlgebraTutor
