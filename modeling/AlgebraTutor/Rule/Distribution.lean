/-
Rules that multiply out: products over sums, a sign over a sum, the square of a sum.
-/
import AlgebraTutor.Rule.Table

namespace AlgebraTutor

namespace Distribution

open Pattern.Wildcard

/-- The slip of giving the sign to the first term only, such as `-(a + b) = -a + b`. -/
def negatedFirstTermOnly : Builder := fun _ b => do
  return Expr.sum [(← b.get? "n1").negated, ← b.get? "n2"]

/-- The slip of squaring each term, such as `(a + b)^2 = a^2 + b^2`. -/
def squaredEachTerm : Builder := fun _ b => do
  return Expr.sum [Expr.power (← b.get? "n1") (.const 2), Expr.power (← b.get? "n2") (.const 2)]

/-- The rules that distribute, as they are written. -/
def table : List RuleText := [
  .structural .distribute "n1 * (n2 + n3)" "n1 * n2 + n1 * n3",
  .withMissteps (.structural .distributeNegativeOne "-(n1 + n2)" "-n1 + -n2") [
    ⟨.distributedNegativeToFirstTermOnly, negatedFirstTermOnly⟩]]

/-- The rules that distribute. -/
def rules : List RuleSpec := [
  .structural .distribute (n1 * (n2 + n3)) (n1 * n2 + n1 * n3),
  .withMissteps (.structural .distributeNegativeOne (-(n1 + n2)) (-n1 + -n2)) [
    ⟨.distributedNegativeToFirstTermOnly, negatedFirstTermOnly⟩]]

/-- The rules that expand powers of sums, as they are written. -/
def expansionTable : List RuleText := [
  .withMissteps
    (.structural .expandSquareOfSum "(n1 + n2) ^ 2" "n1 ^ 2 + 2 * n1 * n2 + n2 ^ 2") [
    ⟨.squaredEachTerm, squaredEachTerm⟩]]

/-- The rules that expand powers of sums. -/
def expansions : List RuleSpec := [
  .withMissteps
    (.structural .expandSquareOfSum (.pow (n1 + n2) 2) (n1.pow 2 + 2 * n1 * n2 + n2.pow 2)) [
    ⟨.squaredEachTerm, squaredEachTerm⟩]]

end Distribution

end AlgebraTutor
