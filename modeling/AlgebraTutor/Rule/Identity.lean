/-
The identities of the operators, and the rules that bring signs and fractions into their
usual places.
-/
import AlgebraTutor.Rule.Table

namespace AlgebraTutor

namespace Identity

open Pattern.Wildcard

/-- Removing a member makes a list shorter. -/
theorem length_removeFirst? {α : Type} {test : α → Bool} :
    ∀ {as rest : List α}, Expr.removeFirst? test as = some rest → rest.length < as.length := by
  intro as
  induction as with
  | nil => intro rest h; simp [Expr.removeFirst?] at h
  | cons a as ih =>
      intro rest h
      rw [Expr.removeFirst?] at h
      split at h
      · cases h; exact Nat.lt_succ_self _
      · obtain ⟨rest', hrest', rfl⟩ := Option.map_eq_some_iff.1 h
        exact Nat.succ_lt_succ (ih hrest')

/-- Tells whether terms cancel in pairs of opposites, apart from terms that are zero.  Each term
comes with the answer to whether it is zero. -/
def termsCancel (terms : List (Expr × Bool)) : Bool :=
  match terms with
  | [] => true
  | (term, isZero) :: rest =>
      match _h : Expr.removeFirst? (fun other => other.1.alike term.negated) rest with
      | some others => termsCancel others
      | none => isZero && termsCancel rest
termination_by terms.length
decreasing_by
  · have := length_removeFirst? _h; simp only [List.length_cons]; omega
  · simp only [List.length_cons]; omega

mutual

/-- Tells whether a tree is zero as it is written: the constant zero, or a sum whose terms
cancel, such as `x - x`. -/
def isZero : Expr → Bool
  | .const value => value == 0
  | .op .add args _ => termsCancel (withIsZero args)
  | _ => false

/-- The trees of a list, each with the answer to whether it is zero. -/
def withIsZero : List Expr → List (Expr × Bool)
  | [] => []
  | e :: es => (e, isZero e) :: withIsZero es

end

/-- Zero divided by something, unless that is zero too. -/
def reduceZeroNumerator : Builder := fun _ b => do
  if isZero (← b.get? "n1") then none else return .const 0

/-- The rules for identities as they are written. -/
def table : List RuleText := [
  .structural .removeAddingZero "n1 + 0" "n1",
  .structural .removeMultiplyingByOne "n1 * 1" "n1",
  .structural .multiplyByZero "n1 * 0" "0",
  .structural .removeExponentByOne "n1 ^ 1" "n1",
  .structural .reduceExponentByZero "n1 ^ 0" "1",
  .structural .removeDividingByOne "n1 / 1" "n1",
  .structural .divideByNegativeOne "n1 / -1" "-n1",
  .structural .removeMultiplyingByNegativeOne "-1 * n1" "-n1",
  .structural .resolveDoubleMinus "-(-n1)" "n1",
  .computed .reduceZeroNumerator "0 / n1" reduceZeroNumerator,
  .structural .removeExponentBaseOne "1 ^ n1" "1",
  .structural .multiplyNegatives "-n1 * -n2" "n1 * n2",
  .structural .cancelMinuses "-n1 / -n2" "n1 / n2",
  .structural .multiplyByInverse "n1 / (n2 / n3)" "n1 * n3 / n2",
  .structural .simplifyNestedFraction "(n1 / n2) / n3" "n1 / (n2 * n3)",
  .structural .multiplyByFraction "n1 * (n2 / n3)" "(n1 * n2) / n3"]

/-- The rules for identities. -/
def rules : List RuleSpec := [
  .structural .removeAddingZero (n1 + 0) n1,
  .structural .removeMultiplyingByOne (n1 * 1) n1,
  .structural .multiplyByZero (n1 * 0) 0,
  .structural .removeExponentByOne (n1.pow 1) n1,
  .structural .reduceExponentByZero (n1.pow 0) 1,
  .structural .removeDividingByOne (n1 / 1) n1,
  .structural .divideByNegativeOne (n1 / -1) (-n1),
  .structural .removeMultiplyingByNegativeOne (-1 * n1) (-n1),
  .structural .resolveDoubleMinus (-(-n1)) n1,
  .computed .reduceZeroNumerator (0 / n1) reduceZeroNumerator,
  .structural .removeExponentBaseOne (.pow 1 n1) 1,
  .structural .multiplyNegatives (-n1 * -n2) (n1 * n2),
  .structural .cancelMinuses (-n1 / -n2) (n1 / n2),
  .structural .multiplyByInverse (n1 / (n2 / n3)) (n1 * n3 / n2),
  .structural .simplifyNestedFraction ((n1 / n2) / n3) (n1 / (n2 * n3)),
  .structural .multiplyByFraction (n1 * (n2 / n3)) ((n1 * n2) / n3)]

end Identity

end AlgebraTutor
