/-
The verdict on a step from one expression to another.
-/
import AlgebraTutor.Change
import AlgebraTutor.Operation
import AlgebraTutor.Step

namespace AlgebraTutor

/-- The verdict on one step. -/
structure StepInfo where
  isValid : Bool
  /-- The expression after the step still simplifies to the answer of the one at the start. -/
  reachesAnswer : Bool
  before : String
  after : String
  /-- What should have come out of an invalid step. -/
  shouldBe : Option String
  change : Change
  /-- The mistake in an invalid step. -/
  mistake : Option Mistake
  /-- The kinds of change that were possible. -/
  available : List Change
  /-- What was done to the side of an equation of which this is a step. -/
  added : Option NumOp
  /-- What was taken away from the side of an equation of which this is a step. -/
  removed : Option NumOp
deriving DecidableEq, Repr, Inhabited

/-- The number of minus signs in a text. -/
def countMinus (s : String) : Nat := s.toList.count '-'

namespace StepInfo

/-- The verdict on a step that changes nothing. -/
def unchanged (before after : String) : StepInfo :=
  ⟨true, true, before, after, none, .noChange, none, [], none, none⟩

/-- The verdict with the name of subtraction for an addition that took away a minus sign.  A
difference is a sum with a negative term, so the rules know only addition; signs are counted in
the texts, so a sign that moved elsewhere counts too. -/
def relabelSubtraction (info : StepInfo) : StepInfo :=
  if info.change = .simplifyArithmeticAdd ∧ countMinus info.after < countMinus info.before then
    { info with change := .simplifyArithmeticSubtract }
  else info

end StepInfo

/-- The kinds of change among some steps, each once. -/
def changesOf (steps : List Step) : List Change :=
  steps.foldl (fun found step =>
    if found.contains step.change then found else found ++ [step.change]) []

end AlgebraTutor
