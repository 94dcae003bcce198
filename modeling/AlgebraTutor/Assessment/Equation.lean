/-
Grading a step from one equation to another.

If one side is left alone, or the sides are exchanged, the step is a matter of one side at a
time.  If both sides change, each is classified on its own: it was simplified, one of its own
terms or factors was taken away, something was done to it, or none of these.  Taking something
away from one side and doing the same to the other is right, every other pair of changes is
told apart by a mistake of its own.

Where several operations explain a side the first is taken.  A step that moves several terms at
once may therefore be told as a mistake even if it is right.
-/
import AlgebraTutor.Assessment.Step
import AlgebraTutor.Operation

namespace AlgebraTutor

/-- The verdict on a step between two equations. -/
structure EquationStepInfo where
  left : List StepInfo
  right : List StepInfo
  change : EquationChange
  error : Option EquationError
deriving DecidableEq, Repr, Inhabited

/-- How one side of an equation changed. -/
inductive SideChange
  | simplified
  /-- One of its own terms or factors was taken away. -/
  | removed (operation : Operation)
  /-- Something was done to it. -/
  | added (operation : Operation)
  | unknown

namespace Assessment

/-- The texts of the two sides of an equation, which has exactly one equals sign. -/
def splitSides (equation : String) : Except Error (String × String) :=
  let text := equation.toList
  let lhs := text.takeWhile (· != '=')
  match text.dropWhile (· != '=') with
  | [] => .error Cause.notAnEquation.unlocated
  | _ :: rhs =>
      if rhs.contains '=' then .error Cause.notAnEquation.unlocated
      else .ok (trimBlanks (String.ofList lhs), trimBlanks (String.ofList rhs))

/-- Tells whether an operation on a side gives an expression with the same answer as the text. -/
def explains (before : Expr) (after : String) (operation : Operation) : SessionM Bool := do
  let performed ← Session.answer (operation.apply before).text
  let answer ← Session.answer after
  Session.areEqual performed answer

/-- The operations that may have been done to a side: what takes something away from the other
side first, then every operation with a term of one of the sides. -/
def additions (side other : Expr) : List Operation :=
  Operation.removals other ++
    Operation.withOperands (other.terms ++ side.terms ++ other.numerators)

/-- How a side of an equation changed to a text. -/
def classify (side : Expr) (after : String) (other : Expr) : SessionM SideChange := do
  let answer ← Session.answer side.text
  let afterAnswer ← Session.answer after
  if ← Session.areEqual answer afterAnswer then return .simplified
  else
    match ← (Operation.removals side).findM? (explains side after) with
    | some operation => return .removed operation
    | none =>
      match ← (additions side other).findM? (explains side after) with
      | some operation => return .added operation
      | none => return .unknown

/-- Tells whether two operations are the same. -/
def sameOperation (a b : Operation) : SessionM Bool := do
  if a.sign = b.sign then Session.areEqual a.operand.text b.operand.text else return false

/-- What becomes of an equation when something is taken away from one side and something is done
to the other. -/
def movedVerdict (a b : Operation) : SessionM (EquationChange × Option EquationError) := do
  if ← sameOperation a b then return (.sameOperationBothSides, none)
  else return (.unknown, some .notSameOpPerformed)

/-- The verdict on an equation from the changes of its sides. -/
def pairVerdict : SideChange → SideChange → SessionM (EquationChange × Option EquationError)
  | .simplified, .simplified => return (.simplifyBoth, none)
  | .removed a, .added b => movedVerdict a b
  | .added a, .removed b => movedVerdict a b
  | .added _, .added _ => return (.unknown, some .placedBothSides)
  | .removed _, .removed _ => return (.unknown, some .attemptedRemovalBothSides)
  | .removed _, _ => return (.unknown, some .removedFromLhsOnly)
  | _, .removed _ => return (.unknown, some .removedFromRhsOnly)
  | .added _, _ => return (.unknown, some .addedToLhsOnly)
  | _, .added _ => return (.unknown, some .addedToRhsOnly)
  | _, _ => return (.unknown, none)

/-- The verdicts on the steps of a side from the given text on. -/
def assessFrom (before after : String) : SessionM (List StepInfo) := do
  let answer ← Session.answer before
  assess before after answer

/-- The verdicts on the steps of one side.  If an operation was done to it, the steps begin
after the operation, and each tells what the operation was. -/
def assessSide (before : String) (side : Expr) (after : String) :
    SideChange → SessionM (List StepInfo)
  | .removed operation => do
      let infos ← assessFrom (operation.apply side).text after
      return infos.map fun info => { info with removed := some operation.report }
  | .added operation => do
      let infos ← assessFrom (operation.apply side).text after
      return infos.map fun info => { info with added := some operation.report }
  | .simplified => assessFrom before after
  | .unknown => assessFrom before after

end Assessment

namespace Session

open Assessment

/-- Grades the step from one equation to another. -/
def assessEquation (before after : String) : SessionM EquationStepInfo := do
  let (lhsText, rhsText) ← liftExcept (splitSides before)
  let (lhsText', rhsText') ← liftExcept (splitSides after)
  let lhs ← parse lhsText
  let rhs ← parse rhsText
  let _ ← parse lhsText'
  let _ ← parse rhsText'
  let lhsSame ← areEqual lhsText lhsText'
  let rhsSame ← areEqual rhsText rhsText'
  if lhsSame && rhsSame then
    return ⟨[.unchanged lhsText lhsText'], [.unchanged rhsText rhsText'], .noChange, none⟩
  let crossed ← areEqual lhsText rhsText'
  let swapped ← if crossed then areEqual rhsText lhsText' else pure false
  if swapped then
    return ⟨[.unchanged lhsText rhsText'], [.unchanged rhsText lhsText'], .swapSides, none⟩
  if rhsSame then
    let left ← assessFrom lhsText lhsText'
    return ⟨left, [.unchanged rhsText rhsText'], .simplifyLhs, none⟩
  if lhsSame then
    let right ← assessFrom rhsText rhsText'
    return ⟨[.unchanged lhsText lhsText'], right, .simplifyRhs, none⟩
  let leftChange ← classify lhs lhsText' rhs
  let rightChange ← classify rhs rhsText' lhs
  let (change, error) ← pairVerdict leftChange rightChange
  let left ← assessSide lhsText lhs lhsText' leftChange
  let right ← assessSide rhsText rhs rhsText' rightChange
  return ⟨left, right, change, error⟩

end Session

end AlgebraTutor
