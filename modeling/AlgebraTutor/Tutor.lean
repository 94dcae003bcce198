/-
The operations of the tutor, each in a session of its own.
-/
import AlgebraTutor.Assessment.Equation

namespace AlgebraTutor

namespace Tutor

/-- The result of an operation in a fresh session. -/
def inFreshSession {α : Type} (operation : SessionM α) : Except Error α :=
  (operation.run.run .fresh).1

/-- Simplifies an expression. -/
def simplify (text : String) (options : SimplifyOptions) : Except Error Simplified :=
  inFreshSession (Session.simplify text options)

/-- Tells whether two texts denote the same expression. -/
def areEqual (a b : String) : Except Error Bool := inFreshSession (Session.areEqual a b)

/-- Grades the step from one expression to another. -/
def assessStep (before after : String) : Except Error (List StepInfo) :=
  inFreshSession (Session.assessStep before after)

/-- Grades the steps between some expressions. -/
def assessSteps (texts : List String) : Except Error (List (List StepInfo)) :=
  inFreshSession (Session.assessSteps texts)

/-- Grades the step from one equation to another. -/
def assessEquation (before after : String) : Except Error EquationStepInfo :=
  inFreshSession (Session.assessEquation before after)

/-- Solves an equation. -/
def solve (equation unknown : String) : Except Error Solution :=
  inFreshSession (Session.solve equation (some unknown))

end Tutor

end AlgebraTutor
