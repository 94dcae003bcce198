/-
Solving a linear equation for an unknown.

A move changes both sides of the equation in the same way.  After every move both sides are
simplified.  Solving ends when the unknown stands alone on the left, when no move applies, or
when the number of moves reaches its limit.
-/
import AlgebraTutor.Pattern.Match
import AlgebraTutor.Simplifier
import AlgebraTutor.Text.Blank

namespace AlgebraTutor

/-- A pattern for the two sides of an equation. -/
structure EquationPattern where
  lhs : Pattern
  rhs : Pattern

namespace EquationPattern

/-- Reads the patterns on the two sides of the first equals sign. -/
def parse (text : String) : Except Error EquationPattern :=
  let lhs := text.toList.takeWhile (· != '=')
  match text.toList.dropWhile (· != '=') with
  | [] => .error (Cause.malformedRule text).unlocated
  | _ :: rhs => do
      let left ← Pattern.parse (trimBlanks (String.ofList lhs))
      let right ← Pattern.parse (trimBlanks (String.ofList rhs))
      return ⟨left, right⟩

/-- The first bindings under which both sides match. -/
def firstMatch? (context : Context) (p : EquationPattern) (lhs rhs : Expr) :
    Except Error (Option Bindings) := do
  let left ← p.lhs.matches? context lhs
  if left.isEmpty then return none
  else return (Bindings.merge left (← p.rhs.matches? context rhs)).head?

/-- The two sides that the pattern becomes, in normal form. -/
def substitute? (p : EquationPattern) (b : Bindings) : Option (Expr × Expr) := do
  let lhs ← p.lhs.substitute? b
  let rhs ← p.rhs.substitute? b
  return (lhs.normalize, rhs.normalize)

end EquationPattern

/-- A change of both sides of an equation. -/
structure Move where
  change : EquationChange
  before : EquationPattern
  after : EquationPattern

/-- A change of both sides of an equation, as written. -/
structure MoveText where
  change : EquationChange
  before : String
  after : String

/-- Reads the patterns of a move. -/
def MoveText.read (text : MoveText) : Except Error Move := do
  return ⟨text.change, ← EquationPattern.parse text.before, ← EquationPattern.parse text.after⟩

/-- One step of a solution. -/
structure EquationStep where
  before : String
  after : String
  change : EquationChange
deriving DecidableEq, Repr, Inhabited

/-- What solving comes to. -/
structure Solution where
  lhs : Expr
  rhs : Expr
  steps : List EquationStep
  /-- The unknown stands alone on the left. -/
  solved : Bool

namespace Solver

open Pattern.Wildcard

/-- The equation that is solved, as it is written. -/
def goalText : String := "x = a1"

/-- The moves as they are written, in order of priority. -/
def table : List MoveText := [
  ⟨.swapSides, "a1 = fx1", "fx1 = a1"⟩,
  ⟨.subtractFromBothSides, "fx1 + a1 = a2", "fx1 = a2 - a1"⟩,
  ⟨.divideBothSides, "a1 * fx1 = a2", "fx1 = a2 / a1"⟩,
  ⟨.multiplyBothSides, "fx1 / a1 = a2", "fx1 = a2 * a1"⟩,
  ⟨.negateBothSides, "-fx1 = a1", "fx1 = -a1"⟩,
  ⟨.moveToLeftSide, "fx1 = fx2", "fx1 - fx2 = 0"⟩]

/-- The equation that is solved. -/
def goal : EquationPattern := ⟨x, a1⟩

/-- The moves, in order of priority. -/
def moves : List Move := [
  ⟨.swapSides, ⟨a1, fx1⟩, ⟨fx1, a1⟩⟩,
  ⟨.subtractFromBothSides, ⟨fx1 + a1, a2⟩, ⟨fx1, a2 + -a1⟩⟩,
  ⟨.divideBothSides, ⟨a1 * fx1, a2⟩, ⟨fx1, a2 / a1⟩⟩,
  ⟨.multiplyBothSides, ⟨fx1 / a1, a2⟩, ⟨fx1, a2 * a1⟩⟩,
  ⟨.negateBothSides, ⟨-fx1, a1⟩, ⟨fx1, -a1⟩⟩,
  ⟨.moveToLeftSide, ⟨fx1, fx2⟩, ⟨fx1 + -fx2, 0⟩⟩]

/-- The text of an equation. -/
def equationText (lhs rhs : Expr) : String := lhs.text ++ " = " ++ rhs.text

/-- A division by zero cannot be carried out. -/
def isBlocked (change : EquationChange) (b : Bindings) : Bool :=
  change == .divideBothSides && b.constant? "a1" == some 0

/-- The two sides after the move, if it can be made. -/
def applyMove? (context : Context) (lhs rhs : Expr) (move : Move) :
    Except Error (Option (EquationChange × Expr × Expr)) := do
  match ← move.before.firstMatch? context lhs rhs with
  | none => return none
  | some b =>
    if isBlocked move.change b then return none
    else return (move.after.substitute? b).map fun sides => (move.change, sides)

/-- The step between two equations, if they read differently. -/
def stepBetween (change : EquationChange) (before after : String) : List EquationStep :=
  if after = before then [] else [⟨before, after, change⟩]

/-- Both sides simplified, with the steps that make a difference. -/
def simplifySides (simplifier : Simplifier) (lhs rhs : Expr) :
    Except Error (Expr × Expr × List EquationStep) := do
  let (lhs', _) ← simplifier.run lhs
  let (rhs', _) ← simplifier.run rhs
  let steps := stepBetween .simplifyLhs (equationText lhs rhs) (equationText lhs' rhs) ++
    stepBetween .simplifyRhs (equationText lhs' rhs) (equationText lhs' rhs')
  return (lhs', rhs', steps)

/-- The two sides after at most `count` moves, and the steps that lead there. -/
def moveUpTo (context : Context) (simplifier : Simplifier) : (count : Nat) → (lhs rhs : Expr) →
    Except Error (Expr × Expr × List EquationStep)
  | 0, lhs, rhs => .ok (lhs, rhs, [])
  | count + 1, lhs, rhs => do
      if (← goal.firstMatch? context lhs rhs).isSome then return (lhs, rhs, [])
      else
        match ← moves.findSomeM? (applyMove? context lhs rhs) with
        | none => return (lhs, rhs, [])
        | some (change, lhs', rhs') =>
          let step : EquationStep := ⟨equationText lhs rhs, equationText lhs' rhs', change⟩
          let (lhs', rhs', simplifying) ← simplifySides simplifier lhs' rhs'
          let (lhs', rhs', later) ← moveUpTo context simplifier count lhs' rhs'
          return (lhs', rhs', step :: simplifying ++ later)

/-- Solves an equation for an unknown. -/
def solve (rules : RuleSet) (maxIterations : Nat) (unknown : String) (lhs rhs : Expr) :
    Except Error Solution := do
  let context := Context.solvingFor unknown
  let simplifier := { Simplifier.ofRules rules with maxReductions := maxIterations }
  let (lhs, rhs, simplifying) ← simplifySides simplifier lhs rhs
  let (lhs, rhs, moving) ← moveUpTo context simplifier maxIterations lhs rhs
  let solved := (← goal.firstMatch? context lhs rhs).isSome
  return ⟨lhs, rhs, simplifying ++ moving, solved⟩

end Solver

end AlgebraTutor
