/-
Steps: single reductions of a whole expression, as they are shown.
-/
import AlgebraTutor.Change
import AlgebraTutor.Expr.Printer

namespace AlgebraTutor

/-- A wrong result of a step. -/
structure MistakeStep where
  kind : Mistake
  /-- The whole expression as it would read after the mistake. -/
  after : String
deriving DecidableEq, Repr, Inhabited

/-- One reduction of an expression. -/
structure Step where
  /-- The identifier of the rule. -/
  rule : String
  change : Change
  before : String
  after : String
  /-- Wrong results of the same rule at the same place, where they were asked for. -/
  mistakes : List MistakeStep
deriving DecidableEq, Repr, Inhabited

namespace Step

/-- A step that no rule made. -/
def plain (change : Change) (before after : String) : Step :=
  ⟨change.name, change, before, after, []⟩

/-- The step that begins every trace. -/
def opening (e : Expr) : Step := plain .givenExpression e.text e.text

end Step

end AlgebraTutor
