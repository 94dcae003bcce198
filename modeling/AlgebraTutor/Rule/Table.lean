/-
Rules as they are written in a table.

The patterns of a rule are written as formulas.  A table is made into a set of rules if all of its
patterns can be read, and no wildcard stands on the right of a rule that is not on its left.
-/
import AlgebraTutor.Rule.Basic

namespace AlgebraTutor

/-- What a rule puts in place of what it matches, as written. -/
inductive BodyText
  | structural (rhs : String)
  | computed (build : Builder)

/-- A rule as written. -/
structure RuleText where
  change : Change
  lhs : String
  body : BodyText
  missteps : List Misstep

namespace RuleText

/-- The rule that replaces one pattern by another. -/
def structural (change : Change) (lhs rhs : String) : RuleText := ⟨change, lhs, .structural rhs, []⟩

/-- The rule that replaces a pattern by what is computed from a match. -/
def computed (change : Change) (lhs : String) (build : Builder) : RuleText :=
  ⟨change, lhs, .computed build, []⟩

/-- The rule with these missteps. -/
def withMissteps (text : RuleText) (missteps : List Misstep) : RuleText :=
  { text with missteps := missteps }

end RuleText

/-- Reads the patterns of a rule. -/
def RuleText.read (text : RuleText) : Except Error RuleSpec :=
  match text.body with
  | .structural rhs => do
      return (← RuleSpec.parse text.change text.lhs rhs).withMissteps text.missteps
  | .computed build => do
      return (RuleSpec.computed text.change (← Pattern.parse text.lhs) build).withMissteps
        text.missteps

/-- Reads the rules of a group. -/
def Group.read (group : Group RuleText) : Except Error (Group RuleSpec) := do
  return ⟨group.name, ← group.rules.mapM RuleText.read⟩

/-- The set of the rules that the groups of a table hold. -/
def RuleSet.ofTable (table : List (Group RuleText)) : Except Error RuleSet := do
  return ofGroups (← table.mapM Group.read)

end AlgebraTutor
