/-
The standard set of rules.

The order of the groups, and of the rules in a group, decides which of several possible steps
is taken first.  The groups are there twice, as they are written and with the patterns that the
texts are read as.
-/
import AlgebraTutor.Rule.Arithmetic
import AlgebraTutor.Rule.Distribution
import AlgebraTutor.Rule.Functions
import AlgebraTutor.Rule.Identity
import AlgebraTutor.Rule.Terms

namespace AlgebraTutor

namespace RuleSet

/-- The standard groups as they are written, in order of priority. -/
def standardTable : List (Group RuleText) := [
  ⟨"decimal", Decimals.table⟩,
  ⟨"log", Logarithms.table⟩,
  ⟨"identity", Identity.table⟩,
  ⟨"cancel", Cancelling.table⟩,
  ⟨"like terms", Collecting.table⟩,
  ⟨"function", Functions.table⟩,
  ⟨"distribute", Distribution.table⟩,
  ⟨"root of power", Roots.powerTable⟩,
  ⟨"root of constant", Roots.constantTable⟩,
  ⟨"expand", Distribution.expansionTable⟩,
  ⟨"arithmetic", Arithmetic.table⟩]

/-- The standard groups, in order of priority. -/
def standardGroups : List (Group RuleSpec) := [
  ⟨"decimal", Decimals.rules⟩,
  ⟨"log", Logarithms.rules⟩,
  ⟨"identity", Identity.rules⟩,
  ⟨"cancel", Cancelling.rules⟩,
  ⟨"like terms", Collecting.rules⟩,
  ⟨"function", Functions.rules⟩,
  ⟨"distribute", Distribution.rules⟩,
  ⟨"root of power", Roots.powerRules⟩,
  ⟨"root of constant", Roots.constantRules⟩,
  ⟨"expand", Distribution.expansions⟩,
  ⟨"arithmetic", Arithmetic.rules⟩]

/-- The standard rules. -/
def standard : RuleSet := ofGroups standardGroups

end RuleSet

end AlgebraTutor
