/-
Rules, and the sets they are collected in.

A rule says what a tree of a certain shape may be replaced by: either by another pattern
under the same bindings, or by a tree computed from the matched node and the bindings.  A rule
can also carry mistakes, which compute plausible but wrong replacements.

A set is made of groups in order of priority.  Every rule of a set has an identifier of its
own: the name of its change, with a number if the same change was named before.
-/
import AlgebraTutor.Change
import AlgebraTutor.Pattern.Basic

namespace AlgebraTutor

/-- Computes a replacement from the node that was matched and its bindings, or refuses. -/
abbrev Builder := (matched : Expr) → Bindings → Option Expr

/-- What a rule puts in place of what it matches. -/
inductive Body
  | structural (rhs : Pattern)
  | computed (build : Builder)

/-- A plausible but wrong replacement. -/
structure Misstep where
  kind : Mistake
  build : Builder

/-- A rule before it has an identifier. -/
structure RuleSpec where
  change : Change
  lhs : Pattern
  body : Body
  missteps : List Misstep

namespace RuleSpec

/-- The rule that replaces one pattern by another. -/
def structural (change : Change) (lhs rhs : Pattern) : RuleSpec :=
  ⟨change, lhs, .structural rhs, []⟩

/-- The rule that replaces a pattern by what is computed from a match. -/
def computed (change : Change) (lhs : Pattern) (build : Builder) : RuleSpec :=
  ⟨change, lhs, .computed build, []⟩

/-- The rule with these missteps. -/
def withMissteps (spec : RuleSpec) (missteps : List Misstep) : RuleSpec :=
  { spec with missteps := missteps }

/-- Reads a structural rule.  Every wildcard on the right has to be bound on the left. -/
def parse (change : Change) (lhs rhs : String) : Except Error RuleSpec := do
  let left ← Pattern.parse lhs
  let right ← Pattern.parse rhs
  if right.wildcards.all left.wildcards.contains then return structural change left right
  else .error (Cause.malformedRule (lhs ++ " -> " ++ rhs)).unlocated

end RuleSpec

/-- A rule of a set. -/
structure Rule extends RuleSpec where
  id : String

/-- The replacement for a match with the given node. -/
def RuleSpec.build? (spec : RuleSpec) (matched : Expr) (b : Bindings) : Option Expr :=
  match spec.body with
  | .structural rhs => rhs.substitute? b
  | .computed build => build matched b

/-- Rules under a common name. -/
structure Group (α : Type) where
  name : String
  rules : List α

/-- Groups of rules in order of priority. -/
structure RuleSet where
  groups : List (Group Rule)

namespace RuleSet

/-- The identifier of a rule whose change was named `count` times before. -/
def caseId (change : Change) (count : Nat) : String :=
  if count = 0 then change.name
  else change.name ++ "__CASE_" ++ String.ofList (Nat.toDigits 10 count)

/-- The rules with their identifiers, after rules with the changes `seen`, and the changes
seen after them. -/
def identifyRules : (seen : List Change) → List RuleSpec → List Rule × List Change
  | seen, [] => ([], seen)
  | seen, spec :: specs =>
      let (rules, seen') := identifyRules (spec.change :: seen) specs
      (⟨spec, caseId spec.change (seen.count spec.change)⟩ :: rules, seen')

/-- The groups with identifiers for their rules. -/
def identifyGroups : (seen : List Change) → List (Group RuleSpec) → List (Group Rule)
  | _, [] => []
  | seen, group :: groups =>
      let (rules, seen') := identifyRules seen group.rules
      ⟨group.name, rules⟩ :: identifyGroups seen' groups

/-- The set made of the given groups. -/
def ofGroups (groups : List (Group RuleSpec)) : RuleSet := ⟨identifyGroups [] groups⟩

/-- All rules, in order of priority. -/
def rules (set : RuleSet) : List Rule := set.groups.flatMap (·.rules)

/-- The rule with the given identifier. -/
def get? (set : RuleSet) (id : String) : Option Rule := set.rules.find? (·.id = id)

end RuleSet

end AlgebraTutor
