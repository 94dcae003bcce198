/-
Applying one rule to one node.

A rule applies where its left pattern matches the whole node, or else, if it is a sum or
product of two patterns, two arguments of a longer sum or product.  What it builds then takes
the place of the node, or of the two arguments.  An application that leaves the node as it was
does not count.
-/
import AlgebraTutor.Expr.Printer
import AlgebraTutor.Pattern.Match
import AlgebraTutor.Rule.Basic

namespace AlgebraTutor

/-- What a rule makes of a node. -/
structure Application where
  /-- The tree in place of the node, not yet in normal form. -/
  after : Expr
  /-- What the slips that go with the rule make of it. -/
  mistakes : List (Mistake × Expr)

namespace Rule

/-- The matches of the left pattern: with the whole node, or else with two arguments of it. -/
def findMatches (context : Context) (rule : Rule) (e : Expr) : Except Error (List Match) := do
  let direct ← rule.lhs.matches? context e
  if direct.isEmpty && rule.lhs.isSplittable then rule.lhs.extractions? context e
  else return direct.map fun b => ⟨b, none⟩

/-- Puts a tree in the place of what was matched.  Two arguments give way to one, at the place
of the first of them. -/
def replaceMatched (e : Expr) (extraction : Option (Nat × Nat)) (new : Expr) : Expr :=
  match extraction, e with
  | some (i, j), .op kind args implicit =>
      .op kind ((args.set (min i j) new).eraseIdx (max i j)) implicit
  | _, _ => new

/-- What a match was made with: the whole node, or a node of the same kind with the two arguments
that were taken out of it. -/
def matchedNode (e : Expr) (extraction : Option (Nat × Nat)) : Expr :=
  match extraction, e with
  | some (i, j), .op kind args implicit =>
      .op kind (args[i]?.toList ++ args[j]?.toList) implicit
  | _, _ => e

/-- The application under one match, if it changes the node. -/
def build? (withMistakes : Bool) (rule : Rule) (e : Expr) (found : Match) : Option Application := do
  let matched := matchedNode e found.extraction
  let after := replaceMatched e found.extraction (← rule.toRuleSpec.build? matched found.bindings)
  if after.key = e.key then none
  else
    let mistakes := if withMistakes then
        rule.missteps.filterMap fun misstep =>
          (misstep.build matched found.bindings).map fun wrong =>
            (misstep.kind, replaceMatched e found.extraction wrong)
      else []
    return ⟨after, mistakes⟩

/-- The application under the first match that changes the node. -/
def firstApplication? (context : Context) (withMistakes : Bool) (rule : Rule) (e : Expr) :
    Except Error (Option Application) := do
  return (← rule.findMatches context e).findSome? (rule.build? withMistakes e)

/-- The list with one more application at its end, unless one with an equal result is there. -/
def addApplication (found : List Application) (new : Application) : List Application :=
  if found.any (·.after.key == new.after.key) then found else found ++ [new]

/-- The applications under all matches, one for each result. -/
def applications (context : Context) (withMistakes : Bool) (rule : Rule) (e : Expr) :
    Except Error (List Application) := do
  return ((← rule.findMatches context e).filterMap (rule.build? withMistakes e)).foldl
    addApplication []

end Rule

end AlgebraTutor
