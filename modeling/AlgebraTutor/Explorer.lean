/-
Every step that can be taken from an expression.

All rules are tried at all nodes under all matches, also with the first two arguments of a sum
or product exchanged.  Each result is listed once, under the first rule that gives it, with the
mistakes of all the ways that lead to it.
-/
import AlgebraTutor.Rule.Apply
import AlgebraTutor.Expr.Normal
import AlgebraTutor.Step
import AlgebraTutor.Supported

namespace AlgebraTutor

namespace Explorer

/-- The node, and if its arguments can be exchanged the node with the first two exchanged. -/
def orderings (node : Expr) : List Expr :=
  match node with
  | .op kind (first :: second :: rest) implicit =>
      if kind.isCommutative then [node, .op kind (second :: first :: rest) implicit] else [node]
  | _ => [node]

/-- The mistakes together with those of `more` that read differently. -/
def mergeMistakes (mistakes more : List MistakeStep) : List MistakeStep :=
  more.foldl (fun found mistake =>
    if found.any (·.after == mistake.after) then found else found ++ [mistake]) mistakes

/-- A step with the key of its result. -/
structure Entry where
  key : String
  step : Step

/-- The entries with one more.  If its key is there already, only its mistakes are added. -/
def record (new : Entry) : List Entry → List Entry
  | [] => [new]
  | entry :: rest =>
      if entry.key = new.key then
        let mistakes := mergeMistakes entry.step.mistakes new.step.mistakes
        { entry with step := { entry.step with mistakes := mistakes } } :: rest
      else entry :: record new rest

/-- The mistakes of an application as they change the whole expression.  One that makes no
difference, or none to the right result, is left out. -/
def splicedMistakes (root : Expr) (before : String) (path : Path) (key : String)
    (mistakes : List (Mistake × Expr)) : List MistakeStep :=
  mergeMistakes [] (mistakes.filterMap fun (kind, wrong) =>
    let wrong := root.splice path wrong
    let wrongKey := wrong.key
    if wrongKey = key ∨ wrongKey = before then none else some ⟨kind, wrong.text⟩)

/-- The entry for one application, if it changes the expression. -/
def entryFor? (root : Expr) (text before : String) (rule : Rule) (path : Path)
    (application : Application) : Option Entry :=
  let after := root.splice path application.after
  let key := after.key
  if key = before then none
  else
    let mistakes := splicedMistakes root before path key application.mistakes
    some ⟨key, ⟨rule.id, rule.change, text, after.text, mistakes⟩⟩

/-- The entries for one rule at one node in one ordering of its arguments. -/
def entriesBy (context : Context) (root : Expr) (text before : String) (rule : Rule) (path : Path)
    (node : Expr) : Except Error (List Entry) := do
  return (← rule.applications context true node).filterMap (entryFor? root text before rule path)

/-- The places to try: every node in every ordering of its arguments. -/
def places (root : Expr) : List (Path × Expr) :=
  root.postOrder.flatMap fun (path, node) => (orderings node).map fun node => (path, node)

/-- Every step that can be taken from a tree, each once, in the order in which it is found. -/
def nextSteps (context : Context) (rules : RuleSet) (root : Expr) : Except Error (List Step) := do
  if root.isSupported then
    let text := root.text
    let before := root.key
    let places := places root
    let found ← rules.rules.mapM fun rule =>
      places.mapM fun (path, node) => entriesBy context root text before rule path node
    let entries := (found.flatten.flatten).foldl (fun entries entry => record entry entries) []
    return entries.map Entry.step
  else return []

end Explorer

end AlgebraTutor
