/-
Simplification: one rule after another until none applies.

The simplifier keeps an active node, at first the root.  In each round it tries the groups of
rules in order of priority, and for each group the nodes below the active one.  The first
reduction that changes the tree is taken, and the node that was reduced becomes active, since
most of what follows happens near it.  Where nothing applies below the active node the whole
tree is tried, and where nothing applies there the tree is printed and read again once, which
may regroup it.  At the end the arguments of sums and products are put in order.

The number of reductions is limited.  At the limit the tree is returned as it is then.
-/
import AlgebraTutor.Expr.Order
import AlgebraTutor.Expr.OfFormula
import AlgebraTutor.Rule.Apply
import AlgebraTutor.Step
import AlgebraTutor.Supported

namespace AlgebraTutor

/-- The number of reductions after which simplification stops, unless another one is set. -/
def defaultMaxReductions : Nat := 64

/-- How expressions are simplified. -/
structure Simplifier where
  rules : RuleSet
  context : Context
  maxReductions : Nat
  withMistakes : Bool

/-- A reduction of a whole tree. -/
structure Reduction where
  rule : Rule
  /-- The place of the node that was reduced. -/
  path : Path
  after : Expr
  mistakes : List MistakeStep

/-- The step that a reduction of the tree `root` is shown as. -/
def Reduction.step (reduction : Reduction) (root : Expr) : Step :=
  ⟨reduction.rule.id, reduction.rule.change, root.text, reduction.after.text,
    reduction.mistakes⟩

/-- A tree in normal form as it reads when it is printed and read again.  A tree whose printed
form cannot be read stays as it is. -/
def Expr.reread (e : Expr) : Expr :=
  match Expr.parseNormal e.text with
  | .ok e' => e'
  | .error _ => e

namespace Simplifier

/-- The simplifier with these rules and no further settings. -/
def ofRules (rules : RuleSet) : Simplifier := ⟨rules, .plain, defaultMaxReductions, false⟩

/-- The reduction of the tree by one rule at one node, if it changes the tree, whose key is
`before`. -/
def reduceBy? (s : Simplifier) (root : Expr) (before : String) (path : Path) (node : Expr)
    (rule : Rule) : Except Error (Option Reduction) := do
  match ← rule.firstApplication? s.context s.withMistakes node with
  | none => return none
  | some application =>
    let after := root.splice path application.after
    if after.key = before then return none
    else
      let mistakes := application.mistakes.map fun (kind, wrong) =>
        ⟨kind, (root.splice path wrong).text⟩
      return some ⟨rule, path, after, mistakes⟩

/-- The first reduction at or below the active node. -/
def reduceOnce? (s : Simplifier) (root : Expr) (active : Path) :
    Except Error (Option Reduction) :=
  match root.get? active with
  | none => .ok none
  | some base =>
    let before := root.key
    let nodes := base.postOrder
    s.rules.groups.findSomeM? fun group =>
      nodes.findSomeM? fun (path, node) =>
        group.rules.findSomeM? fun rule =>
          s.reduceBy? root before (active ++ path) node rule

/-- The next reduction, with the tree it is a reduction of: the given one, or the same read again
if nothing applies to it. -/
def nextReduction (s : Simplifier) (root : Expr) (active : Path) :
    Except Error (Expr × Option Reduction) := do
  match ← s.reduceOnce? root active with
  | some reduction => return (root, some reduction)
  | none =>
    let atRoot ← if active.isEmpty then pure none else s.reduceOnce? root []
    match atRoot with
    | some reduction => return (root, some reduction)
    | none =>
      let root := root.reread
      return (root, ← s.reduceOnce? root [])

/-- The tree after at most `reductions` reductions, and the steps that lead there. -/
def reduceUpTo (s : Simplifier) : (reductions : Nat) → (root : Expr) → (active : Path) →
    Except Error (Expr × List Step)
  | 0, root, _ => .ok (root, [])
  | reductions + 1, root, active => do
      match ← s.nextReduction root active with
      | (root, none) => return (root, [])
      | (root, some reduction) =>
        let active := reduction.after.validPrefix reduction.path
        let (final, steps) ← s.reduceUpTo reductions reduction.after active
        return (final, reduction.step root :: steps)

/-- The step that puts arguments in order, if that changes the tree. -/
def arrangingSteps (root arranged : Expr) : List Step :=
  if arranged.key = root.key then []
  else [.plain .rearrangeCoefficients root.text arranged.text]

/-- The simplified tree with its trace.  A tree with an unknown function is returned as it is,
without a trace. -/
def run (s : Simplifier) (e : Expr) : Except Error (Expr × List Step) := do
  let root := e.normalize
  if root.isSupported then
    let (final, steps) ← s.reduceUpTo s.maxReductions root []
    let arranged := final.rearranged
    return (arranged, .opening root :: steps ++ arrangingSteps final arranged)
  else return (root, [])

end Simplifier

end AlgebraTutor
