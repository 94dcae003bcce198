/-
The normal form of a tree.

Nested sums and products are merged, a sum or product of one argument is that argument, a
minus sign goes into a leading constant, and the functions with several names go under one:
every root is an `nthRoot` with its index, every logarithm a `logXY` with its base.
-/
import AlgebraTutor.Expr.Basic

namespace AlgebraTutor

namespace Expr

/-- The arguments that a node contributes to a sum or product around it. -/
def spread (kind : Op) : Expr → List Expr
  | e@(op kind' args _) => if kind' = kind then args else [e]
  | e => [e]

/-- Tells whether merging the node into a node of the same operator keeps that one implicit. -/
def keepsImplicit (kind : Op) : Expr → Bool
  | op kind' _ implicit => kind' != kind || implicit
  | _ => true

/-- The value of a sum or product without arguments. -/
def neutral : Op → Rat
  | .mul => 1
  | _ => 0

/-- The normal form of a sum or product of normal arguments. -/
def merged (kind : Op) (args : List Expr) (implicit : Bool) : Expr :=
  match args.flatMap (spread kind) with
  | [] => const (neutral kind)
  | [only] => only
  | flat => op kind flat (implicit && args.all (keepsImplicit kind))

/-- The normal form of a negation of normal arguments. -/
def signed (args : List Expr) (implicit : Bool) : Expr :=
  match args with
  | [const value] => const (-value)
  | [op .mul (const value :: factors) implicit] => op .mul (const (-value) :: factors) implicit
  | [op .div (const value :: divisors) implicit] => op .div (const (-value) :: divisors) implicit
  | [operand] => minus operand
  | args => op .neg args implicit

/-- The normal form of an operator with normal arguments. -/
def normalOp (kind : Op) (args : List Expr) (implicit : Bool) : Expr :=
  match kind with
  | .add | .mul => merged kind args implicit
  | .neg => signed args implicit
  | .div | .pow => op kind args implicit

/-- The base of natural logarithms. -/
def euler : Expr := member "const" "e"

/-- The normal form of a function call with normal arguments. -/
def normalCall (name : String) (args : List Expr) : Expr :=
  match args with
  | [arg] =>
      if name = "sqrt" ∨ name = "nthRoot" then call "nthRoot" [arg, const 2]
      else if name = "log10" ∨ name = "log" then call "logXY" [const 10, arg]
      else if name = "logE" ∨ name = "ln" then call "logXY" [euler, arg]
      else call name [arg]
  | args => call name args

mutual

/-- The normal form of a tree. -/
def normalize : Expr → Expr
  | op kind args implicit => normalOp kind (normalizeAll args) implicit
  | call name args => normalCall name (normalizeAll args)
  | leaf => leaf

/-- The normal forms of the trees of a list. -/
def normalizeAll : List Expr → List Expr
  | [] => []
  | e :: es => normalize e :: normalizeAll es

end

theorem normalizeAll_eq_map (es : List Expr) : normalizeAll es = es.map normalize := by
  induction es with
  | nil => rfl
  | cons e es ih => simp [normalizeAll, ih]

/-- The tree with the node at the end of a path replaced, in normal form.  A path that leads
nowhere leaves the tree as it is. -/
def splice (root : Expr) (path : Path) (new : Expr) : Expr :=
  match root.replace? path new with
  | some tree => tree.normalize
  | none => root

end Expr

end AlgebraTutor
