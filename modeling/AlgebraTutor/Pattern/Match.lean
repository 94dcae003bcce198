/-
Finding the ways in which a tree has the shape of a pattern.

A match is a set of bindings under which the pattern becomes the tree.  A sum or product of
two patterns matches a longer sum or product by taking one argument for one side and the
rest for the other, so there can be many matches; like ones are reported once.
-/
import AlgebraTutor.Pattern.Basic

namespace AlgebraTutor

/-- What matching depends on besides pattern and tree. -/
structure Context where
  /-- The unknown of the equation at hand. -/
  unknown : Option String
deriving DecidableEq, Repr, Inhabited

/-- No unknown is chosen. -/
def Context.plain : Context := ⟨none⟩

/-- The context of solving for a variable. -/
def Context.solvingFor (unknown : String) : Context := ⟨some unknown⟩

/-- A way in which a tree, or two of its arguments, has the shape of a pattern. -/
structure Match where
  bindings : Bindings
  /-- The positions of the two arguments, if only these were matched. -/
  extraction : Option (Nat × Nat)

/-- The tree to bind to a wildcard of this kind, if it accepts the tree.  Without an unknown,
a kind that speaks of it accepts nothing. -/
def WildcardKind.accept? (context : Context) (e : Expr) : WildcardKind → Option Expr
  | any => some e
  | constant false => if e.isConstant then some e else none
  | constant true =>
      match e with
      | .const value => if value < 0 then some (.const (-value)) else none
      | _ => none
  | nonConstant => if e.isConstant then none else some e
  | unknown =>
      match e, context.unknown with
      | .symbol name, some sought => if name = sought then some e else none
      | _, _ => none
  | excludesUnknown =>
      match context.unknown with
      | some sought => if e.mentions sought then none else some e
      | none => none
  | containsUnknown =>
      match context.unknown with
      | some sought => if e.mentions sought then some e else none
      | none => none

namespace Pattern

/-- Every choice of one member of a list, with the members that are left. -/
def picks {α : Type} : List α → List (α × List α)
  | [] => []
  | a :: as => (a, as) :: (picks as).map fun (b, rest) => (b, a :: rest)

/-- Arguments of an operator as one tree. -/
def regroup (kind : Op) (implicit : Bool) : List Expr → Expr
  | [only] => only
  | args => .op kind args implicit

/-- The ways to read a sum or product as one of two operands: one argument and the rest, in
both orders. -/
def splits (kind : Op) (implicit : Bool) (args : List Expr) : List (Expr × Expr) :=
  (picks args).flatMap fun (one, others) =>
    let rest := regroup kind implicit others
    [(one, rest), (rest, one)]

mutual

/-- The matches of a pattern with a tree. -/
def matchExpr (context : Context) : Pattern → Expr → List Bindings
  | wildcard name kind, e =>
      match kind.accept? context e with
      | some value => [.single name value]
      | none => []
  | const a, .const b => if a = b then [.empty] else []
  | symbol a, .symbol b => if a = b then [.empty] else []
  | member object index, .member object' index' =>
      if object = object' ∧ index = index' then [.empty] else []
  | call name patterns, .call name' args =>
      if name = name' ∧ patterns.length = args.length then
        matchArgs context patterns [.empty] args
      else []
  | op kind patterns, .op kind' args implicit =>
      if kind ≠ kind' then []
      else if kind.isCommutative ∧ patterns.length = 2 ∧ 2 ≤ args.length then
        (splits kind implicit args).foldl (fun found (left, right) =>
          (matchArgs context patterns [.empty] [left, right]).foldl Bindings.addNew found) []
      else if patterns.length = args.length then matchArgs context patterns [.empty] args
      else []
  | _, _ => []

/-- The matches of some patterns with as many trees one by one, each together with one of the
matches found before. -/
def matchArgs (context : Context) : List Pattern → (found : List Bindings) → List Expr →
    List Bindings
  | p :: ps, found, e :: es =>
      if found.isEmpty then []
      else matchArgs context ps (Bindings.merge found (matchExpr context p e)) es
  | _, found, _ => found

end

/-- Refuses a pattern that speaks of the unknown when there is none. -/
def checkUnknown (context : Context) (p : Pattern) : Except Error Unit :=
  if context.unknown.isNone ∧ p.needsUnknown then .error Cause.missingUnknown.unlocated
  else .ok ()

/-- The matches of a pattern with a whole tree. -/
def matches? (context : Context) (p : Pattern) (e : Expr) : Except Error (List Bindings) := do
  p.checkUnknown context
  return matchExpr context p e

/-- Every ordered pair of different members of a list, with their positions. -/
def orderedPairs {α : Type} (as : List α) : List ((α × α) × (Nat × Nat)) :=
  as.zipIdx.flatMap fun (a, i) =>
    as.zipIdx.filterMap fun (b, j) => if i = j then none else some ((a, b), (i, j))

/-- The matches of a pattern of two operands with two arguments of a longer sum or product. -/
def extractions? (context : Context) (p : Pattern) (e : Expr) : Except Error (List Match) :=
  match p, e with
  | op kind patterns, .op kind' args _ =>
      if kind ≠ kind' ∨ !p.isSplittable ∨ args.length ≤ 2 then .ok []
      else do
        p.checkUnknown context
        return (orderedPairs args).flatMap fun ((left, right), positions) =>
          (matchArgs context patterns [.empty] [left, right]).map fun b => ⟨b, some positions⟩
  | _, _ => .ok []

end Pattern

end AlgebraTutor
