/-
Patterns: expressions in which some names are wildcards.

A wildcard stands for a tree, and its name says for what kind of tree:

* `n1`, `n2`, … any tree;
* `c1`, `c2`, … a constant, and `-c1` a negative constant, bound to its magnitude;
* `v1`, `v2`, … a tree that is no constant;
* `x` the unknown itself;
* `a1`, `a2`, … a tree in which the unknown does not occur;
* `fx1`, `fx2`, … a tree in which the unknown occurs.

Every other name stands for itself.
-/
import AlgebraTutor.Expr.OfFormula
import AlgebraTutor.Pattern.Bindings

namespace AlgebraTutor

/-- The kinds of tree that a wildcard stands for. -/
inductive WildcardKind
  | any
  /-- A constant, or a negative constant that is bound to its magnitude. -/
  | constant (negative : Bool)
  | nonConstant
  /-- The unknown itself. -/
  | unknown
  /-- A tree in which the unknown does not occur. -/
  | excludesUnknown
  /-- A tree in which the unknown occurs. -/
  | containsUnknown
deriving DecidableEq, Repr, Inhabited

namespace WildcardKind

/-- The kind of a wildcard whose name ends in a number. -/
def numbered? (index : List Char) (kind : WildcardKind) : Option WildcardKind :=
  if !index.isEmpty && index.all Char.isDigit then some kind else none

/-- The kind of wildcard that a name is, if it is one. -/
def ofName? (name : String) : Option WildcardKind :=
  match name.toList with
  | ['x'] => some unknown
  | 'f' :: 'x' :: index => numbered? index containsUnknown
  | 'n' :: index => numbered? index any
  | 'c' :: index => numbered? index (constant false)
  | 'v' :: index => numbered? index nonConstant
  | 'a' :: index => numbered? index excludesUnknown
  | _ => none

/-- Tells whether the kind speaks of the unknown. -/
def needsUnknown : WildcardKind → Bool
  | unknown | excludesUnknown | containsUnknown => true
  | any | constant _ | nonConstant => false

end WildcardKind

/-- A pattern. -/
inductive Pattern
  | wildcard (name : String) (kind : WildcardKind)
  | const (value : Rat)
  | symbol (name : String)
  | member (object index : String)
  | op (kind : Op) (args : List Pattern)
  | call (name : String) (args : List Pattern)
deriving Repr, Inhabited

namespace Pattern

/-- The negation of a pattern.  The sign goes into a constant, and in front of a wildcard for
constants it turns to constants of the other sign. -/
def negated : Pattern → Pattern
  | const value => const (-value)
  | wildcard name (.constant negative) => wildcard name (.constant !negative)
  | operand => op .neg [operand]

/-- The pattern of an operator and its arguments. -/
def ofOp (kind : Op) (args : List Pattern) : Pattern :=
  match kind, args with
  | .neg, [operand] => operand.negated
  | kind, args => op kind args

mutual

/-- The pattern that a tree is, read with wildcards. -/
def ofExpr : Expr → Pattern
  | .const value => const value
  | .symbol name =>
      match WildcardKind.ofName? name with
      | some kind => wildcard name kind
      | none => symbol name
  | .member object index => member object index
  | .op kind args _ => ofOp kind (ofExprs args)
  | .call name args => call name (ofExprs args)

/-- The patterns that some trees are. -/
def ofExprs : List Expr → List Pattern
  | [] => []
  | e :: es => ofExpr e :: ofExprs es

end

/-- Reads a pattern. -/
def parse (text : String) : Except Error Pattern :=
  match Expr.parse text with
  | .ok e => .ok (ofExpr e)
  | .error _ => .error (Cause.malformedRule text).unlocated

mutual

/-- The names of the wildcards of a pattern, from left to right. -/
def occurrences : Pattern → List String
  | wildcard name _ => [name]
  | op _ args => allOccurrences args
  | call _ args => allOccurrences args
  | _ => []

/-- The names of the wildcards of some patterns. -/
def allOccurrences : List Pattern → List String
  | [] => []
  | p :: ps => occurrences p ++ allOccurrences ps

end

/-- The names with one more put in its place. -/
def insertName (name : String) : List String → List String
  | [] => [name]
  | other :: rest =>
      if name < other then name :: other :: rest
      else if other < name then other :: insertName name rest
      else other :: rest

/-- The names of the wildcards of a pattern, each once and in order. -/
def wildcards (p : Pattern) : List String := p.occurrences.foldr insertName []

mutual

/-- Tells whether a wildcard of the pattern speaks of the unknown. -/
def needsUnknown : Pattern → Bool
  | wildcard _ kind => kind.needsUnknown
  | op _ args => anyNeedsUnknown args
  | call _ args => anyNeedsUnknown args
  | _ => false

/-- Tells whether a wildcard of one of the patterns speaks of the unknown. -/
def anyNeedsUnknown : List Pattern → Bool
  | [] => false
  | p :: ps => needsUnknown p || anyNeedsUnknown ps

end

/-- A sum or product of two patterns.  It also matches longer sums and products, and two
arguments of one. -/
def isSplittable : Pattern → Bool
  | op kind [_, _] => kind.isCommutative
  | _ => false

mutual

/-- The tree that the pattern becomes when its wildcards are replaced, if all are bound. -/
def substitute? (b : Bindings) : Pattern → Option Expr
  | wildcard name (.constant true) => (b.get? name).map Expr.negated
  | wildcard name _ => b.get? name
  | const value => some (.const value)
  | symbol name => some (.symbol name)
  | member object index => some (.member object index)
  | op kind args => (substituteAll? b args).map fun args => .op kind args false
  | call name args => (substituteAll? b args).map fun args => .call name args

/-- The trees that some patterns become. -/
def substituteAll? (b : Bindings) : List Pattern → Option (List Expr)
  | [] => some []
  | p :: ps => do
      let first ← substitute? b p
      let others ← substituteAll? b ps
      return first :: others

end

/-! ### Writing patterns

Patterns are written like the expressions they stand for. -/

instance : Add Pattern := ⟨fun p q => op .add [p, q]⟩
instance : Mul Pattern := ⟨fun p q => op .mul [p, q]⟩
instance : Div Pattern := ⟨fun p q => op .div [p, q]⟩
instance : Neg Pattern := ⟨negated⟩
instance (n : Nat) : OfNat Pattern n := ⟨const n⟩

/-- A power. -/
def pow (base exponent : Pattern) : Pattern := op .pow [base, exponent]

namespace Wildcard

/-- A wildcard for any tree. -/
def n1 : Pattern := wildcard "n1" .any

/-- A second wildcard for any tree. -/
def n2 : Pattern := wildcard "n2" .any

/-- A third wildcard for any tree. -/
def n3 : Pattern := wildcard "n3" .any

/-- A wildcard for a constant. -/
def c1 : Pattern := wildcard "c1" (.constant false)

/-- A second wildcard for a constant. -/
def c2 : Pattern := wildcard "c2" (.constant false)

/-- A third wildcard for a constant. -/
def c3 : Pattern := wildcard "c3" (.constant false)

/-- A fourth wildcard for a constant. -/
def c4 : Pattern := wildcard "c4" (.constant false)

/-- A wildcard for a tree that is no constant. -/
def v1 : Pattern := wildcard "v1" .nonConstant

/-- The wildcard for the unknown itself. -/
def x : Pattern := wildcard "x" .unknown

/-- A wildcard for a tree in which the unknown does not occur. -/
def a1 : Pattern := wildcard "a1" .excludesUnknown

/-- A second wildcard for a tree in which the unknown does not occur. -/
def a2 : Pattern := wildcard "a2" .excludesUnknown

/-- A wildcard for a tree in which the unknown occurs. -/
def fx1 : Pattern := wildcard "fx1" .containsUnknown

/-- A second wildcard for a tree in which the unknown occurs. -/
def fx2 : Pattern := wildcard "fx2" .containsUnknown

end Wildcard

end Pattern

end AlgebraTutor
