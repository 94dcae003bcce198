/-
Operations on a side of an equation, and the terms and factors they come from.

A side is taken apart into terms, also those inside the numerators of quotients; each term
comes with the divisor it stands over, so that its share of the whole side is known.
-/
import AlgebraTutor.Expr.Normal
import AlgebraTutor.Expr.Printer

namespace AlgebraTutor

/-- An operation as it is reported: a sign and a printed operand. -/
structure NumOp where
  sign : Char
  number : String
deriving DecidableEq, Repr, Inhabited

/-- An operation on a whole side: adding, subtracting, multiplying or dividing by an operand. -/
structure Operation where
  /-- The sign of the operation; every sign but `+`, `-` and `*` divides. -/
  sign : Char
  operand : Expr

namespace Operation

/-- The signs of the four operations. -/
def signs : List Char := ['+', '-', '*', '/']

/-- The side after the operation, in normal form. -/
def apply (operation : Operation) (side : Expr) : Expr :=
  let operand := operation.operand
  let result := match operation.sign with
    | '+' => Expr.sum [side, operand]
    | '-' => Expr.sum [side, operand.negated]
    | '*' => Expr.product [side, operand]
    | _ => Expr.quotient side operand
  result.normalize

/-- The operation as it is reported. -/
def report (operation : Operation) : NumOp := ⟨operation.sign, operation.operand.text⟩

/-- The same sign and like operands. -/
def alike (a b : Operation) : Bool := a.sign == b.sign && a.operand.alike b.operand

/-- The list with one more operation at its end, unless a like one is there already. -/
def addNew (operations : List Operation) (new : Operation) : List Operation :=
  if operations.any (·.alike new) then operations else operations ++ [new]

end Operation

namespace Expr

/-- The terms of a sum, or the tree itself. -/
def terms : Expr → List Expr
  | op .add args _ => args
  | e => [e]

/-- The factors of a product, or the tree itself. -/
def factors : Expr → List Expr
  | op .mul args _ => args
  | e => [e]

/-- What is divided in a quotient, through quotients of quotients, or the tree itself. -/
def numerator : Expr → Expr
  | op .div (first :: _) _ => numerator first
  | e => e

/-- The numerators of the terms of a side. -/
def numerators (side : Expr) : List Expr := side.terms.map numerator

end Expr

/-- A term of a side, found by looking into the numerators of quotients. -/
structure IndexedTerm where
  term : Expr
  /-- The number of quotients around the term. -/
  depth : Nat
  /-- The product of the denominators of those quotients. -/
  divisor : Option Expr

namespace IndexedTerm

/-- What the term contributes to the side: the term over its divisor. -/
def share (t : IndexedTerm) : Expr :=
  match t.divisor with
  | some divisor => (Expr.quotient t.term divisor).normalize
  | none => t.term

/-- The product of the denominators of two quotients, one inside the other. -/
def combined (outer inner : Expr) : Expr :=
  match outer, inner with
  | .const a, .const b => .const (a * b)
  | outer, inner => (Expr.product [inner, outer]).normalize

/-- The divisor inside a quotient with the given denominator. -/
def deeper (divisor : Option Expr) (denominator : Expr) : Expr :=
  match divisor with
  | some outer => combined outer denominator
  | none => denominator

mutual

/-- The terms of a tree that stands inside `depth` quotients. -/
def collect (depth : Nat) (divisor : Option Expr) : Expr → List IndexedTerm
  | .op .add args _ => collectAll depth divisor args
  | .op .div [numerator, denominator] _ =>
      collect (depth + 1) (some (deeper divisor denominator)) numerator
  | e => [⟨e, depth, divisor⟩]

/-- The terms of some trees that stand inside `depth` quotients. -/
def collectAll (depth : Nat) (divisor : Option Expr) : List Expr → List IndexedTerm
  | [] => []
  | e :: es => collect depth divisor e ++ collectAll depth divisor es

end

/-- Every term of a side, in the order in which they are printed. -/
def ofSide (side : Expr) : List IndexedTerm := collect 0 none side

/-- The operation that takes the term away from its side: adding the magnitude of a negative
term, or subtracting the term.  Inside a quotient it is the share that is taken away. -/
def removal (t : IndexedTerm) : Operation :=
  if t.term.startsNegative then ⟨'+', share { t with term := t.term.negated.normalize }⟩
  else ⟨'-', t.share⟩

end IndexedTerm

namespace Operation

/-- The operations that take away a term of a sum. -/
def termRemovals (side : Expr) : List Operation :=
  let indexed := IndexedTerm.ofSide side
  if 1 < indexed.length then indexed.map IndexedTerm.removal else []

/-- The operations that take away a factor of a product, or the denominator of a quotient. -/
def factorRemovals (side : Expr) : List Operation :=
  match side with
  | .op .mul factors _ => factors.map fun factor => ⟨'/', factor⟩
  | .op .div (_ :: denominator :: _) _ => [⟨'*', denominator⟩]
  | _ => []

/-- The operations that take away a term or a factor of a side, each once. -/
def removals (side : Expr) : List Operation :=
  (termRemovals side ++ factorRemovals side).foldl addNew []

/-- Every operation with one of the trees as its operand, each once. -/
def withOperands (operands : List Expr) : List Operation :=
  (operands.flatMap fun operand => signs.map fun sign => ⟨sign, operand⟩).foldl addNew []

end Operation

end AlgebraTutor
