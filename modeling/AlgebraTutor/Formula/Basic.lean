/-
Formulas: expressions as they are written.

A formula keeps what the tree of an expression forgets: the parentheses, the digits of a
number as typed, whether a product has a sign or is written by juxtaposition, and the place
of every part in the text.
-/
import AlgebraTutor.Token

namespace AlgebraTutor

/-- A name and its place. -/
structure Name where
  text : String
  span : Span
deriving DecidableEq, Repr, Inhabited

/-- The operators written between two operands. -/
inductive BinaryKind
  | exp
  | mul
  | div
  | add
  | sub
deriving DecidableEq, Repr, Inhabited

/-- How tightly an operator binds, loosest first. -/
inductive Precedence
  | any
  | term
  | factor
  | neg
  | exp
deriving DecidableEq, Repr, Inhabited

/-- The side from which a chain of equal operators is grouped. -/
inductive Associativity
  | left
  | right
deriving DecidableEq, Repr, Inhabited

namespace Precedence

/-- The position in the order from loosest to tightest. -/
def rank : Precedence → Nat
  | any => 0
  | term => 1
  | factor => 2
  | neg => 3
  | exp => 4

instance : LE Precedence := ⟨fun p q => p.rank ≤ q.rank⟩
instance : LT Precedence := ⟨fun p q => p.rank < q.rank⟩
instance (p q : Precedence) : Decidable (p ≤ q) := inferInstanceAs (Decidable (p.rank ≤ q.rank))
instance (p q : Precedence) : Decidable (p < q) := inferInstanceAs (Decidable (p.rank < q.rank))

end Precedence

namespace BinaryKind

/-- Powers bind tighter than products, and products tighter than sums. -/
def precedence : BinaryKind → Precedence
  | exp => .exp
  | mul | div => .factor
  | add | sub => .term

/-- Powers are grouped from the right, all else from the left. -/
def associativity : BinaryKind → Associativity
  | exp => .right
  | mul | div | add | sub => .left

/-- The kind of token that writes the operator. -/
def token : BinaryKind → TokenKind
  | exp => .exp
  | mul => .mul
  | div => .div
  | add => .add
  | sub => .sub

/-- Every binary operator, tightest first. -/
def all : List BinaryKind := [exp, mul, div, add, sub]

/-- The operator that a token writes. -/
def ofToken? (kind : TokenKind) : Option BinaryKind := all.find? (·.token = kind)

end BinaryKind

/-- The sign of a negation binds tighter than products and looser than powers. -/
def Precedence.negation : Precedence := .neg

/-- Signs are grouped from the right: the one next to the operand comes first. -/
def Associativity.negation : Associativity := .right

/-- An operator between two operands.  The operator of a juxtaposition is `implicit`; its place
is the gap between the operands. -/
structure BinaryOp where
  kind : BinaryKind
  implicit : Bool
  span : Span
deriving DecidableEq, Repr, Inhabited

/-- An expression as written. -/
inductive Formula
  | number (digits : String) (span : Span)
  | symbol (name : Name)
  | paren (inner : Formula) (span : Span)
  | call (name : Name) (args : List Formula) (span parens : Span)
  | member (object index : Name) (span : Span)
  | neg (operand : Formula) (sign span : Span)
  | binary (lhs : Formula) (op : BinaryOp) (rhs : Formula) (span : Span)
deriving Repr, Inhabited

/-- Two formulas with an equals sign between them. -/
structure Equation where
  lhs : Formula
  rhs : Formula
  span : Span
deriving Repr, Inhabited

namespace Formula

/-- The place of the whole formula. -/
def span : Formula → Span
  | number _ span => span
  | symbol name => name.span
  | paren _ span => span
  | call _ _ span _ => span
  | member _ _ span => span
  | neg _ _ span => span
  | binary _ _ _ span => span

/-- The formula without the parentheses around it. -/
def innermost : Formula → Formula
  | paren inner _ => inner.innermost
  | other => other

/-- Two formulas joined by an operator. -/
def join (lhs : Formula) (op : BinaryOp) (rhs : Formula) : Formula :=
  .binary lhs op rhs ⟨lhs.span.start, rhs.span.stop⟩

/-- The operator of a juxtaposition of two formulas. -/
def juxtaposition (lhs rhs : Formula) : BinaryOp :=
  ⟨.mul, true, ⟨lhs.span.stop, rhs.span.start⟩⟩

end Formula

end AlgebraTutor
