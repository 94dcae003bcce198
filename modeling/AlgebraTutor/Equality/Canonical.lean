/-
The canonical form of an expression.

Quotients are moved out of products, the tree is brought into normal form and its arguments
into canonical order.  The result is printed and read again and treated once more in the same
way, which settles what only the reader groups.  Two texts denote the same expression if their
canonical forms do.
-/
import AlgebraTutor.Expr.Order
import AlgebraTutor.Expr.OfFormula

namespace AlgebraTutor

namespace Expr

/-- The factors that an argument contributes to the numerator of a product. -/
def numeratorParts : Expr → List Expr
  | op .div [numerator, _] _ => [numerator]
  | e => [e]

/-- The factors that an argument contributes to the denominator of a product. -/
def denominatorParts : Expr → List Expr
  | op .div [_, denominator] _ => [denominator]
  | _ => []

/-- The product of the arguments with its quotients in front, such as `(a * b)/c` for
`a * (b/c)`. -/
def hoistedProduct (args : List Expr) (implicit : Bool) : Expr :=
  let numerators := op .mul (args.flatMap numeratorParts) implicit
  match args.flatMap denominatorParts with
  | [] => numerators
  | denominators => quotient numerators (product denominators)

mutual

/-- The tree with every quotient moved out of the product it is a factor of. -/
def hoistQuotients : Expr → Expr
  | op .mul args implicit => hoistedProduct (hoistAll args) implicit
  | op kind args implicit => op kind (hoistAll args) implicit
  | call name args => call name (hoistAll args)
  | leaf => leaf

/-- The trees of a list, each with its quotients moved out. -/
def hoistAll : List Expr → List Expr
  | [] => []
  | e :: es => hoistQuotients e :: hoistAll es

end

/-- The tree in canonical form, but for what reading regroups. -/
def canonicalize (e : Expr) : Expr := e.normalize.hoistQuotients.normalize.canonical

/-- The canonical form of a text, if it can be read. -/
def canonicalForm? (text : String) : Option Expr :=
  match Expr.parse text with
  | .error _ => none
  | .ok e =>
    let form := e.canonicalize
    match Expr.parse form.key with
    | .ok e => some e.canonicalize
    | .error _ => some form

end Expr

end AlgebraTutor
