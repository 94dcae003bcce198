/-
Two orders for the arguments of sums and products.

The order for presentation puts constant factors first and constant terms last, and the rest
by falling degree, then by key.  The canonical order goes by key alone and forgets how products
were written, so that trees that are alike get equal keys.
-/
import AlgebraTutor.Expr.Printer

namespace AlgebraTutor

namespace Expr

/-! ### The degree of a tree -/

/-- The sum of numbers. -/
def sumOf (qs : List Rat) : Rat := qs.foldl (· + ·) 0

/-- The largest of some numbers, or zero if there are none. -/
def largest : List Rat → Rat
  | [] => 0
  | q :: qs => qs.foldl (fun a b => if a < b then b else a) q

mutual

/-- The degree of a polynomial in which every variable counts.  What is no polynomial has
degree zero. -/
def degree : Expr → Rat
  | symbol _ => 1
  | op .pow (base :: const exponent :: _) _ => degree base * exponent
  | op .mul args _ => sumOf (degrees args)
  | op .add args _ => largest (degrees args)
  | op .div (numerator :: _) _ => degree numerator
  | op .neg (operand :: _) _ => degree operand
  | _ => 0

/-- The degrees of the trees of a list. -/
def degrees : List Expr → List Rat
  | [] => []
  | e :: es => degree e :: degrees es

end

/-! ### Sorting -/

/-- What the place of an argument in a presented sum or product depends on. -/
structure Standing where
  expr : Expr
  isConstant : Bool
  degree : Rat
  key : String

/-- The standing of an argument. -/
def standing (e : Expr) : Standing := ⟨e, e.isConstant, e.degree, e.key⟩

/-- Higher degree goes first, then the smaller key. -/
def Standing.byDegree (a b : Standing) (tie : Bool) : Bool :=
  if b.degree < a.degree then true
  else if a.degree < b.degree then false
  else tie

/-- Whether the factor `a` may stand before the factor `b`: constants first, then by falling
degree, then by key. -/
def Standing.factorLe (a b : Standing) : Bool :=
  if a.isConstant != b.isConstant then a.isConstant
  else a.byDegree b (decide (a.key ≤ b.key))

/-- Whether the term `a` may stand before the term `b`: by falling degree, constants last
among those of one degree, then by key. -/
def Standing.termLe (a b : Standing) : Bool :=
  a.byDegree b (if a.isConstant != b.isConstant then b.isConstant else decide (a.key ≤ b.key))

/-- The arguments of an operator in the order for presentation. -/
def presentedArgs (kind : Op) (args : List Expr) : List Expr :=
  match kind with
  | .mul => ((args.map standing).mergeSort Standing.factorLe).map Standing.expr
  | .add => ((args.map standing).mergeSort Standing.termLe).map Standing.expr
  | _ => args

/-- The arguments of an operator in canonical order. -/
def sortedArgs (kind : Op) (args : List Expr) : List Expr :=
  if kind.isCommutative then
    let keyed := args.map fun e => (e.key, e)
    (keyed.mergeSort fun a b => decide (a.1 ≤ b.1)).map Prod.snd
  else args

mutual

/-- The tree in the order for presentation. -/
def rearranged : Expr → Expr
  | op kind args implicit => op kind (presentedArgs kind (rearrangedAll args)) implicit
  | call name args => call name (rearrangedAll args)
  | leaf => leaf

/-- The trees of a list, each in the order for presentation. -/
def rearrangedAll : List Expr → List Expr
  | [] => []
  | e :: es => rearranged e :: rearrangedAll es

end

mutual

/-- The tree in canonical order. -/
def canonical : Expr → Expr
  | op kind args _ => op kind (sortedArgs kind (canonicalAll args)) false
  | call name args => call name (canonicalAll args)
  | leaf => leaf

/-- The trees of a list, each in canonical order. -/
def canonicalAll : List Expr → List Expr
  | [] => []
  | e :: es => canonical e :: canonicalAll es

end

end Expr

end AlgebraTutor
