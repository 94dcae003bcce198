/-
The tree of a formula.

Parentheses vanish, a difference becomes a sum with a negated term, and a call of a function
whose name is a single letter is taken for a product, as in `x(x + 1)`.
-/
import AlgebraTutor.Expr.Normal
import AlgebraTutor.Formula.Reader
import AlgebraTutor.Number.Decimal

namespace AlgebraTutor

namespace Expr

/-- The tree of two operands with an operator between them. -/
def ofBinary (operator : BinaryOp) (lhs rhs : Expr) : Expr :=
  match operator.kind with
  | .add => sum [lhs, rhs]
  | .sub => sum [lhs, minus rhs]
  | .mul => op .mul [lhs, rhs] operator.implicit
  | .div => quotient lhs rhs
  | .exp => power lhs rhs

/-- The tree of a call.  A single letter in front of one argument is a factor. -/
def ofCall (name : String) (args : List Expr) : Expr :=
  match args with
  | [arg] => if name.length = 1 then op .mul [symbol name, arg] true else call name [arg]
  | args => call name args

mutual

/-- The tree of a formula.  It fails on a number that is not written in decimal digits. -/
def ofFormula : Formula → Except Error Expr
  | .number digits span =>
      match decimal? digits.toList with
      | some value => .ok (const value)
      | none => .error ((Cause.invalidInput digits).located span)
  | .symbol name => .ok (symbol name.text)
  | .paren inner _ => ofFormula inner
  | .call name args _ _ => return ofCall name.text (← ofFormulas args)
  | .member object index _ => .ok (member object.text index.text)
  | .neg operand _ _ => return minus (← ofFormula operand)
  | .binary lhs operator rhs _ => do
      let left ← ofFormula lhs
      let right ← ofFormula rhs
      return ofBinary operator left right

/-- The trees of some formulas. -/
def ofFormulas : List Formula → Except Error (List Expr)
  | [] => .ok []
  | formula :: formulas => do
      let first ← ofFormula formula
      let others ← ofFormulas formulas
      return first :: others

end

/-- Reads the tree of a text. -/
def parse (text : String) : Except Error Expr := do ofFormula (← Formula.parse text)

/-- Reads the tree of a text in normal form. -/
def parseNormal (text : String) : Except Error Expr := return (← parse text).normalize

theorem parseNormal_of_parse {text : String} {e : Expr} (h : parse text = .ok e) :
    parseNormal text = .ok e.normalize := by
  rw [parseNormal, h]
  rfl

theorem exists_parse_of_parseNormal {text : String} {e : Expr} (h : parseNormal text = .ok e) :
    ∃ x, parse text = .ok x ∧ e = x.normalize := by
  obtain ⟨x, hx, h⟩ := bind_eq_ok.mp h
  exact ⟨x, hx, (Except.ok.inj h).symm⟩

/-- Reads the trees of the two sides of an equation. -/
def parseEquation (text : String) : Except Error (Expr × Expr) := do
  let equation ← Equation.parse text
  let lhs ← ofFormula equation.lhs
  let rhs ← ofFormula equation.rhs
  return (lhs, rhs)

end Expr

end AlgebraTutor
