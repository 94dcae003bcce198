/-
The functions that the rules know.

An expression that calls any other function is left alone.
-/
import AlgebraTutor.Expr.Basic
import AlgebraTutor.Text.Distance

namespace AlgebraTutor

/-- The names of the functions that the rules know, in alphabetical order. -/
def supportedFunctions : List String :=
  ["abs", "acos", "asin", "atan", "cos", "cot", "csc", "ln", "log", "log10", "logE", "logXY",
    "nthRoot", "percent", "sec", "sin", "sqrt", "tan"]

/-- The known functions whose names differ from the given one by at most one letter, in
alphabetical order. -/
def similarFunctions (name : String) : List String :=
  supportedFunctions.filter fun known => editDistance known name < 2

namespace Expr

/-- The name of an unknown function, if the node calls one. -/
def unsupportedName? : Expr → Option String
  | call name _ => if name ∈ supportedFunctions then none else some name
  | _ => none

/-- The first call of an unknown function in a tree, arguments before the calls they belong to. -/
def unsupported? (e : Expr) : Option String :=
  e.postOrder.findSome? fun (_, node) => node.unsupportedName?

/-- Tells whether the rules know every function of a tree. -/
def isSupported (e : Expr) : Bool := e.unsupported?.isNone

end Expr

end AlgebraTutor
