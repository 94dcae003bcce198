/-
Expressions: the trees that rules, comparisons and searches work on.

A tree knows neither places nor parentheses.  Sums and products have any number of arguments,
a difference is a sum with a negated term, and constants are exact.  A product remembers
whether it was written by juxtaposition, which matters for printing only.

Two trees are `alike` if one can be had from the other by reordering the arguments of sums
and products; that is the equality the matcher and the equality check use.
-/
namespace AlgebraTutor

/-- The operators of a tree. -/
inductive Op
  | add
  | mul
  | div
  | pow
  | neg
deriving DecidableEq, Repr, Inhabited

namespace Op

/-- The order of the arguments of a sum or product does not matter, nor does their grouping. -/
def isCommutative : Op → Bool
  | add | mul => true
  | div | pow | neg => false

end Op

/-- An expression. -/
inductive Expr
  /-- An exact number. -/
  | const (value : Rat)
  /-- A variable. -/
  | symbol (name : String)
  /-- A member of a named container, such as the constant `const.pi`. -/
  | member (object index : String)
  /-- An operator and its arguments. -/
  | op (kind : Op) (args : List Expr) (implicit : Bool)
  /-- A function and its arguments. -/
  | call (name : String) (args : List Expr)
deriving Repr, Inhabited

/-- The way from the root of a tree to one of its nodes: at each node, which argument to go to. -/
abbrev Path := List Nat

namespace Expr

/-! ### Building -/

/-- The sum of the terms. -/
def sum (terms : List Expr) : Expr := .op .add terms false

/-- The product of the factors. -/
def product (factors : List Expr) : Expr := .op .mul factors false

/-- The quotient of two expressions. -/
def quotient (numerator denominator : Expr) : Expr := .op .div [numerator, denominator] false

/-- A power. -/
def power (base exponent : Expr) : Expr := .op .pow [base, exponent] false

/-- The negation of an expression, without looking into it. -/
def minus (operand : Expr) : Expr := .op .neg [operand] false

/-- The negation of an expression.  The sign goes into a constant, and two signs cancel. -/
def negated : Expr → Expr
  | const value => const (-value)
  | op .neg [operand] _ => operand
  | other => minus other

/-- An exact number as the tree of a fraction: a constant, or a quotient of two integers. -/
def ofRat (q : Rat) : Expr :=
  if q.den = 1 then const q else quotient (const q.num) (const q.den)

/-! ### Looking -/

/-- The value of a constant. -/
def constant? : Expr → Option Rat
  | const value => some value
  | _ => none

/-- The value of a constant that is an integer. -/
def integer? : Expr → Option Int
  | const value => if value.den = 1 then some value.num else none
  | _ => none

/-- Tells a constant from other nodes. -/
def isConstant (e : Expr) : Bool := e.constant?.isSome

/-- The arguments of a node.  A leaf has none. -/
def args : Expr → List Expr
  | op _ args _ => args
  | call _ args => args
  | _ => []

mutual

/-- The number of nodes of a tree. -/
def size : Expr → Nat
  | op _ args _ => sizeAll args + 1
  | call _ args => sizeAll args + 1
  | _ => 1

/-- The number of nodes of all the trees of a list. -/
def sizeAll : List Expr → Nat
  | [] => 0
  | e :: es => size e + sizeAll es

end

theorem size_le_sizeAll {e : Expr} : ∀ {es : List Expr}, e ∈ es → e.size ≤ sizeAll es
  | f :: es, h => by
      rw [sizeAll]
      rcases List.mem_cons.mp h with rfl | h
      · omega
      · have := size_le_sizeAll h
        omega

/-- What holds of a node whenever it holds of its arguments holds of every tree. -/
@[elab_as_elim]
theorem induction {motive : Expr → Prop} (const : ∀ q, motive (.const q))
    (symbol : ∀ name, motive (.symbol name))
    (member : ∀ object index, motive (.member object index))
    (op : ∀ kind args i, (∀ arg ∈ args, motive arg) → motive (.op kind args i))
    (call : ∀ name args, (∀ arg ∈ args, motive arg) → motive (.call name args)) :
    ∀ e, motive e
  | .const q => const q
  | .symbol name => symbol name
  | .member object index => member object index
  | .op kind args i => op kind args i fun arg _h => induction const symbol member op call arg
  | .call name args => call name args fun arg _h => induction const symbol member op call arg
termination_by e => e.size
decreasing_by
  all_goals
    have := size_le_sizeAll _h
    rw [size]
    omega

/-- The same where all the nodes are treated alike. -/
@[elab_as_elim]
theorem induction_args {motive : Expr → Prop}
    (node : ∀ e, (∀ arg ∈ e.args, motive arg) → motive e) (e : Expr) : motive e := by
  induction e using induction with
  | const q => exact node _ nofun
  | symbol name => exact node _ nofun
  | member object index => exact node _ nofun
  | op kind args i ih => exact node _ ih
  | call name args ih => exact node _ ih

mutual

/-- Tells whether a variable occurs in a tree. -/
def mentions (name : String) : Expr → Bool
  | symbol other => other == name
  | op _ args _ => anyMentions name args
  | call _ args => anyMentions name args
  | _ => false

/-- Tells whether a variable occurs in one of the trees. -/
def anyMentions (name : String) : List Expr → Bool
  | [] => false
  | e :: es => mentions name e || anyMentions name es

end

/-- Tells whether the printed form begins with a minus sign. -/
def startsNegative : Expr → Bool
  | const value => value < 0
  | op .neg _ _ => true
  | op .mul (first :: _) _ => startsNegative first
  | op .div (first :: _) _ => startsNegative first
  | _ => false

/-! ### Equality up to order -/

/-- The list without its first member that passes the test, if there is one. -/
def removeFirst? {α : Type} (test : α → Bool) : List α → Option (List α)
  | [] => none
  | a :: as => if test a then some as else (removeFirst? test as).map (a :: ·)

mutual

/-- Equality up to the order of the arguments of sums and products, and up to the way products
are written. -/
def alike : Expr → Expr → Bool
  | const a, const b => a == b
  | symbol a, symbol b => a == b
  | member object index, member object' index' => object == object' && index == index'
  | op kind args _, op kind' args' _ =>
      kind == kind' && if kind.isCommutative then alikeInSomeOrder args args'
        else alikeInOrder args args'
  | call name args, call name' args' => name == name' && alikeInOrder args args'
  | _, _ => false

/-- The trees of two lists are alike one by one. -/
def alikeInOrder : List Expr → List Expr → Bool
  | [], [] => true
  | a :: as, b :: bs => alike a b && alikeInOrder as bs
  | _, _ => false

/-- The trees of the first list can be paired off with like ones of the second, each taking
the first that is still free. -/
def alikeInSomeOrder : List Expr → List Expr → Bool
  | [], bs => bs.isEmpty
  | a :: as, bs =>
      match removeFirst? (alike a) bs with
      | some rest => alikeInSomeOrder as rest
      | none => false

end

/-! ### Paths -/

/-- The node at the end of a path. -/
def get? : Expr → Path → Option Expr
  | e, [] => some e
  | e, i :: path =>
      match e.args[i]? with
      | some arg => arg.get? path
      | none => none

/-- The node with other arguments. -/
def withArgs (e : Expr) (args : List Expr) : Expr :=
  match e with
  | op kind _ implicit => op kind args implicit
  | call name _ => call name args
  | leaf => leaf

/-- The tree with the node at the end of a path replaced, if the path leads to a node. -/
def replace? : Expr → Path → (new : Expr) → Option Expr
  | _, [], new => some new
  | e, i :: path, new =>
      match e.args[i]? with
      | some arg => (arg.replace? path new).map fun arg => e.withArgs (e.args.set i arg)
      | none => none

/-- The node at the end of a path, and the tree with another one in its place. -/
def exchange? : Expr → Path → (new : Expr) → Option (Expr × Expr)
  | e, [], new => some (e, new)
  | e, i :: path, new =>
      match e.args[i]? with
      | some arg =>
          (arg.exchange? path new).map fun (old, arg) => (old, e.withArgs (e.args.set i arg))
      | none => none

/-- The tree with one more argument at the end of the operator or function a path leads to. -/
def pushArg? (e : Expr) (path : Path) (new : Expr) : Option Expr :=
  match e.get? path with
  | some (op kind args implicit) => e.replace? path (op kind (args ++ [new]) implicit)
  | some (call name args) => e.replace? path (call name (args ++ [new]))
  | _ => none

mutual

/-- The nodes of a tree with their paths, arguments before the node they belong to and from
left to right.  The root comes last. -/
def postOrder : Expr → List (Path × Expr)
  | e@(op _ args _) => postOrderFrom 0 args ++ [([], e)]
  | e@(call _ args) => postOrderFrom 0 args ++ [([], e)]
  | e => [([], e)]

/-- The nodes of the arguments from the `i`-th on, with their paths from the node that has
these arguments. -/
def postOrderFrom (i : Nat) : List Expr → List (Path × Expr)
  | [] => []
  | e :: es => (postOrder e).map (fun (path, node) => (i :: path, node)) ++ postOrderFrom (i + 1) es

end

/-- The longest beginning of a path that leads to a node. -/
def validPrefix : Expr → Path → Path
  | _, [] => []
  | e, i :: path =>
      match e.args[i]? with
      | some arg => i :: arg.validPrefix path
      | none => []

end Expr

end AlgebraTutor
