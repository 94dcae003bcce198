/-
Rules for functions: decimals as fractions, logarithms, values of trigonometric functions,
magnitudes, percentages and roots.

Logarithms are all written `logXY(base, x)` and roots `nthRoot(x, index)`, as in the normal
form of trees.
-/
import AlgebraTutor.Number.Root
import AlgebraTutor.Rule.Table

namespace AlgebraTutor

open Pattern.Wildcard

namespace Decimals

/-- A constant that is no integer, as a fraction. -/
def toFraction : Builder := fun _ b => do
  let value ← b.constant? "c1"
  if value.den = 1 then none else return Expr.ofRat value

/-- The rules for decimals as they are written. -/
def table : List RuleText := [.computed .convertDecimalToFraction "c1" toFraction]

/-- The rules for decimals. -/
def rules : List RuleSpec := [.computed .convertDecimalToFraction c1 toFraction]

end Decimals

namespace Logarithms

/-- The pattern of a logarithm. -/
def log (base argument : Pattern) : Pattern := .call "logXY" [base, argument]

/-- The logarithm of a power of the base, such as `logXY(10, 1000) = 3`. -/
def ofPower : Builder := fun _ b => do
  let base ← b.integer? "c1"
  let value ← b.integer? "c2"
  if base ≤ 1 ∨ value ≤ 1 then none
  else
    let (exponent, rest) := factorOut base.natAbs value.natAbs
    if rest = 1 then return .const (exponent : Rat) else none

/-- The rules for logarithms as they are written. -/
def table : List RuleText := [
  .structural .logOfOne "logXY(n1, 1)" "0",
  .structural .logOfBase "logXY(n1, n1)" "1",
  .structural .logOfPowerOfBase "logXY(n1, n1 ^ n2)" "n2",
  .computed .logOfPowerOfBase "logXY(c1, c2)" ofPower,
  .structural .logPowerRule "logXY(n1, n2 ^ n3)" "n3 * logXY(n1, n2)",
  .structural .powerOfLogBase "n1 ^ logXY(n1, n2)" "n2"]

/-- The rules for logarithms. -/
def rules : List RuleSpec := [
  .structural .logOfOne (log n1 1) 0,
  .structural .logOfBase (log n1 n1) 1,
  .structural .logOfPowerOfBase (log n1 (n1.pow n2)) n2,
  .computed .logOfPowerOfBase (log c1 c2) ofPower,
  .structural .logPowerRule (log n1 (n2.pow n3)) (n3 * log n1 n2),
  .structural .powerOfLogBase (n1.pow (log n1 n2)) n2]

end Logarithms

namespace Trigonometry

/-- The functions whose values are known at some angles. -/
inductive Ratio
  | sine
  | cosine
  | tangent
deriving DecidableEq, Repr

/-- The function of this name. -/
def Ratio.ofName? : String → Option Ratio
  | "sin" => some sine
  | "cos" => some cosine
  | "tan" => some tangent
  | _ => none

/-- A square root of a number, divided by another number. -/
def rootOver (radicand divisor : Rat) : Expr :=
  .quotient (.call "nthRoot" [.const radicand, .const 2]) (.const divisor)

/-- The negation of a square root, divided by a number. -/
def minusRootOver (radicand divisor : Rat) : Expr :=
  .quotient (.minus (.call "nthRoot" [.const radicand, .const 2])) (.const divisor)

/-- The square root of three. -/
def rootThree : Expr := .call "nthRoot" [.const 3, .const 2]

/-- One half. -/
def half : Expr := .quotient (.const 1) (.const 2)

/-- The negation of one half. -/
def minusHalf : Expr := .quotient (.const (-1)) (.const 2)

/-- The values of sine, cosine and tangent at an angle.  The tangent is not always defined. -/
structure Values (α : Type) where
  sine : α
  cosine : α
  tangent : Option α

/-- The value of one of the functions. -/
def Values.get? {α : Type} (values : Values α) : Ratio → Option α
  | .sine => some values.sine
  | .cosine => some values.cosine
  | .tangent => values.tangent

/-- Reads the values at an angle, in normal form. -/
def Values.read (angle : Nat × Values String) : Except Error (Nat × Values Expr) := do
  let sine ← Expr.parseNormal angle.2.sine
  let cosine ← Expr.parseNormal angle.2.cosine
  let tangent ← angle.2.tangent.mapM Expr.parseNormal
  return (angle.1, ⟨sine, cosine, tangent⟩)

/-- The values as they are written, at the angles that can be constructed, which are given in
24ths of a turn. -/
def valueTexts : List (Nat × Values String) := [
  (0, ⟨"0", "1", some "0"⟩),
  (2, ⟨"1/2", "nthRoot(3, 2)/2", some "nthRoot(3, 2)/3"⟩),
  (3, ⟨"nthRoot(2, 2)/2", "nthRoot(2, 2)/2", some "1"⟩),
  (4, ⟨"nthRoot(3, 2)/2", "1/2", some "nthRoot(3, 2)"⟩),
  (6, ⟨"1", "0", none⟩),
  (8, ⟨"nthRoot(3, 2)/2", "-1/2", some "-nthRoot(3, 2)"⟩),
  (9, ⟨"nthRoot(2, 2)/2", "-nthRoot(2, 2)/2", some "-1"⟩),
  (10, ⟨"1/2", "-nthRoot(3, 2)/2", some "-nthRoot(3, 2)/3"⟩),
  (12, ⟨"0", "-1", some "0"⟩),
  (14, ⟨"-1/2", "-nthRoot(3, 2)/2", some "nthRoot(3, 2)/3"⟩),
  (15, ⟨"-nthRoot(2, 2)/2", "-nthRoot(2, 2)/2", some "1"⟩),
  (16, ⟨"-nthRoot(3, 2)/2", "-1/2", some "nthRoot(3, 2)"⟩),
  (18, ⟨"-1", "0", none⟩),
  (20, ⟨"-nthRoot(3, 2)/2", "1/2", some "-nthRoot(3, 2)"⟩),
  (21, ⟨"-nthRoot(2, 2)/2", "nthRoot(2, 2)/2", some "-1"⟩),
  (22, ⟨"-1/2", "nthRoot(3, 2)/2", some "-nthRoot(3, 2)/3"⟩)]

/-- The values at these angles. -/
def table : List (Nat × Values Expr) := [
  (0, ⟨.const 0, .const 1, some (.const 0)⟩),
  (2, ⟨half, rootOver 3 2, some (rootOver 3 3)⟩),
  (3, ⟨rootOver 2 2, rootOver 2 2, some (.const 1)⟩),
  (4, ⟨rootOver 3 2, half, some rootThree⟩),
  (6, ⟨.const 1, .const 0, none⟩),
  (8, ⟨rootOver 3 2, minusHalf, some (.minus rootThree)⟩),
  (9, ⟨rootOver 2 2, minusRootOver 2 2, some (.const (-1))⟩),
  (10, ⟨half, minusRootOver 3 2, some (minusRootOver 3 3)⟩),
  (12, ⟨.const 0, .const (-1), some (.const 0)⟩),
  (14, ⟨minusHalf, minusRootOver 3 2, some (rootOver 3 3)⟩),
  (15, ⟨minusRootOver 2 2, minusRootOver 2 2, some (.const 1)⟩),
  (16, ⟨minusRootOver 3 2, minusHalf, some rootThree⟩),
  (18, ⟨.const (-1), .const 0, none⟩),
  (20, ⟨minusRootOver 3 2, half, some (.minus rootThree)⟩),
  (21, ⟨minusRootOver 2 2, rootOver 2 2, some (.const (-1))⟩),
  (22, ⟨minusHalf, rootOver 3 2, some (minusRootOver 3 3)⟩)]

/-- The values at an angle given as a part of a turn, from zero up to one. -/
def valuesAt? (turns : Rat) : Option (Values Expr) :=
  (table.find? fun (part, _) => (part : Rat) / 24 = turns).map Prod.snd

/-- Tells the constant pi from other nodes. -/
def isPi : Expr → Bool
  | .member object index => object == "const" && index == "pi"
  | _ => false

/-- The number of half turns in an angle that is written as a multiple of pi. -/
def halfTurns? : Expr → Option Rat
  | .const value => if value = 0 then some 0 else none
  | .member object index => if isPi (.member object index) then some 1 else none
  | .op .mul [.const factor, other] _ => if isPi other then some factor else none
  | .op .mul [other, .const factor] _ => if isPi other then some factor else none
  | .op .div [numerator, .const denominator] _ =>
      if denominator = 0 then none else (halfTurns? numerator).map (· / denominator)
  | .op .neg (operand :: _) _ => (halfTurns? operand).map fun turns => -turns
  | _ => none

/-- The value of a function at a known angle, such as `sin(const.pi/6) = 1/2`. -/
def evaluate : Builder := fun e _ =>
  match e with
  | .call name args => do
      let ratio ← Ratio.ofName? name
      let turns := (← halfTurns? (← args.head?)) / 2
      let values ← valuesAt? (turns - (turns.floor : Rat))
      values.get? ratio
  | _ => none

end Trigonometry

namespace Functions

/-- The magnitude of a constant, such as `abs(-3) = 3`. -/
def absoluteValue : Builder := fun _ b => do
  let value ← b.constant? "c1"
  return Expr.ofRat (if value < 0 then -value else value)

/-- The rules for the values of functions as they are written. -/
def table : List RuleText := [
  .computed .evaluateTrigFunction "sin(n1)" Trigonometry.evaluate,
  .computed .evaluateTrigFunction "cos(n1)" Trigonometry.evaluate,
  .computed .evaluateTrigFunction "tan(n1)" Trigonometry.evaluate,
  .computed .absoluteValue "abs(c1)" absoluteValue,
  .structural .absoluteValue "abs(-n1)" "abs(n1)",
  .structural .convertPercent "percent(n1)" "n1 / 100"]

/-- The rules for the values of functions. -/
def rules : List RuleSpec := [
  .computed .evaluateTrigFunction (.call "sin" [n1]) Trigonometry.evaluate,
  .computed .evaluateTrigFunction (.call "cos" [n1]) Trigonometry.evaluate,
  .computed .evaluateTrigFunction (.call "tan" [n1]) Trigonometry.evaluate,
  .computed .absoluteValue (.call "abs" [c1]) absoluteValue,
  .structural .absoluteValue (.call "abs" [-n1]) (.call "abs" [n1]),
  .structural .convertPercent (.call "percent" [n1]) (n1 / 100)]

end Functions

namespace Roots

/-- The largest radicand that is taken apart into primes. -/
def maxRadicand : Nat := 1000000000000

/-- The largest index of a root that is worked out. -/
def maxIndex : Nat := 64

/-- The pattern of a root. -/
def root (radicand index : Pattern) : Pattern := .call "nthRoot" [radicand, index]

/-- The index of a root, if it can be worked out. -/
def index? (name : String) (b : Bindings) : Option Nat := do
  let index ← b.integer? name
  if 1 ≤ index ∧ index ≤ maxIndex then return index.natAbs else none

/-- The root of a power whose exponent the index divides, such as `nthRoot(x^6, 2) = x^3`. -/
def ofPower : Builder := fun _ b => do
  let exponent ← b.integer? "c1"
  let index ← index? "c2" b
  if exponent % index = 0 then
    let reduced : Int := exponent / index
    return Expr.power (← b.get? "n1") (.const (reduced : Rat))
  else none

/-- The product of the primes raised to what `share` takes of their exponents. -/
def productOf (primes : List (Nat × Nat)) (share : Nat → Nat) : Nat :=
  primes.foldl (fun product (prime, count) => product * prime.pow (share count)) 1

/-- The root of a constant: an integer if there is one, or else what can be taken out of the
root, such as `nthRoot(12, 2) = 2nthRoot(3, 2)`. -/
def ofConstant : Builder := fun _ b => do
  let radicand ← b.integer? "c1"
  let index ← index? "c2" b
  match exactRoot? radicand index with
  | some root => return .const (root : Rat)
  | none =>
    let magnitude := radicand.natAbs
    if (radicand < 0 ∧ index % 2 = 0) ∨ maxRadicand < magnitude ∨ magnitude < 2 then none
    else
      let primes := primePowers magnitude
      let outside := productOf primes (· / index)
      let inside := productOf primes (· % index)
      if outside = 1 then none
      else
        let outside : Int := if radicand < 0 then -(outside : Int) else outside
        return Expr.product [.const (outside : Rat),
          .call "nthRoot" [.const (inside : Rat), .const (index : Rat)]]

/-- The rules for roots of powers as they are written. -/
def powerTable : List RuleText := [
  .structural .cancelRootOfPower "nthRoot(n1 ^ n2, n2)" "n1",
  .structural .removeRootIndexOne "nthRoot(n1, 1)" "n1",
  .computed .rootOfPower "nthRoot(n1 ^ c1, c2)" ofPower,
  .structural .cancelPowerOfRoot "nthRoot(n1, n2) ^ n2" "n1"]

/-- The rules for roots of constants as they are written. -/
def constantTable : List RuleText := [
  .computed .simplifyRootOfConstant "nthRoot(c1, c2)" ofConstant]

/-- The rules for roots of powers. -/
def powerRules : List RuleSpec := [
  .structural .cancelRootOfPower (root (n1.pow n2) n2) n1,
  .structural .removeRootIndexOne (root n1 1) n1,
  .computed .rootOfPower (root (n1.pow c1) c2) ofPower,
  .structural .cancelPowerOfRoot (.pow (root n1 n2) n2) n1]

/-- The rules for roots of constants. -/
def constantRules : List RuleSpec := [.computed .simplifyRootOfConstant (root c1 c2) ofConstant]

end Roots

end AlgebraTutor
