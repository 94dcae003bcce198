/-
The names of what can happen to an expression or an equation.

Every name has a written form, and no two names of one family have the same one, so the
written form can be read back.
-/
namespace AlgebraTutor

/-- The kinds of change that one step can make to an expression. -/
inductive Change
  /-- No change: the input, as the first step of a trace. -/
  | givenExpression
  | noChange
  /-- A change that could not be identified. -/
  | unknown
  | rearrangeCoefficients
  | convertDecimalToFraction
  | logOfOne
  | logOfBase
  | logOfPowerOfBase
  | logPowerRule
  | powerOfLogBase
  | removeAddingZero
  | removeMultiplyingByOne
  | multiplyByZero
  | removeExponentByOne
  | reduceExponentByZero
  | removeDividingByOne
  | divideByNegativeOne
  | removeMultiplyingByNegativeOne
  | resolveDoubleMinus
  | reduceZeroNumerator
  | removeExponentBaseOne
  | multiplyNegatives
  | cancelMinuses
  | multiplyByInverse
  | simplifyNestedFraction
  | multiplyByFraction
  | cancelTerms
  | cancelFactors
  | divideBySelf
  | cancelCommonFactor
  | cancelNumerator
  | collectLikeTerms
  | multiplyLikeFactors
  | addExponentOfOne
  | addExponents
  | evaluateTrigFunction
  | absoluteValue
  | convertPercent
  | distribute
  | distributeNegativeOne
  | cancelRootOfPower
  | removeRootIndexOne
  | rootOfPower
  | cancelPowerOfRoot
  | simplifyRootOfConstant
  | expandSquareOfSum
  | simplifyArithmeticAdd
  | simplifyArithmeticSubtract
  | simplifyArithmeticMultiply
  | simplifyArithmeticDivide
  | simplifyArithmeticPower
  | simplifyFraction
  | addFractions
  | addIntegerAndFraction
  | multiplyFractions
deriving DecidableEq, Repr, Inhabited

/-- Plausible but wrong ways to apply a rule. -/
inductive Mistake
  | addedOneTooMany
  | addedOneTooFew
  | multipliedInsteadOfAdded
  | addedInsteadOfSubtracted
  | multipliedOneTooMany
  | multipliedOneTooFew
  | addedInsteadOfMultiplied
  | multipliedInsteadOfDivided
  | dividedInsteadOfMultiplied
  | multipliedInsteadOfPower
  | addedDenominators
  | multipliedExponents
  | squaredEachTerm
  | distributedNegativeToFirstTermOnly
  /-- A wrong step whose mistake could not be identified. -/
  | unknown
deriving DecidableEq, Repr, Inhabited

/-- The kinds of change to an equation as a whole. -/
inductive EquationChange
  | noChange
  | swapSides
  | simplifyLhs
  | simplifyRhs
  /-- Each side was simplified on its own. -/
  | simplifyBoth
  /-- The same was done to both sides. -/
  | sameOperationBothSides
  | subtractFromBothSides
  | divideBothSides
  | multiplyBothSides
  | negateBothSides
  | moveToLeftSide
  | unknown
deriving DecidableEq, Repr, Inhabited

/-- Mistakes made when changing both sides of an equation. -/
inductive EquationError
  /-- A term was removed from each side instead of moved from one to the other. -/
  | attemptedRemovalBothSides
  /-- Something was done to each side. -/
  | placedBothSides
  /-- What was undone on one side is not what was done to the other. -/
  | notSameOpPerformed
  | removedFromLhsOnly
  | removedFromRhsOnly
  | addedToLhsOnly
  | addedToRhsOnly
deriving DecidableEq, Repr, Inhabited

/-- The message for a name that no member of the family has. -/
def unknownNameMessage (family name : String) : String :=
  "unknown " ++ family ++ " `" ++ name ++ "`"

namespace Change

/-- What the family of names is called in messages. -/
def family : String := "ChangeType"

/-- Every change, in order. -/
def all : List Change :=
  [givenExpression, noChange, unknown, rearrangeCoefficients, convertDecimalToFraction,
    logOfOne, logOfBase, logOfPowerOfBase, logPowerRule, powerOfLogBase, removeAddingZero,
    removeMultiplyingByOne, multiplyByZero, removeExponentByOne, reduceExponentByZero,
    removeDividingByOne, divideByNegativeOne, removeMultiplyingByNegativeOne, resolveDoubleMinus,
    reduceZeroNumerator, removeExponentBaseOne, multiplyNegatives, cancelMinuses,
    multiplyByInverse, simplifyNestedFraction, multiplyByFraction, cancelTerms, cancelFactors,
    divideBySelf, cancelCommonFactor, cancelNumerator, collectLikeTerms, multiplyLikeFactors,
    addExponentOfOne, addExponents, evaluateTrigFunction, absoluteValue, convertPercent,
    distribute, distributeNegativeOne, cancelRootOfPower, removeRootIndexOne, rootOfPower,
    cancelPowerOfRoot, simplifyRootOfConstant, expandSquareOfSum, simplifyArithmeticAdd,
    simplifyArithmeticSubtract, simplifyArithmeticMultiply, simplifyArithmeticDivide,
    simplifyArithmeticPower, simplifyFraction, addFractions, addIntegerAndFraction,
    multiplyFractions]

/-- The written form of a change. -/
def name : Change → String
  | givenExpression => "ORIGINAL_EXPRESSION"
  | noChange => "NO_CHANGE"
  | unknown => "UNKNOWN"
  | rearrangeCoefficients => "REARRANGE_COEFFICIENTS"
  | convertDecimalToFraction => "CONVERT_DECIMAL_TO_FRACTION"
  | logOfOne => "LOG_OF_ONE"
  | logOfBase => "LOG_OF_BASE"
  | logOfPowerOfBase => "LOG_OF_POWER_OF_BASE"
  | logPowerRule => "LOG_POWER_RULE"
  | powerOfLogBase => "POWER_OF_LOG_BASE"
  | removeAddingZero => "REMOVE_ADDING_ZERO"
  | removeMultiplyingByOne => "REMOVE_MULTIPLYING_BY_ONE"
  | multiplyByZero => "MULTIPLY_BY_ZERO"
  | removeExponentByOne => "REMOVE_EXPONENT_BY_ONE"
  | reduceExponentByZero => "REDUCE_EXPONENT_BY_ZERO"
  | removeDividingByOne => "REMOVE_DIVIDING_BY_ONE"
  | divideByNegativeOne => "DIVIDE_BY_NEGATIVE_ONE"
  | removeMultiplyingByNegativeOne => "REMOVE_MULTIPLYING_BY_NEGATIVE_ONE"
  | resolveDoubleMinus => "RESOLVE_DOUBLE_MINUS"
  | reduceZeroNumerator => "REDUCE_ZERO_NUMERATOR"
  | removeExponentBaseOne => "REMOVE_EXPONENT_BASE_ONE"
  | multiplyNegatives => "MULTIPLY_NEGATIVES"
  | cancelMinuses => "CANCEL_MINUSES"
  | multiplyByInverse => "MULTIPLY_BY_INVERSE"
  | simplifyNestedFraction => "SIMPLIFY_NESTED_FRACTION"
  | multiplyByFraction => "MULTIPLY_BY_FRACTION"
  | cancelTerms => "CANCEL_TERMS"
  | cancelFactors => "CANCEL_FACTORS"
  | divideBySelf => "DIVIDE_BY_SELF"
  | cancelCommonFactor => "CANCEL_COMMON_FACTOR"
  | cancelNumerator => "CANCEL_NUMERATOR"
  | collectLikeTerms => "COLLECT_LIKE_TERMS"
  | multiplyLikeFactors => "MULTIPLY_LIKE_FACTORS"
  | addExponentOfOne => "ADD_EXPONENT_OF_ONE"
  | addExponents => "ADD_EXPONENTS"
  | evaluateTrigFunction => "EVALUATE_TRIG_FUNCTION"
  | absoluteValue => "ABSOLUTE_VALUE"
  | convertPercent => "CONVERT_PERCENT"
  | distribute => "DISTRIBUTE"
  | distributeNegativeOne => "DISTRIBUTE_NEGATIVE_ONE"
  | cancelRootOfPower => "CANCEL_ROOT_OF_POWER"
  | removeRootIndexOne => "REMOVE_ROOT_INDEX_ONE"
  | rootOfPower => "ROOT_OF_POWER"
  | cancelPowerOfRoot => "CANCEL_POWER_OF_ROOT"
  | simplifyRootOfConstant => "SIMPLIFY_ROOT_OF_CONSTANT"
  | expandSquareOfSum => "EXPAND_SQUARE_OF_SUM"
  | simplifyArithmeticAdd => "SIMPLIFY_ARITHMETIC__ADD"
  | simplifyArithmeticSubtract => "SIMPLIFY_ARITHMETIC__SUBTRACT"
  | simplifyArithmeticMultiply => "SIMPLIFY_ARITHMETIC__MULTIPLY"
  | simplifyArithmeticDivide => "SIMPLIFY_ARITHMETIC__DIVIDE"
  | simplifyArithmeticPower => "SIMPLIFY_ARITHMETIC__POWER"
  | simplifyFraction => "SIMPLIFY_FRACTION"
  | addFractions => "ADD_FRACTIONS"
  | addIntegerAndFraction => "ADD_INTEGER_AND_FRACTION"
  | multiplyFractions => "MULTIPLY_FRACTIONS"

/-- The change with the given written form. -/
def ofName? (name : String) : Option Change := all.find? fun change => change.name = name

end Change

namespace Mistake

/-- What the family of names is called in messages. -/
def family : String := "MistakeType"

/-- Every mistake, in order. -/
def all : List Mistake :=
  [addedOneTooMany, addedOneTooFew, multipliedInsteadOfAdded, addedInsteadOfSubtracted,
    multipliedOneTooMany, multipliedOneTooFew, addedInsteadOfMultiplied,
    multipliedInsteadOfDivided, dividedInsteadOfMultiplied, multipliedInsteadOfPower,
    addedDenominators, multipliedExponents, squaredEachTerm, distributedNegativeToFirstTermOnly,
    unknown]

/-- The written form of a mistake. -/
def name : Mistake → String
  | addedOneTooMany => "ADDED_ONE_TOO_MANY"
  | addedOneTooFew => "ADDED_ONE_TOO_FEW"
  | multipliedInsteadOfAdded => "MULTIPLIED_INSTEAD_OF_ADDED"
  | addedInsteadOfSubtracted => "ADDED_INSTEAD_OF_SUBTRACTED"
  | multipliedOneTooMany => "MULTIPLIED_ONE_TOO_MANY"
  | multipliedOneTooFew => "MULTIPLIED_ONE_TOO_FEW"
  | addedInsteadOfMultiplied => "ADDED_INSTEAD_OF_MULTIPLIED"
  | multipliedInsteadOfDivided => "MULTIPLIED_INSTEAD_OF_DIVIDED"
  | dividedInsteadOfMultiplied => "DIVIDED_INSTEAD_OF_MULTIPLIED"
  | multipliedInsteadOfPower => "MULTIPLIED_INSTEAD_OF_POWER"
  | addedDenominators => "ADDED_DENOMINATORS"
  | multipliedExponents => "MULTIPLIED_EXPONENTS"
  | squaredEachTerm => "SQUARED_EACH_TERM"
  | distributedNegativeToFirstTermOnly => "DISTRIBUTED_NEGATIVE_TO_FIRST_TERM_ONLY"
  | unknown => "UNKNOWN"

/-- The mistake with the given written form. -/
def ofName? (name : String) : Option Mistake := all.find? fun mistake => mistake.name = name

end Mistake

namespace EquationChange

/-- What the family of names is called in messages. -/
def family : String := "EquationChange"

/-- Every change of an equation, in order. -/
def all : List EquationChange :=
  [noChange, swapSides, simplifyLhs, simplifyRhs, simplifyBoth, sameOperationBothSides,
    subtractFromBothSides, divideBothSides, multiplyBothSides, negateBothSides, moveToLeftSide,
    unknown]

/-- The written form of a change of an equation. -/
def name : EquationChange → String
  | noChange => "NO_CHANGE"
  | swapSides => "SWAP_SIDES"
  | simplifyLhs => "SIMPLIFY_LHS"
  | simplifyRhs => "SIMPLIFY_RHS"
  | simplifyBoth => "EQ_SIMPLIFY_BOTH"
  | sameOperationBothSides => "EQ_SAME_OPERATION_BOTH_SIDES"
  | subtractFromBothSides => "SUBTRACT_FROM_BOTH_SIDES"
  | divideBothSides => "DIVIDE_BOTH_SIDES"
  | multiplyBothSides => "MULTIPLY_BOTH_SIDES"
  | negateBothSides => "NEGATE_BOTH_SIDES"
  | moveToLeftSide => "MOVE_TO_LEFT_SIDE"
  | unknown => "UNKNOWN"

/-- The change of an equation with the given written form. -/
def ofName? (name : String) : Option EquationChange :=
  all.find? fun change => change.name = name

end EquationChange

namespace EquationError

/-- What the family of names is called in messages. -/
def family : String := "EquationError"

/-- Every mistake with an equation, in order. -/
def all : List EquationError :=
  [attemptedRemovalBothSides, placedBothSides, notSameOpPerformed, removedFromLhsOnly,
    removedFromRhsOnly, addedToLhsOnly, addedToRhsOnly]

/-- The written form of a mistake with an equation. -/
def name : EquationError → String
  | attemptedRemovalBothSides => "EQ_ATMPT_REMOVAL_BOTH_SIDES"
  | placedBothSides => "EQ_PLACED_BOTH_SIDES"
  | notSameOpPerformed => "EQ_NOT_SAME_OP_PERFORMED"
  | removedFromLhsOnly => "EQ_REMOVED_FROM_LHS_ONLY"
  | removedFromRhsOnly => "EQ_REMOVED_FROM_RHS_ONLY"
  | addedToLhsOnly => "EQ_ADDED_TO_LHS_ONLY"
  | addedToRhsOnly => "EQ_ADDED_TO_RHS_ONLY"

/-- The mistake with an equation that has the given written form. -/
def ofName? (name : String) : Option EquationError :=
  all.find? fun error => error.name = name

end EquationError

end AlgebraTutor
