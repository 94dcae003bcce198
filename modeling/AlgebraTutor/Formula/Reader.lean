/-
Reading formulas from tokens.

The readers follow the precedence of the operators.  `readOperations` goes on from a left
operand as long as operators bind at least as tightly as it is asked to; `absorb` lets a right
operand swallow what binds tighter to it than the operator on its left.  Where an operand is
followed by another one without an operator between them, the two are multiplied.

Every reader that succeeds has used up a token, and a reader that goes on without using one
hands over to a lower production; this order is the reason that reading ends.
-/
import AlgebraTutor.Formula.Basic
import AlgebraTutor.Formula.Cursor

namespace AlgebraTutor

namespace Formula

/-- Reads a name. -/
def readName (c : Cursor) : Outcome Name c.left :=
  (c.expect .name).map fun token => ⟨token.lexeme, token.span⟩

/-- Reads a number. -/
def readNumber (c : Cursor) : Outcome Formula c.left :=
  let number (token : Token) : Formula := .number token.lexeme token.span
  match c.expect .int with
  | .done token next shorter => .done (number token) next shorter
  | .failed _ _ => (c.expect .float).map number

/-- Reads a variable. -/
def readSymbol (c : Cursor) : Outcome Formula c.left := (readName c).map .symbol

/-- Reads a number or a variable. -/
def readLiteral (c : Cursor) : Outcome Formula c.left :=
  match readNumber c with
  | .done formula next shorter => .done formula next shorter
  | .failed _ _ => readSymbol c

/-- Reads a member of a named container. -/
def readMember (c : Cursor) : Outcome Formula c.left :=
  match readName c with
  | .failed error _ => .failed error c
  | .done object c₁ h₁ =>
    match c₁.expect .dot with
    | .failed error _ => .failed error c
    | .done _ c₂ h₂ =>
      match readName c₂ with
      | .failed error _ => .failed error c
      | .done index c₃ h₃ =>
        .done (.member object index ⟨object.span.start, index.span.stop⟩) c₃ (by omega)

/-- Reads an operator between two operands. -/
def readBinaryOp (c : Cursor) : Outcome BinaryOp c.left :=
  match c.next with
  | .failed error _ => .failed error c
  | .done token next shorter =>
    match BinaryKind.ofToken? token.kind with
    | some kind => .done ⟨kind, false, token.span⟩ next shorter
    | none =>
      let expected := BinaryKind.all.map BinaryKind.token
      .failed ((Cause.unexpectedToken expected token.kind).located token.span) c

/-- Reads the sign of a negation. -/
def readSign (c : Cursor) : Outcome Span c.left := (c.expect .sub).map (·.span)

mutual

/-- Reads an expression.  One cannot begin with a closing parenthesis. -/
def readExpr (c : Cursor) : Outcome Formula c.left :=
  if c.sees .closeParen then .failed ((Cause.unclosedParenthesis false).located c.span) c
  else
    match readOperand c with
    | .failed error _ => .failed error c
    | .done lhs c₁ h₁ => (readOperations lhs .any c₁).weaken h₁
termination_by (c.left, 7)

/-- Reads expressions with tokens of the kind `separator` between them. -/
def readList (separator : TokenKind) (c : Cursor) : Outcome (List Formula) c.left :=
  match readExpr c with
  | .failed error _ => .failed error c
  | .done first c₁ h₁ =>
    match c₁.expect separator with
    | .failed _ _ => .done [first] c₁ h₁
    | .done _ c₂ h₂ =>
      match readList separator c₂ with
      | .failed error _ => .failed error c
      | .done others c₃ h₃ => .done (first :: others) c₃ (by omega)
termination_by (c.left, 8)

/-- Reads an operand, with its signs. -/
def readOperand (c : Cursor) : Outcome Formula c.left :=
  match readNegation c with
  | .done formula next shorter => .done formula next shorter
  | .failed _ _ => readPrimary c
termination_by (c.left, 6)

/-- Reads a negation.  The sign reaches over the powers that follow it, not over products. -/
def readNegation (c : Cursor) : Outcome Formula c.left :=
  match readSign c with
  | .failed error _ => .failed error c
  | .done sign c₁ h₁ =>
    match readOperand c₁ with
    | .failed error _ => .failed error c
    | .done lhs c₂ h₂ =>
      match readOperations lhs .negation c₂ with
      | .failed error _ => .failed error c
      | .done operand c₃ h₃ =>
        .done (.neg operand sign ⟨sign.start, operand.span.stop⟩) c₃ (by omega)
termination_by (c.left, 5)

/-- Reads a call, a member, a number, a variable or a formula in parentheses. -/
def readPrimary (c : Cursor) : Outcome Formula c.left :=
  match readCall c with
  | .done formula next shorter => .done formula next shorter
  | .failed _ _ =>
    match readMember c with
    | .done formula next shorter => .done formula next shorter
    | .failed _ _ =>
      match readLiteral c with
      | .done formula next shorter => .done formula next shorter
      | .failed _ _ => readParen c
termination_by (c.left, 3)

/-- Reads a call of a function. -/
def readCall (c : Cursor) : Outcome Formula c.left :=
  match readName c with
  | .failed error _ => .failed error c
  | .done name c₁ h₁ =>
    match c₁.expect .openParen with
    | .failed error _ => .failed error c
    | .done opening c₂ h₂ =>
      let close (args : List Formula) (c₃ : Cursor) (h₃ : c₃.left ≤ c₂.left) :
          Outcome Formula c.left :=
        match c₃.expect .closeParen with
        | .failed error _ => .failed error c
        | .done closing c₄ h₄ =>
          .done (.call name args ⟨name.span.start, closing.span.stop⟩
            ⟨opening.span.start, closing.span.stop⟩) c₄ (by omega)
      if c₂.sees .closeParen then close [] c₂ (Nat.le_refl _)
      else
        match readList .comma c₂ with
        | .failed error _ => .failed error c
        | .done args c₃ h₃ => close args c₃ (Nat.le_of_lt h₃)
termination_by (c.left, 2)

/-- Reads a formula in parentheses. -/
def readParen (c : Cursor) : Outcome Formula c.left :=
  match c.expect .openParen with
  | .failed error _ => .failed error c
  | .done opening c₁ h₁ =>
    if c₁.sees .closeParen then .failed (Cause.emptyParenthesis.located c₁.span) c
    else
      match readExpr c₁ with
      | .failed error _ => .failed error c
      | .done inner c₂ h₂ =>
        match c₂.expect .closeParen with
        | .failed _ _ => .failed ((Cause.unclosedParenthesis true).located opening.span) c
        | .done closing c₃ h₃ =>
          .done (.paren inner ⟨opening.span.start, closing.span.stop⟩) c₃ (by omega)
termination_by (c.left, 2)

/-- Goes on from the left operand `lhs` with every operator that binds at least as tightly as
`precedence`. -/
def readOperations (lhs : Formula) (precedence : Precedence) (c : Cursor) :
    Outcome Formula (c.left + 1) :=
  match readBinaryOp c with
  | .done op c₁ h₁ =>
    if precedence ≤ op.kind.precedence then
      (readOperation lhs op precedence c₁).weaken (by omega)
    else .done lhs c (Nat.lt_succ_self _)
  | .failed _ _ =>
    if precedence ≤ .factor then
      match readPrimary c with
      | .failed _ _ => .done lhs c (Nat.lt_succ_self _)
      | .done rhs c₁ h₁ =>
        match absorb lhs (juxtaposition lhs rhs) rhs c₁ with
        | .failed error stopped => .failed error stopped
        | .done product c₂ h₂ => (readOperations product precedence c₂).weaken (by omega)
    else .done lhs c (Nat.lt_succ_self _)
termination_by (c.left, 4)

/-- Reads the right operand of `op` and joins it to `lhs`, then goes on with what follows. -/
def readOperation (lhs : Formula) (op : BinaryOp) (precedence : Precedence) (c : Cursor) :
    Outcome Formula c.left :=
  match readOperand c with
  | .failed error _ => .failed error c
  | .done rhs c₁ h₁ =>
    match absorb lhs op rhs c₁ with
    | .failed error stopped => .failed error stopped
    | .done joined c₂ h₂ => (readOperations joined precedence c₂).weaken (by omega)
termination_by (c.left, 7)

/-- Joins `lhs` and `rhs` after the right operand has taken in every operator that binds
tighter than `op`, and every power. -/
def absorb (lhs : Formula) (op : BinaryOp) (rhs : Formula) (c : Cursor) :
    Outcome Formula (c.left + 1) :=
  match readBinaryOp c with
  | .done following c₁ h₁ =>
    if op.kind.precedence < following.kind.precedence ∨
        following.kind.associativity = .right then
      match readOperation rhs following following.kind.precedence c₁ with
      | .failed error stopped => .failed error stopped
      | .done larger c₂ h₂ => (absorb lhs op larger c₂).weaken (by omega)
    else .done (join lhs op rhs) c (Nat.lt_succ_self _)
  | .failed _ _ =>
    if .factor ≤ op.kind.precedence then .done (join lhs op rhs) c (Nat.lt_succ_self _)
    else
      match readPrimary c with
      | .failed _ _ => .done (join lhs op rhs) c (Nat.lt_succ_self _)
      | .done factor c₁ h₁ =>
        match absorb rhs (juxtaposition rhs factor) factor c₁ with
        | .failed error stopped => .failed error stopped
        | .done product c₂ h₂ => (absorb lhs op product c₂).weaken (by omega)
termination_by (c.left, 4)

end

/-- Reads a text that is one expression. -/
def parse (text : String) : Except Error Formula := (readExpr (.ofText text)).whole.result

end Formula

namespace Equation

/-- Reads two expressions with an equals sign between them. -/
def read (c : Cursor) : Outcome Equation c.left :=
  match Formula.readExpr c with
  | .failed error _ => .failed error c
  | .done lhs c₁ h₁ =>
    match c₁.expect .assign with
    | .failed _ _ => .failed (Cause.expectedEquation.located c₁.span) c₁
    | .done _ c₂ h₂ =>
      match Formula.readExpr c₂ with
      | .failed error _ => .failed error c₂
      | .done rhs c₃ h₃ => .done ⟨lhs, rhs, ⟨lhs.span.start, rhs.span.stop⟩⟩ c₃ (by omega)

/-- Reads a text that is one equation. -/
def parse (text : String) : Except Error Equation := (read (.ofText text)).whole.result

end Equation

end AlgebraTutor
