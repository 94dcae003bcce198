/-
What can go wrong, and how it is told.

An error is a cause together with the places in the text that it concerns.  Causes found
while reading a text always have a place.  Causes found later (a pattern that needs an
unknown, a rule that cannot be read) have none, and then there is nothing to point at, so a
report shows only the message.
-/
import AlgebraTutor.Token

namespace AlgebraTutor

/-- The reason an operation cannot be carried out. -/
inductive Cause
  /-- The text ends where more is needed. -/
  | unexpectedEof
  /-- A complete expression is followed by something else. -/
  | expectedEof
  /-- A token of another kind is needed here. -/
  | unexpectedToken (expected : List TokenKind) (found : TokenKind)
  /-- A parenthesis without partner: an opening one, or else a closing one. -/
  | unclosedParenthesis (opening : Bool)
  /-- A pair of parentheses with nothing inside. -/
  | emptyParenthesis
  /-- An equation without equals sign. -/
  | expectedEquation
  /-- A pattern mentions the unknown, and no unknown is chosen. -/
  | missingUnknown
  /-- A rule whose pattern cannot be read, or whose result uses an unbound wildcard. -/
  | malformedRule (rule : String)
  /-- A number that cannot be read. -/
  | invalidInput (input : String)
  /-- A text that does not have exactly one equals sign. -/
  | notAnEquation
deriving DecidableEq, Repr, Inhabited

/-- A cause and the places it concerns. -/
structure Error where
  cause : Cause
  spans : List Span
deriving DecidableEq, Repr, Inhabited

namespace Cause

/-- The one-line message. -/
def message : Cause → String
  | unexpectedEof => "unexpected end of file"
  | expectedEof => "expected end of file"
  | unexpectedToken _ _ => "unexpected token"
  | unclosedParenthesis _ => "unclosed parenthesis"
  | emptyParenthesis => "missing expression inside parenthesis"
  | expectedEquation => "expected an equation"
  | missingUnknown => "no unknown variable was set for equation-mode pattern matching"
  | malformedRule rule => "malformed rule pattern `" ++ rule ++ "`"
  | invalidInput input => "invalid input `" ++ input ++ "`"
  | notAnEquation => "expected an equation"

/-- What is written at the place of the error. -/
def label : Cause → String
  | unexpectedEof => "you might need to add another expression here"
  | expectedEof => "I could not understand the remaining expression here"
  | unexpectedToken expected _ =>
      "expected one of: " ++ String.intercalate ", " (expected.map TokenKind.label)
  | unclosedParenthesis _ => "this parenthesis is not closed"
  | emptyParenthesis => "add an expression here"
  | expectedEquation => "I expected to see `=` here"
  | missingUnknown => "this pattern"
  | malformedRule _ => "this pattern"
  | invalidInput _ => "this expression could not be read"
  | notAnEquation => "this input"

/-- Advice on how to mend the text, where there is any. -/
def help? : Cause → Option String
  | unexpectedEof => none
  | expectedEof => none
  | unexpectedToken _ found => some ("found " ++ found.label)
  | unclosedParenthesis true => some "add a closing parenthesis `)` somewhere after this"
  | unclosedParenthesis false => some "add an opening parenthesis `(` somewhere before this"
  | emptyParenthesis => none
  | expectedEquation => some "equations have the form lhs = rhs"
  | missingUnknown => some "call `Session::solve` with the variable to solve for"
  | malformedRule _ => some "rule patterns must be valid expressions or equations"
  | invalidInput _ => none
  | notAnEquation => some "equations are written as `lhs = rhs`"

/-- The error of this cause at one place. -/
def located (cause : Cause) (span : Span) : Error := ⟨cause, [span]⟩

/-- The error of this cause at no place. -/
def unlocated (cause : Cause) : Error := ⟨cause, []⟩

end Cause

/-- What is shown of an error. -/
structure Report where
  message : String
  headline : String
  label : Option String
  help : Option String
deriving DecidableEq, Repr

namespace Error

/-- The one-line message. -/
def message (error : Error) : String := error.cause.message

/-- The report of an error.  Label and advice hang on a place, so an error without one has
neither. -/
def report (error : Error) : Report where
  message := error.message
  headline := "Error: " ++ error.message
  label := if error.spans.isEmpty then none else some error.cause.label
  help := if error.spans.isEmpty then none else error.cause.help?

end Error

/-- What is done in sequence has a result if the first part has one, and the second has it for
that. -/
theorem bind_eq_ok {ε α β : Type} {x : Except ε α} {f : α → Except ε β} {b : β} :
    (x >>= f) = .ok b ↔ ∃ a, x = .ok a ∧ f a = .ok b := by
  cases x <;> simp [bind, Except.bind]

end AlgebraTutor
