/-
Attempts to read.

A reader that fails may have gone ahead before it did.  An attempt goes back to where it began, so
something else can be tried from there.
-/
import AlgebraTutor.Formula.Reader

namespace AlgebraTutor

/-- What reading comes to from a cursor on. -/
abbrev Reader (α : Type) := (c : Cursor) → Outcome α c.left

namespace Reader

variable {α : Type}

/-- Reads, or stays. -/
def attempt (read : Reader α) : Reader α := fun c => (read c).orStay c

/-- Reads what passes a test, or stays.  The test may look at the cursor behind what was read. -/
def attemptThen (read : Reader α) (test : α → Cursor → Option Error) : Reader α :=
  fun c => ((read c).check test).orStay c

/-- Reads from the cursor on what goes behind `values`, as long as tokens of the kind `separator`
follow.  A failure stands where the first of the values began. -/
def delimitedFrom (read : Reader α) (separator : TokenKind) (start : Cursor) (values : List α)
    (c : Cursor) : Outcome (List α) c.left :=
  match read.attempt c with
  | .failed error _ => .failed error start
  | .done value c₁ h₁ =>
    match c₁.expect separator with
    | .done _ c₂ h₂ =>
      (delimitedFrom read separator start (values ++ [value]) c₂).weaken (by omega)
    | .failed _ _ => .done (values ++ [value]) c₁ h₁
termination_by c.left

/-- Reads at least one value, with tokens of the kind `separator` between them, or stays. -/
def delimited (read : Reader α) (separator : TokenKind) : Reader (List α) :=
  fun c => delimitedFrom read separator c [] c

end Reader

end AlgebraTutor
