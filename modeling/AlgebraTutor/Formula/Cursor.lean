/-
A place in a row of tokens, and what reading from it can come to.

A reader starts at a cursor and either yields a value and the cursor behind what it read, or
an error and the cursor where it stopped.  The type of an outcome says that fewer tokens are
left after a success, which is why the readers of formulas come to an end.
-/
import AlgebraTutor.Error

namespace AlgebraTutor

/-- A place between two tokens of a text. -/
structure Cursor where
  /-- The token just before the place. -/
  last : Option Token
  /-- The tokens from the place on. -/
  ahead : List Token
  /-- The offset at which the last token of the text ends. -/
  size : Nat
deriving Repr, Inhabited

/-- The number of tokens from the cursor on. -/
def Cursor.left (c : Cursor) : Nat := c.ahead.length

/-- The result of reading with fewer than `bound` tokens left behind it. -/
inductive Outcome (α : Type) (bound : Nat)
  | done (value : α) (next : Cursor) (shorter : next.left < bound)
  | failed (error : Error) (stopped : Cursor)

namespace Outcome

/-- The same outcome under a larger bound. -/
def weaken {α : Type} {n m : Nat} (h : n ≤ m) : Outcome α n → Outcome α m
  | done value next shorter => done value next (Nat.lt_of_lt_of_le shorter h)
  | failed error stopped => failed error stopped

/-- The outcome with another value. -/
def map {α β : Type} {n : Nat} (f : α → β) : Outcome α n → Outcome β n
  | done value next shorter => done (f value) next shorter
  | failed error stopped => failed error stopped

/-- The outcome if the value passes a test, which may look at the cursor behind it.  What the
test returns is the reason to refuse the value. -/
def check {α : Type} {n : Nat} (test : α → Cursor → Option Error) : Outcome α n → Outcome α n
  | done value next shorter =>
      match test value next with
      | none => done value next shorter
      | some error => failed error next
  | failed error stopped => failed error stopped

/-- The outcome of an attempt: a failure stands where the attempt began. -/
def orStay {α : Type} {n : Nat} (start : Cursor) : Outcome α n → Outcome α n
  | failed error _ => failed error start
  | success => success

/-- The value or the error. -/
def result {α : Type} {n : Nat} : Outcome α n → Except Error α
  | done value _ _ => .ok value
  | failed error _ => .error error

/-- The cursor after the reader has finished or given up. -/
def cursor {α : Type} {n : Nat} : Outcome α n → Cursor
  | done _ next _ => next
  | failed _ stopped => stopped

end Outcome

namespace Cursor

/-- The cursor before the first token of a text. -/
def ofText (text : String) : Cursor :=
  let tokens := Token.scan text
  ⟨none, tokens, (tokens.getLast?.map (·.span.stop)).getD 0⟩

/-- The empty place at the end of the text. -/
def endSpan (c : Cursor) : Span := ⟨c.size, c.size⟩

/-- The place of the token at the cursor, blank or not, or else the end of the text. -/
def span (c : Cursor) : Span :=
  match c.ahead with
  | token :: _ => token.span
  | [] => c.endSpan

/-- The first token from the cursor on that is not blank. -/
def current? (c : Cursor) : Option Token := c.ahead.find? fun token => !token.isBlank

/-- Tells whether the next token that is not blank has the given kind. -/
def sees (c : Cursor) (kind : TokenKind) : Bool := c.current?.any (·.kind == kind)

/-- Takes the first of the tokens that is not blank. -/
def nextFrom (size : Nat) : (last : Option Token) → (ahead : List Token) →
    Outcome Token ahead.length
  | last, [] => .failed (Cause.unexpectedEof.located ⟨size, size⟩) ⟨last, [], size⟩
  | _, token :: ahead =>
      if token.isBlank then (nextFrom size (some token) ahead).weaken (Nat.le_succ _)
      else .done token ⟨some token, ahead, size⟩ (Nat.lt_succ_self _)

/-- Takes the next token that is not blank.  At the end of the text this fails, and the cursor
is left at the end. -/
def next (c : Cursor) : Outcome Token c.left := nextFrom c.size c.last c.ahead

/-- Takes the next token if it is of the given kind. -/
def expect (kind : TokenKind) (c : Cursor) : Outcome Token c.left :=
  match c.next with
  | .done token next shorter =>
      if token.kind = kind then .done token next shorter
      else .failed ((Cause.unexpectedToken [kind] token.kind).located token.span) c
  | .failed error _ => .failed error c

/-- Passes over the blanks in front of the tokens. -/
def skipFrom (size : Nat) : (last : Option Token) → (ahead : List Token) → Cursor
  | last, [] => ⟨last, [], size⟩
  | last, token :: ahead =>
      if token.isBlank then skipFrom size (some token) ahead else ⟨last, token :: ahead, size⟩

/-- The cursor behind the blanks. -/
def skipBlanks (c : Cursor) : Cursor := skipFrom c.size c.last c.ahead

theorem left_skipFrom_le (size : Nat) (ahead : List Token) :
    ∀ last, (skipFrom size last ahead).left ≤ ahead.length := by
  induction ahead with
  | nil => intro last; exact Nat.le_refl _
  | cons token ahead ih =>
      intro last
      rw [skipFrom]
      split
      · exact Nat.le_trans (ih _) (Nat.le_succ _)
      · exact Nat.le_refl _

/-- Passing over blanks leaves no more tokens than before. -/
theorem left_skipBlanks_le (c : Cursor) : c.skipBlanks.left ≤ c.left :=
  left_skipFrom_le c.size c.ahead c.last

end Cursor

/-- The outcome if nothing but blanks may follow what was read. -/
def Outcome.whole {α : Type} {n : Nat} : Outcome α n → Outcome α n
  | .done value next shorter =>
      let rest := next.skipBlanks
      match rest.ahead with
      | [] => .done value rest
          (Nat.lt_of_le_of_lt next.left_skipBlanks_le shorter)
      | token :: _ =>
          let cause := if token.kind = .closeParen then Cause.unclosedParenthesis false
            else Cause.expectedEof
          .failed (cause.located token.span) rest
  | .failed error stopped => .failed error stopped

end AlgebraTutor
