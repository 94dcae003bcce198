/-
Tokens: the pieces a text is read in.

A token is the longest piece at the front of the remaining text that has one of the token
shapes.  Every character starts some token, since a character of no other shape is a symbol
of its own, so the tokens of a text cover it without gaps.  Positions are byte offsets in
the UTF-8 encoding.
-/
namespace AlgebraTutor

/-- A half-open range of byte offsets. -/
structure Span where
  start : Nat
  stop : Nat
deriving DecidableEq, Repr, Inhabited

/-- The shapes a token can have. -/
inductive TokenKind
  | whitespace
  | add
  | sub
  | mul
  | div
  | exp
  | assign
  | name
  | comma
  | openParen
  | closeParen
  | int
  | float
  | dot
  | symbol
deriving DecidableEq, Repr, Inhabited

namespace TokenKind

/-- Every kind of token. -/
def all : List TokenKind :=
  [whitespace, add, sub, mul, div, exp, assign, name, comma, openParen, closeParen, int, float,
    dot, symbol]

/-- The name under which a kind of token is reported. -/
def label : TokenKind → String
  | whitespace => "Whitespace"
  | add => "Add"
  | sub => "Sub"
  | mul => "Mul"
  | div => "Div"
  | exp => "Exp"
  | assign => "Assign"
  | name => "Name"
  | comma => "Comma"
  | openParen => "OpenParen"
  | closeParen => "CloseParen"
  | int => "Int"
  | float => "Float"
  | dot => "Dot"
  | symbol => "Symbol"

end TokenKind

/-- A piece of the text with its shape and place. -/
structure Token where
  kind : TokenKind
  lexeme : String
  span : Span
deriving DecidableEq, Repr, Inhabited

namespace Token

/-- The blanks between tokens: space, tab, line feed and carriage return. -/
def isSpacing (c : Char) : Bool := c == ' ' || c == '\t' || c == '\n' || c == '\r'

/-- A character that can start a name. -/
def isNameStart (c : Char) : Bool := c.isAlpha || c == '_'

/-- A character that can go on with a name. -/
def isNameRest (c : Char) : Bool := c.isAlphanum || c == '_'

/-- The kind of a token that is one character long. -/
def singleKind : Char → TokenKind
  | '+' => .add
  | '-' => .sub
  | '*' => .mul
  | '/' => .div
  | '^' => .exp
  | '=' => .assign
  | ',' => .comma
  | '(' => .openParen
  | ')' => .closeParen
  | '.' => .dot
  | _ => .symbol

/-- The number of characters at the front of the text that make a point and the digits after
it, or zero if no digit follows a point. -/
def fractionLength : List Char → Nat
  | '.' :: rest =>
      let digits := (rest.takeWhile Char.isDigit).length
      if digits = 0 then 0 else digits + 1
  | _ => 0

/-- The kind of the first token of the text `c :: rest`, and how many characters of `rest`
belong to it. -/
def munch (c : Char) (rest : List Char) : TokenKind × Nat :=
  if isSpacing c then (.whitespace, (rest.takeWhile isSpacing).length)
  else if isNameStart c then (.name, (rest.takeWhile isNameRest).length)
  else if c.isDigit then
    let digits := (rest.takeWhile Char.isDigit).length
    let fraction := fractionLength (rest.drop digits)
    if fraction = 0 then (.int, digits) else (.float, digits + fraction)
  else
    let fraction := fractionLength (c :: rest)
    if fraction = 0 then (singleKind c, 0) else (.float, fraction - 1)

/-- The tokens of a text that starts at byte `offset`. -/
def scanFrom (offset : Nat) : List Char → List Token
  | [] => []
  | c :: rest =>
      let (kind, more) := munch c rest
      let lexeme := String.ofList (c :: rest.take more)
      let stop := offset + lexeme.utf8ByteSize
      ⟨kind, lexeme, ⟨offset, stop⟩⟩ :: scanFrom stop (rest.drop more)
termination_by text => text.length
decreasing_by simp only [List.length_drop, List.length_cons]; omega

/-- The tokens of a text, blanks included. -/
def scan (text : String) : List Token := scanFrom 0 text.toList

/-- Blanks separate tokens and mean nothing else. -/
def isBlank (token : Token) : Bool := token.kind == .whitespace

end Token

end AlgebraTutor
