/-
The grammar of formulas.

The readers of formulas are written for speed of reading: they climb precedences, look ahead and
give attempts up.  What they accept is a small grammar:

    Expr    = Term (('+' | '-') Term)*
    Term    = Factor (('*' | '/') Factor | Power)*
    Factor  = '-' Factor | Power
    Power   = Primary ['^' Factor]
    Primary = Name '(' [Expr (',' Expr)*] ')' | Name '.' Name | Int | Float | Name | '(' Expr ')'

The grammar is stated here as a relation between the tokens that are there, the phrase that is made
of the first of them, and the tokens that are left.  Chains of operators are grouped from the left
by carrying along the phrase that has been made so far.  Neither blanks nor places matter, so
tokens and formulas are taken without them.
-/
import AlgebraTutor.Expr.OfFormula

namespace AlgebraTutor

/-- A token without its place. -/
structure Lexeme where
  kind : TokenKind
  text : String
deriving DecidableEq, Repr

/-- A formula without the places of its parts. -/
inductive Phrase
  | number (digits : String)
  | symbol (name : String)
  | paren (inner : Phrase)
  | call (name : String) (args : List Phrase)
  | member (object index : String)
  | neg (operand : Phrase)
  | binary (lhs : Phrase) (kind : BinaryKind) (implicit : Bool) (rhs : Phrase)

namespace Formula

mutual

/-- The formula without places. -/
def phrase : Formula → Phrase
  | number digits _ => .number digits
  | symbol name => .symbol name.text
  | paren inner _ => .paren inner.phrase
  | call name args _ _ => .call name.text (phrases args)
  | member object index _ => .member object.text index.text
  | neg operand _ _ => .neg operand.phrase
  | binary lhs op rhs _ => .binary lhs.phrase op.kind op.implicit rhs.phrase

/-- The formulas of a list without places. -/
def phrases : List Formula → List Phrase
  | [] => []
  | formula :: formulas => formula.phrase :: phrases formulas

end

@[simp] theorem phrase_join (lhs : Formula) (op : BinaryOp) (rhs : Formula) :
    (join lhs op rhs).phrase = .binary lhs.phrase op.kind op.implicit rhs.phrase := rfl

end Formula

/-! ### The tree of a phrase -/

namespace Phrase

/-- The tree of two operands with an operator between them. -/
def joined (kind : BinaryKind) (implicit : Bool) (lhs rhs : Expr) : Expr :=
  match kind with
  | .add => .sum [lhs, rhs]
  | .sub => .sum [lhs, .minus rhs]
  | .mul => .op .mul [lhs, rhs] implicit
  | .div => .quotient lhs rhs
  | .exp => .power lhs rhs

mutual

/-- The tree of a phrase, if its numbers are written in decimal digits. -/
def expr? : Phrase → Option Expr
  | number digits => (decimal? digits.toList).map .const
  | symbol name => some (.symbol name)
  | paren inner => inner.expr?
  | call name args => (exprs? args).map (Expr.ofCall name)
  | member object index => some (.member object index)
  | neg operand => operand.expr?.map .minus
  | binary lhs kind implicit rhs =>
      lhs.expr?.bind fun left => rhs.expr?.map (joined kind implicit left)

/-- The trees of some phrases, if all of them have one. -/
def exprs? : List Phrase → Option (List Expr)
  | [] => some []
  | phrase :: phrases => phrase.expr?.bind fun e => (exprs? phrases).map (e :: ·)

end

end Phrase

mutual

/-- A formula has the tree of its phrase. -/
theorem Expr.toOption_ofFormula : ∀ f : Formula, (Expr.ofFormula f).toOption = f.phrase.expr?
  | .number digits span => by
      rw [Expr.ofFormula, Formula.phrase, Phrase.expr?]
      cases decimal? digits.toList <;> rfl
  | .symbol name => rfl
  | .paren inner span => by
      rw [Expr.ofFormula, Formula.phrase, Phrase.expr?, Expr.toOption_ofFormula inner]
  | .call name args span parens => by
      rw [Expr.ofFormula, Formula.phrase, Phrase.expr?, ← Expr.toOption_ofFormulas args]
      cases Expr.ofFormulas args <;> rfl
  | .member object index span => rfl
  | .neg operand sign span => by
      rw [Expr.ofFormula, Formula.phrase, Phrase.expr?, ← Expr.toOption_ofFormula operand]
      cases Expr.ofFormula operand <;> rfl
  | .binary lhs operator rhs span => by
      rw [Expr.ofFormula, Formula.phrase, Phrase.expr?, ← Expr.toOption_ofFormula lhs,
        ← Expr.toOption_ofFormula rhs]
      cases Expr.ofFormula lhs with
      | error error => rfl
      | ok left => cases Expr.ofFormula rhs <;> rfl

theorem Expr.toOption_ofFormulas : ∀ fs : List Formula,
    (Expr.ofFormulas fs).toOption = Phrase.exprs? (Formula.phrases fs)
  | [] => rfl
  | f :: fs => by
      rw [Expr.ofFormulas, Formula.phrases, Phrase.exprs?, ← Expr.toOption_ofFormula f,
        ← Expr.toOption_ofFormulas fs]
      cases Expr.ofFormula f with
      | error error => rfl
      | ok first => cases Expr.ofFormulas fs <;> rfl

end

theorem Expr.ofFormula_eq_ok {f : Formula} {e : Expr} :
    Expr.ofFormula f = .ok e ↔ f.phrase.expr? = some e := by
  rw [← Expr.toOption_ofFormula]
  cases Expr.ofFormula f <;> simp [Except.toOption]

/-! ### Derivations -/

/-- What can be derived: a phrase of some kind, or how a phrase goes on of which the beginning is
known. -/
inductive Production
  | expr
  /-- More terms of a sum. -/
  | terms (lhs : Phrase)
  | term
  /-- More factors of a product. -/
  | factors (lhs : Phrase)
  | factor
  | power
  | primary
  /-- More arguments of a call, up to the closing parenthesis. -/
  | arguments (name : String) (before : List Phrase)

/-- The first of the tokens make up a phrase, and some tokens are left.

A name with an opening parenthesis behind it is always the name of a call. -/
inductive Derives : Production → List Lexeme → Phrase → List Lexeme → Prop
  | expr {ts us rest p q} (first : Derives .term ts p us) (more : Derives (.terms p) us q rest) :
      Derives .expr ts q rest
  | termsDone {lhs rest} : Derives (.terms lhs) rest lhs rest
  | termsMore {sign kind lhs ts us rest p q} (hsign : BinaryKind.ofToken? sign.kind = some kind)
      (hkind : kind.precedence = .term) (next : Derives .term ts p us)
      (more : Derives (.terms (.binary lhs kind false p)) us q rest) :
      Derives (.terms lhs) (sign :: ts) q rest
  | term {ts us rest p q} (first : Derives .factor ts p us)
      (more : Derives (.factors p) us q rest) : Derives .term ts q rest
  | factorsDone {lhs rest} : Derives (.factors lhs) rest lhs rest
  | factorsMore {sign kind lhs ts us rest p q} (hsign : BinaryKind.ofToken? sign.kind = some kind)
      (hkind : kind.precedence = .factor) (next : Derives .factor ts p us)
      (more : Derives (.factors (.binary lhs kind false p)) us q rest) :
      Derives (.factors lhs) (sign :: ts) q rest
  | factorsJuxtaposed {lhs ts us rest p q} (next : Derives .power ts p us)
      (more : Derives (.factors (.binary lhs .mul true p)) us q rest) :
      Derives (.factors lhs) ts q rest
  | negation {sign ts rest p} (hsign : sign.kind = .sub) (operand : Derives .factor ts p rest) :
      Derives .factor (sign :: ts) (.neg p) rest
  | factor {ts rest p} (power : Derives .power ts p rest) : Derives .factor ts p rest
  | power {ts rest p} (primary : Derives .primary ts p rest) : Derives .power ts p rest
  | exponent {sign ts us rest p q} (hsign : sign.kind = .exp)
      (base : Derives .primary ts p (sign :: us)) (exponent : Derives .factor us q rest) :
      Derives .power ts (.binary p .exp false q) rest
  | callEmpty {name opening closing rest} (hname : name.kind = .name)
      (hopening : opening.kind = .openParen) (hclosing : closing.kind = .closeParen) :
      Derives .primary (name :: opening :: closing :: rest) (.call name.text []) rest
  | call {name opening ts rest p} (hname : name.kind = .name)
      (hopening : opening.kind = .openParen)
      (args : Derives (.arguments name.text []) ts p rest) :
      Derives .primary (name :: opening :: ts) p rest
  | argumentsLast {name before closing ts rest p} (hclosing : closing.kind = .closeParen)
      (last : Derives .expr ts p (closing :: rest)) :
      Derives (.arguments name before) ts (.call name (before ++ [p])) rest
  | argumentsMore {name before comma ts us rest p q} (hcomma : comma.kind = .comma)
      (next : Derives .expr ts p (comma :: us))
      (more : Derives (.arguments name (before ++ [p])) us q rest) :
      Derives (.arguments name before) ts q rest
  | member {object dot index rest} (hobject : object.kind = .name) (hdot : dot.kind = .dot)
      (hindex : index.kind = .name) :
      Derives .primary (object :: dot :: index :: rest) (.member object.text index.text) rest
  | number {digits rest} (hdigits : digits.kind = .int ∨ digits.kind = .float) :
      Derives .primary (digits :: rest) (.number digits.text) rest
  | symbol {name rest} (hname : name.kind = .name)
      (hrest : ∀ following ∈ rest.head?, following.kind ≠ .openParen) :
      Derives .primary (name :: rest) (.symbol name.text) rest
  | paren {opening closing ts rest p} (hopening : opening.kind = .openParen)
      (hclosing : closing.kind = .closeParen) (inner : Derives .expr ts p (closing :: rest)) :
      Derives .primary (opening :: ts) (.paren p) rest

end AlgebraTutor
