/-
Printed trees and the grammar.

The printer puts parentheses where the printed form of an argument does not bind tightly enough.
What has to be shown is that it puts them wherever the grammar needs them: that the printed form of
a tree can be derived as a phrase of the kind that its tightness stands for, followed by anything
that does not run into it, and that the phrase means the tree.

Sums and products are read from the left, so what is shown of them is how a derivation of the rest
of the text goes on from them.  There is one case in which a printed form does run into what
follows.  A product that was written without sign may print a factor in parentheses right after
another one, and if that one ends in a name, the two are read as a call.  `hidesCall` tells where
that happens.  It never does in the compact style.
-/
import AlgebraTutor.Proofs.Meaning
import AlgebraTutor.Expr.Printer

namespace AlgebraTutor

open Token

namespace Expr

/-! ### Names in front of parentheses -/

mutual

/-- Tells whether the printed form of a tree, as an operand, ends in a variable. -/
def endsInName : Expr → Bool
  | symbol _ => true
  | op .mul factors _ => lastEndsInName true factors
  | op .div [_, divisor] _ => decide (3 < divisor.tightness) && endsInName divisor
  | op .pow [_, exponent] _ => decide (2 < exponent.tightness) && endsInName exponent
  | op .neg [operand] _ => decide (3 < operand.tightness) && endsInName operand
  | _ => false

/-- Tells whether the last of some factors ends in a variable, and is not in parentheses. -/
def lastEndsInName (isFirst : Bool) : List Expr → Bool
  | [] => false
  | [factor] => !factorIsWrapped isFirst factor && endsInName factor
  | _ :: factor :: rest => lastEndsInName false (factor :: rest)

end

/-- Tells whether the second of two neighbouring factors is in parentheses, and the first one ends
in a variable. -/
def isSwallowed (isFirst : Bool) (previous factor : Expr) : Bool :=
  factorIsWrapped false factor && !previous.isSymbol && !factorIsWrapped isFirst previous &&
    previous.endsInName

/-- Tells whether there are two such neighbours among the factors. -/
def swallows (isFirst : Bool) (previous : Expr) : List Expr → Bool
  | [] => false
  | factor :: rest => isSwallowed isFirst previous factor || swallows false factor rest

/-- Tells whether one of the factors takes the place of an argument in a product without signs. -/
def factorsHideCall (implicit : Bool) : List Expr → Bool
  | [] => false
  | first :: rest => implicit && swallows true first rest

mutual

/-- Tells whether a product in the tree is shown in a way that reads as a call. -/
def hidesCall : Expr → Bool
  | op .add [] _ => false
  | op .add (first :: rest) _ => hidesCall first || laterTermsHideCall rest
  | op .mul factors implicit => factorsHideCall implicit factors || anyHidesCall factors
  | op _ args _ => anyHidesCall args
  | call _ args => anyHidesCall args
  | _ => false
termination_by e => 2 * e.size
decreasing_by all_goals simp only [size, sizeAll]; omega

/-- Tells whether one of the trees has such a product. -/
def anyHidesCall : List Expr → Bool
  | [] => false
  | e :: es => hidesCall e || anyHidesCall es
termination_by es => 2 * sizeAll es + 1
decreasing_by
  all_goals simp only [sizeAll]
  · omega
  · have := size_pos e; omega

/-- Tells whether one of the terms after the first has such a product, as it is shown there. -/
def laterTermsHideCall : List Expr → Bool
  | [] => false
  | term :: rest =>
      (match _h : withoutMinus? term with
      | some positive => hidesCall positive
      | none => hidesCall term) || laterTermsHideCall rest
termination_by es => 2 * sizeAll es + 1
decreasing_by
  all_goals simp only [sizeAll]
  · have := size_le_of_withoutMinus? _h; omega
  · omega
  · have := size_pos term; omega

end

theorem hidesCall_add (first : Expr) (rest : List Expr) (i : Bool) :
    (op .add (first :: rest) i).hidesCall = (hidesCall first || laterTermsHideCall rest) := by
  rw [hidesCall]

theorem hidesCall_mul (factors : List Expr) (i : Bool) :
    (op .mul factors i).hidesCall = (factorsHideCall i factors || anyHidesCall factors) := by
  rw [hidesCall]

/-- The printed form of the tree can be read for what it is. -/
def Readable (style : Style) (e : Expr) : Prop := style = .spaced → e.hidesCall = false

/-! ### What may follow a printed form -/

/-- The rest of a text does not run into what is in front of it: neither a name nor a number gets
longer, and a variable does not become a function. -/
structure Follows (endsInName : Bool) (tail : List Char) : Prop where
  starts : Starts (fun c => !isNameRest c && c != '.') tail
  noParen : endsInName = true → ∀ l ∈ (lexemes tail).head?, l.kind ≠ .openParen

theorem Follows.of_true {tail : List Char} (h : Follows true tail) (b : Bool) : Follows b tail :=
  ⟨h.starts, fun _ => h.noParen rfl⟩

theorem Follows.nil (b : Bool) : Follows b [] :=
  ⟨by rintro _ ⟨⟩, by rw [lexemes_nil]; rintro _ _ ⟨⟩⟩

theorem Follows.of_cons {b : Bool} {c : Char} {tail : List Char} {l : Lexeme} {ls : List Lexeme}
    (hc : (!isNameRest c && c != '.') = true) (hlexemes : lexemes (c :: tail) = l :: ls)
    (hl : l.kind ≠ .openParen) : Follows b (c :: tail) :=
  ⟨by rintro _ ⟨⟩; exact hc, by rw [hlexemes]; rintro _ _ ⟨⟩; exact hl⟩

theorem Follows.not_digit {b : Bool} {tail : List Char} (h : Follows b tail) :
    Starts (fun c => !c.isDigit && c != '.') tail := by
  intro c hc
  have hstarts := h.starts c hc
  simp only [isNameRest, Char.isAlphanum, Bool.and_eq_true, Bool.not_eq_true',
    Bool.or_eq_false_iff] at hstarts ⊢
  exact ⟨hstarts.1.1.2, hstarts.2⟩

theorem Follows.not_name {b : Bool} {tail : List Char} (h : Follows b tail) :
    Starts (fun c => !isNameRest c) tail :=
  fun c hc => (Bool.and_eq_true_iff.mp (h.starts c hc)).1

/-- The sign between two operands, with blanks in the spaced style. -/
def signText (style : Style) (sign : Char) : List Char :=
  if style = .spaced then [' ', sign, ' '] else [sign]

theorem lexemes_signText {sign : Char} {kind : TokenKind} {text : String}
    (h : ∀ rest, lexemes (sign :: rest) = ⟨kind, text⟩ :: lexemes rest) (style : Style)
    (rest : List Char) : lexemes (signText style sign ++ rest) = ⟨kind, text⟩ :: lexemes rest := by
  cases style <;> simp [signText, h]

theorem Follows.signText {b : Bool} {sign : Char} {kind : TokenKind} {text : String}
    (hsign : (!isNameRest sign && sign != '.') = true)
    (h : ∀ rest, lexemes (sign :: rest) = ⟨kind, text⟩ :: lexemes rest) (hkind : kind ≠ .openParen)
    (style : Style) (rest : List Char) : Follows b (signText style sign ++ rest) := by
  have hlexemes := lexemes_signText h style rest
  cases style with
  | spaced => exact .of_cons rfl hlexemes hkind
  | compact => exact .of_cons hsign hlexemes hkind

/-! ### What is derived from a printed form -/

/-- A sum or a product of one argument, which prints as that argument. -/
def isLone : Expr → Bool
  | op .add [_] _ => true
  | op .mul [_] _ => true
  | _ => false

end Expr

/-- How tightly a phrase binds, on the scale of `Expr.tightness`. -/
def Phrase.tightness : Phrase → Nat
  | neg _ => 3
  | binary _ kind _ _ =>
      match kind with
      | .add | .sub => 1
      | .mul | .div => 2
      | .exp => 4
  | _ => 5

/-- The phrase means the tree, and binds as tightly as its printed form should. -/
structure Phrase.Shows (p : Phrase) (e : Expr) : Prop where
  means : p.Means e
  tightness : e.isLone = false → p.tightness = e.tightness

namespace Expr

/-- What is printed is a phrase of the given kind that shows the tree. -/
def Prints (g : Production) (style : Style) (e : Expr) : Prop :=
  ∀ tail, Follows e.endsInName tail → ∃ p : Phrase, p.Shows e ∧
    Derives g (lexemes (e.render style ++ tail)) p (lexemes tail)

/-- A term can be derived from what is printed, with the factors that follow. -/
def PrintsTerm (style : Style) (e : Expr) : Prop :=
  ∀ tail, Follows e.endsInName tail → ∃ p : Phrase, p.Shows e ∧ ∀ q rest,
    Derives (.factors p) (lexemes tail) q rest →
      Derives .term (lexemes (e.render style ++ tail)) q rest

/-- An expression can be derived from what is printed, with the terms that follow. -/
def PrintsSum (style : Style) (e : Expr) : Prop :=
  ∀ tail, Follows true tail → ∃ p : Phrase, p.Shows e ∧ ∀ q rest,
    Derives (.terms p) (lexemes tail) q rest →
      Derives .expr (lexemes (e.render style ++ tail)) q rest

/-- The printed form is a phrase of each kind that its tightness allows. -/
structure Printable (style : Style) (e : Expr) : Prop where
  sum : PrintsSum style e
  term : 1 < e.tightness → PrintsTerm style e
  factor : 2 < e.tightness → Prints .factor style e
  power : 3 < e.tightness → Prints .power style e
  primary : 4 < e.tightness → Prints .primary style e

section Levels

variable {style : Style} {e : Expr}

theorem Printable.of_sum (h : PrintsSum style e) (htight : e.tightness ≤ 1) :
    Printable style e where
  sum := h
  term hlt := absurd hlt (by omega)
  factor hlt := absurd hlt (by omega)
  power hlt := absurd hlt (by omega)
  primary hlt := absurd hlt (by omega)

theorem PrintsSum.of_term (h : PrintsTerm style e) : PrintsSum style e := by
  intro tail htail
  obtain ⟨p, hp, hderives⟩ := h tail (htail.of_true _)
  exact ⟨p, hp, fun q rest hmore => .expr (hderives p _ .factorsDone) hmore⟩

theorem PrintsTerm.of_factor (h : Prints .factor style e) : PrintsTerm style e := by
  intro tail htail
  obtain ⟨p, hp, hderives⟩ := h tail htail
  exact ⟨p, hp, fun q rest hmore => .term hderives hmore⟩

theorem Prints.of_power (h : Prints .power style e) : Prints .factor style e := by
  intro tail htail
  obtain ⟨p, hp, hderives⟩ := h tail htail
  exact ⟨p, hp, .factor hderives⟩

theorem Prints.of_primary (h : Prints .primary style e) : Prints .power style e := by
  intro tail htail
  obtain ⟨p, hp, hderives⟩ := h tail htail
  exact ⟨p, hp, .power hderives⟩

theorem Printable.of_term (h : PrintsTerm style e) (htight : e.tightness ≤ 2) :
    Printable style e where
  sum := .of_term h
  term _ := h
  factor hlt := absurd hlt (by omega)
  power hlt := absurd hlt (by omega)
  primary hlt := absurd hlt (by omega)

theorem Printable.of_factor (h : Prints .factor style e) (htight : e.tightness ≤ 3) :
    Printable style e where
  sum := .of_term (.of_factor h)
  term _ := .of_factor h
  factor _ := h
  power hlt := absurd hlt (by omega)
  primary hlt := absurd hlt (by omega)

theorem Printable.of_power (h : Prints .power style e) (htight : e.tightness ≤ 4) :
    Printable style e where
  sum := .of_term (.of_factor h.of_power)
  term _ := .of_factor h.of_power
  factor _ := h.of_power
  power _ := h
  primary hlt := absurd hlt (by omega)

theorem Printable.of_primary (h : Prints .primary style e) : Printable style e where
  sum := .of_term (.of_factor h.of_primary.of_power)
  term _ := .of_factor h.of_primary.of_power
  factor _ := h.of_primary.of_power
  power _ := h.of_primary
  primary _ := h

/-- Before a closing parenthesis or a comma, an expression ends. -/
theorem PrintsSum.derives_expr (h : PrintsSum style e) {tail : List Char}
    (htail : Follows true tail) : ∃ p : Phrase, p.Shows e ∧
      Derives .expr (lexemes (e.render style ++ tail)) p (lexemes tail) := by
  obtain ⟨p, hp, hderives⟩ := h tail htail
  exact ⟨p, hp, hderives p _ .termsDone⟩

/-- In parentheses every printed form is an operand, whatever follows. -/
theorem Printable.wrapped (h : Printable style e) (tail : List Char) : ∃ p : Phrase, p.Means e ∧
    Derives .primary (lexemes (wrap true (e.render style) ++ tail)) p (lexemes tail) := by
  have htail : Follows true (')' :: tail) := .of_cons rfl (lexemes_close tail) (by decide)
  obtain ⟨p, hp, hderives⟩ := h.sum.derives_expr htail
  refine ⟨.paren p, hp.means.paren, ?_⟩
  have htext : wrap true (e.render style) ++ tail = '(' :: (e.render style ++ ')' :: tail) := by
    simp [wrap]
  rw [htext, lexemes_open]
  rw [lexemes_close] at hderives
  exact .paren rfl rfl hderives

/-- An operand is in parentheses unless it prints as what is needed there. -/
theorem Printable.wrap_of_lift {g : Production} (h : Printable style e)
    (hlift : ∀ {ts p rest}, Derives .primary ts p rest → Derives g ts p rest) {needed : Bool}
    (hprints : needed = false → Prints g style e) {tail : List Char}
    (htail : needed = false → Follows e.endsInName tail) : ∃ p : Phrase, p.Means e ∧
      Derives g (lexemes (wrap needed (e.render style) ++ tail)) p (lexemes tail) := by
  cases needed with
  | true =>
      obtain ⟨p, hp, hderives⟩ := h.wrapped tail
      exact ⟨p, hp, hlift hderives⟩
  | false =>
      obtain ⟨p, hp, hderives⟩ := hprints rfl tail (htail rfl)
      exact ⟨p, hp.means, hderives⟩

theorem Printable.wrap_primary (h : Printable style e) {needed : Bool}
    (hneeded : needed = false → 4 < e.tightness) {tail : List Char}
    (htail : needed = false → Follows e.endsInName tail) : ∃ p : Phrase, p.Means e ∧
      Derives .primary (lexemes (wrap needed (e.render style) ++ tail)) p (lexemes tail) :=
  h.wrap_of_lift id (fun hn => h.primary (hneeded hn)) htail

theorem Printable.wrap_power (h : Printable style e) {needed : Bool}
    (hneeded : needed = false → 3 < e.tightness) {tail : List Char}
    (htail : needed = false → Follows e.endsInName tail) : ∃ p : Phrase, p.Means e ∧
      Derives .power (lexemes (wrap needed (e.render style) ++ tail)) p (lexemes tail) :=
  h.wrap_of_lift .power (fun hn => h.power (hneeded hn)) htail

theorem Printable.wrap_factor (h : Printable style e) {needed : Bool}
    (hneeded : needed = false → 2 < e.tightness) {tail : List Char}
    (htail : needed = false → Follows e.endsInName tail) : ∃ p : Phrase, p.Means e ∧
      Derives .factor (lexemes (wrap needed (e.render style) ++ tail)) p (lexemes tail) :=
  h.wrap_of_lift (fun hderives => .factor (.power hderives)) (fun hn => h.factor (hneeded hn)) htail

theorem Printable.wrap_term (h : Printable style e) {needed : Bool}
    (hneeded : needed = false → 1 < e.tightness) {tail : List Char}
    (htail : needed = false → Follows e.endsInName tail) : ∃ p : Phrase, p.Means e ∧
      ∀ q rest, Derives (.factors p) (lexemes tail) q rest →
        Derives .term (lexemes (wrap needed (e.render style) ++ tail)) q rest := by
  cases needed with
  | true =>
      obtain ⟨p, hp, hderives⟩ := h.wrapped tail
      exact ⟨p, hp, fun q rest hmore => .term (.factor (.power hderives)) hmore⟩
  | false =>
      obtain ⟨p, hp, hderives⟩ := h.term (hneeded rfl) tail (htail rfl)
      exact ⟨p, hp.means, hderives⟩

end Levels

end Expr

end AlgebraTutor
