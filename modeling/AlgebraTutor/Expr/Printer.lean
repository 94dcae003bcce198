/-
Printing trees.

There are two styles.  The spaced style is the one shown: `2x^2 - 3`, `(x + 1)/2`.  The
compact style has no blanks and does not depend on how products were written, so its text is
a key of the tree's shape.  Both styles can be read back.

Parentheses follow from how tightly the printed form of an argument binds.  In a sum, a term
that begins with a minus sign is printed without it after a minus between the terms.
-/
import AlgebraTutor.Expr.Basic
import AlgebraTutor.Number.Decimal

namespace AlgebraTutor

/-- The two ways to print a tree. -/
inductive Style
  /-- For reading: with blanks, and with products as they were written. -/
  | spaced
  /-- For comparing. -/
  | compact
deriving DecidableEq, Repr

namespace Expr

/-- A constant in decimal if its expansion ends, and else as a fraction. -/
def constText (value : Rat) : List Char := (decimalText? value).getD (ratioText value)

/-- How tightly the printed form binds; sums least, names and plain numbers most. -/
def tightness : Expr → Nat
  | const value =>
      if value.den ≠ 1 ∧ (decimalText? value).isNone then 2
      else if value < 0 then 3
      else 5
  | op .add _ _ => 1
  | op .mul _ _ => 2
  | op .div _ _ => 2
  | op .neg _ _ => 3
  | op .pow _ _ => 4
  | _ => 5

/-- A term whose printed form begins with a minus sign, without that sign. -/
def withoutMinus? : Expr → Option Expr
  | const value => if value < 0 then some (const (-value)) else none
  | op .neg (operand :: _) _ => some operand
  | op .mul (first :: rest) implicit =>
      (withoutMinus? first).map fun first => op .mul (first :: rest) implicit
  | op .div (first :: rest) implicit =>
      (withoutMinus? first).map fun first => op .div (first :: rest) implicit
  | _ => none

theorem size_pos (e : Expr) : 0 < e.size := by
  cases e <;> simp [size]

/-- A term does not grow when it loses its sign. -/
theorem size_le_of_withoutMinus? {e : Expr} : ∀ {p : Expr}, withoutMinus? e = some p →
    p.size ≤ e.size := by
  fun_induction withoutMinus? e with
  | case1 value h => intro p hp; cases hp; exact Nat.le_refl _
  | case2 value h => intro p hp; cases hp
  | case3 operand rest implicit =>
      intro p hp
      cases hp
      simp only [size, sizeAll]
      omega
  | case4 first rest implicit ih =>
      intro p hp
      obtain ⟨q, hq, rfl⟩ := Option.map_eq_some_iff.1 hp
      have := ih hq
      simp only [size, sizeAll]
      omega
  | case5 first rest implicit ih =>
      intro p hp
      obtain ⟨q, hq, rfl⟩ := Option.map_eq_some_iff.1 hp
      have := ih hq
      simp only [size, sizeAll]
      omega
  | case6 e h₁ h₂ h₃ h₄ => intro p hp; cases hp

/-- The printed form begins with a letter or an opening parenthesis, so that a coefficient can
stand directly in front of it. -/
def startsWithNameOrParen : Expr → Bool
  | symbol _ => true
  | member _ _ => true
  | call _ _ => true
  | op .add _ _ => true
  | op .pow (base :: _) _ => startsWithNameOrParen base || base.tightness < 5
  | _ => false

/-- A text, in parentheses if they are needed. -/
def wrap (needed : Bool) (text : List Char) : List Char :=
  if needed then '(' :: (text ++ [')']) else text

/-- Tells whether a factor needs parentheses; the first factor of a product is safer. -/
def factorIsWrapped (isFirst : Bool) (factor : Expr) : Bool :=
  factor.tightness ≤ 1 || (!isFirst && (factor.tightness ≤ 3 || factor.startsNegative))

/-- Tells a variable from other nodes. -/
def isSymbol : Expr → Bool
  | symbol _ => true
  | _ => false

/-- Tells whether no sign is needed between two factors: after a leading coefficient, or where
the product was written without sign and the second factor stands in parentheses. -/
def juxtaposes (style : Style) (implicit : Bool) (isSecond : Bool) (previous factor : Expr) :
    Bool :=
  (isSecond && previous.isConstant && 3 ≤ previous.tightness && factor.startsWithNameOrParen) ||
    (style == .spaced && implicit && factorIsWrapped false factor && !previous.isSymbol)

/-- The factors after `previous`, each with its text and the sign in front of it. -/
def laterFactors (style : Style) (implicit : Bool) (isSecond : Bool) (previous : Expr) :
    List (Expr × List Char) → List Char
  | [] => []
  | (factor, text) :: rest =>
      let times := if style = .spaced then " * ".toList else ['*']
      (if juxtaposes style implicit isSecond previous factor then [] else times) ++
        wrap (factorIsWrapped false factor) text ++
        laterFactors style implicit false factor rest

/-- A product of factors with their texts. -/
def productText (style : Style) (implicit : Bool) : List (Expr × List Char) → List Char
  | [] => []
  | (first, text) :: rest =>
      wrap (factorIsWrapped true first) text ++ laterFactors style implicit true first rest

/-- Operands with a sign between them.  Operands that bind no tighter than a limit are wrapped;
the first operand has a limit of its own. -/
def chainText (sign : Char) (firstLimit limit : Nat) : List (Expr × List Char) → List Char
  | [] => []
  | (first, text) :: rest =>
      wrap (first.tightness ≤ firstLimit) text ++
        rest.flatMap fun (operand, text) => sign :: wrap (operand.tightness ≤ limit) text

/-- Logarithms are kept with their base, and shown under the names they usually have. -/
def shownCall (style : Style) (name : String) (args : List (Expr × List Char)) :
    String × List (Expr × List Char) :=
  match style, args with
  | .spaced, [(const base, _), arg] =>
      if name = "logXY" ∧ base = 10 then ("log10", [arg]) else (name, args)
  | .spaced, [(member object index, _), arg] =>
      if name = "logXY" ∧ object = "const" ∧ index = "e" then ("ln", [arg]) else (name, args)
  | _, _ => (name, args)

/-- A function with the texts of its arguments. -/
def callText (style : Style) (name : String) (args : List (Expr × List Char)) : List Char :=
  let (name, args) := shownCall style name args
  let comma := if style = .spaced then [',', ' '] else [',']
  name.toList ++ wrap true (List.intercalate comma (args.map Prod.snd))

mutual

/-- The printed form of a tree. -/
def render (style : Style) : Expr → List Char
  | const value => constText value
  | symbol name => name.toList
  | member object index => object.toList ++ '.' :: index.toList
  | call name args => callText style name (renderAll style args)
  | op .add [] _ => []
  | op .add (first :: rest) _ => render style first ++ laterTerms style rest
  | op .mul args implicit => productText style implicit (renderAll style args)
  | op .div args _ => chainText '/' 1 3 (renderAll style args)
  | op .pow args _ => chainText '^' 4 2 (renderAll style args)
  | op .neg args _ =>
      '-' :: (renderAll style args).flatMap fun (arg, text) => wrap (arg.tightness ≤ 3) text
termination_by e => 2 * e.size
decreasing_by all_goals simp only [size, sizeAll]; omega

/-- The trees of a list with their printed forms. -/
def renderAll (style : Style) : List Expr → List (Expr × List Char)
  | [] => []
  | e :: es => (e, render style e) :: renderAll style es
termination_by es => 2 * sizeAll es + 1
decreasing_by
  all_goals simp only [sizeAll]
  · omega
  · have := size_pos e; omega

/-- The terms of a sum after the first, each with its sign. -/
def laterTerms (style : Style) : List Expr → List Char
  | [] => []
  | term :: rest =>
      (match _h : withoutMinus? term with
      | some positive =>
          (if style = .spaced then " - ".toList else ['-']) ++
            wrap (positive.tightness ≤ 1) (render style positive)
      | none =>
          (if style = .spaced then " + ".toList else ['+']) ++
            wrap (term.tightness ≤ 1) (render style term)) ++
        laterTerms style rest
termination_by es => 2 * sizeAll es + 1
decreasing_by
  all_goals simp only [sizeAll]
  · have := size_le_of_withoutMinus? _h; omega
  · omega
  · have := size_pos term; omega

end

/-- The text of a tree as it is shown. -/
def text (e : Expr) : String := String.ofList (render .spaced e)

/-- The text of a tree by which trees are told apart. -/
def key (e : Expr) : String := String.ofList (render .compact e)

end Expr

end AlgebraTutor
