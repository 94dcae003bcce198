/-
Equality of texts, with memory.

Two texts are equal if they are the same up to white space, or if both can be read and have
the same canonical form.  Texts once found equal are put in one set and are not read again.
-/
import AlgebraTutor.Equality.Canonical
import AlgebraTutor.Equality.DisjointSet
import AlgebraTutor.Text.Blank

namespace AlgebraTutor

/-- What is remembered of comparisons. -/
structure EqualityCache where
  sets : DisjointSet
  /-- The canonical forms of the texts read so far.  A text that cannot be read has none. -/
  forms : Std.TreeMap String (Option Expr)

namespace EqualityCache

/-- Nothing is remembered. -/
def empty : EqualityCache := ⟨.empty, ∅⟩

instance : Inhabited EqualityCache := ⟨empty⟩

/-- The canonical form of a text. -/
def form (cache : EqualityCache) (text : String) : Option Expr × EqualityCache :=
  match cache.forms[text]? with
  | some form => (form, cache)
  | none =>
      let form := Expr.canonicalForm? text
      (form, { cache with forms := cache.forms.insert text form })

/-- The key of the canonical form of a text. -/
def canonicalKey (cache : EqualityCache) (text : String) : Option String × EqualityCache :=
  let (form, cache) := cache.form text
  (form.map Expr.key, cache)

/-- Compares two texts that can be told apart without reading neither as equal nor as
different. -/
def compareForms (cache : EqualityCache) (a b : String) : Bool × EqualityCache :=
  let (left, cache) := cache.form a
  match left with
  | none => (false, (cache.form b).2)
  | some left =>
    let (right, cache) := cache.form b
    match right with
    | none => (false, cache)
    | some right =>
      if left.alike right || left.key == right.key then
        (true, { cache with sets := cache.sets.union a b })
      else (false, cache)

/-- Tells whether two texts denote the same expression.  A blank text equals nothing. -/
def areEqual (cache : EqualityCache) (a b : String) : Bool × EqualityCache :=
  if isBlankText a || isBlankText b then (false, cache)
  else if a = b ∨ squeeze a = squeeze b then (true, cache)
  else
    let (known, sets) := cache.sets.same a b
    let cache := { cache with sets := sets }
    if known then (true, cache) else cache.compareForms a b

end EqualityCache

end AlgebraTutor
