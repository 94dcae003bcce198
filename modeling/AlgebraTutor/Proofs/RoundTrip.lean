/-
Printed trees are read back.

The key of a tree and its text are derived by the grammar as phrases that mean the tree, and the
readers read what the grammar derives.  So both can be read, and what is read has the value of the
tree.  Keys can be compared in place of trees for that reason: trees with one key have one value.
-/
import AlgebraTutor.Proofs.PrintedTrees
import AlgebraTutor.Proofs.WholeTexts

namespace AlgebraTutor

open Token

namespace Expr

/-- What is printed in either style is read back as a tree with the same value, up to single
letters. -/
theorem parse_render (style : Style) (e : Expr) (hwell : e.isWellFormed = true)
    (hread : e.Readable style) :
    ∃ x, parse (String.ofList (e.render style)) = .ok x ∧
      ∀ ρ : Valuation, x.value ρ = e.value ρ.lettered := by
  obtain ⟨p, ⟨⟨x, hx, hvalue⟩, -⟩, hderives⟩ :=
    (printable style e hwell hread).sum.derives_expr (Follows.nil true)
  rw [List.append_nil, lexemes_nil] at hderives
  exact ⟨x, parse_of_derives (by rwa [String.toList_ofList]) hx, hvalue⟩

/-! ### Keys -/

theorem exists_parse_key {e : Expr} (hwell : e.isWellFormed = true)
    (hletter : e.hasLetterCall = false) :
    ∃ x, parse e.key = .ok x ∧ ∀ ρ : Valuation, x.value ρ = e.value ρ := by
  obtain ⟨x, hx, hvalue⟩ := parse_render .compact e hwell (fun h => nomatch h)
  exact ⟨x, hx, fun ρ => (hvalue ρ).trans (value_lettered hletter)⟩

/-- Trees with one key have one value, for one tree is read from it. -/
theorem value_eq_of_key_eq {e f : Expr} (he : e.isWellFormed = true)
    (heLetter : e.hasLetterCall = false) (hf : f.isWellFormed = true)
    (hfLetter : f.hasLetterCall = false) (h : e.key = f.key) (ρ : Valuation) :
    e.value ρ = f.value ρ := by
  obtain ⟨x, hx, hvalue⟩ := exists_parse_key he heLetter
  obtain ⟨y, hy, hvalue'⟩ := exists_parse_key hf hfLetter
  rw [h, hy] at hx
  cases hx
  rw [← hvalue, ← hvalue']

/-- **A key is read back as a tree with the value of the tree it is the key of.**  So trees with
the same key have the same value. -/
theorem parse_key (e : Expr) (hwell : e.isWellFormed = true) (hletter : e.hasLetterCall = false) :
    (∃ x, parse e.key = .ok x ∧
      ∀ ρ : Valuation, x.value ρ = e.value ρ ∧ x.normalize.value ρ = e.value ρ) ∧
    ∀ f : Expr, f.isWellFormed = true → f.hasLetterCall = false → f.key = e.key →
      ∀ ρ : Valuation, f.value ρ = e.value ρ := by
  obtain ⟨x, hx, hvalue⟩ := exists_parse_key hwell hletter
  refine ⟨⟨x, hx, fun ρ => ⟨hvalue ρ, (value_normalize x).trans (hvalue ρ)⟩⟩, ?_⟩
  intro f hwell' hletter' hkey ρ
  exact value_eq_of_key_eq hwell' hletter' hwell hletter hkey ρ

/-- The key of `x * (y + 1)` does not tell how the product was written. -/
theorem parse_key_product :
    (∃ x, parse (product [symbol "x", sum [symbol "y", const 1]]).key = .ok x ∧
      x.value (.uniform 3) = some 12) ∧
    (op .mul [symbol "x", sum [symbol "y", const 1]] true).value (.uniform 3) = some 12 := by
  have hvalue : (product [symbol "x", sum [symbol "y", const 1]]).value (.uniform 3) =
      some 12 := by
    simp [Valuation.uniform, Valuation.arithmetic]
    norm_num
  obtain ⟨⟨x, hx, hsame⟩, hunique⟩ :=
    parse_key (product [symbol "x", sum [symbol "y", const 1]]) (by decide) (by decide)
  refine ⟨⟨x, hx, (hsame _).1.trans hvalue⟩, ?_⟩
  exact (hunique _ (by decide) (by decide) (by cbv) _).trans hvalue

end Expr

end AlgebraTutor
