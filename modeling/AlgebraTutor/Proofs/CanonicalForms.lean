/-
Canonical forms mean what their texts mean.

The canonical form of a text goes through many hands: the tree is normalized twice, with its
quotients moved out of products in between, put in order, printed, read and treated once more.  Each
of these keeps the value of the tree and makes a tree that can be printed and read again.  In
particular reading the printed tree never fails, so that every text that can be read has a canonical
form, which is `Expr.canonicalize` of something.
-/
import AlgebraTutor.Proofs.Arrangements
import AlgebraTutor.Proofs.ReadTrees
import AlgebraTutor.Equality.Canonical

namespace AlgebraTutor

namespace Expr

variable {ρ : Valuation}

/-! ### Moving quotients out of products -/

theorem hoistAll_eq_map (es : List Expr) : hoistAll es = es.map hoistQuotients := by
  induction es with
  | nil => rfl
  | cons e es ih => rw [hoistAll, List.map_cons, ih]

/-- A quotient contributes to numerator and denominator, and what is none to the numerator only. -/
theorem parts_cases (e : Expr) : (∃ a b i, e = op .div [a, b] i) ∨
    numeratorParts e = [e] ∧ denominatorParts e = [] := by
  by_cases h : ∃ a b i, e = op .div [a, b] i
  · exact .inl h
  · refine .inr ⟨?_, ?_⟩
    · unfold numeratorParts
      split
      · next a b i => exact absurd ⟨a, b, i, rfl⟩ h
      · rfl
    · unfold denominatorParts
      split
      · next a b i => exact absurd ⟨a, b, i, rfl⟩ h
      · rfl

/-- A product of fractions is the fraction of the products. -/
theorem value_parts (args : List Expr) :
    (product args).value ρ = (quotient (product (args.flatMap numeratorParts))
      (product (args.flatMap denominatorParts))).value ρ := by
  induction args with
  | nil => simp
  | cons e args ih =>
      have hcons : (product (e :: args)).value ρ = (e.value ρ).bind fun p =>
          ((product args).value ρ).map (p * ·) := by
        rw [product, ← List.singleton_append, value_append rfl, value_singleton rfl]
        rfl
      rw [hcons, ih, List.flatMap_cons, List.flatMap_cons]
      generalize args.flatMap numeratorParts = numerators
      generalize args.flatMap denominatorParts = denominators
      rcases parts_cases e with ⟨a, b, i, rfl⟩ | ⟨hnumerator, hdenominator⟩
      · cases ha : a.value ρ <;> cases hb : b.value ρ <;> cases hn : values ρ numerators <;>
          cases hd : values ρ denominators <;>
          simp [numeratorParts, denominatorParts, ha, hb, hn, hd]
        next p q ps qs =>
          by_cases hq : q = 0
          · simp [hq]
          · by_cases hqs : 0 ∈ qs <;> simp [hq, hqs, div_mul_div_comm]
      · rw [hnumerator, hdenominator, List.nil_append]
        cases he : e.value ρ <;> cases hn : values ρ numerators <;>
          cases hd : values ρ denominators <;> simp [he, hn, hd]
        split <;> simp [mul_div_assoc]

/-- Moving its quotients in front keeps the value of a product. -/
theorem value_hoistedProduct (args : List Expr) (i : Bool) :
    (hoistedProduct args i).value ρ = (op .mul args i).value ρ := by
  rw [value_implicit .mul args i false, ← product, value_parts]
  unfold hoistedProduct
  split
  · next h =>
      rw [h, value_implicit _ _ i false, ← product]
      cases hn : values ρ (args.flatMap numeratorParts) <;> simp [hn]
  · rfl

mutual

/-- Moving quotients out of products keeps the value of a tree. -/
theorem value_hoistQuotients : ∀ e : Expr, e.hoistQuotients.value ρ = e.value ρ
  | const _ => rfl
  | symbol _ => rfl
  | member _ _ => rfl
  | op kind args i => by
      have hargs := values_hoistAll args
      cases kind with
      | mul => rw [hoistQuotients, value_hoistedProduct, value, value, hargs]
      | _ =>
          rw [hoistQuotients, value, value, hargs]
          nofun
  | call name args => by rw [hoistQuotients, value, value, values_hoistAll args]

theorem values_hoistAll : ∀ es : List Expr, values ρ (hoistAll es) = values ρ es
  | [] => rfl
  | e :: es => by
      rw [hoistAll, values_cons, values_cons, value_hoistQuotients e, values_hoistAll es]

end

theorem isPlain_hoistedProduct {args : List Expr} {i : Bool} (h : (op .mul args i).IsPlain) :
    (hoistedProduct args i).IsPlain := by
  obtain ⟨hlength, hargs⟩ := isPlain_op.mp h
  have hparts : ∀ arg ∈ args, numeratorParts arg ≠ [] ∧
      (∀ part ∈ numeratorParts arg, part.IsPlain) ∧
        ∀ part ∈ denominatorParts arg, part.IsPlain := by
    intro arg harg
    have hplain := hargs arg harg
    rcases parts_cases arg with ⟨a, b, j, rfl⟩ | ⟨hnumerator, hdenominator⟩
    · obtain ⟨-, hoperands⟩ := isPlain_op.mp hplain
      simpa [numeratorParts, denominatorParts] using hoperands
    · simpa [hnumerator, hdenominator] using hplain
  have hnumerators : (op .mul (args.flatMap numeratorParts) i).IsPlain := by
    refine isPlain_op.mpr ⟨?_, fun part hpart => ?_⟩
    · have hne : args.flatMap numeratorParts ≠ [] := by
        obtain ⟨arg, harg⟩ := List.exists_mem_of_ne_nil args (by rintro rfl; cases hlength)
        intro hnil
        exact (hparts arg harg).1 (List.flatMap_eq_nil_iff.mp hnil arg harg)
      exact bne_iff_ne.mpr (mt List.eq_nil_of_length_eq_zero hne)
    · obtain ⟨arg, harg, hpart⟩ := List.mem_flatMap.mp hpart
      exact (hparts arg harg).2.1 part hpart
  unfold hoistedProduct
  split
  · exact hnumerators
  · next denominators hne =>
      have hdenominators : (product (args.flatMap denominatorParts)).IsPlain := by
        refine isPlain_op.mpr
          ⟨bne_iff_ne.mpr (mt List.eq_nil_of_length_eq_zero hne), fun part hpart => ?_⟩
        obtain ⟨arg, harg, hpart⟩ := List.mem_flatMap.mp hpart
        exact (hparts arg harg).2.2 part hpart
      exact isPlain_op.mpr ⟨rfl, by simp [hnumerators, hdenominators]⟩

/-- Moving quotients out of products leaves a tree that can be read. -/
theorem isPlain_hoistQuotients {e : Expr} (h : e.IsPlain) : e.hoistQuotients.IsPlain := by
  induction e using Expr.induction with
  | const q => exact h
  | symbol name => exact h
  | member object index => exact h
  | op kind args i ih =>
      have hhoisted := h.map_op ih
      rw [← hoistAll_eq_map] at hhoisted
      cases kind with
      | mul => exact isPlain_hoistedProduct hhoisted
      | _ => exact hhoisted
  | call name args ih =>
      rw [hoistQuotients, hoistAll_eq_map]
      exact h.map_call ih

/-- The canonical order leaves a tree that can be read. -/
theorem isPlain_canonical {e : Expr} (h : e.IsPlain) : e.canonical.IsPlain :=
  (arranges_canonical.reordered e).symm.isPlain h

/-! ### The canonical form of a text -/

theorem value_canonicalize (e : Expr) : e.canonicalize.value ρ = e.value ρ := by
  rw [canonicalize, value_canonical, value_normalize, value_hoistQuotients, value_normalize]

theorem isPlain_canonicalize {e : Expr} (h : e.IsPlain) : e.canonicalize.IsPlain :=
  isPlain_canonical (isPlain_normalize (isPlain_hoistQuotients (isPlain_normalize h)))

/-- **A text that can be read has a canonical form**, which comes from a tree that was read and has
the value of the text. -/
theorem canonicalForm?_of_parse {text : String} {e : Expr} (h : parse text = .ok e) :
    ∃ x : Expr, x.IsPlain ∧ canonicalForm? text = some x.canonicalize ∧
      ∀ ρ : Valuation, x.value ρ = e.value ρ := by
  have hplain := isPlain_canonicalize (isPlain_of_parse h)
  obtain ⟨x, hx, hvalue⟩ := exists_parse_key hplain.wellFormed hplain.noLetterCall
  refine ⟨x, isPlain_of_parse hx, ?_, fun ρ => (hvalue ρ).trans (value_canonicalize e)⟩
  unfold canonicalForm?
  rw [h]
  simp only [hx]

/-- The texts with a canonical form are those that can be read. -/
theorem exists_canonicalForm?_iff {text : String} :
    (∃ form, canonicalForm? text = some form) ↔ ∃ e, parse text = .ok e := by
  constructor
  · rintro ⟨form, h⟩
    unfold canonicalForm? at h
    split at h
    · cases h
    · next e he => exact ⟨e, he⟩
  · rintro ⟨e, he⟩
    obtain ⟨x, -, hform, -⟩ := canonicalForm?_of_parse he
    exact ⟨x.canonicalize, hform⟩

/-- The canonical form of a text has the value of the text. -/
theorem value_canonicalForm? {text : String} {e form : Expr} (h : parse text = .ok e)
    (hform : canonicalForm? text = some form) : form.IsPlain ∧
      ∀ ρ : Valuation, form.value ρ = e.value ρ := by
  obtain ⟨x, hplain, hx, hvalue⟩ := canonicalForm?_of_parse h
  obtain rfl : x.canonicalize = form := Option.some.inj (hx.symm.trans hform)
  exact ⟨isPlain_canonicalize hplain, fun ρ => (value_canonicalize x).trans (hvalue ρ)⟩

end Expr

end AlgebraTutor
