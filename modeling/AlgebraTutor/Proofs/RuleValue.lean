/-
The algebraic rules keep values.

The groups of rules that know nothing of functions are the ones for decimals, identities,
cancelling, like terms, distribution, expansion and arithmetic.  For each of their rules the
replacement has the value of what is replaced, wherever that has one.  Most of it is an identity of
rational numbers, with the denominators that occur known to be different from zero because the
left side has a value.  Powers need more care: zero has no negative powers, and zero to the power
zero is one.
-/
import AlgebraTutor.Proofs.PatternValue
import AlgebraTutor.Rule.Standard

namespace AlgebraTutor

/-! ### Integer powers -/

theorem Valuation.HasIntegerPowers.power_eq {ρ : Valuation} (hρ : ρ.HasIntegerPowers) (p q : Rat) :
    ρ.power p q = integerPower p q := by
  rw [hρ]

theorem integerPower_eq_some {a q v : Rat} :
    integerPower a q = some v ↔ ∃ k : Int, q = k ∧ (0 ≤ k ∨ a ≠ 0) ∧ a ^ k = v := by
  unfold integerPower
  constructor
  · intro h
    split at h
    · next hcond =>
        refine ⟨q.num, ((Rat.den_eq_one_iff q).mp hcond.1).symm, hcond.2, ?_⟩
        simpa using h
    · cases h
  · rintro ⟨k, rfl, hk, rfl⟩
    rw [Rat.num_intCast, if_pos ⟨Rat.den_intCast k, hk⟩]

@[simp] theorem integerPower_zero (a : Rat) : integerPower a 0 = some 1 :=
  integerPower_eq_some.mpr ⟨0, by simp, .inl le_rfl, by simp⟩

@[simp] theorem integerPower_one (a : Rat) : integerPower a 1 = some a :=
  integerPower_eq_some.mpr ⟨1, by simp, .inl (by decide), by simp⟩

@[simp] theorem integerPower_two (a : Rat) : integerPower a 2 = some (a * a) :=
  integerPower_eq_some.mpr ⟨2, by simp, .inl (by decide), by rw [← sq]; norm_cast⟩

theorem integerPower_base_one {q v : Rat} (h : integerPower 1 q = some v) : v = 1 := by
  obtain ⟨k, -, -, rfl⟩ := integerPower_eq_some.mp h
  exact one_zpow k

/-- Exponents add up.  Where the base is zero neither exponent is negative, so their sum is zero
only if both are. -/
theorem integerPower_add {a p q x y : Rat} (hx : integerPower a p = some x)
    (hy : integerPower a q = some y) : integerPower a (p + q) = some (x * y) := by
  obtain ⟨k, rfl, hk, rfl⟩ := integerPower_eq_some.mp hx
  obtain ⟨l, rfl, hl, rfl⟩ := integerPower_eq_some.mp hy
  refine integerPower_eq_some.mpr ⟨k + l, by push_cast; rfl, ?_, zpow_add' ?_⟩
  · rcases hk with hk | ha
    · rcases hl with hl | ha
      · exact .inl (by omega)
      · exact .inr ha
    · exact .inr ha
  · rcases hk with hk | ha
    · rcases hl with hl | ha
      · by_cases hsum : k + l = 0
        · exact .inr (.inr ⟨by omega, by omega⟩)
        · exact .inr (.inl hsum)
      · exact .inl ha
    · exact .inl ha

/-- The quotient of two powers, where the second one is not zero. -/
theorem integerPower_sub {a p q x y : Rat} (hx : integerPower a p = some x)
    (hy : integerPower a q = some y) (hne : y ≠ 0) :
    (0 ≤ p - q → integerPower a (p - q) = some (x / y)) ∧
      (p - q < 0 → ∃ z, integerPower a (-(p - q)) = some z ∧ z ≠ 0 ∧ 1 / z = x / y) := by
  obtain ⟨k, rfl, hk, rfl⟩ := integerPower_eq_some.mp hx
  obtain ⟨l, rfl, hl, rfl⟩ := integerPower_eq_some.mp hy
  by_cases ha : a = 0
  · -- A power of zero that is not zero has the exponent zero.
    obtain rfl : l = 0 := by
      by_contra hl0
      exact hne (by rw [ha, zero_zpow l hl0])
    have hk0 : (0 : Int) ≤ k := hk.resolve_right (fun h => h ha)
    refine ⟨fun _ => ?_, fun hneg => ?_⟩
    · refine integerPower_eq_some.mpr ⟨k, by simp, .inl hk0, by simp⟩
    · exact absurd hneg (by simpa using hk0)
  · refine ⟨fun _ => ?_, fun _ => ⟨a ^ (l - k), ?_, zpow_ne_zero _ ha, ?_⟩⟩
    · exact integerPower_eq_some.mpr ⟨k - l, by push_cast; rfl, .inr ha, zpow_sub₀ ha k l⟩
    · exact integerPower_eq_some.mpr ⟨l - k, by push_cast; ring, .inr ha, rfl⟩
    · rw [zpow_sub₀ ha, one_div_div]

open Pattern.Wildcard

variable {ρ : Valuation}

theorem bind_ite_none {α β : Type} {p : Prop} [Decidable p] (a : α) (f : α → Option β) :
    (if p then none else some a).bind f = if p then none else f a := by
  split <;> rfl

/-! ### Rules between patterns

After the wildcards have been given values, what is left of each rule is the identity that its
comment shows. -/

theorem Distribution.rules_keep : ∀ spec ∈ Distribution.rules, spec.Keeps ρ := by
  simp only [Distribution.rules, List.forall_mem_cons, List.not_mem_nil, false_imp_iff,
    implies_true, and_true, RuleSpec.structural, RuleSpec.withMissteps]
  refine ⟨?_, ?_⟩
  · -- a * (b + c) = a * b + a * c
    apply RuleSpec.keeps_structural
    intro σ v h
    cases h₁ : n1.value ρ σ <;> cases h₂ : n2.value ρ σ <;> cases h₃ : n3.value ρ σ <;>
      simp [h₁, h₂, h₃] at h ⊢
    rw [← h]; ring
  · -- -(a + b) = -a + -b
    apply RuleSpec.keeps_structural
    intro σ v h
    cases h₁ : n1.value ρ σ <;> cases h₂ : n2.value ρ σ <;> simp [h₁, h₂] at h ⊢
    rw [← h]; ring

theorem Distribution.expansions_keep (hρ : ρ.HasIntegerPowers) :
    ∀ spec ∈ Distribution.expansions, spec.Keeps ρ := by
  simp only [Distribution.expansions, List.forall_mem_cons, List.not_mem_nil, false_imp_iff,
    implies_true, and_true, RuleSpec.structural, RuleSpec.withMissteps]
  apply RuleSpec.keeps_structural
  intro σ v h
  cases h₁ : n1.value ρ σ <;> cases h₂ : n2.value ρ σ <;>
    simp [h₁, h₂, hρ.power_eq] at h ⊢
  rw [← h]; ring

theorem Identity.rules_keep (hρ : ρ.HasIntegerPowers) :
    ∀ spec ∈ Identity.rules, spec.Keeps ρ := by
  simp only [Identity.rules, List.forall_mem_cons, List.not_mem_nil, false_imp_iff,
    implies_true, and_true, RuleSpec.structural, RuleSpec.computed]
  refine ⟨?_, ?_, ?_, ?_, ?_, ?_, ?_, ?_, ?_, ?_, ?_, ?_, ?_, ?_, ?_, ?_⟩
  · -- a + 0 = a
    apply RuleSpec.keeps_structural
    intro σ v h
    cases h₁ : n1.value ρ σ <;> simp [h₁] at h ⊢
    exact h
  · -- a * 1 = a
    apply RuleSpec.keeps_structural
    intro σ v h
    cases h₁ : n1.value ρ σ <;> simp [h₁] at h ⊢
    exact h
  · -- a * 0 = 0
    apply RuleSpec.keeps_structural
    intro σ v h
    cases h₁ : n1.value ρ σ <;> simp [h₁] at h ⊢
    exact h
  · -- a ^ 1 = a
    apply RuleSpec.keeps_structural
    intro σ v h
    cases h₁ : n1.value ρ σ <;> simp [h₁, hρ.power_eq] at h ⊢
    exact h
  · -- a ^ 0 = 1
    apply RuleSpec.keeps_structural
    intro σ v h
    cases h₁ : n1.value ρ σ <;> simp [h₁, hρ.power_eq] at h ⊢
    exact h
  · -- a / 1 = a
    apply RuleSpec.keeps_structural
    intro σ v h
    cases h₁ : n1.value ρ σ <;> simp [h₁] at h ⊢
    exact h
  · -- a / -1 = -a
    apply RuleSpec.keeps_structural
    intro σ v h
    cases h₁ : n1.value ρ σ <;> simp [h₁] at h ⊢
    rw [← h, div_neg, div_one]
  · -- -1 * a = -a
    apply RuleSpec.keeps_structural
    intro σ v h
    cases h₁ : n1.value ρ σ <;> simp [h₁] at h ⊢
    exact h
  · -- -(-a) = a
    apply RuleSpec.keeps_structural
    intro σ v h
    cases h₁ : n1.value ρ σ <;> simp [h₁] at h ⊢
    exact h
  · -- 0 / a = 0
    apply RuleSpec.keeps_computed
    intro _ b t hb v h
    obtain ⟨e, he, hb⟩ := Option.bind_eq_some_iff.mp hb
    split at hb
    · cases hb
    · cases hb
      cases h₁ : n1.value ρ (b.meaning ρ) <;> simp [h₁] at h ⊢
      exact h.2
  · -- 1 ^ a = 1
    apply RuleSpec.keeps_structural
    intro σ v h
    cases h₁ : n1.value ρ σ <;> simp [h₁, hρ.power_eq] at h ⊢
    exact (integerPower_base_one h).symm
  · -- -a * -b = a * b
    apply RuleSpec.keeps_structural
    intro σ v h
    cases h₁ : n1.value ρ σ <;> cases h₂ : n2.value ρ σ <;> simp [h₁, h₂] at h ⊢
    exact h
  · -- -a / -b = a / b
    apply RuleSpec.keeps_structural
    intro σ v h
    cases h₁ : n1.value ρ σ <;> cases h₂ : n2.value ρ σ <;> simp [h₁, h₂] at h ⊢
    exact h
  · -- a / (b / c) = a * c / b
    apply RuleSpec.keeps_structural
    intro σ v h
    cases h₁ : n1.value ρ σ <;> cases h₂ : n2.value ρ σ <;> cases h₃ : n3.value ρ σ <;>
      simp [h₁, h₂, h₃, bind_ite_none] at h ⊢
    obtain ⟨hc, ⟨hb, -⟩, rfl⟩ := h
    exact ⟨hb, (div_div_eq_mul_div ..).symm⟩
  · -- a / b / c = a / (b * c)
    apply RuleSpec.keeps_structural
    intro σ v h
    cases h₁ : n1.value ρ σ <;> cases h₂ : n2.value ρ σ <;> cases h₃ : n3.value ρ σ <;>
      simp [h₁, h₂, h₃, bind_ite_none] at h ⊢
    obtain ⟨hb, hc, rfl⟩ := h
    exact ⟨⟨hb, hc⟩, (div_div ..).symm⟩
  · -- a * (b / c) = a * b / c
    apply RuleSpec.keeps_structural
    intro σ v h
    cases h₁ : n1.value ρ σ <;> cases h₂ : n2.value ρ σ <;> cases h₃ : n3.value ρ σ <;>
      simp [h₁, h₂, h₃] at h ⊢
    exact ⟨h.1, by rw [← h.2, mul_div_assoc]⟩

theorem Cancelling.rules_keep (hρ : ρ.HasIntegerPowers) :
    ∀ spec ∈ Cancelling.rules, spec.Keeps ρ := by
  simp only [Cancelling.rules, List.forall_mem_cons, List.not_mem_nil, false_imp_iff,
    implies_true, and_true, RuleSpec.structural, RuleSpec.computed]
  refine ⟨?_, ?_, ?_, ?_, ?_, ?_, ?_⟩
  · -- a + -a = 0
    apply RuleSpec.keeps_structural
    intro σ v h
    cases h₁ : n1.value ρ σ <;> simp [h₁] at h ⊢
    exact h
  · -- a * b / a = b
    apply RuleSpec.keeps_structural
    intro σ v h
    cases h₁ : n1.value ρ σ <;> cases h₂ : n2.value ρ σ <;> simp [h₁, h₂] at h ⊢
    rw [← h.2, mul_div_cancel_left₀ _ h.1]
  · -- a / a = 1
    apply RuleSpec.keeps_structural
    intro σ v h
    cases h₁ : v1.value ρ σ <;> simp [h₁] at h ⊢
    rw [← h.2, div_self h.1]
  · -- a * b / (a * c) = b / c
    apply RuleSpec.keeps_structural
    intro σ v h
    cases h₁ : n1.value ρ σ <;> cases h₂ : n2.value ρ σ <;> cases h₃ : n3.value ρ σ <;>
      simp [h₁, h₂, h₃] at h ⊢
    exact ⟨h.1.2, by rw [← h.2, mul_div_mul_left _ _ h.1.1]⟩
  · -- a / (a * b) = 1 / b
    apply RuleSpec.keeps_structural
    intro σ v h
    cases h₁ : n1.value ρ σ <;> cases h₂ : n2.value ρ σ <;> simp [h₁, h₂] at h ⊢
    exact ⟨h.1.2, by rw [← h.2, div_mul_cancel_left₀ h.1.1]⟩
  · -- a ^ p / a = a ^ (p - 1)
    apply RuleSpec.keeps_computed
    intro _ b t hb v h
    obtain ⟨p, hp, hb⟩ := Option.bind_eq_some_iff.mp hb
    obtain ⟨e, he, hb⟩ := Option.bind_eq_some_iff.mp hb
    cases hb
    have hc : c1.value ρ (b.meaning ρ) = some p := Bindings.meaning_of_constant? hp
    have hv : v1.value ρ (b.meaning ρ) = e.value ρ := Bindings.meaning_of_get? he
    cases ha : e.value ρ with
    | none => simp [hc, hv, ha] at h
    | some a =>
        rw [ha] at hv
        simp [hc, hv, hρ.power_eq] at h
        simp only [Expr.value_power, ha, Expr.value_ofRat, Option.bind_some, hρ.power_eq]
        obtain ⟨x, hx, h⟩ := Option.bind_eq_some_iff.mp h
        obtain ⟨hne, rfl⟩ : a ≠ 0 ∧ x / a = v := by simpa using h
        have hsum := integerPower_add (q := -1) (y := a⁻¹) hx
          (integerPower_eq_some.mpr ⟨-1, by simp, .inr hne, zpow_neg_one a⟩)
        rw [sub_eq_add_neg, hsum, div_eq_mul_inv]
  · -- a ^ p / a ^ q = a ^ (p - q) or 1 / a ^ (q - p)
    apply RuleSpec.keeps_computed
    intro _ b t hb v h
    obtain ⟨e, he, hb⟩ := Option.bind_eq_some_iff.mp hb
    obtain ⟨p, hp, hb⟩ := Option.bind_eq_some_iff.mp hb
    obtain ⟨q, hq, hb⟩ := Option.bind_eq_some_iff.mp hb
    have hc₁ : c1.value ρ (b.meaning ρ) = some p := Bindings.meaning_of_constant? hp
    have hc₂ : c2.value ρ (b.meaning ρ) = some q := Bindings.meaning_of_constant? hq
    have hv : v1.value ρ (b.meaning ρ) = e.value ρ := Bindings.meaning_of_get? he
    cases ha : e.value ρ with
    | none => simp [hc₁, hc₂, hv, ha] at h
    | some a =>
        rw [ha] at hv
        simp [hc₁, hc₂, hv, hρ.power_eq] at h
        obtain ⟨x, hx, h⟩ := Option.bind_eq_some_iff.mp h
        obtain ⟨y, hy, h⟩ := Option.bind_eq_some_iff.mp h
        obtain ⟨hne, rfl⟩ : y ≠ 0 ∧ x / y = v := by simpa using h
        obtain ⟨hle, hlt⟩ := integerPower_sub hx hy hne
        simp only at hb
        split at hb
        · next hsign =>
            cases hb
            simp [ha, hρ.power_eq, hle hsign]
        · next hsign =>
            cases hb
            obtain ⟨z, hz, hz0, hxy⟩ := hlt (not_le.mp hsign)
            rw [neg_sub] at hz
            simp [ha, hρ.power_eq, hz, hz0, ← hxy]

/-- A collected term is the number times what the term stands for. -/
theorem Collecting.value_scaled {q : Rat} {b : Bindings} {t : Expr} (h : scaled q b = some t) :
    t.value ρ = (v1.value ρ (b.meaning ρ)).map (q * ·) := by
  obtain ⟨e, he, h⟩ := Option.bind_eq_some_iff.mp h
  cases h
  have hv : v1.value ρ (b.meaning ρ) = e.value ρ := Bindings.meaning_of_get? he
  rw [hv]
  cases ha : e.value ρ <;> simp [ha]

theorem Collecting.rules_keep (hρ : ρ.HasIntegerPowers) :
    ∀ spec ∈ Collecting.rules, spec.Keeps ρ := by
  simp only [Collecting.rules, List.forall_mem_cons, List.not_mem_nil, false_imp_iff,
    implies_true, and_true, RuleSpec.structural, RuleSpec.computed, RuleSpec.withMissteps]
  refine ⟨?_, ?_, ?_, ?_, ?_, ?_, ?_⟩
  · -- p * a + q * a = (p + q) * a
    apply RuleSpec.keeps_computed
    intro _ b t hb v h
    obtain ⟨p, hp, hb⟩ := Option.bind_eq_some_iff.mp hb
    obtain ⟨q, hq, hb⟩ := Option.bind_eq_some_iff.mp hb
    have hc₁ : c1.value ρ (b.meaning ρ) = some p := Bindings.meaning_of_constant? hp
    have hc₂ : c2.value ρ (b.meaning ρ) = some q := Bindings.meaning_of_constant? hq
    rw [Collecting.value_scaled hb]
    cases ha : v1.value ρ (b.meaning ρ) <;> simp [hc₁, hc₂, ha] at h ⊢
    rw [← h]; ring
  · -- p * a + a = (p + 1) * a
    apply RuleSpec.keeps_computed
    intro _ b t hb v h
    obtain ⟨p, hp, hb⟩ := Option.bind_eq_some_iff.mp hb
    have hc : c1.value ρ (b.meaning ρ) = some p := Bindings.meaning_of_constant? hp
    rw [Collecting.value_scaled hb]
    cases ha : v1.value ρ (b.meaning ρ) <;> simp [hc, ha] at h ⊢
    rw [← h]; ring
  · -- p * a + -a = (p - 1) * a
    apply RuleSpec.keeps_computed
    intro _ b t hb v h
    obtain ⟨p, hp, hb⟩ := Option.bind_eq_some_iff.mp hb
    have hc : c1.value ρ (b.meaning ρ) = some p := Bindings.meaning_of_constant? hp
    rw [Collecting.value_scaled hb]
    cases ha : v1.value ρ (b.meaning ρ) <;> simp [hc, ha] at h ⊢
    rw [← h]; ring
  · -- a + a = 2 * a
    apply RuleSpec.keeps_structural
    intro σ v h
    cases h₁ : v1.value ρ σ <;> simp [h₁] at h ⊢
    rw [← h]; ring
  · -- a * a = a ^ 2
    apply RuleSpec.keeps_structural
    intro σ v h
    cases h₁ : v1.value ρ σ <;> simp [h₁, hρ.power_eq] at h ⊢
    exact h
  · -- a ^ p * a = a ^ (p + 1)
    apply RuleSpec.keeps_computed
    intro _ b t hb v h
    obtain ⟨p, hp, hb⟩ := Option.bind_eq_some_iff.mp hb
    obtain ⟨e, he, hb⟩ := Option.bind_eq_some_iff.mp hb
    cases hb
    have hc : c1.value ρ (b.meaning ρ) = some p := Bindings.meaning_of_constant? hp
    have hv : v1.value ρ (b.meaning ρ) = e.value ρ := Bindings.meaning_of_get? he
    cases ha : e.value ρ with
    | none => simp [hc, hv, ha] at h
    | some a =>
        rw [ha] at hv
        simp [hc, hv, hρ.power_eq] at h
        obtain ⟨x, hx, h⟩ := Option.bind_eq_some_iff.mp h
        cases h
        simp [ha, hρ.power_eq, integerPower_add hx (integerPower_one a)]
  · -- a ^ p * a ^ q = a ^ (p + q)
    apply RuleSpec.keeps_structural
    intro σ v h
    cases h₁ : v1.value ρ σ <;> cases h₂ : n1.value ρ σ <;> cases h₃ : n2.value ρ σ <;>
      simp [h₁, h₂, h₃, hρ.power_eq] at h ⊢
    obtain ⟨x, hx, h⟩ := Option.bind_eq_some_iff.mp h
    obtain ⟨y, hy, rfl⟩ := Option.map_eq_some_iff.mp h
    exact integerPower_add hx hy

/-! ### Rules that compute with constants -/

theorem Decimals.rules_keep : ∀ spec ∈ Decimals.rules, spec.Keeps ρ := by
  simp only [Decimals.rules, List.forall_mem_cons, List.not_mem_nil, false_imp_iff,
    implies_true, and_true, RuleSpec.computed]
  apply RuleSpec.keeps_workedOut
  intro _ b t hb
  obtain ⟨q, hq, hb⟩ := Option.bind_eq_some_iff.mp hb
  split at hb
  · cases hb
  · cases hb
    exact ⟨q, Expr.value_ofRat .., Bindings.meaning_of_constant? hq⟩

/-- What is worked out from two bound constants is what the pattern for it stands for. -/
theorem Arithmetic.value_sum? {b : Bindings} {r : Rat} (h : Arithmetic.sum? b = some r) :
    (c1 + c2).value ρ (b.meaning ρ) = some r := by
  obtain ⟨p, hp, h⟩ := Option.bind_eq_some_iff.mp h
  obtain ⟨q, hq, h⟩ := Option.bind_eq_some_iff.mp h
  cases h
  have hc₁ : c1.value ρ (b.meaning ρ) = some p := Bindings.meaning_of_constant? hp
  have hc₂ : c2.value ρ (b.meaning ρ) = some q := Bindings.meaning_of_constant? hq
  simp [hc₁, hc₂]

theorem Arithmetic.value_product? {b : Bindings} {r : Rat} (h : Arithmetic.product? b = some r) :
    (c1 * c2).value ρ (b.meaning ρ) = some r := by
  obtain ⟨p, hp, h⟩ := Option.bind_eq_some_iff.mp h
  obtain ⟨q, hq, h⟩ := Option.bind_eq_some_iff.mp h
  cases h
  have hc₁ : c1.value ρ (b.meaning ρ) = some p := Bindings.meaning_of_constant? hp
  have hc₂ : c2.value ρ (b.meaning ρ) = some q := Bindings.meaning_of_constant? hq
  simp [hc₁, hc₂]

theorem Arithmetic.value_fraction? {i j : String} {b : Bindings} {q : Rat}
    (h : Arithmetic.fraction? i j b = some q) :
    (Pattern.wildcard i (.constant false) / Pattern.wildcard j (.constant false)).value ρ
      (b.meaning ρ) = some q := by
  obtain ⟨d, hd, h⟩ := Option.bind_eq_some_iff.mp h
  split at h
  · cases h
  · next hne =>
      obtain ⟨n, hn, h⟩ := Option.bind_eq_some_iff.mp h
      cases h
      simp [Pattern.value, Bindings.meaning_of_constant? hd, Bindings.meaning_of_constant? hn, hne]

/-- The power of two constants is worked out as it is defined. -/
theorem Arithmetic.value_power {node : Expr} {b : Bindings} {t : Expr}
    (hb : Arithmetic.power node b = some t) {v : Rat}
    (h : (b.meaning ρ "c1").bind (fun p => (b.meaning ρ "c2").bind (integerPower p)) = some v) :
    t.value ρ = some v := by
  obtain ⟨p, hp, hb⟩ := Option.bind_eq_some_iff.mp hb
  obtain ⟨k, hk, hb⟩ := Option.bind_eq_some_iff.mp hb
  rw [Bindings.meaning_of_constant? hp, Option.bind_some, Bindings.meaning_of_integer? hk,
    Option.bind_some] at h
  obtain ⟨l, hl, hdefined, rfl⟩ := integerPower_eq_some.mp h
  obtain rfl : k = l := by exact_mod_cast hl
  simp only at hb
  split at hb
  · cases hb
  · split at hb
    · next hsign =>
        cases hb
        rw [Expr.value_ofRat]
        show some (p ^ k.natAbs) = some (p ^ k)
        rw [← zpow_natCast, Int.natAbs_of_nonneg hsign]
    · next hsign =>
        split at hb
        · cases hb
        · next hne =>
            cases hb
            rw [Expr.value_quotient, Expr.value, Expr.value_ofRat, Option.bind_some,
              Option.bind_some, if_neg hne]
            show some (1 / p ^ k.natAbs) = some (p ^ k)
            rw [one_div, ← zpow_natCast, ← zpow_neg]
            congr 2
            omega

theorem Arithmetic.rules_keep (hρ : ρ.HasIntegerPowers) :
    ∀ spec ∈ Arithmetic.rules, spec.Keeps ρ := by
  simp only [Arithmetic.rules, List.forall_mem_cons, List.not_mem_nil, false_imp_iff,
    implies_true, and_true, RuleSpec.computed, RuleSpec.withMissteps]
  refine ⟨?_, ?_, ?_, ?_, ?_, ?_, ?_, ?_⟩
  · -- p + q
    apply RuleSpec.keeps_workedOut
    intro _ b t hb
    obtain ⟨r, hr, rfl⟩ := Option.map_eq_some_iff.mp hb
    exact ⟨r, Expr.value_ofRat .., Arithmetic.value_sum? hr⟩
  · -- p * q
    apply RuleSpec.keeps_workedOut
    intro _ b t hb
    obtain ⟨r, hr, rfl⟩ := Option.map_eq_some_iff.mp hb
    exact ⟨r, Expr.value_ofRat .., Arithmetic.value_product? hr⟩
  · -- p / q, an integer
    apply RuleSpec.keeps_workedOut
    intro _ b t hb
    obtain ⟨r, hr, hb⟩ := Option.bind_eq_some_iff.mp hb
    split at hb
    · cases hb
      exact ⟨r, rfl, Arithmetic.value_fraction? hr⟩
    · cases hb
  · -- p / q in lowest terms
    apply RuleSpec.keeps_workedOut
    intro _ b t hb
    obtain ⟨_, -, hb⟩ := Option.bind_eq_some_iff.mp hb
    obtain ⟨_, -, hb⟩ := Option.bind_eq_some_iff.mp hb
    obtain ⟨r, hr, hb⟩ := Option.bind_eq_some_iff.mp hb
    cases hb
    exact ⟨r, Expr.value_ofRat .., Arithmetic.value_fraction? hr⟩
  · -- p ^ k
    apply RuleSpec.keeps_computed
    intro _ b t hb v h
    refine Arithmetic.value_power hb ?_
    rw [Pattern.value_pow, hρ] at h
    exact h
  · -- p / q + r / s
    apply RuleSpec.keeps_workedOut
    intro _ b t hb
    obtain ⟨x, hx, hb⟩ := Option.bind_eq_some_iff.mp hb
    obtain ⟨y, hy, hb⟩ := Option.bind_eq_some_iff.mp hb
    cases hb
    have hx' : (c1 / c2).value ρ (b.meaning ρ) = some x := Arithmetic.value_fraction? hx
    have hy' : (c3 / c4).value ρ (b.meaning ρ) = some y := Arithmetic.value_fraction? hy
    refine ⟨x + y, Expr.value_ofRat .., ?_⟩
    rw [Pattern.value_add, hx', hy']
    rfl
  · -- p + q / r
    apply RuleSpec.keeps_workedOut
    intro _ b t hb
    obtain ⟨x, hx, hb⟩ := Option.bind_eq_some_iff.mp hb
    obtain ⟨p, hp, hb⟩ := Option.bind_eq_some_iff.mp hb
    cases hb
    have hc : c1.value ρ (b.meaning ρ) = some p := Bindings.meaning_of_constant? hp
    have hx' : (c2 / c3).value ρ (b.meaning ρ) = some x := Arithmetic.value_fraction? hx
    refine ⟨x + p, Expr.value_ofRat .., ?_⟩
    rw [Pattern.value_add, hx', hc, add_comm]
    rfl
  · -- (p / q) * (r / s)
    apply RuleSpec.keeps_workedOut
    intro _ b t hb
    obtain ⟨x, hx, hb⟩ := Option.bind_eq_some_iff.mp hb
    obtain ⟨y, hy, hb⟩ := Option.bind_eq_some_iff.mp hb
    cases hb
    have hx' : (c1 / c2).value ρ (b.meaning ρ) = some x := Arithmetic.value_fraction? hx
    have hy' : (c3 / c4).value ρ (b.meaning ρ) = some y := Arithmetic.value_fraction? hy
    refine ⟨x * y, Expr.value_ofRat .., ?_⟩
    rw [Pattern.value_mul, hx', hy']
    rfl

/-! ### The groups of the standard set -/

namespace RuleSet

/-- The groups with rules that know nothing of functions. -/
def algebraicGroups : List String :=
  ["decimal", "identity", "cancel", "like terms", "distribute", "expand", "arithmetic"]

theorem toRuleSpec_mem_of_mem_identifyRules {specs : List RuleSpec} : ∀ {seen : List Change}
    {rule : Rule}, rule ∈ (identifyRules seen specs).1 → rule.toRuleSpec ∈ specs := by
  induction specs with
  | nil => intro seen rule h; cases h
  | cons spec specs ih =>
      intro seen rule h
      rw [identifyRules] at h
      rcases List.mem_cons.mp h with rfl | h
      · exact List.mem_cons_self ..
      · exact List.mem_cons_of_mem _ (ih h)

/-- A group with identifiers has the name and the rules of one without. -/
theorem exists_group_of_mem_identifyGroups {groups : List (Group RuleSpec)} :
    ∀ {seen : List Change} {group : Group Rule}, group ∈ identifyGroups seen groups →
      ∃ plain ∈ groups, plain.name = group.name ∧
        ∀ rule ∈ group.rules, rule.toRuleSpec ∈ plain.rules := by
  induction groups with
  | nil => intro seen group h; cases h
  | cons plain groups ih =>
      intro seen group h
      rw [identifyGroups] at h
      rcases List.mem_cons.mp h with rfl | h
      · exact ⟨plain, List.mem_cons_self .., rfl,
          fun rule hrule => toRuleSpec_mem_of_mem_identifyRules hrule⟩
      · obtain ⟨plain', hmem, hname, hrules⟩ := ih h
        exact ⟨plain', List.mem_cons_of_mem _ hmem, hname, hrules⟩

/-- What is true of the rules in the seven tables is true of all algebraic rules. -/
theorem forall_algebraic {P : RuleSpec → Prop} (decimals : ∀ spec ∈ Decimals.rules, P spec)
    (identities : ∀ spec ∈ Identity.rules, P spec)
    (cancelling : ∀ spec ∈ Cancelling.rules, P spec)
    (collecting : ∀ spec ∈ Collecting.rules, P spec)
    (distribution : ∀ spec ∈ Distribution.rules, P spec)
    (expansions : ∀ spec ∈ Distribution.expansions, P spec)
    (arithmetic : ∀ spec ∈ Arithmetic.rules, P spec) {group : Group RuleSpec}
    (hgroup : group ∈ standardGroups) (hname : group.name ∈ algebraicGroups) :
    ∀ spec ∈ group.rules, P spec := by
  simp only [standardGroups, List.mem_cons, List.not_mem_nil, or_false] at hgroup
  rcases hgroup with rfl | rfl | rfl | rfl | rfl | rfl | rfl | rfl | rfl | rfl | rfl
  · exact decimals
  · exact absurd hname (by decide)
  · exact identities
  · exact cancelling
  · exact collecting
  · exact absurd hname (by decide)
  · exact distribution
  · exact absurd hname (by decide)
  · exact absurd hname (by decide)
  · exact expansions
  · exact arithmetic

/-- The rules of the algebraic groups keep values before they have identifiers. -/
theorem algebraic_keeps {ρ : Valuation} (hρ : ρ.HasIntegerPowers) {group : Group RuleSpec}
    (hgroup : group ∈ standardGroups) (hname : group.name ∈ algebraicGroups) :
    ∀ spec ∈ group.rules, spec.Keeps ρ :=
  forall_algebraic Decimals.rules_keep (Identity.rules_keep hρ) (Cancelling.rules_keep hρ)
    (Collecting.rules_keep hρ) Distribution.rules_keep (Distribution.expansions_keep hρ)
    (Arithmetic.rules_keep hρ) hgroup hname

theorem keeps_of_algebraic {ρ : Valuation} (hρ : ρ.HasIntegerPowers) {group : Group Rule}
    (hgroup : group ∈ standard.groups) (hname : group.name ∈ algebraicGroups) {rule : Rule}
    (hrule : rule ∈ group.rules) : rule.toRuleSpec.Keeps ρ := by
  obtain ⟨plain, hplain, heq, hrules⟩ := exists_group_of_mem_identifyGroups hgroup
  exact algebraic_keeps hρ hplain (heq ▸ hname) _ (hrules rule hrule)

/-- **An algebraic rule keeps the value of the tree it is applied in**, whatever the node and
whichever of the rule's applications it is. -/
theorem value_splice_of_algebraic (ρ : Valuation) (hρ : ρ.HasIntegerPowers) (group : Group Rule)
    (hgroup : group ∈ standard.groups) (hname : group.name ∈ algebraicGroups) (rule : Rule)
    (hrule : rule ∈ group.rules) (context : Context) (withMistakes : Bool) (root node : Expr)
    (path : Path) (hnode : root.get? path = some node) (apps : List Application)
    (happs : rule.applications context withMistakes node = .ok apps) (A : Application)
    (hA : A ∈ apps) (v : Rat) (hv : root.value ρ = some v) :
    (root.splice path A.after).value ρ = some v :=
  Expr.keeps_splice hnode
    (Rule.keeps_of_mem_applications (keeps_of_algebraic hρ hgroup hname hrule) happs hA) v hv

open AlgebraTutor.Expr in
/-- Adding nothing to `x` in `2 * (x + 0)`, where `x` is three. -/
theorem value_splice_addingZero : ∃ group ∈ standard.groups, group.name ∈ algebraicGroups ∧
    ∃ rule ∈ group.rules, ∃ A,
      rule.applications .plain false (sum [symbol "x", const 0]) = .ok [A] ∧
      ((product [const 2, sum [symbol "x", const 0]]).splice [1] A.after).value (.uniform 3) =
        some 6 := by
  have hmem {a b c : Group Rule} {groups : List (Group Rule)} : c ∈ a :: b :: c :: groups :=
    List.mem_cons_of_mem _ (List.mem_cons_of_mem _ (List.mem_cons_self ..))
  have hfirst {rule : Rule} {rules : List Rule} : rule ∈ rule :: rules := List.mem_cons_self ..
  refine ⟨_, hmem, by decide, _, hfirst, ⟨symbol "x", []⟩, by cbv, ?_⟩
  refine value_splice_of_algebraic (.uniform 3) rfl _ hmem (by decide) _ hfirst .plain false
    (product [const 2, sum [symbol "x", const 0]]) (sum [symbol "x", const 0]) [1] rfl
    [⟨symbol "x", []⟩] (by cbv) _ (List.mem_cons_self ..) 6 ?_
  simp [Valuation.uniform, Valuation.arithmetic]
  norm_num

end RuleSet

end AlgebraTutor
