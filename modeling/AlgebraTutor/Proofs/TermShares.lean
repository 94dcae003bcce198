/-
The terms of a side account for the whole of it.

A term that is found inside quotients comes with the product of their denominators, and its share is
the term over that product.  The induction is over the tree: what is collected from a tree inside
quotients has shares that sum to the value of the tree over the value of the divisor.  The divisor
grows by one denominator at each quotient, as a product of constants or as a product in normal form,
and in both ways its value is the product of the two values.

Taking a term away takes its share from the value of the side, whatever the sign that the operation
is reported with.  Of like operations only the first is kept, but like operands have one value.
-/
import AlgebraTutor.Operation
import AlgebraTutor.Proofs.Matching

namespace AlgebraTutor

variable {ρ : Valuation}

namespace IndexedTerm

open AlgebraTutor.Expr

/-! ### Divisors -/

/-- What stands inside quotients is divided by `q`. -/
def DividesBy (ρ : Valuation) (divisor : Option Expr) (q : Rat) : Prop :=
  match divisor with
  | some d => d.value ρ = some q ∧ q ≠ 0
  | none => q = 1

theorem value_combined {outer inner : Expr} {q r : Rat} (houter : outer.value ρ = some q)
    (hinner : inner.value ρ = some r) : (combined outer inner).value ρ = some (q * r) := by
  unfold combined
  split
  · obtain rfl := Option.some.inj houter
    obtain rfl := Option.some.inj hinner
    rfl
  · rw [value_normalize, value_product]
    simp [houter, hinner, mul_comm]

theorem dividesBy_deeper {divisor : Option Expr} {denominator : Expr} {q r : Rat}
    (hdivisor : DividesBy ρ divisor q) (hdenominator : denominator.value ρ = some r) (hr : r ≠ 0) :
    DividesBy ρ (some (deeper divisor denominator)) (q * r) := by
  cases divisor with
  | none =>
      obtain rfl : q = 1 := hdivisor
      rw [one_mul]
      exact ⟨hdenominator, hr⟩
  | some outer => exact ⟨value_combined hdivisor.1 hdenominator, mul_ne_zero hdivisor.2 hr⟩

theorem value_share {t : IndexedTerm} {p q : Rat} (hterm : t.term.value ρ = some p)
    (hdivisor : DividesBy ρ t.divisor q) : t.share.value ρ = some (p / q) := by
  obtain ⟨term, depth, divisor⟩ := t
  cases divisor with
  | none =>
      obtain rfl : q = 1 := hdivisor
      rw [div_one]
      exact hterm
  | some d =>
      show (Expr.quotient term d).normalize.value ρ = some (p / q)
      rw [value_normalize, value_quotient]
      have hterm : term.value ρ = some p := hterm
      simp [hterm, hdivisor.1, hdivisor.2]

/-! ### The shares sum to the side -/

/-- The shares of some terms, one after the other, sum to this. -/
def total (ρ : Valuation) (ts : List IndexedTerm) : Option Rat := (Expr.sum (ts.map share)).value ρ

theorem total_append (ts us : List IndexedTerm) :
    total ρ (ts ++ us) = (total ρ ts).bind fun p => (total ρ us).map (p + ·) := by
  rw [total, List.map_append]
  have hkind : Op.add.isCommutative = true := rfl
  exact value_append hkind (ts.map share) (us.map share) false

theorem total_singleton {e : Expr} {p : Rat} (h : e.value ρ = some p) {divisor : Option Expr}
    {q : Rat} (hdivisor : DividesBy ρ divisor q) {depth : Nat} :
    total ρ [⟨e, depth, divisor⟩] = some (p / q) := by
  simp [total, value_share (t := ⟨e, depth, divisor⟩) h hdivisor]

/-- What is collected from some trees sums to the sum of the trees, over the divisor. -/
theorem total_collectAll {es : List Expr} {ps : List Rat} {divisor : Option Expr} {depth : Nat}
    {q : Rat} (hall : ∀ e ∈ es, ∀ p, e.value ρ = some p →
      total ρ (collect depth divisor e) = some (p / q))
    (h : values ρ es = some ps) : total ρ (collectAll depth divisor es) = some (ps.sum / q) := by
  induction es generalizing ps with
  | nil =>
      obtain rfl := Option.some.inj h
      simp [collectAll, total]
  | cons e es ih =>
      obtain ⟨p, ps, hp, hps, rfl⟩ := values_cons_eq_some.mp h
      obtain ⟨he, hes⟩ := List.forall_mem_cons.mp hall
      rw [collectAll, total_append, he p hp, ih hes hps, List.sum_cons, add_div]
      rfl

theorem exists_values_of_div {numerator denominator : Expr} {i : Bool} {p : Rat}
    (h : (op .div [numerator, denominator] i).value ρ = some p) :
    ∃ a b, numerator.value ρ = some a ∧ denominator.value ρ = some b ∧ b ≠ 0 ∧ p = a / b := by
  have hquotient : (Expr.quotient numerator denominator).value ρ = some p := h
  rw [value_quotient] at hquotient
  obtain ⟨a, ha, hquotient⟩ := Option.bind_eq_some_iff.mp hquotient
  obtain ⟨b, hb, hquotient⟩ := Option.bind_eq_some_iff.mp hquotient
  split at hquotient
  · cases hquotient
  · next hne => exact ⟨a, b, ha, hb, hne, (Option.some.inj hquotient).symm⟩

/-- **What is collected from a tree sums to the tree over the divisor.** -/
theorem total_collect {e : Expr} {p : Rat} (h : e.value ρ = some p) (depth : Nat)
    {divisor : Option Expr} {q : Rat} (hdivisor : DividesBy ρ divisor q) :
    total ρ (collect depth divisor e) = some (p / q) := by
  induction e using Expr.induction generalizing p depth divisor q with
  | op kind args i ih =>
      unfold collect
      split
      · next heq =>
          cases heq
          obtain ⟨ps, hps, hsum⟩ := Option.bind_eq_some_iff.mp h
          obtain rfl := Option.some.inj hsum
          exact total_collectAll (fun e he p hp => ih e he hp depth hdivisor) hps
      · next numerator denominator _ heq =>
          cases heq
          obtain ⟨a, b, ha, hb, hne, rfl⟩ := exists_values_of_div h
          rw [ih numerator (by simp) ha _ (dividesBy_deeper hdivisor hb hne), div_div, mul_comm]
      · exact total_singleton h hdivisor
  | _ => exact total_singleton h hdivisor

theorem total_ofSide {side : Expr} {v : Rat} (h : side.value ρ = some v) :
    total ρ (ofSide side) = some v := by
  have hnone : DividesBy ρ none 1 := rfl
  have hall := total_collect h 0 hnone
  rwa [div_one] at hall

/-- A sum that has a value is one of terms that have values. -/
theorem exists_shares_of_total {ts : List IndexedTerm} {v : Rat} (h : total ρ ts = some v) :
    ∃ shares, List.Forall₂ (fun t s => t.share.value ρ = some s) ts shares ∧ shares.sum = v := by
  rw [total, value_sum] at h
  obtain ⟨shares, hshares, hsum⟩ := Option.map_eq_some_iff.mp h
  exact ⟨shares, List.forall₂_map_left_iff.mp (values_eq_some.mp hshares), hsum⟩

theorem exists_share_of_mem {ts : List IndexedTerm} {v : Rat} (h : total ρ ts = some v)
    {t : IndexedTerm} (ht : t ∈ ts) : ∃ s, t.share.value ρ = some s := by
  obtain ⟨shares, hshares, -⟩ := exists_shares_of_total h
  clear h
  induction hshares with
  | nil => cases ht
  | cons hs _ ih =>
      rcases List.mem_cons.mp ht with rfl | ht
      · exact ⟨_, hs⟩
      · exact ih ht

/-! ### Taking a term away -/

/-- The share of a term of the other sign has the other sign. -/
theorem value_share_negated (t : IndexedTerm) :
    (share { t with term := t.term.negated.normalize }).value ρ = (t.share.value ρ).map (- ·) := by
  obtain ⟨term, depth, divisor⟩ := t
  cases divisor with
  | none =>
      show term.negated.normalize.value ρ = (term.value ρ).map (- ·)
      rw [value_normalize, value_negated]
  | some d =>
      show (Expr.quotient term.negated.normalize d).normalize.value ρ =
        ((Expr.quotient term d).normalize.value ρ).map (- ·)
      rw [value_normalize, value_normalize, value_quotient, value_quotient, value_normalize,
        value_negated]
      cases term.value ρ <;> cases d.value ρ <;> simp
      split <;> simp [neg_div]

/-- The operation of a term takes its share from the side. -/
theorem value_apply_removal {side : Expr} {v : Rat} (h : side.value ρ = some v) {t : IndexedTerm}
    {s : Rat} (hs : t.share.value ρ = some s) : (t.removal.apply side).value ρ = some (v - s) := by
  unfold removal
  split
  · show (Expr.sum [side, _]).normalize.value ρ = some (v - s)
    rw [value_normalize, value_sum]
    simp [h, value_share_negated, hs, sub_eq_add_neg]
  · show (Expr.sum [side, _]).normalize.value ρ = some (v - s)
    rw [value_normalize, value_sum]
    simp [h, value_negated, hs, sub_eq_add_neg]

end IndexedTerm

namespace Operation

open AlgebraTutor.Expr IndexedTerm

/-- The operation adds or subtracts. -/
def IsAdditive (o : Operation) : Prop := o.sign = '+' ∨ o.sign = '-'

theorem isAdditive_removal (t : IndexedTerm) : t.removal.IsAdditive := by
  unfold removal
  split
  · exact .inl rfl
  · exact .inr rfl

/-- Like operations take a side to the same value. -/
theorem value_apply_of_alike {a b : Operation} (h : a.alike b = true) (side : Expr) :
    (a.apply side).value ρ = (b.apply side).value ρ := by
  obtain ⟨hsign, hoperand⟩ := Bool.and_eq_true_iff.mp h
  have hvalue : a.operand.value ρ = b.operand.value ρ :=
    (Expr.regrouped_of_alike hoperand).value_eq
  unfold apply
  rw [beq_iff_eq.mp hsign, Expr.value_normalize, Expr.value_normalize]
  split <;> simp [hvalue]

theorem alike_refl (o : Operation) : o.alike o = true := by
  rw [alike, beq_self_eq_true, Expr.alike_iff_unordered.mpr rfl]
  rfl

theorem isAdditive_of_alike {a b : Operation} (h : a.alike b = true) :
    a.IsAdditive ↔ b.IsAdditive := by
  rw [IsAdditive, IsAdditive, beq_iff_eq.mp (Bool.and_eq_true_iff.mp h).1]

theorem mem_addNew {found : List Operation} {new o : Operation} (h : o ∈ addNew found new) :
    o ∈ found ∨ o = new := by
  unfold addNew at h
  split at h
  · exact .inl h
  · simpa using h

theorem mem_foldl_addNew {new found : List Operation} {o : Operation}
    (h : o ∈ new.foldl addNew found) : o ∈ found ∨ o ∈ new := by
  rcases Bindings.mem_foldl_of_mem_step (P := fun a o => o = a) (fun _ _ _ => mem_addNew) new found
    h with h | ⟨a, ha, rfl⟩
  · exact .inl h
  · exact .inr ha

theorem mem_addNew_of_mem {found : List Operation} {o : Operation} (h : o ∈ found)
    (new : Operation) : o ∈ addNew found new := by
  unfold addNew
  split
  · exact h
  · exact List.mem_append_left _ h

theorem exists_alike_addNew (found : List Operation) (new : Operation) :
    ∃ o ∈ addNew found new, o.alike new = true := by
  unfold addNew
  split
  · next h => exact List.any_eq_true.mp h
  · exact ⟨new, by simp, alike_refl new⟩

/-- Of the operations that are added, each one or a like one is kept. -/
theorem exists_alike_foldl_addNew {new found : List Operation} {o : Operation} (h : o ∈ new) :
    ∃ kept ∈ new.foldl addNew found, kept.alike o = true := by
  induction new generalizing found with
  | nil => cases h
  | cons first new ih =>
      rcases List.mem_cons.mp h with rfl | h
      · obtain ⟨kept, hkept, halike⟩ := exists_alike_addNew found o
        exact ⟨kept, List.foldlRecOn new _ hkept fun _ h a _ => mem_addNew_of_mem h a, halike⟩
      · exact ih h

/-- What adds or subtracts takes a term away. -/
theorem exists_term_of_mem_removals {side : Expr} {o : Operation} (h : o ∈ removals side)
    (hadditive : o.IsAdditive) : ∃ t ∈ ofSide side, o = t.removal := by
  rcases mem_foldl_addNew h with h | h
  · cases h
  rcases List.mem_append.mp h with h | h
  · unfold termRemovals at h
    dsimp only at h
    split at h
    · obtain ⟨t, ht, rfl⟩ := List.mem_map.mp h
      exact ⟨t, ht, rfl⟩
    · cases h
  · have hsign : o.sign = '/' ∨ o.sign = '*' := by
      unfold factorRemovals at h
      split at h
      · obtain ⟨factor, -, rfl⟩ := List.mem_map.mp h
        exact .inl rfl
      · obtain rfl := List.mem_singleton.mp h
        exact .inr rfl
      · cases h
    rcases hsign with hsign | hsign <;> simp [IsAdditive, hsign] at hadditive

theorem exists_removal_of_mem_ofSide {side : Expr} (hmany : 1 < (ofSide side).length)
    {t : IndexedTerm} (ht : t ∈ ofSide side) :
    ∃ o ∈ removals side, o.alike t.removal = true := by
  refine exists_alike_foldl_addNew (List.mem_append_left _ ?_)
  unfold termRemovals
  dsimp only
  rw [if_pos hmany]
  exact List.mem_map_of_mem ht

/-- **The terms of a side account for the whole of it, and taking one away takes its share away.**
Where the side has a value, the share of every term has one, and these sum to the value of the side.
If there is more than one term, each is taken away by an operation that adds or subtracts: the value
of the side after it is less by the share.  And whatever adds or subtracts takes a term away. -/
theorem removals_take_shares {side : Expr} {v : Rat} (h : side.value ρ = some v) :
    (∃ shares, List.Forall₂ (fun t s => t.share.value ρ = some s) (ofSide side) shares ∧
      shares.sum = v) ∧
    (1 < (ofSide side).length → ∀ t ∈ ofSide side, ∃ o ∈ removals side, o.IsAdditive ∧
      ∃ s, t.share.value ρ = some s ∧ (o.apply side).value ρ = some (v - s)) ∧
    ∀ o ∈ removals side, o.IsAdditive → ∃ t ∈ ofSide side, o = t.removal ∧
      ∃ s, t.share.value ρ = some s ∧ (o.apply side).value ρ = some (v - s) := by
  have htotal := total_ofSide h
  refine ⟨exists_shares_of_total htotal, fun hmany t ht => ?_, fun o ho hadditive => ?_⟩
  · obtain ⟨s, hs⟩ := exists_share_of_mem htotal ht
    obtain ⟨o, ho, halike⟩ := exists_removal_of_mem_ofSide hmany ht
    refine ⟨o, ho, (isAdditive_of_alike halike).mpr (isAdditive_removal t), s, hs, ?_⟩
    rw [value_apply_of_alike halike]
    exact value_apply_removal h hs
  · obtain ⟨t, ht, rfl⟩ := exists_term_of_mem_removals ho hadditive
    obtain ⟨s, hs⟩ := exists_share_of_mem htotal ht
    exact ⟨t, ht, rfl, s, hs, value_apply_removal h hs⟩

/-- Where `x` is 6, the side `(x - 4)/2 + 1` is 2.  Its terms have the shares 3, -2 and 1, and the
second is taken away by an addition, which makes 4 of the side. -/
theorem removals_take_shares_fraction : ∃ side : Expr,
    side = .sum [.quotient (.sum [.symbol "x", .const (-4)]) (.const 2), .const 1] ∧
      side.value (.uniform 6) = some 2 ∧ 1 < (ofSide side).length ∧
      (∃ shares,
        List.Forall₂ (fun t s => t.share.value (.uniform 6) = some s) (ofSide side) shares ∧
        shares.sum = 2) ∧
      ∃ o ∈ removals side, o.IsAdditive ∧ (o.apply side).value (.uniform 6) = some 4 := by
  refine ⟨_, rfl, ?_⟩
  have hvalue : (Expr.sum [.quotient (.sum [.symbol "x", .const (-4)]) (.const 2), .const 1]).value
      (.uniform 6) = some 2 := by
    simp [Valuation.uniform, Valuation.arithmetic]
    norm_num
  have hterms : ofSide (.sum [.quotient (.sum [.symbol "x", .const (-4)]) (.const 2), .const 1]) =
      [⟨.symbol "x", 1, some (.const 2)⟩, ⟨.const (-4), 1, some (.const 2)⟩,
        ⟨.const 1, 0, none⟩] := rfl
  have hmany : 1 < (ofSide
      (.sum [.quotient (.sum [.symbol "x", .const (-4)]) (.const 2), .const 1])).length := by
    rw [hterms]
    decide
  obtain ⟨hshares, hremoved, -⟩ := removals_take_shares hvalue
  obtain ⟨o, ho, hadditive, s, hs, happly⟩ := hremoved hmany ⟨.const (-4), 1, some (.const 2)⟩
    (by rw [hterms]; simp)
  have hshare : (share ⟨.const (-4), 1, some (.const 2)⟩).value (.uniform 6) = some (-2) := by
    rw [share, value_normalize, value_quotient]
    norm_num
  obtain rfl := Option.some.inj (hs.symm.trans hshare)
  refine ⟨hvalue, hmany, hshares, o, ho, hadditive, happly.trans ?_⟩
  norm_num

end Operation

end AlgebraTutor
