/-
Moves keep the solutions of an equation.

A move is a pair of patterns for the sides before it and one for the sides after it.  What is asked
of the four patterns is an identity between numbers: once the wildcards have been given values, the
sides before are equal exactly if the sides after are.  It passes to the equation itself because a
match makes the patterns into regroupings of the sides, and because neither regrouping nor the
normal form changes a value.

Only where all four sides have a value can this be so.  Five of the moves see to that themselves:
where the old sides have values, the new ones do.  Division does not.  A divisor that is a number is
checked, but one that is not may have the value zero, and the quotient has no value then.
-/
import AlgebraTutor.Proofs.MatchedBindings
import AlgebraTutor.Proofs.PatternValue
import AlgebraTutor.Solver

namespace AlgebraTutor

namespace EquationPattern

variable {context : Context} {p : EquationPattern} {b : Bindings} {lhs rhs : Expr}

/-- Under the bindings the two patterns become regroupings of the two trees. -/
structure Fits (p : EquationPattern) (b : Bindings) (lhs rhs : Expr) : Prop where
  left : ∃ t, p.lhs.substitute? b = some t ∧ t.Regrouped lhs
  right : ∃ t, p.rhs.substitute? b = some t ∧ t.Regrouped rhs
  /-- All wildcards of both patterns are bound. -/
  bound : ∀ name ∈ p.lhs.occurrences ++ p.rhs.occurrences, (b.get? name).isSome = true

/-- **Under the bindings of a match the patterns become the sides**, up to regrouping.  The matches
of the two sides are joined, so a name that is in both may be bound to a like tree. -/
theorem fits_of_firstMatch? (h : p.firstMatch? context lhs rhs = .ok (some b)) :
    p.Fits b lhs rhs := by
  obtain ⟨left, hleft, h⟩ := bind_eq_ok.mp h
  split at h
  · cases h
  obtain ⟨right, hright, h⟩ := bind_eq_ok.mp h
  have hfirst : (Bindings.merge left right).head? = some b := Except.ok.inj h
  obtain ⟨l, hl, r, hr, hagree, rfl⟩ := Bindings.mem_merge (List.mem_of_mem_head? hfirst)
  have hl := Pattern.mem_matchExpr_of_mem_matches? hleft hl
  have hr := Pattern.mem_matchExpr_of_mem_matches? hright hr
  obtain ⟨t, ht, hreg⟩ := Pattern.substitute?_of_mem_matchExpr hl
  obtain ⟨u, hu, hreg'⟩ := Pattern.substitute?_of_mem_matchExpr hr
  obtain ⟨t', ht', hsame⟩ := Pattern.substitute?_mono (Bindings.left_within_union hagree) ht
  obtain ⟨u', hu', hsame'⟩ := Pattern.substitute?_mono (Bindings.right_within_union l r) hu
  refine ⟨⟨t', ht', hsame.trans hreg⟩, ⟨u', hu', hsame'.trans hreg'⟩, ?_⟩
  intro name hname
  rw [Bindings.get?_union, Option.isSome_or, Bool.or_eq_true]
  rcases List.mem_append.mp hname with hname | hname
  · exact .inr (((Pattern.binds_of_mem_matchExpr hl).1 name).mpr hname)
  · exact .inl (((Pattern.binds_of_mem_matchExpr hr).1 name).mpr hname)

variable {ρ : Valuation}

/-- The sides have the values of the patterns. -/
theorem Fits.value_eq (h : p.Fits b lhs rhs) :
    lhs.value ρ = p.lhs.value ρ (b.meaning ρ) ∧ rhs.value ρ = p.rhs.value ρ (b.meaning ρ) := by
  obtain ⟨t, ht, hreg⟩ := h.left
  obtain ⟨u, hu, hreg'⟩ := h.right
  exact ⟨hreg.value_eq.symm.trans (Pattern.value_substitute? ht),
    hreg'.value_eq.symm.trans (Pattern.value_substitute? hu)⟩

/-- What the patterns become has their values, also in normal form. -/
theorem value_of_substitute? {lhs rhs : Expr} (h : p.substitute? b = some (lhs, rhs)) :
    lhs.value ρ = p.lhs.value ρ (b.meaning ρ) ∧ rhs.value ρ = p.rhs.value ρ (b.meaning ρ) := by
  obtain ⟨t, ht, h⟩ := Option.bind_eq_some_iff.mp h
  obtain ⟨u, hu, h⟩ := Option.bind_eq_some_iff.mp h
  cases h
  rw [Expr.value_normalize, Expr.value_normalize]
  exact ⟨Pattern.value_substitute? ht, Pattern.value_substitute? hu⟩

end EquationPattern

/-! ### Moves between patterns -/

/-- Whatever the wildcards stand for, the move neither adds nor loses a solution.  The sides after
it have values where those before it have, unless it divides by zero. -/
structure Move.Balances (ρ : Valuation) (move : Move) : Prop where
  solutions : ∀ σ p q p' q', move.before.lhs.value ρ σ = some p →
    move.before.rhs.value ρ σ = some q → move.after.lhs.value ρ σ = some p' →
      move.after.rhs.value ρ σ = some q' → (p = q ↔ p' = q')
  defined : ∀ σ p q, move.before.lhs.value ρ σ = some p → move.before.rhs.value ρ σ = some q →
    (∃ p' q', move.after.lhs.value ρ σ = some p' ∧ move.after.rhs.value ρ σ = some q') ∨
      move.change = .divideBothSides ∧ σ "a1" = some 0

namespace Solver

open Pattern.Wildcard

variable {ρ : Valuation}

/-- What is left of each move after the wildcards have been given values is an equivalence between
two equations of numbers, and that is what the comments show. -/
theorem moves_balance : ∀ move ∈ moves, move.Balances ρ := by
  simp only [moves, List.forall_mem_cons, List.not_mem_nil, false_imp_iff, implies_true, and_true]
  refine ⟨?_, ?_, ?_, ?_, ?_, ?_⟩
  · -- a = f ↔ f = a
    refine ⟨fun σ p q p' q' hp hq hp' hq' => ?_, fun σ p q hp hq => .inl ⟨q, p, hq, hp⟩⟩
    obtain rfl := Option.some.inj (hp.symm.trans hq')
    obtain rfl := Option.some.inj (hq.symm.trans hp')
    exact eq_comm
  · -- f + a = b ↔ f = b - a
    refine ⟨fun σ p q p' q' hp hq hp' hq' => ?_, fun σ p q hp hq => .inl ?_⟩
    · cases hf : fx1.value ρ σ <;> cases ha : a1.value ρ σ <;> cases hb : a2.value ρ σ <;>
        simp [hf, ha, hb] at hp hq hp' hq'
      subst hp hq hp' hq'
      rw [← sub_eq_add_neg]
      exact eq_sub_iff_add_eq.symm
    · cases hf : fx1.value ρ σ <;> cases ha : a1.value ρ σ <;> cases hb : a2.value ρ σ <;>
        simp [hf, ha, hb] at hp hq ⊢
  · -- a * f = b ↔ f = b / a, if a is not zero
    refine ⟨fun σ p q p' q' hp hq hp' hq' => ?_, fun σ p q hp hq => ?_⟩
    · cases hf : fx1.value ρ σ <;> cases ha : a1.value ρ σ <;> cases hb : a2.value ρ σ <;>
        simp [hf, ha, hb] at hp hq hp' hq'
      obtain ⟨hne, rfl⟩ := hq'
      subst hp hq hp'
      rw [eq_div_iff hne, mul_comm]
    · cases hf : fx1.value ρ σ <;> cases ha : a1.value ρ σ <;> cases hb : a2.value ρ σ <;>
        simp [hf, ha, hb] at hp hq ⊢
      exact (ne_or_eq _ 0).imp id fun hzero => ha.trans (congrArg some hzero)
  · -- f / a = b ↔ f = b * a, since a is not zero
    refine ⟨fun σ p q p' q' hp hq hp' hq' => ?_, fun σ p q hp hq => .inl ?_⟩
    · cases hf : fx1.value ρ σ <;> cases ha : a1.value ρ σ <;> cases hb : a2.value ρ σ <;>
        simp [hf, ha, hb] at hp hq hp' hq'
      obtain ⟨hne, rfl⟩ := hp
      subst hq hp' hq'
      exact div_eq_iff hne
    · cases hf : fx1.value ρ σ <;> cases ha : a1.value ρ σ <;> cases hb : a2.value ρ σ <;>
        simp [hf, ha, hb] at hp hq ⊢
  · -- -f = a ↔ f = -a
    refine ⟨fun σ p q p' q' hp hq hp' hq' => ?_, fun σ p q hp hq => .inl ?_⟩
    · cases hf : fx1.value ρ σ <;> cases ha : a1.value ρ σ <;>
        simp [hf, ha] at hp hq hp' hq'
      subst hp hq hp' hq'
      exact neg_eq_iff_eq_neg
    · cases hf : fx1.value ρ σ <;> cases ha : a1.value ρ σ <;> simp [hf, ha] at hp hq ⊢
  · -- f = g ↔ f - g = 0
    refine ⟨fun σ p q p' q' hp hq hp' hq' => ?_, fun σ p q hp hq => .inl ?_⟩
    · cases hf : fx1.value ρ σ <;> cases hg : fx2.value ρ σ <;>
        simp [hf, hg] at hp hq hp' hq'
      subst hp hq hp' hq'
      rw [← sub_eq_add_neg]
      exact sub_eq_zero.symm
    · cases hf : fx1.value ρ σ <;> cases hg : fx2.value ρ σ <;> simp [hf, hg] at hp hq ⊢

/-- Every wildcard after a move is one before it. -/
theorem occurrences_moves : ∀ move ∈ moves,
    ∀ name ∈ move.after.lhs.occurrences ++ move.after.rhs.occurrences,
      name ∈ move.before.lhs.occurrences ++ move.before.rhs.occurrences := by
  decide

/-- **A move keeps the solutions of an equation.**  A move that matches and is not blocked can be
made.  Wherever all four sides have values, the old sides have the same value exactly if the new
ones do.  The new sides have values where the old ones have, unless the move divides by a tree of
the value zero. -/
theorem solutions_of_move {move : Move} (hmove : move ∈ moves) {unknown : String}
    {lhs rhs : Expr} {b : Bindings}
    (hmatch : move.before.firstMatch? (.solvingFor unknown) lhs rhs = .ok (some b))
    (hblocked : isBlocked move.change b = false) :
    ∃ lhs' rhs', move.after.substitute? b = some (lhs', rhs') ∧
      applyMove? (.solvingFor unknown) lhs rhs move = .ok (some (move.change, lhs', rhs')) ∧
      ∀ (ρ : Valuation) p q, lhs.value ρ = some p → rhs.value ρ = some q →
        (∀ p' q', lhs'.value ρ = some p' → rhs'.value ρ = some q' → (p = q ↔ p' = q')) ∧
        ((∃ p' q', lhs'.value ρ = some p' ∧ rhs'.value ρ = some q') ∨
          move.change = .divideBothSides ∧
            ∃ divisor, b.get? "a1" = some divisor ∧ divisor.value ρ = some 0) := by
  have hfits := EquationPattern.fits_of_firstMatch? hmatch
  have hbound : ∀ name ∈ move.after.lhs.occurrences ++ move.after.rhs.occurrences,
      (b.get? name).isSome = true :=
    fun name hname => hfits.bound name (occurrences_moves move hmove name hname)
  obtain ⟨t, ht⟩ := Pattern.exists_substitute? fun name hname =>
    hbound name (List.mem_append_left _ hname)
  obtain ⟨u, hu⟩ := Pattern.exists_substitute? fun name hname =>
    hbound name (List.mem_append_right _ hname)
  have hsides : move.after.substitute? b = some (t.normalize, u.normalize) := by
    unfold EquationPattern.substitute?
    rw [ht, hu]
    rfl
  refine ⟨t.normalize, u.normalize, hsides, ?_, fun ρ p q hp hq => ?_⟩
  · unfold applyMove?
    rw [hmatch]
    show (if isBlocked move.change b then pure none else
      pure ((move.after.substitute? b).map fun sides => (move.change, sides))) = _
    rw [hblocked, hsides]
    rfl
  · have hbalances := moves_balance (ρ := ρ) move hmove
    obtain ⟨hlhs, hrhs⟩ := hfits.value_eq (ρ := ρ)
    obtain ⟨hlhs', hrhs'⟩ := EquationPattern.value_of_substitute? (ρ := ρ) hsides
    rw [hlhs] at hp
    rw [hrhs] at hq
    rw [hlhs', hrhs']
    refine ⟨fun p' q' hp' hq' => hbalances.solutions _ p q p' q' hp hq hp' hq', ?_⟩
    refine (hbalances.defined _ p q hp hq).imp id fun ⟨hchange, hzero⟩ => ⟨hchange, ?_⟩
    exact Option.bind_eq_some_iff.mp hzero

/-- In `y * x = y`, solved for `x`, both sides are divided by `y`.  The new equation has the same
solutions, but no value where `y` is zero. -/
theorem solutions_of_move_divide :
    ∃ move ∈ moves, ∃ b, move.change = .divideBothSides ∧ move.before.firstMatch?
        (.solvingFor "x") (.product [.symbol "y", .symbol "x"]) (.symbol "y") = .ok (some b) ∧
      isBlocked move.change b = false ∧
      move.after.substitute? b = some (.symbol "x", .quotient (.symbol "y") (.symbol "y")) ∧
      (∀ q : Rat, q ≠ 0 → (q * q = q ↔ q = q / q)) ∧ b.get? "a1" = some (.symbol "y") := by
  let move : Move := ⟨.divideBothSides, ⟨a1 * fx1, a2⟩, ⟨fx1, a2 / a1⟩⟩
  let b : Bindings :=
    .ofList [("a1", .symbol "y"), ("a2", .symbol "y"), ("fx1", .symbol "x")]
  have hmove : move ∈ moves := by simp [moves, move]
  have hmatch : move.before.firstMatch? (.solvingFor "x")
      (.product [.symbol "y", .symbol "x"]) (.symbol "y") = .ok (some b) := by cbv
  have hblocked : isBlocked move.change b = false := by decide +kernel
  obtain ⟨lhs', rhs', hsides, -, hsolutions⟩ := solutions_of_move hmove hmatch hblocked
  have hshown : move.after.substitute? b =
      some (.symbol "x", .quotient (.symbol "y") (.symbol "y")) := by cbv
  obtain ⟨rfl, rfl⟩ := Prod.mk.inj (Option.some.inj (hsides.symm.trans hshown))
  refine ⟨move, hmove, b, rfl, hmatch, hblocked, hshown, fun q hq => ?_, by cbv⟩
  have hlhs : (Expr.product [.symbol "y", .symbol "x"]).value (.uniform q) = some (q * q) := by
    simp [Valuation.uniform, Valuation.arithmetic]
  have hrhs' : (Expr.quotient (.symbol "y") (.symbol "y")).value (.uniform q) = some (q / q) := by
    simp [Valuation.uniform, Valuation.arithmetic, hq]
  exact (hsolutions (.uniform q) _ q hlhs rfl).1 q _ rfl hrhs'

end Solver

end AlgebraTutor
