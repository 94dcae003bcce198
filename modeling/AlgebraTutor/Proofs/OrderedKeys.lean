/-
Trees that are alike have one key in either order.

For the canonical order this rests on the key alone.  The order for presentation also looks at the
degree of an argument and at whether it is a constant, and neither can be read off the key: the
constant `2/3` and the quotient of `2` and `3` have one key, and only the one goes first in a
product.  But neither depends on the order of arguments, so like arguments have the same standing,
and where two arguments have the same standing they also have the same key.
-/
import AlgebraTutor.Proofs.CanonicalKeys

namespace AlgebraTutor

namespace Expr

/-! ### The degree of a reordered tree -/

theorem degrees_eq_map (es : List Expr) : degrees es = es.map degree := by
  induction es with
  | nil => rfl
  | cons e es ih => rw [degrees, List.map_cons, ih]

theorem sumOf_perm {ps qs : List Rat} (h : ps.Perm qs) : sumOf ps = sumOf qs :=
  h.foldl_eq 0

theorem coe_foldl_larger (q : Rat) (qs : List Rat) :
    ((qs.foldl (fun a b => if a < b then b else a) q : Rat) : WithBot Rat) =
      max (q : WithBot Rat) qs.maximum := by
  induction qs generalizing q with
  | nil => simp
  | cons r qs ih =>
      rw [List.foldl_cons, ih, ← max_def_lt, List.maximum_cons, WithBot.coe_max, max_assoc]

theorem largest_eq (qs : List Rat) : largest qs = qs.maximum.unbotD 0 := by
  cases qs with
  | nil => rfl
  | cons q qs =>
      rw [List.maximum_cons, ← coe_foldl_larger, WithBot.unbotD_coe]
      rfl

theorem largest_perm {ps qs : List Rat} (h : ps.Perm qs) : largest ps = largest qs := by
  rw [largest_eq, largest_eq, h.maximum_eq]

theorem degree_power (a b : Expr) (rest : List Expr) (i : Bool) :
    (op .pow (a :: b :: rest) i).degree = b.constant?.elim 0 (a.degree * ·) := by
  cases b <;> rfl

/-- The degree of an operator depends on the degrees of its arguments, and on which constants they
are. -/
theorem degree_op_congr {kind : Op} {args args' : List Expr} (i j : Bool)
    (h : args.map (fun e => (e.degree, e.constant?)) =
      args'.map fun e => (e.degree, e.constant?)) :
    (op kind args i).degree = (op kind args' j).degree := by
  have hdegrees : args.map degree = args'.map degree := by
    have hfirst := congrArg (List.map Prod.fst) h
    rwa [List.map_map, List.map_map] at hfirst
  cases kind with
  | add => rw [degree, degree, degrees_eq_map, degrees_eq_map, hdegrees]
  | mul => rw [degree, degree, degrees_eq_map, degrees_eq_map, hdegrees]
  | div =>
      match args, args', hdegrees with
      | [], [], _ => rfl
      | a :: _, b :: _, h => exact List.head_eq_of_cons_eq h
  | neg =>
      match args, args', hdegrees with
      | [], [], _ => rfl
      | a :: _, b :: _, h => exact List.head_eq_of_cons_eq h
  | pow =>
      match args, args', h with
      | [], [], _ => rfl
      | [_], [_], _ => rfl
      | [_], _ :: _ :: _, h => simp at h
      | _ :: _ :: _, [_], h => simp at h
      | a :: b :: _, a' :: b' :: _, h =>
          simp only [List.map_cons, List.cons.injEq, Prod.mk.injEq] at h
          obtain ⟨⟨hbase, -⟩, ⟨-, hexponent⟩, -⟩ := h
          rw [degree_power, degree_power, hbase, hexponent]

/-- **Reordering does not change the degree.** -/
theorem Reordered.degree_eq {a b : Expr} (h : Reordered a b) : a.degree = b.degree := by
  induction h with
  | refl _ => rfl
  | trans _ _ ih₁ ih₂ => exact ih₁.trans ih₂
  | implicit kind args i j => exact degree_op_congr i j rfl
  | @perm kind hkind args args' h i =>
      have hdegrees := h.map degree
      cases kind with
      | add => rw [degree, degree, degrees_eq_map, degrees_eq_map, largest_perm hdegrees]
      | mul => rw [degree, degree, degrees_eq_map, degrees_eq_map, sumOf_perm hdegrees]
      | _ => cases hkind
  | opArg kind before after i h ih =>
      refine degree_op_congr i i ?_
      simp only [List.map_append, List.map_cons, ih, h.regrouped.constant?_eq]
  | callArg name before after h _ => rfl

/-! ### Keys of presented trees -/

theorem Reordered.isConstant_eq {a b : Expr} (h : Reordered a b) : a.isConstant = b.isConstant := by
  rw [isConstant, isConstant, h.regrouped.constant?_eq]

theorem keepsPlaces_presentedArgs {kind : Op} (hkind : kind.isCommutative = true) :
    KeepsPlaces (presentedArgs kind) := by
  cases kind with
  | add =>
      refine sortsBy_presentedTerms.keepsPlaces (fun e g h hkey => ?_) fun e g h => ?_
      · simp only [Standing.termRank, standing, h.degree_eq, h.isConstant_eq, hkey]
      · exact congrArg (fun rank => (ofLex (ofLex rank).2).2) h
  | mul =>
      refine sortsBy_presentedFactors.keepsPlaces (fun e g h hkey => ?_) fun e g h => ?_
      · simp only [Standing.factorRank, standing, h.degree_eq, h.isConstant_eq, hkey]
      · exact congrArg (fun rank => (ofLex (ofLex rank).2).2) h
  | _ => cases hkind

/-- **The presented orders of trees that are alike have one key.** -/
theorem key_rearranged_of_alike {a b : Expr} (ha : Regular a) (hb : Regular b)
    (h : alike a b = true) : a.rearranged.key = b.rearranged.key :=
  arranges_rearranged.key_eq (fun _ => keepsPlaces_presentedArgs) ha hb (alike_iff_reordered.mp h)

theorem regular_of_normal {e : Expr} (hnormal : e.normalize = e) (hwell : e.isWellFormed = true) :
    Regular e :=
  hnormal ▸ regular_normalize hwell

/-- **Both orders are canonical.**  The tree in order is alike to the tree, and putting it in order
once more changes nothing.  Well-formed trees in normal form that are alike have one key when they
are in order, though the trees in order need not be the same. -/
theorem orders_areCanonical :
    (∀ e : Expr, alike e.rearranged e = true ∧ alike e.canonical e = true ∧
      e.rearranged.rearranged = e.rearranged ∧ e.canonical.canonical = e.canonical) ∧
    ∀ a b : Expr, a.normalize = a → b.normalize = b → a.isWellFormed = true →
      b.isWellFormed = true → alike a b = true →
        a.canonical.key = b.canonical.key ∧ a.rearranged.key = b.rearranged.key := by
  refine ⟨fun e => ⟨?_, ?_, rearranged_rearranged e, canonical_canonical e⟩, ?_⟩
  · exact alike_iff_reordered.mpr (arranges_rearranged.reordered e)
  · exact alike_iff_reordered.mpr (arranges_canonical.reordered e)
  · intro a b hnormalA hnormalB hwellA hwellB halike
    have ha := regular_of_normal hnormalA hwellA
    have hb := regular_of_normal hnormalB hwellB
    exact ⟨key_canonical_of_alike ha hb halike, key_rearranged_of_alike ha hb halike⟩

/-- The product of `x` and twice the fraction `2/3`: first as a constant, then as a quotient. -/
def constantBeforeQuotient : Expr :=
  product [symbol "x", const (2 / 3), quotient (const 2) (const 3)]

/-- The same product with the quotient first. -/
def quotientBeforeConstant : Expr :=
  product [quotient (const 2) (const 3), symbol "x", const (2 / 3)]

/-- The canonical order leaves the two fractions as they come, so it does not give the two products
the same arguments one by one, but it gives them one key. -/
theorem orders_areCanonical_fractions :
    (constantBeforeQuotient.normalize = constantBeforeQuotient ∧
      quotientBeforeConstant.normalize = quotientBeforeConstant) ∧
    (constantBeforeQuotient.isWellFormed = true ∧ quotientBeforeConstant.isWellFormed = true) ∧
    alike constantBeforeQuotient quotientBeforeConstant = true ∧
    constantBeforeQuotient.canonical.args.map isConstant = [true, false, false] ∧
    quotientBeforeConstant.canonical.args.map isConstant = [false, true, false] ∧
    constantBeforeQuotient.canonical.key = quotientBeforeConstant.canonical.key ∧
    constantBeforeQuotient.rearranged.key = quotientBeforeConstant.rearranged.key := by
  have hnormal : constantBeforeQuotient.normalize = constantBeforeQuotient ∧
      quotientBeforeConstant.normalize = quotientBeforeConstant := ⟨rfl, rfl⟩
  have hwell : constantBeforeQuotient.isWellFormed = true ∧
      quotientBeforeConstant.isWellFormed = true := by decide
  have halike : alike constantBeforeQuotient quotientBeforeConstant = true := by decide +kernel
  refine ⟨hnormal, hwell, halike, by cbv, by cbv, ?_⟩
  exact orders_areCanonical.2 _ _ hnormal.1 hnormal.2 hwell.1 hwell.2 halike

end Expr

end AlgebraTutor
