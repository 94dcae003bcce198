/-
The standard rules and trees without function calls.

The algebraic rules put together what they found, constants and operators, so they make a
well-formed tree without calls from one.  The other rules all look for a call, and so they find
nothing in such a tree.  Whatever the standard rules do to a tree without calls is therefore done by
the algebraic ones.
-/
import AlgebraTutor.Proofs.CallFree
import AlgebraTutor.Proofs.HereditaryRules

namespace AlgebraTutor

open AlgebraTutor.Expr Pattern

/-- A rule that looks for a call does not apply where there is none. -/
theorem Rule.not_firstApplication?_of_hasCall {context : Context} {rule : Rule} {e : Expr}
    (hlhs : rule.lhs.hasCall = true)
    (he : e.hasCall = false) {withMistakes : Bool} {A : Application} :
    rule.firstApplication? context withMistakes e ≠ .ok (some A) := by
  intro hA
  obtain ⟨ms, found, hms, hfound, -⟩ := exists_match_of_firstApplication? hA
  obtain ⟨matched, hfits⟩ := fits_of_mem_findMatches hms hfound
  have hmatched : matched.hasCall = true := hasCall_substitute? hlhs hfits.substitute
  have hsame := hfits.regrouped.hasCall_eq
  rw [he] at hsame
  rcases hfits.place with hplace | ⟨kind, before, after, i, hplace⟩
  · rw [hplace, hmatched] at hsame
    cases hsame
  · rw [hplace, hasCall_op, List.any_append, List.any_cons, hmatched] at hsame
    simp at hsame

namespace RuleSet

/-- The algebraic rules preserve also what trees with calls do not have. -/
theorem algebraic_preserves {P : Expr → Prop} (hP : Hereditary P) {group : Group RuleSpec}
    (hgroup : group ∈ standardGroups) (hname : group.name ∈ algebraicGroups) :
    ∀ spec ∈ group.rules, spec.Preserves P :=
  forall_algebraic (Decimals.preserves hP) (Identity.preserves hP) (Cancelling.preserves hP)
    (Collecting.preserves hP) (Distribution.preserves hP) (Distribution.expansions_preserve hP)
    (Arithmetic.preserves hP) hgroup hname

/-- The rules of the other groups look for a call. -/
theorem hasCall_of_not_algebraic : ∀ group ∈ standardGroups, group.name ∉ algebraicGroups →
    ∀ spec ∈ group.rules, spec.lhs.hasCall = true := by
  decide

/-- No standard rule speaks of an unknown. -/
theorem needsUnknown_standardGroups : ∀ group ∈ standardGroups, ∀ spec ∈ group.rules,
    spec.lhs.needsUnknown = false := by
  decide

section Standard

variable {group : Group Rule} (hgroup : group ∈ standard.groups) {rule : Rule}
  (hrule : rule ∈ group.rules)

include hgroup hrule

/-- A standard rule that applies to a tree without calls is an algebraic one. -/
theorem exists_algebraic_of_firstApplication? {context : Context} {withMistakes : Bool} {e : Expr}
    (he : e.hasCall = false) {A : Application}
    (hA : rule.firstApplication? context withMistakes e = .ok (some A)) :
    ∃ plain ∈ standardGroups, plain.name ∈ algebraicGroups ∧ rule.toRuleSpec ∈ plain.rules := by
  obtain ⟨plain, hplain, -, hrules⟩ := exists_group_of_mem_identifyGroups hgroup
  have hmem := hrules rule hrule
  by_cases halgebraic : plain.name ∈ algebraicGroups
  · exact ⟨plain, hplain, halgebraic, hmem⟩
  · have hcall := hasCall_of_not_algebraic plain hplain halgebraic _ hmem
    exact absurd hA (Rule.not_firstApplication?_of_hasCall hcall he)

/-- **A standard rule that applies to a tree without calls makes a tree without calls of it.** -/
theorem isArithmetic_of_standard {context : Context} {withMistakes : Bool} {e : Expr}
    (he : e.IsArithmetic) {A : Application}
    (hA : rule.firstApplication? context withMistakes e = .ok (some A)) :
    A.after.IsArithmetic := by
  obtain ⟨plain, hplain, hname, hmem⟩ :=
    exists_algebraic_of_firstApplication? hgroup hrule he.noCall hA
  have hpreserves := algebraic_preserves hereditary_isArithmetic hplain hname _ hmem
  exact (Rule.has_of_firstApplication? hereditary_isArithmetic hpreserves he hA).after

/-- **It keeps the value, too**, and for that the tree need not be well-formed. -/
theorem keeps_of_standard {ρ : Valuation} (hρ : ρ.HasIntegerPowers) {context : Context}
    {withMistakes : Bool} {e : Expr} (he : e.hasCall = false) {A : Application}
    (hA : rule.firstApplication? context withMistakes e = .ok (some A)) : Keeps ρ e A.after := by
  obtain ⟨plain, hplain, hname, hmem⟩ := exists_algebraic_of_firstApplication? hgroup hrule he hA
  exact Rule.keeps_of_firstApplication? (algebraic_keeps hρ hplain hname _ hmem) hA

theorem needsUnknown_standard : rule.lhs.needsUnknown = false := by
  obtain ⟨plain, hplain, -, hrules⟩ := exists_group_of_mem_identifyGroups hgroup
  exact needsUnknown_standardGroups plain hplain _ (hrules rule hrule)

end Standard

end RuleSet

end AlgebraTutor
