/-
What comes out of the program is well-formed.

Trees come from texts, and whatever is read is well-formed.  The explorer, the simplifier and the
operations on the sides of an equation only make trees out of trees, by rules that preserve being
well-formed.  So every text that they show is the text of a well-formed tree: it can be read again,
and it reads the same without its blanks.
-/
import AlgebraTutor.Operation
import AlgebraTutor.Proofs.HereditaryRules
import AlgebraTutor.Proofs.NextSteps
import AlgebraTutor.Proofs.PrintedTexts
import AlgebraTutor.Proofs.TermShares

namespace AlgebraTutor

namespace Expr

/-- The text shows a well-formed tree. -/
def Shows (text : String) : Prop := ∃ e : Expr, e.IsPlain ∧ e.text = text

theorem IsPlain.shows {e : Expr} (he : e.IsPlain) : Shows e.text := ⟨e, he, rfl⟩

theorem isPlain_of_parseNormal {text : String} {e : Expr} (h : parseNormal text = .ok e) :
    e.IsPlain := by
  obtain ⟨x, hparse, rfl⟩ := exists_parse_of_parseNormal h
  exact isPlain_normalize (isPlain_of_parse hparse)

/-- What shows a tree can be read. -/
theorem Shows.exists_parse {text : String} (h : Shows text) : ∃ x, parse text = .ok x := by
  obtain ⟨e, he, rfl⟩ := h
  obtain ⟨x, hx, -⟩ := exists_parseNormal_text he.wellFormed
  obtain ⟨y, hy, -⟩ := exists_parse_of_parseNormal hx
  exact ⟨y, hy⟩

theorem isPlain_reread {e : Expr} (he : e.IsPlain) : e.reread.IsPlain := by
  unfold reread
  split
  · next hread => exact isPlain_of_parseNormal hread
  · exact he

/-- Arguments in the order for presentation are well-formed, too. -/
theorem isPlain_rearranged {e : Expr} (he : e.IsPlain) : e.rearranged.IsPlain :=
  (arranges_rearranged.reordered e).symm.isPlain he

end Expr

open AlgebraTutor.Expr

/-! ### Exploration -/

namespace Explorer

variable {context : Context} {root : Expr}

theorem isPlain_orderings {node ordered : Expr} (hnode : node.IsPlain)
    (h : ordered ∈ orderings node) : ordered.IsPlain := by
  unfold orderings at h
  split at h
  · split at h
    · rcases List.mem_pair.mp h with rfl | rfl
      · exact hnode
      · obtain ⟨hlength, hargs⟩ := isPlain_op.mp hnode
        refine isPlain_op.mpr ⟨hlength, fun arg harg => hargs arg ?_⟩
        exact (List.Perm.swap _ _ _).mem_iff.mp harg
    · exact List.mem_singleton.mp h ▸ hnode
  · exact List.mem_singleton.mp h ▸ hnode

/-- The candidates are well-formed, and so is what their mistakes come to. -/
theorem isPlain_of_mem_candidates (hroot : root.IsPlain) {c : Candidate}
    (h : c ∈ candidates context .standard root) :
    c.after.IsPlain ∧ ∀ mistake ∈ c.mistakes, mistake.2.IsPlain := by
  obtain ⟨rule, hrule, h⟩ := List.mem_flatMap.mp h
  obtain ⟨⟨path, node⟩, hnode, h⟩ := List.mem_flatMap.mp h
  obtain ⟨ordered, hordered, h⟩ := List.mem_flatMap.mp h
  obtain ⟨A, hA, rfl⟩ := List.mem_map.mp (List.mem_filter.mp h).1
  have hplain := hereditary_isPlain.get? hroot (mem_postOrder_iff.mp hnode)
  have hhas : A.Has IsPlain := by
    unfold Rule.found at hA
    cases hfound : rule.applications context true ordered with
    | error error =>
        rw [hfound] at hA
        cases hA
    | ok found =>
        rw [hfound] at hA
        have hrule := RuleSet.preserves_of_mem_standard hereditary_isPlain allows_isPlain hrule
        exact Rule.has_of_mem_applications hereditary_isPlain hrule
          (isPlain_orderings hplain hordered) hfound hA
  refine ⟨hereditary_isPlain.splice hroot hhas.after path, List.forall_mem_map.mpr ?_⟩
  intro mistake hmistake
  exact hereditary_isPlain.splice hroot (hhas.mistake mistake hmistake) path

/-- **A step from a well-formed tree leads to one**, and so do its mistakes. -/
theorem shows_of_mem_nextSteps (hroot : root.IsPlain) {steps : List Step}
    (h : nextSteps context .standard root = .ok steps) {step : Step} (hstep : step ∈ steps) :
    Shows step.after ∧ ∀ mistake ∈ step.mistakes, Shows mistake.after := by
  obtain ⟨key, hfor⟩ := exists_isStepFor h hstep
  obtain ⟨c, hfind, -, -, hafter⟩ := hfor.first
  obtain ⟨hplain, -⟩ := isPlain_of_mem_candidates hroot (List.mem_of_find?_eq_some hfind)
  refine ⟨hafter ▸ hplain.shows, fun mistake hmistake => ?_⟩
  obtain ⟨d, hd, -, wrong, hwrong, -, -, htext⟩ := hfor.genuine mistake hmistake
  obtain ⟨-, hmistakes⟩ := isPlain_of_mem_candidates hroot hd
  exact htext ▸ (hmistakes _ hwrong).shows

end Explorer

/-! ### Simplification -/

namespace Simplifier

variable {s : Simplifier} (hs : s.rules = .standard) {root : Expr} (hroot : root.IsPlain)

include hs hroot

theorem isPlain_of_reduceOnce? {active : Path} {reduction : Reduction}
    (h : s.reduceOnce? root active = .ok (some reduction)) : reduction.after.IsPlain := by
  obtain ⟨group, hgroup, hrule, node, application, happlies⟩ := exists_applies_of_reduceOnce? h
  have hnode := hereditary_isPlain.get? hroot happlies.isAt
  have hpreserves := RuleSet.preserves_of_mem_standard hereditary_isPlain allows_isPlain
    (List.mem_flatMap.mpr ⟨group, hs ▸ hgroup, hrule⟩)
  have happlication :=
    Rule.has_of_firstApplication? hereditary_isPlain hpreserves hnode happlies.isFirst
  rw [happlies.after]
  exact hereditary_isPlain.splice hroot happlication.after _

omit hroot in
/-- Every tree that the loop comes to from a well-formed one is well-formed. -/
theorem isPlain_of_reaches {start : Expr} (hstart : start.IsPlain) {n : Nat} {active : Path}
    (h : s.Reaches start n root active) : root.IsPlain := by
  induction h with
  | start => exact hstart
  | reduce _ hnext ih =>
      rcases nextReduction_cases hnext with ⟨_, place, hsome, hreduction⟩ | ⟨-, -, hreduction⟩
      · cases hsome
        exact isPlain_of_reduceOnce? hs ih hreduction
      · exact isPlain_of_reduceOnce? hs (isPlain_reread ih) hreduction

/-- **A well-formed tree simplifies to one.** -/
theorem isPlain_of_run {final : Expr} {steps : List Step} (h : s.run root = .ok (final, steps)) :
    final.IsPlain := by
  have hnormal := isPlain_normalize hroot
  cases hsupported : root.normalize.isSupported with
  | false =>
      rw [run_of_unsupported hsupported] at h
      cases h
      exact hnormal
  | true =>
      obtain ⟨last, steps', hloop, rfl, -⟩ := exists_reduceUpTo_of_run hsupported h
      refine isPlain_rearranged ?_
      rcases reduceUpTo_cases .start hloop with ⟨active, hreached⟩ | ⟨m, t, -, hdead⟩
      · exact isPlain_of_reaches hs hnormal hreached
      · cases hdead with
        | ends hreached _ _ => exact isPlain_reread (isPlain_of_reaches hs hnormal hreached)
        | resumes hreached _ hsome =>
            have hreread := isPlain_reread (isPlain_of_reaches hs hnormal hreached)
            exact isPlain_of_reduceOnce? hs hreread hsome

end Simplifier

/-! ### Operations on a side -/

section Sides

variable {side : Expr} (hside : side.IsPlain)

include hside

theorem Expr.isPlain_of_mem_terms : ∀ term ∈ side.terms, term.IsPlain := by
  unfold terms
  split
  · exact (isPlain_op.mp hside).2
  · exact List.forall_mem_singleton.mpr hside

theorem Expr.isPlain_numerator : side.numerator.IsPlain := by
  fun_induction numerator side with
  | case1 first rest i ih => exact ih ((isPlain_op.mp hside).2 first (List.mem_cons_self ..))
  | case2 e _ => exact hside

theorem Expr.isPlain_of_mem_numerators : ∀ e ∈ side.numerators, e.IsPlain :=
  List.forall_mem_map.mpr fun term hterm =>
    isPlain_numerator (isPlain_of_mem_terms hside term hterm)

theorem Operation.isPlain_apply {operation : Operation} (h : operation.operand.IsPlain) :
    (operation.apply side).IsPlain := by
  refine isPlain_normalize ?_
  split
  · exact hereditary_isPlain.sum hside h
  · exact hereditary_isPlain.sum hside (hereditary_isPlain.negated h)
  · exact hereditary_isPlain.product hside h
  · exact hereditary_isPlain.quotient hside h

end Sides

namespace IndexedTerm

/-- The term is well-formed, and so is what it is divided by. -/
def IsPlain (t : IndexedTerm) : Prop := t.term.IsPlain ∧ ∀ e, t.divisor = some e → e.IsPlain

theorem isPlain_combined {outer inner : Expr} (houter : outer.IsPlain) (hinner : inner.IsPlain) :
    (combined outer inner).IsPlain := by
  unfold combined
  split
  · exact isPlain_const _
  · exact isPlain_normalize (hereditary_isPlain.product hinner houter)

theorem isPlain_deeper {divisor : Option Expr} (hdivisor : ∀ e, divisor = some e → e.IsPlain)
    {denominator : Expr} (h : denominator.IsPlain) : (deeper divisor denominator).IsPlain := by
  unfold deeper
  split
  · next outer => exact isPlain_combined (hdivisor outer rfl) h
  · exact h

mutual

theorem isPlain_of_mem_collect {depth : Nat} {divisor : Option Expr}
    (hdivisor : ∀ e, divisor = some e → e.IsPlain) : ∀ {side : Expr}, side.IsPlain →
      ∀ t ∈ collect depth divisor side, t.IsPlain
  | const _, hside => List.forall_mem_singleton.mpr ⟨hside, hdivisor⟩
  | symbol _, hside => List.forall_mem_singleton.mpr ⟨hside, hdivisor⟩
  | member _ _, hside => List.forall_mem_singleton.mpr ⟨hside, hdivisor⟩
  | call _ _, hside => List.forall_mem_singleton.mpr ⟨hside, hdivisor⟩
  | op kind args i, hside => by
      obtain ⟨-, hargs⟩ := isPlain_op.mp hside
      unfold collect
      split
      · next heq =>
          cases heq
          exact isPlain_of_mem_collectAll hdivisor hargs
      · next numerator denominator _ heq =>
          cases heq
          have hdenominator := isPlain_deeper hdivisor (hargs denominator (by simp))
          exact isPlain_of_mem_collect (by rintro _ ⟨⟩; exact hdenominator)
            (hargs numerator (by simp))
      · exact List.forall_mem_singleton.mpr ⟨hside, hdivisor⟩

theorem isPlain_of_mem_collectAll {depth : Nat} {divisor : Option Expr}
    (hdivisor : ∀ e, divisor = some e → e.IsPlain) : ∀ {es : List Expr},
      (∀ e ∈ es, e.IsPlain) → ∀ t ∈ collectAll depth divisor es, t.IsPlain
  | [], _ => fun _ h => nomatch h
  | e :: es, hes => by
      obtain ⟨he, hes⟩ := List.forall_mem_cons.mp hes
      exact List.forall_mem_append.mpr
        ⟨isPlain_of_mem_collect hdivisor he, isPlain_of_mem_collectAll hdivisor hes⟩

end

theorem isPlain_of_mem_ofSide {side : Expr} (hside : side.IsPlain) :
    ∀ t ∈ ofSide side, t.IsPlain :=
  isPlain_of_mem_collect (fun _ h => by cases h) hside

theorem IsPlain.share {t : IndexedTerm} (h : t.IsPlain) : t.share.IsPlain := by
  unfold IndexedTerm.share
  split
  · next divisor hdivisor =>
      exact isPlain_normalize (hereditary_isPlain.quotient h.1 (h.2 divisor hdivisor))
  · exact h.1

theorem IsPlain.removal {t : IndexedTerm} (h : t.IsPlain) : t.removal.operand.IsPlain := by
  unfold IndexedTerm.removal
  split
  · exact IsPlain.share ⟨isPlain_normalize (hereditary_isPlain.negated h.1), h.2⟩
  · exact h.share

end IndexedTerm

namespace Operation

/-- What is taken away from a side is well-formed. -/
theorem isPlain_of_mem_removals {side : Expr} (hside : side.IsPlain) :
    ∀ operation ∈ removals side, operation.operand.IsPlain := by
  have hterms : ∀ operation ∈ termRemovals side, operation.operand.IsPlain := by
    unfold termRemovals
    dsimp only
    split
    · exact List.forall_mem_map.mpr fun t ht =>
        (IndexedTerm.isPlain_of_mem_ofSide hside t ht).removal
    · exact fun _ h => nomatch h
  have hfactors : ∀ operation ∈ factorRemovals side, operation.operand.IsPlain := by
    unfold factorRemovals
    split
    · exact List.forall_mem_map.mpr (isPlain_op.mp hside).2
    · exact List.forall_mem_singleton.mpr ((isPlain_op.mp hside).2 _ (by simp))
    · exact fun _ h => nomatch h
  intro operation h
  rcases mem_foldl_addNew h with h | h
  · cases h
  · exact (List.mem_append.mp h).elim (hterms operation) (hfactors operation)

theorem isPlain_of_mem_withOperands {operands : List Expr} (h : ∀ e ∈ operands, e.IsPlain) :
    ∀ operation ∈ withOperands operands, operation.operand.IsPlain := by
  intro operation hmem
  rcases mem_foldl_addNew hmem with hmem | hmem
  · cases hmem
  · obtain ⟨operand, hoperand, hmem⟩ := List.mem_flatMap.mp hmem
    obtain ⟨sign, -, rfl⟩ := List.mem_map.mp hmem
    exact h operand hoperand

end Operation

end AlgebraTutor
