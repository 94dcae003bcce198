/-
The simplifier takes only steps that the explorer lists.

Both go over the nodes of a tree and the rules of a set, but the simplifier looks below one node,
group by group, and stops at the first match, while the explorer tries every rule everywhere under
all matches and keeps one result for each key.  So what has to be shown is that the first match is
never the one that is dropped, neither at its node, where applications with the key of an earlier
one are dropped, nor among the candidates, where the first of a key stands for all.

There is one way in which the two differ.  A rule that speaks of the unknown fails where no unknown
is chosen.  The explorer tries every rule and lists nothing then; the simplifier may have found a
reduction before it comes to that rule.
-/
import AlgebraTutor.Proofs.CallFreeRules
import AlgebraTutor.Proofs.NextSteps

namespace AlgebraTutor

namespace Rule

variable {context : Context} {rule : Rule} {e : Expr}

theorem exists_ok_of_applications_iff (withMistakes : Bool) :
    (∃ found, rule.applications context withMistakes e = .ok found) ↔ rule.CanBeTried context := by
  rw [← exists_ok_of_findMatches_iff (e := e)]
  unfold applications
  cases rule.findMatches context e with
  | error error => exact iff_of_false nofun nofun
  | ok ms => exact iff_of_true ⟨_, rfl⟩ ⟨ms, rfl⟩

/-! ### The first application -/

theorem mem_foldl_addApplication_of_mem {more found : List Application} {A : Application}
    (h : A ∈ found) : A ∈ more.foldl addApplication found := by
  induction more generalizing found with
  | nil => exact h
  | cons new more ih =>
      refine ih ?_
      unfold addApplication
      split
      · exact h
      · exact List.mem_append_left _ h

/-- The first application is among the applications, since only those after it can be dropped. -/
theorem exists_mem_found_of_firstApplication? {withMistakes : Bool} {A : Application}
    (h : rule.firstApplication? context withMistakes e = .ok (some A)) :
    ∃ B ∈ rule.found context e, B.after = A.after := by
  have hsame := map_after_firstApplication? context rule e true withMistakes
  rw [h] at hsame
  unfold firstApplication? at hsame
  unfold found applications
  cases hms : rule.findMatches context e with
  | error error =>
      rw [hms] at hsame
      cases hsame
  | ok ms =>
      rw [hms] at hsame
      obtain ⟨B, hB, hafter⟩ := Option.map_eq_some_iff.mp (Except.ok.inj hsame)
      rw [← List.head?_filterMap] at hB
      obtain ⟨rest, hfound⟩ := List.head?_eq_some_iff.mp hB
      refine ⟨B, ?_, hafter⟩
      show B ∈ (ms.filterMap (rule.build? true e)).foldl addApplication []
      rw [hfound]
      show B ∈ rest.foldl addApplication [B]
      exact mem_foldl_addApplication_of_mem (List.mem_singleton_self B)

end Rule

namespace Explorer

/-! ### What is listed -/

variable {context : Context} {rules : RuleSet} {root : Expr}

theorem mem_orderings_self (node : Expr) : node ∈ orderings node := by
  unfold orderings
  split
  · split
    · exact List.mem_cons_self ..
    · exact List.mem_singleton_self _
  · exact List.mem_singleton_self _

/-- Steps are listed exactly if every rule of the set can be tried. -/
theorem exists_ok_of_nextSteps_iff (hsupported : root.isSupported = true) :
    (∃ steps, nextSteps context rules root = .ok steps) ↔
      ∀ rule ∈ rules.rules, rule.CanBeTried context := by
  constructor
  · rintro ⟨steps, hsteps⟩ rule hrule
    have h := allMatch_of_nextSteps hsupported hsteps
    have hroot : ([], root) ∈ places root := List.mem_flatMap.mpr
      ⟨([], root), Expr.mem_postOrder_iff.mpr rfl,
        List.mem_map_of_mem (mem_orderings_self root)⟩
    exact (Rule.exists_ok_of_applications_iff true).mp (h rule hrule _ hroot)
  · intro h
    have hmatch : AllMatch context rules root := fun rule hrule place _ =>
      (Rule.exists_ok_of_applications_iff true).mpr (h rule hrule)
    exact ⟨_, nextSteps_eq hsupported hmatch⟩

/-- With the standard rules steps can always be listed. -/
theorem exists_ok_of_nextSteps_standard (context : Context) (root : Expr) :
    ∃ steps, nextSteps context .standard root = .ok steps := by
  cases hsupported : root.isSupported with
  | false => exact ⟨[], nextSteps_of_unsupported hsupported⟩
  | true =>
      refine (exists_ok_of_nextSteps_iff hsupported).mpr fun rule hrule hunknown => ?_
      obtain ⟨group, hgroup, hrule⟩ := List.mem_flatMap.mp hrule
      rw [RuleSet.needsUnknown_standard hgroup hrule] at hunknown
      cases hunknown

/-- Every candidate has a step: the one for its key. -/
theorem exists_step_of_mem_candidates (hsupported : root.isSupported = true) {steps : List Step}
    (h : nextSteps context rules root = .ok steps) {c : Candidate}
    (hc : c ∈ candidates context rules root) :
    ∃ step ∈ steps, IsStepFor root (candidates context rules root) c.key step := by
  obtain ⟨entries, hlists, rfl⟩ := exists_lists_of_nextSteps hsupported h
  obtain ⟨entry, hentry, hkey⟩ := List.mem_map.mp (hlists.mem_keys.mpr ⟨c, hc, rfl⟩)
  exact ⟨entry.step, List.mem_map_of_mem hentry, hkey ▸ hlists.steps entry hentry⟩

end Explorer

namespace Simplifier

open Explorer

variable {s : Simplifier} {root : Expr} {active : Path}

/-- **A reduction is a candidate**: its rule at its node, under the first match. -/
theorem exists_mem_candidates_of_reduceOnce? {reduction : Reduction}
    (h : s.reduceOnce? root active = .ok (some reduction)) :
    ∃ c ∈ candidates s.context s.rules root,
      c.rule = reduction.rule ∧ c.after = reduction.after := by
  obtain ⟨group, hgroup, hrule, node, A, happlies⟩ := exists_applies_of_reduceOnce? h
  obtain ⟨B, hB, hafter⟩ := Rule.exists_mem_found_of_firstApplication? happlies.isFirst
  have hresult : (Candidate.ofApplication root reduction.rule reduction.path B).after =
      reduction.after := by
    rw [happlies.after, ← hafter]
    rfl
  refine ⟨.ofApplication root reduction.rule reduction.path B, ?_, rfl, hresult⟩
  refine List.mem_flatMap.mpr ⟨reduction.rule, List.mem_flatMap.mpr ⟨group, hgroup, hrule⟩, ?_⟩
  refine List.mem_flatMap.mpr ⟨(reduction.path, node), Expr.mem_postOrder_iff.mpr happlies.isAt, ?_⟩
  refine List.mem_flatMap.mpr ⟨node, mem_orderings_self node, ?_⟩
  refine List.mem_filter.mpr ⟨List.mem_map_of_mem hB, ?_⟩
  have hchanges :
      (Candidate.ofApplication root reduction.rule reduction.path B).key ≠ root.key := by
    rw [Candidate.key, hresult]
    exact happlies.changes
  simpa using hchanges

/-- **The simplifier takes only steps that the explorer lists.**  Steps are listed if every rule of
the set can be tried, and only then.  Where they are, a reduction below any node has the key of one
that is listed; so where none is listed, nothing can be reduced below any node. -/
theorem reduceOnce?_isListed (s : Simplifier) (root : Expr) (hsupported : root.isSupported = true) :
    ((∃ steps, nextSteps s.context s.rules root = .ok steps) ↔
      ∀ rule ∈ s.rules.rules, rule.lhs.needsUnknown = true → s.context.unknown ≠ none) ∧
    ∀ steps, nextSteps s.context s.rules root = .ok steps → ∀ active,
      (∀ reduction, s.reduceOnce? root active = .ok (some reduction) →
        ∃ step ∈ steps, ∃ c ∈ candidates s.context s.rules root,
          c.after.key = reduction.after.key ∧ step.rule = c.rule.id ∧
            step.change = c.rule.change ∧ step.before = root.text ∧ step.after = c.after.text) ∧
      (steps = [] → s.reduceOnce? root active = .ok none) := by
  have hlisted : (∃ steps, nextSteps s.context s.rules root = .ok steps) ↔
      ∀ rule ∈ s.rules.rules, rule.CanBeTried s.context := exists_ok_of_nextSteps_iff hsupported
  refine ⟨hlisted, fun steps hsteps active => ?_⟩
  have hreduction (reduction : Reduction)
      (h : s.reduceOnce? root active = .ok (some reduction)) :
      ∃ step ∈ steps,
        IsStepFor root (candidates s.context s.rules root) reduction.after.key step := by
    obtain ⟨c, hc, -, hafter⟩ := exists_mem_candidates_of_reduceOnce? h
    rw [← hafter]
    exact exists_step_of_mem_candidates hsupported hsteps hc
  refine ⟨fun reduction h => ?_, ?_⟩
  · obtain ⟨step, hstep, hfor⟩ := hreduction reduction h
    obtain ⟨c, hfirst, hrule, hchange, hafter⟩ := hfor.first
    have hkey : c.key = reduction.after.key := by simpa using List.find?_some hfirst
    exact ⟨step, hstep, c, List.mem_of_find?_eq_some hfirst, hkey, hrule, hchange, hfor.before,
      hafter⟩
  · rintro rfl
    obtain ⟨found, hfound⟩ := exists_ok_of_reduceOnce? (hlisted.mp ⟨[], hsteps⟩) root active
    cases found with
    | none => exact hfound
    | some reduction =>
        obtain ⟨step, hstep, -⟩ := hreduction reduction hfound
        cases hstep

/-- What is found has this key. -/
theorem exists_of_key_eq {found : Except Error (Option Reduction)} {key : String}
    (h : (found.toOption.bind fun next => next.map fun reduction => reduction.after.key) =
      some key) : ∃ reduction, found = .ok (some reduction) ∧ reduction.after.key = key := by
  cases found with
  | error error => cases h
  | ok next =>
      cases next with
      | none => cases h
      | some reduction => exact ⟨reduction, rfl, Option.some.inj h⟩

/-- The rules of arithmetic, and no others. -/
def arithmetic : Simplifier := ofRules (.ofGroups [⟨"arithmetic", Arithmetic.rules⟩])

/-- Adding one and two is a reduction, and it is listed. -/
theorem reduceOnce?_isListed_onePlusTwo :
    (Expr.sum [.const 1, .const 2]).isSupported = true ∧
    ∃ steps reduction, nextSteps .plain arithmetic.rules (.sum [.const 1, .const 2]) = .ok steps ∧
      arithmetic.reduceOnce? (.sum [.const 1, .const 2]) [] = .ok (some reduction) ∧
      ∃ step ∈ steps, ∃ c ∈ candidates .plain arithmetic.rules (.sum [.const 1, .const 2]),
        c.after.key = reduction.after.key ∧ step.rule = c.rule.id ∧ step.change = c.rule.change ∧
          step.before = (Expr.sum [.const 1, .const 2]).text ∧ step.after = c.after.text := by
  have hsupported : (Expr.sum [.const 1, .const 2]).isSupported = true := by decide
  obtain ⟨hlisted, hreductions⟩ :=
    reduceOnce?_isListed arithmetic (.sum [.const 1, .const 2]) hsupported
  obtain ⟨steps, hsteps⟩ := hlisted.mpr (by decide +kernel)
  obtain ⟨reduction, hreduction, -⟩ := exists_of_key_eq
    (show ((arithmetic.reduceOnce? (.sum [.const 1, .const 2]) []).toOption.bind fun next =>
      next.map fun reduction => reduction.after.key) = some "3" by decide +kernel)
  exact ⟨hsupported, steps, reduction, hsteps, hreduction,
    (hreductions steps hsteps []).1 reduction hreduction⟩

/-- A rule for any sum, and after it one that speaks of the unknown. -/
def zeroThenUnknown : Simplifier := ofRules (.ofGroups [
  ⟨"zero", [.structural .removeAddingZero (Pattern.Wildcard.n1 + 0) Pattern.Wildcard.n1]⟩,
  ⟨"unknown", [.structural .removeMultiplyingByOne (Pattern.Wildcard.x * 1) Pattern.Wildcard.x]⟩])

/-- Where no unknown is chosen, `y + 0` is reduced to `y` before the second rule is tried.  The
explorer tries both, and lists nothing. -/
theorem reduceOnce?_notListed_addingZero :
    (Expr.sum [.symbol "y", .const 0]).isSupported = true ∧
    (∃ reduction, zeroThenUnknown.reduceOnce? (.sum [.symbol "y", .const 0]) [] =
        .ok (some reduction) ∧ reduction.after.key = "y") ∧
    nextSteps zeroThenUnknown.context zeroThenUnknown.rules (.sum [.symbol "y", .const 0]) =
      .error Cause.missingUnknown.unlocated := by
  refine ⟨by decide, exists_of_key_eq ?_, ?_⟩ <;> decide +kernel

end Simplifier

end AlgebraTutor
