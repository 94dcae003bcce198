/-
Simplification and values.

As long as no function is called, each reduction keeps the value of the tree, because the rules that
apply are the algebraic ones.  Putting the arguments in order keeps it, too.  What is left is the
tree at a dead end, which is printed and read again, and there the value may get lost: that is where
`Misreading` comes in.  So the simplifier keeps the value exactly as far as its dead ends do, and
they do unless the tree there hides a call.
-/
import AlgebraTutor.Proofs.CallFreeRules
import AlgebraTutor.Proofs.Misreading
import AlgebraTutor.Proofs.Reductions

namespace AlgebraTutor

namespace Expr

section Arithmetic

variable {names : String → Rat} {members : String → String → Rat}

mutual

/-- In arithmetic only a tree without calls has a value. -/
theorem noCall_of_value : ∀ {e : Expr} {v : Rat}, e.value (.arithmetic names members) = some v →
    e.hasCall = false
  | const _, _, _ => rfl
  | symbol _, _, _ => rfl
  | member _ _, _, _ => rfl
  | op kind args i, v, h => by
      rw [value] at h
      obtain ⟨qs, hqs, -⟩ := Option.bind_eq_some_iff.mp h
      rw [hasCall]
      exact noCall_of_values hqs
  | call name args, v, h => by
      rw [value] at h
      obtain ⟨qs, -, hv⟩ := Option.bind_eq_some_iff.mp h
      cases hv

theorem noCall_of_values : ∀ {es : List Expr} {qs : List Rat},
    values (.arithmetic names members) es = some qs → anyHasCall es = false
  | [], _, _ => rfl
  | e :: es, qs, h => by
      obtain ⟨p, ps, hp, hps, -⟩ := values_cons_eq_some.mp h
      rw [anyHasCall, noCall_of_value hp, noCall_of_values hps, Bool.or_false]

end

/-- A tree without calls that hides none is still such a tree when it is read again, and has the
same value. -/
theorem reread_of_clear {e : Expr} (he : e.IsArithmetic) (hhides : e.hidesCall = false) {v : Rat}
    (hv : e.value (.arithmetic names members) = some v) :
    e.reread.IsArithmetic ∧ e.reread.value (.arithmetic names members) = some v := by
  obtain ⟨x, hx, hvalue⟩ := parse_render .spaced e he.wellFormed fun _ => hhides
  have hreread : e.reread = x.normalize := by
    have hparse : parse e.text = .ok x := hx
    unfold reread parseNormal
    rw [hparse]
    rfl
  have hsame : x.value (.arithmetic names members) = some v := by
    rw [hvalue, value_lettered (hasLetterCall_eq_false he.noCall), hv]
  have hplain : x.IsPlain := isPlain_of_parse hx
  rw [hreread, value_normalize]
  exact ⟨hereditary_isArithmetic.normalize ⟨hplain.wellFormed, noCall_of_value hsame⟩, hsame⟩

end Arithmetic

/-- The rules know every function of a tree that calls none. -/
theorem isSupported_of_noCall {e : Expr} (h : e.hasCall = false) : e.isSupported = true := by
  have hnone : e.unsupported? = none := by
    unfold unsupported?
    rw [List.findSome?_eq_none_iff]
    intro ⟨path, node⟩ hmem
    have hnode := hasCall_of_get? h (mem_postOrder_iff.mp hmem)
    cases node with
    | call name args => cases hnode
    | _ => rfl
  rw [isSupported, hnone]
  rfl

end Expr

namespace Simplifier

open AlgebraTutor.Expr

variable {s : Simplifier} {root start : Expr} {active : Path}

/-! ### One reduction with the standard rules -/

section Standard

variable (hs : s.rules = .standard)

include hs

theorem exists_ok_of_reduceOnce?_standard (root : Expr) (active : Path) :
    ∃ r, s.reduceOnce? root active = .ok r := by
  refine exists_ok_of_reduceOnce? (fun rule hrule hunknown => ?_) root active
  obtain ⟨group, hgroup, hrule⟩ := List.mem_flatMap.mp hrule
  rw [hs] at hgroup
  exact absurd hunknown (by simp [RuleSet.needsUnknown_standard hgroup hrule])

/-- **A reduction of a tree without calls keeps its value.** -/
theorem keeps_of_reduceOnce? {ρ : Valuation} (hρ : ρ.HasIntegerPowers)
    (hroot : root.hasCall = false) {reduction : Reduction}
    (h : s.reduceOnce? root active = .ok (some reduction)) : Keeps ρ root reduction.after := by
  obtain ⟨group, hgroup, hrule, node, application, happlies⟩ := exists_applies_of_reduceOnce? h
  rw [hs] at hgroup
  have hnode : node.hasCall = false := hasCall_of_get? hroot happlies.isAt
  have hkeeps : Keeps ρ node application.after :=
    RuleSet.keeps_of_standard hgroup hrule hρ hnode happlies.isFirst
  rw [happlies.after]
  exact keeps_splice happlies.isAt hkeeps

/-- It makes a tree without calls, too. -/
theorem isArithmetic_of_reduceOnce? (hroot : root.IsArithmetic) {reduction : Reduction}
    (h : s.reduceOnce? root active = .ok (some reduction)) : reduction.after.IsArithmetic := by
  obtain ⟨group, hgroup, hrule, node, application, happlies⟩ := exists_applies_of_reduceOnce? h
  rw [hs] at hgroup
  have hnode : node.IsArithmetic := hereditary_isArithmetic.get? hroot happlies.isAt
  rw [happlies.after]
  have hafter := RuleSet.isArithmetic_of_standard hgroup hrule hnode happlies.isFirst
  exact hereditary_isArithmetic.splice hroot hafter _

/-! ### The loop with the standard rules -/

variable {names : String → Rat} {members : String → String → Rat} {v : Rat}

/-- A tree that has a value in arithmetic calls no function, so that a reduction keeps its value. -/
theorem value_of_reduceOnce? (hroot : root.value (.arithmetic names members) = some v)
    {reduction : Reduction} (h : s.reduceOnce? root active = .ok (some reduction)) :
    reduction.after.value (.arithmetic names members) = some v :=
  keeps_of_reduceOnce? hs (Valuation.hasIntegerPowers_arithmetic names members)
    (noCall_of_value hroot) h v hroot

/-- The loop keeps the value up to the next dead end that does not. -/
theorem value_of_reaches (hstart : start.value (.arithmetic names members) = some v) {n : Nat}
    (h : s.Reaches start n root active) :
    (∀ m < n, ∀ t next, s.DeadEnd start m t next →
      next.value (.arithmetic names members) = some v) →
    root.value (.arithmetic names members) = some v := by
  induction h with
  | start => intro _; exact hstart
  | @reduce n root source active reduction hreached hnext ih =>
      intro hends
      rcases nextReduction_cases hnext with ⟨_, place, hsome, hreduction⟩ | ⟨hstuck, -, hreduction⟩
      · cases hsome
        exact value_of_reduceOnce? hs (ih fun m hm => hends m (by omega)) hreduction
      · exact hends n (by omega) root _ (.resumes hreached hstuck hreduction)

/-- As long as no tree at a dead end hides a call, all trees are without calls and have the same
value. -/
theorem isArithmetic_of_reaches (hwell : start.IsArithmetic)
    (hstart : start.value (.arithmetic names members) = some v) {n : Nat}
    (h : s.Reaches start n root active) :
    (∀ m < n, ∀ t next, s.DeadEnd start m t next → t.hidesCall = false) →
    root.IsArithmetic ∧ root.value (.arithmetic names members) = some v := by
  induction h with
  | start => intro _; exact ⟨hwell, hstart⟩
  | @reduce n root source active reduction hreached hnext ih =>
      intro hclear
      obtain ⟨hroot, hvalue⟩ := ih fun m hm => hclear m (by omega)
      rcases nextReduction_cases hnext with ⟨_, place, hsome, hreduction⟩ | ⟨hstuck, -, hreduction⟩
      · cases hsome
        exact ⟨isArithmetic_of_reduceOnce? hs hroot hreduction,
          value_of_reduceOnce? hs hvalue hreduction⟩
      · have hhides := hclear n (by omega) root _ (.resumes hreached hstuck hreduction)
        obtain ⟨hreread, hsame⟩ := reread_of_clear hroot hhides hvalue
        exact ⟨isArithmetic_of_reduceOnce? hs hreread hreduction,
          value_of_reduceOnce? hs hsame hreduction⟩

/-- A dead end keeps the value if no tree at this or an earlier one hides a call. -/
theorem value_of_deadEnd (hwell : start.IsArithmetic)
    (hstart : start.value (.arithmetic names members) = some v) {n : Nat} {next : Expr}
    (hclear : ∀ m ≤ n, ∀ t next, s.DeadEnd start m t next → t.hidesCall = false)
    (h : s.DeadEnd start n root next) : next.value (.arithmetic names members) = some v := by
  have hhides := hclear n le_rfl root next h
  have hreread {active : Path} (hreached : s.Reaches start n root active) :
      root.reread.value (.arithmetic names members) = some v := by
    obtain ⟨hroot, hvalue⟩ :=
      isArithmetic_of_reaches hs hwell hstart hreached fun m hm => hclear m hm.le
    exact (reread_of_clear hroot hhides hvalue).2
  cases h with
  | ends hreached hstuck hnone => exact hreread hreached
  | resumes hreached hstuck hsome => exact value_of_reduceOnce? hs (hreread hreached) hsome

end Standard

/-! ### Whole runs -/

/-- A run on a tree without calls is the loop, and after it the arguments are put in order. -/
theorem run_eq_ok {e : Expr} (he : e.hasCall = false) (limit : Nat) {final : Expr}
    {steps : List Step} (h : s.reduceUpTo limit e.normalize [] = .ok (final, steps)) :
    run { s with maxReductions := limit } e = .ok (final.rearranged,
      .opening e.normalize :: steps ++ arrangingSteps final final.rearranged) := by
  rw [run_of_isSupported (isSupported_of_noCall ((hasCall_normalize e).trans he)),
    reduceUpTo_limit, h]
  rfl

/-- **With the standard rules a run on a text without calls always returns a tree.  It keeps the
value of the text, at this limit and at all smaller ones, if and only if every dead end before the
limit does.**  And a dead end does that if neither its tree nor that of an earlier one hides a
call. -/
theorem value_run_iff (s : Simplifier) (hs : s.rules = .standard) {text : String} {e : Expr}
    (htext : parse text = .ok e) (hcall : e.hasCall = false) (names : String → Rat)
    (members : String → String → Rat) {v : Rat} (hv : e.value (.arithmetic names members) = some v)
    (limit : Nat) :
    (∀ n, ∃ final steps, run { s with maxReductions := n } e = .ok (final, steps)) ∧
    ((∀ n ≤ limit, ∀ final steps, run { s with maxReductions := n } e = .ok (final, steps) →
        final.value (.arithmetic names members) = some v) ↔
      ∀ n < limit, ∀ root next, s.DeadEnd e.normalize n root next →
        next.value (.arithmetic names members) = some v) ∧
    ((∀ n < limit, ∀ root next, s.DeadEnd e.normalize n root next → root.hidesCall = false) →
      ∀ n < limit, ∀ root next, s.DeadEnd e.normalize n root next →
        next.value (.arithmetic names members) = some v) := by
  have hstart : e.normalize.value (.arithmetic names members) = some v := by
    rw [value_normalize, hv]
  have hwell : e.normalize.IsArithmetic :=
    hereditary_isArithmetic.normalize ⟨(isPlain_of_parse htext).wellFormed, hcall⟩
  have hloop (n : Nat) : ∃ final steps, s.reduceUpTo n e.normalize [] = .ok (final, steps) :=
    exists_ok_of_reduceUpTo (exists_ok_of_reduceOnce?_standard hs) n e.normalize []
  refine ⟨fun n => ?_, ⟨fun hrun n hn root next hend => ?_, fun hends n hn final steps hrun => ?_⟩,
    fun hclear n hn root next hend => ?_⟩
  · obtain ⟨final, steps, hfinal⟩ := hloop n
    exact ⟨_, _, run_eq_ok hcall n hfinal⟩
  · -- Stopped right after the dead end, the run returns what follows it.
    obtain ⟨steps, hnext⟩ := hend.reduceUpTo
    rw [← value_rearranged]
    exact hrun (n + 1) hn _ _ (run_eq_ok hcall (n + 1) hnext)
  · obtain ⟨final', steps', hfinal⟩ := hloop n
    rw [run_eq_ok hcall n hfinal] at hrun
    cases hrun
    rw [value_rearranged]
    rcases reduceUpTo_cases .start hfinal with ⟨active, hreached⟩ | ⟨m, t, hm, hend⟩
    · rw [Nat.zero_add] at hreached
      exact value_of_reaches hs hstart hreached fun m hm => hends m (by omega)
    · exact hends m (by omega) t _ hend
  · exact value_of_deadEnd hs hwell hstart (fun m hm => hclear m (by omega)) hend

/-- A power times a negation, with the two in parentheses. -/
def powerTimesNegation : Expr := op .mul [power (symbol "x") (symbol "n"), minus (symbol "y")] true

/-- What it is read as where it is shown. -/
def powerOfProduct : Expr := power (symbol "x") (op .mul [symbol "n", minus (symbol "y")] true)

theorem parse_powerTimesNegation : parse "(x^n)(-y)" = .ok powerTimesNegation :=
  parse_of_ofText? (by cbv)

/-- Printed and read again, it is a power of `x`. -/
theorem reread_powerTimesNegation : powerTimesNegation.reread = powerOfProduct := by
  have htext : powerTimesNegation.text = "x^n(-y)" := by cbv
  have hparse : parse "x^n(-y)" = .ok powerOfProduct := parse_of_ofText? (by cbv)
  rw [reread, htext, parseNormal, hparse]
  rfl

/-- No rule applies to `x^n(-y)`, and none to what it is read as. -/
theorem run_powerTimesNegation : ∃ steps,
    (ofRules .standard).run powerTimesNegation = .ok (powerOfProduct.rearranged, steps) := by
  have hroot : (ofRules .standard).reduceOnce? powerTimesNegation [] = .ok none :=
    eq_none_of_findsNothing (by decide +kernel)
  have hreread : (ofRules .standard).reduceOnce? powerTimesNegation.reread [] = .ok none := by
    rw [reread_powerTimesNegation]
    exact eq_none_of_findsNothing (by decide +kernel)
  have hloop : (ofRules .standard).reduceUpTo defaultMaxReductions powerTimesNegation.normalize [] =
      .ok (powerOfProduct, []) := by
    show (ofRules .standard).reduceUpTo (63 + 1) powerTimesNegation [] = _
    rw [reduceUpTo, nextReduction_of_stuck ⟨hroot, hroot⟩ hreread, reread_powerTimesNegation]
    rfl
  have hlimit : ({ ofRules .standard with maxReductions := defaultMaxReductions } : Simplifier) =
      ofRules .standard := rfl
  have hcall : powerTimesNegation.hasCall = false := rfl
  have hrun := run_eq_ok hcall defaultMaxReductions hloop
  rw [hlimit] at hrun
  exact ⟨_, hrun⟩

/-- Simplifying `(x^n)(-y)` gives a power of `x`, which has another value. -/
theorem value_run_powerTimesNegation : ∃ e final steps, parse "(x^n)(-y)" = .ok e ∧
    e.hasCall = false ∧ e.value (.uniform 2) = some (-8) ∧
    (ofRules .standard).run e = .ok (final, steps) ∧ final.value (.uniform 2) = some (1 / 16) := by
  obtain ⟨steps, hrun⟩ := run_powerTimesNegation
  refine ⟨_, _, steps, parse_powerTimesNegation, rfl, ?_, hrun, ?_⟩
  · simp [powerTimesNegation, Valuation.uniform, Valuation.arithmetic, integerPower]
    norm_num
  · rw [value_rearranged]
    simp [powerOfProduct, Valuation.uniform, Valuation.arithmetic, integerPower]
    norm_num

/-- Stopped after one reduction at the latest, `(x^n)y` keeps its value. -/
theorem value_run_powerTimesVariable : ∃ e final steps, parse "(x^n)y" = .ok e ∧
    run { ofRules .standard with maxReductions := 1 } e = .ok (final, steps) ∧
      final.value (.uniform 2) = some 8 := by
  have hv : (op .mul [power (symbol "x") (symbol "n"), symbol "y"] true).value (.uniform 2) =
      some 8 := by
    simp [Valuation.uniform, Valuation.arithmetic, integerPower]
    norm_num
  obtain ⟨hruns, hiff, hclear⟩ := value_run_iff (ofRules .standard) rfl parse_powerTimesVariable rfl
    (fun _ => 2) (fun _ _ => 2) hv 1
  obtain ⟨final, steps, hrun⟩ := hruns 1
  refine ⟨_, final, steps, parse_powerTimesVariable, hrun, ?_⟩
  refine hiff.mpr (hclear fun n hn root next hend => ?_) 1 le_rfl final steps hrun
  obtain rfl : n = 0 := by omega
  have hroot : root = (op .mul [power (symbol "x") (symbol "n"), symbol "y"] true).normalize := by
    cases hend with
    | ends hreached _ _ => cases hreached; rfl
    | resumes hreached _ _ => cases hreached; rfl
  rw [hroot]
  cbv

end Simplifier

end AlgebraTutor
