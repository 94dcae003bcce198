/-
The answers to the steps of a trace.

A step of a trace shows a tree that the run came to, so one expects its text to have the answer of
the whole run.  But the run goes on below the node that was reduced last, and what is asked for the
text begins at the root, where a rule of a higher priority may apply first.  The two runs end with
trees that may look different.

They end with the same tree if they meet, and they meet at once if the rule that applies first is
the same below the active node and at the root.  Whether they meet or not, in arithmetic they keep
the value, unless a tree that is shown on the way reads differently.
-/
import AlgebraTutor.Proofs.Answers
import AlgebraTutor.Proofs.Recognition

namespace AlgebraTutor

/-- What reads as a tree that is shown alike reads as that tree again. -/
theorem Expr.reread_reread {e : Expr} (h : e.reread.text = e.text) :
    e.reread.reread = e.reread := by
  cases hread : parseNormal e.text with
  | error error =>
      have hsame : e.reread = e := by rw [reread, hread]
      rw [hsame, hsame]
  | ok b =>
      rw [reread_of_parseNormal hread] at h ⊢
      exact reread_of_parseNormal (h.symm ▸ hread)

namespace Simplifier

variable {s : Simplifier} {start start' root final : Expr} {active : Path} {n m k : Nat}
  {steps : List Step}

/-! ### Loops that meet -/

/-- What is left of a loop where it comes by. -/
theorem exists_rest_of_reaches (h : s.Reaches start n root active)
    (hloop : s.reduceUpTo k start [] = .ok (final, steps)) (hfew : steps.length < k) :
    ∃ rest, s.reduceUpTo k root active = .ok (final, rest) ∧ n + rest.length = steps.length := by
  obtain ⟨before, hlength, hadd⟩ := h.reduceUpTo_add
  have hmore := reduceUpTo_of_ends hloop hfew (show steps.length < n + k by omega)
  rw [hadd] at hmore
  cases hrest : s.reduceUpTo k root active with
  | error error =>
      rw [hrest] at hmore
      cases hmore
  | ok found =>
      rw [hrest] at hmore
      cases hmore
      exact ⟨found.2, rfl, by rw [List.length_append, hlength]⟩

/-- The loops come to places from which they go on alike: the next reduction is the same, or there
is none and they end with the same tree.  The second loop has come there no later. -/
def Meet (s : Simplifier) (start start' : Expr) : Prop :=
  ∃ n m t t' p p', s.Reaches start n t p ∧ s.Reaches start' m t' p' ∧ m ≤ n ∧
    s.nextReduction t p = s.nextReduction t' p'

/-- **Loops that meet end with the same tree.** -/
theorem reduceUpTo_of_meet (h : s.Meet start start')
    (hloop : s.reduceUpTo k start [] = .ok (final, steps)) (hfew : steps.length < k) :
    ∃ steps', s.reduceUpTo k start' [] = .ok (final, steps') := by
  obtain ⟨n, m, t, t', p, p', hreached, hreached', hle, hsame⟩ := h
  obtain ⟨rest, hrest, hlength⟩ := exists_rest_of_reaches hreached hloop hfew
  obtain ⟨before, hbefore, hadd⟩ := hreached'.reduceUpTo_add
  have hrest' : s.reduceUpTo k t' p' = .ok (final, rest) := by
    obtain ⟨k, rfl⟩ := Nat.exists_eq_succ_of_ne_zero (Nat.ne_zero_of_lt hfew)
    rw [← hrest, reduceUpTo, reduceUpTo, hsame]
  have hmore : s.reduceUpTo (m + k) start' [] = .ok (final, before ++ rest) := by
    rw [hadd, hrest']
    rfl
  have hshort : (before ++ rest).length < k := by
    rw [List.length_append, hbefore]
    omega
  exact ⟨_, reduceUpTo_of_ends hmore (by omega) hshort⟩

/-- A loop meets the one that starts where it comes by, if the rule that applies first below the
active node is the first at the root as well, or none applies below the active node. -/
theorem meet_of_same (h : s.Reaches start n root active) (hfirst :
      s.reduceOnce? root active = .ok none ∨ s.reduceOnce? root active = s.reduceOnce? root []) :
    s.Meet start root := by
  refine ⟨n, 0, root, root, active, [], h, .start, Nat.zero_le n, ?_⟩
  rcases hfirst with hnone | hsame
  · exact nextReduction_of_idle hnone
  cases hfound : s.reduceOnce? root active with
  | error error => rw [nextReduction, nextReduction, ← hsame, hfound]; rfl
  | ok found =>
      cases found with
      | none => exact nextReduction_of_idle hfound
      | some reduction => rw [nextReduction, nextReduction, ← hsame, hfound]; rfl

/-- A loop that ends before its limit comes to a place that has no next reduction. -/
theorem exists_last_of_ends : ∀ {n : Nat} {root : Expr} {active : Path} {steps : List Step},
    s.Reaches start n root active → s.reduceUpTo k root active = .ok (final, steps) →
      steps.length < k → ∃ t p, s.Reaches start (n + steps.length) t p ∧
        s.nextReduction t p = .ok (final, none) := by
  induction k with
  | zero => intro _ _ _ _ _ _ hfew; cases hfew
  | succ k ih =>
      intro n root active steps hreached h hfew
      rcases reduceUpTo_succ_cases h with ⟨hnone, rfl⟩ | ⟨_, reduction, rest, hnext, hrest, rfl⟩
      · exact ⟨root, active, hreached, hnone⟩
      · obtain ⟨t, p, hlast, hnone⟩ :=
          ih (.reduce hreached hnext) hrest (Nat.lt_of_succ_lt_succ hfew)
        refine ⟨t, p, ?_, hnone⟩
        rwa [Nat.add_right_comm] at hlast

/-- What it comes to with its last reduction is read as its last tree. -/
theorem eq_reread_of_reaches (h : s.Reaches start steps.length root active)
    (hloop : s.reduceUpTo k start [] = .ok (final, steps)) (hfew : steps.length < k) :
    final = root.reread := by
  obtain ⟨rest, hrest, hlength⟩ := exists_rest_of_reaches h hloop hfew
  obtain ⟨k, rfl⟩ := Nat.exists_eq_succ_of_ne_zero (Nat.ne_zero_of_lt hfew)
  rcases reduceUpTo_succ_cases hrest with ⟨hnone, -⟩ | ⟨_, _, _, -, -, rfl⟩
  · rcases nextReduction_cases hnone with ⟨_, _, hsome, -⟩ | ⟨-, hfinal, -⟩
    · cases hsome
    · exact hfinal
  · rw [List.length_cons] at hlength
    omega

/-- Loops that end with the same tree meet there, if the second takes no more reductions. -/
theorem meet_of_same_end {k' : Nat} {steps' : List Step}
    (hloop : s.reduceUpTo k start [] = .ok (final, steps)) (hfew : steps.length < k)
    (hloop' : s.reduceUpTo k' start' [] = .ok (final, steps')) (hfew' : steps'.length < k')
    (hle : steps'.length ≤ steps.length) : s.Meet start start' := by
  obtain ⟨t, p, hlast, hnone⟩ := exists_last_of_ends .start hloop hfew
  obtain ⟨t', p', hlast', hnone'⟩ := exists_last_of_ends .start hloop' hfew'
  exact ⟨_, _, t, t', p, p', hlast, hlast', by omega, hnone.trans hnone'.symm⟩

/-- It meets the one that starts with its last tree, if that reads as itself. -/
theorem meet_of_ends (hloop : s.reduceUpTo k start [] = .ok (final, steps))
    (hfew : steps.length < k) (hreread : final.reread = final) : s.Meet start final := by
  have hstuck := reduceOnce?_of_ends hloop hfew
  have hidle : s.reduceUpTo 1 final [] = .ok (final, []) := by
    rw [reduceUpTo, nextReduction_of_stuck ⟨hstuck, hstuck⟩ (hreread.symm ▸ hstuck), hreread]
    rfl
  exact meet_of_same_end hloop hfew hidle Nat.zero_lt_one (Nat.zero_le _)

/-! ### The trees of a trace -/

/-- Every step of a loop leads to the tree that it reaches with it. -/
theorem reaches_of_reduceUpTo : ∀ {n : Nat} {root : Expr} {active : Path} {steps : List Step},
    s.Reaches start n root active → s.reduceUpTo k root active = .ok (final, steps) →
      ∀ {before after : List Step} {step : Step}, steps = before ++ step :: after →
        ∃ t p, s.Reaches start (n + before.length + 1) t p ∧ step.after = t.text := by
  induction k with
  | zero =>
      intro n root active steps _ h before after step hsplit
      cases h
      exact absurd hsplit (by simp)
  | succ k ih =>
      intro n root active steps hreached h before after step hsplit
      rcases reduceUpTo_succ_cases h with ⟨-, rfl⟩ | ⟨source, reduction, rest, hnext, hrest, rfl⟩
      · exact absurd hsplit (by simp)
      have hafter := Reaches.reduce hreached hnext
      cases before with
      | nil =>
          obtain ⟨rfl, -⟩ := List.cons.inj hsplit
          exact ⟨_, _, hafter, rfl⟩
      | cons first before =>
          obtain ⟨t, p, hreached', htext⟩ := ih hafter hrest (List.cons.inj hsplit).2
          refine ⟨t, p, ?_, htext⟩
          rwa [Nat.add_right_comm n 1] at hreached'

/-- **Every step of a trace leads to the tree that the loop has reached then**, except for the one
that puts the arguments of the last tree in order. -/
theorem reaches_of_trace {e : Expr} (hnormal : e.normalize = e) {trace : List Step}
    (h : s.run e = .ok (final, trace)) {before after : List Step} {step : Step}
    (hsplit : trace = before ++ step :: after) :
    (∃ t p, s.Reaches e before.length t p ∧ step.after = t.text) ∨
      step.change = .rearrangeCoefficients ∧ step.after = final.text := by
  cases hsupported : e.normalize.isSupported with
  | false =>
      rw [run_of_unsupported hsupported] at h
      cases h
      exact absurd hsplit (by simp)
  | true =>
      obtain ⟨last, steps, hloop, rfl, rfl⟩ := exists_reduceUpTo_of_run hsupported h
      rw [hnormal] at hloop hsplit
      cases before with
      | nil =>
          obtain ⟨rfl, -⟩ := List.cons.inj hsplit
          exact .inl ⟨e, [], .start, rfl⟩
      | cons first before =>
          have hsteps : steps ++ arrangingSteps last last.rearranged = before ++ step :: after :=
            (List.cons.inj hsplit).2
          have hkept {later : List Step} (hkept : steps = before ++ step :: later) :
              ∃ t p, s.Reaches e (first :: before).length t p ∧ step.after = t.text := by
            obtain ⟨t, p, hreached, htext⟩ := reaches_of_reduceUpTo .start hloop hkept
            refine ⟨t, p, ?_, htext⟩
            rwa [Nat.zero_add] at hreached
          unfold arrangingSteps at hsteps
          split at hsteps
          · exact .inl (hkept (by rwa [List.append_nil] at hsteps))
          · rcases split_concat hsteps with ⟨-, rfl⟩ | ⟨later, hsteps⟩
            · exact .inr ⟨rfl, rfl⟩
            · exact .inl (hkept hsteps)

/-- A loop that asks for mistakes comes to the same trees. -/
theorem Reaches.of_asking {b : Bool} (h : (s.asking b).Reaches start n root active) :
    s.Reaches start n root active := by
  induction h with
  | start => exact .start
  | @reduce n root source active reduction _ hnext ih =>
      have hsame := s.map_bare_nextReduction b root active
      rw [hnext] at hsame
      cases hnext' : s.nextReduction root active with
      | error error =>
          rw [hnext'] at hsame
          cases hsame
      | ok found =>
          rw [hnext'] at hsame
          obtain ⟨-, hbare⟩ := Prod.mk.inj (Except.ok.inj hsame)
          obtain ⟨reduction', hfound, hbare⟩ := Option.map_eq_some_iff.mp hbare.symm
          obtain ⟨hpath, hafter⟩ := Reduction.eq_of_bare hbare
          have hmore : s.nextReduction root active = .ok (found.1, some reduction') := by
            rw [hnext', ← hfound]
          rw [← hpath, ← hafter]
          exact .reduce ih hmore

theorem exists_run_of_asking {b : Bool} {e : Expr} {trace : List Step}
    (h : (s.asking b).run e = .ok (final, trace)) : ∃ trace', s.run e = .ok (final, trace') := by
  have hsame := s.map_fst_run b e
  rw [h] at hsame
  cases hrun : s.run e with
  | error error =>
      rw [hrun] at hsame
      cases hsame
  | ok found =>
      rw [hrun] at hsame
      obtain rfl : final = found.1 := Except.ok.inj hsame
      exact ⟨found.2, rfl⟩

/-! ### Values -/

/-- No tree that the loop reads again hides a call. -/
def ReadsClearly (s : Simplifier) (start : Expr) : Prop :=
  ∀ n root next, s.DeadEnd start n root next → root.hidesCall = false

section Standard

variable (hs : s.rules = .standard) {names : String → Rat} {members : String → String → Rat}
  {v : Rat} (hwell : start.IsArithmetic)
  (hstart : start.value (.arithmetic names members) = some v) (hclear : s.ReadsClearly start)

include hs hwell hstart hclear

/-- **A loop that reads clearly keeps the value.** -/
theorem value_of_reduceUpTo (h : s.reduceUpTo k start [] = .ok (final, steps)) :
    final.value (.arithmetic names members) = some v := by
  rcases reduceUpTo_cases .start h with ⟨active, hreached⟩ | ⟨m, t, -, hend⟩
  · exact (isArithmetic_of_reaches hs hwell hstart hreached fun m _ => hclear m).2
  · exact value_of_deadEnd hs hwell hstart (fun m _ => hclear m) hend

theorem value_of_run (hnormal : start.normalize = start) {trace : List Step}
    (h : s.run start = .ok (final, trace)) : final.value (.arithmetic names members) = some v := by
  have hsupported : start.normalize.isSupported = true :=
    hnormal.symm ▸ Expr.isSupported_of_noCall hwell.noCall
  obtain ⟨last, steps, hloop, rfl, -⟩ := exists_reduceUpTo_of_run hsupported h
  rw [hnormal] at hloop
  rw [Expr.value_rearranged]
  exact value_of_reduceUpTo hs hwell hstart hclear hloop

end Standard

/-- **Every step of a trace leads to a well-formed tree that has the value of the expression**, if
what is shown on the way reads clearly. -/
theorem exists_shown_of_trace (hs : s.rules = .standard) {e root : Expr} (he : e.IsPlain)
    (hnormal : e.normalize = e) {mistakes : Bool} {trace : List Step}
    (hrun : (s.asking mistakes).run e = .ok (root, trace)) {before after : List Step} {step : Step}
    (hstep : trace = before ++ step :: after) :
    ∃ t : Expr, step.after = t.text ∧ t.IsPlain ∧
      (step.change = .rearrangeCoefficients ∧ t = root ∨ ∃ p, s.Reaches e before.length t p) ∧
      ∀ names members v, e.value (.arithmetic names members) = some v → s.ReadsClearly e →
        t.value (.arithmetic names members) = some v := by
  have hwell {names members v} (hv : e.value (.arithmetic names members) = some v) :
      e.IsArithmetic := ⟨he.wellFormed, Expr.noCall_of_value hv⟩
  rcases reaches_of_trace hnormal hrun hstep with ⟨t, p, h, htext⟩ | ⟨hchange, htext⟩
  · have hreached := h.of_asking
    refine ⟨t, htext, isPlain_of_reaches hs he hreached, .inr ⟨p, hreached⟩,
      fun names members v hv hclear => ?_⟩
    exact (isArithmetic_of_reaches hs (hwell hv) hv hreached fun m _ => hclear m).2
  · obtain ⟨trace', hrun'⟩ := exists_run_of_asking hrun
    refine ⟨root, htext, isPlain_of_run hs he hrun', .inl ⟨hchange, rfl⟩,
      fun names members v hv hclear => ?_⟩
    exact value_of_run hs (hwell hv) hv hclear hnormal hrun'

end Simplifier

/-! ### Answers that agree -/

/-- There is nothing to read in the empty text. -/
theorem Expr.parse_empty_ne_ok (e : Expr) : Expr.parse "" ≠ .ok e := by
  intro h
  obtain ⟨p, hderives, -⟩ := Expr.parse_eq_ok_iff.mp h
  rw [show "".toList = [] from rfl, Token.lexemes_nil] at hderives
  cases hderives with
  | expr first _ =>
      cases first with
      | term first _ =>
          cases first with
          | factor power =>
              cases power with
              | power primary => cases primary
              | exponent _ base _ => cases base

/-- What shows a tree is not blank. -/
theorem Expr.Shows.not_blank {text : String} (h : Expr.Shows text) : isBlankText text = false := by
  by_contra hblank
  rw [Bool.not_eq_false] at hblank
  have hempty : squeeze text = "" := by
    have hnone : text.toList.filter (fun c => !isBlank c) = [] := by
      refine List.filter_eq_nil_iff.mpr fun c hc => ?_
      simp [List.all_eq_true.mp hblank c hc]
    rw [squeeze, hnone]
  obtain ⟨x, hx⟩ := h.exists_parse
  obtain ⟨e, he, rfl⟩ := h
  have hsame := Expr.parse_squeeze_text he.wellFormed
  rw [hempty, hx] at hsame
  cases hparse : Expr.parse "" with
  | error error =>
      rw [hparse] at hsame
      cases hsame
  | ok y => exact Expr.parse_empty_ne_ok y hparse

namespace Session

variable {settings : Settings}

variable (settings) in
/-- The texts have answers, and these are found equal. -/
def AnswersAgree (a b : String) : Prop :=
  ∃ x y, (ofSettings settings).resultOf (answer a) = .ok x ∧
    (ofSettings settings).resultOf (answer b) = .ok y ∧
    (ofSettings settings).resultOf (areEqual x y) = .ok true

theorem answersAgree_of_eq {a b answered : String}
    (ha : (ofSettings settings).resultOf (answer a) = .ok answered)
    (hb : (ofSettings settings).resultOf (answer b) = .ok answered) :
    AnswersAgree settings a b := by
  obtain ⟨e, final, trace, hread, hrun, rfl⟩ := exists_run_of_answer ha
  have hplain := Simplifier.isPlain_of_run rfl (Expr.isPlain_of_parseNormal hread) hrun
  have hequal : EqualTexts final.text final.text := .refl hplain.shows.not_blank
  exact ⟨_, _, ha, hb, (gives_true hequal _ (faithful_ofSettings settings Steady)).1⟩

section Meeting

variable {text text' : String} {e b last : Expr} {steps : List Step}
  (hread : Expr.parseNormal text = .ok e) (hsupported : e.isSupported = true)
  (hread' : Expr.parseNormal text' = .ok b) (hsupported' : b.isSupported = true)
  (hloop : settings.simplifier.reduceUpTo settings.maxIterations e [] = .ok (last, steps))
  (hfew : steps.length < settings.maxIterations)

include hread hsupported hread' hsupported' hloop hfew

/-- Texts whose runs meet have one answer. -/
theorem answersAgree_of_meet (h : settings.simplifier.Meet e b) :
    AnswersAgree settings text' text := by
  obtain ⟨steps', hloop'⟩ := Simplifier.reduceUpTo_of_meet h hloop hfew
  exact answersAgree_of_eq (resultOf_answer_of_reduceUpTo hread' hsupported' hloop')
    (resultOf_answer_of_reduceUpTo hread hsupported hloop)

end Meeting

/-- The last tree with its arguments in order has the answer of the run, if it reads as itself and
no rule applies to it. -/
theorem answersAgree_of_arranged {text : String} {e last : Expr} {steps : List Step}
    (hread : Expr.parseNormal text = .ok e) (hsupported : e.isSupported = true)
    (hloop : settings.simplifier.reduceUpTo settings.maxIterations e [] = .ok (last, steps))
    (hfew : steps.length < settings.maxIterations)
    (hread' : Expr.parseNormal last.rearranged.text = .ok last.rearranged)
    (hsupported' : last.rearranged.isSupported = true)
    (hstuck : settings.simplifier.reduceOnce? last.rearranged [] = .ok none) :
    AnswersAgree settings last.rearranged.text text := by
  have hsettled := Simplifier.settled_rearranged hloop hfew (.inr hstuck)
  exact answersAgree_of_eq
    (resultOf_answer_of_settled hread' (Nat.zero_lt_of_lt hfew) hsupported' rfl hsettled)
    (resultOf_answer_of_reduceUpTo hread hsupported hloop)

/-- What a text of arithmetic simplifies to has its value, if what is shown on the way reads
clearly. -/
theorem value_of_simplify {text : String} {e : Expr} (hread : Expr.parseNormal text = .ok e)
    {names : String → Rat} {members : String → String → Rat} {v : Rat}
    (hv : e.value (.arithmetic names members) = some v)
    (hclear : settings.simplifier.ReadsClearly e) (mistakes dryRun : Bool) :
    ∃ found : Simplified,
      (ofSettings settings).resultOf (simplify text ⟨mistakes, dryRun, false⟩) = .ok found ∧
        found.root.value (.arithmetic names members) = some v := by
  have hwell : e.IsArithmetic :=
    ⟨(Expr.isPlain_of_parseNormal hread).wellFormed, Expr.noCall_of_value hv⟩
  have hrules : (settings.simplifier.asking mistakes).rules = .standard := rfl
  obtain ⟨root, trace, hrun⟩ := Simplifier.exists_ok_of_run hrules e
  refine ⟨⟨root, trace⟩, (resultOf_simplify_eq_iff hread mistakes dryRun).mpr hrun, ?_⟩
  obtain ⟨trace', hrun'⟩ := Simplifier.exists_run_of_asking hrun
  exact Simplifier.value_of_run rfl hwell hv hclear (Expr.normalize_of_parseNormal hread) hrun'

/-- **The answer to a step.**  A step leads to a tree that the run reaches, or to the one that it
returns, with its arguments in order.  What it shows can be read, and has an answer.  This is the
answer of the whole run if the run from there meets it: so it does if the tree reads as itself and
the rule that applies first below the active node is also the first at the root, and at the last
reduction if the tree reads as one that is shown alike.  It is the answer as well if the arguments
were put in order, the tree reads as itself and no rule applies to it.  In any case the value of the
expression is kept, as long as what is shown on the way reads clearly. -/
theorem answer_of_step {text : String} {e : Expr} (hread : Expr.parseNormal text = .ok e)
    {last : Expr} {steps : List Step}
    (hloop : settings.simplifier.reduceUpTo settings.maxIterations e [] = .ok (last, steps))
    (hfew : steps.length < settings.maxIterations) {mistakes dryRun : Bool} {root : Expr}
    {trace : List Step} (hsimplify : (ofSettings settings).resultOf
      (simplify text ⟨mistakes, dryRun, false⟩) = .ok ⟨root, trace⟩)
    {before after : List Step} {step : Step} (hstep : trace = before ++ step :: after) :
    ∃ t b, step.after = t.text ∧ Expr.parseNormal step.after = .ok b ∧
      (∃ answered, (ofSettings settings).resultOf (answer step.after) = .ok answered) ∧
      (step.change = .rearrangeCoefficients ∧ t = root ∧
          (b = root → root.isSupported = true →
            settings.simplifier.reduceOnce? root [] = .ok none →
            AnswersAgree settings step.after text) ∨
        ∃ p, settings.simplifier.Reaches e before.length t p ∧
          (b = t → settings.simplifier.reduceOnce? t p = .ok none ∨
              settings.simplifier.reduceOnce? t p = settings.simplifier.reduceOnce? t [] →
            settings.simplifier.Meet e b) ∧
          (before.length = steps.length → b.text = t.text → settings.simplifier.Meet e b)) ∧
      (b.isSupported = true → settings.simplifier.Meet e b →
        AnswersAgree settings step.after text) ∧
      ∀ names members v, e.value (.arithmetic names members) = some v →
        settings.simplifier.ReadsClearly e → t.hidesCall = false →
        settings.simplifier.ReadsClearly b →
          root.value (.arithmetic names members) = some v ∧
          ∃ root' trace', (ofSettings settings).resultOf
              (simplify step.after ⟨mistakes, dryRun, false⟩) = .ok ⟨root', trace'⟩ ∧
            root'.value (.arithmetic names members) = some v := by
  have hnormal := Expr.normalize_of_parseNormal hread
  have hplain := Expr.isPlain_of_parseNormal hread
  have hrun := (resultOf_simplify_eq_iff hread mistakes dryRun).mp hsimplify
  have hsupported : e.isSupported = true := by
    by_contra hunknown
    rw [Simplifier.run_of_unsupported (by rw [hnormal]; simpa using hunknown)] at hrun
    cases hrun
    exact absurd hstep (by simp)
  obtain ⟨trace', hrun'⟩ := Simplifier.exists_run_of_asking hrun
  obtain ⟨rfl, -⟩ := Prod.mk.inj
    (Except.ok.inj (hrun'.symm.trans (run_of_reduceUpTo hread hsupported hloop)))
  obtain ⟨t, htext, ht, hreaches, hvalue⟩ :=
    Simplifier.exists_shown_of_trace (s := settings.simplifier) rfl hplain hnormal hrun hstep
  obtain ⟨b, hb, -⟩ := Expr.exists_parseNormal_text ht.wellFormed
  have hreread : t.reread = b := Expr.reread_of_parseNormal hb
  rw [← htext] at hb
  obtain ⟨final, -, -, hanswer⟩ := exists_answer settings hb
  refine ⟨t, b, htext, hb, ⟨_, hanswer⟩, ?_, ?_, ?_⟩
  · rcases hreaches with ⟨hchange, rfl⟩ | ⟨p, hreached⟩
    · refine .inl ⟨hchange, rfl, fun hreads hsupported' hstuck => ?_⟩
      rw [htext, hreads] at hb
      rw [htext]
      exact answersAgree_of_arranged hread hsupported hloop hfew hb hsupported' hstuck
    refine .inr ⟨p, hreached, ?_, fun hlast htext => ?_⟩
    · rintro rfl hfirst
      exact Simplifier.meet_of_same hreached hfirst
    · obtain rfl : last = b :=
        (Simplifier.eq_reread_of_reaches (hlast ▸ hreached) hloop hfew).trans hreread
      rw [← hreread] at htext ⊢
      exact Simplifier.meet_of_ends (hreread ▸ hloop) hfew (Expr.reread_reread htext)
  · exact fun hsupported' hmeet =>
      answersAgree_of_meet hread hsupported hb hsupported' hloop hfew hmeet
  · intro names members v hv hclear hhides hclear'
    have harithmetic : t.IsArithmetic :=
      ⟨ht.wellFormed, Expr.noCall_of_value (hvalue names members v hv hclear)⟩
    have hbvalue : b.value (.arithmetic names members) = some v :=
      hreread ▸ (Expr.reread_of_clear harithmetic hhides (hvalue names members v hv hclear)).2
    obtain ⟨found, hfound, hsame⟩ := value_of_simplify hread hv hclear mistakes dryRun
    obtain rfl : found = ⟨last.rearranged, trace⟩ := Except.ok.inj (hfound.symm.trans hsimplify)
    obtain ⟨found', hfound', hsame'⟩ := value_of_simplify hb hbvalue hclear' mistakes dryRun
    exact ⟨hsame, found'.root, found'.steps, hfound', hsame'⟩

/-- Two of the three numbers in the exponent are added, and then the run goes on below the sum.  A
run that starts with what is shown between the two steps ends with the same power. -/
theorem answer_of_step_powerOfSum :
    let e : Expr := .power (.symbol "y") (.sum [.const 1, .const 2, .const 3])
    let last : Expr := .power (.symbol "y") (.const 6)
    ∃ steps root trace, Expr.parseNormal "y^(1 + 2 + 3)" = .ok e ∧
      Settings.standard.simplifier.reduceUpTo Settings.standard.maxIterations e [] =
        .ok (last, steps) ∧
      steps.map Step.after = ["y^(3 + 3)", "y^6"] ∧
      steps.length < Settings.standard.maxIterations ∧
      fresh.resultOf (simplify "y^(1 + 2 + 3)" ⟨false, false, false⟩) = .ok ⟨root, trace⟩ ∧
      ∃ before after step, trace = before ++ step :: after ∧ step.after = "y^(3 + 3)" ∧
        AnswersAgree .standard step.after "y^(1 + 2 + 3)" := by
  intro e last
  have hread : Expr.parseNormal "y^(1 + 2 + 3)" = .ok e :=
    Expr.parseNormal_of_normalOfText? (by cbv)
  have hread' : Expr.parseNormal "y^(3 + 3)" =
      .ok (.power (.symbol "y") (.sum [.const 3, .const 3])) :=
    Expr.parseNormal_of_normalOfText? (by cbv)
  have hlast : Expr.parseNormal "y^6" = .ok last := Expr.parseNormal_of_normalOfText? (by cbv)
  have hcomes : Settings.standard.simplifier.comesTo last ["y^(3 + 3)", "y^6"] e [] = true := by
    decide +kernel
  have hcomes' : Settings.standard.simplifier.comesTo last ["y^6"]
      (.power (.symbol "y") (.sum [.const 3, .const 3])) [] = true := by decide +kernel
  obtain ⟨steps, hloop, htexts⟩ := Simplifier.reduceUpTo_of_comesTo hcomes hlast
    (show 2 < Settings.standard.maxIterations by decide)
  obtain ⟨steps', hloop', htexts'⟩ := Simplifier.reduceUpTo_of_comesTo hcomes' hlast
    (show 1 < Settings.standard.maxIterations by decide)
  have htwo : steps.length = 2 := by rw [← List.length_map Step.after, htexts]; rfl
  have hone : steps'.length = 1 := by rw [← List.length_map Step.after, htexts']; rfl
  have hfew : steps.length < Settings.standard.maxIterations := htwo.symm ▸ (by decide : 2 < 64)
  have hfew' : steps'.length < Settings.standard.maxIterations := hone.symm ▸ (by decide : 1 < 64)
  have hsimplify := resultOf_simplify_of_reduceUpTo hread (by decide) hloop
  obtain ⟨step, rest, rfl, hshown, -⟩ := List.map_eq_cons_iff.mp htexts
  have hsplit : (Step.opening e :: (step :: rest) ++
      Simplifier.arrangingSteps last last.rearranged) =
        [.opening e] ++ step :: (rest ++ Simplifier.arrangingSteps last last.rearranged) := rfl
  obtain ⟨t, b, -, hb, -, -, hagree, -⟩ := answer_of_step hread hloop hfew hsimplify hsplit
  obtain rfl : b = .power (.symbol "y") (.sum [.const 3, .const 3]) := by
    rw [hshown] at hb
    exact Except.ok.inj (hb.symm.trans hread')
  have hmeet := Simplifier.meet_of_same_end hloop hfew hloop' hfew' (by omega)
  exact ⟨_, _, _, hread, hloop, htexts, hfew, hsimplify, _, _, _, hsplit, hshown,
    hagree (by decide) hmeet⟩

/-! ### A product over four -/

/-- Three twos and `x` over four: the run goes on multiplying in the numerator, but what is read at
the first step that it takes has a four to cancel. -/
theorem answer_of_step_threeTwos :
    ∃ e last steps, Expr.parseNormal "2 * 2 * 2 * x/4" = .ok e ∧
      Settings.standard.simplifier.reduceUpTo Settings.standard.maxIterations e [] =
        .ok (last, steps) ∧
      steps.length < Settings.standard.maxIterations ∧
      ∃ root trace,
        fresh.resultOf (simplify "2 * 2 * 2 * x/4" ⟨false, false, false⟩) = .ok ⟨root, trace⟩ ∧
        ∃ step ∈ trace, fresh.resultOf (answer step.after) = .ok "2x" ∧
          fresh.resultOf (answer "2 * 2 * 2 * x/4") = .ok "8x/4" ∧
          fresh.resultOf (areEqual "2x" "8x/4") = .ok false := by
  have hthree : Expr.parseNormal "2 * 2 * 2 * x/4" =
      .ok (.op .div [.product [.const 2, .const 2, .const 2, .symbol "x"], .const 4] false) :=
    Expr.parseNormal_of_normalOfText? (by cbv)
  have hfour : Expr.parseNormal "4 * 2 * x/4" =
      .ok (.op .div [.product [.const 4, .const 2, .symbol "x"], .const 4] false) :=
    Expr.parseNormal_of_normalOfText? (by cbv)
  have height : Expr.parseNormal "8x/4" =
      .ok (.op .div [.op .mul [.const 8, .symbol "x"] true, .const 4] false) :=
    Expr.parseNormal_of_normalOfText? (by cbv)
  have htwo : Expr.parseNormal "2x" = .ok (.op .mul [.const 2, .symbol "x"] true) :=
    Expr.parseNormal_of_normalOfText? (by cbv)
  have hdiffer : ¬EqualTexts "2x" "8x/4" :=
    EqualityCache.not_equalTexts_of_sameKey? (by cbv) (by decide)
  have hcomes : Settings.standard.simplifier.comesTo
      (.op .div [.op .mul [.const 8, .symbol "x"] true, .const 4] false) ["4 * 2 * x/4", "8x/4"]
      (.op .div [.product [.const 2, .const 2, .const 2, .symbol "x"], .const 4] false) [] =
      true := by decide +kernel
  have hcomes' : Settings.standard.simplifier.comesTo (.op .mul [.const 2, .symbol "x"] true) ["2x"]
      (.op .div [.product [.const 4, .const 2, .symbol "x"], .const 4] false) [] = true := by
    decide +kernel
  have harranged : (Expr.op .div [.op .mul [.const 8, .symbol "x"] true, .const 4]
      false).rearranged.text = "8x/4" := by cbv
  have harranged' : (Expr.op .mul [.const 2, .symbol "x"] true).rearranged.text = "2x" := by cbv
  obtain ⟨steps, hloop, htexts⟩ := Simplifier.reduceUpTo_of_comesTo hcomes height
    (show 2 < Settings.standard.maxIterations by decide)
  obtain ⟨steps', hloop', -⟩ := Simplifier.reduceUpTo_of_comesTo hcomes' htwo
    (show 1 < Settings.standard.maxIterations by decide)
  have htwoSteps : steps.length = 2 := by rw [← List.length_map Step.after, htexts]; rfl
  obtain ⟨step, rest, rfl, hstep, -⟩ := List.map_eq_cons_iff.mp htexts
  have hsimplify := resultOf_simplify_of_reduceUpTo hthree (by decide) hloop
  refine ⟨_, _, _, hthree, hloop, htwoSteps.symm ▸ (by decide : 2 < 64), _, _,
    hsimplify, step, by simp, ?_, ?_, ?_⟩
  · rw [hstep, ← harranged']
    exact resultOf_answer_of_reduceUpTo hfour (by decide) hloop'
  · rw [← harranged]
    exact resultOf_answer_of_reduceUpTo hthree (by decide) hloop
  · exact (gives_false hdiffer _ (faithful_ofSettings .standard Steady)).1

end Session

end AlgebraTutor
