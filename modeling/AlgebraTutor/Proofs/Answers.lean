/-
Answers, and the answers to answers.

The answer to a text is shown by the last tree of a run, with its arguments put in order.  One would
like an answer to be its own answer.  Nothing comes after the arguments are put in order, though: it
is not seen to that the tree is in normal form then, or that still no rule applies to it.  And what
is asked the second time is the text, which may read differently from the tree that it shows.

So an answer is its own answer as long as it reads as the tree it shows, unless a rule applies to
that tree only in its new order.  The general statement is about the text alone.
-/
import AlgebraTutor.Proofs.NormalForms
import AlgebraTutor.Proofs.Rounds
import AlgebraTutor.Proofs.SessionTransparency
import AlgebraTutor.Proofs.Simplification

namespace AlgebraTutor

/-- What finds the answers of a new session. -/
def Settings.simplifier (settings : Settings) : Simplifier :=
  (Session.ofSettings settings).simplifier false

/-! ### Runs on normal trees -/

namespace Expr

theorem normalize_of_parseNormal {text : String} {e : Expr} (h : parseNormal text = .ok e) :
    e.normalize = e := by
  obtain ⟨x, -, rfl⟩ := exists_parse_of_parseNormal h
  exact normalize_normalize x

end Expr

namespace Simplifier

variable {s : Simplifier} {e : Expr}

/-- With the standard rules every run returns a tree. -/
theorem exists_ok_of_run (hs : s.rules = .standard) (e : Expr) :
    ∃ final trace, s.run e = .ok (final, trace) := by
  cases hsupported : e.normalize.isSupported with
  | false => exact ⟨_, _, run_of_unsupported hsupported⟩
  | true =>
      obtain ⟨final, steps, hfinal⟩ := exists_ok_of_reduceUpTo
        (exists_ok_of_reduceOnce?_standard hs) s.maxReductions e.normalize []
      exact ⟨_, _, by rw [run_of_isSupported hsupported, hfinal]; rfl⟩

/-- The trace of a run begins with the tree. -/
theorem opening_of_run (h : e.normalize.isSupported = true) {final : Expr} {step : Step}
    {steps : List Step} (hrun : s.run e = .ok (final, step :: steps)) :
    step = .opening e.normalize := by
  obtain ⟨last, steps', -, -, htrace⟩ := exists_reduceUpTo_of_run h hrun
  exact (List.cons.inj htrace).1

/-- Nothing is left to do: no rule applies, and the arguments are in the order in which they are
shown. -/
structure Settled (s : Simplifier) (e : Expr) : Prop where
  stuck : s.reduceOnce? e [] = .ok none
  key : e.rearranged.key = e.key
  text : e.rearranged.text = e.text

/-- What ends without a reduction ends with the tree as it is read again. -/
theorem reduceUpTo_of_stuck (hstuck : s.reduceOnce? e [] = .ok none)
    (hagain : s.reduceOnce? e.reread [] = .ok none) {k : Nat} (hk : 0 < k) :
    s.reduceUpTo k e [] = .ok (e.reread, []) := by
  obtain ⟨k, rfl⟩ := Nat.exists_eq_succ_of_ne_zero hk.ne'
  rw [reduceUpTo, nextReduction_of_stuck ⟨hstuck, hstuck⟩ hagain]
  rfl

/-- A run without a step leaves a tree as it is read again. -/
theorem stuck_of_reduceUpTo {k : Nat} (hk : 0 < k) {final : Expr}
    (h : s.reduceUpTo k e [] = .ok (final, [])) :
    s.reduceOnce? e [] = .ok none ∧ final = e.reread := by
  obtain ⟨k, rfl⟩ := Nat.exists_eq_succ_of_ne_zero hk.ne'
  rcases reduceUpTo_succ_cases h with ⟨hnone, -⟩ | ⟨_, _, _, -, -, hsteps⟩
  · rcases nextReduction_cases hnone with ⟨_, _, hsome, -⟩ | ⟨hstuck, hsource, -⟩
    · cases hsome
    · exact ⟨hstuck.anywhere, hsource⟩
  · cases hsteps

/-- **A tree that reads as itself is shown alone exactly if it is settled.** -/
theorem run_eq_opening_iff (hlimit : 0 < s.maxReductions) (hnormal : e.normalize = e)
    (hsupported : e.isSupported = true) (hreread : e.reread = e) :
    (∃ final, s.run e = .ok (final, [.opening e]) ∧ final.text = e.text) ↔ s.Settled e := by
  have hnormal' : e.normalize.isSupported = true := hnormal.symm ▸ hsupported
  constructor
  · rintro ⟨final, hfinal, htext⟩
    obtain ⟨last, steps, hloop, rfl, htrace⟩ := exists_reduceUpTo_of_run hnormal' hfinal
    obtain ⟨rfl, harranging⟩ := List.append_eq_nil_iff.mp (List.cons.inj htrace.symm).2
    rw [hnormal] at hloop
    obtain ⟨hstuck, rfl⟩ := stuck_of_reduceUpTo hlimit hloop
    rw [hreread] at harranging htext
    refine ⟨hstuck, ?_, htext⟩
    by_contra hkey
    rw [arrangingSteps, if_neg hkey] at harranging
    cases harranging
  · rintro ⟨hstuck, hkey, htext⟩
    refine ⟨e.rearranged, ?_, htext⟩
    rw [run_of_isSupported hnormal', hnormal,
      reduceUpTo_of_stuck hstuck (hreread.symm ▸ hstuck) hlimit, hreread]
    simp only [Except.map, arrangingSteps, if_pos hkey, List.append_nil]

/-- The last tree with its arguments in order is settled if no rule applies to it, and so it is if
they were in order before. -/
theorem settled_rearranged {last : Expr} {steps : List Step} {k : Nat}
    (hloop : s.reduceUpTo k e [] = .ok (last, steps)) (hfew : steps.length < k)
    (hstuck : last.rearranged = last ∨ s.reduceOnce? last.rearranged [] = .ok none) :
    s.Settled last.rearranged := by
  refine ⟨?_, by rw [Expr.rearranged_rearranged], by rw [Expr.rearranged_rearranged]⟩
  rcases hstuck with hsame | hstuck
  · rw [hsame]
    exact reduceOnce?_of_ends hloop hfew
  · exact hstuck

end Simplifier

namespace Session

/-! ### Answers of new sessions -/

variable (settings : Settings)

theorem oneReading_eq (text : String) : OneReading (· = text) := by
  rintro a b rfl rfl -
  rfl

theorem resultOf_answer_ofSettings (text : String) : (ofSettings settings).resultOf (answer text) =
    Expr.parseNormal text >>= (ofSettings settings).simplified :=
  ((faithful_ofSettings settings (· = text)).answer (oneReading_eq text) rfl).1

theorem resultOf_simplify_ofSettings (text : String) (mistakes dryRun : Bool) :
    (ofSettings settings).resultOf (simplify text ⟨mistakes, dryRun, false⟩) =
      Expr.parseNormal text >>= (ofSettings settings).simplifiedBy mistakes :=
  ((faithful_ofSettings settings (· = text)).simplify (oneReading_eq text) rfl mistakes dryRun).1

variable {settings}

/-- The answer to a text is shown by what its tree simplifies to. -/
theorem resultOf_answer_of_run {text : String} {e : Expr} (hread : Expr.parseNormal text = .ok e)
    {final : Expr} {trace : List Step} (hrun : settings.simplifier.run e = .ok (final, trace)) :
    (ofSettings settings).resultOf (answer text) = .ok final.text := by
  rw [resultOf_answer_ofSettings, hread]
  show (ofSettings settings).simplified e = _
  unfold simplified
  rw [show ((ofSettings settings).simplifier false).run e = _ from hrun]
  rfl

/-- What the run makes of a text, if the loop comes to an end with it. -/
theorem run_of_reduceUpTo {text : String} {e : Expr} (hread : Expr.parseNormal text = .ok e)
    (hsupported : e.isSupported = true) {final : Expr} {steps : List Step}
    (hloop : settings.simplifier.reduceUpTo settings.maxIterations e [] = .ok (final, steps)) :
    settings.simplifier.run e = .ok (final.rearranged,
      .opening e :: steps ++ Simplifier.arrangingSteps final final.rearranged) := by
  have hnormal := Expr.normalize_of_parseNormal hread
  rw [Simplifier.run_of_isSupported (hnormal.symm ▸ hsupported), hnormal,
    show settings.simplifier.reduceUpTo settings.simplifier.maxReductions e [] = _ from hloop]
  rfl

/-- The answer shows the tree that the loop ends with, with its arguments in order. -/
theorem resultOf_answer_of_reduceUpTo {text : String} {e : Expr}
    (hread : Expr.parseNormal text = .ok e) (hsupported : e.isSupported = true) {final : Expr}
    {steps : List Step}
    (hloop : settings.simplifier.reduceUpTo settings.maxIterations e [] = .ok (final, steps)) :
    (ofSettings settings).resultOf (answer text) = .ok final.rearranged.text :=
  resultOf_answer_of_run hread (run_of_reduceUpTo hread hsupported hloop)

variable (settings) in
/-- Every text that can be read has an answer. -/
theorem exists_answer {text : String} {e : Expr} (hread : Expr.parseNormal text = .ok e) :
    ∃ final trace, settings.simplifier.run e = .ok (final, trace) ∧
      (ofSettings settings).resultOf (answer text) = .ok final.text := by
  obtain ⟨final, trace, hrun⟩ := Simplifier.exists_ok_of_run (s := settings.simplifier) rfl e
  exact ⟨final, trace, hrun, resultOf_answer_of_run hread hrun⟩

/-- Every text with an answer can be read. -/
theorem exists_run_of_answer {text answered : String}
    (h : (ofSettings settings).resultOf (answer text) = .ok answered) :
    ∃ e final trace, Expr.parseNormal text = .ok e ∧
      settings.simplifier.run e = .ok (final, trace) ∧ final.text = answered := by
  rw [resultOf_answer_ofSettings] at h
  cases hread : Expr.parseNormal text with
  | error error =>
      rw [hread] at h
      cases h
  | ok e =>
      obtain ⟨final, trace, hrun, hanswer⟩ := exists_answer settings hread
      rw [resultOf_answer_ofSettings, h] at hanswer
      exact ⟨e, final, trace, rfl, hrun, (Except.ok.inj hanswer).symm⟩

/-- What is shown as an answer can be read. -/
theorem exists_parseNormal_of_run {e final : Expr} {trace : List Step} (he : e.IsPlain)
    (hrun : settings.simplifier.run e = .ok (final, trace)) :
    ∃ b, Expr.parseNormal final.text = .ok b := by
  have hplain := Simplifier.isPlain_of_run rfl he hrun
  obtain ⟨b, hb, -⟩ := Expr.exists_parseNormal_text hplain.wellFormed
  exact ⟨b, hb⟩

/-- What a simplification shows is what the run returns. -/
theorem resultOf_simplify_eq_iff {text : String} {e : Expr} (hread : Expr.parseNormal text = .ok e)
    (mistakes dryRun : Bool) {found : Simplified} :
    (ofSettings settings).resultOf (simplify text ⟨mistakes, dryRun, false⟩) = .ok found ↔
      (settings.simplifier.asking mistakes).run e = .ok (found.root, found.steps) := by
  rw [resultOf_simplify_ofSettings, hread]
  show (((settings.simplifier.asking mistakes).run e).map _) = _ ↔ _
  cases (settings.simplifier.asking mistakes).run e with
  | error error => simp [Except.map]
  | ok result =>
      obtain ⟨root, steps⟩ := result
      obtain ⟨root', steps'⟩ := found
      simp [Except.map]

/-- What a text simplifies to, and how, if the loop comes to an end with it. -/
theorem resultOf_simplify_of_reduceUpTo {text : String} {e : Expr}
    (hread : Expr.parseNormal text = .ok e) (hsupported : e.isSupported = true) {final : Expr}
    {steps : List Step}
    (hloop : settings.simplifier.reduceUpTo settings.maxIterations e [] = .ok (final, steps)) :
    (ofSettings settings).resultOf (simplify text ⟨false, false, false⟩) =
      .ok ⟨final.rearranged,
        .opening e :: steps ++ Simplifier.arrangingSteps final final.rearranged⟩ :=
  (resultOf_simplify_eq_iff hread false false).mpr (run_of_reduceUpTo hread hsupported hloop)

section Alone

variable {shown : String} {b : Expr} (hb : Expr.parseNormal shown = .ok b)

include hb

/-- A text with an unknown function is answered by the tree as it is. -/
theorem resultOf_answer_of_unsupported (hunknown : b.isSupported = false) :
    (ofSettings settings).resultOf (answer shown) = .ok b.text := by
  have hnormal := Expr.normalize_of_parseNormal hb
  have hrun := Simplifier.run_of_unsupported (s := settings.simplifier) (hnormal.symm ▸ hunknown)
  rw [hnormal] at hrun
  exact resultOf_answer_of_run hb hrun

variable (hlimit : 0 < settings.maxIterations) (hsupported : b.isSupported = true)

include hlimit hsupported

/-- What reads as a settled tree that is shown like this is its own answer. -/
theorem resultOf_answer_of_settled (htext : b.text = shown)
    (hsettled : settings.simplifier.Settled b) :
    (ofSettings settings).resultOf (answer shown) = .ok shown := by
  have hreread := Expr.reread_of_parseNormal (htext.symm ▸ hb)
  obtain ⟨root, hrun, hsame⟩ := (Simplifier.run_eq_opening_iff hlimit
    (Expr.normalize_of_parseNormal hb) hsupported hreread).mpr hsettled
  rw [resultOf_answer_of_run hb hrun, hsame, htext]

/-- **A text is simplified without a step exactly if it reads as a settled tree that is shown like
this.** -/
theorem simplify_alone_iff :
    (∃ root, (ofSettings settings).resultOf (simplify shown ⟨false, false, false⟩) =
        .ok ⟨root, [.plain .givenExpression shown shown]⟩ ∧ root.text = shown) ↔
      b.text = shown ∧ settings.simplifier.Settled b := by
  have hnormal := Expr.normalize_of_parseNormal hb
  have hsettled (htext : b.text = shown) := Simplifier.run_eq_opening_iff (s := settings.simplifier)
    hlimit hnormal hsupported (Expr.reread_of_parseNormal (htext.symm ▸ hb))
  constructor
  · rintro ⟨root, hroot, hsame⟩
    have hrun := (resultOf_simplify_eq_iff hb false false).mp hroot
    have hfirst := Simplifier.opening_of_run (hnormal.symm ▸ hsupported) hrun
    rw [hnormal] at hfirst
    have htext : b.text = shown := (congrArg Step.before hfirst).symm
    exact ⟨htext, (hsettled htext).mp ⟨root, hfirst ▸ hrun, hsame.trans htext.symm⟩⟩
  · rintro ⟨htext, hb'⟩
    obtain ⟨root, hrun, hsame⟩ := (hsettled htext).mpr hb'
    refine ⟨root, (resultOf_simplify_eq_iff hb false false).mpr ?_, hsame.trans htext⟩
    show settings.simplifier.run b = _
    rw [hrun, Step.opening, htext]

end Alone

/-- **When an answer is its own answer.**  An answer can always be read, and has an answer itself.
It is simplified without a step exactly if it reads as a tree that is shown like this and is
settled, and it is its own answer then.  So it is if the tree that showed it reads as itself, and is
the tree to which no rule applied, or another one to which none does. -/
theorem answer_again (hlimit : 0 < settings.maxIterations) {text answered : String} {e : Expr}
    (hread : Expr.parseNormal text = .ok e)
    (hanswer : (ofSettings settings).resultOf (answer text) = .ok answered) :
    ∃ b, Expr.parseNormal answered = .ok b ∧
      (∃ again, (ofSettings settings).resultOf (answer answered) = .ok again) ∧
      (b.isSupported = false → (ofSettings settings).resultOf (answer answered) = .ok b.text) ∧
      (b.isSupported = true →
        ((∃ root, (ofSettings settings).resultOf (simplify answered ⟨false, false, false⟩) =
            .ok ⟨root, [.plain .givenExpression answered answered]⟩ ∧ root.text = answered) ↔
          b.text = answered ∧ settings.simplifier.Settled b) ∧
        (b.text = answered → settings.simplifier.Settled b →
          (ofSettings settings).resultOf (answer answered) = .ok answered)) ∧
      ∀ final steps, e.isSupported = true →
        settings.simplifier.reduceUpTo settings.maxIterations e [] = .ok (final, steps) →
        steps.length < settings.maxIterations → final.rearranged.reread = final.rearranged →
        (final.rearranged = final ∨
          settings.simplifier.reduceOnce? final.rearranged [] = .ok none) →
        (ofSettings settings).resultOf (answer answered) = .ok answered := by
  obtain ⟨e', last, trace, hread', hrun, rfl⟩ := exists_run_of_answer hanswer
  obtain rfl : e' = e := Except.ok.inj (hread'.symm.trans hread)
  obtain ⟨b, hb⟩ := exists_parseNormal_of_run (Expr.isPlain_of_parseNormal hread) hrun
  obtain ⟨again, -, -, hagain⟩ := exists_answer settings hb
  refine ⟨b, hb, ⟨_, hagain⟩, resultOf_answer_of_unsupported hb, fun hsupported =>
    ⟨simplify_alone_iff hb hlimit hsupported, resultOf_answer_of_settled hb hlimit hsupported⟩, ?_⟩
  intro final steps he hloop hfew hreads hstuck
  have hsame : final.rearranged.text = last.text :=
    Except.ok.inj ((resultOf_answer_of_reduceUpTo hread he hloop).symm.trans hanswer)
  obtain rfl : b = final.rearranged := by
    rw [← hreads, Expr.reread_of_parseNormal (hsame.symm ▸ hb)]
  cases hsupported : final.rearranged.isSupported with
  | false => rw [resultOf_answer_of_unsupported hb hsupported, hsame]
  | true =>
      exact resultOf_answer_of_settled hb hlimit hsupported hsame
        (Simplifier.settled_rearranged hloop hfew hstuck)

theorem parseNormal_onePlusTwo : Expr.parseNormal "1+2" = .ok (.sum [.const 1, .const 2]) :=
  Expr.parseNormal_of_normalOfText? (by cbv)

/-- The sum of one and two is three, and three is its own answer. -/
theorem answer_again_onePlusTwo : 0 < Settings.standard.maxIterations ∧
    Expr.parseNormal "1+2" = .ok (.sum [.const 1, .const 2]) ∧
    fresh.resultOf (answer "1+2") = .ok "3" ∧ fresh.resultOf (answer "3") = .ok "3" := by
  have hread := parseNormal_onePlusTwo
  obtain ⟨steps, hloop, htexts⟩ := Simplifier.reduceUpTo_onePlusTwo
  have hone : steps.length = 1 := by rw [← List.length_map Step.after, htexts]; rfl
  have hanswer : fresh.resultOf (answer "1+2") = .ok "3" := by
    rw [← Simplifier.text_three]
    exact @resultOf_answer_of_reduceUpTo .standard _ _ hread (by decide) _ _ hloop
  obtain ⟨b, -, -, -, -, hagain⟩ := answer_again (by decide) hread hanswer
  exact ⟨by decide, hread, hanswer, hagain (.const 3) steps (by decide) hloop
    (hone.symm ▸ (by decide : 1 < 64)) Simplifier.reread_three (.inl rfl)⟩

/-- A product with a minus sign before it, with its factors as they are written. -/
theorem parse_minusProduct : Expr.parse "-(x * 2)" =
    .ok (.minus (.product [.symbol "x", .const 2])) := Expr.parse_of_ofText? (by cbv)

/-- The same with the factors in order. -/
theorem parse_minusOrdered : Expr.parse "-(2x)" =
    .ok (.minus (.op .mul [.const 2, .symbol "x"] true)) := Expr.parse_of_ofText? (by cbv)

theorem parse_negativeProduct : Expr.parse "-2x" =
    .ok (.op .mul [.minus (.const 2), .symbol "x"] true) := Expr.parse_of_ofText? (by cbv)

/-- Two times `x` with a minus sign before it, as it is written and as it is shown when the factors
are in order. -/
theorem answer_again_minusProduct :
    (∃ e final, Expr.parseNormal "-(x * 2)" = .ok e ∧
      Settings.standard.simplifier.reduceUpTo defaultMaxReductions e [] = .ok (final, [])) ∧
    fresh.resultOf (answer "-(x * 2)") = .ok "-(2x)" ∧
    fresh.resultOf (answer "-(2x)") = .ok "-2x" := by
  have hwritten :
      Expr.parseNormal "-(x * 2)" = .ok (.minus (.product [.symbol "x", .const 2])) :=
    Expr.parseNormal_of_parse parse_minusProduct
  have hordered : Expr.parseNormal "-(2x)" = .ok (.op .mul [.const (-2), .symbol "x"] true) :=
    Expr.parseNormal_of_parse parse_minusOrdered
  have hnegative : Expr.parseNormal "-2x" = .ok (.op .mul [.const (-2), .symbol "x"] true) :=
    Expr.parseNormal_of_parse parse_negativeProduct
  have hstuck : fresh.settings.simplifier.comesTo (.minus (.product [.symbol "x", .const 2])) []
      (.minus (.product [.symbol "x", .const 2])) [] = true := by decide +kernel
  have hstuck' : fresh.settings.simplifier.comesTo (.op .mul [.const (-2), .symbol "x"] true) []
      (.op .mul [.const (-2), .symbol "x"] true) [] = true := by decide +kernel
  have htext : (Expr.minus (.product [.symbol "x", .const 2])).text = "-(x * 2)" := by cbv
  have htext' : (Expr.op .mul [.const (-2), .symbol "x"] true).text = "-2x" := by cbv
  have harranged : (Expr.minus (.product [.symbol "x", .const 2])).rearranged.text = "-(2x)" := by
    cbv
  have harranged' : (Expr.op .mul [.const (-2), .symbol "x"] true).rearranged.text = "-2x" := by
    cbv
  obtain ⟨steps, hloop, htexts⟩ := Simplifier.reduceUpTo_of_comesTo hstuck
    (htext.symm ▸ hwritten) (show 0 < defaultMaxReductions by decide)
  obtain ⟨steps', hloop', -⟩ := Simplifier.reduceUpTo_of_comesTo hstuck'
    (htext'.symm ▸ hnegative) (show 0 < defaultMaxReductions by decide)
  obtain rfl := List.map_eq_nil_iff.mp htexts
  refine ⟨⟨_, _, hwritten, hloop⟩, ?_, ?_⟩
  · rw [← harranged]
    exact @resultOf_answer_of_reduceUpTo .standard _ _ hwritten (by decide) _ _ hloop
  · rw [← harranged']
    exact @resultOf_answer_of_reduceUpTo .standard _ _ hordered (by decide) _ _ hloop'

end Session

end AlgebraTutor
