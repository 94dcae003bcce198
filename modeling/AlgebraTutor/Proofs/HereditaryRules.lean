/-
What the standard rules build.

The rules put together what they found with constants, operators and calls of the functions they
know, and so do the slips that go with them.  From trees with a hereditary property, such as being
well-formed, they therefore make trees with that property: one lemma for each group of rules, and
from these one for all applications of the standard rules.
-/
import AlgebraTutor.Proofs.Hereditary
import AlgebraTutor.Proofs.RuleValue

namespace AlgebraTutor

open AlgebraTutor.Expr

/-- If there is a tree, it has the property. -/
def Has (P : Expr → Prop) (o : Option Expr) : Prop := ∀ t, o = some t → P t

/-- From bindings of trees that have the property a tree is built that has it, if one is, whatever
node was matched. -/
def Builder.Preserves (P : Expr → Prop) (build : Builder) : Prop :=
  ∀ node b, b.All P → Has P (build node b)

/-- The rule builds trees with the property from such trees, and so do its missteps. -/
structure RuleSpec.Preserves (P : Expr → Prop) (spec : RuleSpec) : Prop where
  build : Builder.Preserves P spec.build?
  misstep : ∀ misstep ∈ spec.missteps, Builder.Preserves P misstep.build

/-- What the rule makes of a node has the property, and so has what its missteps make of it. -/
structure Application.Has (P : Expr → Prop) (A : Application) : Prop where
  after : P A.after
  mistake : ∀ mistake ∈ A.mistakes, P mistake.2

section Has

variable {P : Expr → Prop}

theorem has_none : Has P none := fun _ h => nomatch h

theorem has_some {t : Expr} (ht : P t) : Has P (some t) := by
  intro u hu
  cases hu
  exact ht

theorem has_bind {α : Type} {o : Option α} {f : α → Option Expr}
    (h : ∀ a, o = some a → Has P (f a)) : Has P (o >>= f) := by
  intro t ht
  obtain ⟨a, ha, ht⟩ := Option.bind_eq_some_iff.mp ht
  exact h a ha t ht

theorem has_map {α : Type} {o : Option α} {f : α → Expr} (h : ∀ a, o = some a → P (f a)) :
    Has P (o.map f) := by
  intro t ht
  obtain ⟨a, ha, rfl⟩ := Option.map_eq_some_iff.mp ht
  exact h a ha

theorem has_ite {c : Prop} [Decidable c] {o o' : Option Expr} (h : Has P o) (h' : Has P o') :
    Has P (if c then o else o') := by
  split
  · exact h
  · exact h'

end Has

namespace RuleSpec

variable {P : Expr → Prop}

/-- A rule between two patterns builds what its right pattern is made of. -/
theorem preserves_structural (hP : Hereditary P) {functions : List String}
    (hcalls : Allows P functions) {change : Change} {lhs rhs : Pattern}
    (h : rhs.isMadeOf functions = true) : (structural change lhs rhs).Preserves P where
  build := fun _ _ hb _ ht => Pattern.of_substitute? hP hcalls hb h ht
  misstep := fun _ h => nomatch h

theorem preserves_computed {change : Change} {lhs : Pattern} {build : Builder}
    (h : build.Preserves P) : (computed change lhs build).Preserves P where
  build := h
  misstep := fun _ h => nomatch h

theorem Preserves.withMissteps {spec : RuleSpec} (hspec : spec.Preserves P)
    {missteps : List Misstep} (h : ∀ misstep ∈ missteps, misstep.build.Preserves P) :
    (spec.withMissteps missteps).Preserves P where
  build := hspec.build
  misstep := h

end RuleSpec

/-! ### Applications of a rule -/

namespace Rule

variable {P : Expr → Prop} (hP : Hereditary P) {rule : Rule} (hrule : rule.Preserves P)
  {context : Context} {withMistakes : Bool} {e : Expr} (he : P e)

include hP hrule he

theorem has_of_build? {ms : List Match} (hms : rule.findMatches context e = .ok ms)
    {found : Match} (hfound : found ∈ ms) {A : Application}
    (hA : rule.build? withMistakes e found = some A) : A.Has P := by
  obtain ⟨hb, hreplace⟩ := all_of_mem_findMatches hP hms he hfound
  unfold build? at hA
  obtain ⟨new, hnew, hA⟩ := Option.bind_eq_some_iff.mp hA
  simp only at hA
  split at hA
  · cases hA
  · cases hA
    refine ⟨hreplace new (hrule.build _ _ hb _ hnew), fun mistake hmistake => ?_⟩
    dsimp only at hmistake
    split at hmistake
    · obtain ⟨misstep, hmisstep, hmistake⟩ := List.mem_filterMap.mp hmistake
      obtain ⟨wrong, hwrong, rfl⟩ := Option.map_eq_some_iff.mp hmistake
      exact hreplace wrong (hrule.misstep misstep hmisstep _ _ hb _ hwrong)
    · cases hmistake

theorem has_of_firstApplication? {A : Application}
    (hA : rule.firstApplication? context withMistakes e = .ok (some A)) : A.Has P := by
  obtain ⟨ms, found, hms, hfound, hbuild⟩ := exists_match_of_firstApplication? hA
  exact has_of_build? hP hrule he hms hfound hbuild

theorem has_of_mem_applications {As : List Application}
    (hAs : rule.applications context withMistakes e = .ok As) {A : Application} (hA : A ∈ As) :
    A.Has P := by
  obtain ⟨ms, found, hms, hfound, hbuild⟩ := exists_match_of_mem_applications hAs hA
  exact has_of_build? hP hrule he hms hfound hbuild

end Rule

/-! ### Rules without functions -/

section Algebraic

variable {P : Expr → Prop} (hP : Hereditary P)

include hP

theorem Decimals.preserves : ∀ spec ∈ Decimals.rules, spec.Preserves P := by
  refine List.forall_mem_singleton.mpr (RuleSpec.preserves_computed fun _ b _ => ?_)
  exact has_bind fun q _ => has_ite has_none (has_some (hP.ofRat q))

theorem Distribution.preserves : ∀ spec ∈ Distribution.rules, spec.Preserves P := by
  have hstructural {change : Change} {lhs rhs : Pattern} (h : rhs.isMadeOf [] = true) :
      (RuleSpec.structural change lhs rhs).Preserves P :=
    RuleSpec.preserves_structural hP (allows_nil P) h
  have hnegated : Builder.Preserves P negatedFirstTermOnly := fun _ b hb =>
    has_bind fun e he => has_bind fun f hf =>
      has_some (hP.sum (hP.negated (hb _ e he)) (hb _ f hf))
  simp only [Distribution.rules, List.forall_mem_cons, List.not_mem_nil, false_imp_iff,
    implies_true, and_true]
  exact ⟨hstructural rfl, (hstructural rfl).withMissteps (List.forall_mem_singleton.mpr hnegated)⟩

theorem Distribution.expansions_preserve :
    ∀ spec ∈ Distribution.expansions, spec.Preserves P := by
  have hsquared : Builder.Preserves P squaredEachTerm := fun _ b hb =>
    has_bind fun e he => has_bind fun f hf => has_some
      (hP.sum (hP.power (hb _ e he) (hP.const 2)) (hP.power (hb _ f hf) (hP.const 2)))
  refine List.forall_mem_singleton.mpr (.withMissteps ?_ (List.forall_mem_singleton.mpr hsquared))
  exact RuleSpec.preserves_structural hP (allows_nil P) rfl

theorem Identity.preserves : ∀ spec ∈ Identity.rules, spec.Preserves P := by
  simp only [Identity.rules, List.forall_mem_cons, List.not_mem_nil, false_imp_iff,
    implies_true, and_true]
  refine ⟨?_, ?_, ?_, ?_, ?_, ?_, ?_, ?_, ?_, ?_, ?_, ?_, ?_, ?_, ?_, ?_⟩
  any_goals exact RuleSpec.preserves_structural hP (allows_nil P) rfl
  refine RuleSpec.preserves_computed fun _ b _ => ?_
  exact has_bind fun e _ => has_ite has_none (has_some (hP.const 0))

theorem Cancelling.preserves : ∀ spec ∈ Cancelling.rules, spec.Preserves P := by
  simp only [Cancelling.rules, List.forall_mem_cons, List.not_mem_nil, false_imp_iff,
    implies_true, and_true]
  refine ⟨?_, ?_, ?_, ?_, ?_, ?_, ?_⟩
  any_goals exact RuleSpec.preserves_structural hP (allows_nil P) rfl
  · refine RuleSpec.preserves_computed fun _ b hb => ?_
    exact has_bind fun p _ => has_bind fun e he =>
      has_some (hP.power (hb _ e he) (hP.ofRat _))
  · refine RuleSpec.preserves_computed fun _ b hb => ?_
    refine has_bind fun e he => has_bind fun p _ => has_bind fun q _ => ?_
    have hpower (r : Rat) : P (Expr.power e (Expr.ofRat r)) := hP.power (hb _ e he) (hP.ofRat r)
    exact has_ite (has_some (hpower _)) (has_some (hP.quotient (hP.const 1) (hpower _)))

theorem Collecting.preserves : ∀ spec ∈ Collecting.rules, spec.Preserves P := by
  have hscaled (q : Rat) (b : Bindings) (hb : b.All P) : Has P (scaled q b) :=
    has_bind fun e he => has_some (hP.product (hP.ofRat q) (hb _ e he))
  have hmultiplied : Builder.Preserves P multipliedExponents := fun _ b hb =>
    has_bind fun e he => has_bind fun m hm => has_bind fun n hn =>
      has_some (hP.power (hb _ e he) (hP.product (hb _ m hm) (hb _ n hn)))
  simp only [Collecting.rules, List.forall_mem_cons, List.not_mem_nil, false_imp_iff,
    implies_true, and_true]
  refine ⟨?_, ?_, ?_, ?_, ?_, ?_, ?_⟩
  any_goals exact RuleSpec.preserves_structural hP (allows_nil P) rfl
  · exact RuleSpec.preserves_computed fun _ b hb =>
      has_bind fun p _ => has_bind fun q _ => hscaled _ b hb
  · exact RuleSpec.preserves_computed fun _ b hb => has_bind fun p _ => hscaled _ b hb
  · exact RuleSpec.preserves_computed fun _ b hb => has_bind fun p _ => hscaled _ b hb
  · exact RuleSpec.preserves_computed fun _ b hb => has_bind fun p _ => has_bind fun e he =>
      has_some (hP.power (hb _ e he) (hP.ofRat _))
  · refine .withMissteps ?_ (List.forall_mem_singleton.mpr hmultiplied)
    exact RuleSpec.preserves_structural hP (allows_nil P) rfl

/-! Arithmetic makes numbers, except for the quotients that some powers and one slip come to. -/

theorem Arithmetic.preserves_add : Builder.Preserves P Arithmetic.add := fun _ _ _ =>
  has_map fun q _ => hP.ofRat q

theorem Arithmetic.preserves_multiply : Builder.Preserves P Arithmetic.multiply := fun _ _ _ =>
  has_map fun q _ => hP.ofRat q

theorem Arithmetic.preserves_power : Builder.Preserves P Arithmetic.power := fun _ _ _ =>
  has_bind fun _ _ => has_bind fun _ _ => has_ite has_none (has_ite (has_some (hP.ofRat _))
    (has_ite has_none (has_some (hP.quotient (hP.const 1) (hP.ofRat _)))))

theorem Arithmetic.preserves_addedDenominators :
    Builder.Preserves P Arithmetic.addedDenominators := fun _ _ _ =>
  has_bind fun _ _ => has_bind fun _ _ => has_bind fun _ _ => has_bind fun _ _ =>
    has_ite has_none (has_some (hP.quotient (hP.const _) (hP.const _)))

theorem Arithmetic.preserves : ∀ spec ∈ Arithmetic.rules, spec.Preserves P := by
  have hadd := preserves_add hP
  have hmultiply := preserves_multiply hP
  simp only [Arithmetic.rules, List.forall_mem_cons, List.not_mem_nil, false_imp_iff,
    implies_true, and_true]
  refine ⟨?_, ?_, ?_, ?_, ?_, ?_, ?_, ?_⟩
  · refine (RuleSpec.preserves_computed hadd).withMissteps ?_
    simp only [sumSlips, List.forall_mem_cons, List.not_mem_nil, false_imp_iff, implies_true,
      and_true]
    refine ⟨fun _ b _ => has_map fun q _ => hP.ofRat _, fun _ b _ => has_map fun q _ => hP.ofRat _,
      hmultiply, fun _ b _ => ?_⟩
    exact has_bind fun p _ => has_bind fun q _ => has_ite has_none (has_some (hP.ofRat _))
  · refine (RuleSpec.preserves_computed hmultiply).withMissteps ?_
    simp only [productSlips, List.forall_mem_cons, List.not_mem_nil, false_imp_iff, implies_true,
      and_true]
    exact ⟨fun _ b _ => has_bind fun p _ => has_bind fun q _ => has_some (hP.ofRat _),
      fun _ b _ => has_bind fun p _ => has_bind fun q _ => has_some (hP.ofRat _),
      hadd, fun _ b _ => has_map fun q _ => hP.ofRat q⟩
  · refine (RuleSpec.preserves_computed fun _ b _ => ?_).withMissteps
      (List.forall_mem_singleton.mpr hmultiply)
    exact has_bind fun q _ => has_ite (has_some (hP.const q)) has_none
  · exact RuleSpec.preserves_computed fun _ b _ => has_bind fun _ _ => has_bind fun _ _ =>
      has_bind fun q _ => has_some (hP.ofRat q)
  · exact (RuleSpec.preserves_computed (preserves_power hP)).withMissteps
      (List.forall_mem_singleton.mpr hmultiply)
  · refine (RuleSpec.preserves_computed fun _ b _ => ?_).withMissteps
      (List.forall_mem_singleton.mpr (preserves_addedDenominators hP))
    exact has_bind fun p _ => has_bind fun q _ => has_some (hP.ofRat _)
  · exact RuleSpec.preserves_computed fun _ b _ => has_bind fun p _ => has_bind fun q _ =>
      has_some (hP.ofRat _)
  · exact RuleSpec.preserves_computed fun _ b _ => has_bind fun p _ => has_bind fun q _ =>
      has_some (hP.ofRat _)

end Algebraic

/-! ### Rules with functions -/

theorem Trigonometry.has_get? {P : Expr → Prop} {values : Values Expr}
    (h : P values.sine ∧ P values.cosine ∧ ∀ t, values.tangent = some t → P t) (ratio : Ratio) :
    Has P (values.get? ratio) := by
  obtain ⟨hsine, hcosine, htangent⟩ := h
  cases ratio with
  | sine => exact has_some hsine
  | cosine => exact has_some hcosine
  | tangent => exact htangent

section Functions

variable {P : Expr → Prop} (hP : Hereditary P) (hcalls : Allows P supportedFunctions)

include hP hcalls

theorem Logarithms.preserves : ∀ spec ∈ Logarithms.rules, spec.Preserves P := by
  simp only [Logarithms.rules, List.forall_mem_cons, List.not_mem_nil, false_imp_iff,
    implies_true, and_true]
  refine ⟨?_, ?_, ?_, ?_, ?_, ?_⟩
  any_goals exact RuleSpec.preserves_structural hP hcalls rfl
  exact RuleSpec.preserves_computed fun _ b _ => has_bind fun base _ => has_bind fun value _ =>
    has_ite has_none (has_ite (has_some (hP.const _)) has_none)

theorem root_of_const (radicand index : Rat) :
    P (.call "nthRoot" [.const radicand, .const index]) :=
  hcalls "nthRoot" (by decide) _ (by simp [hP.const])

/-- The known values of the trigonometric functions are put together from numbers and roots. -/
theorem Trigonometry.of_table : ∀ entry ∈ table,
    P entry.2.sine ∧ P entry.2.cosine ∧ ∀ t, entry.2.tangent = some t → P t := by
  have hroot (radicand : Rat) := root_of_const hP hcalls radicand 2
  have hover (radicand divisor : Rat) : P (rootOver radicand divisor) :=
    hP.quotient (hroot radicand) (hP.const divisor)
  have hminus (radicand divisor : Rat) : P (minusRootOver radicand divisor) :=
    hP.quotient (hP.minus (hroot radicand)) (hP.const divisor)
  have hhalf : P half := hP.quotient (hP.const 1) (hP.const 2)
  have hminusHalf : P minusHalf := hP.quotient (hP.const _) (hP.const 2)
  have hthree : P rootThree := hroot 3
  simp [table, hP.const, hover, hminus, hhalf, hminusHalf, hthree, hP.minus hthree]

theorem Trigonometry.preserves_evaluate : Builder.Preserves P Trigonometry.evaluate := by
  intro node b _
  unfold evaluate
  split
  · refine has_bind fun ratio _ => has_bind fun e _ => has_bind fun turns _ =>
      has_bind fun values hvalues => ?_
    obtain ⟨entry, hentry, rfl⟩ := Option.map_eq_some_iff.mp hvalues
    exact has_get? (of_table hP hcalls entry (List.mem_of_find?_eq_some hentry)) ratio
  · exact has_none

theorem Functions.preserves : ∀ spec ∈ Functions.rules, spec.Preserves P := by
  have hratio {lhs : Pattern} :
      (RuleSpec.computed .evaluateTrigFunction lhs Trigonometry.evaluate).Preserves P :=
    RuleSpec.preserves_computed (Trigonometry.preserves_evaluate hP hcalls)
  simp only [Functions.rules, List.forall_mem_cons, List.not_mem_nil, false_imp_iff,
    implies_true, and_true]
  refine ⟨hratio, hratio, hratio, ?_, ?_, ?_⟩
  any_goals exact RuleSpec.preserves_structural hP hcalls rfl
  exact RuleSpec.preserves_computed fun _ b _ => has_bind fun q _ => has_some (hP.ofRat _)

theorem Roots.powerRules_preserve : ∀ spec ∈ Roots.powerRules, spec.Preserves P := by
  simp only [Roots.powerRules, List.forall_mem_cons, List.not_mem_nil, false_imp_iff,
    implies_true, and_true]
  refine ⟨?_, ?_, ?_, ?_⟩
  any_goals exact RuleSpec.preserves_structural hP hcalls rfl
  refine RuleSpec.preserves_computed fun _ b hb => ?_
  refine has_bind fun exponent _ => has_bind fun index _ => has_ite ?_ has_none
  exact has_bind fun e he => has_some (hP.power (hb _ e he) (hP.const _))

theorem Roots.constantRules_preserve : ∀ spec ∈ Roots.constantRules, spec.Preserves P := by
  refine List.forall_mem_singleton.mpr (RuleSpec.preserves_computed fun _ b _ => ?_)
  refine has_bind fun radicand _ => has_bind fun index _ => ?_
  dsimp only
  split
  · exact has_some (hP.const _)
  · refine has_ite has_none (has_ite has_none (has_some ?_))
    exact hP.product (hP.const _) (root_of_const hP hcalls _ _)

end Functions

/-! ### All standard rules -/

namespace RuleSet

variable {P : Expr → Prop} (hP : Hereditary P)

include hP

/-- **The standard rules preserve every hereditary property** that trees with calls of the known
functions may have. -/
theorem preserves_of_mem_standard (hcalls : Allows P supportedFunctions) {rule : Rule}
    (hrule : rule ∈ standard.rules) : rule.Preserves P := by
  obtain ⟨group, hgroup, hmem⟩ := List.mem_flatMap.mp hrule
  obtain ⟨plain, hplain, -, hrules⟩ := exists_group_of_mem_identifyGroups hgroup
  have hspec := hrules rule hmem
  suffices h : ∀ plain ∈ standardGroups, ∀ spec ∈ plain.rules, spec.Preserves P from
    h plain hplain _ hspec
  simp only [standardGroups, List.forall_mem_cons, List.not_mem_nil, false_imp_iff,
    implies_true, and_true]
  exact ⟨Decimals.preserves hP, Logarithms.preserves hP hcalls, Identity.preserves hP,
    Cancelling.preserves hP, Collecting.preserves hP, Functions.preserves hP hcalls,
    Distribution.preserves hP, Roots.powerRules_preserve hP hcalls,
    Roots.constantRules_preserve hP hcalls, Distribution.expansions_preserve hP,
    Arithmetic.preserves hP⟩

end RuleSet

end AlgebraTutor
