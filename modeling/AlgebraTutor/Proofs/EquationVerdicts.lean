/-
What a verdict on a step between two equations rests on.

If both sides have changed, the verdict comes from what explains the two changes, and the steps on
each side are told from where its change leads.  So the verdict that the same was done to both sides
is justified as far as answers are, and the operations that it names are those that explain the
changes.

What was asked of the session on the way is remembered.  So all of this can be put in terms of what
the session tells afterwards.
-/
import AlgebraTutor.Proofs.SideChanges
import AlgebraTutor.Proofs.StepAnswers
import AlgebraTutor.Proofs.StepVerdicts

namespace AlgebraTutor

open Session

namespace Assessment

/-! ### The verdicts on the steps of one side -/

/-- The verdicts on the steps from one text to another say that nothing changed, tell a path or say
that none was found.  The answer that they speak of is that of the first text. -/
structure Graded (F : Facts) (settings : Settings) (start goal : String) (infos : List StepInfo) :
    Prop where
  told : F.equal start goal ∧ infos = [.unchanged start goal] ∨
    ∃ answer, F.answers start answer ∧
      ((∃ path last, TellsPath F settings start goal answer path last infos) ∨
        ∃ info, infos = [info] ∧ TellsNothing F start goal answer info)
  untagged : ∀ info ∈ infos, info.Untagged

theorem Graded.mono {F G : Facts} (hFG : F.Implies G) {settings : Settings} {start goal : String}
    {infos : List StepInfo} (h : Graded F settings start goal infos) :
    Graded G settings start goal infos := by
  refine ⟨?_, h.untagged⟩
  rcases h.told with ⟨hequal, hinfos⟩ | ⟨answer, hanswer, htells⟩
  · exact .inl ⟨(hFG.equal_iff _ _).mp hequal, hinfos⟩
  · refine .inr ⟨answer, hFG.answers _ _ hanswer, htells.imp ?_ ?_⟩
    · exact fun ⟨path, last, htells⟩ => ⟨path, last, htells.mono hFG⟩
    · exact fun ⟨info, hinfo, htells⟩ => ⟨info, hinfo, htells.mono hFG⟩

/-- The steps end at the text that they should lead to. -/
theorem Graded.exists_append {F : Facts} {settings : Settings} {start goal : String}
    {infos : List StepInfo} (h : Graded F settings start goal infos) :
    ∃ init last, infos = init ++ [last] ∧ last.after = goal := by
  rcases h.told with ⟨-, rfl⟩ | ⟨answer, -, ⟨path, last, htells⟩ | ⟨info, rfl, htells⟩⟩
  · exact ⟨[], _, rfl, rfl⟩
  · obtain ⟨init, info, hinfos, hafter, -⟩ := htells.exists_append
    exact ⟨init, info, hinfos, hafter⟩
  · exact ⟨[], info, rfl, htells.after⟩

/-- The text from which the steps of a side are told. -/
def startOf (side : Side) : SideChange → String
  | .removed operation => (operation.apply side.tree).text
  | .added operation => (operation.apply side.tree).text
  | .simplified => side.before
  | .unknown => side.before

/-- The verdict, and what was done to its side. -/
def tagged : SideChange → StepInfo → StepInfo
  | .removed operation, info => { info with removed := some operation.report }
  | .added operation, info => { info with added := some operation.report }
  | .simplified, info => info
  | .unknown, info => info

theorem tagged_after (change : SideChange) (info : StepInfo) :
    (tagged change info).after = info.after := by
  cases change <;> rfl

/-- The verdicts tell the steps that come after what was done to the side, and each says what that
was. -/
def GradedSide (F : Facts) (settings : Settings) (side : Side) (change : SideChange)
    (infos : List StepInfo) : Prop :=
  ∃ steps, Graded F settings (startOf side change) side.after steps ∧
    infos = steps.map (tagged change)

section Sides

variable {F G : Facts} {settings : Settings} {side : Side} {change : SideChange}
  {operation : Operation} {infos : List StepInfo}

theorem GradedSide.mono (hFG : F.Implies G) (h : GradedSide F settings side change infos) :
    GradedSide G settings side change infos := by
  obtain ⟨steps, hsteps, h⟩ := h
  exact ⟨steps, hsteps.mono hFG, h⟩

theorem GradedSide.exists_append (h : GradedSide F settings side change infos) :
    ∃ init last, infos = init ++ [last] ∧ last.after = side.after := by
  obtain ⟨steps, hsteps, rfl⟩ := h
  obtain ⟨init, last, rfl, hafter⟩ := hsteps.exists_append
  exact ⟨init.map (tagged change), tagged change last, by simp,
    (tagged_after change last).trans hafter⟩

theorem GradedSide.removed (h : GradedSide F settings side (.removed operation) infos) :
    ∀ info ∈ infos, info.removed = some operation.report ∧ info.added = none := by
  obtain ⟨steps, hsteps, rfl⟩ := h
  exact List.forall_mem_map.mpr fun info hinfo => ⟨rfl, (hsteps.untagged info hinfo).1⟩

theorem GradedSide.added (h : GradedSide F settings side (.added operation) infos) :
    ∀ info ∈ infos, info.added = some operation.report ∧ info.removed = none := by
  obtain ⟨steps, hsteps, rfl⟩ := h
  exact List.forall_mem_map.mpr fun info hinfo => ⟨rfl, (hsteps.untagged info hinfo).2⟩

theorem GradedSide.simplified (h : GradedSide F settings side .simplified infos) :
    ∀ info ∈ infos, info.Untagged := by
  obtain ⟨steps, hsteps, rfl⟩ := h
  exact List.forall_mem_map.mpr hsteps.untagged

end Sides

section GradingSides

variable {S : Settings → Prop} {s : Session} (hs : s.Coherent S)

include hs

theorem yields_assessFrom (before after : String) :
    s.Yields S (assessFrom before after) fun infos s' =>
      Graded s'.remembered s.settings before after infos := by
  have hsearching : Searching (fun _ => True) (Keeps S) := exploring_keeps.toSearching
  have huntagged : s.Yields S (assessFrom before after) fun infos _ =>
      ∀ info ∈ infos, info.Untagged := hsearching.assessFrom trivial trivial s hs
  refine (Yields.and ?_ huntagged).weaken fun infos s' _ _ h => ⟨h.1, h.2⟩
  refine (yields_answer hs before).bind fun answer s₁ hs₁ h₁ hanswer => ?_
  by_cases hequal : EqualTexts before after
  · rw [assess_eq]
    refine (yields_parse hs₁ before).bind fun _ s₂ hs₂ _ _ => ?_
    refine (yields_parse hs₂ after).bind fun _ s₃ hs₃ _ _ => ?_
    refine (yields_areEqual hs₃ before after).bind fun same s₄ hs₄ _ hsame => ?_
    cases same with
    | true => exact .pure hs₄ (.inl ⟨hequal, rfl⟩)
    | false => exact absurd (hsame.mpr hequal) Bool.false_ne_true
  · refine (yields_assess hs₁ answer hequal).weaken fun infos s₂ _ h₂ htells => ?_
    rw [h₁.settings] at htells
    exact .inr ⟨answer, h₂.answers _ _ hanswer, htells.1⟩

/-- **The steps of a side are told from where what was done to it leads.** -/
theorem yields_assessSide (side : Side) (change : SideChange) :
    s.Yields S (assessSide side.before side.tree side.after change) fun infos s' =>
      GradedSide s'.remembered s.settings side change infos := by
  have hfrom := yields_assessFrom hs (startOf side change) side.after
  cases change with
  | removed operation =>
      exact hfrom.bind fun steps s' hs' _ hsteps => .pure hs' ⟨steps, hsteps, rfl⟩
  | added operation =>
      exact hfrom.bind fun steps s' hs' _ hsteps => .pure hs' ⟨steps, hsteps, rfl⟩
  | simplified =>
      exact hfrom.weaken fun steps _ _ _ hsteps => ⟨steps, hsteps, (List.map_id steps).symm⟩
  | unknown =>
      exact hfrom.weaken fun steps _ _ _ hsteps => ⟨steps, hsteps, (List.map_id steps).symm⟩

end GradingSides

/-! ### The verdict on an equation -/

/-- The side is still the same, as its texts are compared. -/
def Unchanged (F : Facts) (side : Side) : Prop := F.equal side.before side.after

/-- Each side is now what the other one was. -/
def Swapped (F : Facts) (left right : Side) : Prop :=
  F.equal left.before right.after ∧ F.equal right.before left.after

/-- What led to the verdict on a step between two equations. -/
inductive Assessed (F : Facts) (settings : Settings) (left right : Side) : EquationStepInfo → Prop
  | unchanged (hleft : Unchanged F left) (hright : Unchanged F right) :
      Assessed F settings left right
        ⟨[.unchanged left.before left.after], [.unchanged right.before right.after], .noChange, none⟩
  | swapped (hchanged : ¬(Unchanged F left ∧ Unchanged F right)) (hswapped : Swapped F left right) :
      Assessed F settings left right
        ⟨[.unchanged left.before right.after], [.unchanged right.before left.after], .swapSides,
          none⟩
  | leftOnly {infos : List StepInfo} (hleft : ¬Unchanged F left) (hright : Unchanged F right)
      (hswapped : ¬Swapped F left right)
      (hinfos : Graded F settings left.before left.after infos) :
      Assessed F settings left right
        ⟨infos, [.unchanged right.before right.after], .simplifyLhs, none⟩
  | rightOnly {infos : List StepInfo} (hleft : Unchanged F left) (hright : ¬Unchanged F right)
      (hswapped : ¬Swapped F left right)
      (hinfos : Graded F settings right.before right.after infos) :
      Assessed F settings left right
        ⟨[.unchanged left.before left.after], infos, .simplifyRhs, none⟩
  | both {lefts rights : List StepInfo} {change : EquationChange} {error : Option EquationError}
      (hleft : ¬Unchanged F left) (hright : ¬Unchanged F right) (hswapped : ¬Swapped F left right)
      (leftChange rightChange : SideChange) (hleftChange : ChangedBy F left right leftChange)
      (hrightChange : ChangedBy F right left rightChange)
      (hjudges : Judges F leftChange rightChange change error)
      (hlefts : GradedSide F settings left leftChange lefts)
      (hrights : GradedSide F settings right rightChange rights) :
      Assessed F settings left right ⟨lefts, rights, change, error⟩

theorem Assessed.mono {F G : Facts} (hFG : F.Implies G) {settings : Settings} {left right : Side}
    {info : EquationStepInfo} (h : Assessed F settings left right info) :
    Assessed G settings left right info := by
  have hequal := hFG.equal_iff
  have hswap : Swapped F left right ↔ Swapped G left right :=
    and_congr (hequal _ _) (hequal _ _)
  cases h with
  | unchanged hleft hright => exact .unchanged ((hequal _ _).mp hleft) ((hequal _ _).mp hright)
  | swapped hchanged hswapped =>
      refine .swapped (fun h => hchanged ?_) (hswap.mp hswapped)
      exact ⟨(hequal _ _).mpr h.1, (hequal _ _).mpr h.2⟩
  | leftOnly hleft hright hswapped hinfos =>
      exact .leftOnly (fun h => hleft ((hequal _ _).mpr h)) ((hequal _ _).mp hright)
        (fun h => hswapped (hswap.mpr h)) (hinfos.mono hFG)
  | rightOnly hleft hright hswapped hinfos =>
      exact .rightOnly ((hequal _ _).mp hleft) (fun h => hright ((hequal _ _).mpr h))
        (fun h => hswapped (hswap.mpr h)) (hinfos.mono hFG)
  | both hleft hright hswapped l r hl hr hjudges hlefts hrights =>
      exact .both (fun h => hleft ((hequal _ _).mpr h)) (fun h => hright ((hequal _ _).mpr h))
        (fun h => hswapped (hswap.mpr h)) l r (hl.mono hFG) (hr.mono hFG) (hjudges.mono hFG)
        (hlefts.mono hFG) (hrights.mono hFG)

section GradingEquations

variable {S : Settings → Prop} {s : Session} (hs : s.Coherent S) (left right : Side)

include hs

theorem yields_assessChanged (hleft : ¬Unchanged s.remembered left)
    (hright : ¬Unchanged s.remembered right) (hswapped : ¬Swapped s.remembered left right) :
    s.Yields S (assessChanged left.before right.before left.after right.after left.tree right.tree)
      fun info s' => Assessed s'.remembered s.settings left right info := by
  refine (yields_classify hs left right).bind fun l s₁ hs₁ h₁ hl => ?_
  refine (yields_classify hs₁ right left).bind fun r s₂ hs₂ h₂ hr => ?_
  refine (yields_pairVerdict hs₂ l r).bind fun verdict s₃ hs₃ h₃ hjudges => ?_
  refine (yields_assessSide hs₃ left l).bind fun lefts s₄ hs₄ h₄ hlefts => ?_
  refine (yields_assessSide hs₄ right r).bind fun rights s₅ hs₅ h₅ hrights => .pure hs₅ ?_
  have hkept₃ := (h₃.trans h₂).trans h₁
  rw [hkept₃.settings] at hlefts
  rw [(h₄.trans hkept₃).settings] at hrights
  exact .both hleft hright hswapped l r (hl.mono (((h₅.trans h₄).trans h₃).trans h₂).implies)
    (hr.mono ((h₅.trans h₄).trans h₃).implies) (hjudges.mono (h₅.trans h₄).implies)
    (hlefts.mono h₅.implies) hrights

theorem yields_assessCompared {lhsSame rhsSame swapped : Bool}
    (hlhs : lhsSame = true ↔ Unchanged s.remembered left)
    (hrhs : rhsSame = true ↔ Unchanged s.remembered right)
    (hswapped : swapped = true ↔ Swapped s.remembered left right)
    (hchanged : ¬(Unchanged s.remembered left ∧ Unchanged s.remembered right)) :
    s.Yields S (assessCompared left.before right.before left.after right.after left.tree right.tree
      lhsSame rhsSame swapped) fun info s' => Assessed s'.remembered s.settings left right info := by
  unfold assessCompared
  split
  · next h => exact .pure hs (.swapped hchanged (hswapped.mp h))
  · next hnotSwapped =>
    have hnotSwapped : ¬Swapped s.remembered left right := fun h => hnotSwapped (hswapped.mpr h)
    split
    · next h =>
      have hright := hrhs.mp h
      refine (yields_assessFrom hs left.before left.after).bind fun infos s' hs' _ hinfos => ?_
      exact .pure hs' (.leftOnly (fun hleft => hchanged ⟨hleft, hright⟩) hright hnotSwapped hinfos)
    · next hnotRight =>
      have hright : ¬Unchanged s.remembered right := fun h => hnotRight (hrhs.mpr h)
      split
      · next h =>
        have hleft := hlhs.mp h
        refine (yields_assessFrom hs right.before right.after).bind fun infos s' hs' _ hinfos => ?_
        exact .pure hs' (.rightOnly hleft hright hnotSwapped hinfos)
      · next hnotLeft =>
        exact yields_assessChanged hs left right (fun h => hnotLeft (hlhs.mpr h)) hright hnotSwapped

/-- **What the verdict on an equation is comes from what the sides are compared to.** -/
theorem yields_assessReadSides :
    s.Yields S (assessReadSides left.before right.before left.after right.after left.tree
      right.tree) fun info s' => Assessed s'.remembered s.settings left right info := by
  refine (yields_areEqual hs _ _).bind fun lhsSame s₁ hs₁ h₁ hlhs => ?_
  refine (yields_areEqual hs₁ _ _).bind fun rhsSame s₂ hs₂ h₂ hrhs => ?_
  have hkept₂ := h₂.trans h₁
  rw [← hkept₂.settings]
  split
  · next hsame =>
    rw [Bool.and_eq_true] at hsame
    exact .pure hs₂ (.unchanged (hlhs.mp hsame.1) (hrhs.mp hsame.2))
  · next hchanged =>
    have hchanged : ¬(Unchanged s₂.remembered left ∧ Unchanged s₂.remembered right) := by
      rintro ⟨hleft, hright⟩
      exact hchanged (by rw [hlhs.mpr hleft, hrhs.mpr hright]; rfl)
    refine (yields_areEqual hs₂ _ _).bind fun crossed s₃ hs₃ h₃ hcrossed => ?_
    rw [← h₃.settings]
    cases crossed with
    | false =>
        have hswapped : false = true ↔ Swapped s₃.remembered left right :=
          iff_of_false Bool.false_ne_true fun h => Bool.false_ne_true (hcrossed.mpr h.1)
        exact yields_assessCompared hs₃ left right hlhs hrhs hswapped hchanged
    | true =>
        refine (yields_areEqual hs₃ _ _).bind fun swapped s₄ hs₄ h₄ hswapped => ?_
        rw [← h₄.settings]
        have hswapped : swapped = true ↔ Swapped s₄.remembered left right :=
          hswapped.trans ⟨fun h => ⟨hcrossed.mp rfl, h⟩, fun h => h.2⟩
        exact yields_assessCompared hs₄ left right hlhs hrhs hswapped hchanged

end GradingEquations

/-! ### What is justified -/

/-- The same operation leads from each side to the new one.  For one of the sides it takes something
away from it, and the steps on both sides say so. -/
structure DoneToBoth (F : Facts) (left right : Side) (lefts rights : List StepInfo)
    (a b : Operation) : Prop where
  same : SameOperation F a b
  onLeft : SameAnswer F (a.apply left.tree) left.after
  onRight : SameAnswer F (b.apply right.tree) right.after
  steps : (a ∈ Operation.removals left.tree ∧
      (∀ step ∈ lefts, step.removed = some a.report ∧ step.added = none) ∧
      ∀ step ∈ rights, step.added = some b.report ∧ step.removed = none) ∨
    (b ∈ Operation.removals right.tree ∧
      (∀ step ∈ lefts, step.added = some a.report ∧ step.removed = none) ∧
      ∀ step ∈ rights, step.removed = some b.report ∧ step.added = none)

/-- The verdict is justified by what is told of both sides. -/
structure Justified (F : Facts) (left right : Side) (info : EquationStepInfo) : Prop where
  noChange : info.change = .noChange → Unchanged F left ∧ Unchanged F right
  swapSides : info.change = .swapSides → Swapped F left right
  simplifyLhs : info.change = .simplifyLhs → Unchanged F right
  simplifyRhs : info.change = .simplifyRhs → Unchanged F left
  simplifyBoth : info.change = .simplifyBoth → ¬Unchanged F left ∧ ¬Unchanged F right ∧
    SameAnswer F left.tree left.after ∧ SameAnswer F right.tree right.after
  sameOperation : info.change = .sameOperationBothSides →
    ∃ a b, DoneToBoth F left right info.left info.right a b
  /-- Any other change is unknown.  Both sides have changed then, and were not swapped. -/
  unknown : info.change = .unknown →
    ¬Unchanged F left ∧ ¬Unchanged F right ∧ ¬Swapped F left right
  reported : info.change ∈ [.noChange, .swapSides, .simplifyLhs, .simplifyRhs, .simplifyBoth,
    .sameOperationBothSides, .unknown]
  mistaken : ∀ mistake, info.error = some mistake → info.change = .unknown
  /-- Where no operation is told, no step names one. -/
  untagged : info.change ≠ .sameOperationBothSides → info.change ≠ .unknown →
    (∀ step ∈ info.left, step.Untagged) ∧ ∀ step ∈ info.right, step.Untagged
  /-- Unless the sides were swapped, the steps of each end at its new text. -/
  ends : info.change ≠ .swapSides →
    (∃ init last, info.left = init ++ [last] ∧ last.after = left.after) ∧
      ∃ init last, info.right = init ++ [last] ∧ last.after = right.after

theorem untagged_unchanged (before after : String) :
    ∀ step ∈ [StepInfo.unchanged before after], step.Untagged :=
  List.forall_mem_singleton.mpr ⟨rfl, rfl⟩

theorem exists_append_unchanged (before after : String) : ∃ init last,
    [StepInfo.unchanged before after] = init ++ [last] ∧ last.after = after :=
  ⟨[], _, rfl, rfl⟩

/-- What takes something away from one side, and is done to the other, was done to both. -/
theorem DoneToBoth.of_moves {F : Facts} {settings : Settings} {left right : Side}
    {l r : SideChange} {a b : Operation} {lefts rights : List StepInfo} (hmoves : Moves l r a b)
    (hsame : SameOperation F a b) (hl : ChangedBy F left right l) (hr : ChangedBy F right left r)
    (hlefts : GradedSide F settings left l lefts)
    (hrights : GradedSide F settings right r rights) :
    DoneToBoth F left right lefts rights a b := by
  rcases hmoves with ⟨rfl, rfl⟩ | ⟨rfl, rfl⟩
  · obtain ⟨-, hremoved⟩ := hl
    obtain ⟨-, -, hadded⟩ := hr
    exact ⟨hsame, hremoved.explains, hadded.explains,
      .inl ⟨hremoved.mem, hlefts.removed, hrights.added⟩⟩
  · obtain ⟨-, -, hadded⟩ := hl
    obtain ⟨-, hremoved⟩ := hr
    exact ⟨hsame, hadded.explains, hremoved.explains,
      .inr ⟨hremoved.mem, hlefts.added, hrights.removed⟩⟩

/-- The verdict on an equation both of whose sides have changed. -/
theorem Justified.of_judges {F : Facts} {settings : Settings} {left right : Side}
    {l r : SideChange} {change : EquationChange} {error : Option EquationError}
    {lefts rights : List StepInfo} (hleft : ¬Unchanged F left) (hright : ¬Unchanged F right)
    (hswapped : ¬Swapped F left right) (hl : ChangedBy F left right l)
    (hr : ChangedBy F right left r) (hjudges : Judges F l r change error)
    (hlefts : GradedSide F settings left l lefts)
    (hrights : GradedSide F settings right r rights) :
    Justified F left right ⟨lefts, rights, change, error⟩ := by
  have hends := fun _ : change ≠ .swapSides => And.intro hlefts.exists_append hrights.exists_append
  have hmistaken : ∀ mistake, error = some mistake → change = .unknown :=
    fun mistake hmistake => (hjudges.mistaken mistake hmistake).1
  rcases hjudges.reported with rfl | rfl | rfl
  · obtain ⟨rfl, rfl⟩ := hjudges.simplifyBoth rfl
    exact ⟨nofun, nofun, nofun, nofun, fun _ => ⟨hleft, hright, hl, hr⟩, nofun, nofun, by simp,
      hmistaken, fun _ _ => ⟨hlefts.simplified, hrights.simplified⟩, hends⟩
  · obtain ⟨a, b, hmoves, hsame⟩ := hjudges.sameOperation rfl
    exact ⟨nofun, nofun, nofun, nofun, nofun,
      fun _ => ⟨a, b, .of_moves hmoves hsame hl hr hlefts hrights⟩, nofun, by simp,
      hmistaken, fun hnot _ => absurd rfl hnot, hends⟩
  · exact ⟨nofun, nofun, nofun, nofun, nofun, nofun, fun _ => ⟨hleft, hright, hswapped⟩, by simp,
      hmistaken, fun _ hnot => absurd rfl hnot, hends⟩

/-- What led to a verdict justifies it. -/
theorem Assessed.justified {F : Facts} {settings : Settings} {left right : Side}
    {info : EquationStepInfo} (h : Assessed F settings left right info) :
    Justified F left right info := by
  cases h with
  | unchanged hleft hright =>
      exact ⟨fun _ => ⟨hleft, hright⟩, nofun, nofun, nofun, nofun, nofun, nofun, by simp, nofun,
        fun _ _ => ⟨untagged_unchanged _ _, untagged_unchanged _ _⟩,
        fun _ => ⟨exists_append_unchanged _ _, exists_append_unchanged _ _⟩⟩
  | swapped hchanged hswapped =>
      exact ⟨nofun, fun _ => hswapped, nofun, nofun, nofun, nofun, nofun, by simp, nofun,
        fun _ _ => ⟨untagged_unchanged _ _, untagged_unchanged _ _⟩, fun hnot => absurd rfl hnot⟩
  | leftOnly hleft hright hswapped hinfos =>
      exact ⟨nofun, nofun, fun _ => hright, nofun, nofun, nofun, nofun, by simp, nofun,
        fun _ _ => ⟨hinfos.untagged, untagged_unchanged _ _⟩,
        fun _ => ⟨hinfos.exists_append, exists_append_unchanged _ _⟩⟩
  | rightOnly hleft hright hswapped hinfos =>
      exact ⟨nofun, nofun, nofun, fun _ => hleft, nofun, nofun, nofun, by simp, nofun,
        fun _ _ => ⟨untagged_unchanged _ _, hinfos.untagged⟩,
        fun _ => ⟨exists_append_unchanged _ _, hinfos.exists_append⟩⟩
  | both hleft hright hswapped l r hl hr hjudges hlefts hrights =>
      exact .of_judges hleft hright hswapped hl hr hjudges hlefts hrights

section Justifying

variable {S : Settings → Prop} {s : Session}

theorem yields_assessSides (hs : s.Coherent S) (lhsText rhsText lhsText' rhsText' : String) :
    s.Yields S (assessSides lhsText rhsText lhsText' rhsText') fun info s' =>
      ∃ lhs rhs, s'.parsed[squeeze lhsText]? = some lhs ∧
        s'.parsed[squeeze rhsText]? = some rhs ∧
        Assessed s'.remembered s.settings ⟨lhsText, lhs, lhsText'⟩ ⟨rhsText, rhs, rhsText'⟩ info := by
  refine (yields_parse hs lhsText).bind fun lhs s₁ hs₁ h₁ hlhs => ?_
  refine (yields_parse hs₁ rhsText).bind fun rhs s₂ hs₂ h₂ hrhs => ?_
  refine (yields_parse hs₂ lhsText').bind fun _ s₃ hs₃ h₃ _ => ?_
  refine (yields_parse hs₃ rhsText').bind fun _ s₄ hs₄ h₄ _ => ?_
  have hsides := yields_assessReadSides hs₄ ⟨lhsText, lhs, lhsText'⟩ ⟨rhsText, rhs, rhsText'⟩
  refine hsides.weaken fun info s₅ _ h₅ hinfo => ?_
  have hkept := ((h₅.trans h₄).trans h₃)
  rw [(((h₄.trans h₃).trans h₂).trans h₁).settings] at hinfo
  exact ⟨lhs, rhs, (hkept.trans h₂).parsed _ _ hlhs, hkept.parsed _ _ hrhs, hinfo⟩

end Justifying

/-! ### Both sides over two -/

/-- The product `2x`. -/
def twoX : Expr := .op .mul [.const 2, .symbol "x"] true

theorem known_twoX : Known .standard "2x" twoX "2x" :=
  known_of_comesTo twoX [] (by cbv) (by cbv) rfl (by with_unfolding_all rfl) (by cbv) (by decide)
    (by cbv)

theorem known_eight : Known .standard "8" (.const 8) "8" :=
  known_of_comesTo (.const 8) [] (by cbv) (by cbv) rfl (by with_unfolding_all rfl) (by cbv)
    (by decide) (by cbv)

/-- The factor two is cancelled. -/
theorem known_twoX_overTwo : Known .standard "2x/2" (.quotient twoX (.const 2)) "x" :=
  known_of_comesTo (.symbol "x") ["x"] (by cbv) (by cbv) rfl (by with_unfolding_all rfl) (by cbv)
    (by decide) (by cbv)

theorem known_eight_overTwo : Known .standard "8/2" (.quotient (.const 8) (.const 2)) "4" :=
  known_of_comesTo (.const 4) ["4"] (by cbv) (by cbv) rfl (by with_unfolding_all rfl) (by cbv)
    (by decide) (by cbv)

/-- Dividing by two explains a side that is now over two. -/
theorem gives_explains_half {side : Expr} {after shown : String} (more : List Operation)
    (happlied : (Operation.apply ⟨'/', .const 2⟩ side).text = after)
    (hanswer : Gives .standard Steady (Session.answer after) (.ok shown))
    (hblank : isBlankText shown = false) :
    Gives .standard Steady ((⟨'/', .const 2⟩ :: more).findM? (explains side after))
      (.ok (some ⟨'/', .const 2⟩)) := by
  have hexplains : Gives .standard Steady (explains side after ⟨'/', .const 2⟩) (.ok true) := by
    unfold explains
    rw [happlied]
    exact .bind hanswer (.bind hanswer (gives_true (.refl hblank)))
  exact .bind hexplains (gives_pure _)

/-- If what was done to a side leads to its new text, nothing is left to be told but that. -/
theorem gives_assessSide_done (side : Side) (change : SideChange) {e : Expr} {shown : String}
    (hstart : startOf side change = side.after) (hknown : Known .standard side.after e shown)
    (hblank : isBlankText side.after = false) :
    Gives .standard Steady (assessSide side.before side.tree side.after change)
      (.ok [tagged change (.unchanged side.after side.after)]) := by
  have hfrom : Gives .standard Steady (assessFrom (startOf side change) side.after)
      (.ok [.unchanged side.after side.after]) := by
    rw [hstart]
    refine .bind hknown.answered (.bind hknown.parse (.bind hknown.parse ?_))
    exact .bind (gives_true (.refl hblank)) (gives_pure _)
  cases change with
  | removed operation => exact .bind hfrom (gives_pure _)
  | added operation => exact .bind hfrom (gives_pure _)
  | simplified => exact hfrom
  | unknown => exact hfrom

theorem removals_twoX : Operation.removals twoX = [⟨'/', .const 2⟩, ⟨'/', .symbol "x"⟩] := by cbv

theorem gives_classify_twoX : Gives .standard Steady (classify twoX "2x/2" (.const 8))
    (.ok (.removed ⟨'/', .const 2⟩)) := by
  have htext : twoX.text = "2x" := by cbv
  unfold classify
  rw [htext, removals_twoX]
  refine .bind known_twoX.answered (.bind known_twoX_overTwo.answered ?_)
  refine .bind (gives_false_of_sameKey? (by cbv) (by decide)) ?_
  exact .bind (gives_explains_half _ (by cbv) known_twoX_overTwo.answered (by decide))
    (gives_pure _)

theorem gives_classify_eight : Gives .standard Steady (classify (.const 8) "8/2" twoX)
    (.ok (.added ⟨'/', .const 2⟩)) := by
  have hnone : Operation.removals (.const 8) = [] := rfl
  have htext : (Expr.const 8).text = "8" := by cbv
  unfold classify additions
  rw [htext, removals_twoX, hnone]
  refine .bind known_eight.answered (.bind known_eight_overTwo.answered ?_)
  refine .bind (gives_false_of_sameKey? (by cbv) (by decide)) (.bind (gives_pure none) ?_)
  exact .bind (gives_explains_half _ (by cbv) known_eight_overTwo.answered (by decide))
    (gives_pure _)

/-- Both sides are divided by two. -/
theorem gives_assessEquation_half : Gives .standard Steady (assessEquation "2x=8" "2x/2=8/2")
    (.ok ⟨[tagged (.removed ⟨'/', .const 2⟩) (.unchanged "2x/2" "2x/2")],
      [tagged (.added ⟨'/', .const 2⟩) (.unchanged "8/2" "8/2")], .sameOperationBothSides, none⟩) := by
  have hbefore : splitSides "2x=8" = .ok ("2x", "8") := by cbv
  have hafter : splitSides "2x/2=8/2" = .ok ("2x/2", "8/2") := by cbv
  have htwo : (Expr.const 2).text = "2" := by cbv
  have hsame : Gives .standard Steady (movedVerdict ⟨'/', .const 2⟩ ⟨'/', .const 2⟩)
      (.ok (.sameOperationBothSides, none)) := by
    refine .bind (a := true) ?_ (gives_pure _)
    unfold sameOperation
    rw [if_pos rfl, htwo]
    exact gives_true (.refl (by decide))
  have hleft := gives_assessSide_done ⟨"2x", twoX, "2x/2"⟩ (.removed ⟨'/', .const 2⟩) (by cbv)
    known_twoX_overTwo (by decide)
  have hright := gives_assessSide_done ⟨"8", .const 8, "8/2"⟩ (.added ⟨'/', .const 2⟩) (by cbv)
    known_eight_overTwo (by decide)
  rw [assessEquation_eq, hbefore, hafter]
  refine .bind (gives_pure ("2x", "8")) (.bind (gives_pure ("2x/2", "8/2")) ?_)
  refine .bind known_twoX.parse (.bind known_eight.parse ?_)
  refine .bind known_twoX_overTwo.parse (.bind known_eight_overTwo.parse ?_)
  refine .bind (gives_false_of_sameKey? (by cbv) (by decide)) ?_
  refine .bind (gives_false_of_sameKey? (by cbv) (by decide)) ?_
  refine .bind (gives_false_of_sameKey? (by cbv) (by decide)) (.bind (gives_pure false) ?_)
  refine .bind gives_classify_twoX (.bind gives_classify_eight (.bind hsame ?_))
  exact .bind hleft (.bind hright (gives_pure _))

/-! ### Verdicts on equations -/

/-- **Verdicts on steps between equations are justified.**  This is so in every session, whatever was
asked of it before, and in terms of what it tells afterwards.  A verdict on single sides rests on
the sides being equal.  That both sides were simplified rests on their answers.  That the same was
done to both sides rests on two operations with one sign and equal operands: each leads from its
side to the answer of the new one, one of them takes something away from its side, and exactly
these are named in the steps.  Whatever else happened to both sides is unknown, with a mistake that
tells the two changes apart. -/
theorem justified_of_assessEquation {s : Session} (hs : Reachable s) {before after : String}
    {info : EquationStepInfo} (h : s.resultOf (assessEquation before after) = .ok info) :
    let s' := s.stateAfter (assessEquation before after)
    ∃ left right : Side,
      splitSides before = .ok (left.before, right.before) ∧
      splitSides after = .ok (left.after, right.after) ∧
      s'.resultOf (parse left.before) = .ok left.tree ∧
      s'.resultOf (parse right.before) = .ok right.tree ∧
      Justified s'.told left right info ∧ Assessed s'.told s.settings left right info := by
  intro s'
  have hcoherent := coherent_of_reachable hs
  have hstate : s' = s.stateAfter (assessEquation before after) := rfl
  rw [assessEquation_eq] at h hstate
  rcases liftExcept_bind_cases s (splitSides before) _ with
    ⟨error, -, hresult, -⟩ | ⟨⟨lhsText, rhsText⟩, hbefore, hresult, hafter⟩
  · cases hresult.symm.trans h
  rw [hresult] at h
  rw [hafter] at hstate
  rcases liftExcept_bind_cases s (splitSides after) _ with
    ⟨error, -, hresult, -⟩ | ⟨⟨lhsText', rhsText'⟩, hafter, hresult, hstate'⟩
  · cases hresult.symm.trans h
  rw [hresult] at h
  rw [hstate'] at hstate
  have hyields := yields_assessSides hcoherent lhsText rhsText lhsText' rhsText'
  obtain ⟨lhs, rhs, hlhs, hrhs, hassessed⟩ := hyields.result info h
  have hassessed := hassessed.mono hyields.coherent.implies_told
  rw [← hstate] at hlhs hrhs hassessed
  exact ⟨⟨lhsText, lhs, lhsText'⟩, ⟨rhsText, rhs, rhsText'⟩, hbefore, hafter,
    resultOf_parse_of_parsed hlhs, resultOf_parse_of_parsed hrhs, hassessed.justified, hassessed⟩

/-- From `2x = 8` to `2x/2 = 8/2` both sides are divided by two, which takes a factor away from the
left one: the new sides have the answers of the old ones divided by two, `x` and `4`. -/
theorem justified_of_assessEquation_half : ∃ info,
    Reachable fresh ∧ fresh.resultOf (assessEquation "2x=8" "2x/2=8/2") = .ok info ∧
    info.change = .sameOperationBothSides ∧
    ∃ left right : Side,
      splitSides "2x=8" = .ok (left.before, right.before) ∧
      splitSides "2x/2=8/2" = .ok (left.after, right.after) ∧
      Justified (fresh.stateAfter (assessEquation "2x=8" "2x/2=8/2")).told left right info := by
  have hfresh := faithful_ofSettings .standard Steady
  obtain ⟨hinfo, -⟩ := gives_assessEquation_half _ hfresh
  obtain ⟨left, right, hbefore, hafter, -, -, hjustified, -⟩ :=
    justified_of_assessEquation (.ofSettings .standard) hinfo
  exact ⟨_, .ofSettings .standard, hinfo, rfl, left, right, hbefore, hafter, hjustified⟩

end Assessment

end AlgebraTutor
