/-
What the verdicts on a step say.

The verdicts on a step tell a path of listed steps, hop by hop, or say that no path was found.  All
hops but the last are right.  The last one ends at the text of the student: it is right if the step
leads there, and otherwise it names a mistake of the step that does, after no step did.
-/
import AlgebraTutor.Proofs.SearchPaths
import AlgebraTutor.Proofs.Answers

namespace AlgebraTutor

open Session

/-! ### Verdicts on the steps of a path -/

/-- The verdict is on the step of the hop, up to the name of subtraction. -/
structure Tells (F : Facts) (answer : String) (hop : Hop) (info : StepInfo) : Prop where
  before : info.before = hop.step.before
  change : info.change = hop.step.change ∨
    hop.step.change = .simplifyArithmeticAdd ∧ info.change = .simplifyArithmeticSubtract
  available : info.available = hop.available
  reaches : ∃ reached, F.answers info.after reached ∧
    (info.reachesAnswer = true ↔ F.equal reached answer)

/-- The verdict that the step of the hop is right. -/
structure TellsRight (F : Facts) (answer : String) (hop : Hop) (info : StepInfo) : Prop
    extends Tells F answer hop info where
  after : info.after = hop.step.after
  isValid : info.isValid = true
  mistake : info.mistake = none

/-- The verdict on the last step, which the student made from the text `state` to the goal. -/
structure TellsLast (F : Facts) (state goal answer : String) (hop : Hop) (info : StepInfo) : Prop
    extends Tells F answer hop info where
  after : info.after = goal
  isValid : info.isValid = true ↔ F.equal hop.step.after goal
  right : info.isValid = true → info.mistake = none ∧ info.shouldBe = none
  /-- No listed step leads to the goal, but the mistake that is named does. -/
  wrong : info.isValid = false → info.shouldBe = some hop.step.after ∧
    (∃ steps, F.lists state steps ∧ ∀ step ∈ steps, ¬F.equal step.after goal) ∧
      ∃ mistake ∈ hop.step.mistakes, info.mistake = some mistake.kind ∧
        Mistaken F goal hop.step mistake

/-- The verdicts tell the path, whose last hop is given apart. -/
structure TellsPath (F : Facts) (settings : Settings) (start goal answer : String)
    (path : List Hop) (last : Hop) (infos : List StepInfo) : Prop where
  walks : Walks F start (path ++ [last])
  shallow : path.length + 1 ≤ max 1 settings.maxDepth
  early : path.length + 1 ≤ settings.maxStates
  distinct : (textsOf start path).Pairwise fun a b => ¬F.sameKey a b
  verdicts : ∃ init info, infos = init ++ [info] ∧
    List.Forall₂ (TellsRight F answer) path init ∧
      TellsLast F (endOf start path) goal answer last info

/-- The verdict that no path was found. -/
structure TellsNothing (F : Facts) (start goal answer : String) (info : StepInfo) : Prop where
  before : info.before = start
  after : info.after = goal
  isValid : info.isValid = false
  change : info.change = .unknown
  reaches : ∃ reached, F.answers goal reached ∧
    (info.mistake = some .unknown ↔ ¬F.equal reached answer) ∧
      (info.mistake = none ↔ F.equal reached answer)

section Verdicts

variable {F G : Facts} {start goal state answer : String} {hop : Hop} {info : StepInfo}

/-- All verdicts on a path but the last say that a step is right. -/
theorem TellsPath.exists_append {settings : Settings} {path : List Hop} {infos : List StepInfo}
    (h : TellsPath F settings start goal answer path hop infos) :
    ∃ init info, infos = init ++ [info] ∧ info.after = goal ∧
      ∀ other ∈ init, other.isValid = true ∧ other.mistake = none := by
  obtain ⟨init, info, hinfos, hinit, hlast⟩ := h.verdicts
  refine ⟨init, info, hinfos, hlast.after, ?_⟩
  clear h hinfos hlast
  induction hinit with
  | nil => exact fun _ hother => by simp at hother
  | cons hright _ ih =>
      intro other hother
      rcases List.mem_cons.mp hother with rfl | hother
      · exact ⟨hright.isValid, hright.mistake⟩
      · exact ih other hother

theorem Tells.mono (hFG : F.Implies G) (h : Tells F answer hop info) : Tells G answer hop info := by
  obtain ⟨reached, hreached, hreaches⟩ := h.reaches
  exact { h with
    reaches := ⟨reached, hFG.answers _ _ hreached, hreaches.trans (hFG.equal_iff _ _)⟩ }

theorem TellsRight.mono (hFG : F.Implies G) (h : TellsRight F answer hop info) :
    TellsRight G answer hop info :=
  { h with toTells := h.toTells.mono hFG }

theorem TellsLast.mono (hFG : F.Implies G) (h : TellsLast F state goal answer hop info) :
    TellsLast G state goal answer hop info where
  toTells := h.toTells.mono hFG
  after := h.after
  isValid := h.isValid.trans (hFG.equal_iff _ _)
  right := h.right
  wrong hwrong := by
    obtain ⟨hshould, ⟨steps, hsteps, hnone⟩, mistake, hmem, hkind, hmistaken⟩ := h.wrong hwrong
    refine ⟨hshould, ⟨steps, hFG.lists _ _ hsteps, fun step hstep hequal => ?_⟩, mistake, hmem,
      hkind, hmistaken.mono hFG⟩
    exact hnone step hstep ((hFG.equal_iff _ _).mpr hequal)

theorem TellsPath.mono (hFG : F.Implies G) {settings : Settings} {path : List Hop}
    {infos : List StepInfo} (h : TellsPath F settings start goal answer path hop infos) :
    TellsPath G settings start goal answer path hop infos where
  walks := h.walks.mono hFG
  shallow := h.shallow
  early := h.early
  distinct := h.distinct.imp fun hdiffer hsame => hdiffer ((hFG.sameKey_iff _ _).mpr hsame)
  verdicts := by
    obtain ⟨init, info, hinfos, hinit, hlast⟩ := h.verdicts
    exact ⟨init, info, hinfos, hinit.imp fun _ _ h => h.mono hFG, hlast.mono hFG⟩

theorem TellsNothing.mono (hFG : F.Implies G) (h : TellsNothing F start goal answer info) :
    TellsNothing G start goal answer info := by
  obtain ⟨reached, hreached, hunknown, hnone⟩ := h.reaches
  have hequal := hFG.equal_iff reached answer
  exact { h with
    reaches := ⟨reached, hFG.answers _ _ hreached, by rw [hunknown, hequal],
      by rw [hnone, hequal]⟩ }

/-! ### The name of subtraction -/

theorem relabelSubtraction_cases (info : StepInfo) : info.relabelSubtraction = info ∨
    info.change = .simplifyArithmeticAdd ∧
      info.relabelSubtraction = { info with change := .simplifyArithmeticSubtract } := by
  unfold StepInfo.relabelSubtraction
  split
  · next h => exact .inr ⟨h.1, rfl⟩
  · exact .inl rfl

/-- Addition may be called subtraction, and nothing else changes. -/
theorem Tells.relabelSubtraction (h : Tells F answer hop info) :
    Tells F answer hop info.relabelSubtraction := by
  rcases relabelSubtraction_cases info with heq | ⟨hadd, heq⟩
  · rw [heq]
    exact h
  · rw [heq]
    rcases h.change with hchange | ⟨-, hchange⟩
    · exact { h with change := .inr ⟨hchange.symm.trans hadd, rfl⟩ }
    · cases hadd.symm.trans hchange

theorem TellsRight.relabelSubtraction (h : TellsRight F answer hop info) :
    TellsRight F answer hop info.relabelSubtraction := by
  have htells := h.toTells.relabelSubtraction
  rcases relabelSubtraction_cases info with heq | ⟨-, heq⟩
  · rw [heq]
    exact h
  · rw [heq] at htells ⊢
    exact { h with toTells := htells }

theorem TellsLast.relabelSubtraction (h : TellsLast F state goal answer hop info) :
    TellsLast F state goal answer hop info.relabelSubtraction := by
  have htells := h.toTells.relabelSubtraction
  rcases relabelSubtraction_cases info with heq | ⟨-, heq⟩
  · rw [heq]
    exact h
  · rw [heq] at htells ⊢
    exact { h with toTells := htells }

theorem TellsNothing.relabelSubtraction (h : TellsNothing F start goal answer info) :
    TellsNothing F start goal answer info.relabelSubtraction := by
  rcases relabelSubtraction_cases info with heq | ⟨hadd, -⟩
  · rw [heq]
    exact h
  · cases hadd.symm.trans h.change

end Verdicts

/-! ### What grading yields -/

section Grading

variable {S : Settings → Prop} {s : Session} (hs : s.Coherent S) (answer : String)

include hs

theorem yields_reaches (text : String) :
    s.Yields S (Assessment.reaches text answer) fun reaches s' =>
      ∃ reached, s'.remembered.answers text reached ∧
        (reaches = true ↔ EqualTexts reached answer) := by
  refine (yields_answer hs text).bind fun reached s₁ hs₁ _ hreached => ?_
  refine (yields_areEqual hs₁ reached answer).weaken fun reaches s₂ _ h₂ hreaches => ?_
  exact ⟨reached, h₂.answers _ _ hreached, hreaches⟩

theorem yields_describeHop (hop : Hop) :
    s.Yields S (Assessment.describeHop answer hop) fun info s' =>
      TellsRight s'.remembered answer hop info := by
  refine (yields_reaches hs answer hop.step.after).bind fun reaches s₁ hs₁ _ hreaches => ?_
  exact .pure hs₁ ⟨⟨rfl, .inl rfl, rfl, hreaches⟩, rfl, rfl, rfl⟩

theorem yields_describeLast {state goal : String} {steps : List Step} {last : Hop}
    {mistake : Option Mistake} (hsteps : s.remembered.lists state steps)
    (hmem : last.step ∈ steps) (hleads : Leads s.remembered goal steps last.step mistake) :
    s.Yields S (Assessment.describeLast answer goal mistake last) fun info s' =>
      TellsLast s'.remembered state goal answer last info := by
  refine (yields_reaches hs answer goal).bind fun reaches s₁ hs₁ h₁ hreaches => .pure hs₁ ?_
  have hleads := hleads.mono h₁.implies
  have hsteps := h₁.implies.lists _ _ hsteps
  cases mistake with
  | none =>
      exact ⟨⟨rfl, .inl rfl, rfl, hreaches⟩, rfl, iff_of_true rfl hleads, fun _ => ⟨rfl, rfl⟩,
        nofun⟩
  | some kind =>
      obtain ⟨hnone, mistake, hmistake, rfl, hmistaken⟩ := hleads
      refine ⟨⟨rfl, .inl rfl, rfl, hreaches⟩, rfl, iff_of_false nofun (hnone _ hmem), nofun,
        fun _ => ?_⟩
      exact ⟨rfl, ⟨steps, hsteps, hnone⟩, mistake, hmistake, rfl, hmistaken⟩

/-- The verdicts on a path, hop by hop.  What the last one says must be known for the start of the
path, since it is written down last. -/
theorem yields_describe {state goal : String} {steps : List Step} {last : Hop}
    {mistake : Option Mistake} (path : List Hop) (hsteps : s.remembered.lists state steps)
    (hmem : last.step ∈ steps) (hleads : Leads s.remembered goal steps last.step mistake) :
    s.Yields S (Assessment.describe answer goal mistake (path ++ [last])) fun infos s' =>
      ∃ init info, infos = init ++ [info] ∧
        List.Forall₂ (TellsRight s'.remembered answer) path init ∧
          TellsLast s'.remembered state goal answer last info := by
  induction path generalizing s with
  | nil =>
      refine (yields_describeLast hs answer hsteps hmem hleads).bind fun info s₁ hs₁ _ hinfo => ?_
      exact .pure hs₁ ⟨[], info, rfl, .nil, hinfo⟩
  | cons hop path ih =>
      obtain ⟨next, rest, hrest⟩ : ∃ next rest, path ++ [last] = next :: rest := by
        cases path with
        | nil => exact ⟨last, [], rfl⟩
        | cons next rest => exact ⟨next, rest ++ [last], rfl⟩
      rw [List.cons_append, hrest]
      refine (yields_describeHop hs answer hop).bind fun info s₁ hs₁ h₁ hinfo => ?_
      have hrest' := ih hs₁ (h₁.implies.lists _ _ hsteps) (hleads.mono h₁.implies)
      rw [hrest] at hrest'
      refine hrest'.bind fun infos s₂ hs₂ h₂ hinfos => .pure hs₂ ?_
      obtain ⟨init, lastInfo, rfl, hinit, hlast⟩ := hinfos
      exact ⟨info :: init, lastInfo, rfl, .cons (hinfo.mono h₂.implies) hinit, hlast⟩

/-- Saying that no path was found explores the first text, if that has not been done. -/
theorem yields_unknown (before after : String) :
    s.Yields S (Assessment.unknown before after answer) fun info s' =>
      TellsNothing s'.remembered before after answer info ∧
        s'.explored.size ≤ s.explored.size + 1 := by
  have hsame : s.Yields S (Assessment.reaches after answer) fun _ s' =>
      True ∧ s'.explored = s.explored :=
    compositional_exploresNothing.reaches trivial answer s hs
  refine ((yields_reaches hs answer after).and hsame).bind fun reaches s₁ hs₁ _ h => ?_
  obtain ⟨⟨reached, hreached, hreaches⟩, -, hsame⟩ := h
  refine (yields_lists hs₁ before).bind fun steps s₂ hs₂ h₂ hlisted => .pure hs₂ ⟨?_, ?_⟩
  · have hequal : s₂.remembered.equal reached answer ↔ reaches = true := hreaches.symm
    refine ⟨rfl, rfl, rfl, rfl, reached, h₂.answers _ _ hreached, ?_⟩
    simp only [hequal]
    cases reaches with
    | true => simp
    | false => simp
  · rw [← hsame]
    exact hlisted.2

/-- **Grading a step that changes the text** tells a path or that none was found.  It explores no
more texts than the search may visit, and the first one if nothing was found. -/
theorem yields_assess {before after : String} (hdiffer : ¬EqualTexts before after) :
    s.Yields S (Assessment.assess before after answer) fun infos s' =>
      ((∃ path last,
        TellsPath s'.remembered s.settings before after answer path last infos) ∨
      ∃ info, infos = [info] ∧ TellsNothing s'.remembered before after answer info) ∧
      s'.explored.size ≤ s.explored.size + s.settings.maxStates + 1 := by
  have hnothing : Compositional (fun _ => True) (ExploresNothing S) :=
    compositional_exploresNothing
  refine Yields.bind (hnothing.parse trivial s hs) fun _ s₁ hs₁ h₁ hsame₁ => ?_
  refine Yields.bind (hnothing.parse trivial s₁ hs₁) fun _ s₂ hs₂ h₂ hsame₂ => ?_
  refine Yields.bind ((yields_areEqual hs₂ before after).exploringNothing rfl fun _ _ _ h => h)
    fun same s₃ hs₃ h₃ hsame₃ => ?_
  obtain ⟨hsame, hsame₃⟩ := hsame₃
  have hsettings : s₃.settings = s.settings := ((h₃.trans h₂).trans h₁).settings
  have hexplored : s₃.explored = s.explored := (hsame₃.trans hsame₂.2).trans hsame₁.2
  cases same with
  | true => exact absurd (hsame.mp rfl) hdiffer
  | false =>
      refine (yields_run hs₃ before after).bind fun found s₄ hs₄ _ hfound => ?_
      rw [hsettings, hexplored] at hfound
      obtain ⟨hfinds, hsize⟩ := hfound
      cases found with
      | none =>
          refine (yields_unknown hs₄ answer before after).bind fun info s₅ hs₅ _ hinfo => ?_
          refine .pure hs₅ ⟨.inr ⟨_, rfl, hinfo.1.relabelSubtraction⟩, ?_⟩
          have hsize₅ := hinfo.2
          omega
      | some found =>
          obtain ⟨path, steps, step, hpath, hgenuine⟩ := hfinds found rfl
          have htravels : Compositional.Travels (fun _ => True) found.path := fun _ _ => trivial
          have hdescribe : s₄.Yields S (Assessment.describe answer after found.mistake found.path)
              fun infos s' => (∀ info ∈ infos, info.Untagged) ∧ s'.explored = s₄.explored :=
            hnothing.describe answer trivial found.mistake htravels s₄ hs₄
          dsimp only
          rw [hpath] at hdescribe ⊢
          refine ((yields_describe hs₄ answer path hgenuine.lists hgenuine.mem
            hgenuine.leads).and hdescribe).bind fun infos s₅ hs₅ h₅ hinfos => ?_
          obtain ⟨⟨init, info, rfl, hinit, hlast⟩, -, hsame₅⟩ := hinfos
          refine .pure hs₅ ⟨.inl ⟨path, ⟨step, changesOf steps⟩, ?_⟩, by rw [hsame₅]; omega⟩
          have hgenuine := hgenuine.mono h₅.implies
          refine ⟨hgenuine.walks.concat hgenuine.lists hgenuine.mem, hgenuine.shallow,
            hgenuine.early, hgenuine.pairwise hs₅, init.map .relabelSubtraction,
            info.relabelSubtraction, List.map_append, ?_, hlast.relabelSubtraction⟩
          exact List.forall₂_map_right_iff.mpr (hinit.imp fun _ _ h => h.relabelSubtraction)

end Grading

namespace Assessment

/-! ### Operations on texts that are given -/

section Given

variable {settings : Settings} {text shown : String} {e : Expr}

/-- In all sessions that remember the trees of the texts, the text is read as this tree and has
this answer. -/
structure Known (settings : Settings) (text : String) (e : Expr) (shown : String) : Prop where
  steady : Steady text
  read : Expr.parseNormal text = .ok e
  answered : Gives settings Steady (Session.answer text) (.ok shown)

theorem gives_parse (htext : Steady text) (h : Expr.parseNormal text = .ok e) :
    Gives settings Steady (Session.parse text) (.ok e) := by
  intro s hs
  rw [← h]
  exact hs.parse oneReading_steady htext

theorem Known.parse (h : Known settings text e shown) :
    Gives settings Steady (Session.parse text) (.ok e) := gives_parse h.steady h.read

theorem gives_nextSteps (htext : Steady text) (h : Expr.parseNormal text = .ok e)
    {steps : List Step}
    (hsteps : Explorer.nextSteps (ofSettings settings).context .standard e = .ok steps) :
    Gives settings Steady (Session.nextSteps text) (.ok steps) := by
  intro s hs
  have hgives := hs.nextSteps oneReading_steady htext
  rw [h] at hgives
  rw [← hsteps]
  exact hgives

/-- An answer is the same in all sessions that remember the trees of the texts. -/
theorem gives_answer (htext : Steady text)
    (h : (ofSettings settings).resultOf (Session.answer text) = .ok shown) :
    Gives settings Steady (Session.answer text) (.ok shown) := by
  intro s hs
  obtain ⟨hfresh, -⟩ := (faithful_ofSettings settings Steady).answer oneReading_steady htext
  have hgives := hs.answer oneReading_steady htext
  rwa [← hfresh, h] at hgives

/-- The answer is what following the loop leads to. -/
theorem known_of_comesTo (last : Expr) (texts : List String)
    (hread : Expr.normalOfText? text = some e)
    (hsqueezed : Expr.normalOfText? (squeeze text) = some e) (hsupported : e.isSupported = true)
    (hcomes : settings.simplifier.comesTo last texts e [] = true)
    (hlast : Expr.normalOfText? (texts.getLastD e.text) = some last)
    (hfew : texts.length < settings.maxIterations) (hshown : last.rearranged.text = shown) :
    Known settings text e shown := by
  have hparse := Expr.parseNormal_of_normalOfText? hread
  have hsteady : Steady text := by
    unfold Steady
    rw [hparse, Expr.parseNormal_of_normalOfText? hsqueezed]
  obtain ⟨steps, hloop, -⟩ := Simplifier.reduceUpTo_of_comesTo hcomes
    (Expr.parseNormal_of_normalOfText? hlast) hfew
  have hanswer := resultOf_answer_of_reduceUpTo hparse hsupported hloop
  exact ⟨hsteady, hparse, gives_answer hsteady (hshown ▸ hanswer)⟩

theorem gives_false_of_sameKey? {a b : String} (hkey : EqualityCache.sameKey? a b = some false)
    (hsqueeze : squeeze a ≠ squeeze b) : Gives settings Steady (Session.areEqual a b) (.ok false) :=
  gives_false (EqualityCache.not_equalTexts_of_sameKey? hkey hsqueeze)

end Given

/-! ### A wrong sum in a product -/

/-- Two times the sum of three and four. -/
def twiceSum : Expr := .op .mul [.const 2, .sum [.const 3, .const 4]] true

theorem parseNormal_twiceSum : Expr.parseNormal "2(3+4)" = .ok twiceSum :=
  Expr.parseNormal_of_normalOfText? (by cbv)

theorem steady_twiceSum : Steady "2(3+4)" := steady_of_unspaced (by simp [isBlank])

/-- What can be made of it: the product distributed, in both orders of the terms, and the sum, which
can go wrong in three ways. -/
theorem nextSteps_twiceSum : ∃ step other sum,
    Explorer.nextSteps fresh.context .standard twiceSum = .ok [step, other, sum] ∧
      (step.after = "2 * 3 + 2 * 4" ∧ step.mistakes = []) ∧
      (other.after = "2 * 4 + 2 * 3" ∧ other.mistakes = []) ∧
      sum.after = "2 * 7" ∧ ∃ kind more, sum.mistakes = ⟨kind, "2 * 8"⟩ :: more := by
  have hsteps : ((Explorer.nextSteps fresh.context .standard twiceSum).toOption.map fun steps =>
        steps.map fun step => (step.after, step.mistakes.map fun mistake => mistake.after)) =
      some [("2 * 3 + 2 * 4", []), ("2 * 4 + 2 * 3", []),
        ("2 * 7", ["2 * 8", "2 * 6", "2 * 12"])] := by decide +kernel
  cases hnext : Explorer.nextSteps fresh.context .standard twiceSum with
  | error error =>
      rw [hnext] at hsteps
      cases hsteps
  | ok steps =>
      rw [hnext] at hsteps
      obtain ⟨step, rest, rfl, hstep, hrest⟩ := List.map_eq_cons_iff.mp (Option.some.inj hsteps)
      obtain ⟨other, rest, rfl, hother, hrest⟩ := List.map_eq_cons_iff.mp hrest
      obtain ⟨sum, rest, rfl, hsum, hrest⟩ := List.map_eq_cons_iff.mp hrest
      obtain rfl := List.map_eq_nil_iff.mp hrest
      obtain ⟨hafter, hmistakes⟩ := Prod.mk.inj hstep
      obtain ⟨hafter', hmistakes'⟩ := Prod.mk.inj hother
      obtain ⟨hafter'', hmistakes''⟩ := Prod.mk.inj hsum
      obtain ⟨⟨kind, _⟩, more, hmore, rfl, -⟩ := List.map_eq_cons_iff.mp hmistakes''
      exact ⟨step, other, sum, rfl, ⟨hafter, List.map_eq_nil_iff.mp hmistakes⟩,
        ⟨hafter', List.map_eq_nil_iff.mp hmistakes'⟩, hafter'', kind, more, hmore⟩

theorem known_twoTimesEight {text : String}
    (hread : Expr.normalOfText? text = some (.product [.const 2, .const 8]))
    (hsqueezed : Expr.normalOfText? (squeeze text) = some (.product [.const 2, .const 8])) :
    Known .standard text (.product [.const 2, .const 8]) "16" :=
  known_of_comesTo (.const 16) ["16"] hread hsqueezed rfl (by with_unfolding_all rfl) (by cbv)
    (by decide) (by cbv)

theorem known_twoTimesSeven : Known .standard "2 * 7" (.product [.const 2, .const 7]) "14" :=
  known_of_comesTo (.const 14) ["14"] (by cbv) (by cbv) rfl (by with_unfolding_all rfl) (by cbv)
    (by decide) (by cbv)

/-- No step leads to the wrong product. -/
theorem gives_findStep?_wrong {step other sum : Step} (hstep : step.after = "2 * 3 + 2 * 4")
    (hother : other.after = "2 * 4 + 2 * 3") (hsum : sum.after = "2 * 7") :
    Gives .standard Steady (Search.findStep? "2*8" [step, other, sum]) (.ok none) := by
  have hdiffer {candidate : Step} {text : String} (hafter : candidate.after = text)
      (hkey : EqualityCache.sameKey? text "2*8" = some false)
      (hsqueeze : squeeze text ≠ squeeze "2*8") :
      Gives .standard Steady (Session.areEqual candidate.after "2*8") (.ok false) := by
    rw [hafter]
    exact gives_false_of_sameKey? hkey hsqueeze
  refine .bind (a := false) (hdiffer hstep (by cbv) (by decide)) ?_
  refine .bind (a := false) (hdiffer hother (by cbv) (by decide)) ?_
  exact .bind (a := false) (hdiffer hsum (by cbv) (by decide)) (gives_pure none)

/-- The wrong product is one of the mistakes of adding the two numbers. -/
theorem gives_findMistake?_wrong {step other sum : Step} {kind : Mistake} {more : List MistakeStep}
    (hstep : step.mistakes = []) (hother : other.mistakes = []) (hsum : sum.after = "2 * 7")
    (hmistakes : sum.mistakes = ⟨kind, "2 * 8"⟩ :: more) :
    Gives .standard Steady (Search.findMistake? "2*8" [step, other, sum])
      (.ok (some (sum, kind))) := by
  have hequal : EqualTexts "2 * 8" "2*8" := ⟨by decide, by decide, .inl (by decide)⟩
  have hknown : Known .standard "2 * 8" (.product [.const 2, .const 8]) "16" :=
    known_twoTimesEight (by cbv) (by cbv)
  have hwrong : Gives .standard Steady (Search.isMistake "2*8" sum ⟨kind, "2 * 8"⟩) (.ok true) := by
    unfold Search.isMistake
    rw [hsum]
    refine .bind (gives_true hequal) (.bind hknown.answered (.bind known_twoTimesSeven.answered ?_))
    exact .bind (gives_false_of_sameKey? (by cbv) (by decide)) (gives_pure true)
  unfold Search.findMistake?
  rw [List.findSomeM?_cons, List.findSomeM?_cons, List.findSomeM?_cons, hstep, hother, hmistakes]
  refine .bind (a := none) (gives_pure _) (.bind (a := none) (gives_pure _) ?_)
  refine .bind (a := some (sum, kind)) ?_ (gives_pure _)
  exact .bind (a := some ⟨kind, "2 * 8"⟩) (.bind hwrong (gives_pure _)) (gives_pure _)

theorem gives_run_wrong : ∃ steps sum kind, sum.after = "2 * 7" ∧ Gives .standard Steady
    (Search.run "2(3+4)" "2*8") (.ok (some ⟨[⟨sum, changesOf steps⟩], some kind⟩)) := by
  obtain ⟨step, other, sum, hnext, ⟨hstep, hnone⟩, ⟨hother, hnone'⟩, hsum, kind, more, hmistakes⟩ :=
    nextSteps_twiceSum
  refine ⟨[step, other, sum], sum, kind, hsum, ?_⟩
  refine .get_bind (fun s s' hsettings _ => by rw [hsettings]) ?_
  refine .bind (.bind (gives_canonicalKey? "2(3+4)") (gives_pure _)) ?_
  refine .bind (gives_nextSteps steady_twiceSum parseNormal_twiceSum hnext) ?_
  refine .bind (gives_findStep?_wrong hstep hother hsum) ?_
  exact .bind (gives_findMistake?_wrong hnone hnone' hsum hmistakes) (gives_pure _)

theorem relabelSubtraction_shouldBe (info : StepInfo) :
    info.relabelSubtraction.isValid = info.isValid ∧
      info.relabelSubtraction.shouldBe = info.shouldBe := by
  rcases relabelSubtraction_cases info with heq | ⟨-, heq⟩
  · rw [heq]
    exact ⟨rfl, rfl⟩
  · rw [heq]
    exact ⟨rfl, rfl⟩

theorem gives_assess_wrong : ∃ info, info.isValid = false ∧ info.shouldBe = some "2 * 7" ∧
    Gives .standard Steady (assess "2(3+4)" "2*8" "14") (.ok [info]) := by
  have hafter : Known .standard "2*8" (.product [.const 2, .const 8]) "16" :=
    known_twoTimesEight (by cbv) (by cbv)
  obtain ⟨steps, sum, kind, hsum, hrun⟩ := gives_run_wrong
  have hreaches : Gives .standard Steady (reaches "2*8" "14") (.ok false) :=
    .bind hafter.answered (gives_false_of_sameKey? (by cbv) (by decide))
  let info : StepInfo := ⟨false, false, sum.before, "2*8", some sum.after, sum.change, some kind,
    changesOf steps, none, none⟩
  obtain ⟨hvalid, hshould⟩ := relabelSubtraction_shouldBe info
  refine ⟨info.relabelSubtraction, hvalid, hshould.trans (congrArg some hsum), ?_⟩
  refine .bind (gives_parse steady_twiceSum parseNormal_twiceSum) ?_
  refine .bind hafter.parse (.bind (gives_false_of_sameKey? (by cbv) (by decide)) (.bind hrun ?_))
  exact .bind (.bind (.bind hreaches (gives_pure _)) (gives_pure _)) (gives_pure _)

/-! ### The verdicts on a step -/

/-- **The verdicts on a step that changes the text tell a genuine path or that none was found.**
This is so in every session, whatever was asked of it before.  All verdicts but the last say that a
step is right, and the last one ends at the text of the student.  If a path is told, its steps are
those that the session lists, one after the other, for texts with different canonical keys; it has
no more steps than the limits allow; and the last verdict says that the step is right exactly if the
step leads to the text of the student.  Where it does not, no listed step does, and the verdict
names a mistake of the step that leads there and to a wrong answer. -/
theorem tells_of_assess {s : Session} (hs : Reachable s) {before after answer : String}
    {infos : List StepInfo} (hdiffer : s.resultOf (Session.areEqual before after) = .ok false)
    (h : s.resultOf (assess before after answer) = .ok infos) :
    let s' := s.stateAfter (assess before after answer)
    (∃ init info, infos = init ++ [info] ∧ info.after = after ∧
      ∀ other ∈ init, other.isValid = true ∧ other.mistake = none) ∧
    ((∃ path last, TellsPath s'.told s.settings before after answer path last infos) ∨
      ∃ info, infos = [info] ∧ TellsNothing s'.told before after answer info) ∧
    s'.explored.size ≤ s.explored.size + s.settings.maxStates + 1 := by
  intro s'
  have hcoherent := coherent_of_reachable hs
  have hdiffer : ¬EqualTexts before after := by
    intro hequal
    have hanswer := (yields_areEqual hcoherent before after).result false hdiffer
    exact absurd (hanswer.mpr hequal) Bool.false_ne_true
  have hyields := yields_assess hcoherent answer hdiffer
  have htold := hyields.coherent.implies_told
  obtain ⟨htells, hsize⟩ := hyields.result infos h
  rcases htells with ⟨path, last, htells⟩ | ⟨info, hinfos, htells⟩
  · exact ⟨htells.exists_append, .inl ⟨path, last, htells.mono htold⟩, hsize⟩
  · refine ⟨⟨[], info, hinfos, htells.after, ?_⟩, .inr ⟨info, hinfos, htells.mono htold⟩, hsize⟩
    intro other hother
    simp at hother

/-- Who adds three and four to eight in a product with two is told that it should have been seven,
for the two products have different answers. -/
theorem tells_of_assess_wrongSum : ∃ info,
    fresh.resultOf (Session.areEqual "2(3+4)" "2*8") = .ok false ∧
    fresh.resultOf (assess "2(3+4)" "2*8" "14") = .ok [info] ∧
    info.isValid = false ∧ info.shouldBe = some "2 * 7" ∧
    ((∃ path last, TellsPath (fresh.stateAfter (assess "2(3+4)" "2*8" "14")).told .standard
      "2(3+4)" "2*8" "14" path last [info]) ∨
      ∃ info', [info] = [info'] ∧
        TellsNothing (fresh.stateAfter (assess "2(3+4)" "2*8" "14")).told
          "2(3+4)" "2*8" "14" info') := by
  obtain ⟨info, hvalid, hshould, hgives⟩ := gives_assess_wrong
  have hfresh := faithful_ofSettings .standard Steady
  have hanswer : fresh.resultOf (Session.areEqual "2(3+4)" "2*8") = .ok false :=
    (gives_false_of_sameKey? (by cbv) (by decide) _ hfresh).1
  have hinfos := (hgives _ hfresh).1
  obtain ⟨-, htells, -⟩ := tells_of_assess (.ofSettings .standard) hanswer hinfos
  exact ⟨info, hanswer, hinfos, hvalid, hshould, htells⟩

end Assessment

end AlgebraTutor
