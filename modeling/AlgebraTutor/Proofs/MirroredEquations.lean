/-
Steps between equations with their sides exchanged.

An equation may be written the other way round, so the verdict on a step should not depend on it:
what is said of the left side of one equation is said of the right side of its mirror image.  But
the left side always comes first.  It is read, compared and searched before the right one, and all
of this is remembered, so the second side is graded by a session that knows more than the first one
had to go by.

What is remembered makes no difference here, so the two runs can be set against each other
operation by operation: an operation that gives something in any case may be made before another
one or after it.  What is left are the places where the sides are told apart, and each of these has
its mirror image.
-/
import AlgebraTutor.Proofs.EquationTexts
import AlgebraTutor.Proofs.EquationVerdicts
import AlgebraTutor.Proofs.ListedReductions

namespace AlgebraTutor

/-! ### Mirror images -/

/-- The change of an equation, seen from the other side. -/
def EquationChange.mirrored : EquationChange → EquationChange
  | .simplifyLhs => .simplifyRhs
  | .simplifyRhs => .simplifyLhs
  | change => change

/-- The mistake in an equation, seen from the other side. -/
def EquationError.mirrored : EquationError → EquationError
  | .removedFromLhsOnly => .removedFromRhsOnly
  | .removedFromRhsOnly => .removedFromLhsOnly
  | .addedToLhsOnly => .addedToRhsOnly
  | .addedToRhsOnly => .addedToLhsOnly
  | error => error

/-- The verdict on an equation, seen from the other side. -/
def EquationStepInfo.mirrored (info : EquationStepInfo) : EquationStepInfo :=
  ⟨info.right, info.left, info.change.mirrored, info.error.map EquationError.mirrored⟩

/-! ### Legible texts -/

/-- The text can be read, and reads the same without its white space. -/
def Legible (text : String) : Prop := Steady text ∧ ∃ e, Expr.parse text = .ok e

theorem oneReading_legible : OneReading Legible :=
  fun a b ha hb => oneReading_steady a b ha.1 hb.1

theorem legible_of_shows {text : String} (h : Expr.Shows text) : Legible text :=
  ⟨steady_of_shows h, h.exists_parse⟩

theorem Legible.exists_parseNormal {text : String} (h : Legible text) :
    ∃ e, Expr.parseNormal text = .ok e := by
  obtain ⟨-, e, he⟩ := h
  exact ⟨_, Expr.parseNormal_of_parse he⟩

/-- The texts of the side are legible, and so is its tree. -/
structure Side.IsLegible (side : Side) : Prop where
  before : Legible side.before
  tree : side.tree.IsPlain
  after : Legible side.after

namespace Session

variable {settings : Settings} {α β γ δ : Type}

/-! ### Operations that give something in any case -/

/-- The operation never fails in a session that remembers the trees of legible texts.  In all of
these it gives the same, and that satisfies `Q`. -/
def Settles (settings : Settings) {α : Type} (Q : α → Prop) (m : SessionM α) : Prop :=
  ∃ a, Q a ∧ Gives settings Legible m (.ok a)

/-- A transparent operation never fails if it does not in a new session. -/
theorem Transparent.settles {Q : α → Prop} {m : SessionM α}
    (h : Transparent settings Legible Q m)
    (hfresh : ∃ a, (ofSettings settings).resultOf m = .ok a) : Settles settings Q m := by
  obtain ⟨result, hQ, hm⟩ := h
  obtain ⟨a, ha⟩ := hfresh
  obtain ⟨hresult, -⟩ := hm _ (faithful_ofSettings settings Legible)
  obtain rfl := hresult.symm.trans ha
  exact ⟨a, hQ a rfl, hm⟩

theorem exploring_legible : Exploring Legible (Transparent settings Legible) :=
  exploring_transparent oneReading_legible fun _ => legible_of_shows

variable (settings) in
/-- **No operation of a search fails on legible texts.** -/
theorem searching_settles : Searching Legible (Settles settings) where
  pure h := ⟨_, h, gives_pure _⟩
  bind hm hf := by
    obtain ⟨a, ha, hm⟩ := hm
    obtain ⟨b, hb, hf⟩ := hf a ha
    exact ⟨b, hb, hm.bind hf⟩
  get_bind hf h := by
    obtain ⟨a, ha, hm⟩ := h (ofSettings settings)
    exact ⟨a, ha, .get_bind hf hm⟩
  shows := legible_of_shows
  parse {text} h := by
    obtain ⟨e, he⟩ := h.exists_parseNormal
    exact (exploring_legible.parse h).settles ⟨e, (resultOf_parse_ofSettings _ text).trans he⟩
  answer {text} h := by
    obtain ⟨e, he⟩ := h.exists_parseNormal
    obtain ⟨final, -, -, hanswer⟩ := exists_answer settings he
    exact (exploring_legible.answer h).settles ⟨_, hanswer⟩
  areEqual a b := (exploring_legible.areEqual a b).settles ⟨_, rfl⟩
  canonicalKey? text := (exploring_legible.canonicalKey? text).settles ⟨_, rfl⟩
  nextSteps {text} h := by
    obtain ⟨e, he⟩ := h.exists_parseNormal
    obtain ⟨steps, hsteps⟩ :=
      Explorer.exists_ok_of_nextSteps_standard (ofSettings settings).context e
    have hfresh := faithful_ofSettings settings Legible
    refine (exploring_legible.nextSteps h).settles ⟨steps, ?_⟩
    rw [(hfresh.nextSteps oneReading_legible h).1, he]
    exact hsteps

variable (settings) in
theorem settles_areEqual (a b : String) :
    Settles settings (fun equal => equal = true ↔ EqualTexts a b) (areEqual a b) := by
  obtain ⟨hequal, -, -⟩ := EqualityCache.sound_empty.areEqual a b
  exact ⟨_, hequal, gives_areEqual hequal⟩

/-! ### Two runs -/

/-- Neither operation fails, and what they give is related. -/
def Paired (settings : Settings) {α β : Type} (R : α → β → Prop) (m : SessionM α)
    (m' : SessionM β) : Prop :=
  ∃ a b, R a b ∧ Gives settings Legible m (.ok a) ∧ Gives settings Legible m' (.ok b)

theorem Paired.pure {R : α → β → Prop} {a : α} {b : β} (h : R a b) :
    Paired settings R (pure a) (pure b) :=
  ⟨a, b, h, gives_pure a, gives_pure b⟩

theorem Paired.bind {R : α → β → Prop} {R' : γ → δ → Prop} {m : SessionM α} {m' : SessionM β}
    {f : α → SessionM γ} {g : β → SessionM δ} (hm : Paired settings R m m')
    (hf : ∀ a b, R a b → Paired settings R' (f a) (g b)) :
    Paired settings R' (m >>= f) (m' >>= g) := by
  obtain ⟨a, b, hab, hm, hm'⟩ := hm
  obtain ⟨c, d, hcd, hf, hg⟩ := hf a b hab
  exact ⟨c, d, hcd, hm.bind hf, hm'.bind hg⟩

namespace Settles

variable {Q : α → Prop} {Q' : β → Prop} {m : SessionM α} {m' : SessionM β}

theorem paired (hm : Settles settings Q m) (hm' : Settles settings Q' m') {R : α → β → Prop}
    (hR : ∀ a b, Q a → Q' b → R a b) : Paired settings R m m' := by
  obtain ⟨a, ha, hm⟩ := hm
  obtain ⟨b, hb, hm'⟩ := hm'
  exact ⟨a, b, hR a b ha hb, hm, hm'⟩

/-- The same operation gives the same in both runs. -/
theorem same (hm : Settles settings Q m) : Paired settings (fun a b => a = b) m m := by
  obtain ⟨a, -, hm⟩ := hm
  exact ⟨a, a, rfl, hm, hm⟩

/-- **It does not matter which of two operations is made first.** -/
theorem exchange (hm : Settles settings Q m) (hm' : Settles settings Q' m')
    {R : γ → δ → Prop} {f : α → β → SessionM γ} {g : β → α → SessionM δ}
    (hf : ∀ a b, Q a → Q' b → Paired settings R (f a b) (g b a)) :
    Paired settings R (m >>= fun a => m' >>= fun b => f a b)
      (m' >>= fun b => m >>= fun a => g b a) := by
  obtain ⟨a, ha, hm⟩ := hm
  obtain ⟨b, hb, hm'⟩ := hm'
  obtain ⟨c, d, hcd, hf, hg⟩ := hf a b ha hb
  exact ⟨c, d, hcd, hm.bind (hm'.bind hf), hm'.bind (hm.bind hg)⟩

/-- Two questions may be asked in either order, and the second one only if the first one is answered
with yes. -/
theorem exchange_and {Q Q' : Bool → Prop} {p q : SessionM Bool} (hp : Settles settings Q p)
    (hq : Settles settings Q' q) {R : γ → δ → Prop} {f : Bool → SessionM γ} {g : Bool → SessionM δ}
    (hf : ∀ both, Paired settings R (f both) (g both)) :
    Paired settings R
      (do
        let first ← p
        let both ← if first then q else pure false
        f both)
      (do
        let first ← q
        let both ← if first then p else pure false
        g both) := by
  obtain ⟨a, -, hp⟩ := hp
  obtain ⟨b, -, hq⟩ := hq
  obtain ⟨c, d, hcd, hf, hg⟩ := hf (a && b)
  refine ⟨c, d, hcd, hp.bind ?_, hq.bind ?_⟩
  · cases a with
    | true => exact hq.bind hf
    | false => exact hf
  · rw [Bool.and_comm] at hg
    cases b with
    | true => exact hp.bind hg
    | false => exact hg

end Settles

end Session

namespace Assessment

open Session

variable {settings : Settings}

/-! ### The same changes, seen from both sides -/

theorem paired_sameOperation (a b : Operation) :
    Paired settings (fun same same' => same = same') (sameOperation a b) (sameOperation b a) := by
  unfold sameOperation
  by_cases hsign : a.sign = b.sign
  · rw [if_pos hsign, if_pos hsign.symm]
    have hab := settles_areEqual settings a.operand.text b.operand.text
    have hba := settles_areEqual settings b.operand.text a.operand.text
    refine hab.paired hba fun same same' h h' => Bool.eq_iff_iff.mpr ?_
    exact h.trans (Iff.trans ⟨.symm, .symm⟩ h'.symm)
  · rw [if_neg hsign, if_neg (Ne.symm hsign)]
    exact .pure rfl

/-- The second run gives the change and the mistake of the first one, seen from the other side. -/
def MirrorsVerdict (settings : Settings)
    (m m' : SessionM (EquationChange × Option EquationError)) : Prop :=
  Paired settings
    (fun verdict verdict' => verdict' = (verdict.1.mirrored, verdict.2.map EquationError.mirrored))
    m m'

theorem mirrors_movedVerdict (a b : Operation) :
    MirrorsVerdict settings (movedVerdict a b) (movedVerdict b a) := by
  refine (paired_sameOperation a b).bind fun same same' hsame => ?_
  subst hsame
  cases same with
  | true => exact .pure rfl
  | false => exact .pure rfl

/-- **The verdict on two changes is the same from both sides**, up to which side is which. -/
theorem mirrors_pairVerdict (left right : SideChange) :
    MirrorsVerdict settings (pairVerdict left right) (pairVerdict right left) := by
  cases left with
  | simplified => cases right <;> exact .pure rfl
  | removed a =>
      cases right with
      | added b => exact mirrors_movedVerdict a b
      | _ => exact .pure rfl
  | added a =>
      cases right with
      | removed b => exact mirrors_movedVerdict a b
      | _ => exact .pure rfl
  | unknown => cases right <;> exact .pure rfl

/-! ### The same step, seen from both sides -/

/-- The second run gives the verdict of the first one, seen from the other side. -/
def Mirrors (settings : Settings) (m m' : SessionM EquationStepInfo) : Prop :=
  Paired settings (fun info info' => info' = info.mirrored) m m'

section Sides

variable {left right : Side} (hleft : left.IsLegible) (hright : right.IsLegible)

include hleft hright

theorem mirrors_assessChanged : Mirrors settings
    (assessChanged left.before right.before left.after right.after left.tree right.tree)
    (assessChanged right.before left.before right.after left.after right.tree left.tree) := by
  have hsearching := searching_settles settings
  have hclassify := hsearching.classify hleft.tree hright.tree hleft.after
  have hclassify' := hsearching.classify hright.tree hleft.tree hright.after
  -- each side is classified by the same operation in both runs, and only the order is another one
  refine hclassify.exchange hclassify' fun leftChange rightChange hleftChange hrightChange => ?_
  refine (mirrors_pairVerdict leftChange rightChange).bind fun verdict verdict' hverdict => ?_
  subst hverdict
  have hsteps := hsearching.assessSide hleft.before hleft.after hleft.tree hleftChange
  have hsteps' := hsearching.assessSide hright.before hright.after hright.tree hrightChange
  exact hsteps.exchange hsteps' fun lefts rights _ _ => .pure rfl

theorem mirrors_assessCompared {leftSame rightSame : Bool}
    (hchanged : (leftSame && rightSame) = false) (swapped : Bool) : Mirrors settings
    (assessCompared left.before right.before left.after right.after left.tree right.tree
      leftSame rightSame swapped)
    (assessCompared right.before left.before right.after left.after right.tree left.tree
      rightSame leftSame swapped) := by
  have hsearching := searching_settles settings
  cases swapped with
  | true => exact .pure rfl
  | false =>
      cases rightSame with
      | true =>
          obtain rfl : leftSame = false := by simpa using hchanged
          refine (hsearching.assessFrom hleft.before hleft.after).same.bind fun lefts lefts' h => ?_
          subst h
          exact .pure rfl
      | false =>
          cases leftSame with
          | true =>
              have hsteps := hsearching.assessFrom hright.before hright.after
              refine hsteps.same.bind fun rights rights' h => ?_
              subst h
              exact .pure rfl
          | false => exact mirrors_assessChanged hleft hright

theorem mirrors_assessReadSides : Mirrors settings
    (assessReadSides left.before right.before left.after right.after left.tree right.tree)
    (assessReadSides right.before left.before right.after left.after right.tree left.tree) := by
  have hsame := settles_areEqual settings left.before left.after
  have hsame' := settles_areEqual settings right.before right.after
  refine hsame.exchange hsame' fun leftSame rightSame _ _ => ?_
  cases hboth : leftSame && rightSame with
  | true =>
      obtain ⟨rfl, rfl⟩ := Bool.and_eq_true_iff.mp hboth
      exact .pure rfl
  | false =>
      rw [Bool.and_comm rightSame leftSame, hboth]
      have hcrossed := settles_areEqual settings left.before right.after
      have hcrossed' := settles_areEqual settings right.before left.after
      exact hcrossed.exchange_and hcrossed' (mirrors_assessCompared hleft hright hboth)

end Sides

theorem mirrors_assessSides {lhs rhs lhs' rhs' : String} (hlhs : Legible lhs) (hrhs : Legible rhs)
    (hlhs' : Legible lhs') (hrhs' : Legible rhs') :
    Mirrors settings (assessSides lhs rhs lhs' rhs') (assessSides rhs lhs rhs' lhs') := by
  have hsearching := searching_settles settings
  refine (hsearching.parse hlhs).exchange (hsearching.parse hrhs) fun x y hx hy => ?_
  refine (hsearching.parse hlhs').exchange (hsearching.parse hrhs') fun _ _ _ _ => ?_
  have hleft : Side.IsLegible ⟨lhs, x, lhs'⟩ := ⟨hlhs, hx, hlhs'⟩
  have hright : Side.IsLegible ⟨rhs, y, rhs'⟩ := ⟨hrhs, hy, hrhs'⟩
  have hmirrors : Mirrors settings _ _ := mirrors_assessReadSides hleft hright
  exact hmirrors

/-! ### Equations -/

/-- The text can be read, and has no white space. -/
def Compact (text : String) : Prop :=
  (∀ c ∈ text.toList, isBlank c = false) ∧ ∃ e, Expr.parse text = .ok e

theorem Compact.of_parseNormal {text : String} {e : Expr}
    (hunspaced : ∀ c ∈ text.toList, isBlank c = false) (h : Expr.parseNormal text = .ok e) :
    Compact text := by
  obtain ⟨x, hx, -⟩ := Expr.exists_parse_of_parseNormal h
  exact ⟨hunspaced, x, hx⟩

theorem Compact.legible {text : String} (h : Compact text) : Legible text :=
  ⟨steady_of_unspaced h.1, h.2⟩

theorem splitSides_of_compact {lhs rhs : String} (hlhs : Compact lhs) (hrhs : Compact rhs) :
    splitSides (lhs ++ "=" ++ rhs) = .ok (lhs, rhs) := by
  obtain ⟨hunspaced, e, he⟩ := hlhs
  obtain ⟨hunspaced', e', he'⟩ := hrhs
  rw [splitSides_of_parse he he', trimBlanks_eq_self hunspaced, trimBlanks_eq_self hunspaced']

/-- **The verdict on a step between equations does not depend on which side is which.**  Where the
sides are exchanged before and after the step, a new session gives the steps of the sides exchanged,
and the same change and mistake as far as they do not name a side; if they do they name the other
one.  Neither of the two fails. -/
theorem assessEquation_mirrored (settings : Settings) {l r l' r' : String}
    (h : ∀ text ∈ [l, r, l', r'], Compact text) :
    ∃ info,
      (ofSettings settings).resultOf (assessEquation (l ++ "=" ++ r) (l' ++ "=" ++ r')) = .ok info ∧
      (ofSettings settings).resultOf (assessEquation (r ++ "=" ++ l) (r' ++ "=" ++ l')) =
        .ok info.mirrored := by
  have hl := h l (by simp)
  have hr := h r (by simp)
  have hl' := h l' (by simp)
  have hr' := h r' (by simp)
  obtain ⟨info, -, rfl, hgives, hgives'⟩ : Mirrors settings _ _ :=
    mirrors_assessSides hl.legible hr.legible hl'.legible hr'.legible
  have hfresh := faithful_ofSettings settings Legible
  refine ⟨info, ?_, ?_⟩
  · rw [assessEquation_eq, splitSides_of_compact hl hr, splitSides_of_compact hl' hr']
    exact (hgives _ hfresh).1
  · rw [assessEquation_eq, splitSides_of_compact hr hl, splitSides_of_compact hr' hl']
    exact (hgives' _ hfresh).1

/-- From `8 = 2x` to `8/2 = 2x/2` both sides are divided by two, as they are the other way round. -/
theorem assessEquation_mirrored_half :
    fresh.resultOf (assessEquation "8=2x" "8/2=2x/2") =
      .ok ⟨[tagged (.added ⟨'/', .const 2⟩) (.unchanged "8/2" "8/2")],
        [tagged (.removed ⟨'/', .const 2⟩) (.unchanged "2x/2" "2x/2")], .sameOperationBothSides,
        none⟩ := by
  have hcompact : ∀ text ∈ ["2x", "8", "2x/2", "8/2"], Compact text := by
    simp only [List.forall_mem_cons, List.not_mem_nil, false_implies, implies_true, and_true]
    exact ⟨.of_parseNormal (by simp [isBlank]) known_twoX.read,
      .of_parseNormal (by simp [isBlank]) known_eight.read,
      .of_parseNormal (by simp [isBlank]) known_twoX_overTwo.read,
      .of_parseNormal (by simp [isBlank]) known_eight_overTwo.read⟩
  obtain ⟨info, hinfo, hmirrored⟩ := assessEquation_mirrored .standard hcompact
  have hknown := (gives_assessEquation_half _ (faithful_ofSettings .standard Steady)).1
  obtain rfl := Except.ok.inj (hinfo.symm.trans hknown)
  exact hmirrored

end Assessment

end AlgebraTutor
