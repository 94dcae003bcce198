/-
How the sides of an equation changed.

If both sides have changed, each is sorted by what explains its change: it has the answer it had, or
the first operation is taken after which it has the answer of the new text.  The two changes are
then set against each other.  So a verdict on both changes rests on two searches, and on nothing but
answers.
-/
import AlgebraTutor.Proofs.SearchPaths

namespace AlgebraTutor

open Session

/-- One side of an equation: its text and its tree before the step, and its text after it. -/
structure Side where
  before : String
  tree : Expr
  after : String

namespace Assessment

/-! ### How one side changed -/

/-- The tree, as it is printed, has the answer of the text. -/
def SameAnswer (F : Facts) (e : Expr) (text : String) : Prop :=
  ∃ first second, F.answers e.text first ∧ F.answers text second ∧ F.equal first second

/-- The tree, as it is printed, has another answer than the text. -/
def OtherAnswer (F : Facts) (e : Expr) (text : String) : Prop :=
  ∃ first second, F.answers e.text first ∧ F.answers text second ∧ ¬F.equal first second

/-- The operation is the first one of the list after which the tree has the answer of the text. -/
def FirstToExplain (F : Facts) (e : Expr) (text : String) (operations : List Operation)
    (operation : Operation) : Prop :=
  ∃ earlier later, operations = earlier ++ operation :: later ∧
    (∀ other ∈ earlier, OtherAnswer F (other.apply e) text) ∧
    SameAnswer F (operation.apply e) text

/-- The side changed like this, and in none of the ways that are looked for before. -/
def ChangedBy (F : Facts) (side other : Side) : SideChange → Prop
  | .simplified => SameAnswer F side.tree side.after
  | .removed operation => OtherAnswer F side.tree side.after ∧
      FirstToExplain F side.tree side.after (Operation.removals side.tree) operation
  | .added operation => OtherAnswer F side.tree side.after ∧
      (∀ removal ∈ Operation.removals side.tree,
        OtherAnswer F (removal.apply side.tree) side.after) ∧
      FirstToExplain F side.tree side.after (additions side.tree other.tree) operation
  | .unknown => OtherAnswer F side.tree side.after ∧
      (∀ removal ∈ Operation.removals side.tree,
        OtherAnswer F (removal.apply side.tree) side.after) ∧
      ∀ addition ∈ additions side.tree other.tree,
        OtherAnswer F (addition.apply side.tree) side.after

section Changes

variable {F G : Facts} {e : Expr} {text : String} {operations : List Operation}
  {operation : Operation}

theorem SameAnswer.mono (hFG : F.Implies G) (h : SameAnswer F e text) : SameAnswer G e text := by
  obtain ⟨first, second, hfirst, hsecond, hequal⟩ := h
  exact ⟨first, second, hFG.answers _ _ hfirst, hFG.answers _ _ hsecond,
    (hFG.equal_iff _ _).mp hequal⟩

theorem OtherAnswer.mono (hFG : F.Implies G) (h : OtherAnswer F e text) : OtherAnswer G e text := by
  obtain ⟨first, second, hfirst, hsecond, hdiffer⟩ := h
  exact ⟨first, second, hFG.answers _ _ hfirst, hFG.answers _ _ hsecond,
    fun hequal => hdiffer ((hFG.equal_iff _ _).mpr hequal)⟩

theorem FirstToExplain.mono (hFG : F.Implies G) (h : FirstToExplain F e text operations operation) :
    FirstToExplain G e text operations operation := by
  obtain ⟨earlier, later, hsplit, hearlier, hexplains⟩ := h
  exact ⟨earlier, later, hsplit, fun other hother => (hearlier other hother).mono hFG,
    hexplains.mono hFG⟩

theorem FirstToExplain.mem (h : FirstToExplain F e text operations operation) :
    operation ∈ operations := by
  obtain ⟨earlier, later, rfl, -, -⟩ := h
  simp

theorem FirstToExplain.explains (h : FirstToExplain F e text operations operation) :
    SameAnswer F (operation.apply e) text := by
  obtain ⟨-, -, -, -, hexplains⟩ := h
  exact hexplains

theorem ChangedBy.mono (hFG : F.Implies G) {side other : Side} {change : SideChange}
    (h : ChangedBy F side other change) : ChangedBy G side other change := by
  cases change with
  | simplified => exact SameAnswer.mono hFG h
  | removed operation => exact ⟨h.1.mono hFG, h.2.mono hFG⟩
  | added operation =>
      obtain ⟨hdiffer, hremovals, hfirst⟩ := h
      exact ⟨hdiffer.mono hFG, fun removal hmem => (hremovals removal hmem).mono hFG,
        hfirst.mono hFG⟩
  | unknown =>
      obtain ⟨hdiffer, hremovals, hadditions⟩ := h
      exact ⟨hdiffer.mono hFG, fun removal hmem => (hremovals removal hmem).mono hFG,
        fun addition hmem => (hadditions addition hmem).mono hFG⟩

end Changes

/-! ### The verdict on both changes -/

/-- The operations have the same sign and operands that are equal as they are printed. -/
def SameOperation (F : Facts) (a b : Operation) : Prop :=
  a.sign = b.sign ∧ F.equal a.operand.text b.operand.text

/-- The first operation takes something away from its own side or the second one does, and the other
one is done to the other side. -/
def Moves (left right : SideChange) (a b : Operation) : Prop :=
  left = .removed a ∧ right = .added b ∨ left = .added a ∧ right = .removed b

/-- Nothing was done to the side as far as can be told. -/
def Idle (change : SideChange) : Prop := change = .simplified ∨ change = .unknown

/-- What a mistake says of the changes of both sides. -/
def Blames (F : Facts) (left right : SideChange) : EquationError → Prop
  | .attemptedRemovalBothSides => ∃ a b, left = .removed a ∧ right = .removed b
  | .placedBothSides => ∃ a b, left = .added a ∧ right = .added b
  | .notSameOpPerformed => ∃ a b, Moves left right a b ∧ ¬SameOperation F a b
  | .removedFromLhsOnly => (∃ a, left = .removed a) ∧ Idle right
  | .removedFromRhsOnly => Idle left ∧ ∃ b, right = .removed b
  | .addedToLhsOnly => (∃ a, left = .added a) ∧ Idle right
  | .addedToRhsOnly => Idle left ∧ ∃ b, right = .added b

/-- What the verdict says of the changes of both sides. -/
structure Judges (F : Facts) (left right : SideChange) (change : EquationChange)
    (error : Option EquationError) : Prop where
  reported : change = .simplifyBoth ∨ change = .sameOperationBothSides ∨ change = .unknown
  simplifyBoth : change = .simplifyBoth → left = .simplified ∧ right = .simplified
  sameOperation : change = .sameOperationBothSides →
    ∃ a b, Moves left right a b ∧ SameOperation F a b
  mistaken : ∀ mistake, error = some mistake → change = .unknown ∧ Blames F left right mistake
  /-- Nothing is known of a side if the change is unknown without a mistake. -/
  undecided : change = .unknown → error = none →
    Idle left ∧ Idle right ∧ (left = .unknown ∨ right = .unknown)

theorem Judges.mono {F G : Facts} (hFG : F.Implies G) {left right : SideChange}
    {change : EquationChange} {error : Option EquationError}
    (h : Judges F left right change error) : Judges G left right change error := by
  have hsame {a b : Operation} : SameOperation F a b ↔ SameOperation G a b :=
    and_congr_right fun _ => hFG.equal_iff _ _
  refine { h with
    sameOperation := fun hchange => ?_
    mistaken := fun mistake hmistake => ?_ }
  · obtain ⟨a, b, hmoves, hab⟩ := h.sameOperation hchange
    exact ⟨a, b, hmoves, hsame.mp hab⟩
  · obtain ⟨hunknown, hblames⟩ := h.mistaken mistake hmistake
    refine ⟨hunknown, ?_⟩
    cases mistake with
    | notSameOpPerformed =>
        obtain ⟨a, b, hmoves, hab⟩ := hblames
        exact ⟨a, b, hmoves, fun h => hab (hsame.mpr h)⟩
    | attemptedRemovalBothSides => exact hblames
    | placedBothSides => exact hblames
    | removedFromLhsOnly => exact hblames
    | removedFromRhsOnly => exact hblames
    | addedToLhsOnly => exact hblames
    | addedToRhsOnly => exact hblames

section Classifying

variable {S : Settings → Prop} {s : Session} (hs : s.Coherent S)

include hs

theorem yields_explains (before : Expr) (after : String) (operation : Operation) :
    s.Yields S (explains before after operation) fun found s' =>
      (found = true → SameAnswer s'.remembered (operation.apply before) after) ∧
        (found = false → OtherAnswer s'.remembered (operation.apply before) after) := by
  refine (yields_answer hs _).bind fun first s₁ hs₁ _ hfirst => ?_
  refine (yields_answer hs₁ after).bind fun second s₂ hs₂ h₂ hsecond => ?_
  refine (yields_areEqual hs₂ first second).weaken fun found s₃ _ h₃ hfound => ?_
  have hfirst := h₃.answers _ _ (h₂.answers _ _ hfirst)
  have hsecond := h₃.answers _ _ hsecond
  refine ⟨fun h => ⟨first, second, hfirst, hsecond, hfound.mp h⟩, fun h => ?_⟩
  exact ⟨first, second, hfirst, hsecond, fun hequal => by simp [hfound.mpr hequal] at h⟩

theorem yields_findExplanation (before : Expr) (after : String) (operations : List Operation) :
    s.Yields S (operations.findM? (explains before after)) fun found s' =>
      (∀ operation, found = some operation →
        FirstToExplain s'.remembered before after operations operation) ∧
      (found = none → ∀ operation ∈ operations,
        OtherAnswer s'.remembered (operation.apply before) after) :=
  .findFirstM? hs (fun _ _ _ hkept h => h.mono hkept.implies)
    fun operation _ _ hs' _ => yields_explains hs' before after operation

/-- **A side is sorted by what explains its change.** -/
theorem yields_classify (side other : Side) :
    s.Yields S (classify side.tree side.after other.tree) fun change s' =>
      ChangedBy s'.remembered side other change := by
  refine (yields_answer hs _).bind fun first s₁ hs₁ _ hfirst => ?_
  refine (yields_answer hs₁ side.after).bind fun second s₂ hs₂ h₂ hsecond => ?_
  refine (yields_areEqual hs₂ first second).bind fun same s₃ hs₃ h₃ hsame => ?_
  have hfirst := h₃.answers _ _ (h₂.answers _ _ hfirst)
  have hsecond := h₃.answers _ _ hsecond
  cases same with
  | true => exact .pure hs₃ ⟨first, second, hfirst, hsecond, hsame.mp rfl⟩
  | false =>
      have hother : OtherAnswer s₃.remembered side.tree side.after :=
        ⟨first, second, hfirst, hsecond, fun hequal => Bool.false_ne_true (hsame.mpr hequal)⟩
      refine (yields_findExplanation hs₃ side.tree side.after _).bind
        fun removed s₄ hs₄ h₄ hremoved => ?_
      cases removed with
      | some operation => exact .pure hs₄ ⟨hother.mono h₄.implies, hremoved.1 operation rfl⟩
      | none =>
          refine (yields_findExplanation hs₄ side.tree side.after _).bind
            fun added s₅ hs₅ h₅ hadded => ?_
          have hother := hother.mono (h₅.trans h₄).implies
          have hremovals : ∀ removal ∈ Operation.removals side.tree,
              OtherAnswer s₅.remembered (removal.apply side.tree) side.after :=
            fun removal hmem => (hremoved.2 rfl removal hmem).mono h₅.implies
          cases added with
          | some operation => exact .pure hs₅ ⟨hother, hremovals, hadded.1 operation rfl⟩
          | none => exact .pure hs₅ ⟨hother, hremovals, hadded.2 rfl⟩

theorem yields_sameOperation (a b : Operation) :
    s.Yields S (sameOperation a b) fun same s' =>
      same = true ↔ SameOperation s'.remembered a b := by
  unfold sameOperation
  split
  · next hsign =>
      refine (yields_areEqual hs _ _).weaken fun same s' _ _ hsame => ?_
      exact hsame.trans ⟨fun hequal => ⟨hsign, hequal⟩, fun h => h.2⟩
  · next hsign => exact .pure hs (iff_of_false Bool.false_ne_true fun h => hsign h.1)

theorem yields_movedVerdict {left right : SideChange} {a b : Operation}
    (hmoves : Moves left right a b) :
    s.Yields S (movedVerdict a b) fun verdict s' =>
      Judges s'.remembered left right verdict.1 verdict.2 := by
  refine (yields_sameOperation hs a b).bind fun same s' hs' _ hsame => ?_
  cases same with
  | true =>
      exact .pure hs' ⟨.inr (.inl rfl), nofun, fun _ => ⟨a, b, hmoves, hsame.mp rfl⟩, nofun, nofun⟩
  | false =>
      refine .pure hs' ⟨.inr (.inr rfl), nofun, nofun, fun mistake hmistake => ?_, nofun⟩
      obtain rfl := Option.some.inj hmistake
      exact ⟨rfl, a, b, hmoves, fun h => Bool.false_ne_true (hsame.mpr h)⟩

/-- Changes that tell a mistake at once. -/
theorem yields_blame {left right : SideChange} {mistake : EquationError}
    (h : Blames s.remembered left right mistake) :
    s.Yields S (pure (EquationChange.unknown, some mistake)) fun verdict s' =>
      Judges s'.remembered left right verdict.1 verdict.2 := by
  refine .pure hs ⟨.inr (.inr rfl), nofun, nofun, fun other hother => ?_, nofun⟩
  obtain rfl := Option.some.inj hother
  exact ⟨rfl, h⟩

/-- **Both changes together decide the verdict.** -/
theorem yields_pairVerdict (left right : SideChange) :
    s.Yields S (pairVerdict left right) fun verdict s' =>
      Judges s'.remembered left right verdict.1 verdict.2 := by
  have hundecided {left right : SideChange} (hleft : Idle left) (hright : Idle right)
      (h : left = .unknown ∨ right = .unknown) :
      s.Yields S (pure (EquationChange.unknown, none)) fun verdict s' =>
        Judges s'.remembered left right verdict.1 verdict.2 :=
    .pure hs ⟨.inr (.inr rfl), nofun, nofun, nofun, fun _ _ => ⟨hleft, hright, h⟩⟩
  cases left with
  | simplified =>
      cases right with
      | simplified => exact .pure hs ⟨.inl rfl, fun _ => ⟨rfl, rfl⟩, nofun, nofun, nofun⟩
      | removed b => exact yields_blame hs ⟨.inl rfl, b, rfl⟩
      | added b => exact yields_blame hs ⟨.inl rfl, b, rfl⟩
      | unknown => exact hundecided (.inl rfl) (.inr rfl) (.inr rfl)
  | removed a =>
      cases right with
      | simplified => exact yields_blame hs ⟨⟨a, rfl⟩, .inl rfl⟩
      | removed b => exact yields_blame hs ⟨a, b, rfl, rfl⟩
      | added b => exact yields_movedVerdict hs (.inl ⟨rfl, rfl⟩)
      | unknown => exact yields_blame hs ⟨⟨a, rfl⟩, .inr rfl⟩
  | added a =>
      cases right with
      | simplified => exact yields_blame hs ⟨⟨a, rfl⟩, .inl rfl⟩
      | removed b => exact yields_movedVerdict hs (.inr ⟨rfl, rfl⟩)
      | added b => exact yields_blame hs ⟨a, b, rfl, rfl⟩
      | unknown => exact yields_blame hs ⟨⟨a, rfl⟩, .inr rfl⟩
  | unknown =>
      cases right with
      | simplified => exact hundecided (.inr rfl) (.inl rfl) (.inl rfl)
      | removed b => exact yields_blame hs ⟨.inr rfl, b, rfl⟩
      | added b => exact yields_blame hs ⟨.inr rfl, b, rfl⟩
      | unknown => exact hundecided (.inr rfl) (.inr rfl) (.inl rfl)

end Classifying

end Assessment

end AlgebraTutor
