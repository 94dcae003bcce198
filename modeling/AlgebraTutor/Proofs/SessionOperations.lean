/-
What all operations of a session have in common.

Searching and grading touch the memory of a session only through the operations on one text.  So a
property of operations that these have, and that is kept when operations follow one another, is a
property of all.  It is stated with a condition on what the operation gives, since a text that comes
out of one operation goes into the next: the texts that may go in satisfy `T`, and everything that
comes out of the tutor does.

That sessions stay coherent is the first property of this kind.
-/
import AlgebraTutor.Proofs.SessionMemory

namespace AlgebraTutor

/-! ### Properties of all operations -/

/-- All texts that the steps lead to, by mistake or not. -/
def Listed (T : String → Prop) (steps : List Step) : Prop :=
  ∀ step ∈ steps, T step.after ∧ ∀ mistake ∈ step.mistakes, T mistake.after

/-- The verdict says nothing of an operation on a side of an equation. -/
def StepInfo.Untagged (info : StepInfo) : Prop := info.added = none ∧ info.removed = none

theorem StepInfo.Untagged.relabelSubtraction {info : StepInfo} (h : info.Untagged) :
    info.relabelSubtraction.Untagged := by
  unfold StepInfo.relabelSubtraction
  split
  · exact h
  · exact h

/-! ### Grading in parts -/

namespace Assessment

open Session

/-- The verdicts on a step between two expressions that have been read. -/
def assessReadTexts (before after answer : String) : SessionM (List StepInfo) := do
  if ← areEqual before after then return [.unchanged before after]
  else
    let infos ← match ← Search.run before after with
      | some found => describe answer after found.mistake found.path
      | none => pure [← unknown before after answer]
    return infos.map StepInfo.relabelSubtraction

theorem assess_eq (before after answer : String) :
    assess before after answer = (do
      let _ ← parse before
      let _ ← parse after
      assessReadTexts before after answer) := rfl

/-- The verdict on an equation both of whose sides have changed. -/
def assessChanged (lhsText rhsText lhsText' rhsText' : String) (lhs rhs : Expr) :
    SessionM EquationStepInfo := do
  let leftChange ← classify lhs lhsText' rhs
  let rightChange ← classify rhs rhsText' lhs
  let (change, error) ← pairVerdict leftChange rightChange
  let left ← assessSide lhsText lhs lhsText' leftChange
  let right ← assessSide rhsText rhs rhsText' rightChange
  return ⟨left, right, change, error⟩

/-- The verdict on an equation of whose sides it is known whether they are still the same, not both
of them, or were swapped. -/
def assessCompared (lhsText rhsText lhsText' rhsText' : String) (lhs rhs : Expr)
    (lhsSame rhsSame swapped : Bool) : SessionM EquationStepInfo := do
  if swapped then
    return ⟨[.unchanged lhsText rhsText'], [.unchanged rhsText lhsText'], .swapSides, none⟩
  if rhsSame then
    let left ← assessFrom lhsText lhsText'
    return ⟨left, [.unchanged rhsText rhsText'], .simplifyLhs, none⟩
  if lhsSame then
    let right ← assessFrom rhsText rhsText'
    return ⟨[.unchanged lhsText lhsText'], right, .simplifyRhs, none⟩
  assessChanged lhsText rhsText lhsText' rhsText' lhs rhs

/-- The verdict on an equation whose sides have been read. -/
def assessReadSides (lhsText rhsText lhsText' rhsText' : String) (lhs rhs : Expr) :
    SessionM EquationStepInfo := do
  let lhsSame ← areEqual lhsText lhsText'
  let rhsSame ← areEqual rhsText rhsText'
  if lhsSame && rhsSame then
    return ⟨[.unchanged lhsText lhsText'], [.unchanged rhsText rhsText'], .noChange, none⟩
  let crossed ← areEqual lhsText rhsText'
  let swapped ← if crossed then areEqual rhsText lhsText' else pure false
  assessCompared lhsText rhsText lhsText' rhsText' lhs rhs lhsSame rhsSame swapped

/-- The verdict on an equation of which only the texts of the sides are known. -/
def assessSides (lhsText rhsText lhsText' rhsText' : String) : SessionM EquationStepInfo := do
  let lhs ← parse lhsText
  let rhs ← parse rhsText
  let _ ← parse lhsText'
  let _ ← parse rhsText'
  assessReadSides lhsText rhsText lhsText' rhsText' lhs rhs

theorem assessEquation_eq (before after : String) :
    assessEquation before after = (do
      let (lhsText, rhsText) ← liftExcept (splitSides before)
      let (lhsText', rhsText') ← liftExcept (splitSides after)
      assessSides lhsText rhsText lhsText' rhsText') := rfl

end Assessment

namespace Session

/-- A property of operations, with a condition on what they give, that is kept when operations
follow one another and that the operations on one text in `T` have.  Listing steps is left out
here, since it is not needed to compare what was listed, and simplification everywhere, since no
other operation makes use of it. -/
structure Compositional (T : String → Prop)
    (P : ∀ {α : Type}, (α → Prop) → SessionM α → Prop) : Prop where
  pure {α : Type} {Q : α → Prop} {a : α} (h : Q a) : P Q (pure a)
  bind {α β : Type} {Q : α → Prop} {R : β → Prop} {m : SessionM α} {f : α → SessionM β}
    (hm : P Q m) (hf : ∀ a, Q a → P R (f a)) : P R (m >>= f)
  /-- Of the session itself, no more than its settings and its rules are used. -/
  get_bind {α : Type} {Q : α → Prop} {f : Session → SessionM α}
    (hf : ∀ s s' : Session, s.settings = s'.settings → s.rules = s'.rules → f s = f s')
    (h : ∀ s, P Q (f s)) : P Q (get >>= f)
  /-- The texts of trees are in `T`. -/
  shows {text : String} (h : Expr.Shows text) : T text
  parse {text : String} (h : T text) : P Expr.IsPlain (parse text)
  answer {text : String} (h : T text) : P T (answer text)
  areEqual (a b : String) : P (fun _ => True) (areEqual a b)
  canonicalKey? (text : String) : P (fun _ => True) (canonicalKey? text)

/-- Listing the steps from a text has the property as well, so a search has it. -/
structure Searching (T : String → Prop)
    (P : ∀ {α : Type}, (α → Prop) → SessionM α → Prop) : Prop extends Compositional T P where
  nextSteps {text : String} (h : T text) : P (Listed T) (nextSteps text)

/-- What may fail for reasons of its own has the property as well, and so has reading without
remembering. -/
structure Exploring (T : String → Prop)
    (P : ∀ {α : Type}, (α → Prop) → SessionM α → Prop) : Prop extends Searching T P where
  liftExcept {α : Type} {Q : α → Prop} {r : Except Error α} (h : ∀ a, r = .ok a → Q a) :
    P Q (liftExcept r)
  parseSilently {text : String} (h : T text) : P Expr.IsPlain (parseSilently text)

namespace Compositional

variable {T : String → Prop} {P : ∀ {α : Type}, (α → Prop) → SessionM α → Prop}
  (h : Compositional T P) {α β : Type}

include h

theorem weaken {Q R : α → Prop} {m : SessionM α} (hm : P Q m) (hQ : ∀ a, Q a → R a) : P R m := by
  rw [← bind_pure m]
  exact h.bind hm fun a ha => h.pure (hQ a ha)

theorem findM? {p : α → SessionM Bool} {as : List α} (hp : ∀ a ∈ as, P (fun _ => True) (p a)) :
    P (fun found => ∀ a, found = some a → a ∈ as) (as.findM? p) := by
  induction as with
  | nil => exact h.pure nofun
  | cons a as ih =>
      refine h.bind (hp a (.head _)) fun found _ => ?_
      cases found with
      | true =>
          refine h.pure fun b hb => ?_
          obtain rfl := Option.some.inj hb
          exact .head _
      | false =>
          have hrest := ih fun b hb => hp b (.tail _ hb)
          exact h.weaken hrest fun found hfound b hb => .tail _ (hfound b hb)

theorem findSomeM? {f : α → SessionM (Option β)} {Q : α → β → Prop} {as : List α}
    (hf : ∀ a ∈ as, P (fun found => ∀ b, found = some b → Q a b) (f a)) :
    P (fun found => ∀ b, found = some b → ∃ a ∈ as, Q a b) (as.findSomeM? f) := by
  induction as with
  | nil => exact h.pure nofun
  | cons a as ih =>
      rw [List.findSomeM?_cons]
      refine h.bind (hf a (.head _)) fun found hfound => ?_
      cases found with
      | some b =>
          refine h.pure fun c hc => ?_
          obtain rfl := Option.some.inj hc
          exact ⟨a, .head _, hfound b rfl⟩
      | none =>
          have hrest := ih fun b hb => hf b (.tail _ hb)
          refine h.weaken hrest fun found hfound b hb => ?_
          obtain ⟨c, hc, hQ⟩ := hfound b hb
          exact ⟨c, .tail _ hc, hQ⟩

/-! ### The search -/

/-- All texts that a path goes through. -/
def Travels (T : String → Prop) (path : List Hop) : Prop := ∀ hop ∈ path, T hop.step.after

omit h in
theorem Travels.concat {path : List Hop} (hpath : Travels T path) {step : Step}
    {available : List Change} (hstep : T step.after) :
    Travels T (path ++ [⟨step, available⟩]) := by
  intro other hother
  rcases List.mem_append.mp hother with hother | hother
  · exact hpath other hother
  · obtain rfl := List.mem_singleton.mp hother
    exact hstep

theorem stateKey (text : String) : P (fun _ => True) (Search.stateKey text) :=
  h.bind (h.canonicalKey? text) fun _ _ => h.pure trivial

theorem findStep? (goal : String) (candidates : List Step) :
    P (fun found => ∀ step, found = some step → step ∈ candidates)
      (Search.findStep? goal candidates) :=
  h.findM? fun candidate _ => h.areEqual candidate.after goal

theorem isMistake (goal : String) {candidate : Step} {mistake : MistakeStep}
    (hcandidate : T candidate.after) (hmistake : T mistake.after) :
    P (fun _ => True) (Search.isMistake goal candidate mistake) := by
  refine h.bind (h.areEqual mistake.after goal) fun found _ => ?_
  cases found with
  | false => exact h.pure trivial
  | true =>
      refine h.bind (h.answer hmistake) fun wrong _ => ?_
      refine h.bind (h.answer hcandidate) fun right _ => ?_
      exact h.bind (h.areEqual wrong right) fun _ _ => h.pure trivial

theorem findMistake? (goal : String) {candidates : List Step} (hlisted : Listed T candidates) :
    P (fun found => ∀ step mistake, found = some (step, mistake) → step ∈ candidates)
      (Search.findMistake? goal candidates) := by
  have hcandidate : ∀ candidate ∈ candidates,
      P (fun found : Option (Step × Mistake) => ∀ pair, found = some pair → pair.1 = candidate)
        (do
          let mistake ← candidate.mistakes.findM? (Search.isMistake goal candidate)
          return mistake.map fun mistake => (candidate, mistake.kind)) := by
    intro candidate hmem
    obtain ⟨hafter, hmistakes⟩ := hlisted candidate hmem
    have hmistake := h.findM? fun mistake hmem => h.isMistake goal hafter (hmistakes mistake hmem)
    refine h.bind hmistake fun mistake _ => h.pure fun pair hpair => ?_
    obtain ⟨mistake, -, rfl⟩ := Option.map_eq_some_iff.mp hpair
    rfl
  refine h.weaken (h.findSomeM? hcandidate) fun found hfound step mistake heq => ?_
  obtain ⟨candidate, hmem, rfl⟩ := hfound _ heq
  exact hmem

theorem expand {path : List Hop} (hpath : Travels T path) (available : List Change) :
    ∀ {candidates : List Step} {seen : Std.TreeSet String}, Listed T candidates →
      P (fun found => ∀ state : Search.State, state ∈ found.1 → T state.text ∧ Travels T state.path)
        (Search.expand path available candidates seen) := by
  intro candidates
  induction candidates with
  | nil =>
      intro seen _
      exact h.pure nofun
  | cons candidate rest ih =>
      intro seen hlisted
      have hafter := (hlisted candidate (.head _)).1
      have hrest : Listed T rest := fun step hstep => hlisted step (.tail _ hstep)
      refine h.bind (h.stateKey candidate.after) fun key _ => ?_
      split
      · exact ih hrest
      · refine h.bind (ih hrest) fun found hfound => h.pure fun state hstate => ?_
        rcases List.mem_cons.mp hstate with rfl | hstate
        · exact ⟨hafter, hpath.concat hafter⟩
        · exact hfound state hstate

/-! ### Verdicts -/

theorem reaches {text : String} (htext : T text) (answer : String) :
    P (fun _ => True) (Assessment.reaches text answer) :=
  h.bind (h.answer htext) fun reached _ => h.areEqual reached answer

theorem describeHop (answer : String) {hop : Hop} (hhop : T hop.step.after) :
    P StepInfo.Untagged (Assessment.describeHop answer hop) :=
  h.bind (h.reaches hhop answer) fun _ _ => h.pure ⟨rfl, rfl⟩

theorem describeLast (answer : String) {goal : String} (hgoal : T goal) (mistake : Option Mistake)
    (hop : Hop) : P StepInfo.Untagged (Assessment.describeLast answer goal mistake hop) :=
  h.bind (h.reaches hgoal answer) fun _ _ => h.pure ⟨rfl, rfl⟩

theorem describe (answer : String) {goal : String} (hgoal : T goal) (mistake : Option Mistake) :
    ∀ {path : List Hop}, Travels T path →
      P (fun infos => ∀ info ∈ infos, info.Untagged)
        (Assessment.describe answer goal mistake path) := by
  intro path
  induction path with
  | nil =>
      intro _
      exact h.pure (List.forall_mem_nil _)
  | cons hop path ih =>
      intro hpath
      cases path with
      | nil =>
          refine h.bind (h.describeLast answer hgoal mistake hop) fun info hinfo => h.pure ?_
          exact List.forall_mem_singleton.mpr hinfo
      | cons next path =>
          have hrest : Travels T (next :: path) := fun hop hhop => hpath hop (.tail _ hhop)
          refine h.bind (h.describeHop answer (hpath hop (.head _))) fun info hinfo => ?_
          refine h.bind (ih hrest) fun infos hinfos => h.pure ?_
          exact List.forall_mem_cons.mpr ⟨hinfo, hinfos⟩

/-! ### Operations on the sides of an equation -/

theorem explains {before : Expr} (hbefore : before.IsPlain) {after : String} (hafter : T after)
    {operation : Operation} (hoperation : operation.operand.IsPlain) :
    P (fun _ => True) (Assessment.explains before after operation) := by
  have happlied := Operation.isPlain_apply hbefore hoperation
  refine h.bind (h.answer (h.shows happlied.shows)) fun performed _ => ?_
  exact h.bind (h.answer hafter) fun answer _ => h.areEqual performed answer

/-- What was done to a side, if anything is known of it, was done with a tree. -/
def ChangesPlainly : SideChange → Prop
  | .removed operation => operation.operand.IsPlain
  | .added operation => operation.operand.IsPlain
  | .simplified => True
  | .unknown => True

theorem classify {side other : Expr} (hside : side.IsPlain) (hother : other.IsPlain)
    {after : String} (hafter : T after) :
    P ChangesPlainly (Assessment.classify side after other) := by
  have hexplains {operations : List Operation}
      (hplain : ∀ operation ∈ operations, operation.operand.IsPlain) :=
    h.findM? fun operation hmem => h.explains hside hafter (hplain operation hmem)
  have hremovals := Operation.isPlain_of_mem_removals hside
  have hadditions : ∀ operation ∈ Assessment.additions side other, operation.operand.IsPlain := by
    intro operation hmem
    rcases List.mem_append.mp hmem with hmem | hmem
    · exact Operation.isPlain_of_mem_removals hother operation hmem
    · refine Operation.isPlain_of_mem_withOperands ?_ operation hmem
      intro e he
      rcases List.mem_append.mp he with he | he
      · rcases List.mem_append.mp he with he | he
        · exact Expr.isPlain_of_mem_terms hother e he
        · exact Expr.isPlain_of_mem_terms hside e he
      · exact Expr.isPlain_of_mem_numerators hother e he
  refine h.bind (h.answer (h.shows hside.shows)) fun answer _ => ?_
  refine h.bind (h.answer hafter) fun afterAnswer _ => ?_
  refine h.bind (h.areEqual answer afterAnswer) fun same _ => ?_
  cases same with
  | true => exact h.pure (Q := ChangesPlainly) (a := .simplified) trivial
  | false =>
      refine h.bind (hexplains hremovals) fun removed hremoved => ?_
      cases removed with
      | some operation =>
          exact h.pure (Q := ChangesPlainly) (a := .removed operation)
            (hremovals operation (hremoved operation rfl))
      | none =>
          refine h.bind (hexplains hadditions) fun added hadded => ?_
          cases added with
          | some operation =>
              exact h.pure (Q := ChangesPlainly) (a := .added operation)
                (hadditions operation (hadded operation rfl))
          | none => exact h.pure (Q := ChangesPlainly) (a := .unknown) trivial

theorem sameOperation (a b : Operation) :
    P (fun _ => True) (Assessment.sameOperation a b) := by
  unfold Assessment.sameOperation
  split
  · exact h.areEqual _ _
  · exact h.pure trivial

theorem movedVerdict (a b : Operation) : P (fun _ => True) (Assessment.movedVerdict a b) := by
  refine h.bind (h.sameOperation a b) fun same _ => ?_
  cases same with
  | true => exact h.pure trivial
  | false => exact h.pure trivial

theorem pairVerdict (a b : SideChange) : P (fun _ => True) (Assessment.pairVerdict a b) := by
  unfold Assessment.pairVerdict
  split
  · exact h.pure trivial
  · exact h.movedVerdict _ _
  · exact h.movedVerdict _ _
  all_goals exact h.pure trivial

end Compositional

namespace Searching

variable {T : String → Prop} {P : ∀ {α : Type}, (α → Prop) → SessionM α → Prop}
  (h : Searching T P)

include h

open Compositional

/-! ### Grading a step -/

theorem visit (goal : String) (maxDepth : Nat) :
    ∀ (count : Nat) {queue : List Search.State} {seen : Std.TreeSet String},
      (∀ state ∈ queue, T state.text ∧ Travels T state.path) →
        P (fun found => ∀ path, found = some path → Travels T path.path)
          (Search.visit goal maxDepth count queue seen) := by
  intro count
  induction count with
  | zero =>
      intro queue seen _
      exact h.pure nofun
  | succ count ih =>
      intro queue seen hqueue
      cases queue with
      | nil => exact h.pure nofun
      | cons state queue =>
          obtain ⟨htext, hpath⟩ := hqueue state (.head _)
          have hrest : ∀ state ∈ queue, T state.text ∧ Travels T state.path :=
            fun state hstate => hqueue state (.tail _ hstate)
          refine h.bind (h.nextSteps htext) fun candidates hlisted => ?_
          refine h.bind (h.findStep? goal candidates) fun found hfound => ?_
          cases found with
          | some step =>
              refine h.pure fun path hpath' => ?_
              obtain rfl := Option.some.inj hpath'
              exact hpath.concat (hlisted step (hfound step rfl)).1
          | none =>
              refine h.bind (h.findMistake? goal hlisted) fun mistaken hmistaken => ?_
              cases mistaken with
              | some found =>
                  refine h.pure fun path hpath' => ?_
                  obtain rfl := Option.some.inj hpath'
                  exact hpath.concat (hlisted _ (hmistaken _ _ rfl)).1
              | none =>
                  dsimp only
                  split
                  · exact ih hrest
                  · refine h.bind (h.expand hpath _ hlisted) fun found hfound => ih ?_
                    intro state hstate
                    rcases List.mem_append.mp hstate with hstate | hstate
                    · exact hrest state hstate
                    · exact hfound state hstate

theorem run {start : String} (hstart : T start) (goal : String) :
    P (fun found => ∀ path, found = some path → Travels T path.path) (Search.run start goal) := by
  refine h.get_bind (fun s s' hsettings _ => by rw [hsettings]) fun s => ?_
  refine h.bind (h.stateKey start) fun key _ => h.visit goal _ _ ?_
  intro state hstate
  obtain rfl := List.mem_singleton.mp hstate
  exact ⟨hstart, nofun⟩

theorem unknown {before after : String} (hbefore : T before) (hafter : T after)
    (answer : String) : P StepInfo.Untagged (Assessment.unknown before after answer) := by
  refine h.bind (h.reaches hafter answer) fun reached _ => ?_
  exact h.bind (h.nextSteps hbefore) fun _ _ => h.pure ⟨rfl, rfl⟩

theorem assessReadTexts {before after : String} (hbefore : T before) (hafter : T after)
    (answer : String) : P (fun infos => ∀ info ∈ infos, info.Untagged)
      (Assessment.assessReadTexts before after answer) := by
  have hrelabel {infos : List StepInfo} (hinfos : ∀ info ∈ infos, info.Untagged) :
      ∀ info ∈ infos.map StepInfo.relabelSubtraction, info.Untagged :=
    List.forall_mem_map.mpr fun info hinfo => (hinfos info hinfo).relabelSubtraction
  refine h.bind (h.areEqual before after) fun same _ => ?_
  cases same with
  | true => exact h.pure (List.forall_mem_singleton.mpr ⟨rfl, rfl⟩)
  | false =>
      refine h.bind (h.run hbefore after) fun found hfound => ?_
      cases found with
      | some found =>
          have hpath := hfound found rfl
          refine h.bind (h.describe answer hafter found.mistake hpath) fun infos hinfos => ?_
          exact h.pure (hrelabel hinfos)
      | none =>
          refine h.bind (h.unknown hbefore hafter answer) fun info hinfo => h.pure ?_
          exact hrelabel (List.forall_mem_singleton.mpr hinfo)

theorem assess {before after : String} (hbefore : T before) (hafter : T after)
    (answer : String) : P (fun infos => ∀ info ∈ infos, info.Untagged)
      (Assessment.assess before after answer) := by
  refine h.bind (h.parse hbefore) fun _ _ => h.bind (h.parse hafter) fun _ _ => ?_
  exact h.assessReadTexts hbefore hafter answer

theorem assessChain (answer : String) :
    ∀ {texts : List String}, (∀ text ∈ texts, T text) →
      P (fun _ => True) (Assessment.assessChain answer texts) := by
  intro texts
  induction texts with
  | nil =>
      intro _
      exact h.pure trivial
  | cons before texts ih =>
      intro htexts
      cases texts with
      | nil => exact h.pure trivial
      | cons after texts =>
          have hafter := htexts after (.tail _ (.head _))
          refine h.bind (h.assess (htexts before (.head _)) hafter answer) fun infos _ => ?_
          refine h.bind (ih fun text htext => htexts text (.tail _ htext)) fun _ _ => ?_
          exact h.pure trivial

theorem assessStep {before after : String} (hbefore : T before) (hafter : T after) :
    P (fun infos => ∀ info ∈ infos, info.Untagged) (Session.assessStep before after) :=
  h.bind (h.answer hbefore) fun answer _ => h.assess hbefore hafter answer

theorem assessSteps {texts : List String} (htexts : ∀ text ∈ texts, T text) :
    P (fun _ => True) (Session.assessSteps texts) := by
  cases texts with
  | nil => exact h.pure trivial
  | cons first rest =>
      exact h.bind (h.answer (htexts first (.head _))) fun answer _ => h.assessChain answer htexts

/-! ### Grading a step between equations -/

theorem assessFrom {before after : String} (hbefore : T before) (hafter : T after) :
    P (fun infos => ∀ info ∈ infos, info.Untagged) (Assessment.assessFrom before after) :=
  h.bind (h.answer hbefore) fun answer _ => h.assess hbefore hafter answer

theorem assessSide {before after : String} (hbefore : T before) (hafter : T after) {side : Expr}
    (hside : side.IsPlain) {change : SideChange} (hchange : ChangesPlainly change) :
    P (fun _ => True) (Assessment.assessSide before side after change) := by
  cases change with
  | removed operation =>
      have happlied := h.shows (Operation.isPlain_apply hside hchange).shows
      exact h.bind (h.assessFrom happlied hafter) fun _ _ => h.pure trivial
  | added operation =>
      have happlied := h.shows (Operation.isPlain_apply hside hchange).shows
      exact h.bind (h.assessFrom happlied hafter) fun _ _ => h.pure trivial
  | simplified => exact h.weaken (h.assessFrom hbefore hafter) fun _ _ => trivial
  | unknown => exact h.weaken (h.assessFrom hbefore hafter) fun _ _ => trivial

theorem assessChanged {lhsText rhsText lhsText' rhsText' : String} {lhs rhs : Expr}
    (hlhsText : T lhsText) (hrhsText : T rhsText) (hlhsText' : T lhsText') (hrhsText' : T rhsText')
    (hlhs : lhs.IsPlain) (hrhs : rhs.IsPlain) :
    P (fun _ => True) (Assessment.assessChanged lhsText rhsText lhsText' rhsText' lhs rhs) := by
  refine h.bind (h.classify hlhs hrhs hlhsText') fun leftChange hleft => ?_
  refine h.bind (h.classify hrhs hlhs hrhsText') fun rightChange hright => ?_
  refine h.bind (h.pairVerdict leftChange rightChange) fun verdict _ => ?_
  refine h.bind (h.assessSide hlhsText hlhsText' hlhs hleft) fun left _ => ?_
  refine h.bind (h.assessSide hrhsText hrhsText' hrhs hright) fun right _ => ?_
  exact h.pure trivial

theorem assessCompared {lhsText rhsText lhsText' rhsText' : String} {lhs rhs : Expr}
    (hlhsText : T lhsText) (hrhsText : T rhsText) (hlhsText' : T lhsText') (hrhsText' : T rhsText')
    (hlhs : lhs.IsPlain) (hrhs : rhs.IsPlain) (lhsSame rhsSame swapped : Bool) :
    P (fun _ => True) (Assessment.assessCompared lhsText rhsText lhsText' rhsText' lhs rhs
      lhsSame rhsSame swapped) := by
  unfold Assessment.assessCompared
  split
  · exact h.pure trivial
  · split
    · exact h.bind (h.assessFrom hlhsText hlhsText') fun left _ => h.pure trivial
    · split
      · exact h.bind (h.assessFrom hrhsText hrhsText') fun right _ => h.pure trivial
      · exact h.assessChanged hlhsText hrhsText hlhsText' hrhsText' hlhs hrhs

theorem assessReadSides {lhsText rhsText lhsText' rhsText' : String} {lhs rhs : Expr}
    (hlhsText : T lhsText) (hrhsText : T rhsText) (hlhsText' : T lhsText') (hrhsText' : T rhsText')
    (hlhs : lhs.IsPlain) (hrhs : rhs.IsPlain) :
    P (fun _ => True) (Assessment.assessReadSides lhsText rhsText lhsText' rhsText' lhs rhs) := by
  refine h.bind (h.areEqual _ _) fun lhsSame _ => h.bind (h.areEqual _ _) fun rhsSame _ => ?_
  have hcompared := h.assessCompared hlhsText hrhsText hlhsText' hrhsText' hlhs hrhs lhsSame rhsSame
  split
  · exact h.pure trivial
  · refine h.bind (h.areEqual _ _) fun crossed _ => ?_
    cases crossed with
    | true => exact h.bind (h.areEqual _ _) fun swapped _ => hcompared swapped
    | false => exact hcompared false

theorem assessSides {lhsText rhsText lhsText' rhsText' : String} (hlhsText : T lhsText)
    (hrhsText : T rhsText) (hlhsText' : T lhsText') (hrhsText' : T rhsText') :
    P (fun _ => True) (Assessment.assessSides lhsText rhsText lhsText' rhsText') := by
  refine h.bind (h.parse hlhsText) fun lhs hlhs => h.bind (h.parse hrhsText) fun rhs hrhs => ?_
  refine h.bind (h.parse hlhsText') fun _ _ => h.bind (h.parse hrhsText') fun _ _ => ?_
  exact h.assessReadSides hlhsText hrhsText hlhsText' hrhsText' hlhs hrhs

end Searching

namespace Exploring

variable {T : String → Prop} {P : ∀ {α : Type}, (α → Prop) → SessionM α → Prop}
  (h : Exploring T P)

include h

/-! ### Operations that may fail for reasons of their own -/

theorem possibilities {text : String} (htext : T text) (dryRun : Bool) :
    P (fun _ => True) (Session.possibilities text dryRun) := by
  refine h.bind (h.parseSilently htext) fun root _ => ?_
  cases dryRun with
  | true =>
      refine h.get_bind (fun s s' hsettings hrules => ?_) fun s => ?_
      · unfold Session.context
        rw [hsettings, hrules]
      · exact h.bind (h.liftExcept fun _ _ => trivial) fun _ _ => h.pure trivial
  | false => exact h.bind (h.nextSteps htext) fun _ _ => h.pure trivial

theorem solve (equation : String) (unknown : Option String) :
    P (fun _ => True) (Session.solve equation unknown) := by
  refine h.get_bind (fun s s' hsettings hrules => by rw [hsettings, hrules]) fun s => ?_
  cases unknown <|> s.settings.unknown with
  | none => exact h.liftExcept (r := .error _) fun _ _ => trivial
  | some unknown =>
      refine h.bind (h.liftExcept fun _ _ => trivial) fun sides _ => ?_
      exact h.liftExcept fun _ _ => trivial

theorem assessEquation {before after : String}
    (hbefore : ∀ sides, Assessment.splitSides before = .ok sides → T sides.1 ∧ T sides.2)
    (hafter : ∀ sides, Assessment.splitSides after = .ok sides → T sides.1 ∧ T sides.2) :
    P (fun _ => True) (Session.assessEquation before after) := by
  refine h.bind (h.liftExcept hbefore) fun sides ⟨hlhsText, hrhsText⟩ => ?_
  refine h.bind (h.liftExcept hafter) fun sides' ⟨hlhsText', hrhsText'⟩ => ?_
  exact h.assessSides hlhsText hrhsText hlhsText' hrhsText'

end Exploring

end Session

/-! ### Requests -/

/-- What can be asked of a session. -/
inductive Request
  | parse (text : String)
  | canonicalKey (text : String)
  | areEqual (a b : String)
  | simplify (text : String) (options : SimplifyOptions)
  | nextSteps (text : String)
  | answer (text : String)
  | assessStep (before after : String)
  | assessSteps (texts : List String)
  | assessEquation (before after : String)
  | solve (equation : String) (unknown : Option String)

namespace Request

/-- What is given in return. -/
def Response : Request → Type
  | parse _ => Expr
  | canonicalKey _ => Option String
  | areEqual _ _ => Bool
  | simplify _ _ => Simplified
  | nextSteps _ => List Step
  | answer _ => String
  | assessStep _ _ => List StepInfo
  | assessSteps _ => List (List StepInfo)
  | assessEquation _ _ => EquationStepInfo
  | solve _ _ => Solution

/-- The operation that is asked for. -/
def operation : (request : Request) → SessionM request.Response
  | parse text => Session.parse text
  | canonicalKey text => Session.canonicalKey? text
  | areEqual a b => Session.areEqual a b
  | simplify text options => Session.simplify text options
  | nextSteps text => Session.nextSteps text
  | answer text => Session.answer text
  | assessStep before after => Session.assessStep before after
  | assessSteps texts => Session.assessSteps texts
  | assessEquation before after => Session.assessEquation before after
  | solve equation unknown => Session.solve equation unknown

/-- The texts of the sides of an equation that has two. -/
def sidesOf (equation : String) : List String :=
  match Assessment.splitSides equation with
  | .ok (lhs, rhs) => [lhs, rhs]
  | .error _ => []

/-- The texts whose trees are remembered. -/
def texts : Request → List String
  | parse text => [text]
  | canonicalKey _ => []
  | areEqual _ _ => []
  | simplify text _ => [text]
  | nextSteps text => [text]
  | answer text => [text]
  | assessStep before after => [before, after]
  | assessSteps texts => texts
  | assessEquation before after => sidesOf before ++ sidesOf after
  | solve _ _ => []

end Request

namespace Session

/-- **A property of all operations on one text is one of all requests.** -/
theorem Exploring.operation {T : String → Prop}
    {P : ∀ {α : Type}, (α → Prop) → SessionM α → Prop} (h : Exploring T P) {request : Request}
    (htexts : ∀ text ∈ request.texts, T text)
    (hsimplify : ∀ text mistakes dryRun, request = .simplify text ⟨mistakes, dryRun, false⟩ →
      P (fun _ => True) (Session.simplify text ⟨mistakes, dryRun, false⟩)) :
    P (fun _ => True) request.operation := by
  have hsides {equation : String} (hequation : ∀ text ∈ Request.sidesOf equation, T text) :
      ∀ sides, Assessment.splitSides equation = .ok sides → T sides.1 ∧ T sides.2 := by
    intro sides hsplit
    unfold Request.sidesOf at hequation
    rw [hsplit] at hequation
    exact ⟨hequation _ (.head _), hequation _ (.tail _ (.head _))⟩
  cases request with
  | parse text => exact h.weaken (h.parse (htexts text (.head _))) fun _ _ => trivial
  | canonicalKey text => exact h.canonicalKey? text
  | areEqual a b => exact h.areEqual a b
  | simplify text options =>
      obtain ⟨mistakes, dryRun, allPossibilities⟩ := options
      cases allPossibilities with
      | true => exact h.possibilities (htexts text (.head _)) dryRun
      | false => exact hsimplify text mistakes dryRun rfl
  | nextSteps text => exact h.weaken (h.nextSteps (htexts text (.head _))) fun _ _ => trivial
  | answer text => exact h.weaken (h.answer (htexts text (.head _))) fun _ _ => trivial
  | assessStep before after =>
      have hafter := htexts after (.tail _ (.head _))
      exact h.weaken (h.assessStep (htexts before (.head _)) hafter) fun _ _ => trivial
  | assessSteps texts => exact h.assessSteps htexts
  | assessEquation before after =>
      refine h.assessEquation (hsides fun text htext => ?_) (hsides fun text htext => ?_)
      · exact htexts text (List.mem_append_left _ htext)
      · exact htexts text (List.mem_append_right _ htext)
  | solve equation unknown => exact h.solve equation unknown

/-! ### Coherence -/

variable {S : Settings → Prop} {s : Session}

/-- The operation keeps the invariant, forgets nothing, and gives what it should. -/
def Keeps (S : Settings → Prop) {α : Type} (Q : α → Prop) (m : SessionM α) : Prop :=
  ∀ s : Session, s.Coherent S → s.Yields S m fun a _ => Q a

theorem exploring_keeps : Exploring (fun _ => True) (Keeps S) where
  pure h _ hs := .pure hs h
  bind hm hf _ hs := (hm _ hs).bind fun a _ hs' _ ha => hf a ha _ hs'
  liftExcept h _ hs := .liftExcept hs h
  get_bind _ h s hs := .get_bind (h s s hs)
  shows _ := trivial
  parseSilently _ _ hs := yields_parseSilently hs _
  parse _ _ hs := (yields_parse hs _).weaken fun _ _ hs' _ he => hs'.isPlain_of_parsed he
  answer _ _ hs := (yields_answer hs _).weaken fun _ _ _ _ _ => trivial
  areEqual a b _ hs := (yields_areEqual hs a b).weaken fun _ _ _ _ _ => trivial
  canonicalKey? text _ hs := (yields_canonicalKey? hs text).weaken fun _ _ _ _ _ => trivial
  nextSteps _ _ hs :=
    (yields_nextSteps hs _).weaken fun _ _ _ _ _ _ _ => ⟨trivial, fun _ _ => trivial⟩

/-- **Whatever is asked, what is remembered fits together**, and nothing is forgotten as long as the
settings stay the same. -/
theorem Coherent.operation (hs : s.Coherent S) (request : Request) :
    (s.stateAfter request.operation).Coherent S ∧
      ((∀ settings, S settings → settings = s.settings) →
        (s.stateAfter request.operation).Extends s) := by
  by_cases hsimplify : ∃ text mistakes dryRun, request = .simplify text ⟨mistakes, dryRun, false⟩
  · obtain ⟨text, mistakes, dryRun, rfl⟩ := hsimplify
    exact coherent_simplify hs text mistakes dryRun
  · have hyields : s.Yields S request.operation fun _ _ => True := by
      refine exploring_keeps.operation (fun _ _ => trivial) (fun text mistakes dryRun heq => ?_)
        s hs
      exact absurd ⟨text, mistakes, dryRun, heq⟩ hsimplify
    exact ⟨hyields.coherent, fun _ => hyields.kept⟩

/-- The sessions that requests lead to, also such that fail, if the settings may be changed between
them. -/
inductive Reachable : Session → Prop
  | ofSettings (settings : Settings) : Reachable (ofSettings settings)
  | request {s : Session} (h : Reachable s) (request : Request) :
      Reachable (s.stateAfter request.operation)
  | configure {s : Session} (h : Reachable s) (settings : Settings) :
      Reachable { s with settings := settings }

/-- **In every session, what is remembered fits together.** -/
theorem coherent_of_reachable (h : Reachable s) : s.Coherent fun _ => True := by
  induction h with
  | ofSettings settings => exact coherent_ofSettings trivial
  | request _ request ih => exact (ih.operation request).1
  | configure _ settings ih =>
      exact ⟨trivial, ih.rules, ih.equality, ih.parsed, ih.explored, ih.answers⟩

/-- The session after some requests, also such that fail. -/
def afterRequests (s : Session) (requests : List Request) : Session :=
  requests.foldl (fun s request => s.stateAfter request.operation) s

end Session

end AlgebraTutor
