/-
What the steps of a solution tell.

The steps come from two places.  A move is always told.  Simplifying a side is told only if the
equation reads differently afterwards.  Either way what is told leads from the text of one equation
to the text of the next, and since traces can be put together, so does what is told of a whole
solution.  The rules may make of a side whatever they like.

That a solution is solved means what it says: the unknown stands alone on the left, and occurs
nowhere on the right.
-/
import AlgebraTutor.Proofs.MatchedBindings
import AlgebraTutor.Proofs.Rounds
import AlgebraTutor.Solver

namespace AlgebraTutor

/-! ### Where a variable occurs -/

namespace Expr

mutual

/-- A variable that occurs in a tree is at the end of a path. -/
theorem exists_path_of_mentions {name : String} : ∀ {e : Expr}, e.mentions name = true →
    ∃ path, e.get? path = some (symbol name)
  | symbol other, h => by
      rw [mentions, beq_iff_eq] at h
      exact ⟨[], by rw [get?, h]⟩
  | op _ _ _, h => by
      obtain ⟨i, arg, path, harg, hpath⟩ := exists_path_of_anyMentions h
      exact ⟨i :: path, by rw [get?, args, harg]; exact hpath⟩
  | call _ _, h => by
      obtain ⟨i, arg, path, harg, hpath⟩ := exists_path_of_anyMentions h
      exact ⟨i :: path, by rw [get?, args, harg]; exact hpath⟩

theorem exists_path_of_anyMentions {name : String} : ∀ {es : List Expr},
    anyMentions name es = true →
      ∃ (i : Nat) (e : Expr) (path : Path), es[i]? = some e ∧ e.get? path = some (symbol name)
  | e :: es, h => by
      rw [anyMentions, Bool.or_eq_true] at h
      rcases h with h | h
      · obtain ⟨path, hpath⟩ := exists_path_of_mentions h
        exact ⟨0, e, path, rfl, hpath⟩
      · obtain ⟨i, e', path, he', hpath⟩ := exists_path_of_anyMentions h
        exact ⟨i + 1, e', path, he', hpath⟩

end

theorem mentions_of_mem_args {name : String} {e arg : Expr} (harg : arg ∈ e.args)
    (h : arg.mentions name = true) : e.mentions name = true := by
  cases e with
  | op _ args _ => exact (anyMentions_eq_any name args).trans (List.any_eq_true.mpr ⟨arg, harg, h⟩)
  | call _ args => exact (anyMentions_eq_any name args).trans (List.any_eq_true.mpr ⟨arg, harg, h⟩)
  | _ => cases harg

theorem mentions_of_get? {name : String} {path : Path} : ∀ {e : Expr},
    e.get? path = some (symbol name) → e.mentions name = true := by
  induction path with
  | nil =>
      intro e h
      cases h
      exact beq_self_eq_true name
  | cons i path ih =>
      intro e h
      rw [get?] at h
      cases harg : e.args[i]? with
      | none =>
          rw [harg] at h
          cases h
      | some arg =>
          rw [harg] at h
          exact mentions_of_mem_args (List.mem_of_getElem? harg) (ih h)

/-- A variable does not occur in a tree exactly if no path leads to it. -/
theorem mentions_eq_false_iff {name : String} {e : Expr} :
    e.mentions name = false ↔ ∀ path, e.get? path ≠ some (symbol name) := by
  rw [← Bool.not_eq_true]
  constructor
  · intro h path hpath
    exact h (mentions_of_get? hpath)
  · intro h hmentions
    obtain ⟨path, hpath⟩ := exists_path_of_mentions hmentions
    exact h path hpath

end Expr

/-! ### Matching when there is an unknown -/

section Matching

variable {unknown : String} {lhs rhs : Expr}

/-- Where there is an unknown, matching does not fail. -/
theorem Pattern.matches?_solvingFor (p : Pattern) (e : Expr) :
    p.matches? (.solvingFor unknown) e = .ok (p.matchExpr (.solvingFor unknown) e) := rfl

theorem EquationPattern.firstMatch?_solvingFor (p : EquationPattern) :
    p.firstMatch? (.solvingFor unknown) lhs rhs =
      .ok (Bindings.merge (p.lhs.matchExpr (.solvingFor unknown) lhs)
        (p.rhs.matchExpr (.solvingFor unknown) rhs)).head? := by
  rw [firstMatch?, Pattern.matches?_solvingFor, Pattern.matches?_solvingFor]
  cases p.lhs.matchExpr (.solvingFor unknown) lhs <;> rfl

end Matching

namespace Solver

/-! ### When an equation is solved -/

section Goal

variable {unknown : String} {lhs rhs : Expr}

/-- The wildcard for the unknown matches the unknown. -/
theorem matchExpr_x_self : Pattern.matchExpr (.solvingFor unknown) Pattern.Wildcard.x
    (.symbol unknown) = [.single "x" (.symbol unknown)] := by
  simp [Pattern.Wildcard.x, Pattern.matchExpr, WildcardKind.accept?, Context.solvingFor]

/-- It matches nothing else. -/
theorem matchExpr_x_of_ne (h : lhs ≠ .symbol unknown) :
    Pattern.matchExpr (.solvingFor unknown) Pattern.Wildcard.x lhs = [] := by
  cases lhs with
  | symbol name =>
      have hname : name ≠ unknown := fun heq => h (congrArg Expr.symbol heq)
      simp [Pattern.Wildcard.x, Pattern.matchExpr, WildcardKind.accept?, Context.solvingFor, hname]
  | _ => rfl

theorem matchExpr_a1 : Pattern.matchExpr (.solvingFor unknown) Pattern.Wildcard.a1 rhs =
    if rhs.mentions unknown then [] else [.single "a1" rhs] := by
  cases h : rhs.mentions unknown <;>
    simp [Pattern.Wildcard.a1, Pattern.matchExpr, WildcardKind.accept?, Context.solvingFor, h]

/-- **The equation is solved exactly if the unknown is the left side and does not occur on the
right.** -/
theorem firstMatch?_goal (unknown : String) (lhs rhs : Expr) : ∃ found,
    goal.firstMatch? (.solvingFor unknown) lhs rhs = .ok found ∧
    (found.isSome = true ↔ lhs = .symbol unknown ∧ rhs.mentions unknown = false) := by
  refine ⟨_, EquationPattern.firstMatch?_solvingFor goal, ?_⟩
  rw [goal, matchExpr_a1]
  by_cases hlhs : lhs = .symbol unknown
  · rw [hlhs, matchExpr_x_self]
    cases hrhs : rhs.mentions unknown <;>
      simp [Bindings.merge, Bindings.agree, Bindings.single, Bindings.get?, Bindings.addNew,
        List.lookup]
  · simp [matchExpr_x_of_ne hlhs, hlhs, Bindings.merge]

end Goal

/-! ### Traces -/

/-- The change is that of a move. -/
def IsMove (change : EquationChange) : Prop := ∃ move ∈ moves, move.change = change

instance : DecidablePred IsMove := fun change =>
  inferInstanceAs (Decidable (∃ move ∈ moves, move.change = change))

/-- The change is that of one side being simplified. -/
def IsSimplification (change : EquationChange) : Prop :=
  change = .simplifyLhs ∨ change = .simplifyRhs

instance : DecidablePred IsSimplification := fun _ => inferInstanceAs (Decidable (_ ∨ _))

theorem IsMove.not_isSimplification {change : EquationChange} (h : IsMove change) :
    ¬IsSimplification change := by
  obtain ⟨move, hmove, rfl⟩ := h
  revert move
  decide

/-- The steps lead from one equation to another, by moves and by simplifying. -/
structure Trace (start : String) (steps : List EquationStep) (last : String) : Prop where
  /-- Each step begins with the equation that the one before it led to. -/
  chained : steps.IsChain fun step next => next.before = step.after
  begins : ∀ step ∈ steps.head?, step.before = start
  ends : ∀ step ∈ steps.getLast?, step.after = last
  /-- Where there is no step, both equations read the same. -/
  unchanged : steps = [] → start = last
  kinds : ∀ step ∈ steps, IsMove step.change ∨ IsSimplification step.change
  /-- What was simplified reads differently. -/
  simplified : ∀ step ∈ steps, IsSimplification step.change → step.before ≠ step.after

/-- The number of steps that are moves. -/
def moveCount (steps : List EquationStep) : Nat := steps.countP fun step => IsMove step.change

section Trace

variable {start middle last : String} {steps later : List EquationStep}

theorem Trace.nil (text : String) : Trace text [] text where
  chained := .nil
  begins := nofun
  ends := nofun
  unchanged _ := rfl
  kinds := nofun
  simplified := nofun

theorem Trace.single (step : EquationStep)
    (hkind : IsMove step.change ∨ IsSimplification step.change)
    (hdiffers : IsSimplification step.change → step.before ≠ step.after) :
    Trace step.before [step] step.after where
  chained := .singleton step
  begins := by simp
  ends := by simp
  unchanged := nofun
  kinds := by simpa using hkind
  simplified := by simpa using hdiffers

/-- **A trace goes on where another one ends.** -/
theorem Trace.append (h : Trace start steps middle) (h' : Trace middle later last) :
    Trace start (steps ++ later) last where
  chained := h.chained.append h'.chained fun step hstep next hnext =>
    (h'.begins next hnext).trans (h.ends step hstep).symm
  begins := by
    cases steps with
    | nil => rw [h.unchanged rfl]; exact h'.begins
    | cons => exact h.begins
  ends := by
    rcases List.eq_nil_or_concat later with rfl | ⟨later, step, rfl⟩
    · rw [← h'.unchanged rfl, List.append_nil]
      exact h.ends
    · have hlast := h'.ends
      simp only [List.concat_eq_append, ← List.append_assoc, List.getLast?_concat] at hlast ⊢
      exact hlast
  unchanged hnil := by
    obtain ⟨hsteps, hlater⟩ := List.append_eq_nil_iff.mp hnil
    exact (h.unchanged hsteps).trans (h'.unchanged hlater)
  kinds step hstep := (List.mem_append.mp hstep).elim (h.kinds step) (h'.kinds step)
  simplified step hstep := (List.mem_append.mp hstep).elim (h.simplified step) (h'.simplified step)

theorem moveCount_append : moveCount (steps ++ later) = moveCount steps + moveCount later :=
  List.countP_append

theorem moveCount_cons {step : EquationStep} :
    moveCount (step :: steps) = moveCount steps + if IsMove step.change then 1 else 0 := by
  simp [moveCount, List.countP_cons]

end Trace

/-! ### What simplifying tells -/

section Simplifying

variable {simplifier : Simplifier} {change : EquationChange} {before after : String}

theorem trace_stepBetween (hchange : IsSimplification change) :
    Trace before (stepBetween change before after) after := by
  unfold stepBetween
  split
  · next heq => exact heq ▸ .nil _
  · next hne => exact .single ⟨before, after, change⟩ (.inr hchange) fun _ heq => hne heq.symm

theorem moveCount_stepBetween (hchange : IsSimplification change) :
    moveCount (stepBetween change before after) = 0 := by
  unfold stepBetween
  split
  · rfl
  · rw [moveCount_cons, if_neg fun hmove => hmove.not_isSimplification hchange]
    rfl

/-- **Simplifying both sides leads to the simplified equation, without a move.** -/
theorem trace_simplifySides {lhs rhs lhs' rhs' : Expr} {steps : List EquationStep}
    (h : simplifySides simplifier lhs rhs = .ok (lhs', rhs', steps)) :
    Trace (equationText lhs rhs) steps (equationText lhs' rhs') ∧ moveCount steps = 0 := by
  obtain ⟨⟨left, _⟩, -, h⟩ := bind_eq_ok.mp h
  obtain ⟨⟨right, _⟩, -, h⟩ := bind_eq_ok.mp h
  obtain ⟨rfl, rfl, rfl⟩ := by simpa using Except.ok.inj h
  refine ⟨(trace_stepBetween (.inl rfl)).append (trace_stepBetween (.inr rfl)), ?_⟩
  rw [moveCount_append, moveCount_stepBetween (.inl rfl), moveCount_stepBetween (.inr rfl)]

theorem simplifySides_of_run {simplifier : Simplifier} {lhs rhs lhs' rhs' : Expr}
    {trace trace' : List Step} (hlhs : simplifier.run lhs = .ok (lhs', trace))
    (hrhs : simplifier.run rhs = .ok (rhs', trace')) : simplifySides simplifier lhs rhs =
      .ok (lhs', rhs', stepBetween .simplifyLhs (equationText lhs rhs) (equationText lhs' rhs) ++
        stepBetween .simplifyRhs (equationText lhs' rhs) (equationText lhs' rhs')) :=
  bind_eq_ok.mpr ⟨_, hlhs, bind_eq_ok.mpr ⟨_, hrhs, rfl⟩⟩

end Simplifying

/-! ### What the moves tell -/

section Moving

variable {context : Context} {simplifier : Simplifier} {lhs rhs last last' : Expr}

/-- What is found among the moves was made by one of them. -/
theorem isMove_of_findSomeM? {change : EquationChange} {sides : Expr × Expr}
    (h : moves.findSomeM? (applyMove? context lhs rhs) = .ok (some (change, sides))) :
    IsMove change := by
  obtain ⟨move, hmove, h⟩ := exists_mem_of_findSomeM? h
  refine ⟨move, hmove, ?_⟩
  obtain ⟨found, -, h⟩ := bind_eq_ok.mp h
  cases found with
  | none => cases h
  | some b =>
      dsimp only at h
      split at h
      · cases h
      · obtain ⟨_, -, heq⟩ := Option.map_eq_some_iff.mp (Except.ok.inj h)
        exact congrArg Prod.fst heq

/-- One round: nothing is left to do, or a move is made and both sides are simplified. -/
theorem moveUpTo_succ_cases {count : Nat} {steps : List EquationStep}
    (h : moveUpTo context simplifier (count + 1) lhs rhs = .ok (last, last', steps)) :
    (last = lhs ∧ last' = rhs ∧ steps = []) ∨
      ∃ change moved moved' left right simplifying later, IsMove change ∧
        simplifySides simplifier moved moved' = .ok (left, right, simplifying) ∧
        moveUpTo context simplifier count left right = .ok (last, last', later) ∧
        steps = ⟨equationText lhs rhs, equationText moved moved', change⟩ ::
          (simplifying ++ later) := by
  rw [moveUpTo] at h
  obtain ⟨found, -, h⟩ := bind_eq_ok.mp h
  split at h
  · obtain ⟨rfl, rfl, rfl⟩ := by simpa using Except.ok.inj h
    exact .inl ⟨rfl, rfl, rfl⟩
  · obtain ⟨made, hmade, h⟩ := bind_eq_ok.mp h
    cases made with
    | none =>
        obtain ⟨rfl, rfl, rfl⟩ := by simpa using Except.ok.inj h
        exact .inl ⟨rfl, rfl, rfl⟩
    | some made =>
        obtain ⟨change, moved, moved'⟩ := made
        obtain ⟨⟨left, right, simplifying⟩, hsimplified, h⟩ := bind_eq_ok.mp h
        obtain ⟨⟨_, _, later⟩, hlater, h⟩ := bind_eq_ok.mp h
        obtain ⟨rfl, rfl, rfl⟩ := by simpa using Except.ok.inj h
        exact .inr ⟨change, moved, moved', left, right, simplifying, later,
          isMove_of_findSomeM? hmade, hsimplified, hlater, rfl⟩

/-- **The moves lead to the last equation, and they are no more than allowed.** -/
theorem trace_moveUpTo {count : Nat} : ∀ {lhs rhs : Expr} {steps : List EquationStep},
    moveUpTo context simplifier count lhs rhs = .ok (last, last', steps) →
      Trace (equationText lhs rhs) steps (equationText last last') ∧ moveCount steps ≤ count := by
  induction count with
  | zero =>
      intro lhs rhs steps h
      cases h
      exact ⟨.nil _, le_rfl⟩
  | succ count ih =>
      intro lhs rhs steps h
      rcases moveUpTo_succ_cases h with ⟨rfl, rfl, rfl⟩ |
        ⟨change, moved, moved', left, right, simplifying, later, hmove, hsimplified, hlater, rfl⟩
      · exact ⟨.nil _, Nat.zero_le _⟩
      · obtain ⟨hsimplifying, hnone⟩ := trace_simplifySides hsimplified
        obtain ⟨htrace, hcount⟩ := ih hlater
        have hmoved := Trace.single ⟨equationText lhs rhs, equationText moved moved', change⟩
          (.inl hmove) (absurd · hmove.not_isSimplification)
        refine ⟨hmoved.append (hsimplifying.append htrace), ?_⟩
        rw [moveCount_cons, if_pos hmove, moveCount_append, hnone]
        omega

end Moving

/-- **The steps of a solution lead from the equation to what is returned, and a solution is solved
exactly if the unknown stands alone.**  Each step begins with the equation that the one before it
led to, no side is told to be simplified that reads the same afterwards, and there are no more moves
than allowed.  This is so for all rules. -/
theorem solve_traced {rules : RuleSet} {maxIterations : Nat} {unknown : String} {lhs rhs : Expr}
    {s : Solution} (h : solve rules maxIterations unknown lhs rhs = .ok s) :
    Trace (equationText lhs rhs) s.steps (equationText s.lhs s.rhs) ∧
    moveCount s.steps ≤ maxIterations ∧
    (s.solved = true ↔
      s.lhs = .symbol unknown ∧ ∀ path, s.rhs.get? path ≠ some (.symbol unknown)) := by
  obtain ⟨⟨left, right, simplifying⟩, hsimplified, h⟩ := bind_eq_ok.mp h
  obtain ⟨⟨last, last', moving⟩, hmoved, h⟩ := bind_eq_ok.mp h
  obtain ⟨found, hfound, h⟩ := bind_eq_ok.mp h
  obtain rfl := Except.ok.inj h
  obtain ⟨hsimplifying, hnone⟩ := trace_simplifySides hsimplified
  obtain ⟨hmoving, hcount⟩ := trace_moveUpTo hmoved
  obtain ⟨found', hfound', hsolved⟩ := firstMatch?_goal unknown last last'
  obtain rfl := Except.ok.inj (hfound.symm.trans hfound')
  refine ⟨hsimplifying.append hmoving, ?_, ?_⟩
  · rw [moveCount_append, hnone, Nat.zero_add]
    exact hcount
  · rw [hsolved, Expr.mentions_eq_false_iff]

/-- `1 + 2 = x` is simplified to `3 = x`, and then the sides are swapped. -/
theorem solve_traced_onePlusTwo : ∃ s,
    solve .standard defaultMaxReductions "x" (.sum [.const 1, .const 2]) (.symbol "x") = .ok s ∧
    s.steps.map EquationStep.after = ["3 = x", "x = 3"] ∧ s.solved = true ∧
    Trace "1 + 2 = x" s.steps "x = 3" ∧ moveCount s.steps ≤ defaultMaxReductions ∧
    s.lhs = .symbol "x" ∧ ∀ path, s.rhs.get? path ≠ some (.symbol "x") := by
  let simplifier := Simplifier.ofRules .standard
  have hparse : Expr.parseNormal "x" = .ok (.symbol "x") :=
    Expr.parseNormal_of_normalOfText? (by cbv)
  have htext : (Expr.symbol "x").text = "x" := by cbv
  obtain ⟨_, hsum⟩ : ∃ trace, simplifier.run (.sum [.const 1, .const 2]) = .ok (.const 3, trace) :=
    Simplifier.run_of_comesTo (.const 3) ["3"] (by decide) (by decide +kernel)
      Simplifier.parseNormal_three (by decide)
  obtain ⟨_, hthree⟩ : ∃ trace, simplifier.run (.const 3) = .ok (.const 3, trace) :=
    Simplifier.run_of_comesTo (.const 3) [] (by decide) (by decide +kernel)
      (Simplifier.text_three.symm ▸ Simplifier.parseNormal_three) (by decide)
  obtain ⟨_, hx⟩ : ∃ trace, simplifier.run (.symbol "x") = .ok (.symbol "x", trace) :=
    Simplifier.run_of_comesTo (.symbol "x") [] (by decide) (by decide +kernel)
      (htext.symm ▸ hparse) (by decide)
  have hlast : equationText (.symbol "x") (.const 3) = "x = 3" := by cbv
  have hmove : moves.findSomeM? (applyMove? (.solvingFor "x") (.const 3) (.symbol "x")) =
      .ok (some (.swapSides, .symbol "x", .const 3)) := by cbv
  have hopen : goal.firstMatch? (.solvingFor "x") (.const 3) (.symbol "x") = .ok none := by cbv
  have hclosed : goal.firstMatch? (.solvingFor "x") (.symbol "x") (.const 3) =
      .ok (some (.ofList [("a1", .const 3), ("x", .symbol "x")])) := by cbv
  have hended : moveUpTo (.solvingFor "x") simplifier (62 + 1) (.symbol "x") (.const 3) =
      .ok (.symbol "x", .const 3, []) := by
    rw [moveUpTo, hclosed]
    rfl
  have hswapped : simplifySides simplifier (.symbol "x") (.const 3) =
      .ok (.symbol "x", .const 3, []) := by
    rw [simplifySides_of_run hx hthree, stepBetween, if_pos rfl, stepBetween, if_pos rfl]
    rfl
  have hmoving : moveUpTo (.solvingFor "x") simplifier (63 + 1) (.const 3) (.symbol "x") =
      .ok (.symbol "x", .const 3, [⟨"3 = x", "x = 3", .swapSides⟩]) := by
    have hbefore : equationText (.const 3) (.symbol "x") = "3 = x" := by cbv
    rw [moveUpTo, ← hbefore, ← hlast]
    exact bind_eq_ok.mpr ⟨_, hopen, bind_eq_ok.mpr ⟨_, hmove, bind_eq_ok.mpr ⟨_, hswapped,
      bind_eq_ok.mpr ⟨_, hended, rfl⟩⟩⟩⟩
  have hsolve : solve .standard defaultMaxReductions "x" (.sum [.const 1, .const 2]) (.symbol "x") =
      .ok ⟨.symbol "x", .const 3, [⟨"1 + 2 = x", "3 = x", .simplifyLhs⟩,
        ⟨"3 = x", "x = 3", .swapSides⟩], true⟩ := by
    have hstart : simplifySides simplifier (.sum [.const 1, .const 2]) (.symbol "x") =
        .ok (.const 3, .symbol "x", [⟨"1 + 2 = x", "3 = x", .simplifyLhs⟩]) := by
      rw [simplifySides_of_run hsum hx]
      cbv
    exact bind_eq_ok.mpr ⟨_, hstart, bind_eq_ok.mpr ⟨_, hmoving, bind_eq_ok.mpr ⟨_, hclosed, rfl⟩⟩⟩
  obtain ⟨htrace, hcount, hsolved⟩ := solve_traced hsolve
  obtain ⟨hlhs, hrhs⟩ := hsolved.mp rfl
  have hfirst : equationText (.sum [.const 1, .const 2]) (.symbol "x") = "1 + 2 = x" := by cbv
  rw [hfirst, hlast] at htrace
  exact ⟨_, hsolve, rfl, rfl, htrace, hcount, hlhs, hrhs⟩

end Solver

end AlgebraTutor
