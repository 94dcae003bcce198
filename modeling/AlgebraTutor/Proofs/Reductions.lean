/-
What the simplifier does, one reduction after the other.

A reduction is the application of one rule at one node, put into the tree around the node.  The loop
goes from reduction to reduction, and what it does between two of them depends on one thing: if no
rule applies anywhere, the tree is printed and read again first.  So a run is described by the trees
that it `Reaches`, and by its dead ends, the trees that are printed and read again.

None of this depends on the set of rules.
-/
import AlgebraTutor.Proofs.Arrangements
import AlgebraTutor.Simplifier

namespace AlgebraTutor

/-! ### Searching with errors -/

section Search

variable {ε α β : Type} {f : α → Except ε (Option β)}

/-- What a search finds was found for one of the members. -/
theorem exists_mem_of_findSomeM? {b : β} : ∀ {as : List α}, as.findSomeM? f = .ok (some b) →
    ∃ a ∈ as, f a = .ok (some b) := by
  intro as
  induction as with
  | nil => intro h; cases h
  | cons a as ih =>
      intro h
      rw [List.findSomeM?_cons] at h
      obtain ⟨found, ha, h⟩ := bind_eq_ok.mp h
      cases found with
      | none =>
          obtain ⟨a', ha', hb⟩ := ih h
          exact ⟨a', List.mem_cons_of_mem _ ha', hb⟩
      | some b' =>
          cases h
          exact ⟨a, List.mem_cons_self .., ha⟩

/-- A search fails only if it does for one of the members. -/
theorem exists_ok_of_findSomeM? : ∀ {as : List α}, (∀ a ∈ as, ∃ r, f a = .ok r) →
    ∃ r, as.findSomeM? f = .ok r := by
  intro as
  induction as with
  | nil => intro _; exact ⟨none, rfl⟩
  | cons a as ih =>
      intro h
      obtain ⟨found, ha⟩ := h a (List.mem_cons_self ..)
      rw [List.findSomeM?_cons, ha]
      cases found with
      | none => exact ih fun a' ha' => h a' (List.mem_cons_of_mem _ ha')
      | some b => exact ⟨some b, rfl⟩

end Search

namespace Expr

theorem reread_of_parseNormal {e b : Expr} (h : parseNormal e.text = .ok b) : e.reread = b := by
  rw [reread, h]

/-! ### The nodes that are tried -/

theorem get?_append (path path' : Path) : ∀ e : Expr,
    e.get? (path ++ path') = (e.get? path).bind (·.get? path') := by
  induction path with
  | nil => intro e; rfl
  | cons i path ih =>
      intro e
      rw [List.cons_append, get?, get?]
      cases e.args[i]? with
      | none => rfl
      | some arg => exact ih arg

theorem postOrder_eq (e : Expr) : e.postOrder = postOrderFrom 0 e.args ++ [([], e)] := by
  cases e <;> rfl

theorem mem_postOrderFrom {path : Path} {node : Expr} : ∀ {es : List Expr} {i : Nat},
    (path, node) ∈ postOrderFrom i es ↔ ∃ j path' e, path = (i + j) :: path' ∧
      es[j]? = some e ∧ (path', node) ∈ e.postOrder
  | [], i => by simp [postOrderFrom]
  | e :: es, i => by
      rw [postOrderFrom, List.mem_append, List.mem_map, mem_postOrderFrom]
      constructor
      · rintro (⟨⟨path', node'⟩, hmem, heq⟩ | ⟨j, path', f, rfl, hf, hmem⟩)
        · cases heq
          exact ⟨0, path', e, rfl, rfl, hmem⟩
        · exact ⟨j + 1, path', f, by rw [Nat.add_assoc, Nat.add_comm 1], hf, hmem⟩
      · rintro ⟨j, path', f, rfl, hf, hmem⟩
        cases j with
        | zero =>
            obtain rfl := Option.some.inj hf
            exact .inl ⟨(path', node), hmem, rfl⟩
        | succ j =>
            exact .inr ⟨j, path', f, by rw [Nat.add_assoc, Nat.add_comm 1], hf, hmem⟩

/-- The nodes that are listed are the nodes of the tree, with their paths. -/
theorem mem_postOrder_iff {path : Path} {node : Expr} : ∀ {e : Expr},
    (path, node) ∈ e.postOrder ↔ e.get? path = some node := by
  induction path with
  | nil =>
      intro e
      rw [postOrder_eq, List.mem_append, mem_postOrderFrom, List.mem_singleton]
      constructor
      · rintro (⟨j, path', arg, heq, -, -⟩ | heq)
        · cases heq
        · cases heq
          rfl
      · rintro ⟨⟩
        exact .inr rfl
  | cons i path ih =>
      intro e
      rw [postOrder_eq, List.mem_append, mem_postOrderFrom, List.mem_singleton, get?]
      constructor
      · rintro (⟨j, path', arg, heq, harg, hmem⟩ | heq)
        · cases heq
          rw [Nat.zero_add, harg]
          exact ih.mp hmem
        · cases heq
      · intro h
        cases harg : e.args[i]? with
        | none =>
            rw [harg] at h
            cases h
        | some arg =>
            rw [harg] at h
            exact .inl ⟨i, path, arg, by rw [Nat.zero_add], harg, ih.mpr h⟩

end Expr

namespace Rule

/-! ### Rules that can be tried -/

/-- The rule does not speak of the unknown, or there is one. -/
def CanBeTried (rule : Rule) (context : Context) : Prop :=
  rule.lhs.needsUnknown = true → context.unknown ≠ none

variable {context : Context} {rule : Rule} {e : Expr}

theorem checkUnknown_eq_ok_iff :
    rule.lhs.checkUnknown context = .ok () ↔ rule.CanBeTried context := by
  unfold Pattern.checkUnknown CanBeTried
  cases hunknown : context.unknown with
  | none => cases rule.lhs.needsUnknown <;> simp
  | some name => simp

/-- The rule is tried without failing, at any node, exactly if it can be tried at all. -/
theorem exists_ok_of_findMatches_iff :
    (∃ ms, rule.findMatches context e = .ok ms) ↔ rule.CanBeTried context := by
  rw [← checkUnknown_eq_ok_iff]
  constructor
  · rintro ⟨ms, hms⟩
    obtain ⟨_, hdirect, -⟩ := bind_eq_ok.mp hms
    obtain ⟨_, hcheck, -⟩ := bind_eq_ok.mp hdirect
    exact hcheck
  · intro hcheck
    have hextractions : ∃ ms, rule.lhs.extractions? context e = .ok ms := by
      unfold Pattern.extractions?
      split
      · split
        · exact ⟨[], rfl⟩
        · rw [hcheck]
          exact ⟨_, rfl⟩
      · exact ⟨[], rfl⟩
    obtain ⟨ms, hms⟩ := hextractions
    unfold findMatches Pattern.matches?
    rw [hcheck]
    simp only [bind, Except.bind, pure, Except.pure]
    split
    · exact ⟨ms, hms⟩
    · exact ⟨_, rfl⟩

theorem CanBeTried.exists_firstApplication? (h : rule.CanBeTried context) (withMistakes : Bool)
    (e : Expr) : ∃ found, rule.firstApplication? context withMistakes e = .ok found := by
  obtain ⟨ms, hms⟩ := exists_ok_of_findMatches_iff (e := e).mpr h
  exact ⟨_, by rw [firstApplication?, hms]; rfl⟩

end Rule

namespace Simplifier

variable {s : Simplifier} {root start : Expr} {active : Path}

/-! ### One reduction -/

/-- A reduction is an application of its rule at the node that its path leads to, put into the
tree. -/
structure Applies (s : Simplifier) (root : Expr) (reduction : Reduction) (node : Expr)
    (application : Application) : Prop where
  isAt : root.get? reduction.path = some node
  isFirst : reduction.rule.firstApplication? s.context s.withMistakes node =
    .ok (some application)
  after : reduction.after = root.splice reduction.path application.after
  changes : reduction.after.key ≠ root.key

theorem applies_of_reduceBy? {path : Path} {node : Expr} {rule : Rule} {reduction : Reduction}
    (hnode : root.get? path = some node)
    (h : s.reduceBy? root root.key path node rule = .ok (some reduction)) :
    reduction.rule = rule ∧ ∃ application, s.Applies root reduction node application := by
  obtain ⟨found, hfirst, h⟩ := bind_eq_ok.mp h
  cases found with
  | none => cases h
  | some application =>
      dsimp only at h
      split at h
      · cases h
      · next hkey =>
          cases h
          exact ⟨rfl, application, hnode, hfirst, rfl, hkey⟩

/-- **Every reduction is an application of a rule of the set.** -/
theorem exists_applies_of_reduceOnce? {reduction : Reduction}
    (h : s.reduceOnce? root active = .ok (some reduction)) :
    ∃ group ∈ s.rules.groups, reduction.rule ∈ group.rules ∧
      ∃ node application, s.Applies root reduction node application := by
  unfold reduceOnce? at h
  split at h
  · cases h
  · next base hbase =>
      obtain ⟨group, hgroup, h⟩ := exists_mem_of_findSomeM? h
      obtain ⟨⟨path, node⟩, hmem, h⟩ := exists_mem_of_findSomeM? h
      obtain ⟨rule, hrule, h⟩ := exists_mem_of_findSomeM? h
      have hnode : root.get? (active ++ path) = some node := by
        rw [Expr.get?_append, hbase]
        exact Expr.mem_postOrder_iff.mp hmem
      obtain ⟨heq, application, happlies⟩ := applies_of_reduceBy? hnode h
      exact ⟨group, hgroup, heq ▸ hrule, node, application, happlies⟩

/-- A reduction cannot be looked for only where a rule cannot be tried. -/
theorem exists_ok_of_reduceOnce? (h : ∀ rule ∈ s.rules.rules, rule.CanBeTried s.context)
    (root : Expr) (active : Path) : ∃ r, s.reduceOnce? root active = .ok r := by
  unfold reduceOnce?
  split
  · exact ⟨none, rfl⟩
  · refine exists_ok_of_findSomeM? fun group hgroup => ?_
    refine exists_ok_of_findSomeM? fun place _ => ?_
    refine exists_ok_of_findSomeM? fun rule hrule => ?_
    have htried := h rule (List.mem_flatMap.mpr ⟨group, hgroup, hrule⟩)
    obtain ⟨found, hfound⟩ := htried.exists_firstApplication? s.withMistakes place.2
    unfold reduceBy?
    rw [hfound]
    cases found with
    | none => exact ⟨none, rfl⟩
    | some application =>
        simp only [bind, Except.bind]
        split
        · exact ⟨none, rfl⟩
        · exact ⟨_, rfl⟩

/-- Nothing was found, as can be decided for one tree. -/
def findsNothing : Except Error (Option Reduction) → Bool
  | .ok none => true
  | _ => false

theorem eq_none_of_findsNothing {found : Except Error (Option Reduction)}
    (h : findsNothing found = true) : found = .ok none := by
  cases found with
  | error error => cases h
  | ok reduction =>
      cases reduction with
      | none => rfl
      | some reduction => cases h

/-! ### The next reduction -/

/-- No rule applies, neither below the active node nor anywhere else. -/
structure Stuck (s : Simplifier) (root : Expr) (active : Path) : Prop where
  below : s.reduceOnce? root active = .ok none
  anywhere : s.reduceOnce? root [] = .ok none

/-- Where nothing applies below the active node, it does not matter which node that is. -/
theorem nextReduction_of_none (h : s.reduceOnce? root active = .ok none) :
    s.nextReduction root active = (s.reduceOnce? root []).bind fun
      | some reduction => .ok (root, some reduction)
      | none => (s.reduceOnce? root.reread []).map (root.reread, ·) := by
  unfold nextReduction
  rw [h]
  by_cases hactive : active.isEmpty = true
  · rw [List.isEmpty_iff.mp hactive] at h
    simp only [bind, Except.bind, hactive, if_pos, h, pure, Except.pure]
    cases s.reduceOnce? root.reread [] <;> rfl
  · simp only [bind, Except.bind, hactive, pure, Except.pure]
    cases s.reduceOnce? root [] with
    | error error => rfl
    | ok atRoot =>
        cases atRoot with
        | some reduction => rfl
        | none => cases s.reduceOnce? root.reread [] <;> rfl

/-- Where nothing applies below the active node, the root might as well be active. -/
theorem nextReduction_of_idle (h : s.reduceOnce? root active = .ok none) :
    s.nextReduction root active = s.nextReduction root [] := by
  rw [nextReduction_of_none h]
  cases hroot : s.reduceOnce? root [] with
  | error error => rw [nextReduction, hroot]; rfl
  | ok found =>
      cases found with
      | some reduction => rw [nextReduction, hroot]; rfl
      | none => rw [nextReduction_of_none hroot, hroot]

/-- **The next reduction is one of the tree itself, or else the tree is stuck and it is one of the
tree as it is read again.** -/
theorem nextReduction_cases {source : Expr} {next : Option Reduction}
    (h : s.nextReduction root active = .ok (source, next)) :
    (∃ reduction place, next = some reduction ∧ s.reduceOnce? root place = .ok (some reduction)) ∨
      s.Stuck root active ∧ source = root.reread ∧ s.reduceOnce? root.reread [] = .ok next := by
  obtain ⟨below, hbelow, -⟩ := bind_eq_ok.mp h
  cases below with
  | some reduction =>
      rw [nextReduction, hbelow] at h
      cases h
      exact .inl ⟨reduction, active, rfl, hbelow⟩
  | none =>
      rw [nextReduction_of_none hbelow] at h
      obtain ⟨atRoot, hroot, h⟩ := bind_eq_ok.mp h
      cases atRoot with
      | some reduction =>
          cases h
          exact .inl ⟨reduction, [], rfl, hroot⟩
      | none =>
          obtain ⟨found, hreread, h⟩ := bind_eq_ok.mp h
          cases h
          exact .inr ⟨⟨hbelow, hroot⟩, rfl, hreread⟩

/-- A stuck tree is printed and read again. -/
theorem nextReduction_of_stuck (h : s.Stuck root active) {next : Option Reduction}
    (hnext : s.reduceOnce? root.reread [] = .ok next) :
    s.nextReduction root active = .ok (root.reread, next) := by
  rw [nextReduction_of_none h.below, h.anywhere, Except.bind, hnext]
  rfl

/-! ### The loop -/

/-- The loop comes from the tree `start` to the tree `root`, with this active node, after `n`
reductions. -/
inductive Reaches (s : Simplifier) (start : Expr) :
    (n : Nat) → (root : Expr) → (active : Path) → Prop
  | start : Reaches s start 0 start []
  | reduce {n : Nat} {root source : Expr} {active : Path} {reduction : Reduction}
      (reached : Reaches s start n root active)
      (next : s.nextReduction root active = .ok (source, some reduction)) :
      Reaches s start (n + 1) reduction.after (reduction.after.validPrefix reduction.path)

/-- After `n` reductions the loop comes to the tree `root`, to which no rule applies.  It is printed
and read again, and the loop goes on with the tree `next`: the one that is read, or what it is
reduced to. -/
inductive DeadEnd (s : Simplifier) (start : Expr) (n : Nat) (root : Expr) : (next : Expr) → Prop
  | ends {active : Path} (reached : s.Reaches start n root active) (stuck : s.Stuck root active)
      (hnone : s.reduceOnce? root.reread [] = .ok none) : DeadEnd s start n root root.reread
  | resumes {active : Path} {reduction : Reduction} (reached : s.Reaches start n root active)
      (stuck : s.Stuck root active) (hsome : s.reduceOnce? root.reread [] = .ok (some reduction)) :
      DeadEnd s start n root reduction.after

theorem reduceUpTo_of_next {source : Expr} {reduction : Reduction}
    (h : s.nextReduction root active = .ok (source, some reduction)) (k : Nat) :
    s.reduceUpTo (k + 1) root active = (s.reduceUpTo k reduction.after
      (reduction.after.validPrefix reduction.path)).map fun (final, steps) =>
        (final, reduction.step source :: steps) := by
  rw [reduceUpTo, h]
  simp only [bind, Except.bind]
  cases s.reduceUpTo k reduction.after (reduction.after.validPrefix reduction.path) <;> rfl

/-- What the loop does first: there is no next reduction, or it takes it and goes on. -/
theorem reduceUpTo_succ_cases {k : Nat} {final : Expr} {steps : List Step}
    (h : s.reduceUpTo (k + 1) root active = .ok (final, steps)) :
    (s.nextReduction root active = .ok (final, none) ∧ steps = []) ∨
      ∃ source reduction rest, s.nextReduction root active = .ok (source, some reduction) ∧
        s.reduceUpTo k reduction.after (reduction.after.validPrefix reduction.path) =
          .ok (final, rest) ∧ steps = reduction.step source :: rest := by
  rw [Simplifier.reduceUpTo] at h
  obtain ⟨⟨source, next⟩, hnext, h⟩ := bind_eq_ok.mp h
  cases next with
  | none =>
      cases h
      exact .inl ⟨hnext, rfl⟩
  | some reduction =>
      obtain ⟨⟨_, rest⟩, hrest, h⟩ := bind_eq_ok.mp h
      cases h
      exact .inr ⟨source, reduction, rest, hnext, hrest, rfl⟩

/-- **The loop goes on from a tree that it reached**, with the steps that led there. -/
theorem Reaches.reduceUpTo_add {n : Nat} (h : s.Reaches start n root active) :
    ∃ before : List Step, before.length = n ∧ ∀ k, s.reduceUpTo (n + k) start [] =
      (s.reduceUpTo k root active).map fun (final, steps) => (final, before ++ steps) := by
  induction h with
  | start =>
      refine ⟨[], rfl, fun k => ?_⟩
      rw [Nat.zero_add]
      cases s.reduceUpTo k start [] <;> rfl
  | @reduce n root source active reduction _ hnext ih =>
      obtain ⟨before, hlength, hadd⟩ := ih
      refine ⟨before ++ [reduction.step source], by rw [List.length_append, hlength]; rfl,
        fun k => ?_⟩
      rw [Nat.add_right_comm, Nat.add_assoc, hadd, reduceUpTo_of_next hnext]
      cases s.reduceUpTo k reduction.after (reduction.after.validPrefix reduction.path) with
      | error error => rfl
      | ok found => simp only [Except.map, List.append_assoc, List.singleton_append]

theorem Reaches.reduceUpTo {n : Nat} (h : s.Reaches start n root active) {k : Nat} {final : Expr}
    {steps : List Step} (hfinal : s.reduceUpTo k root active = .ok (final, steps)) :
    ∃ steps', s.reduceUpTo (n + k) start [] = .ok (final, steps') := by
  obtain ⟨before, -, hadd⟩ := h.reduceUpTo_add
  exact ⟨before ++ steps, by rw [hadd, hfinal]; rfl⟩

/-- A loop that ends before its limit ends like that under any limit it does not come to. -/
theorem reduceUpTo_of_ends {k : Nat} : ∀ {root : Expr} {active : Path} {final : Expr}
    {steps : List Step}, s.reduceUpTo k root active = .ok (final, steps) → steps.length < k →
      ∀ {k' : Nat}, steps.length < k' → s.reduceUpTo k' root active = .ok (final, steps) := by
  induction k with
  | zero => intro _ _ _ _ _ h; cases h
  | succ k ih =>
      intro root active final steps h hlength k' hlength'
      obtain ⟨k', rfl⟩ := Nat.exists_eq_succ_of_ne_zero (Nat.ne_zero_of_lt hlength')
      rcases reduceUpTo_succ_cases h with ⟨hnone, rfl⟩ | ⟨_, reduction, rest, hnext, hrest, rfl⟩
      · rw [Simplifier.reduceUpTo, hnone]
        rfl
      · rw [reduceUpTo_of_next hnext,
          ih hrest (Nat.lt_of_succ_lt_succ hlength) (Nat.lt_of_succ_lt_succ hlength')]
        rfl

/-- **Where a loop ends before its limit no rule applies.** -/
theorem reduceOnce?_of_ends {k : Nat} : ∀ {root : Expr} {active : Path} {final : Expr}
    {steps : List Step}, s.reduceUpTo k root active = .ok (final, steps) → steps.length < k →
      s.reduceOnce? final [] = .ok none := by
  induction k with
  | zero => intro _ _ _ _ _ h; cases h
  | succ k ih =>
      intro root active final steps h hlength
      rcases reduceUpTo_succ_cases h with ⟨hnone, rfl⟩ | ⟨source, reduction, rest, -, hrest, rfl⟩
      · rcases nextReduction_cases hnone with ⟨_, _, hsome, -⟩ | ⟨-, rfl, hagain⟩
        · cases hsome
        · exact hagain
      · exact ih hrest (Nat.lt_of_succ_lt_succ hlength)

/-- Follows a run in which every reduction is found below the active node.  The trees that it comes
to have these texts, and after the last one the tree `last` is read, to which no rule applies. -/
def comesTo (s : Simplifier) (last : Expr) : (texts : List String) → Expr → Path → Bool
  | [], root, active => findsNothing (s.reduceOnce? root active) &&
      findsNothing (s.reduceOnce? root []) && findsNothing (s.reduceOnce? last [])
  | text :: texts, root, active =>
      match s.reduceOnce? root active with
      | .ok (some reduction) => decide (reduction.after.text = text) &&
          s.comesTo last texts reduction.after (reduction.after.validPrefix reduction.path)
      | _ => false

theorem reduceUpTo_of_comesTo {last : Expr} {texts : List String} :
    ∀ {root : Expr} {active : Path}, s.comesTo last texts root active = true →
      Expr.parseNormal (texts.getLastD root.text) = .ok last → ∀ {k : Nat}, texts.length < k →
        ∃ steps, s.reduceUpTo k root active = .ok (last, steps) ∧ steps.map Step.after = texts := by
  induction texts with
  | nil =>
      intro root active h hlast k hk
      obtain ⟨k, rfl⟩ := Nat.exists_eq_succ_of_ne_zero (Nat.ne_zero_of_lt hk)
      simp only [comesTo, Bool.and_eq_true] at h
      obtain ⟨⟨hbelow, hanywhere⟩, hnone⟩ := h
      have hreread : root.reread = last := Expr.reread_of_parseNormal hlast
      refine ⟨[], ?_, rfl⟩
      rw [Simplifier.reduceUpTo, nextReduction_of_stuck ⟨eq_none_of_findsNothing hbelow,
        eq_none_of_findsNothing hanywhere⟩ (hreread.symm ▸ eq_none_of_findsNothing hnone), hreread]
      rfl
  | cons text texts ih =>
      intro root active h hlast k hk
      obtain ⟨k, rfl⟩ := Nat.exists_eq_succ_of_ne_zero (Nat.ne_zero_of_lt hk)
      rw [List.getLastD_cons] at hlast
      unfold comesTo at h
      split at h
      · next reduction hreduction =>
          obtain ⟨htext, hrest⟩ := Bool.and_eq_true_iff.mp h
          obtain rfl := of_decide_eq_true htext
          obtain ⟨steps, hsteps, htexts⟩ := ih hrest hlast (Nat.lt_of_succ_lt_succ hk)
          have hnext : s.nextReduction root active = .ok (root, some reduction) := by
            rw [nextReduction, hreduction]
            rfl
          exact ⟨reduction.step root :: steps, by rw [reduceUpTo_of_next hnext, hsteps]; rfl,
            congrArg (reduction.after.text :: ·) htexts⟩
      · cases h

/-- **The loop ends with a tree that it reaches at the limit, or at a dead end.** -/
theorem reduceUpTo_cases {k : Nat} : ∀ {n : Nat} {root : Expr} {active : Path} {final : Expr}
    {steps : List Step}, s.Reaches start n root active →
      s.reduceUpTo k root active = .ok (final, steps) →
      (∃ active', s.Reaches start (n + k) final active') ∨
        ∃ m t, m < n + k ∧ s.DeadEnd start m t final := by
  induction k with
  | zero =>
      intro n root active final steps hreached h
      cases h
      exact .inl ⟨active, hreached⟩
  | succ k ih =>
      intro n root active final steps hreached h
      rcases reduceUpTo_succ_cases h with ⟨hnone, -⟩ | ⟨source, reduction, rest, hnext, hrest, -⟩
      · rcases nextReduction_cases hnone with ⟨_, _, hsome, -⟩ | ⟨hstuck, rfl, hagain⟩
        · cases hsome
        · exact .inr ⟨n, root, by omega, .ends hreached hstuck hagain⟩
      · have hmore := ih (.reduce hreached hnext) hrest
        rwa [Nat.add_right_comm, Nat.add_assoc] at hmore

/-- What follows a dead end is what the loop ends with if it is stopped there. -/
theorem DeadEnd.reduceUpTo {n : Nat} {next : Expr} (h : s.DeadEnd start n root next) :
    ∃ steps, s.reduceUpTo (n + 1) start [] = .ok (next, steps) := by
  cases h with
  | @ends active hreached hstuck hnone =>
      have hone : s.reduceUpTo 1 root active = .ok (root.reread, []) := by
        rw [Simplifier.reduceUpTo, nextReduction_of_stuck hstuck hnone]
        rfl
      exact hreached.reduceUpTo hone
  | @resumes active reduction hreached hstuck hsome =>
      have hone : s.reduceUpTo 1 root active =
          .ok (reduction.after, [reduction.step root.reread]) := by
        rw [Simplifier.reduceUpTo, nextReduction_of_stuck hstuck hsome]
        rfl
      exact hreached.reduceUpTo hone

/-- The limit of the simplifier plays no part in a loop that is given its own. -/
theorem reduceUpTo_limit (s : Simplifier) (limit : Nat) (k : Nat) :
    ∀ (root : Expr) (active : Path), Simplifier.reduceUpTo { s with maxReductions := limit } k root
      active = s.reduceUpTo k root active := by
  induction k with
  | zero => intro root active; rfl
  | succ k ih =>
      intro root active
      rw [Simplifier.reduceUpTo, Simplifier.reduceUpTo]
      simp only [ih]
      rfl

/-- A tree with an unknown function is returned as it is. -/
theorem run_of_unsupported {e : Expr} (h : e.normalize.isSupported = false) :
    s.run e = .ok (e.normalize, []) := by
  unfold run
  dsimp only
  rw [if_neg (by simp [h])]
  rfl

/-- A run on a tree without unknown functions is the loop, and after it the arguments are put in
order. -/
theorem run_of_isSupported {e : Expr} (h : e.normalize.isSupported = true) : s.run e =
    (s.reduceUpTo s.maxReductions e.normalize []).map fun (final, steps) =>
      (final.rearranged, .opening e.normalize :: steps ++
        arrangingSteps final final.rearranged) := by
  unfold run
  rw [if_pos h]
  cases s.reduceUpTo s.maxReductions e.normalize [] <;> rfl

/-- What a run that has been followed returns. -/
theorem run_of_comesTo {e : Expr} (last : Expr) (texts : List String)
    (hsupported : e.normalize.isSupported = true)
    (hcomes : s.comesTo last texts e.normalize [] = true)
    (hlast : Expr.parseNormal (texts.getLastD e.normalize.text) = .ok last)
    (hfew : texts.length < s.maxReductions) :
    ∃ trace, s.run e = .ok (last.rearranged, trace) := by
  obtain ⟨steps, hloop, -⟩ := reduceUpTo_of_comesTo hcomes hlast hfew
  exact ⟨_, by rw [run_of_isSupported hsupported, hloop]; rfl⟩

/-- What a run returns comes from a loop. -/
theorem exists_reduceUpTo_of_run {e final : Expr} {trace : List Step}
    (h : e.normalize.isSupported = true) (hrun : s.run e = .ok (final, trace)) :
    ∃ last steps, s.reduceUpTo s.maxReductions e.normalize [] = .ok (last, steps) ∧
      final = last.rearranged ∧
      trace = .opening e.normalize :: steps ++ arrangingSteps last last.rearranged := by
  rw [run_of_isSupported h] at hrun
  cases hloop : s.reduceUpTo s.maxReductions e.normalize [] with
  | error error =>
      rw [hloop] at hrun
      cases hrun
  | ok found =>
      rw [hloop] at hrun
      cases hrun
      exact ⟨found.1, found.2, rfl, rfl, rfl⟩

/-- The loop fails only if a reduction cannot be looked for. -/
theorem exists_ok_of_reduceUpTo (h : ∀ root active, ∃ r, s.reduceOnce? root active = .ok r)
    (k : Nat) : ∀ (root : Expr) (active : Path),
      ∃ final steps, s.reduceUpTo k root active = .ok (final, steps) := by
  induction k with
  | zero => intro root active; exact ⟨root, [], rfl⟩
  | succ k ih =>
      intro root active
      have hnext : ∃ source next, s.nextReduction root active = .ok (source, next) := by
        obtain ⟨below, hbelow⟩ := h root active
        cases below with
        | some reduction =>
            refine ⟨root, some reduction, ?_⟩
            rw [nextReduction, hbelow]
            rfl
        | none =>
            obtain ⟨atRoot, hroot⟩ := h root []
            rw [nextReduction_of_none hbelow, hroot]
            cases atRoot with
            | some reduction => exact ⟨root, some reduction, rfl⟩
            | none =>
                obtain ⟨found, hfound⟩ := h root.reread []
                refine ⟨root.reread, found, ?_⟩
                rw [Except.bind, hfound]
                rfl
      obtain ⟨source, next, hnext⟩ := hnext
      rw [Simplifier.reduceUpTo, hnext]
      cases next with
      | none => exact ⟨source, [], rfl⟩
      | some reduction =>
          obtain ⟨final, steps, hfinal⟩ :=
            ih reduction.after (reduction.after.validPrefix reduction.path)
          refine ⟨final, reduction.step source :: steps, ?_⟩
          simp only [bind, Except.bind, hfinal, pure, Except.pure]

end Simplifier

/-! ### With and without mistakes

Whether mistakes are asked for changes what is listed beside each reduction and nothing else. -/

/-- Two results that agree up to what is forgotten of them. -/
theorem cases_of_map_eq_map {ε α β : Type} {forget : α → β} {x y : Except ε α}
    (h : x.map forget = y.map forget) : (∃ error, x = .error error ∧ y = .error error) ∨
      ∃ a b, x = .ok a ∧ y = .ok b ∧ forget a = forget b := by
  cases x with
  | error error =>
      cases y with
      | error error' => exact .inl ⟨error, rfl, by rw [Except.error.inj h]⟩
      | ok b => cases h
  | ok a =>
      cases y with
      | error error => cases h
      | ok b => exact .inr ⟨a, b, rfl, rfl, Except.ok.inj h⟩

theorem cases_of_map_eq_map' {α β : Type} {forget : α → β} {x y : Option α}
    (h : x.map forget = y.map forget) : (x = none ∧ y = none) ∨
      ∃ a b, x = some a ∧ y = some b ∧ forget a = forget b := by
  cases x with
  | none => exact .inl ⟨rfl, by simpa using h.symm⟩
  | some a =>
      obtain ⟨b, rfl, hb⟩ := Option.map_eq_some_iff.mp h.symm
      exact .inr ⟨a, b, rfl, rfl, hb.symm⟩

/-- Searches agree if they agree on each member. -/
theorem map_findSomeM?_congr {ε α β γ : Type} {forget : β → γ} {f g : α → Except ε (Option β)}
    {as : List α} (h : ∀ a ∈ as, (f a).map (Option.map forget) = (g a).map (Option.map forget)) :
    (as.findSomeM? f).map (Option.map forget) = (as.findSomeM? g).map (Option.map forget) := by
  induction as with
  | nil => rfl
  | cons a as ih =>
      obtain ⟨ha, has⟩ := List.forall_mem_cons.mp h
      rw [List.findSomeM?_cons, List.findSomeM?_cons]
      rcases cases_of_map_eq_map ha with ⟨error, hf, hg⟩ | ⟨found, found', hf, hg, hfound⟩
      · rw [hf, hg]
        rfl
      · rw [hf, hg]
        rcases cases_of_map_eq_map' hfound with ⟨rfl, rfl⟩ | ⟨b, b', rfl, rfl, hb⟩
        · exact ih has
        · show Except.ok (some (forget b)) = Except.ok (some (forget b'))
          rw [hb]

namespace Rule

variable (context : Context) (rule : Rule) (e : Expr) (b b' : Bool)

theorem map_after_build? (found : Match) : (rule.build? b e found).map Application.after =
    (rule.build? b' e found).map Application.after := by
  simp only [build?]
  cases rule.toRuleSpec.build? (matchedNode e found.extraction) found.bindings with
  | none => rfl
  | some new =>
      simp only [Option.bind_eq_bind, Option.bind_some]
      split <;> rfl

theorem map_after_firstApplication? :
    (rule.firstApplication? context b e).map (Option.map Application.after) =
      (rule.firstApplication? context b' e).map (Option.map Application.after) := by
  unfold firstApplication?
  cases rule.findMatches context e with
  | error error => rfl
  | ok ms =>
      refine congrArg Except.ok ?_
      show (ms.findSome? _).map _ = (ms.findSome? _).map _
      rw [List.map_findSome?, List.map_findSome?]
      congr 1
      funext found
      exact map_after_build? rule e b b' found

end Rule

/-- The reduction without its mistakes. -/
def Reduction.bare (reduction : Reduction) : Reduction := { reduction with mistakes := [] }

theorem Reduction.eq_of_bare {r r' : Reduction} (h : r.bare = r'.bare) :
    r.path = r'.path ∧ r.after = r'.after := by
  have hpath : r.bare.path = r'.bare.path := by rw [h]
  have hafter : r.bare.after = r'.bare.after := by rw [h]
  exact ⟨hpath, hafter⟩

namespace Simplifier

variable (s : Simplifier) (b : Bool)

/-- The simplifier that asks for mistakes, or does not. -/
def asking : Simplifier := { s with withMistakes := b }

theorem map_bare_reduceBy? (root : Expr) (before : String) (path : Path) (node : Expr)
    (rule : Rule) : ((s.asking b).reduceBy? root before path node rule).map
      (Option.map Reduction.bare) =
        (s.reduceBy? root before path node rule).map (Option.map Reduction.bare) := by
  have hfirst := Rule.map_after_firstApplication? s.context rule node b s.withMistakes
  unfold reduceBy? asking
  dsimp only
  rcases cases_of_map_eq_map hfirst with ⟨error, hf, hg⟩ | ⟨found, found', hf, hg, hfound⟩
  · rw [hf, hg]
  · rw [hf, hg]
    rcases cases_of_map_eq_map' hfound with ⟨rfl, rfl⟩ | ⟨A, A', rfl, rfl, hafter⟩
    · rfl
    · simp only [bind, Except.bind, hafter]
      split <;> rfl

theorem map_bare_reduceOnce? (root : Expr) (active : Path) :
    ((s.asking b).reduceOnce? root active).map (Option.map Reduction.bare) =
      (s.reduceOnce? root active).map (Option.map Reduction.bare) := by
  unfold reduceOnce?
  split
  · rfl
  · refine map_findSomeM?_congr fun group _ => map_findSomeM?_congr fun place _ => ?_
    exact map_findSomeM?_congr fun rule _ => s.map_bare_reduceBy? b _ _ _ _ rule

/-- What is found next, without mistakes. -/
def bareNext (next : Expr × Option Reduction) : Expr × Option Reduction :=
  (next.1, next.2.map Reduction.bare)

/-- What follows where nothing applies below the active node. -/
def orReread (root : Expr) (atRoot : Option Reduction) : Except Error (Expr × Option Reduction) :=
  match atRoot with
  | some reduction => .ok (root, some reduction)
  | none => (s.reduceOnce? root.reread []).map (root.reread, ·)

theorem map_bare_orReread (root : Expr) {found found' : Option Reduction}
    (h : found.map Reduction.bare = found'.map Reduction.bare) :
    ((s.asking b).orReread root found).map bareNext = (s.orReread root found').map bareNext := by
  rcases cases_of_map_eq_map' h with ⟨rfl, rfl⟩ | ⟨r, r', rfl, rfl, hr⟩
  · have hreread := s.map_bare_reduceOnce? b root.reread []
    rcases cases_of_map_eq_map hreread with ⟨error, hf, hg⟩ | ⟨next, next', hf, hg, hnext⟩
    · simp only [orReread, hf, hg]
    · simp only [orReread, hf, hg, Except.map, bareNext, hnext]
  · simp only [orReread, Except.map, bareNext, Option.map_some, hr]

theorem map_bare_nextReduction (root : Expr) (active : Path) :
    ((s.asking b).nextReduction root active).map bareNext =
      (s.nextReduction root active).map bareNext := by
  have hbelow := s.map_bare_reduceOnce? b root active
  rcases cases_of_map_eq_map hbelow with ⟨error, hf, hg⟩ | ⟨found, found', hf, hg, hfound⟩
  · simp only [nextReduction, hf, hg, bind, Except.bind]
  · rcases cases_of_map_eq_map' hfound with ⟨rfl, rfl⟩ | ⟨r, r', rfl, rfl, hr⟩
    · rw [nextReduction_of_none hf, nextReduction_of_none hg]
      have hroot := s.map_bare_reduceOnce? b root []
      rcases cases_of_map_eq_map hroot with ⟨error, hf, hg⟩ | ⟨at?, at'?, hf, hg, hat⟩
      · simp only [hf, hg, Except.bind]
      · rw [hf, hg]
        exact s.map_bare_orReread b root hat
    · simp only [nextReduction, hf, hg, bind, Except.bind, pure, Except.pure, Except.map, bareNext,
        Option.map_some, hr]

/-- The loop without its steps. -/
theorem map_fst_reduceUpTo_succ (k : Nat) (root : Expr) (active : Path) :
    (s.reduceUpTo (k + 1) root active).map Prod.fst =
      (s.nextReduction root active).bind fun next => match next.2 with
        | none => .ok next.1
        | some reduction => (s.reduceUpTo k reduction.after
            (reduction.after.validPrefix reduction.path)).map Prod.fst := by
  rw [reduceUpTo]
  cases s.nextReduction root active with
  | error error => simp only [bind, Except.bind, Except.map]
  | ok next =>
      rcases next with ⟨source, _ | reduction⟩
      · simp only [bind, Except.bind, Except.map, pure, Except.pure]
      · simp only [bind, Except.bind]
        cases s.reduceUpTo k reduction.after (reduction.after.validPrefix reduction.path) with
        | error error => simp only [Except.map]
        | ok found => simp only [Except.map, pure, Except.pure]

theorem map_fst_reduceUpTo (k : Nat) : ∀ (root : Expr) (active : Path),
    ((s.asking b).reduceUpTo k root active).map Prod.fst =
      (s.reduceUpTo k root active).map Prod.fst := by
  induction k with
  | zero => intro root active; rfl
  | succ k ih =>
      intro root active
      rw [map_fst_reduceUpTo_succ, map_fst_reduceUpTo_succ]
      rcases cases_of_map_eq_map (s.map_bare_nextReduction b root active) with
        ⟨error, hf, hg⟩ | ⟨⟨source, next⟩, ⟨source', next'⟩, hf, hg, hnext⟩
      · simp only [hf, hg, Except.bind]
      · rw [hf, hg]
        obtain ⟨rfl, hnext⟩ := Prod.mk.inj hnext
        rcases cases_of_map_eq_map' hnext with ⟨rfl, rfl⟩ | ⟨r, r', rfl, rfl, hr⟩
        · simp only [Except.bind]
        · obtain ⟨hpath, hafter⟩ := Reduction.eq_of_bare hr
          simp only [Except.bind, hpath, hafter]
          exact ih _ _

/-- **Asking for mistakes does not change what a tree simplifies to.** -/
theorem map_fst_run (e : Expr) : ((s.asking b).run e).map Prod.fst = (s.run e).map Prod.fst := by
  unfold run
  dsimp only
  split
  · rcases cases_of_map_eq_map (s.map_fst_reduceUpTo b s.maxReductions e.normalize []) with
      ⟨error, hf, hg⟩ | ⟨⟨final, steps⟩, ⟨final', steps'⟩, hf, hg, hfinal⟩
    · have hf' : (s.asking b).reduceUpTo (s.asking b).maxReductions e.normalize [] =
        .error error := hf
      rw [hf', hg]
    · have hf' : (s.asking b).reduceUpTo (s.asking b).maxReductions e.normalize [] =
        .ok (final, steps) := hf
      obtain rfl : final = final' := hfinal
      rw [hf', hg]
      rfl
  · rfl

end Simplifier

end AlgebraTutor
