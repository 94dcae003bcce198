/-
The loop of the simplifier, round by round.

A run is defined as one reduction after the other.  Seen from closer by, it is a loop that keeps the
active node, a note whether the tree was read again, and a count of the reductions, and that does
one of four things in each round: it reduces the tree, makes the root active again, prints the tree
and reads it again, or ends.  Only a reduction counts towards the limit, and rules may make the tree
larger, so it has to be shown that the other rounds do not go on for ever.  They do not, because at
most two of them come in a row: the root is active after the first, and the note is made by the
second.

The steps of a run are handed to a collector, which may keep them or not.  What it does with them
has no part in the reductions.

The facts about a trace are an invariant of the loop.  The one point where a step does not begin
with what the step before it led to is a tree that reads differently from how it was printed.
-/
import AlgebraTutor.Proofs.Reductions
import AlgebraTutor.Proofs.RoundTrip
import AlgebraTutor.Rule.Standard

namespace AlgebraTutor

namespace Simplifier

/-! ### Rounds -/

/-- What takes up the steps of a run. -/
structure Collector (σ : Type) where
  push : σ → Step → σ
  /-- The steps of reductions are made only if they are kept. -/
  isRecording : σ → Bool

namespace Collector

variable {σ : Type}

/-- The collector that keeps every step. -/
def all : Collector (List Step) := ⟨fun steps step => steps ++ [step], fun _ => true⟩

/-- What is kept after the step of a reduction. -/
def record (c : Collector σ) (kept : σ) (step : Step) : σ :=
  if c.isRecording kept then c.push kept step else kept

end Collector

/-- What is kept from round to round. -/
structure Loop (σ : Type) where
  root : Expr
  active : Path
  /-- The tree was printed and read again, and not reduced since. -/
  isReread : Bool
  reductions : Nat
  kept : σ

namespace Loop

variable {σ : Type}

/-- The loop before its first round. -/
def start (root : Expr) (kept : σ) : Loop σ := ⟨root, [], false, 0, kept⟩

/-- After a reduction, the node that was reduced is active. -/
def reduce (c : Collector σ) (l : Loop σ) (reduction : Reduction) : Loop σ where
  root := reduction.after
  active := reduction.after.validPrefix reduction.path
  isReread := false
  reductions := l.reductions + 1
  kept := c.record l.kept (reduction.step l.root)

/-- After the tree was printed and read again. -/
def read (l : Loop σ) : Loop σ := { l with root := l.root.reread, isReread := true }

/-- What a run returns after its last round: the tree with its arguments in order. -/
def close (c : Collector σ) (l : Loop σ) : Expr × σ :=
  (l.root.rearranged, (arrangingSteps l.root l.root.rearranged).foldl c.push l.kept)

end Loop

section Definitions

variable {σ : Type} (s : Simplifier) (c : Collector σ)

/-- One round of the loop, or nothing if it ends. -/
def round (l : Loop σ) : Except Error (Option (Loop σ)) :=
  if s.maxReductions ≤ l.reductions then .ok none
  else (s.reduceOnce? l.root l.active).map fun
    | some reduction => some (l.reduce c reduction)
    | none =>
        if !l.active.isEmpty then some { l with active := [] }
        else if !l.isReread then some l.read
        else none

/-- The loop ends after `n` rounds, with this outcome. -/
inductive Rounds : (n : Nat) → Loop σ → (outcome : Except Error (Loop σ)) → Prop
  | fails {l : Loop σ} {error : Error} (h : s.round c l = .error error) : Rounds 1 l (.error error)
  | ends {l : Loop σ} (h : s.round c l = .ok none) : Rounds 1 l (.ok l)
  | more {n : Nat} {l next : Loop σ} {outcome : Except Error (Loop σ)}
      (h : s.round c l = .ok (some next)) (rest : Rounds n next outcome) : Rounds (n + 1) l outcome

/-- The loop comes by, after some rounds. -/
inductive Visits (start : Loop σ) : Loop σ → Prop
  | start : Visits start start
  | more {l next : Loop σ} (visited : Visits start l) (h : s.round c l = .ok (some next)) :
      Visits start next

end Definitions

/-! ### One round -/

section Round

variable {σ : Type} {s : Simplifier} {c : Collector σ} {l next : Loop σ}

theorem round_of_limit (h : s.maxReductions ≤ l.reductions) : s.round c l = .ok none := if_pos h

section Unlimited

variable (hlimit : l.reductions < s.maxReductions)

include hlimit

theorem round_of_error {error : Error} (h : s.reduceOnce? l.root l.active = .error error) :
    s.round c l = .error error := by
  rw [round, if_neg (Nat.not_le.mpr hlimit), h]
  rfl

theorem round_of_reduction {reduction : Reduction}
    (h : s.reduceOnce? l.root l.active = .ok (some reduction)) :
    s.round c l = .ok (some (l.reduce c reduction)) := by
  rw [round, if_neg (Nat.not_le.mpr hlimit), h]
  rfl

theorem round_of_none (h : s.reduceOnce? l.root l.active = .ok none) :
    s.round c l = .ok (if !l.active.isEmpty then some { l with active := [] }
      else if !l.isReread then some l.read else none) := by
  rw [round, if_neg (Nat.not_le.mpr hlimit), h]
  rfl

end Unlimited

/-- What a round can do: it ends the loop at the limit, or else fails or reduces the tree below the
active node, or where nothing applies there makes the root active, or where nothing applies at the
root reads the tree again, but only once. -/
theorem round_outcomes (s : Simplifier) (c : Collector σ) (l : Loop σ) :
    s.maxReductions ≤ l.reductions ∧ s.round c l = .ok none ∨
    l.reductions < s.maxReductions ∧
      ((∃ error, s.reduceOnce? l.root l.active = .error error ∧ s.round c l = .error error) ∨
      (∃ reduction, s.reduceOnce? l.root l.active = .ok (some reduction) ∧
        s.round c l = .ok (some (l.reduce c reduction))) ∨
      s.reduceOnce? l.root l.active = .ok none ∧
        (l.active ≠ [] ∧ s.round c l = .ok (some { l with active := [] }) ∨
        l.active = [] ∧ l.isReread = false ∧ s.round c l = .ok (some l.read) ∨
        l.active = [] ∧ l.isReread = true ∧ s.round c l = .ok none)) := by
  rcases Nat.lt_or_ge l.reductions s.maxReductions with hlimit | hlimit
  · refine .inr ⟨hlimit, ?_⟩
    cases hfound : s.reduceOnce? l.root l.active with
    | error error => exact .inl ⟨error, rfl, round_of_error hlimit hfound⟩
    | ok found =>
        cases found with
        | some reduction => exact .inr (.inl ⟨reduction, rfl, round_of_reduction hlimit hfound⟩)
        | none =>
            refine .inr (.inr ⟨rfl, ?_⟩)
            rw [round_of_none hlimit hfound]
            cases l.active with
            | cons i path => exact .inl ⟨nofun, rfl⟩
            | nil =>
                cases l.isReread with
                | false => exact .inr (.inl ⟨rfl, rfl, rfl⟩)
                | true => exact .inr (.inr ⟨rfl, rfl, rfl⟩)
  · exact .inl ⟨hlimit, round_of_limit hlimit⟩

/-- **What a round that is not the last one can do.** -/
theorem round_cases (h : s.round c l = .ok (some next)) : l.reductions < s.maxReductions ∧
    ((∃ reduction, s.reduceOnce? l.root l.active = .ok (some reduction) ∧
        next = l.reduce c reduction) ∨
      s.reduceOnce? l.root l.active = .ok none ∧
        (l.active ≠ [] ∧ next = { l with active := [] } ∨
          l.active = [] ∧ l.isReread = false ∧ next = l.read)) := by
  rcases round_outcomes s c l with ⟨-, hround⟩ | ⟨hlimit, ⟨error, -, hround⟩ |
    ⟨reduction, hfound, hround⟩ | ⟨hfound, ⟨hactive, hround⟩ | ⟨hactive, hread, hround⟩ |
      ⟨-, -, hround⟩⟩⟩
  all_goals
    rw [hround] at h
    cases h
  · exact ⟨hlimit, .inl ⟨reduction, hfound, rfl⟩⟩
  · exact ⟨hlimit, .inr ⟨hfound, .inl ⟨hactive, rfl⟩⟩⟩
  · exact ⟨hlimit, .inr ⟨hfound, .inr ⟨hactive, hread, rfl⟩⟩⟩

/-- **Why a round can be the last one**: the limit is reached, or nothing applies anywhere, also
after the tree was read again. -/
theorem round_eq_none (h : s.round c l = .ok none) : s.maxReductions ≤ l.reductions ∨
    l.active = [] ∧ l.isReread = true ∧ s.reduceOnce? l.root [] = .ok none := by
  rcases round_outcomes s c l with ⟨hlimit, -⟩ | ⟨-, ⟨error, -, hround⟩ |
    ⟨reduction, -, hround⟩ | ⟨hfound, ⟨-, hround⟩ | ⟨-, -, hround⟩ | ⟨hactive, hread, -⟩⟩⟩
  · exact .inl hlimit
  · cases hround.symm.trans h
  · cases hround.symm.trans h
  · cases hround.symm.trans h
  · cases hround.symm.trans h
  · exact .inr ⟨hactive, hread, hactive ▸ hfound⟩

end Round

/-! ### From one reduction to the next -/

section Reduce

variable {σ : Type} {s : Simplifier} {c : Collector σ} {l : Loop σ}

/-- What the loop has come to when it ends. -/
def Loop.result (l : Loop σ) : Expr × Nat × σ := (l.root, l.reductions, l.kept)

/-- The loop ends after at most so many rounds, with a result like this. -/
def EndsWithin (s : Simplifier) (c : Collector σ) (bound : Nat) (l : Loop σ)
    (result : Except Error (Expr × Nat × σ)) : Prop :=
  ∃ n ≤ bound, ∃ outcome, s.Rounds c n l outcome ∧ outcome.map Loop.result = result

theorem EndsWithin.more {bound : Nat} {next : Loop σ} {result : Except Error (Expr × Nat × σ)}
    (h : s.round c l = .ok (some next)) (hnext : s.EndsWithin c bound next result) :
    s.EndsWithin c (bound + 1) l result := by
  obtain ⟨n, hn, outcome, hrounds, hresult⟩ := hnext
  exact ⟨n + 1, by omega, outcome, .more h hrounds, hresult⟩

theorem EndsWithin.mono {bound bound' : Nat} {result : Except Error (Expr × Nat × σ)}
    (h : s.EndsWithin c bound l result) (hle : bound ≤ bound') :
    s.EndsWithin c bound' l result := by
  obtain ⟨n, hn, hrounds⟩ := h
  exact ⟨n, by omega, hrounds⟩

theorem EndsWithin.congr {bound : Nat} {result result' : Except Error (Expr × Nat × σ)}
    (h : s.EndsWithin c bound l result) (heq : result = result') :
    s.EndsWithin c bound l result' := heq ▸ h

theorem endsWithin_of_error {error : Error} (h : s.round c l = .error error) :
    s.EndsWithin c 1 l (.error error) := ⟨1, le_rfl, _, .fails h, rfl⟩

theorem endsWithin_of_none (h : s.round c l = .ok none) : s.EndsWithin c 1 l (.ok l.result) :=
  ⟨1, le_rfl, _, .ends h, rfl⟩

/-- What comes of the search for a reduction of a tree, if at most `k` rounds follow a reduction. -/
def Continues (s : Simplifier) (c : Collector σ) (k : Nat) (l : Loop σ)
    (result : Except Error (Expr × Nat × σ)) :
    (next : Except Error (Expr × Option Reduction)) → Prop
  | .error error => result = .error error
  | .ok (source, none) => result = .ok (source, l.reductions, l.kept)
  | .ok (source, some reduction) =>
      s.EndsWithin c k ({ l with root := source }.reduce c reduction) result

variable (hlimit : l.reductions < s.maxReductions) {k : Nat}
  {result : Except Error (Expr × Nat × σ)}

include hlimit

/-- If the tree was read again, the round at the root decides. -/
theorem endsWithin_of_read (hactive : l.active = []) (hread : l.isReread = true)
    (h : s.Continues c k l result ((s.reduceOnce? l.root []).map (l.root, ·))) :
    s.EndsWithin c (k + 1) l result := by
  rw [← hactive] at h
  cases hfound : s.reduceOnce? l.root l.active with
  | error error =>
      rw [hfound] at h
      obtain rfl : result = .error error := h
      exact (endsWithin_of_error (round_of_error hlimit hfound)).mono (by omega)
  | ok found =>
      rw [hfound] at h
      cases found with
      | some reduction => exact .more (round_of_reduction hlimit hfound) h
      | none =>
          obtain rfl : result = .ok l.result := h
          refine (endsWithin_of_none ?_).mono (by omega)
          rw [round_of_none hlimit hfound, hactive, hread]
          rfl

/-- What the search finds without leaving the active node, the loop comes to in one round. -/
theorem endsWithin_or_none (h : s.Continues c k l result (s.nextReduction l.root l.active)) :
    s.EndsWithin c (k + 1) l result ∨ s.reduceOnce? l.root l.active = .ok none := by
  cases hfound : s.reduceOnce? l.root l.active with
  | error error =>
      rw [nextReduction, hfound] at h
      obtain rfl : result = .error error := h
      exact .inl ((endsWithin_of_error (round_of_error hlimit hfound)).mono (by omega))
  | ok found =>
      cases found with
      | some reduction =>
          rw [nextReduction, hfound] at h
          exact .inl (.more (round_of_reduction hlimit hfound) h)
      | none => exact .inr rfl

/-- At the root there are two rounds at most, with the one that reads the tree again. -/
theorem endsWithin_of_root (hactive : l.active = []) (hread : l.isReread = false)
    (h : s.Continues c k l result (s.nextReduction l.root l.active)) :
    s.EndsWithin c (k + 2) l result := by
  rcases endsWithin_or_none hlimit h with hends | hfound
  · exact hends.mono (by omega)
  rw [nextReduction_of_none hfound, ← hactive, hfound] at h
  have hround : s.round c l = .ok (some l.read) := by
    rw [round_of_none hlimit hfound, hactive, hread]
    rfl
  have hnext : s.EndsWithin c (k + 1) l.read result := by
    refine endsWithin_of_read (l := l.read) hlimit hactive rfl ?_
    rw [← hactive]
    cases hagain : s.reduceOnce? l.read.root l.active with
    | error error =>
        rw [Except.bind, show s.reduceOnce? l.root.reread l.active = _ from hagain] at h
        exact h
    | ok found =>
        rw [Except.bind, show s.reduceOnce? l.root.reread l.active = _ from hagain] at h
        cases found <;> exact h
  exact .more hround hnext

/-- **Within three rounds the loop comes to the next reduction**: one may make the root active, and
one may read the tree again. -/
theorem endsWithin_of_nextReduction (hread : l.isReread = false)
    (h : s.Continues c k l result (s.nextReduction l.root l.active)) :
    s.EndsWithin c (k + 3) l result := by
  by_cases hactive : l.active = []
  · exact (endsWithin_of_root hlimit hactive hread h).mono (by omega)
  rcases endsWithin_or_none hlimit h with hends | hfound
  · exact hends.mono (by omega)
  have hround : s.round c l = .ok (some { l with active := [] }) := by
    rw [round_of_none hlimit hfound]
    simp [hactive]
  rw [nextReduction_of_idle hfound] at h
  exact .more hround (endsWithin_of_root (l := { l with active := [] }) hlimit rfl hread h)

omit hlimit

/-- What is kept after the steps of some reductions. -/
def Collector.recordAll (c : Collector σ) (kept : σ) (steps : List Step) : σ :=
  steps.foldl c.record kept

/-- The loop comes to the tree and the steps that the reductions come to. -/
theorem endsWithin_of_reduceUpTo (k : Nat) : ∀ {l : Loop σ}, l.isReread = false →
    l.reductions + k = s.maxReductions → s.EndsWithin c (3 * k + 1) l
      ((s.reduceUpTo k l.root l.active).map fun (final, steps) =>
        (final, l.reductions + steps.length, c.recordAll l.kept steps)) := by
  induction k with
  | zero =>
      intro l _ hlimit
      exact endsWithin_of_none (round_of_limit (by omega))
  | succ k ih =>
      intro l hread hlimit
      refine (endsWithin_of_nextReduction (by omega) hread (k := 3 * k + 1) ?_).mono (by omega)
      rw [reduceUpTo]
      cases s.nextReduction l.root l.active with
      | error error => rfl
      | ok next =>
          rcases next with ⟨source, _ | reduction⟩
          · rfl
          · have hrest := ih (l := { l with root := source }.reduce c reduction) rfl
              (by rw [← hlimit]; exact Nat.succ_add_eq_add_succ l.reductions k)
            refine hrest.congr ?_
            simp only [bind, Except.bind, Loop.reduce]
            cases s.reduceUpTo k reduction.after
                (reduction.after.validPrefix reduction.path) with
            | error error => rfl
            | ok found =>
                simp only [Except.map, pure, Except.pure, List.length_cons, Collector.recordAll,
                  List.foldl_cons, Nat.add_assoc, Nat.add_comm 1]

end Reduce

/-- The outcome of a loop is a state that it comes by, in a round that is the last one. -/
theorem Rounds.visits {σ : Type} {s : Simplifier} {c : Collector σ} {n : Nat} {first l : Loop σ}
    {outcome : Except Error (Loop σ)} (h : s.Rounds c n l outcome) {last : Loop σ}
    (hlast : outcome = .ok last) (visited : s.Visits c first l) :
    s.Visits c first last ∧ s.round c last = .ok none := by
  induction h with
  | fails => cases hlast
  | ends hnone =>
      cases hlast
      exact ⟨visited, hnone⟩
  | more hround _ ih => exact ih hlast (.more visited hround)

/-- The loop has one outcome. -/
theorem Rounds.unique {σ : Type} {s : Simplifier} {c : Collector σ} {n n' : Nat} {l : Loop σ}
    {outcome outcome' : Except Error (Loop σ)} (h : s.Rounds c n l outcome)
    (h' : s.Rounds c n' l outcome') : n = n' ∧ outcome = outcome' := by
  induction h generalizing n' outcome' with
  | fails hround => cases h' <;> simp_all
  | ends hround => cases h' <;> simp_all
  | more hround _ ih =>
      cases h' with
      | fails hround' => simp_all
      | ends hround' => simp_all
      | more hround' rest' =>
          obtain rfl : _ = _ := Option.some.inj (Except.ok.inj (hround.symm.trans hround'))
          obtain ⟨rfl, rfl⟩ := ih rest'
          exact ⟨rfl, rfl⟩

/-! ### The steps that are kept -/

section Trace

variable {s : Simplifier} {first l next : Loop (List Step)}

/-- The step is that of a reduction which the loop found when it had kept these steps. -/
def Made (s : Simplifier) (first : Loop (List Step)) (kept : List Step) (step : Step) : Prop :=
  ∃ l reduction, s.Visits .all first l ∧ l.kept = kept ∧
    s.reduceOnce? l.root l.active = .ok (some reduction) ∧ step = reduction.step l.root

/-- The step `b` begins with what the step `a` led to, or else with what that reads as, if the loop
read the tree again when it had kept the steps up to `a`. -/
def Follows (s : Simplifier) (first : Loop (List Step)) (kept : List Step) (a b : Step) : Prop :=
  b.before = a.after ∨ ∃ l, s.Visits .all first l ∧ l.kept = kept ++ [a] ∧
    s.round .all l = .ok (some l.read) ∧ a.after = l.root.text ∧ b.before = l.root.reread.text

/-- What holds of the loop between two rounds. -/
structure Traced (s : Simplifier) (first l : Loop (List Step)) : Prop where
  limit : l.reductions ≤ s.maxReductions
  steps : ∃ steps, l.kept = first.kept ++ steps ∧ steps.length = l.reductions ∧
    ∀ before step after, steps = before ++ step :: after →
      s.Made first (first.kept ++ before) step
  /-- The last step led to the tree, or to what was read again since. -/
  shown : ∃ kept a, l.kept = kept ++ [a] ∧ (l.isReread = false → a.after = l.root.text) ∧
    ∀ b : Step, b.before = l.root.text → s.Follows first kept a b

theorem traced_start (s : Simplifier) (root : Expr) :
    s.Traced (.start root [.opening root]) (.start root [.opening root]) where
  limit := Nat.zero_le _
  steps := ⟨[], rfl, rfl, by simp⟩
  shown := ⟨[], .opening root, rfl, fun _ => rfl, fun _ hb => .inl hb⟩

/-- A list of steps that was split is split before its last one, or there. -/
theorem split_concat {kept before after : List Step} {last step : Step}
    (h : kept ++ [last] = before ++ step :: after) :
    (before = kept ∧ step = last) ∨ ∃ after', kept = before ++ step :: after' := by
  rcases List.eq_nil_or_concat after with rfl | ⟨after', last', rfl⟩
  · obtain ⟨rfl, hlast⟩ := List.append_inj' h rfl
    exact .inl ⟨rfl, (List.singleton_inj.mp hlast).symm⟩
  · rw [List.concat_eq_append, ← List.cons_append, ← List.append_assoc] at h
    exact .inr ⟨after', List.append_inj_left' h rfl⟩

/-- **Every round keeps to it.** -/
theorem Traced.round (h : s.Traced first l) (visited : s.Visits .all first l)
    (hround : s.round .all l = .ok (some next)) : s.Traced first next := by
  obtain ⟨steps, hkept, hlength, hmade⟩ := h.steps
  obtain ⟨kept, a, hlast, hshown, hfollows⟩ := h.shown
  obtain ⟨hlimit, ⟨reduction, hfound, rfl⟩ | ⟨hnone, ⟨hactive, rfl⟩ | ⟨hactive, hread, rfl⟩⟩⟩ :=
    round_cases hround
  · have hnext : (l.reduce .all reduction).kept = l.kept ++ [reduction.step l.root] := rfl
    refine ⟨hlimit, ⟨steps ++ [reduction.step l.root], ?_, ?_, ?_⟩, ?_⟩
    · rw [hnext, hkept, List.append_assoc]
    · rw [List.length_append, hlength]
      rfl
    · intro before step after hsplit
      rcases split_concat hsplit with ⟨rfl, rfl⟩ | ⟨after', rfl⟩
      · exact ⟨l, reduction, visited, hkept, hfound, rfl⟩
      · exact hmade before step after' rfl
    · exact ⟨l.kept, _, hnext, fun _ => rfl, fun b hb => .inl hb⟩
  · exact ⟨h.limit, h.steps, h.shown⟩
  · refine ⟨h.limit, h.steps, kept, a, hlast, nofun, fun b hb => ?_⟩
    exact .inr ⟨l, visited, hlast, hround, hshown hread, hb⟩

theorem traced_of_visits {root : Expr}
    (visited : s.Visits .all (.start root [.opening root]) l) :
    s.Traced (.start root [.opening root]) l := by
  induction visited with
  | start => exact traced_start s root
  | more visited hround ih => exact ih.round visited hround

section Kept

variable {root : Expr} (visited : s.Visits .all (.start root [.opening root]) l)
  {kept later : List Step} {a b : Step}

include visited

/-- A step that begins with the tree follows the last step that is kept. -/
theorem follows_of_last (hkept : l.kept = kept ++ [a]) (hb : b.before = l.root.text) :
    s.Follows (.start root [.opening root]) kept a b := by
  obtain ⟨kept', a', hkept', -, hfollows⟩ := (traced_of_visits visited).shown
  obtain ⟨rfl, ha⟩ := List.append_inj' (hkept'.symm.trans hkept) rfl
  obtain rfl := List.singleton_inj.mp ha
  exact hfollows b hb

/-- Every step that is kept follows the one before it. -/
theorem follows_of_kept (hsplit : l.kept = kept ++ a :: b :: later) :
    s.Follows (.start root [.opening root]) kept a b := by
  obtain ⟨steps, hkept, -, hmade⟩ := (traced_of_visits visited).steps
  have hsteps : .opening root :: steps = (kept ++ [a]) ++ b :: later := by
    rw [List.append_assoc]
    exact hkept.symm.trans hsplit
  rcases List.cons_eq_append_iff.mp hsteps with ⟨hnil, -⟩ | ⟨before, hbefore, rfl⟩
  · exact absurd hnil (by simp)
  · obtain ⟨l', reduction, visited', hkept', -, rfl⟩ := hmade before b later rfl
    exact follows_of_last visited' (hkept'.trans hbefore.symm) rfl

end Kept

theorem recordAll_all (kept steps : List Step) :
    Collector.all.recordAll kept steps = kept ++ steps := by
  induction steps generalizing kept with
  | nil => exact (List.append_nil kept).symm
  | cons step steps ih => 
      show Collector.all.recordAll (kept ++ [step]) steps = _
      rw [ih, List.append_assoc]
      rfl

end Trace

/-! ### Runs -/

section Run

variable (s : Simplifier) {e : Expr} (hsupported : e.normalize.isSupported = true)

include hsupported

/-- **The loop ends, with the tree that the run returns, whatever becomes of the steps.** -/
theorem exists_rounds_run {σ : Type} (c : Collector σ) (kept : σ) :
    ∃ n ≤ 3 * s.maxReductions + 1, ∃ outcome, s.Rounds c n (.start e.normalize kept) outcome ∧
      (outcome.map fun l => (l.close c).1) = (s.run e).map Prod.fst := by
  obtain ⟨n, hn, outcome, hrounds, hresult⟩ := endsWithin_of_reduceUpTo (s := s) (c := c)
    (l := .start e.normalize kept) s.maxReductions rfl (Nat.zero_add _)
  refine ⟨n, hn, outcome, hrounds, ?_⟩
  rw [run_of_isSupported hsupported]
  rw [Loop.start] at hresult
  cases hfinal : s.reduceUpTo s.maxReductions e.normalize [] with
  | error error =>
      rw [hfinal] at hresult
      cases outcome with
      | error error' => exact congrArg Except.error (Except.error.inj hresult)
      | ok l => cases hresult
  | ok found =>
      rw [hfinal] at hresult
      cases outcome with
      | error error => cases hresult
      | ok l =>
          have hroot : l.root = found.1 := congrArg Prod.fst (Except.ok.inj hresult)
          exact congrArg Except.ok (congrArg Expr.rearranged hroot)

/-- The loop that keeps every step comes to what the run returns. -/
theorem exists_visits_run {final : Expr} {trace : List Step} (h : s.run e = .ok (final, trace)) :
    ∃ l steps, s.Visits .all (.start e.normalize [.opening e.normalize]) l ∧
      s.round .all l = .ok none ∧ l.kept = .opening e.normalize :: steps ∧
      final = l.root.rearranged ∧ trace = l.kept ++ arrangingSteps l.root final := by
  obtain ⟨last, steps, hloop, rfl, rfl⟩ := exists_reduceUpTo_of_run hsupported h
  obtain ⟨n, -, outcome, hrounds, hresult⟩ := endsWithin_of_reduceUpTo (s := s) (c := .all)
    (l := .start e.normalize [.opening e.normalize]) s.maxReductions rfl (Nat.zero_add _)
  rw [Loop.start, hloop] at hresult
  cases outcome with
  | error error => cases hresult
  | ok l =>
      obtain ⟨hroot, -, hkept⟩ : l.root = last ∧ _ = _ ∧ l.kept = _ := by
        simpa [Except.map, Loop.result] using hresult
      rw [recordAll_all] at hkept
      obtain ⟨visited, hend⟩ := hrounds.visits rfl .start
      exact ⟨l, steps, visited, hend, hkept, by rw [hroot], by rw [hkept, hroot]; rfl⟩

/-- **Every run ends, and it ends with a tree to which no rule applies, or at its limit.** -/
theorem run_endsOrStops :
    (∀ (σ : Type) (c : Collector σ) (kept : σ), ∃ n ≤ 3 * s.maxReductions + 1, ∃ outcome,
      s.Rounds c n (.start e.normalize (c.push kept (.opening e.normalize))) outcome ∧
        (outcome.map fun l => (l.close c).1) = (s.run e).map Prod.fst) ∧
    (∀ b, ((s.asking b).run e).map Prod.fst = (s.run e).map Prod.fst) ∧
    ∀ final trace, s.run e = .ok (final, trace) →
      ∃ first l steps, first = Loop.start e.normalize [.opening e.normalize] ∧
        s.Visits .all first l ∧ s.round .all l = .ok none ∧
        l.reductions ≤ s.maxReductions ∧
        (l.reductions < s.maxReductions → s.reduceOnce? l.root [] = .ok none) ∧
        final = l.root.rearranged ∧
        trace = .opening e.normalize :: steps ++ (if final.key = l.root.key then []
          else [.plain .rearrangeCoefficients l.root.text final.text]) ∧
        steps.length = l.reductions ∧
        (∀ step ∈ steps, ∃ group ∈ s.rules.groups, ∃ rule ∈ group.rules,
          step.rule = rule.id ∧ step.change = rule.change) ∧
        ∀ kept a b later, trace = kept ++ a :: b :: later → s.Follows first kept a b := by
  refine ⟨fun σ c kept => s.exists_rounds_run hsupported c _, fun b => s.map_fst_run b e,
    fun final trace h => ?_⟩
  obtain ⟨l, steps, visited, hend, hkept, hfinal, htrace⟩ := s.exists_visits_run hsupported h
  have htraced := traced_of_visits visited
  obtain ⟨steps', hkept', hlength, hmade⟩ := htraced.steps
  obtain rfl : steps = steps' := List.cons.inj (hkept.symm.trans hkept') |>.2
  refine ⟨_, l, steps, rfl, visited, hend, htraced.limit, fun hlimit => ?_, hfinal, ?_, hlength,
    fun step hstep => ?_, fun kept a b later hsplit => ?_⟩
  · rcases round_eq_none hend with hstop | ⟨-, -, hnone⟩
    · omega
    · exact hnone
  · rw [htrace, hkept]
    rfl
  · obtain ⟨before, after, hsplit⟩ := List.append_of_mem hstep
    obtain ⟨l', reduction, -, -, hfound, rfl⟩ := hmade before step after hsplit
    obtain ⟨group, hgroup, hrule, -⟩ := exists_applies_of_reduceOnce? hfound
    exact ⟨group, hgroup, reduction.rule, hrule, rfl, rfl⟩
  · rw [htrace, arrangingSteps] at hsplit
    split at hsplit
    · exact follows_of_kept visited (by rwa [List.append_nil] at hsplit)
    · -- The last step is the one that puts the arguments in order, or it was kept before.
      have hlast : l.kept ++ [.plain .rearrangeCoefficients l.root.text final.text] =
          (kept ++ [a]) ++ b :: later := by rw [hsplit, List.append_assoc]; rfl
      rcases split_concat hlast with ⟨hkept, rfl⟩ | ⟨later', hkept⟩
      · exact follows_of_last visited hkept.symm rfl
      · exact follows_of_kept visited (by rw [hkept, List.append_assoc]; rfl)

end Run

theorem parseNormal_three : Expr.parseNormal "3" = .ok (.const 3) :=
  Expr.parseNormal_of_normalOfText? (by cbv)

theorem text_three : (Expr.const 3).text = "3" := by cbv

theorem reread_three : (Expr.const 3).reread = .const 3 :=
  Expr.reread_of_parseNormal (text_three.symm ▸ parseNormal_three)

/-- One and two are added in one step, and nothing applies after it. -/
theorem reduceUpTo_onePlusTwo : ∃ steps, (ofRules .standard).reduceUpTo defaultMaxReductions
    (.sum [.const 1, .const 2]) [] = .ok (.const 3, steps) ∧ steps.map Step.after = ["3"] := by
  have hcomes : (ofRules .standard).comesTo (.const 3) ["3"] (.sum [.const 1, .const 2]) [] =
      true := by decide +kernel
  have hlast : Expr.parseNormal (["3"].getLastD (Expr.sum [.const 1, .const 2]).text) =
      .ok (.const 3) := parseNormal_three
  exact reduceUpTo_of_comesTo hcomes hlast (by decide)

/-- One and two are added in one step, and nothing applies to the sum. -/
theorem run_endsOrStops_onePlusTwo :
    (Expr.sum [.const 1, .const 2]).normalize.isSupported = true ∧
    ∃ final trace root, (ofRules .standard).run (.sum [.const 1, .const 2]) = .ok (final, trace) ∧
      final = root.rearranged ∧ (ofRules .standard).reduceOnce? root [] = .ok none := by
  have hsupported : (Expr.sum [.const 1, .const 2]).normalize.isSupported = true := by decide
  obtain ⟨-, -, hends⟩ := run_endsOrStops (ofRules .standard) hsupported
  obtain ⟨steps, hloop, htexts⟩ := reduceUpTo_onePlusTwo
  have hrun := run_of_isSupported (s := ofRules .standard) hsupported
  rw [show (ofRules .standard).reduceUpTo (ofRules .standard).maxReductions
    (Expr.sum [.const 1, .const 2]).normalize [] = _ from hloop] at hrun
  obtain ⟨first, l, steps', -, -, -, -, hnone, hfinal, htrace, hlength, -⟩ := hends _ _ hrun
  refine ⟨hsupported, _, _, l.root, hrun, hfinal, hnone ?_⟩
  have hone : steps.length = 1 := by rw [← List.length_map Step.after, htexts]; rfl
  have hordered : arrangingSteps (.const 3) (Expr.const 3).rearranged = [] := if_pos rfl
  have hfew : steps'.length ≤ 1 := by
    have hboth := congrArg List.length htrace
    simp only [hordered, List.append_nil, List.length_append, List.length_cons] at hboth
    omega
  rw [← hlength]
  exact hfew.trans_lt (by decide)

end Simplifier

end AlgebraTutor
