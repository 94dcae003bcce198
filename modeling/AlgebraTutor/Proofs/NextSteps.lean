/-
The explorer loses no step and lists none twice.

What can be done with a tree is a sequence of candidates: every rule, in order of priority, at every
node, in both orders of its first two arguments, under every match.  The sequence is written down
here without a list of steps that grows, and the list of steps is compared with it: one step for
each key that occurs, in the order in which the keys first occur, under the rule that came first.

Two things make this more than reading the loop.  Candidates with the same key are merged into the
step that is there already, so the comparison needs an invariant that says what a list of steps has
to do with the candidates seen so far.  And mistakes are told apart by their texts, while steps are
told apart by their keys; so of a mistake no more can be said than that its text is there.
-/
import AlgebraTutor.Proofs.Reductions
import AlgebraTutor.Explorer
import AlgebraTutor.Rule.Arithmetic

namespace AlgebraTutor

/-! ### The places of a tree -/

/-- The order in which the nodes of a tree are visited: a node comes after those below it, and what
lies further to the left comes first. -/
inductive Path.Before : Path → Path → Prop
  | parent (i : Nat) (path : Path) : Before (i :: path) []
  | left {i j : Nat} (path path' : Path) (h : i < j) : Before (i :: path) (j :: path')
  | deeper (i : Nat) {path path' : Path} (h : Before path path') : Before (i :: path) (i :: path')

namespace Expr

theorem pairwise_postOrderFrom : ∀ {es : List Expr} (n : Nat),
    (∀ e ∈ es, e.postOrder.Pairwise fun a b => Path.Before a.1 b.1) →
    (postOrderFrom n es).Pairwise fun a b => Path.Before a.1 b.1
  | [], _, _ => .nil
  | e :: es, n, h => by
      obtain ⟨he, hes⟩ := List.forall_mem_cons.mp h
      refine List.pairwise_append.mpr ⟨?_, pairwise_postOrderFrom (n + 1) hes, ?_⟩
      · rw [List.pairwise_map]
        exact he.imp fun h => .deeper n h
      · intro a ha ⟨path, node⟩ hb
        obtain ⟨⟨path', node'⟩, -, rfl⟩ := List.mem_map.mp ha
        obtain ⟨j, rest, _, rfl, -, -⟩ := mem_postOrderFrom.mp hb
        exact .left path' rest (by omega)

/-- Every node is visited once, in the order of the paths. -/
theorem pairwise_postOrder (e : Expr) : e.postOrder.Pairwise fun a b => Path.Before a.1 b.1 := by
  induction e using induction_args with
  | node e ih =>
      rw [postOrder_eq]
      refine List.pairwise_append.mpr
        ⟨pairwise_postOrderFrom 0 ih, List.pairwise_singleton _ _, ?_⟩
      intro ⟨path, node⟩ ha b hb
      obtain rfl := List.mem_singleton.mp hb
      obtain ⟨j, path', _, rfl, -, -⟩ := mem_postOrderFrom.mp ha
      exact .parent _ _

end Expr

/-! ### Candidates -/

/-- What a rule can do to a tree, and what its mistakes do to it. -/
structure Candidate where
  rule : Rule
  after : Expr
  mistakes : List (Mistake × Expr)

namespace Candidate

/-- Trees with the same key count as one. -/
def key (c : Candidate) : String := c.after.key

/-- The candidate for an application at the end of a path. -/
def ofApplication (root : Expr) (rule : Rule) (path : Path) (application : Application) :
    Candidate where
  rule := rule
  after := root.splice path application.after
  mistakes := application.mistakes.map fun (kind, wrong) => (kind, root.splice path wrong)

end Candidate

/-- The applications of a rule to a node under all matches, if it can be matched. -/
def Rule.found (context : Context) (rule : Rule) (node : Expr) : List Application :=
  (rule.applications context true node).toOption.getD []

namespace Explorer

/-- Every way to change a tree by a rule, in the order in which they are tried. -/
def candidates (context : Context) (rules : RuleSet) (root : Expr) : List Candidate :=
  rules.rules.flatMap fun rule => root.postOrder.flatMap fun (path, node) =>
    (orderings node).flatMap fun ordered =>
      ((rule.found context ordered).map (Candidate.ofApplication root rule path)).filter
        fun c => c.key ≠ root.key

/-- The step is the one for the key: it is made of the first candidate with this key, and its
mistakes are those of all candidates with this key, as far as they make a difference. -/
structure IsStepFor (root : Expr) (found : List Candidate) (key : String) (step : Step) :
    Prop where
  first : ∃ c, found.find? (·.key = key) = some c ∧ step.rule = c.rule.id ∧
    step.change = c.rule.change ∧ step.after = c.after.text
  before : step.before = root.text
  distinct : step.mistakes.Pairwise fun a b => a.after ≠ b.after
  genuine : ∀ mistake ∈ step.mistakes, ∃ c ∈ found, c.key = key ∧
    ∃ wrong, (mistake.kind, wrong) ∈ c.mistakes ∧ wrong.key ≠ key ∧ wrong.key ≠ root.key ∧
      mistake.after = wrong.text
  complete : ∀ c ∈ found, c.key = key → ∀ kind wrong, (kind, wrong) ∈ c.mistakes →
    wrong.key ≠ key → wrong.key ≠ root.key → ∃ mistake ∈ step.mistakes, mistake.after = wrong.text

/-! ### Merging mistakes -/

section Mistakes

variable {mistakes more : List MistakeStep} {mistake : MistakeStep}

/-- The mistakes with one more, unless one with the same text is there. -/
def addMistake (mistakes : List MistakeStep) (mistake : MistakeStep) : List MistakeStep :=
  if mistakes.any (·.after == mistake.after) then mistakes else mistakes ++ [mistake]

theorem mergeMistakes_cons (mistakes more : List MistakeStep) (mistake : MistakeStep) :
    mergeMistakes mistakes (mistake :: more) = mergeMistakes (addMistake mistakes mistake) more :=
  rfl

theorem mem_addMistake {new : MistakeStep} (h : mistake ∈ addMistake mistakes new) :
    mistake ∈ mistakes ∨ mistake = new := by
  unfold addMistake at h
  split at h
  · exact .inl h
  · simpa using h

theorem subset_addMistake (new : MistakeStep) (h : mistake ∈ mistakes) :
    mistake ∈ addMistake mistakes new := by
  unfold addMistake
  split
  · exact h
  · exact List.mem_append_left _ h

theorem exists_mem_addMistake (mistakes : List MistakeStep) (new : MistakeStep) :
    ∃ mistake ∈ addMistake mistakes new, mistake.after = new.after := by
  unfold addMistake
  split
  · next h =>
      obtain ⟨mistake, hmem, heq⟩ := List.any_eq_true.mp h
      exact ⟨mistake, hmem, by simpa using heq⟩
  · exact ⟨new, by simp, rfl⟩

theorem pairwise_addMistake (new : MistakeStep)
    (h : mistakes.Pairwise fun a b => a.after ≠ b.after) :
    (addMistake mistakes new).Pairwise fun a b => a.after ≠ b.after := by
  unfold addMistake
  split
  · exact h
  · next hnew =>
      refine List.pairwise_append.mpr ⟨h, List.pairwise_singleton _ _, ?_⟩
      intro a ha b hb
      obtain rfl := List.mem_singleton.mp hb
      intro heq
      exact hnew (List.any_eq_true.mpr ⟨a, ha, by simpa using heq⟩)

theorem mem_mergeMistakes (h : mistake ∈ mergeMistakes mistakes more) :
    mistake ∈ mistakes ∨ mistake ∈ more := by
  induction more generalizing mistakes with
  | nil => exact .inl h
  | cons new more ih =>
      rw [mergeMistakes_cons] at h
      rcases ih h with h | h
      · rcases mem_addMistake h with h | rfl
        · exact .inl h
        · exact .inr (List.mem_cons_self ..)
      · exact .inr (List.mem_cons_of_mem _ h)

theorem subset_mergeMistakes (more : List MistakeStep) (h : mistake ∈ mistakes) :
    mistake ∈ mergeMistakes mistakes more := by
  induction more generalizing mistakes with
  | nil => exact h
  | cons new more ih => exact ih (subset_addMistake new h)

theorem exists_mem_mergeMistakes (mistakes : List MistakeStep) (h : mistake ∈ more) :
    ∃ found ∈ mergeMistakes mistakes more, found.after = mistake.after := by
  induction more generalizing mistakes with
  | nil => cases h
  | cons new more ih =>
      rw [mergeMistakes_cons]
      rcases List.mem_cons.mp h with rfl | h
      · obtain ⟨found, hmem, heq⟩ := exists_mem_addMistake mistakes mistake
        exact ⟨found, subset_mergeMistakes more hmem, heq⟩
      · exact ih _ h

theorem pairwise_mergeMistakes (more : List MistakeStep)
    (h : mistakes.Pairwise fun a b => a.after ≠ b.after) :
    (mergeMistakes mistakes more).Pairwise fun a b => a.after ≠ b.after := by
  induction more generalizing mistakes with
  | nil => exact h
  | cons new more ih => exact ih (pairwise_addMistake new h)

end Mistakes

/-! ### The entry of a candidate -/

section Entries

variable {root : Expr} {found : List Candidate} {c : Candidate} {key : String} {step : Step}

/-- The mistakes of a candidate that make a difference. -/
def shownMistakes (root : Expr) (c : Candidate) : List MistakeStep :=
  mergeMistakes [] (c.mistakes.filterMap fun (kind, wrong) =>
    if wrong.key = c.key ∨ wrong.key = root.key then none else some ⟨kind, wrong.text⟩)

/-- The step that is listed for a candidate if its key is new. -/
def entryOf (root : Expr) (c : Candidate) : Entry :=
  ⟨c.key, ⟨c.rule.id, c.rule.change, root.text, c.after.text, shownMistakes root c⟩⟩

theorem entryFor?_eq (root : Expr) (rule : Rule) (path : Path) (application : Application) :
    entryFor? root root.text root.key rule path application =
      if (Candidate.ofApplication root rule path application).key = root.key then none
      else some (entryOf root (Candidate.ofApplication root rule path application)) := by
  unfold entryFor? entryOf shownMistakes splicedMistakes Candidate.ofApplication
  simp only [Candidate.key, List.filterMap_map]
  rfl

theorem exists_of_mem_shownMistakes {mistake : MistakeStep} (h : mistake ∈ shownMistakes root c) :
    ∃ wrong, (mistake.kind, wrong) ∈ c.mistakes ∧ wrong.key ≠ c.key ∧ wrong.key ≠ root.key ∧
      mistake.after = wrong.text := by
  obtain h | h := mem_mergeMistakes h
  · cases h
  · obtain ⟨⟨kind, wrong⟩, hmem, h⟩ := List.mem_filterMap.mp h
    by_cases hkey : wrong.key = c.key ∨ wrong.key = root.key
    · simp [hkey] at h
    · obtain rfl : (⟨kind, wrong.text⟩ : MistakeStep) = mistake := by simpa [hkey] using h
      push Not at hkey
      exact ⟨wrong, hmem, hkey.1, hkey.2, rfl⟩

theorem exists_mem_shownMistakes {kind : Mistake} {wrong : Expr} (h : (kind, wrong) ∈ c.mistakes)
    (hkey : wrong.key ≠ c.key) (hroot : wrong.key ≠ root.key) :
    ∃ mistake ∈ shownMistakes root c, mistake.after = wrong.text := by
  have hshown : (⟨kind, wrong.text⟩ : MistakeStep) ∈ c.mistakes.filterMap fun (kind, wrong) =>
      if wrong.key = c.key ∨ wrong.key = root.key then none else some ⟨kind, wrong.text⟩ := by
    refine List.mem_filterMap.mpr ⟨(kind, wrong), h, ?_⟩
    simp [hkey, hroot]
  exact exists_mem_mergeMistakes [] hshown

theorem pairwise_shownMistakes (root : Expr) (c : Candidate) :
    (shownMistakes root c).Pairwise fun a b => a.after ≠ b.after :=
  pairwise_mergeMistakes _ .nil

/-! ### What one more candidate changes -/

/-- The step for a key is not changed by a candidate with another key. -/
theorem IsStepFor.append_other (h : IsStepFor root found key step) (hne : c.key ≠ key) :
    IsStepFor root (found ++ [c]) key step where
  first := by
    obtain ⟨d, hd, hstep⟩ := h.first
    exact ⟨d, by rw [List.find?_append, hd]; rfl, hstep⟩
  before := h.before
  distinct := h.distinct
  genuine mistake hmem := by
    obtain ⟨d, hd, hgenuine⟩ := h.genuine mistake hmem
    exact ⟨d, List.mem_append_left _ hd, hgenuine⟩
  complete d hd hkey := by
    rcases List.mem_append.mp hd with hd | hd
    · exact h.complete d hd hkey
    · obtain rfl := List.mem_singleton.mp hd
      exact absurd hkey hne

/-- A candidate with a new key brings its own step. -/
theorem isStepFor_new (hnew : ∀ d ∈ found, d.key ≠ c.key) :
    IsStepFor root (found ++ [c]) c.key (entryOf root c).step where
  first := by
    refine ⟨c, ?_, rfl, rfl, rfl⟩
    have hnone : found.find? (·.key = c.key) = none := by
      simpa using hnew
    rw [List.find?_append, hnone]
    simp
  before := rfl
  distinct := pairwise_shownMistakes root c
  genuine mistake hmem := by
    obtain ⟨wrong, hwrong⟩ := exists_of_mem_shownMistakes hmem
    exact ⟨c, by simp, rfl, wrong, hwrong⟩
  complete d hd hkey kind wrong hmem hne hroot := by
    rcases List.mem_append.mp hd with hd | hd
    · exact absurd hkey (hnew d hd)
    · obtain rfl := List.mem_singleton.mp hd
      exact exists_mem_shownMistakes hmem hne hroot

/-- A candidate whose key is listed adds its mistakes to the step that is there. -/
theorem IsStepFor.append_merged (h : IsStepFor root found c.key step) :
    IsStepFor root (found ++ [c]) c.key
      { step with mistakes := mergeMistakes step.mistakes (shownMistakes root c) } where
  first := by
    obtain ⟨d, hd, hstep⟩ := h.first
    exact ⟨d, by rw [List.find?_append, hd]; rfl, hstep⟩
  before := h.before
  distinct := pairwise_mergeMistakes _ h.distinct
  genuine mistake hmem := by
    rcases mem_mergeMistakes hmem with hmem | hmem
    · obtain ⟨d, hd, hgenuine⟩ := h.genuine mistake hmem
      exact ⟨d, List.mem_append_left _ hd, hgenuine⟩
    · obtain ⟨wrong, hwrong⟩ := exists_of_mem_shownMistakes hmem
      exact ⟨c, by simp, rfl, wrong, hwrong⟩
  complete d hd hkey kind wrong hmem hne hroot := by
    rcases List.mem_append.mp hd with hd | hd
    · obtain ⟨mistake, hmistake, htext⟩ := h.complete d hd hkey kind wrong hmem hne hroot
      exact ⟨mistake, subset_mergeMistakes _ hmistake, htext⟩
    · obtain rfl := List.mem_singleton.mp hd
      obtain ⟨shown, hshown, htext⟩ := exists_mem_shownMistakes hmem hne hroot
      obtain ⟨mistake, hmistake, heq⟩ := exists_mem_mergeMistakes step.mistakes hshown
      exact ⟨mistake, hmistake, heq.trans htext⟩

/-! ### The list of entries -/

/-- The entries are those for the candidates found so far. -/
structure Lists (root : Expr) (found : List Candidate) (entries : List Entry) : Prop where
  keys : entries.map Entry.key = (found.map Candidate.key).eraseDups
  steps : ∀ entry ∈ entries, IsStepFor root found entry.key entry.step

theorem eraseDups_append_singleton (keys : List String) (key : String) :
    (keys ++ [key]).eraseDups = if key ∈ keys then keys.eraseDups else keys.eraseDups ++ [key] := by
  rw [List.eraseDups_append]
  by_cases h : key ∈ keys <;> simp [List.removeAll, h, List.eraseDups_cons]

theorem nodup_eraseDups (keys : List String) : keys.eraseDups.Nodup := by
  induction keys using List.reverseRecOn with
  | nil => exact .nil
  | append_singleton keys key ih =>
      rw [eraseDups_append_singleton]
      split
      · exact ih
      · next h => exact ih.append (List.nodup_singleton key) (by simpa using h)

theorem record_of_not_mem {new : Entry} {entries : List Entry}
    (h : new.key ∉ entries.map Entry.key) : record new entries = entries ++ [new] := by
  induction entries with
  | nil => rfl
  | cons entry entries ih =>
      rw [List.map_cons, List.mem_cons, not_or] at h
      rw [record, if_neg (Ne.symm h.1), ih h.2]
      rfl

theorem keys_record_of_mem {new : Entry} {entries : List Entry}
    (h : new.key ∈ entries.map Entry.key) :
    (record new entries).map Entry.key = entries.map Entry.key := by
  induction entries with
  | nil => cases h
  | cons entry entries ih =>
      rw [record]
      by_cases hkey : entry.key = new.key
      · rw [if_pos hkey]
        rfl
      · rw [if_neg hkey, List.map_cons, List.map_cons, ih]
        exact (List.mem_cons.mp h).resolve_left (Ne.symm hkey)

/-- Where every key is listed once, an entry either stays or is the one that is merged. -/
theorem mem_record_cases {new entry : Entry} {entries : List Entry}
    (hnodup : (entries.map Entry.key).Nodup) (hmem : new.key ∈ entries.map Entry.key)
    (h : entry ∈ record new entries) :
    entry ∈ entries ∧ entry.key ≠ new.key ∨ ∃ old ∈ entries, old.key = new.key ∧
      entry = { old with step := { old.step with
        mistakes := mergeMistakes old.step.mistakes new.step.mistakes } } := by
  induction entries with
  | nil => cases hmem
  | cons old entries ih =>
      rw [List.map_cons, List.nodup_cons] at hnodup
      rw [record] at h
      by_cases hkey : old.key = new.key
      · rw [if_pos hkey] at h
        rcases List.mem_cons.mp h with rfl | h
        · exact .inr ⟨old, List.mem_cons_self .., hkey, rfl⟩
        · refine .inl ⟨List.mem_cons_of_mem _ h, fun heq => hnodup.1 ?_⟩
          rw [hkey, ← heq]
          exact List.mem_map_of_mem h
      · rw [if_neg hkey] at h
        rcases List.mem_cons.mp h with rfl | h
        · exact .inl ⟨List.mem_cons_self .., hkey⟩
        · have hmem := (List.mem_cons.mp hmem).resolve_left (Ne.symm hkey)
          rcases ih hnodup.2 hmem h with ⟨h, hne⟩ | ⟨old', hold', hmerged⟩
          · exact .inl ⟨List.mem_cons_of_mem _ h, hne⟩
          · exact .inr ⟨old', List.mem_cons_of_mem _ hold', hmerged⟩

theorem lists_nil (root : Expr) : Lists root [] [] := ⟨rfl, fun _ h => nomatch h⟩

theorem Lists.mem_keys {entries : List Entry} (h : Lists root found entries) :
    key ∈ entries.map Entry.key ↔ ∃ d ∈ found, d.key = key := by
  rw [h.keys, List.mem_eraseDups, List.mem_map]

/-- Recording a candidate keeps the entries in step with the candidates. -/
theorem Lists.record {entries : List Entry} (h : Lists root found entries) (c : Candidate) :
    Lists root (found ++ [c]) (record (entryOf root c) entries) := by
  have hkeys := h.keys
  by_cases hmem : c.key ∈ entries.map Entry.key
  · refine ⟨?_, fun entry hentry => ?_⟩
    · rw [keys_record_of_mem hmem, hkeys, List.map_append, List.map_singleton,
        eraseDups_append_singleton, if_pos (List.mem_eraseDups.mp (hkeys ▸ hmem))]
    · have hnodup : (entries.map Entry.key).Nodup := hkeys ▸ nodup_eraseDups _
      rcases mem_record_cases hnodup hmem hentry with ⟨hentry, hne⟩ | ⟨old, hold, hkey, rfl⟩
      · exact (h.steps entry hentry).append_other (Ne.symm hne)
      · have hstep := h.steps old hold
        rw [show old.key = c.key from hkey] at hstep
        show IsStepFor root (found ++ [c]) old.key _
        rw [show old.key = c.key from hkey]
        exact hstep.append_merged
  · have hnew : ∀ d ∈ found, d.key ≠ c.key := fun d hd heq => hmem (h.mem_keys.mpr ⟨d, hd, heq⟩)
    rw [record_of_not_mem hmem]
    refine ⟨?_, fun entry hentry => ?_⟩
    · rw [List.map_append, hkeys, List.map_append, List.map_singleton, List.map_singleton,
        eraseDups_append_singleton, if_neg]
      · rfl
      · exact fun hc => hmem (hkeys ▸ List.mem_eraseDups.mpr hc)
    · rcases List.mem_append.mp hentry with hentry | hentry
      · refine (h.steps entry hentry).append_other fun heq => hmem ?_
        rw [heq]
        exact List.mem_map_of_mem hentry
      · obtain rfl := List.mem_singleton.mp hentry
        exact isStepFor_new hnew

theorem Lists.foldl {entries : List Entry} (h : Lists root found entries)
    (more : List Candidate) :
    Lists root (found ++ more)
      ((more.map (entryOf root)).foldl (fun entries entry => Explorer.record entry entries)
        entries) := by
  induction more generalizing found entries with
  | nil => simpa using h
  | cons c more ih =>
      have hnext := ih (h.record c)
      rwa [List.append_assoc] at hnext

end Entries

/-! ### The whole exploration -/

theorem mapM_eq_map {ε α β : Type} {f : α → Except ε β} {g : α → β} {l : List α}
    (h : ∀ a ∈ l, f a = .ok (g a)) : l.mapM f = .ok (l.map g) := by
  induction l with
  | nil => rfl
  | cons a l ih =>
      rw [List.mapM_cons, h a (List.mem_cons_self ..),
        ih fun b hb => h b (List.mem_cons_of_mem _ hb)]
      rfl

theorem exists_ok_of_mapM {ε α β : Type} {f : α → Except ε β} {l : List α} {bs : List β}
    (h : l.mapM f = .ok bs) : ∀ a ∈ l, ∃ b, f a = .ok b := by
  induction l generalizing bs with
  | nil => intro a ha; cases ha
  | cons a l ih =>
      rw [List.mapM_cons] at h
      obtain ⟨b, hfirst, h⟩ := bind_eq_ok.mp h
      obtain ⟨_, hrest, -⟩ := bind_eq_ok.mp h
      intro a' ha'
      rcases List.mem_cons.mp ha' with rfl | ha'
      · exact ⟨b, hfirst⟩
      · exact ih hrest a' ha'

variable {context : Context} {rules : RuleSet} {root : Expr}

/-- Every rule can be matched at every place. -/
def AllMatch (context : Context) (rules : RuleSet) (root : Expr) : Prop :=
  ∀ rule ∈ rules.rules, ∀ place ∈ places root,
    ∃ found, rule.applications context true place.2 = .ok found

/-- The entries for one rule at one place are those of its candidates. -/
theorem filterMap_entryFor? (root : Expr) (rule : Rule) (path : Path)
    (found : List Application) :
    found.filterMap (entryFor? root root.text root.key rule path) =
      ((found.map (Candidate.ofApplication root rule path)).filter
        fun c => c.key ≠ root.key).map (entryOf root) := by
  induction found with
  | nil => rfl
  | cons application found ih =>
      rw [List.filterMap_cons, entryFor?_eq, List.map_cons, List.filter_cons]
      by_cases hkey : (Candidate.ofApplication root rule path application).key = root.key
      · simpa [hkey] using ih
      · simpa [hkey] using ih

/-- The entries for one rule at one place. -/
def entriesAt (context : Context) (root : Expr) (rule : Rule) (place : Path × Expr) :
    List Entry :=
  (((rule.found context place.2).map (Candidate.ofApplication root rule place.1)).filter
    fun c => c.key ≠ root.key).map (entryOf root)

theorem entriesBy_eq {rule : Rule} {place : Path × Expr}
    (h : ∃ found, rule.applications context true place.2 = .ok found) :
    entriesBy context root root.text root.key rule place.1 place.2 =
      .ok (entriesAt context root rule place) := by
  obtain ⟨found, hfound⟩ := h
  have hnode : rule.found context place.2 = found := by
    rw [Rule.found, hfound]
    rfl
  rw [entriesBy, hfound, entriesAt, hnode, ← filterMap_entryFor?]
  rfl

theorem exists_ok_of_entriesBy {rule : Rule} {path : Path} {node : Expr} {entries : List Entry}
    (h : entriesBy context root root.text root.key rule path node = .ok entries) :
    ∃ found, rule.applications context true node = .ok found := by
  obtain ⟨found, hfound, -⟩ := bind_eq_ok.mp h
  exact ⟨found, hfound⟩

theorem map_entryOf_candidates (context : Context) (rules : RuleSet) (root : Expr) :
    (candidates context rules root).map (entryOf root) =
      (rules.rules.map fun rule =>
        (places root).map (entriesAt context root rule)).flatten.flatten := by
  rw [List.flatten_flatten, List.map_map, ← List.flatMap_def, candidates, List.map_flatMap]
  congr 1
  funext rule
  show _ = ((places root).map _).flatten
  rw [← List.flatMap_def, places, List.flatMap_assoc, List.map_flatMap]
  congr 1
  funext ⟨path, node⟩
  rw [List.map_flatMap, List.flatMap_map]
  rfl

/-- What is listed, if every rule can be matched at every place. -/
theorem nextSteps_eq (hsupported : root.isSupported = true) (h : AllMatch context rules root) :
    nextSteps context rules root = .ok
      ((((candidates context rules root).map (entryOf root)).foldl
        (fun entries entry => record entry entries) []).map Entry.step) := by
  have hfound : (rules.rules.mapM fun rule => (places root).mapM fun place =>
      entriesBy context root root.text root.key rule place.1 place.2) =
      .ok (rules.rules.map fun rule => (places root).map (entriesAt context root rule)) :=
    mapM_eq_map fun rule hrule => mapM_eq_map fun place hplace =>
      entriesBy_eq (h rule hrule place hplace)
  rw [nextSteps, if_pos hsupported, map_entryOf_candidates]
  simp only [hfound]
  rfl

/-- If one rule cannot be matched at one place, nothing is listed at all. -/
theorem allMatch_of_nextSteps {steps : List Step} (hsupported : root.isSupported = true)
    (h : nextSteps context rules root = .ok steps) : AllMatch context rules root := by
  rw [nextSteps, if_pos hsupported] at h
  obtain ⟨found, hfound, -⟩ := bind_eq_ok.mp h
  intro rule hrule place hplace
  obtain ⟨entries, hentries⟩ := exists_ok_of_mapM hfound rule hrule
  obtain ⟨entries', hentries'⟩ := exists_ok_of_mapM hentries place hplace
  exact exists_ok_of_entriesBy hentries'

/-- The steps that are listed are those of the entries for all candidates. -/
theorem exists_lists_of_nextSteps {steps : List Step} (hsupported : root.isSupported = true)
    (h : nextSteps context rules root = .ok steps) :
    ∃ entries, Lists root (candidates context rules root) entries ∧
      steps = entries.map Entry.step := by
  rw [nextSteps_eq hsupported (allMatch_of_nextSteps hsupported h)] at h
  obtain rfl := Except.ok.inj h
  have hlists := (lists_nil root).foldl (candidates context rules root)
  rw [List.nil_append] at hlists
  exact ⟨_, hlists, rfl⟩

/-- Nothing is listed for a tree with an unknown function. -/
theorem nextSteps_of_unsupported (h : root.isSupported = false) :
    nextSteps context rules root = .ok [] := by
  rw [nextSteps, if_neg (by simp [h])]
  rfl

/-- Every step that is listed belongs to a key. -/
theorem exists_isStepFor {steps : List Step} (h : nextSteps context rules root = .ok steps)
    {step : Step} (hstep : step ∈ steps) :
    ∃ key, IsStepFor root (candidates context rules root) key step := by
  by_cases hsupported : root.isSupported = true
  · obtain ⟨entries, hlists, rfl⟩ := exists_lists_of_nextSteps hsupported h
    obtain ⟨entry, hentry, rfl⟩ := List.mem_map.mp hstep
    exact ⟨entry.key, hlists.steps entry hentry⟩
  · rw [nextSteps_of_unsupported (by simpa using hsupported)] at h
    cases h
    cases hstep

/-- **Every step that can be taken is listed, and each once.**  There is one step for every key
that occurs among the candidates, in the order in which the keys first occur, and it is the one
that belongs to its key.  The nodes at which the rules are tried are all nodes of the tree, each
visited once and in order; and steps are listed if, and only if, every rule can be matched. -/
theorem nextSteps_lists (context : Context) (rules : RuleSet) (root : Expr)
    (hsupported : root.isSupported = true) :
    (root.postOrder.Pairwise (fun a b => Path.Before a.1 b.1) ∧
      ∀ path node, (path, node) ∈ root.postOrder ↔ root.get? path = some node) ∧
    ((∃ steps, nextSteps context rules root = .ok steps) ↔ AllMatch context rules root) ∧
    ∀ steps, nextSteps context rules root = .ok steps →
      List.Forall₂ (IsStepFor root (candidates context rules root))
        ((candidates context rules root).map Candidate.key).eraseDups steps := by
  refine ⟨⟨Expr.pairwise_postOrder root, fun _ _ => Expr.mem_postOrder_iff⟩, ⟨?_, ?_⟩, ?_⟩
  · rintro ⟨steps, h⟩
    exact allMatch_of_nextSteps hsupported h
  · intro h
    exact ⟨_, nextSteps_eq hsupported h⟩
  · intro steps h
    obtain ⟨entries, hlists, rfl⟩ := exists_lists_of_nextSteps hsupported h
    rw [← hlists.keys, List.forall₂_map_left_iff, List.forall₂_map_right_iff]
    exact List.forall₂_same.mpr hlists.steps

/-- In `1 + 2 + 3` two numbers can be added in six ways, and five of the sums differ. -/
theorem nextSteps_lists_oneTwoThree :
    (Expr.sum [.const 1, .const 2, .const 3]).isSupported = true ∧
    ∃ steps, nextSteps .plain (.ofGroups [⟨"arithmetic", Arithmetic.rules⟩])
        (.sum [.const 1, .const 2, .const 3]) = .ok steps ∧
      steps.map Step.after = ["3 + 3", "4 + 2", "1 + 5", "5 + 1", "2 + 4"] ∧
      List.Forall₂ (IsStepFor (.sum [.const 1, .const 2, .const 3])
          (candidates .plain (.ofGroups [⟨"arithmetic", Arithmetic.rules⟩])
            (.sum [.const 1, .const 2, .const 3])))
        ((candidates .plain (.ofGroups [⟨"arithmetic", Arithmetic.rules⟩])
          (.sum [.const 1, .const 2, .const 3])).map Candidate.key).eraseDups steps := by
  have hsupported : (Expr.sum [.const 1, .const 2, .const 3]).isSupported = true := by decide
  have hsteps : ∃ steps, nextSteps .plain (.ofGroups [⟨"arithmetic", Arithmetic.rules⟩])
        (.sum [.const 1, .const 2, .const 3]) = .ok steps ∧
      steps.map Step.after = ["3 + 3", "4 + 2", "1 + 5", "5 + 1", "2 + 4"] :=
    ⟨_, by cbv, by cbv⟩
  obtain ⟨steps, hsteps, hafter⟩ := hsteps
  exact ⟨hsupported, steps, hsteps, hafter,
    (nextSteps_lists .plain (.ofGroups [⟨"arithmetic", Arithmetic.rules⟩])
      (.sum [.const 1, .const 2, .const 3]) hsupported).2.2 steps hsteps⟩

end Explorer

end AlgebraTutor
