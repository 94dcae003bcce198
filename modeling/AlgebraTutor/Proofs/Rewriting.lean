/-
Rewriting a node keeps the value of the tree around it.

A replacement may have a value where the replaced tree has none: `x/x` has no value at zero, and
`1` has.  So the relation between a tree and what it is rewritten to is one-sided: if the tree
has a value, then the other one has the same.  Since values are strict, that passes from a node to
the tree around it.

What is asked of a rule is the same about its two patterns: under bindings that make the left
pattern into one tree and the right side into another, the second keeps the value of the first.
-/
import AlgebraTutor.Proofs.Matching

namespace AlgebraTutor

namespace Expr

variable {ρ : Valuation}

/-- The second tree has the value of the first, if that has one. -/
def Keeps (ρ : Valuation) (a b : Expr) : Prop := ∀ v, a.value ρ = some v → b.value ρ = some v

theorem Keeps.refl (e : Expr) : Keeps ρ e e := fun _ h => h

theorem Keeps.trans {a b c : Expr} (h₁ : Keeps ρ a b) (h₂ : Keeps ρ b c) : Keeps ρ a c :=
  fun v hv => h₂ v (h₁ v hv)

theorem Keeps.of_eq {a b : Expr} (h : a.value ρ = b.value ρ) : Keeps ρ a b :=
  fun _ hv => h ▸ hv

theorem Regrouped.keeps {a b : Expr} (h : Regrouped a b) : Keeps ρ a b := .of_eq h.value_eq

theorem keeps_normalize (e : Expr) : Keeps ρ e e.normalize := .of_eq (value_normalize e).symm

/-! ### From a node to the tree around it -/

theorem values_replace {a b : Expr} (h : Keeps ρ a b) (before after : List Expr) {qs : List Rat}
    (hqs : values ρ (before ++ a :: after) = some qs) :
    values ρ (before ++ b :: after) = some qs := by
  rw [values_append] at hqs ⊢
  obtain ⟨ps, hps, hqs⟩ := Option.bind_eq_some_iff.mp hqs
  obtain ⟨rs, hrs, rfl⟩ := Option.map_eq_some_iff.mp hqs
  obtain ⟨q, rs, hq, hafter, rfl⟩ := values_cons_eq_some.mp hrs
  rw [hps, values_cons_eq_some.mpr ⟨q, rs, h q hq, hafter, rfl⟩]
  rfl

theorem Keeps.opArg (kind : Op) (before after : List Expr) (i : Bool) {a b : Expr}
    (h : Keeps ρ a b) :
    Keeps ρ (op kind (before ++ a :: after) i) (op kind (before ++ b :: after) i) := by
  intro v hv
  rw [value] at hv ⊢
  obtain ⟨qs, hqs, hv⟩ := Option.bind_eq_some_iff.mp hv
  rw [values_replace h before after hqs]
  exact hv

theorem Keeps.callArg (name : String) (before after : List Expr) {a b : Expr} (h : Keeps ρ a b) :
    Keeps ρ (call name (before ++ a :: after)) (call name (before ++ b :: after)) := by
  intro v hv
  rw [value] at hv ⊢
  obtain ⟨qs, hqs, hv⟩ := Option.bind_eq_some_iff.mp hv
  rw [values_replace h before after hqs]
  exact hv

theorem exists_around_of_getElem? {α : Type} {as : List α} {i : Nat} {a : α} (h : as[i]? = some a) :
    ∃ before after, as = before ++ a :: after ∧ ∀ b, as.set i b = before ++ b :: after := by
  obtain ⟨hi, rfl⟩ := List.getElem?_eq_some_iff.mp h
  refine ⟨as.take i, as.drop (i + 1), ?_, fun b => ?_⟩
  · rw [← List.drop_eq_getElem_cons hi, List.take_append_drop]
  · rw [List.set_eq_take_append_cons_drop, if_pos hi]

/-- Replacing the node at the end of a path by one that keeps its value keeps the value of the
whole tree. -/
theorem keeps_replace? {path : Path} : ∀ {root node new tree : Expr},
    root.get? path = some node → root.replace? path new = some tree → Keeps ρ node new →
    Keeps ρ root tree := by
  induction path with
  | nil =>
      intro root node new tree hnode htree h
      cases hnode
      cases htree
      exact h
  | cons i path ih =>
      intro root node new tree hnode htree h
      rw [get?] at hnode
      rw [replace?] at htree
      split at hnode
      · next arg harg =>
          rw [harg] at htree
          obtain ⟨arg', harg', rfl⟩ := Option.map_eq_some_iff.mp htree
          have hkeeps := ih hnode harg' h
          obtain ⟨before, after, hargs, hset⟩ := exists_around_of_getElem? harg
          rw [hset]
          cases root with
          | op kind args implicit =>
              obtain rfl : args = before ++ arg :: after := hargs
              exact Keeps.opArg kind before after implicit hkeeps
          | call name args =>
              obtain rfl : args = before ++ arg :: after := hargs
              exact Keeps.callArg name before after hkeeps
          | _ => simp [args] at harg
      · cases hnode

theorem keeps_splice {root node new : Expr} {path : Path} (hnode : root.get? path = some node)
    (h : Keeps ρ node new) : Keeps ρ root (root.splice path new) := by
  unfold splice
  split
  · next tree htree => exact (keeps_replace? hnode htree h).trans (keeps_normalize tree)
  · exact Keeps.refl _

end Expr

/-! ### Applications of a rule -/

/-- What the rule puts in place of a tree keeps the value of the tree. -/
def RuleSpec.Keeps (ρ : Valuation) (spec : RuleSpec) : Prop :=
  ∀ node b t t', spec.lhs.substitute? b = some t → spec.build? node b = some t' →
    Expr.Keeps ρ t t'

namespace Rule

open AlgebraTutor.Expr

variable {ρ : Valuation}

/-- The node with something else in the place of the match keeps its value, if what was matched
does. -/
theorem Fits.keeps {rule : Rule} {e matched new : Expr} {found : Match}
    (hfits : rule.Fits e found matched) (h : Keeps ρ matched new) :
    Keeps ρ e (replaceMatched e found.extraction new) := by
  refine hfits.regrouped.symm.keeps.trans ?_
  rcases hfits.place with hplace | ⟨kind, before, after, i, hplace⟩
  · rw [hplace, hplace]
    exact h
  · rw [hplace, hplace]
    exact Keeps.opArg kind before after i h

/-- An application puts what the rule builds in the place of the match. -/
theorem exists_of_build? {rule : Rule} {e : Expr} {withMistakes : Bool} {found : Match}
    {A : Application} (hA : rule.build? withMistakes e found = some A) :
    ∃ new, rule.toRuleSpec.build? (matchedNode e found.extraction) found.bindings = some new ∧
      A.after = replaceMatched e found.extraction new := by
  unfold build? at hA
  obtain ⟨new, hnew, hA⟩ := Option.bind_eq_some_iff.mp hA
  simp only at hA
  split at hA
  · cases hA
  · cases hA
    exact ⟨new, hnew, rfl⟩

theorem keeps_of_build? {context : Context} {rule : Rule} {e : Expr} {withMistakes : Bool}
    {ms : List Match} {found : Match} {A : Application} (hrule : rule.toRuleSpec.Keeps ρ)
    (hms : rule.findMatches context e = .ok ms) (hfound : found ∈ ms)
    (hA : rule.build? withMistakes e found = some A) : Keeps ρ e A.after := by
  obtain ⟨matched, hfits⟩ := fits_of_mem_findMatches hms hfound
  obtain ⟨new, hnew, hafter⟩ := exists_of_build? hA
  rw [hafter]
  exact hfits.keeps (hrule _ _ _ _ hfits.substitute hnew)

theorem mem_addApplication {found : List Application} {new A : Application}
    (h : A ∈ addApplication found new) : A ∈ found ∨ A = new := by
  unfold addApplication at h
  split at h
  · exact .inl h
  · simpa using h

theorem mem_foldl_addApplication : ∀ {new found : List Application} {A : Application},
    A ∈ new.foldl addApplication found → A ∈ found ∨ A ∈ new := by
  intro new
  induction new with
  | nil => intro found A h; exact .inl h
  | cons B rest ih =>
      intro found A h
      rcases ih h with h | h
      · rcases mem_addApplication h with h | rfl
        · exact .inl h
        · exact .inr (List.mem_cons_self ..)
      · exact .inr (List.mem_cons_of_mem _ h)

/-- Every application is built from a match. -/
theorem exists_match_of_mem_applications {context : Context} {rule : Rule} {e : Expr}
    {withMistakes : Bool} {apps : List Application}
    (happs : rule.applications context withMistakes e = .ok apps) {A : Application}
    (hA : A ∈ apps) :
    ∃ ms found, rule.findMatches context e = .ok ms ∧ found ∈ ms ∧
      rule.build? withMistakes e found = some A := by
  obtain ⟨ms, hms, happs⟩ := bind_eq_ok.mp happs
  obtain rfl := Except.ok.inj happs
  rcases mem_foldl_addApplication hA with hA | hA
  · cases hA
  · obtain ⟨found, hfound, hbuild⟩ := List.mem_filterMap.mp hA
    exact ⟨ms, found, hms, hfound, hbuild⟩

/-- **Every application of a rule that keeps values keeps the value of the node.** -/
theorem keeps_of_mem_applications {context : Context} {rule : Rule} {e : Expr}
    {withMistakes : Bool} {apps : List Application} (hrule : rule.toRuleSpec.Keeps ρ)
    (happs : rule.applications context withMistakes e = .ok apps) {A : Application}
    (hA : A ∈ apps) : Keeps ρ e A.after := by
  obtain ⟨ms, found, hms, hfound, hbuild⟩ := exists_match_of_mem_applications happs hA
  exact keeps_of_build? hrule hms hfound hbuild

/-- The first application is built from a match. -/
theorem exists_match_of_firstApplication? {context : Context} {rule : Rule} {e : Expr}
    {withMistakes : Bool} {A : Application}
    (hA : rule.firstApplication? context withMistakes e = .ok (some A)) :
    ∃ ms found, rule.findMatches context e = .ok ms ∧ found ∈ ms ∧
      rule.build? withMistakes e found = some A := by
  obtain ⟨ms, hms, hA⟩ := bind_eq_ok.mp hA
  obtain ⟨found, hfound, hbuild⟩ := List.exists_of_findSome?_eq_some (Except.ok.inj hA)
  exact ⟨ms, found, hms, hfound, hbuild⟩

theorem keeps_of_firstApplication? {context : Context} {rule : Rule} {e : Expr}
    {withMistakes : Bool} {A : Application} (hrule : rule.toRuleSpec.Keeps ρ)
    (hA : rule.firstApplication? context withMistakes e = .ok (some A)) : Keeps ρ e A.after := by
  obtain ⟨ms, found, hms, hfound, hbuild⟩ := exists_match_of_firstApplication? hA
  exact keeps_of_build? hrule hms hfound hbuild

end Rule

end AlgebraTutor
