/-
What a match binds.

A match binds the wildcards of the pattern and nothing else, and each occurrence of a wildcard
accepts the tree that is bound to its name.  The second is not obvious for a name that occurs twice,
since the tree found for one occurrence takes the place of a like one found for another.  It holds
because what a wildcard accepts does not depend on grouping and order: whether the tree is a
constant, and which one, and which variables occur in it.

A rule that replaces one pattern by another has something to put in place of every match, then,
since it is only read if every wildcard on the right occurs on the left.
-/
import AlgebraTutor.Proofs.Matching
import AlgebraTutor.Proofs.RoundTrip

namespace AlgebraTutor

/-! ### What does not depend on grouping and order -/

namespace Expr

theorem anyMentions_eq_any (name : String) (es : List Expr) :
    anyMentions name es = es.any (mentions name) := by
  induction es with
  | nil => rfl
  | cons e es ih => rw [anyMentions, List.any_cons, ih]

namespace Regrouped

theorem eq_symbol_iff {a b : Expr} (h : Regrouped a b) (name : String) :
    a = symbol name ↔ b = symbol name := by
  induction h with
  | refl _ => exact Iff.rfl
  | symm _ ih => exact ih.symm
  | trans _ _ ih₁ ih₂ => exact ih₁.trans ih₂
  | _ => exact ⟨nofun, nofun⟩

theorem mentions_eq {a b : Expr} (h : Regrouped a b) (name : String) :
    a.mentions name = b.mentions name := by
  induction h with
  | refl _ => rfl
  | symm _ ih => exact ih.symm
  | trans _ _ ih₁ ih₂ => exact ih₁.trans ih₂
  | implicit kind args i j => rfl
  | perm hkind h i => simp only [mentions, anyMentions_eq_any, h.any_eq]
  | flatten hkind hinner before after i j =>
      simp only [mentions, anyMentions_eq_any, List.any_append, List.any_cons, Bool.or_assoc]
  | opArg kind before after i _ ih =>
      simp only [mentions, anyMentions_eq_any, List.any_append, List.any_cons, ih]
  | callArg called before after _ ih =>
      simp only [mentions, anyMentions_eq_any, List.any_append, List.any_cons, ih]

end Regrouped

end Expr

/-! ### What a wildcard accepts -/

namespace WildcardKind

/-- The tree may be bound to a wildcard of this kind: the wildcard accepts it, or, if the kind is
that of negative constants, it is the magnitude of one. -/
def Holds (context : Context) (e : Expr) : WildcardKind → Prop
  | constant true => ∃ q, q < 0 ∧ e = .const (-q)
  | kind => kind.accept? context e = some e

variable {context : Context} {kind : WildcardKind} {e e' : Expr}

theorem holds_of_accept? {value : Expr} (h : kind.accept? context e = some value) :
    kind.Holds context value := by
  rcases Pattern.accept?_eq_some h with ⟨hkind, rfl⟩ | ⟨rfl, q, rfl, rfl⟩
  · cases kind with
    | constant negative =>
        cases negative with
        | false => exact h
        | true => exact absurd rfl hkind
    | _ => exact h
  · refine ⟨q, ?_, rfl⟩
    by_contra hq
    simp [accept?, hq] at h

theorem Holds.of_regrouped (h : kind.Holds context e) (hreg : e'.Regrouped e) :
    kind.Holds context e' := by
  have hconstant : e'.isConstant = e.isConstant := by
    rw [Expr.isConstant, Expr.isConstant, hreg.constant?_eq]
  have hmentions := hreg.mentions_eq
  cases kind with
  | any => rfl
  | nonConstant =>
      simp only [Holds, accept?, hconstant] at h ⊢
      split at h <;> simp_all
  | constant negative =>
      cases negative with
      | false =>
          simp only [Holds, accept?, hconstant] at h ⊢
          split at h <;> simp_all
      | true =>
          obtain ⟨q, hq, rfl⟩ := h
          refine ⟨q, hq, ?_⟩
          have hvalue : e'.constant? = some (-q) := hreg.constant?_eq
          cases e' <;> simp_all [Expr.constant?]
  | unknown =>
      have hsymbol : ∃ name, e = .symbol name := by
        cases e <;> simp [Holds, accept?] at h ⊢
      obtain ⟨name, rfl⟩ := hsymbol
      rw [(hreg.eq_symbol_iff name).mpr rfl]
      exact h
  | excludesUnknown =>
      simp only [Holds, accept?] at h ⊢
      split at h
      · simp only [hmentions]
        split at h <;> simp_all
      · cases h
  | containsUnknown =>
      simp only [Holds, accept?] at h ⊢
      split at h
      · simp only [hmentions]
        split at h <;> simp_all
      · cases h

end WildcardKind

namespace Pattern

/-! ### The wildcards of a pattern -/

mutual

/-- The wildcards of a pattern with their kinds, once for each occurrence. -/
def kinds : Pattern → List (String × WildcardKind)
  | wildcard name kind => [(name, kind)]
  | op _ args => allKinds args
  | call _ args => allKinds args
  | _ => []

/-- The wildcards of some patterns with their kinds. -/
def allKinds : List Pattern → List (String × WildcardKind)
  | [] => []
  | p :: ps => kinds p ++ allKinds ps

end

theorem mem_insertName {name other : String} {names : List String} :
    name ∈ insertName other names ↔ name = other ∨ name ∈ names := by
  induction names with
  | nil => simp [insertName]
  | cons first rest ih =>
      rw [insertName]
      split
      · simp
      · split
        · rw [List.mem_cons, ih, List.mem_cons]
          exact or_left_comm
        · next hnot hnot' =>
            have heq : other = first :=
              String.le_antisymm (String.not_lt.mp hnot') (String.not_lt.mp hnot)
            rw [heq, List.mem_cons, or_self_left]

@[simp] theorem mem_wildcards {p : Pattern} {name : String} :
    name ∈ p.wildcards ↔ name ∈ p.occurrences := by
  unfold wildcards
  induction p.occurrences with
  | nil => rfl
  | cons first rest ih => rw [List.foldr_cons, mem_insertName, ih, List.mem_cons]

/-- Each of the wildcards accepts what its name is bound to. -/
def Accepted (context : Context) (wildcards : List (String × WildcardKind)) (b : Bindings) : Prop :=
  ∀ name kind, (name, kind) ∈ wildcards → ∃ e, b.get? name = some e ∧ kind.Holds context e

/-- The bindings bind the wildcards of the pattern and nothing else, and each occurrence of a
wildcard accepts what its name is bound to. -/
structure Binds (context : Context) (p : Pattern) (b : Bindings) : Prop where
  names : ∀ name, (b.get? name).isSome = true ↔ name ∈ p.wildcards
  accepted : Accepted context p.kinds b

/-! ### A match binds the wildcards -/

section Matches

variable {context : Context}

theorem Accepted.mono {wildcards : List (String × WildcardKind)} {b b' : Bindings}
    (h : Accepted context wildcards b) (hb : b.Within b') : Accepted context wildcards b' := by
  intro name kind hmem
  obtain ⟨e, he, hholds⟩ := h name kind hmem
  obtain ⟨e', he', hreg⟩ := hb name e he
  exact ⟨e', he', hholds.of_regrouped hreg⟩

mutual

theorem binds_of_mem_matchExpr : ∀ {p : Pattern} {e : Expr} {b : Bindings},
    b ∈ matchExpr context p e →
      (∀ name, (b.get? name).isSome = true ↔ name ∈ p.occurrences) ∧ Accepted context p.kinds b
  | wildcard name kind, e, b, h => by
      rw [matchExpr] at h
      split at h
      · next value hvalue =>
          obtain rfl := List.mem_singleton.mp h
          refine ⟨fun other => ?_, fun other kind' hmem => ?_⟩
          · by_cases hother : other = name <;> simp [occurrences, hother]
          · obtain ⟨rfl, rfl⟩ : other = name ∧ kind' = kind := by simpa [kinds] using hmem
            exact ⟨value, by simp, WildcardKind.holds_of_accept? hvalue⟩
      · cases h
  | const _, e, b, h => by
      cases e <;> simp only [matchExpr, List.not_mem_nil] at h
      split at h
      · obtain rfl := List.mem_singleton.mp h
        exact ⟨by simp [occurrences], by simp [Accepted, kinds]⟩
      · cases h
  | symbol _, e, b, h => by
      cases e <;> simp only [matchExpr, List.not_mem_nil] at h
      split at h
      · obtain rfl := List.mem_singleton.mp h
        exact ⟨by simp [occurrences], by simp [Accepted, kinds]⟩
      · cases h
  | member _ _, e, b, h => by
      cases e <;> simp only [matchExpr, List.not_mem_nil] at h
      split at h
      · obtain rfl := List.mem_singleton.mp h
        exact ⟨by simp [occurrences], by simp [Accepted, kinds]⟩
      · cases h
  | op kind patterns, e, b, h => by
      obtain ⟨args, i, operands, -, -, hlength, hb⟩ := exists_operands_of_mem_matchExpr h
      obtain ⟨b₀, hb₀, -, hnames, haccepted⟩ := binds_of_mem_matchArgs hlength hb
      obtain rfl := List.mem_singleton.mp hb₀
      exact ⟨fun name => by simpa [occurrences] using hnames name, haccepted⟩
  | call name patterns, e, b, h => by
      obtain ⟨args, -, hlength, hb⟩ := exists_args_of_mem_matchExpr h
      obtain ⟨b₀, hb₀, -, hnames, haccepted⟩ := binds_of_mem_matchArgs hlength hb
      obtain rfl := List.mem_singleton.mp hb₀
      exact ⟨fun name => by simpa [occurrences] using hnames name, haccepted⟩

/-- What is found for a row of patterns binds what was bound before and the wildcards of the row. -/
theorem binds_of_mem_matchArgs : ∀ {ps : List Pattern} {found : List Bindings} {es : List Expr}
    {b : Bindings}, ps.length = es.length → b ∈ matchArgs context ps found es →
      ∃ b₀ ∈ found, b₀.Within b ∧
        (∀ name, (b.get? name).isSome = true ↔
          (b₀.get? name).isSome = true ∨ name ∈ allOccurrences ps) ∧
        Accepted context (allKinds ps) b
  | [], found, [], b, _, h => by
      rw [matchArgs] at h
      · exact ⟨b, h, .refl b, by simp [allOccurrences], by simp [Accepted, allKinds]⟩
      · simp
  | p :: ps, found, e :: es, b, hlength, h => by
      rw [matchArgs] at h
      split at h
      · cases h
      · obtain ⟨b₁, hb₁, hwithin, hnames, haccepted⟩ :=
          binds_of_mem_matchArgs (by simpa using hlength) h
        obtain ⟨l, hl, r, hr, hagree, rfl⟩ := Bindings.mem_merge hb₁
        obtain ⟨hnames', haccepted'⟩ := binds_of_mem_matchExpr hr
        have haccepted'' := haccepted'.mono ((Bindings.right_within_union l r).trans hwithin)
        refine ⟨l, hl, (Bindings.left_within_union hagree).trans hwithin, fun name => ?_,
          fun name kind hmem => ?_⟩
        · rw [hnames, Bindings.get?_union, Option.isSome_or, Bool.or_eq_true, hnames',
            allOccurrences, List.mem_append]
          tauto
        · rcases List.mem_append.mp hmem with hmem | hmem
          · exact haccepted'' name kind hmem
          · exact haccepted name kind hmem

end

theorem mem_matchExpr_of_mem_matches? {p : Pattern} {e : Expr} {bs : List Bindings}
    (hbs : p.matches? context e = .ok bs) {b : Bindings} (hb : b ∈ bs) :
    b ∈ matchExpr context p e := by
  obtain ⟨_, -, hbs⟩ := bind_eq_ok.mp hbs
  obtain rfl := Except.ok.inj hbs
  exact hb

theorem binds_of_mem_matches? {p : Pattern} {e : Expr} {bs : List Bindings}
    (hbs : p.matches? context e = .ok bs) {b : Bindings} (hb : b ∈ bs) : Binds context p b := by
  obtain ⟨hnames, haccepted⟩ := binds_of_mem_matchExpr (mem_matchExpr_of_mem_matches? hbs hb)
  exact ⟨fun name => by rw [hnames, mem_wildcards], haccepted⟩

theorem IsPairMatch.binds {kind : Op} {patterns : List Pattern} {args : List Expr} {i j : Nat}
    {left right : Expr} {found : Match}
    (h : IsPairMatch context kind patterns args i j left right found) :
    Binds context (op kind patterns) found.bindings := by
  obtain ⟨b₀, hb₀, -, hnames, haccepted⟩ := binds_of_mem_matchArgs h.length h.bindings
  obtain rfl := List.mem_singleton.mp hb₀
  exact ⟨fun name => by simpa [occurrences] using hnames name, haccepted⟩

end Matches

/-! ### Something to put in place of a match -/

mutual

/-- A pattern of which all wildcards are bound becomes a tree. -/
theorem exists_substitute? {b : Bindings} : ∀ {p : Pattern},
    (∀ name ∈ p.occurrences, (b.get? name).isSome = true) → ∃ t, p.substitute? b = some t
  | wildcard name kind, h => by
      obtain ⟨e, he⟩ := Option.isSome_iff_exists.mp (h name (by simp [occurrences]))
      unfold substitute?
      split
      · next heq => cases heq; exact ⟨_, by rw [he]; rfl⟩
      · next heq => cases heq; exact ⟨e, he⟩
      all_goals next heq => cases heq
  | const _, _ => ⟨_, rfl⟩
  | symbol _, _ => ⟨_, rfl⟩
  | member _ _, _ => ⟨_, rfl⟩
  | op kind args, h => by
      obtain ⟨ts, hts⟩ := exists_substituteAll? h
      exact ⟨.op kind ts false, by rw [substitute?, hts]; rfl⟩
  | call name args, h => by
      obtain ⟨ts, hts⟩ := exists_substituteAll? h
      exact ⟨.call name ts, by rw [substitute?, hts]; rfl⟩

theorem exists_substituteAll? {b : Bindings} : ∀ {ps : List Pattern},
    (∀ name ∈ allOccurrences ps, (b.get? name).isSome = true) →
      ∃ ts, substituteAll? b ps = some ts
  | [], _ => ⟨[], rfl⟩
  | p :: ps, h => by
      rw [allOccurrences] at h
      obtain ⟨t, ht⟩ := exists_substitute? fun name hname => h name (List.mem_append_left _ hname)
      obtain ⟨ts, hts⟩ :=
        exists_substituteAll? fun name hname => h name (List.mem_append_right _ hname)
      exact ⟨t :: ts, by rw [substituteAll?, ht, hts]; rfl⟩

end

/-- A rule that is read has something to put in place of whatever binds the wildcards on its
left. -/
theorem exists_build?_of_parse {change : Change} {lhs rhs : String} {spec : RuleSpec}
    (hspec : RuleSpec.parse change lhs rhs = .ok spec) {context : Context} {b : Bindings}
    (hb : Binds context spec.lhs b) (node : Expr) : ∃ new, spec.build? node b = some new := by
  obtain ⟨left, -, hspec⟩ := bind_eq_ok.mp hspec
  obtain ⟨right, -, hspec⟩ := bind_eq_ok.mp hspec
  split at hspec
  · next hall =>
      obtain rfl := Except.ok.inj hspec
      show ∃ new, right.substitute? b = some new
      refine exists_substitute? fun name hname => (hb.names name).mpr ?_
      have hcontains := List.all_eq_true.mp hall name (mem_wildcards.mpr hname)
      exact List.contains_iff_mem.mp hcontains
  · cases hspec

/-! ### Matching is sound -/

/-- **A match binds the wildcards of the pattern, and under its bindings the pattern becomes a
regrouping of what was matched**: of the tree, or of a node with the two arguments that a longer sum
or product was matched at, so that with the pattern in their place the tree is a regrouping of
itself.  So a rule that was read has something to put in place of every match. -/
theorem matching_sound (context : Context) (p : Pattern) (e : Expr) :
    (∀ bs, p.matches? context e = .ok bs → ∀ b ∈ bs,
      Binds context p b ∧ ∃ t, p.substitute? b = some t ∧ t.Regrouped e) ∧
    (∀ ms, p.extractions? context e = .ok ms → ∀ found ∈ ms, Binds context p found.bindings ∧
      ∃ i j, found.extraction = some (i, j) ∧ i ≠ j ∧ i < e.args.length ∧ j < e.args.length ∧
        ∃ t, p.substitute? found.bindings = some t ∧
          t.Regrouped (Rule.matchedNode e (some (i, j))) ∧
          (Rule.replaceMatched e (some (i, j)) t).Regrouped e) ∧
    ∀ change lhs rhs spec, RuleSpec.parse change lhs rhs = .ok spec →
      (∀ bs, spec.lhs.matches? context e = .ok bs → ∀ b ∈ bs, ∀ node,
        ∃ new, spec.build? node b = some new) ∧
      ∀ ms, spec.lhs.extractions? context e = .ok ms → ∀ found ∈ ms, ∀ node,
        ∃ new, spec.build? node found.bindings = some new := by
  refine ⟨fun bs hbs b hb => ⟨binds_of_mem_matches? hbs hb, ?_⟩, fun ms hms found hfound => ?_,
    fun change lhs rhs spec hspec => ⟨fun bs hbs b hb => ?_, fun ms hms found hfound => ?_⟩⟩
  · exact substitute?_of_mem_matchExpr (mem_matchExpr_of_mem_matches? hbs hb)
  · obtain ⟨kind, patterns, args, implicit, i, j, left, right, rfl, rfl, hpair⟩ :=
      exists_pair_of_mem_extractions hms hfound
    exact ⟨hpair.binds, i, j, hpair.extraction, hpair.ne,
      (List.getElem?_eq_some_iff.mp hpair.first).1, (List.getElem?_eq_some_iff.mp hpair.second).1,
      hpair.substitute⟩
  · exact exists_build?_of_parse hspec (binds_of_mem_matches? hbs hb)
  · obtain ⟨kind, patterns, args, implicit, i, j, left, right, hlhs, -, hpair⟩ :=
      exists_pair_of_mem_extractions hms hfound
    exact exists_build?_of_parse hspec (hlhs ▸ hpair.binds)

/-- The pattern `n1 + n1`. -/
def twice : Pattern := op .add [Wildcard.n1, Wildcard.n1]

theorem parse_sum_twice : parse "n1 + n1" = .ok twice := parse_of_ofText? (by cbv)

theorem parse_twice : RuleSpec.parse .unknown "n1 + n1" "2 * n1" =
    .ok (.structural .unknown twice (op .mul [const 2, Wildcard.n1])) := by
  have hright : parse "2 * n1" = .ok (op .mul [const 2, Wildcard.n1]) := parse_of_ofText? (by cbv)
  rw [RuleSpec.parse, parse_sum_twice, hright]
  rfl

/-- The pattern `n1 + n1` matches `x + x + (x + x)` as a whole, with one half of it, and it matches
the first two terms. -/
theorem matching_sound_twice :
    ∃ e : Expr, e = .sum [.symbol "x", .symbol "x", .sum [.symbol "x", .symbol "x"]] ∧
      (∃ b, twice.matches? .plain e = .ok [b] ∧ Binds .plain twice b ∧
        ∃ t, twice.substitute? b = some t ∧ t.Regrouped e) ∧
      (∃ found other, twice.extractions? .plain e = .ok [found, other] ∧
        ∃ t, twice.substitute? found.bindings = some t ∧
          t.Regrouped (Rule.matchedNode e (some (0, 1))) ∧
          (Rule.replaceMatched e (some (0, 1)) t).Regrouped e) ∧
      ∃ spec b new, RuleSpec.parse .unknown "n1 + n1" "2 * n1" = .ok spec ∧
        spec.lhs.matches? .plain e = .ok [b] ∧ spec.build? e b = some new := by
  have hdirect : twice.matches? .plain
      (.sum [.symbol "x", .symbol "x", .sum [.symbol "x", .symbol "x"]]) =
        .ok [.single "n1" (.sum [.symbol "x", .symbol "x"])] := rfl
  have hpairs : twice.extractions? .plain
      (.sum [.symbol "x", .symbol "x", .sum [.symbol "x", .symbol "x"]]) =
        .ok [⟨.single "n1" (.symbol "x"), some (0, 1)⟩,
          ⟨.single "n1" (.symbol "x"), some (1, 0)⟩] := rfl
  obtain ⟨hmatches, hextractions, hrules⟩ := matching_sound .plain twice
    (.sum [.symbol "x", .symbol "x", .sum [.symbol "x", .symbol "x"]])
  refine ⟨_, rfl, ⟨_, hdirect, hmatches _ hdirect _ (List.mem_singleton_self _)⟩,
    ⟨_, _, hpairs, ?_⟩, ?_⟩
  · obtain ⟨-, i, j, hij, -, -, -, t, ht, hreg⟩ := hextractions _ hpairs _ (List.mem_cons_self ..)
    cases hij
    exact ⟨t, ht, hreg⟩
  · obtain ⟨hbuilds, -⟩ := hrules _ _ _ _ parse_twice
    obtain ⟨new, hnew⟩ := hbuilds _ hdirect _ (List.mem_singleton_self _) _
    exact ⟨_, _, new, parse_twice, hdirect, hnew⟩

end Pattern

end AlgebraTutor
