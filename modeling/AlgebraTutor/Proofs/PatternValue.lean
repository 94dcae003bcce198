/-
The value of a pattern.

A pattern has a value once its wildcards have: they stand for numbers here instead of trees.  That
is all that a rule's soundness depends on, so a rule between two patterns keeps values if an
equation between two rational expressions holds wherever the first one is defined.  The lemmas
`keeps_structural` and `keeps_computed` say so for the two kinds of rules, and the lemmas before
them reduce a pattern to that rational expression.
-/
import AlgebraTutor.Proofs.Rewriting

namespace AlgebraTutor

/-- The values of the trees that names are bound to. -/
def Bindings.meaning (ρ : Valuation) (b : Bindings) (name : String) : Option Rat :=
  (b.get? name).bind (Expr.value ρ)

namespace Pattern

variable {ρ : Valuation} {σ : String → Option Rat}

mutual

/-- The value of a pattern whose wildcards stand for the numbers that `σ` gives. -/
def value (ρ : Valuation) (σ : String → Option Rat) : Pattern → Option Rat
  | wildcard name (.constant true) => (σ name).map (- ·)
  | wildcard name _ => σ name
  | const q => some q
  | symbol name => some (ρ.symbol name)
  | member object index => some (ρ.member object index)
  | op kind args => (values ρ σ args).bind (ρ.operate kind)
  | call name args => (values ρ σ args).bind (ρ.call name)

/-- The values of some patterns, if all of them have one. -/
def values (ρ : Valuation) (σ : String → Option Rat) : List Pattern → Option (List Rat)
  | [] => some []
  | p :: ps => (value ρ σ p).bind fun q => (values ρ σ ps).map (q :: ·)

end

mutual

/-- The tree that a pattern becomes has the value of the pattern. -/
theorem value_substitute? {b : Bindings} : ∀ {p : Pattern} {t : Expr},
    p.substitute? b = some t → t.value ρ = p.value ρ (b.meaning ρ)
  | wildcard name kind, t, h => by
      unfold substitute? at h
      unfold value Bindings.meaning
      split at h
      · next heq =>
          cases heq
          obtain ⟨e, he, rfl⟩ := Option.map_eq_some_iff.mp h
          show e.negated.value ρ = ((b.get? name).bind (Expr.value ρ)).map (- ·)
          rw [he]
          exact Expr.value_negated e
      · next heq =>
          cases heq
          simp [h]
      all_goals next heq => cases heq
  | const _, t, h => by cases h; rfl
  | symbol _, t, h => by cases h; rfl
  | member _ _, t, h => by cases h; rfl
  | op kind args, t, h => by
      rw [substitute?] at h
      obtain ⟨ts, hts, rfl⟩ := Option.map_eq_some_iff.mp h
      rw [Expr.value, value, values_substituteAll? hts]
  | call name args, t, h => by
      rw [substitute?] at h
      obtain ⟨ts, hts, rfl⟩ := Option.map_eq_some_iff.mp h
      rw [Expr.value, value, values_substituteAll? hts]

theorem values_substituteAll? {b : Bindings} : ∀ {ps : List Pattern} {ts : List Expr},
    substituteAll? b ps = some ts → Expr.values ρ ts = values ρ (b.meaning ρ) ps
  | [], ts, h => by cases h; rfl
  | p :: ps, ts, h => by
      rw [substituteAll?] at h
      obtain ⟨t, ht, h⟩ := Option.bind_eq_some_iff.mp h
      obtain ⟨us, hus, h⟩ := Option.bind_eq_some_iff.mp h
      cases h
      rw [Expr.values_cons, values, value_substitute? ht, values_substituteAll? hus]

end

/-! ### Patterns as they are written in rules -/

@[simp] theorem value_add (p q : Pattern) : (p + q).value ρ σ =
    (p.value ρ σ).bind fun a => (q.value ρ σ).map (a + ·) := by
  show (op .add [p, q]).value ρ σ = _
  cases hp : p.value ρ σ <;> cases hq : q.value ρ σ <;> simp [value, values, hp, hq]

@[simp] theorem value_mul (p q : Pattern) : (p * q).value ρ σ =
    (p.value ρ σ).bind fun a => (q.value ρ σ).map (a * ·) := by
  show (op .mul [p, q]).value ρ σ = _
  cases hp : p.value ρ σ <;> cases hq : q.value ρ σ <;> simp [value, values, hp, hq]

@[simp] theorem value_div (p q : Pattern) : (p / q).value ρ σ =
    (p.value ρ σ).bind fun a => (q.value ρ σ).bind fun b =>
      if b = 0 then none else some (a / b) := by
  show (op .div [p, q]).value ρ σ = _
  cases hp : p.value ρ σ <;> cases hq : q.value ρ σ <;> simp [value, values, hp, hq]

@[simp] theorem value_pow (p q : Pattern) : (p.pow q).value ρ σ =
    (p.value ρ σ).bind fun a => (q.value ρ σ).bind fun b => ρ.power a b := by
  show (op .pow [p, q]).value ρ σ = _
  cases hp : p.value ρ σ <;> cases hq : q.value ρ σ <;> simp [value, values, hp, hq]

@[simp] theorem value_neg (p : Pattern) : (-p).value ρ σ = (p.value ρ σ).map (- ·) := by
  show p.negated.value ρ σ = _
  unfold negated
  split
  · simp [value]
  · next name negative =>
      cases negative with
      | false => simp [value]
      | true => cases h : σ name <;> simp [value, h]
  · cases hp : p.value ρ σ <;> simp [value, values, hp]

theorem value_natCast (n : Nat) : (const n).value ρ σ = some (n : Rat) := rfl

@[simp] theorem value_zero : (0 : Pattern).value ρ σ = some 0 := value_natCast 0

@[simp] theorem value_one : (1 : Pattern).value ρ σ = some 1 := value_natCast 1

@[simp] theorem value_two : (2 : Pattern).value ρ σ = some 2 := value_natCast 2

end Pattern

/-! ### Rules -/

variable {ρ : Valuation}

/-- A rule between two patterns keeps values if its right pattern has the value of the left one
wherever that has one. -/
theorem RuleSpec.keeps_structural {change : Change} {lhs rhs : Pattern} {missteps : List Misstep}
    (h : ∀ σ v, lhs.value ρ σ = some v → rhs.value ρ σ = some v) :
    RuleSpec.Keeps ρ ⟨change, lhs, .structural rhs, missteps⟩ := by
  intro node b t t' ht ht' v hv
  rw [Pattern.value_substitute? ht'] at *
  rw [Pattern.value_substitute? ht] at hv
  exact h _ v hv

/-- A rule that computes its result keeps values if the result has the value of the left pattern
under the bindings it is computed from. -/
theorem RuleSpec.keeps_computed {change : Change} {lhs : Pattern} {build : Builder}
    {missteps : List Misstep}
    (h : ∀ node b t, build node b = some t → ∀ v, lhs.value ρ (b.meaning ρ) = some v →
      t.value ρ = some v) :
    RuleSpec.Keeps ρ ⟨change, lhs, .computed build, missteps⟩ := by
  intro node b t t' ht ht' v hv
  rw [Pattern.value_substitute? ht] at hv
  exact h node b t' ht' v hv

/-- A rule that works out the number that the left pattern stands for keeps values. -/
theorem RuleSpec.keeps_workedOut {change : Change} {lhs : Pattern} {build : Builder}
    {missteps : List Misstep}
    (h : ∀ node b t, build node b = some t → ∃ q, t.value ρ = some q ∧
      lhs.value ρ (b.meaning ρ) = some q) :
    RuleSpec.Keeps ρ ⟨change, lhs, .computed build, missteps⟩ := by
  refine RuleSpec.keeps_computed fun node b t hb v hv => ?_
  obtain ⟨q, ht, hlhs⟩ := h node b t hb
  rw [ht, ← hlhs, hv]

/-! ### Numbers bound to wildcards -/

theorem Bindings.constant?_eq_some {b : Bindings} {name : String} {q : Rat} :
    b.constant? name = some q ↔ b.get? name = some (.const q) := by
  unfold constant?
  cases h : b.get? name with
  | none => simp
  | some e => cases e <;> simp [Expr.constant?]

theorem Bindings.integer?_eq_some {b : Bindings} {name : String} {k : Int} :
    b.integer? name = some k ↔ b.get? name = some (.const k) := by
  unfold integer?
  cases h : b.get? name with
  | none => simp
  | some e =>
      cases e <;> simp [Expr.integer?]
      next q =>
        constructor
        · rintro ⟨hden, rfl⟩
          exact (Rat.den_eq_one_iff q).mp hden |>.symm
        · rintro rfl
          simp

theorem Bindings.meaning_of_constant? {b : Bindings} {name : String} {q : Rat}
    (h : b.constant? name = some q) : b.meaning ρ name = some q := by
  simp [meaning, constant?_eq_some.mp h]

theorem Bindings.meaning_of_integer? {b : Bindings} {name : String} {k : Int}
    (h : b.integer? name = some k) : b.meaning ρ name = some (k : Rat) := by
  simp [meaning, integer?_eq_some.mp h]

theorem Bindings.meaning_of_get? {b : Bindings} {name : String} {e : Expr}
    (h : b.get? name = some e) : b.meaning ρ name = e.value ρ := by
  simp [meaning, h]

end AlgebraTutor
