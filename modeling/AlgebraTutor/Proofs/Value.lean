/-
The value of a tree.

A valuation says what the names of a tree stand for, what a power is and what the functions
compute.  Powers and functions may have no value at some arguments, and a quotient by zero has
none, so the value of a tree is optional.  It is strict: a tree has a value only if each of its
nodes has one.  A node with the wrong number of arguments, such as a quotient of three trees, has
no value.

A valuation knows that some functions have several names, and gives all of them the same meaning;
those are the names that the normal form of a tree unifies.
-/
import Mathlib
import AlgebraTutor.Expr.Normal

namespace AlgebraTutor

/-- What the names, powers and functions of a tree stand for. -/
structure Valuation where
  symbol : String → Rat
  member : String → String → Rat
  /-- The value of a power with this base and this exponent. -/
  power : Rat → Rat → Option Rat
  call : String → List Rat → Option Rat
  call_root : ∀ name q, name = "sqrt" ∨ name = "nthRoot" →
    call name [q] = call "nthRoot" [q, 2]
  call_decimalLog : ∀ name q, name = "log10" ∨ name = "log" →
    call name [q] = call "logXY" [10, q]
  call_naturalLog : ∀ name q, name = "logE" ∨ name = "ln" →
    call name [q] = call "logXY" [member "const" "e", q]

/-- Powers with integer exponents.  A negative power of zero has no value, and the empty power of
zero is one. -/
def integerPower (base exponent : Rat) : Option Rat :=
  if exponent.den = 1 ∧ (0 ≤ exponent.num ∨ base ≠ 0) then some (base ^ exponent.num) else none

/-- The sum or the product of two numbers. -/
def Op.combine : Op → Rat → Rat → Rat
  | .mul, p, q => p * q
  | _, p, q => p + q

namespace Valuation

/-- The valuation takes a power for what it is in arithmetic, with integer exponents only. -/
def HasIntegerPowers (ρ : Valuation) : Prop := ρ.power = integerPower

/-- The valuation of arithmetic: names stand for numbers, powers have integer exponents, and no
function has values. -/
def arithmetic (symbol : String → Rat) (member : String → String → Rat) : Valuation where
  symbol := symbol
  member := member
  power := integerPower
  call _ _ := none
  call_root _ _ _ := rfl
  call_decimalLog _ _ _ := rfl
  call_naturalLog _ _ _ := rfl

theorem hasIntegerPowers_arithmetic (symbol : String → Rat) (member : String → String → Rat) :
    (arithmetic symbol member).HasIntegerPowers := rfl

/-- The valuation of arithmetic in which every name stands for the same number. -/
def uniform (q : Rat) : Valuation := arithmetic (fun _ => q) fun _ _ => q

/-- What an operator makes of the values of its arguments. -/
def operate (ρ : Valuation) : Op → List Rat → Option Rat
  | .add, qs => some qs.sum
  | .mul, qs => some qs.prod
  | .neg, [q] => some (-q)
  | .div, [p, q] => if q = 0 then none else some (p / q)
  | .pow, [p, q] => ρ.power p q
  | _, _ => none

attribute [simp] operate

end Valuation

namespace Expr

variable {ρ : Valuation}

mutual

/-- The value of a tree, if it has one. -/
def value (ρ : Valuation) : Expr → Option Rat
  | const q => some q
  | symbol name => some (ρ.symbol name)
  | member object index => some (ρ.member object index)
  | op kind args _ => (values ρ args).bind (ρ.operate kind)
  | call name args => (values ρ args).bind (ρ.call name)

/-- The values of the trees of a list, if all of them have one. -/
def values (ρ : Valuation) : List Expr → Option (List Rat)
  | [] => some []
  | e :: es => (value ρ e).bind fun q => (values ρ es).map (q :: ·)

end

attribute [simp] value

@[simp] theorem values_nil : values ρ [] = some [] := rfl

@[simp] theorem values_cons (e : Expr) (es : List Expr) :
    values ρ (e :: es) = (e.value ρ).bind fun q => (values ρ es).map (q :: ·) := rfl

/-- The values of two lists one after the other. -/
theorem values_append (es fs : List Expr) :
    values ρ (es ++ fs) = (values ρ es).bind fun ps => (values ρ fs).map (ps ++ ·) := by
  induction es with
  | nil => simp
  | cons e es ih =>
      rw [List.cons_append, values_cons, values_cons, ih]
      cases value ρ e <;> cases values ρ es <;> cases values ρ fs <;> simp

/-- The trees of a list have the values `qs` one by one. -/
theorem values_eq_some {es : List Expr} {qs : List Rat} :
    values ρ es = some qs ↔ List.Forall₂ (fun e q => e.value ρ = some q) es qs := by
  induction es generalizing qs with
  | nil => cases qs <;> simp
  | cons e es ih =>
      rw [values_cons]
      cases qs with
      | nil => cases value ρ e <;> cases values ρ es <;> simp
      | cons q qs =>
          rw [List.forall₂_cons, ← ih]
          cases value ρ e <;> cases values ρ es <;> simp

theorem values_cons_eq_some {e : Expr} {es : List Expr} {qs : List Rat} :
    values ρ (e :: es) = some qs ↔
      ∃ p ps, e.value ρ = some p ∧ values ρ es = some ps ∧ qs = p :: ps := by
  rw [values_cons]
  cases value ρ e <;> cases values ρ es <;> simp [eq_comm]

/-- Reordering the trees of a list reorders their values. -/
theorem values_perm {es fs : List Expr} (h : es.Perm fs) {ps : List Rat}
    (hp : values ρ es = some ps) : ∃ qs, values ρ fs = some qs ∧ ps.Perm qs := by
  induction h generalizing ps with
  | nil => exact ⟨ps, hp, .refl _⟩
  | cons e _ ih =>
      obtain ⟨q, ps, hq, hps, rfl⟩ := values_cons_eq_some.mp hp
      obtain ⟨qs, hqs, hperm⟩ := ih hps
      exact ⟨q :: qs, values_cons_eq_some.mpr ⟨q, qs, hq, hqs, rfl⟩, hperm.cons q⟩
  | swap e f es =>
      obtain ⟨q, ps, hq, hps, rfl⟩ := values_cons_eq_some.mp hp
      obtain ⟨q', ps, hq', hps', rfl⟩ := values_cons_eq_some.mp hps
      exact ⟨q' :: q :: ps, by rw [values_cons, values_cons, hq', hq, hps']; rfl, .swap _ _ _⟩
  | trans _ _ ih₁ ih₂ =>
      obtain ⟨qs, hqs, h₁⟩ := ih₁ hp
      obtain ⟨rs, hrs, h₂⟩ := ih₂ hqs
      exact ⟨rs, hrs, h₁.trans h₂⟩

/-! ### The values of small trees -/

@[simp] theorem value_sum (terms : List Expr) :
    (sum terms).value ρ = (values ρ terms).map List.sum := by
  cases h : values ρ terms <;> simp [sum, h]

@[simp] theorem value_product (factors : List Expr) :
    (product factors).value ρ = (values ρ factors).map List.prod := by
  cases h : values ρ factors <;> simp [product, h]

@[simp] theorem value_quotient (a b : Expr) :
    (quotient a b).value ρ = (a.value ρ).bind fun p => (b.value ρ).bind fun q =>
      if q = 0 then none else some (p / q) := by
  cases ha : value ρ a <;> cases hb : value ρ b <;> simp [quotient, ha, hb]

@[simp] theorem value_power (a b : Expr) :
    (power a b).value ρ = (a.value ρ).bind fun p => (b.value ρ).bind fun q => ρ.power p q := by
  cases ha : value ρ a <;> cases hb : value ρ b <;> simp [power, ha, hb]

@[simp] theorem value_minus (e : Expr) : (minus e).value ρ = (e.value ρ).map (- ·) := by
  cases h : value ρ e <;> simp [minus, h]

/-- The fraction of a number has the number as its value. -/
@[simp] theorem value_ofRat (q : Rat) : (ofRat q).value ρ = some q := by
  unfold ofRat
  split
  · rfl
  · have hden : (q.den : Rat) ≠ 0 := by exact_mod_cast q.den_nz
    rw [value_quotient]
    simp [hden, Rat.num_div_den]

/-- Negation changes the sign of the value. -/
@[simp] theorem value_negated (e : Expr) : e.negated.value ρ = (e.value ρ).map (- ·) := by
  unfold negated
  split
  · rfl
  · next operand _ => cases h : value ρ operand <;> simp [h]
  · exact value_minus _

/-- The value of an operator does not depend on the way it was written. -/
theorem value_implicit (kind : Op) (args : List Expr) (i j : Bool) :
    (op kind args i).value ρ = (op kind args j).value ρ := rfl

/-! ### Sums and products

What is true of both is stated of a commutative operator. -/

section Commutative

variable {kind : Op} (hkind : kind.isCommutative = true)

include hkind

theorem value_append (es fs : List Expr) (i : Bool) :
    (op kind (es ++ fs) i).value ρ = ((op kind es i).value ρ).bind fun p =>
      ((op kind fs i).value ρ).map (kind.combine p) := by
  cases kind <;> simp [Op.isCommutative] at hkind <;>
    cases hes : values ρ es <;> cases hfs : values ρ fs <;>
    simp [values_append, hes, hfs, Op.combine]

theorem value_singleton (e : Expr) (i : Bool) : (op kind [e] i).value ρ = e.value ρ := by
  cases kind <;> simp [Op.isCommutative] at hkind <;>
    cases h : value ρ e <;> simp [h]

/-- The order of the arguments of a sum or product does not matter. -/
theorem value_perm {es fs : List Expr} (h : es.Perm fs) (i : Bool) :
    (op kind es i).value ρ = (op kind fs i).value ρ := by
  have hsome : ∀ {es fs : List Expr}, es.Perm fs → ∀ v, (op kind es i).value ρ = some v →
      (op kind fs i).value ρ = some v := by
    intro es fs h v hv
    rw [value] at hv ⊢
    obtain ⟨ps, hps, hv⟩ := Option.bind_eq_some_iff.mp hv
    obtain ⟨qs, hqs, hperm⟩ := values_perm h hps
    rw [hqs, Option.bind_some]
    cases kind <;> simp [Op.isCommutative] at hkind
    · simpa [hperm.sum_eq] using hv
    · simpa [hperm.prod_eq] using hv
  exact Option.ext fun v => ⟨hsome h v, hsome h.symm v⟩

/-- The grouping of the arguments of a sum or product does not matter. -/
theorem value_flatten (before inner after : List Expr) (i j : Bool) :
    (op kind (before ++ op kind inner j :: after) i).value ρ =
      (op kind (before ++ inner ++ after) i).value ρ := by
  rw [← List.singleton_append, ← List.append_assoc, value_append hkind, value_append hkind before,
    value_singleton hkind, value_append hkind, value_append hkind before,
    value_implicit kind inner j i]

/-- A node has the value of what it contributes to a sum or product around it. -/
theorem value_spread (e : Expr) (i : Bool) : (op kind (spread kind e) i).value ρ = e.value ρ := by
  unfold spread
  split
  · split
    · next h => rw [h]; exact value_implicit kind _ i _
    · exact value_singleton hkind _ i
  · exact value_singleton hkind _ i

theorem value_flatMap_spread (es : List Expr) (i : Bool) :
    (op kind (es.flatMap (spread kind)) i).value ρ = (op kind es i).value ρ := by
  induction es with
  | nil => rfl
  | cons e es ih =>
      rw [List.flatMap_cons, value_append hkind, value_spread hkind, ih,
        ← value_singleton hkind e i, ← value_append hkind, List.singleton_append]

theorem value_neutral (i : Bool) : (op kind [] i).value ρ = some (neutral kind) := by
  cases kind <;> simp [Op.isCommutative] at hkind <;> simp [neutral]

/-- Merging nested sums or products keeps the value. -/
theorem value_merged (es : List Expr) (i : Bool) :
    (merged kind es i).value ρ = (op kind es i).value ρ := by
  rw [← value_flatMap_spread hkind]
  unfold merged
  split
  · next h => rw [h, value_neutral hkind]; rfl
  · next only h => rw [h, value_singleton hkind]
  · exact value_implicit kind _ _ i

end Commutative

/-! ### The normal form has the same value -/

/-- A sign goes into a leading constant without a change of the value. -/
theorem value_signed (es : List Expr) (i : Bool) :
    (signed es i).value ρ = (op .neg es i).value ρ := by
  unfold signed
  split
  · simp
  · next q factors _ => cases h : values ρ factors <;> simp [h]
  · next q divisors _ =>
      cases h : values ρ divisors with
      | none => simp [h]
      | some qs =>
          match qs with
          | [] => simp [h]
          | [r] => by_cases hr : r = 0 <;> simp [h, hr, neg_div]
          | _ :: _ :: _ => simp [h]
  · exact value_implicit _ _ _ i
  · rfl

theorem value_normalOp (kind : Op) (es : List Expr) (i : Bool) :
    (normalOp kind es i).value ρ = (op kind es i).value ρ := by
  cases kind
  · exact value_merged rfl es i
  · exact value_merged rfl es i
  · rfl
  · rfl
  · exact value_signed es i

/-- The names of a function all give the same value. -/
theorem value_normalCall (name : String) (es : List Expr) :
    (normalCall name es).value ρ = (call name es).value ρ := by
  unfold normalCall
  split
  · next arg =>
      cases h : value ρ arg with
      | none => split_ifs <;> simp [h]
      | some q =>
          split_ifs with h₁ h₂ h₃
          · simp [h, ρ.call_root name q h₁]
          · simp [h, ρ.call_decimalLog name q h₂]
          · simp [h, euler, ρ.call_naturalLog name q h₃]
          · rfl
  · rfl

mutual

/-- **The normal form of a tree has the value of the tree.** -/
theorem value_normalize : ∀ e : Expr, e.normalize.value ρ = e.value ρ
  | const _ => rfl
  | symbol _ => rfl
  | member _ _ => rfl
  | op kind args i => by
      rw [normalize, value_normalOp, value, value, values_normalizeAll args]
  | call name args => by
      rw [normalize, value_normalCall, value, value, values_normalizeAll args]

theorem values_normalizeAll : ∀ es : List Expr, values ρ (normalizeAll es) = values ρ es
  | [] => rfl
  | e :: es => by
      rw [normalizeAll, values_cons, values_cons, value_normalize e, values_normalizeAll es]

end

end Expr

end AlgebraTutor
