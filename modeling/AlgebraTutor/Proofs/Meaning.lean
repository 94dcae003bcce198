/-
What a phrase means.

A phrase means a tree if it has a tree with the same value, whatever the names stand for.  That is
less than having that very tree: a difference of three terms is read as a difference of a difference
and a term, and printed as one sum.

There is one thing that a reader does not take at face value: a single letter in front of one
argument in parentheses is a factor.  So where a tree has a call of that form, what is read from its
printed form has the value of the tree under a valuation in which such a call is a product.
-/
import AlgebraTutor.Proofs.Lexing
import AlgebraTutor.Proofs.Value

namespace AlgebraTutor

/-! ### Well-formed trees -/

/-- Tells whether an operator can have so many arguments. -/
def Op.accepts : Op → Nat → Bool
  | .add, n | .mul, n => n != 0
  | .div, n | .pow, n => n == 2
  | .neg, n => n == 1

namespace Expr

mutual

/-- Every operator has as many arguments as it should, and all names are identifiers. -/
def isWellFormed : Expr → Bool
  | const _ => true
  | symbol name => Token.isIdentifier name.toList
  | member object index => Token.isIdentifier object.toList && Token.isIdentifier index.toList
  | op kind args _ => kind.accepts args.length && allWellFormed args
  | call name args => Token.isIdentifier name.toList && allWellFormed args

/-- All trees of the list are well-formed. -/
def allWellFormed : List Expr → Bool
  | [] => true
  | e :: es => isWellFormed e && allWellFormed es

end

theorem allWellFormed_eq_all (es : List Expr) : allWellFormed es = es.all isWellFormed := by
  induction es with
  | nil => rfl
  | cons e es ih => rw [allWellFormed, List.all_cons, ih]

theorem isWellFormed_op {kind : Op} {args : List Expr} {i : Bool} :
    (op kind args i).isWellFormed = true ↔
      kind.accepts args.length = true ∧ ∀ arg ∈ args, arg.isWellFormed = true := by
  rw [isWellFormed, Bool.and_eq_true, allWellFormed_eq_all, List.all_eq_true]

theorem isWellFormed_call {name : String} {args : List Expr} :
    (call name args).isWellFormed = true ↔
      Token.isIdentifier name.toList = true ∧ ∀ arg ∈ args, arg.isWellFormed = true := by
  rw [isWellFormed, Bool.and_eq_true, allWellFormed_eq_all, List.all_eq_true]

mutual

/-- Tells whether a function with a single letter for a name is called with one argument. -/
def hasLetterCall : Expr → Bool
  | op _ args _ => anyHasLetterCall args
  | call name args => (name.length == 1 && args.length == 1) || anyHasLetterCall args
  | _ => false

/-- Tells whether one of the trees has such a call. -/
def anyHasLetterCall : List Expr → Bool
  | [] => false
  | e :: es => hasLetterCall e || anyHasLetterCall es

end

end Expr

/-! ### Single letters -/

/-- The valuation in which a call of a single letter with one argument is a product. -/
def Valuation.lettered (ρ : Valuation) : Valuation where
  symbol := ρ.symbol
  member := ρ.member
  power := ρ.power
  call name qs :=
    match qs with
    | [q] => if name.length = 1 then some (ρ.symbol name * q) else ρ.call name [q]
    | qs => ρ.call name qs
  call_root name q h := by
    have hlength : ¬name.length = 1 := by rcases h with rfl | rfl <;> decide
    exact (if_neg hlength).trans (ρ.call_root name q h)
  call_decimalLog name q h := by
    have hlength : ¬name.length = 1 := by rcases h with rfl | rfl <;> decide
    exact (if_neg hlength).trans (ρ.call_decimalLog name q h)
  call_naturalLog name q h := by
    have hlength : ¬name.length = 1 := by rcases h with rfl | rfl <;> decide
    exact (if_neg hlength).trans (ρ.call_naturalLog name q h)

theorem Valuation.lettered_call (ρ : Valuation) {name : String} {qs : List Rat}
    (h : ¬(name.length = 1 ∧ qs.length = 1)) : ρ.lettered.call name qs = ρ.call name qs := by
  unfold lettered
  simp only
  split
  · exact if_neg fun hlength => h ⟨hlength, rfl⟩
  · rfl

@[simp] theorem Valuation.power_lettered (ρ : Valuation) : ρ.lettered.power = ρ.power := rfl

@[simp] theorem Valuation.operate_lettered (ρ : Valuation) : ρ.lettered.operate = ρ.operate := rfl

namespace Expr

variable {ρ : Valuation}

theorem length_of_values {es : List Expr} {qs : List Rat} (h : values ρ es = some qs) :
    qs.length = es.length := (values_eq_some.mp h).length_eq.symm

/-- The tree of a call has the value of the call where single letters are factors. -/
theorem value_ofCall (name : String) (args : List Expr) :
    (ofCall name args).value ρ = (values ρ args).bind (ρ.lettered.call name) := by
  unfold ofCall
  split
  · next arg =>
      cases harg : arg.value ρ with
      | none => by_cases hlength : name.length = 1 <;> simp [hlength, harg]
      | some q =>
          by_cases hlength : name.length = 1 <;>
            simp [hlength, harg, Valuation.lettered]
  · next hargs =>
      rw [value]
      cases hqs : values ρ args with
      | none => rfl
      | some qs =>
          refine (ρ.lettered_call fun h => ?_).symm
          rw [length_of_values hqs] at h
          obtain ⟨arg, rfl⟩ := List.length_eq_one_iff.mp h.2
          exact hargs arg rfl

mutual

/-- Single letters make no difference to a tree that does not call one. -/
theorem value_lettered : ∀ {e : Expr}, e.hasLetterCall = false → e.value ρ.lettered = e.value ρ
  | const _, _ => rfl
  | symbol _, _ => rfl
  | member _ _, _ => rfl
  | op kind args i, h => by
      rw [value, value, values_lettered h]
      rfl
  | call name args, h => by
      obtain ⟨hletter, hargs⟩ := Bool.or_eq_false_iff.mp h
      rw [value, value, values_lettered hargs]
      cases hqs : values ρ args with
      | none => rfl
      | some qs =>
          refine ρ.lettered_call fun h => ?_
          rw [length_of_values hqs] at h
          simp [h] at hletter

theorem values_lettered : ∀ {es : List Expr}, anyHasLetterCall es = false →
    values ρ.lettered es = values ρ es
  | [], _ => rfl
  | e :: es, h => by
      obtain ⟨he, hes⟩ := Bool.or_eq_false_iff.mp h
      rw [values_cons, values_cons, value_lettered he, values_lettered hes]

end

end Expr

/-! ### Phrases for trees -/

/-- The phrase has a tree with the value of `e`, up to single letters. -/
def Phrase.Means (p : Phrase) (e : Expr) : Prop :=
  ∃ x, p.expr? = some x ∧ ∀ ρ : Valuation, x.value ρ = e.value ρ.lettered

namespace Phrase

open AlgebraTutor.Expr

variable {p q : Phrase} {e f : Expr} {es : List Expr}

theorem Means.congr (h : p.Means e) (heq : ∀ ρ : Valuation, e.value ρ = f.value ρ) : p.Means f := by
  obtain ⟨x, hx, hvalue⟩ := h
  exact ⟨x, hx, fun ρ => (hvalue ρ).trans (heq ρ.lettered)⟩

theorem Means.paren (h : p.Means e) : (paren p).Means e := by
  obtain ⟨x, hx, hvalue⟩ := h
  exact ⟨x, by rw [expr?, hx], hvalue⟩

theorem Means.neg (h : p.Means e) : (neg p).Means (.minus e) := by
  obtain ⟨x, hx, hvalue⟩ := h
  refine ⟨.minus x, by rw [expr?, hx]; rfl, fun ρ => ?_⟩
  rw [value_minus, value_minus, hvalue]

/-- The phrase of two operands means what its operator makes of their trees. -/
theorem Means.binary (kind : BinaryKind) (i : Bool) (hp : p.Means e) (hq : q.Means f) :
    (binary p kind i q).Means (joined kind i e f) := by
  obtain ⟨x, hx, hvalue⟩ := hp
  obtain ⟨y, hy, hvalue'⟩ := hq
  refine ⟨joined kind i x y, by rw [expr?, hx, hy]; rfl, fun ρ => ?_⟩
  cases kind <;> simp [joined, hvalue, hvalue']

variable {done : List Expr} {i : Bool}

theorem Means.plus (j : Bool) (hp : p.Means (.op .add done i)) (hq : q.Means f) :
    (Phrase.binary p .add j q).Means (.op .add (done ++ [f]) i) :=
  (Means.binary .add j hp hq).congr fun _ => value_flatten rfl [] done [f] false i

theorem Means.times (j : Bool) (hp : p.Means (.op .mul done i)) (hq : q.Means f) :
    (Phrase.binary p .mul j q).Means (.op .mul (done ++ [f]) i) :=
  (Means.binary .mul j hp hq).congr fun _ => value_flatten rfl [] done [f] j i

/-- Taking a term away is adding the term with a sign. -/
theorem Means.minus (j : Bool) (hp : p.Means (.op .add done i)) (hq : q.Means e)
    (hf : ∀ ρ : Valuation, f.value ρ = (e.value ρ).map (- ·)) :
    (Phrase.binary p .sub j q).Means (.op .add (done ++ [f]) i) := by
  have hneg : (Phrase.neg q).Means f :=
    hq.neg.congr fun ρ => (value_minus e).trans (hf ρ).symm
  obtain ⟨x, hx, hvalue⟩ := hp.plus j hneg
  refine ⟨x, ?_, hvalue⟩
  rw [← hx, expr?, expr?, expr?]
  cases p.expr? <;> cases q.expr? <;> rfl

theorem Means.number {digits : List Char} {q : Rat} (h : decimal? digits = some q) :
    (number (String.ofList digits)).Means (.const q) :=
  ⟨.const q, by rw [expr?, String.toList_ofList, h]; rfl, fun _ => rfl⟩

theorem Means.symbol (name : String) : (symbol name).Means (.symbol name) :=
  ⟨.symbol name, rfl, fun _ => rfl⟩

theorem Means.member (object index : String) : (member object index).Means (.member object index) :=
  ⟨.member object index, rfl, fun _ => rfl⟩

theorem exprs?_of_means {ps : List Phrase} (h : List.Forall₂ Means ps es) :
    ∃ xs, exprs? ps = some xs ∧ ∀ ρ : Valuation, values ρ xs = values ρ.lettered es := by
  induction h with
  | nil => exact ⟨[], rfl, fun _ => rfl⟩
  | cons hp _ ih =>
      obtain ⟨x, hx, hvalue⟩ := hp
      obtain ⟨xs, hxs, hvalues⟩ := ih
      refine ⟨x :: xs, by rw [exprs?, hx, hxs]; rfl, fun ρ => ?_⟩
      rw [values_cons, values_cons, hvalue, hvalues]

/-- The phrase of a call means the call of the trees of its arguments. -/
theorem Means.call {ps : List Phrase} (name : String) (h : List.Forall₂ Means ps es) :
    (Phrase.call name ps).Means (.call name es) := by
  obtain ⟨xs, hxs, hvalues⟩ := exprs?_of_means h
  refine ⟨ofCall name xs, by rw [expr?, hxs]; rfl, fun ρ => ?_⟩
  rw [value_ofCall, hvalues, value]

end Phrase

end AlgebraTutor
