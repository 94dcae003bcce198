/-
Equality up to grouping and order.

Two trees are regroupings of each other if one becomes the other by reordering the arguments of
sums and products, by merging a sum into a sum around it or a product into a product around it, and
by writing products with a sign or without, at any depth.  Only sums and products of at least two
arguments are merged, so a regrouping is an application of the associative and commutative laws and
drops nothing.  That is the equality that a match of a pattern respects: the tree a pattern becomes
under its bindings is a regrouping of the tree that was matched.

A regrouping keeps the value of a tree and the functions that are called in it.  The program's own
test, `alike`, knows less: it reorders and does not merge.
-/
import AlgebraTutor.Proofs.Reordering
import AlgebraTutor.Proofs.Value

namespace AlgebraTutor

namespace Expr

/-- The trees are equal up to the grouping and order of the arguments of sums and products, and up
to the way products are written. -/
inductive Regrouped : Expr → Expr → Prop
  | refl (e : Expr) : Regrouped e e
  | symm {a b : Expr} : Regrouped a b → Regrouped b a
  | trans {a b c : Expr} : Regrouped a b → Regrouped b c → Regrouped a c
  | implicit (kind : Op) (args : List Expr) (i j : Bool) :
      Regrouped (op kind args i) (op kind args j)
  | perm {kind : Op} (hkind : kind.isCommutative = true) {args args' : List Expr}
      (h : args.Perm args') (i : Bool) : Regrouped (op kind args i) (op kind args' i)
  | flatten {kind : Op} (hkind : kind.isCommutative = true) {inner : List Expr}
      (hinner : 2 ≤ inner.length) (before after : List Expr) (i j : Bool) :
      Regrouped (op kind (before ++ op kind inner j :: after) i)
        (op kind (before ++ inner ++ after) i)
  | opArg (kind : Op) (before after : List Expr) (i : Bool) {a b : Expr} :
      Regrouped a b →
      Regrouped (op kind (before ++ a :: after) i) (op kind (before ++ b :: after) i)
  | callArg (name : String) (before after : List Expr) {a b : Expr} :
      Regrouped a b →
      Regrouped (call name (before ++ a :: after)) (call name (before ++ b :: after))

namespace Regrouped

variable {ρ : Valuation}

/-! ### Replacing all arguments at once -/

theorem opArgs (kind : Op) (i : Bool) {es fs : List Expr} (h : List.Forall₂ Regrouped es fs) :
    Regrouped (op kind es i) (op kind fs i) :=
  replace_all (fun args => op kind args i) refl trans
    (fun before after _ _ h => opArg kind before after i h) h

theorem callArgs (name : String) {es fs : List Expr} (h : List.Forall₂ Regrouped es fs) :
    Regrouped (call name es) (call name fs) :=
  replace_all (call name) refl trans (fun before after _ _ h => callArg name before after h) h

theorem minus {a b : Expr} (h : Regrouped a b) : Regrouped (minus a) (minus b) :=
  opArg .neg [] [] false h

/-! ### What regrouping keeps -/

/-- **A regrouping has the value of the tree.** -/
theorem value_eq {a b : Expr} (h : Regrouped a b) : a.value ρ = b.value ρ := by
  induction h with
  | refl _ => rfl
  | symm _ ih => exact ih.symm
  | trans _ _ ih₁ ih₂ => exact ih₁.trans ih₂
  | implicit kind args i j => rfl
  | perm hkind h i => exact value_perm hkind h i
  | flatten hkind _ before after i j => exact value_flatten hkind before _ after i j
  | opArg kind before after i _ ih => simp only [value, values_append, values_cons, ih]
  | callArg name before after _ ih => simp only [value, values_append, values_cons, ih]

theorem constant?_eq {a b : Expr} (h : Regrouped a b) : a.constant? = b.constant? := by
  induction h with
  | symm _ ih => exact ih.symm
  | trans _ _ ih₁ ih₂ => exact ih₁.trans ih₂
  | _ => rfl

/-- Negation looks one level into a tree, and a regrouping does not change what it finds. -/
theorem negated {a b : Expr} (h : Regrouped a b) : Regrouped a.negated b.negated := by
  induction h with
  | refl _ => exact refl _
  | symm _ ih => exact ih.symm
  | trans _ _ ih₁ ih₂ => exact ih₁.trans ih₂
  | implicit kind args i j =>
      unfold Expr.negated
      split
      · next heq => cases heq
      · next heq => cases heq; exact refl _
      · next hneg =>
          split
          · next heq => cases heq
          · next heq => cases heq; exact absurd rfl (hneg _ _)
          · exact minus (implicit kind args i j)
  | perm hkind h i =>
      have hminus := minus (perm hkind h i)
      cases ‹Op› <;> first | exact hminus | cases hkind
  | flatten hkind hinner before after i j =>
      have hminus := minus (flatten hkind hinner before after i j)
      cases ‹Op› <;> first | exact hminus | cases hkind
  | opArg kind before after i h ih =>
      have hminus := minus (opArg kind before after i h)
      cases kind <;> try exact hminus
      match before, after with
      | [], [] => exact h
      | [], _ :: _ => exact hminus
      | _ :: [], _ => exact hminus
      | _ :: _ :: _, _ => exact hminus
  | callArg name before after h ih => exact minus (callArg name before after h)

end Regrouped

/-! ### Function calls in a tree -/

mutual

/-- Tells whether a function is called in a tree. -/
def hasCall : Expr → Bool
  | op _ args _ => anyHasCall args
  | call _ _ => true
  | _ => false

/-- Tells whether a function is called in one of the trees. -/
def anyHasCall : List Expr → Bool
  | [] => false
  | e :: es => hasCall e || anyHasCall es

end

theorem anyHasCall_eq_any (es : List Expr) : anyHasCall es = es.any hasCall := by
  induction es with
  | nil => rfl
  | cons e es ih => rw [anyHasCall, List.any_cons, ih]

@[simp] theorem hasCall_op (kind : Op) (args : List Expr) (i : Bool) :
    (op kind args i).hasCall = args.any hasCall := by
  rw [hasCall, anyHasCall_eq_any]

theorem Regrouped.hasCall_eq {a b : Expr} (h : Regrouped a b) : a.hasCall = b.hasCall := by
  induction h with
  | refl _ => rfl
  | symm _ ih => exact ih.symm
  | trans _ _ ih₁ ih₂ => exact ih₁.trans ih₂
  | implicit kind args i j => rfl
  | perm hkind h i => simp only [hasCall_op]; exact h.any_eq
  | flatten hkind hinner before after i j =>
      simp only [hasCall_op, List.any_append, List.any_cons, Bool.or_assoc]
  | opArg kind before after i _ ih =>
      simp only [hasCall_op, List.any_append, List.any_cons, ih]
  | callArg name before after _ _ => rfl

/-! ### Trees that are alike -/

theorem Reordered.regrouped {a b : Expr} (h : Reordered a b) : Regrouped a b := by
  induction h with
  | refl e => exact .refl e
  | trans _ _ ih₁ ih₂ => exact ih₁.trans ih₂
  | implicit kind args i j => exact .implicit kind args i j
  | perm hkind h i => exact .perm hkind h i
  | opArg kind before after i _ ih => exact .opArg kind before after i ih
  | callArg name before after _ ih => exact .callArg name before after ih

/-- **Trees that are alike are regroupings of each other.** -/
theorem regrouped_of_alike {a b : Expr} (h : alike a b = true) : Regrouped a b :=
  (alike_iff_reordered.mp h).regrouped

end Expr

end AlgebraTutor
