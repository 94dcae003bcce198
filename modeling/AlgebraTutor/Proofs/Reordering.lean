/-
Equality up to order.

`alike` pairs off the arguments of two sums or products one after the other: each takes the first
like one that is still free, and no choice is ever taken back.  A pairing that exists could be
missed in this way, if the argument taken first were the only one left for a later one.  It never
is.  To be alike is an equivalence, so whatever one of two like arguments can be paired with, the
other one can be as well.

That it is an equivalence is the same question one level deeper in the tree.  Here it is answered by
a relation that plainly is one, `Reordered`: the first tree becomes the second when arguments of sums
and products are permuted and products are written in another way.  Taken up to that relation, the
arguments of a sum or product form a multiset, and what the pairing does is to take equal members
out of two multisets.
-/
import Mathlib
import AlgebraTutor.Expr.Basic

namespace AlgebraTutor

namespace Expr

/-- What becomes of the arguments one by one becomes of all of them.  They are replaced from left to
right, so those in front of the next one are the new ones already. -/
theorem replace_all {r R : Expr → Expr → Prop} (node : List Expr → Expr) (hrefl : ∀ e, R e e)
    (htrans : ∀ {a b c}, R a b → R b c → R a c)
    (hone : ∀ (before after : List Expr) {a b : Expr}, r a b →
      R (node (before ++ a :: after)) (node (before ++ b :: after)))
    {es fs : List Expr} (h : List.Forall₂ r es fs) : R (node es) (node fs) := by
  suffices hall : ∀ before, R (node (before ++ es)) (node (before ++ fs)) from hall []
  induction h with
  | nil => intro before; exact hrefl _
  | @cons a b es fs hhead _ ih =>
      intro before
      refine htrans (hone before es hhead) ?_
      have htail := ih (before ++ [b])
      simpa only [List.append_assoc, List.singleton_append] using htail

/-- The first tree becomes the second when, at any depth, the arguments of sums and products are
permuted and products are written in another way. -/
inductive Reordered : Expr → Expr → Prop
  | refl (e : Expr) : Reordered e e
  | trans {a b c : Expr} : Reordered a b → Reordered b c → Reordered a c
  | implicit (kind : Op) (args : List Expr) (i j : Bool) :
      Reordered (op kind args i) (op kind args j)
  | perm {kind : Op} (hkind : kind.isCommutative = true) {args args' : List Expr}
      (h : args.Perm args') (i : Bool) : Reordered (op kind args i) (op kind args' i)
  | opArg (kind : Op) (before after : List Expr) (i : Bool) {a b : Expr} :
      Reordered a b →
      Reordered (op kind (before ++ a :: after) i) (op kind (before ++ b :: after) i)
  | callArg (name : String) (before after : List Expr) {a b : Expr} :
      Reordered a b →
      Reordered (call name (before ++ a :: after)) (call name (before ++ b :: after))

namespace Reordered

theorem symm {a b : Expr} (h : Reordered a b) : Reordered b a := by
  induction h with
  | refl e => exact .refl e
  | trans _ _ ih₁ ih₂ => exact ih₂.trans ih₁
  | implicit kind args i j => exact .implicit kind args j i
  | perm hkind h i => exact .perm hkind h.symm i
  | opArg kind before after i _ ih => exact .opArg kind before after i ih
  | callArg name before after _ ih => exact .callArg name before after ih

theorem opArgs (kind : Op) (i : Bool) {es fs : List Expr} (h : List.Forall₂ Reordered es fs) :
    Reordered (op kind es i) (op kind fs i) :=
  replace_all (fun args => op kind args i) refl trans
    (fun before after _ _ h => opArg kind before after i h) h

theorem callArgs (name : String) {es fs : List Expr} (h : List.Forall₂ Reordered es fs) :
    Reordered (call name es) (call name fs) :=
  replace_all (call name) refl trans (fun before after _ _ h => callArg name before after h) h

end Reordered

/-! ### Trees up to reordering -/

/-- Reordering is an equivalence. -/
def reordering : Setoid Expr := ⟨Reordered, .refl, .symm, .trans⟩

/-- A tree in which the order of the arguments of sums and products does not count. -/
abbrev Unordered : Type := Quotient reordering

/-- The tree up to reordering. -/
def unordered (e : Expr) : Unordered := Quotient.mk reordering e

theorem unordered_eq_iff {a b : Expr} : a.unordered = b.unordered ↔ Reordered a b := by
  unfold unordered
  exact Quotient.eq

theorem map_unordered_eq_iff {es fs : List Expr} :
    es.map unordered = fs.map unordered ↔ List.Forall₂ Reordered es fs := by
  rw [← List.forall₂_eq_eq_eq, List.forall₂_map_left_iff, List.forall₂_map_right_iff]
  simp only [unordered_eq_iff]

/-- The arguments of two nodes agree as multisets if those of the one can be permuted so that they
become those of the other one by one. -/
theorem perm_map_unordered_iff {es fs : List Expr} :
    (es.map unordered).Perm (fs.map unordered) ↔
      ∃ gs, List.Forall₂ Reordered es gs ∧ gs.Perm fs := by
  constructor
  · intro h
    have hself : List.Forall₂ (fun q f => q = unordered f) (fs.map unordered) fs :=
      List.forall₂_map_left_iff.mpr (List.forall₂_same.mpr fun _ _ => rfl)
    obtain ⟨gs, hgs, hperm⟩ := List.perm_comp_forall₂ h hself
    rw [List.forall₂_map_left_iff] at hgs
    exact ⟨gs, hgs.imp fun _ _ => unordered_eq_iff.mp, hperm⟩
  · rintro ⟨gs, hgs, hperm⟩
    rw [map_unordered_eq_iff.mpr hgs]
    exact hperm.map unordered

/-- The arguments of an operator: those whose order counts, and those whose order does not. -/
def gathered (kind : Op) (args : List Unordered) : List Unordered × Multiset Unordered :=
  if kind.isCommutative then ([], args) else (args, 0)

theorem gathered_eq_iff {kind : Op} {qs rs : List Unordered} :
    gathered kind qs = gathered kind rs ↔ if kind.isCommutative then qs.Perm rs else qs = rs := by
  unfold gathered
  split <;> simp

/-- What a node is when its arguments are taken up to reordering. -/
inductive Shape
  | leaf (e : Expr)
  | op (kind : Op) (args : List Unordered × Multiset Unordered)
  | call (name : String) (args : List Unordered)

/-- The shape of the root of a tree. -/
def shape : Expr → Shape
  | op kind args _ => .op kind (gathered kind (args.map unordered))
  | call name args => .call name (args.map unordered)
  | leaf => .leaf leaf

/-- Reordering does not change the shape of the root. -/
theorem Reordered.shape_eq {a b : Expr} (h : Reordered a b) : a.shape = b.shape := by
  induction h with
  | refl _ => rfl
  | trans _ _ ih₁ ih₂ => exact ih₁.trans ih₂
  | implicit kind args i j => rfl
  | perm hkind h i =>
      refine congrArg (Shape.op _) (gathered_eq_iff.mpr ?_)
      rw [if_pos hkind]
      exact h.map unordered
  | opArg kind before after i h _ =>
      simp only [shape, List.map_append, List.map_cons, unordered_eq_iff.mpr h]
  | callArg name before after h _ =>
      simp only [shape, List.map_append, List.map_cons, unordered_eq_iff.mpr h]

/-- What has the shape of an operator is that operator.  The arguments become the new ones one by
one, up to a permutation of a sum or product. -/
theorem exists_args_of_shape_op {kind : Op} {args : List Expr} {i : Bool} {b : Expr}
    (h : (op kind args i).shape = b.shape) : ∃ args' j, b = op kind args' j ∧
      ∃ args₁, List.Forall₂ Reordered args args₁ ∧
        (args₁ = args' ∨ kind.isCommutative = true ∧ args₁.Perm args') := by
  cases b with
  | op kind' args' j =>
      obtain ⟨rfl, hargs⟩ := Shape.op.inj h
      rw [gathered_eq_iff] at hargs
      refine ⟨args', j, rfl, ?_⟩
      split at hargs
      · next hkind =>
          obtain ⟨args₁, hall, hperm⟩ := perm_map_unordered_iff.mp hargs
          exact ⟨args₁, hall, .inr ⟨hkind, hperm⟩⟩
      · exact ⟨args', map_unordered_eq_iff.mp hargs, .inl rfl⟩
  | _ => cases h

theorem exists_args_of_shape_call {name : String} {args : List Expr} {b : Expr}
    (h : (call name args).shape = b.shape) : ∃ args', b = call name args' ∧
      List.Forall₂ Reordered args args' := by
  cases b with
  | call name' args' =>
      obtain ⟨rfl, hargs⟩ := Shape.call.inj h
      exact ⟨args', rfl, map_unordered_eq_iff.mp hargs⟩
  | _ => cases h

/-- **The shape of the root tells trees apart up to reordering.** -/
theorem shape_eq_iff {a b : Expr} : a.shape = b.shape ↔ Reordered a b := by
  refine ⟨fun h => ?_, Reordered.shape_eq⟩
  cases a with
  | op kind args i =>
      obtain ⟨args', j, rfl, args₁, hall, horder⟩ := exists_args_of_shape_op h
      refine (Reordered.opArgs kind i hall).trans ?_
      rcases horder with rfl | ⟨hkind, hperm⟩
      · exact .implicit kind args₁ i j
      · exact (Reordered.perm hkind hperm i).trans (.implicit kind args' i j)
  | call name args =>
      obtain ⟨args', rfl, hall⟩ := exists_args_of_shape_call h
      exact .callArgs name hall
  | _ =>
      cases b <;> cases h
      exact .refl _

/-! ### Trees that are alike -/

theorem removeFirst?_eq_none {α : Type} {test : α → Bool} {as : List α} :
    removeFirst? test as = none ↔ ∀ a ∈ as, test a = false := by
  induction as with
  | nil => simp [removeFirst?]
  | cons a as ih =>
      rw [removeFirst?]
      split
      · next htest => simp [htest]
      · next htest => simp [htest, ih]

/-- What `removeFirst?` takes out passes the test, and the rest is what was around it. -/
theorem removeFirst?_eq_some {α : Type} {test : α → Bool} :
    ∀ {as rest : List α}, removeFirst? test as = some rest →
      ∃ a, test a = true ∧ as.Perm (a :: rest) := by
  intro as
  induction as with
  | nil => intro rest h; simp [removeFirst?] at h
  | cons a as ih =>
      intro rest h
      rw [removeFirst?] at h
      split at h
      · next htest => cases h; exact ⟨a, htest, .refl _⟩
      · obtain ⟨others, hothers, rfl⟩ := Option.map_eq_some_iff.mp h
        obtain ⟨found, htest, hperm⟩ := ih hothers
        exact ⟨found, htest, (hperm.cons a).trans (.swap _ _ _)⟩

section Pairing

variable {es : List Expr}
  (hes : ∀ e ∈ es, ∀ f, alike e f = true ↔ e.unordered = f.unordered)

include hes

theorem alikeInOrder_iff_map {fs : List Expr} :
    alikeInOrder es fs = true ↔ es.map unordered = fs.map unordered := by
  induction es generalizing fs with
  | nil => cases fs <;> simp [alikeInOrder]
  | cons e es ih =>
      obtain ⟨he, hes⟩ := List.forall_mem_cons.mp hes
      cases fs with
      | nil => simp [alikeInOrder]
      | cons f fs =>
          rw [alikeInOrder, Bool.and_eq_true, he, ih hes, List.map_cons, List.map_cons,
            List.cons.injEq]

/-- The pairing takes equal members out of two multisets. -/
theorem alikeInSomeOrder_iff_perm {fs : List Expr} :
    alikeInSomeOrder es fs = true ↔ (es.map unordered).Perm (fs.map unordered) := by
  induction es generalizing fs with
  | nil => simp [alikeInSomeOrder, List.isEmpty_iff]
  | cons e es ih =>
      obtain ⟨he, hes⟩ := List.forall_mem_cons.mp hes
      rw [alikeInSomeOrder, List.map_cons]
      split
      · next rest hrest =>
          obtain ⟨f, hf, hperm⟩ := removeFirst?_eq_some hrest
          have hfs := hperm.map unordered
          rw [List.map_cons, ← (he f).mp hf] at hfs
          rw [ih hes, hfs.congr_right, List.perm_cons]
      · next hnone =>
          refine iff_of_false Bool.false_ne_true fun h => ?_
          obtain ⟨f, hf, heq⟩ := List.mem_map.mp (h.subset (List.mem_cons_self ..))
          have hlike := (he f).mpr heq.symm
          rw [removeFirst?_eq_none.mp hnone f hf] at hlike
          cases hlike

end Pairing

/-- **To be alike is to be equal up to reordering.** -/
theorem alike_iff_reordered {a b : Expr} : alike a b = true ↔ Reordered a b := by
  rw [← shape_eq_iff]
  induction a using Expr.induction generalizing b with
  | const p => cases b <;> simp [alike, shape]
  | symbol name => cases b <;> simp [alike, shape]
  | member object index => cases b <;> simp [alike, shape]
  | op kind args i ih =>
      have hargs : ∀ arg ∈ args, ∀ f, alike arg f = true ↔ arg.unordered = f.unordered :=
        fun arg harg f => (ih arg harg).trans (shape_eq_iff.trans unordered_eq_iff.symm)
      cases b with
      | op kind' args' j =>
          rw [alike, Bool.and_eq_true, beq_iff_eq, shape, shape, Shape.op.injEq]
          refine and_congr_right ?_
          rintro rfl
          rw [gathered_eq_iff]
          split
          · exact alikeInSomeOrder_iff_perm hargs
          · exact alikeInOrder_iff_map hargs
      | _ => simp [alike, shape]
  | call name args ih =>
      have hargs : ∀ arg ∈ args, ∀ f, alike arg f = true ↔ arg.unordered = f.unordered :=
        fun arg harg f => (ih arg harg).trans (shape_eq_iff.trans unordered_eq_iff.symm)
      cases b with
      | call name' args' =>
          rw [alike, Bool.and_eq_true, beq_iff_eq, shape, shape, Shape.call.injEq,
            alikeInOrder_iff_map hargs]
      | _ => simp [alike, shape]

theorem alike_iff_unordered {a b : Expr} : alike a b = true ↔ a.unordered = b.unordered :=
  alike_iff_reordered.trans unordered_eq_iff.symm

/-- **The pairing is found if there is one.** -/
theorem alikeInSomeOrder_iff {es fs : List Expr} : alikeInSomeOrder es fs = true ↔
    ∃ gs, gs.Perm fs ∧ List.Forall₂ (fun e g => alike e g = true) es gs := by
  rw [alikeInSomeOrder_iff_perm fun _ _ _ => alike_iff_unordered, perm_map_unordered_iff]
  simp only [alike_iff_reordered, and_comm]

/-- **To be alike is an equivalence, and it is equality up to reordering**: one tree is alike to
another exactly if it becomes the other when the arguments of sums and products are permuted and
products are written in another way.  In particular the arguments of two sums or products are found
to be alike whenever they can be paired off. -/
theorem alike_isReordering :
    Equivalence (fun a b : Expr => alike a b = true) ∧
      (∀ a b : Expr, alike a b = true ↔ Reordered a b) ∧
        ∀ es fs : List Expr, alikeInSomeOrder es fs = true ↔
          ∃ gs, gs.Perm fs ∧ List.Forall₂ (fun e g => alike e g = true) es gs := by
  refine ⟨?_, fun a b => alike_iff_reordered, fun es fs => alikeInSomeOrder_iff⟩
  simp only [alike_iff_reordered]
  exact reordering.iseqv

end Expr

end AlgebraTutor
