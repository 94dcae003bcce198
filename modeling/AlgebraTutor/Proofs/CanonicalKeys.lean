/-
Canonical forms that are alike have one key.

The arguments of a sum or product are sorted by key, and the sort is stable, so that arguments with
one key stay in the order they come in, whatever trees they are.  That does no harm, because trees
with one key look the same wherever they are printed: the key of a node is made of the places of its
arguments, in the order of their keys.  So trees that are alike, whose arguments are the same up to
order, get equal keys.  Sorting twice is sorting once, hence the key of a canonical form is that of
the form itself.

Little of this is about sorting by key.  `KeepsPlaces` is what is asked of the order at a node, and
it is enough for it that the rank which is sorted by tells the key.
-/
import AlgebraTutor.Proofs.KeyPlaces
import AlgebraTutor.Proofs.CanonicalForms

namespace AlgebraTutor

open Token

namespace Expr

/-! ### The key of a node -/

section Congruence

variable {es fs : List Expr}

theorem map_render_eq (h : List.Forall₂ SamePlace es fs) :
    es.map (render .compact) = fs.map (render .compact) := by
  induction h with
  | nil => rfl
  | cons hhead _ ih => rw [List.map_cons, List.map_cons, hhead.text, ih]

theorem laterTerms_samePlace (h : List.Forall₂ SamePlace es fs) :
    laterTerms .compact es = laterTerms .compact fs := by
  have hcons (term : Expr) (rest : List Expr) :
      laterTerms .compact (term :: rest) =
        laterTerms .compact [term] ++ laterTerms .compact rest := by
    rw [laterTerms_cons, laterTerms_cons, laterTerms.eq_1, List.append_nil]
  induction h with
  | nil => rfl
  | @cons e f es fs hhead _ ih => rw [hcons e es, hcons f fs, hhead.laterTerm, ih]

theorem laterFactors_samePlace (h : List.Forall₂ SamePlace es fs) {i j isSecond : Bool}
    {previous previous' : Expr} (hprevious : previous.isCoefficient = previous'.isCoefficient) :
    laterFactors .compact i isSecond previous (renderAll .compact es) =
      laterFactors .compact j isSecond previous' (renderAll .compact fs) := by
  induction h generalizing isSecond previous previous' with
  | nil => rw [renderAll, laterFactors, laterFactors]
  | @cons e f es fs hhead _ ih =>
      have hwrapped : factorIsWrapped false e = factorIsWrapped false f := by
        rw [factorIsWrapped, factorIsWrapped, hhead.tightness, hhead.startsNegative]
      rw [laterFactors_cons, laterFactors_cons, juxtaposes_compact, juxtaposes_compact, hprevious,
        hhead.opens, hwrapped, hhead.text, ih hhead.isCoefficient]

/-- Operands that are wrapped if they bind too loosely, each with something in front. -/
theorem flatMap_wrap_samePlace (h : List.Forall₂ SamePlace es fs) (front : List Char) (n : Nat) :
    ((renderAll .compact es).flatMap fun (operand, text) =>
        front ++ wrap (operand.tightness ≤ n) text) =
      (renderAll .compact fs).flatMap fun (operand, text) =>
        front ++ wrap (operand.tightness ≤ n) text := by
  induction h with
  | nil => rfl
  | cons hhead _ ih =>
      rw [renderAll, renderAll, List.flatMap_cons, List.flatMap_cons, ih]
      simp only [hhead.tightness, hhead.text]

theorem chainText_samePlace (h : List.Forall₂ SamePlace es fs) (sign : Char) (n m : Nat) :
    chainText sign n m (renderAll .compact es) = chainText sign n m (renderAll .compact fs) := by
  cases h with
  | nil => rfl
  | cons hhead hrest =>
      rw [renderAll, renderAll, chainText, chainText, hhead.tightness, hhead.text]
      exact congrArg _ (flatMap_wrap_samePlace hrest [sign] m)

/-- **The key of an operator is made of the places of its arguments.** -/
theorem render_op_samePlace (h : List.Forall₂ SamePlace es fs) (kind : Op) (i j : Bool) :
    render .compact (op kind es i) = render .compact (op kind fs j) := by
  cases kind with
  | add =>
      cases h with
      | nil => rw [render, render]
      | cons hhead hrest => rw [render, render, hhead.text, laterTerms_samePlace hrest]
  | mul =>
      cases h with
      | nil => rw [render, render, renderAll, productText, productText]
      | cons hhead hrest =>
          rw [render_mul_cons, render_mul_cons, hhead.tightness, hhead.text,
            laterFactors_samePlace hrest hhead.isCoefficient]
  | div => rw [render, render, chainText_samePlace h]
  | pow => rw [render, render, chainText_samePlace h]
  | neg =>
      rw [render, render]
      exact congrArg _ (flatMap_wrap_samePlace h [] 3)

end Congruence

/-! ### Regular trees -/

namespace Regular

/-- Sums and products of at least two regular arguments are regular. -/
theorem of_args {kind : Op} {args : List Expr} {i : Bool} (hkind : kind.isCommutative = true)
    (hlength : 2 ≤ args.length) (hargs : ∀ arg ∈ args, Regular arg) : Regular (op kind args i) := by
  obtain ⟨first, second, rest, rfl⟩ : ∃ first second rest, args = first :: second :: rest := by
    cases args with
    | nil => simp at hlength
    | cons first args =>
        cases args with
        | nil => simp at hlength
        | cons second rest => exact ⟨first, second, rest, rfl⟩
  cases kind with
  | add => exact .sum hargs
  | mul => exact .product hargs
  | _ => cases hkind

theorem args {kind : Op} {args : List Expr} {i : Bool} (h : Regular (op kind args i)) :
    ∀ arg ∈ args, Regular arg := by
  cases h with
  | sum hargs => exact hargs
  | product hargs => exact hargs
  | quotient ha hb => simp [ha, hb]
  | power ha hb => simp [ha, hb]
  | negation _ ha => simp [ha]

end Regular

theorem regular_merged {kind : Op} (hkind : kind.isCommutative = true) {args : List Expr}
    (hargs : ∀ arg ∈ args, Regular arg) (i : Bool) : Regular (merged kind args i) := by
  have hflat : ∀ e ∈ args.flatMap (spread kind), Regular e := by
    intro e he
    obtain ⟨arg, harg, he⟩ := List.mem_flatMap.mp he
    have harg := hargs arg harg
    unfold spread at he
    split at he
    · split at he
      · exact harg.args e he
      · rwa [List.mem_singleton.mp he]
    · rwa [List.mem_singleton.mp he]
  unfold merged
  split
  · exact .const _
  · next only heq => exact hflat only (by rw [heq]; exact List.mem_singleton.mpr rfl)
  · next hnil hone =>
      refine .of_args hkind ?_ hflat
      rcases hlist : args.flatMap (spread kind) with _ | ⟨first, _ | ⟨second, rest⟩⟩
      · exact absurd hlist hnil
      · exact absurd hlist (hone first)
      · exact Nat.le_add_left 2 rest.length

theorem regular_signed {a : Expr} (ha : Regular a) (i : Bool) : Regular (signed [a] i) := by
  unfold signed
  split
  · exact .const _
  · next value factors j heq =>
      cases heq
      cases ha with
      | product hargs =>
          exact .product (List.forall_mem_cons.mpr
            ⟨.const _, (List.forall_mem_cons.mp hargs).2⟩)
  · next value divisors j heq =>
      cases heq
      cases ha with
      | quotient _ hb => exact .quotient (.const _) hb
  · next operand hconst _ _ heq =>
      cases heq
      refine .negation ?_ ha
      cases a with
      | const q => exact absurd rfl (hconst q)
      | _ => rfl
  · next _ _ _ hother => exact absurd rfl (hother a)

/-- **The normal form of a well-formed tree is regular.** -/
theorem regular_normalize {e : Expr} (h : e.isWellFormed = true) : Regular e.normalize := by
  induction e, h using wellFormed_induction with
  | const q => exact .const q
  | symbol name hwell => exact .symbol hwell
  | member object index hwell =>
      obtain ⟨hobject, hindex⟩ := Bool.and_eq_true_iff.mp hwell
      exact .member hobject hindex
  | call name args hwell _ ih =>
      have hname := (isWellFormed_call.mp hwell).1
      have hregular : ∀ arg ∈ args.map normalize, Regular arg := List.forall_mem_map.mpr ih
      rw [normalize, normalizeAll_eq_map]
      unfold normalCall
      split
      · next arg heq =>
          rw [heq] at hregular
          have harg := hregular arg (List.mem_singleton.mpr rfl)
          split_ifs
          · exact .call (by decide) (by simp [harg, Regular.const])
          · exact .call (by decide) (by simp [harg, Regular.const])
          · exact .call (by decide) (by simpa [harg] using .member (by decide) (by decide))
          · exact .call hname hregular
      · exact .call hname hregular
  | add first rest i _ _ _ ih =>
      rw [normalize, normalizeAll_eq_map]
      exact regular_merged rfl (List.forall_mem_map.mpr ih) i
  | mul first rest i _ _ ih =>
      rw [normalize, normalizeAll_eq_map]
      exact regular_merged rfl (List.forall_mem_map.mpr ih) i
  | div a b i _ _ _ iha ihb => exact .quotient iha ihb
  | pow a b i _ _ _ iha ihb => exact .power iha ihb
  | neg a i _ _ ih => exact regular_signed ih i

/-! ### Trees in order -/

namespace Arranges

variable {order : Expr → Expr} {sort : Op → List Expr → List Expr} {mark : Bool → Bool}

theorem isConstant_order (h : Arranges order sort mark) (e : Expr) :
    (order e).isConstant = e.isConstant := by
  cases e with
  | const q => rw [h.const]
  | symbol name => rw [h.symbol]
  | member object index => rw [h.member]
  | op kind args i => rw [h.op]; rfl
  | call name args => rw [h.call]; rfl

/-- Putting arguments in order leaves regular trees regular. -/
theorem regular (h : Arranges order sort mark) {e : Expr} (he : Regular e) : Regular (order e) := by
  have hnary {kind : Op} {args : List Expr} (hkind : kind.isCommutative = true)
      (hlength : 2 ≤ args.length) (hargs : ∀ arg ∈ args, Regular (order arg)) {i : Bool} :
      Regular (order (.op kind args i)) := by
    have hperm := h.perm kind (args.map order)
    rw [h.op]
    refine .of_args hkind (by rwa [hperm.length_eq, List.length_map]) fun arg harg => ?_
    exact List.forall_mem_map.mpr hargs arg (hperm.mem_iff.mp harg)
  induction he with
  | const q => rw [h.const]; exact .const q
  | symbol hname => rw [h.symbol]; exact .symbol hname
  | member hobject hindex => rw [h.member]; exact .member hobject hindex
  | sum _ ih => exact hnary rfl (Nat.le_add_left 2 _) ih
  | product _ ih => exact hnary rfl (Nat.le_add_left 2 _) ih
  | quotient _ _ iha ihb => rw [h.op, h.eq_self _ _ rfl]; exact .quotient iha ihb
  | power _ _ iha ihb => rw [h.op, h.eq_self _ _ rfl]; exact .power iha ihb
  | negation hconst _ ih =>
      rw [h.op, h.eq_self _ _ rfl]
      exact .negation ((h.isConstant_order _).trans hconst) ih
  | call hname _ ih =>
      rw [h.call]
      exact .call hname (List.forall_mem_map.mpr ih)

end Arranges

theorem forall₂_samePlace {es fs : List Expr} (hes : ∀ e ∈ es, Regular e)
    (hfs : ∀ f ∈ fs, Regular f) (h : List.Forall₂ (fun e f => e.key = f.key) es fs) :
    List.Forall₂ SamePlace es fs := by
  refine List.forall₂_iff_zip.mpr ⟨h.length_eq, fun {a b} hab => ?_⟩
  obtain ⟨ha, hb⟩ := List.of_mem_zip hab
  exact samePlace_of_key_eq (hes a ha) (hfs b hb) (List.forall₂_zip h hab)

/-- Arguments that can be paired off with reorderings of the same key have the same places when they
are sorted. -/
def KeepsPlaces (sort : List Expr → List Expr) : Prop :=
  ∀ ⦃es gs fs : List Expr⦄, (∀ e ∈ es, Regular e) → (∀ f ∈ fs, Regular f) →
    List.Forall₂ (fun e g => Reordered e g ∧ e.key = g.key) es gs → gs.Perm fs →
      List.Forall₂ SamePlace (sort es) (sort fs)

/-- It is enough that the rank depends on the key and on the tree up to reordering, and tells the
key.  Then the ranks come out the same one by one, though the trees need not. -/
theorem SortsBy.keepsPlaces {β : Type} [LinearOrder β] {sort : List Expr → List Expr}
    {rank : Expr → β} (h : SortsBy sort rank)
    (hrank : ∀ ⦃e g : Expr⦄, Reordered e g → e.key = g.key → rank e = rank g)
    (hkey : ∀ ⦃e g : Expr⦄, rank e = rank g → e.key = g.key) : KeepsPlaces sort := by
  intro es gs fs hes hfs hall hperm
  have hpaired : es.map rank = gs.map rank := by
    rw [← List.forall₂_eq_eq_eq, List.forall₂_map_left_iff, List.forall₂_map_right_iff]
    exact hall.imp fun _ _ h => hrank h.1 h.2
  have hsorted : (sort es).map rank = (sort fs).map rank := by
    have hranks := ((h.perm es).map rank).trans
      ((List.Perm.of_eq hpaired).trans ((hperm.map rank).trans ((h.perm fs).map rank).symm))
    exact hranks.eq_of_pairwise (fun _ _ _ _ => le_antisymm)
      (List.pairwise_map.mpr (h.pairwise es)) (List.pairwise_map.mpr (h.pairwise fs))
  rw [← List.forall₂_eq_eq_eq, List.forall₂_map_left_iff, List.forall₂_map_right_iff] at hsorted
  exact forall₂_samePlace (fun e he => hes e ((h.perm es).mem_iff.mp he))
    (fun f hf => hfs f ((h.perm fs).mem_iff.mp hf)) (hsorted.imp fun _ _ h => hkey h)

/-- **Trees that are equal up to reordering have one key when they are in order.** -/
theorem Arranges.key_eq {order : Expr → Expr} {sort : Op → List Expr → List Expr}
    {mark : Bool → Bool} (h : Arranges order sort mark)
    (hsort : ∀ kind : Op, kind.isCommutative = true → KeepsPlaces (sort kind)) {a b : Expr}
    (ha : Regular a) (hb : Regular b) (hab : Reordered a b) : (order a).key = (order b).key := by
  induction a using Expr.induction generalizing b with
  | op kind args i ih =>
      obtain ⟨args', j, rfl, args₁, hall, horder⟩ := exists_args_of_shape_op hab.shape_eq
      have hperm : args₁.Perm args' := horder.elim (fun h => h ▸ .refl _) (·.2)
      have hpaired : List.Forall₂ (fun e g => Reordered e g ∧ e.key = g.key) (args.map order)
          (args₁.map order) := by
        rw [List.forall₂_map_left_iff, List.forall₂_map_right_iff]
        refine List.forall₂_iff_zip.mpr ⟨hall.length_eq, fun {e g} heg => ?_⟩
        obtain ⟨he, hg⟩ := List.of_mem_zip heg
        have hreordered := List.forall₂_zip hall heg
        refine ⟨(h.reordered e).trans (hreordered.trans (h.reordered g).symm), ?_⟩
        exact ih e he (ha.args e he) (hb.args g (hperm.mem_iff.mp hg)) hreordered
      have hes := List.forall_mem_map.mpr fun arg harg => h.regular (ha.args arg harg)
      have hfs := List.forall_mem_map.mpr fun arg harg => h.regular (hb.args arg harg)
      rw [h.op, h.op]
      refine congrArg String.ofList (render_op_samePlace ?_ kind _ _)
      cases hkind : kind.isCommutative with
      | true => exact hsort kind hkind hes hfs hpaired (hperm.map order)
      | false =>
          obtain rfl : args₁ = args' := horder.resolve_right fun h => by simp [hkind] at h
          rw [h.eq_self _ _ hkind, h.eq_self _ _ hkind]
          exact forall₂_samePlace hes hfs (hpaired.imp fun _ _ h => h.2)
  | call name args ih =>
      obtain ⟨args', rfl, hall⟩ := exists_args_of_shape_call hab.shape_eq
      cases ha with
      | call _ ha =>
          cases hb with
          | call _ hb =>
              have hes := List.forall_mem_map.mpr fun arg harg => h.regular (ha arg harg)
              have hfs := List.forall_mem_map.mpr fun arg harg => h.regular (hb arg harg)
              have hkeys : List.Forall₂ (fun e f => e.key = f.key) (args.map order)
                  (args'.map order) := by
                rw [List.forall₂_map_left_iff, List.forall₂_map_right_iff]
                refine List.forall₂_iff_zip.mpr ⟨hall.length_eq, fun {e f} hef => ?_⟩
                obtain ⟨he, hf⟩ := List.of_mem_zip hef
                exact ih e he (ha e he) (hb f hf) (List.forall₂_zip hall hef)
              have hplaces := forall₂_samePlace hes hfs hkeys
              refine congrArg String.ofList ?_
              rw [h.call, h.call, render_call, render_call, map_render_eq hplaces]
  | _ =>
      have hshape := hab.shape_eq
      cases b <;> cases hshape
      rfl

/-- **The canonical orders of trees that are alike have one key.** -/
theorem key_canonical_of_alike {a b : Expr} (ha : Regular a) (hb : Regular b)
    (h : alike a b = true) : a.canonical.key = b.canonical.key := by
  refine arranges_canonical.key_eq (fun kind hkind => ?_) ha hb (alike_iff_reordered.mp h)
  exact (sortsBy_sortedArgs hkind).keepsPlaces (fun _ _ _ h => h) fun _ _ h => h

/-! ### Canonical forms -/

theorem regular_canonicalize {e : Expr} (h : e.IsPlain) : Regular e.canonicalize :=
  arranges_canonical.regular (regular_normalize
    (isPlain_hoistQuotients (isPlain_normalize h)).wellFormed)

/-- The canonical form of a text is regular and in canonical order. -/
theorem regular_canonicalForm? {text : String} {form : Expr} (h : canonicalForm? text = some form) :
    Regular form ∧ form.canonical = form := by
  obtain ⟨e, he⟩ := exists_canonicalForm?_iff.mp ⟨form, h⟩
  obtain ⟨x, hx, hform, -⟩ := canonicalForm?_of_parse he
  obtain rfl : x.canonicalize = form := Option.some.inj (hform.symm.trans h)
  exact ⟨regular_canonicalize hx, canonical_canonical _⟩

/-- **Canonical forms that are alike have one key.** -/
theorem key_eq_of_alike_forms {a b : String} {f g : Expr} (hf : canonicalForm? a = some f)
    (hg : canonicalForm? b = some g) (h : alike f g = true) : f.key = g.key := by
  obtain ⟨hregularF, hcanonicalF⟩ := regular_canonicalForm? hf
  obtain ⟨hregularG, hcanonicalG⟩ := regular_canonicalForm? hg
  have hkeys := key_canonical_of_alike hregularF hregularG h
  rwa [hcanonicalF, hcanonicalG] at hkeys

end Expr

end AlgebraTutor
