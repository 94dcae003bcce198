/-
Putting the arguments of a tree in order.

Two functions do that, one for presentation and one for comparing.  They sort by different things,
and the one for comparing forgets how products were written, but the rest is the same for both: the
tree stays as it is but for the order of the arguments of its sums and products, which are sorted
when they are in order themselves.  `Arranges` says so.  From this alone it follows that the tree in
order is a reordering of the tree, so that it has its value and is alike to it, and that a tree in
order stays as it is.

Sorting looks at what is found out once about each argument, and arguments of which the same is found
out keep the order they come in.  So nothing can be said of it in terms of the arguments alone, but
for this: it permutes them, their ranks come out in order, and where the ranks are in order already
it changes nothing.
-/
import AlgebraTutor.Proofs.Regrouping
import AlgebraTutor.Expr.Order

namespace AlgebraTutor

namespace Expr

/-! ### Sorting by rank -/

/-- The function sorts trees by a rank that each of them has. -/
structure SortsBy {β : Type} [LinearOrder β] (sort : List Expr → List Expr) (rank : Expr → β) :
    Prop where
  perm : ∀ es, (sort es).Perm es
  pairwise : ∀ es, (sort es).Pairwise fun a b => rank a ≤ rank b
  /-- What is sorted stays as it is. -/
  eq_self : ∀ es, es.Pairwise (fun a b => rank a ≤ rank b) → sort es = es

/-- Sorting by what is found out about each tree, if that decides which of two goes first. -/
theorem sortsBy_mergeSort {α β : Type} [LinearOrder β] {look : Expr → α} {expr : α → Expr}
    {le : α → α → Bool} {rank : α → β} (hexpr : ∀ e, expr (look e) = e)
    (hle : ∀ a b, le a b = true ↔ rank a ≤ rank b) :
    SortsBy (fun es => ((es.map look).mergeSort le).map expr) fun e => rank (look e) := by
  have hmap (es : List Expr) : (es.map look).map expr = es := by
    rw [List.map_map, List.map_id'']
    exact hexpr
  have hsorted (es : List Expr) :
      ((es.map look).mergeSort le).Pairwise fun a b => le a b = true := by
    refine List.pairwise_mergeSort (fun a b c hab hbc => ?_) (fun a b => ?_) _
    · exact (hle a c).mpr (((hle a b).mp hab).trans ((hle b c).mp hbc))
    · rw [Bool.or_eq_true, hle, hle]
      exact le_total (rank a) (rank b)
  have hlook {es : List Expr} {a : α} (ha : a ∈ (es.map look).mergeSort le) :
      look (expr a) = a := by
    obtain ⟨e, -, rfl⟩ := List.mem_map.mp ((List.mergeSort_perm _ _).mem_iff.mp ha)
    rw [hexpr]
  refine ⟨fun es => ?_, fun es => ?_, fun es hes => ?_⟩
  · have hperm := (List.mergeSort_perm (es.map look) le).map expr
    rwa [hmap] at hperm
  · rw [List.pairwise_map]
    refine (hsorted es).imp_of_mem fun {a b} ha hb hab => ?_
    rw [hlook ha, hlook hb]
    exact (hle a b).mp hab
  · have hranks : (es.map look).Pairwise fun a b => le a b = true :=
      List.pairwise_map.mpr (hes.imp fun {a b} => (hle (look a) (look b)).mpr)
    simp only [List.mergeSort_of_pairwise hranks, hmap]

theorem SortsBy.sort_sort {β : Type} [LinearOrder β] {sort : List Expr → List Expr}
    {rank : Expr → β} (h : SortsBy sort rank) (es : List Expr) : sort (sort es) = sort es :=
  h.eq_self _ (h.pairwise es)

namespace Standing

/-- What orders factors: constants first, then by falling degree, then by key. -/
def factorRank (a : Standing) : Bool ×ₗ ℚᵒᵈ ×ₗ String :=
  toLex (!a.isConstant, toLex (OrderDual.toDual a.degree, a.key))

/-- What orders terms: by falling degree, then constants last, then by key. -/
def termRank (a : Standing) : ℚᵒᵈ ×ₗ Bool ×ₗ String :=
  toLex (OrderDual.toDual a.degree, toLex (a.isConstant, a.key))

theorem byDegree_iff (a b : Standing) (tie : Bool) :
    a.byDegree b tie = true ↔ b.degree < a.degree ∨ a.degree = b.degree ∧ tie = true := by
  unfold byDegree
  rcases lt_trichotomy a.degree b.degree with h | h | h
  · simp [h, h.not_gt, h.ne]
  · simp [h]
  · simp [h]

theorem factorLe_iff (a b : Standing) : a.factorLe b = true ↔ a.factorRank ≤ b.factorRank := by
  unfold factorLe factorRank
  rw [Prod.Lex.toLex_le_toLex, Prod.Lex.toLex_le_toLex]
  cases a.isConstant <;> cases b.isConstant <;> simp [byDegree_iff]

theorem termLe_iff (a b : Standing) : a.termLe b = true ↔ a.termRank ≤ b.termRank := by
  unfold termLe termRank
  rw [Prod.Lex.toLex_le_toLex, Prod.Lex.toLex_le_toLex, byDegree_iff]
  cases a.isConstant <;> cases b.isConstant <;> simp

end Standing

theorem sortsBy_presentedFactors :
    SortsBy (presentedArgs .mul) fun e => (standing e).factorRank :=
  sortsBy_mergeSort (fun _ => rfl) Standing.factorLe_iff

theorem sortsBy_presentedTerms : SortsBy (presentedArgs .add) fun e => (standing e).termRank :=
  sortsBy_mergeSort (fun _ => rfl) Standing.termLe_iff

theorem sortsBy_sortedArgs {kind : Op} (hkind : kind.isCommutative = true) :
    SortsBy (sortedArgs kind) key := by
  have hsort : sortedArgs kind = fun es => ((es.map fun e => (e.key, e)).mergeSort
      fun a b => decide (a.1 ≤ b.1)).map Prod.snd := by
    funext es
    rw [sortedArgs, if_pos hkind]
  have hsorts : SortsBy (sortedArgs kind) fun e => Prod.fst (e.key, e) := by
    rw [hsort]
    exact sortsBy_mergeSort (fun _ => rfl) fun _ _ => decide_eq_true_iff
  exact hsorts

/-! ### Putting a tree in order -/

/-- The function puts the arguments of a tree in order, at each node by `sort`, and marks products by
`mark` as written with a sign or without. -/
structure Arranges (order : Expr → Expr) (sort : Op → List Expr → List Expr)
    (mark : Bool → Bool) : Prop where
  const : ∀ q, order (.const q) = .const q
  symbol : ∀ name, order (.symbol name) = .symbol name
  member : ∀ object index, order (.member object index) = .member object index
  op : ∀ kind args i, order (.op kind args i) = .op kind (sort kind (args.map order)) (mark i)
  call : ∀ name args, order (.call name args) = .call name (args.map order)
  perm : ∀ kind args, (sort kind args).Perm args
  /-- Only sums and products are sorted. -/
  eq_self : ∀ kind args, kind.isCommutative = false → sort kind args = args
  sort_sort : ∀ kind args, sort kind (sort kind args) = sort kind args
  mark_mark : ∀ i, mark (mark i) = mark i

theorem rearrangedAll_eq_map (es : List Expr) : rearrangedAll es = es.map rearranged := by
  induction es with
  | nil => rfl
  | cons e es ih => rw [rearrangedAll, List.map_cons, ih]

theorem canonicalAll_eq_map (es : List Expr) : canonicalAll es = es.map canonical := by
  induction es with
  | nil => rfl
  | cons e es ih => rw [canonicalAll, List.map_cons, ih]

theorem arranges_rearranged : Arranges rearranged presentedArgs id where
  const _ := rfl
  symbol _ := rfl
  member _ _ := rfl
  op kind args i := by
    rw [rearranged, rearrangedAll_eq_map]
    rfl
  call name args := by rw [rearranged, rearrangedAll_eq_map]
  perm kind args := by
    cases kind with
    | add => exact sortsBy_presentedTerms.perm args
    | mul => exact sortsBy_presentedFactors.perm args
    | _ => exact .refl _
  eq_self kind args hkind := by cases kind <;> first | rfl | cases hkind
  sort_sort kind args := by
    cases kind with
    | add => exact sortsBy_presentedTerms.sort_sort args
    | mul => exact sortsBy_presentedFactors.sort_sort args
    | _ => rfl
  mark_mark _ := rfl

theorem arranges_canonical : Arranges canonical sortedArgs fun _ => false where
  const _ := rfl
  symbol _ := rfl
  member _ _ := rfl
  op kind args i := by rw [canonical, canonicalAll_eq_map]
  call name args := by rw [canonical, canonicalAll_eq_map]
  perm kind args := by
    cases kind with
    | add => exact (sortsBy_sortedArgs rfl).perm args
    | mul => exact (sortsBy_sortedArgs rfl).perm args
    | _ => exact .refl _
  eq_self kind args hkind := by rw [sortedArgs, if_neg (by simp [hkind])]
  sort_sort kind args := by
    cases kind with
    | add => exact (sortsBy_sortedArgs rfl).sort_sort args
    | mul => exact (sortsBy_sortedArgs rfl).sort_sort args
    | _ => rfl
  mark_mark _ := rfl

namespace Arranges

variable {order : Expr → Expr} {sort : Op → List Expr → List Expr} {mark : Bool → Bool}
  (h : Arranges order sort mark)

include h

/-- **The tree in order is a reordering of the tree.** -/
theorem reordered (e : Expr) : Reordered (order e) e := by
  have hargs {args : List Expr} (ih : ∀ arg ∈ args, Reordered (order arg) arg) :
      List.Forall₂ Reordered (args.map order) args :=
    List.forall₂_map_left_iff.mpr (List.forall₂_same.mpr ih)
  induction e using Expr.induction with
  | const q => rw [h.const]; exact .refl _
  | symbol name => rw [h.symbol]; exact .refl _
  | member object index => rw [h.member]; exact .refl _
  | op kind args i ih =>
      rw [h.op]
      refine .trans (.implicit kind _ _ i) (.trans ?_ (.opArgs kind i (hargs ih)))
      cases hkind : kind.isCommutative with
      | true => exact .perm hkind (h.perm kind _) i
      | false => rw [h.eq_self kind _ hkind]; exact .refl _
  | call name args ih =>
      rw [h.call]
      exact .callArgs name (hargs ih)

/-- **What is in order stays as it is.** -/
theorem order_order (e : Expr) : order (order e) = order e := by
  have hmap {args : List Expr} (hargs : ∀ arg ∈ args, order arg = arg) : args.map order = args :=
    (List.map_congr_left hargs).trans (List.map_id _)
  induction e using Expr.induction with
  | const q => rw [h.const, h.const]
  | symbol name => rw [h.symbol, h.symbol]
  | member object index => rw [h.member, h.member]
  | op kind args i ih =>
      have hargs : ∀ arg ∈ sort kind (args.map order), order arg = arg := by
        intro arg harg
        obtain ⟨other, hother, rfl⟩ := List.mem_map.mp ((h.perm kind _).mem_iff.mp harg)
        exact ih other hother
      rw [h.op, h.op, hmap hargs, h.sort_sort, h.mark_mark]
  | call name args ih => rw [h.call, h.call, hmap (List.forall_mem_map.mpr ih)]

end Arranges

/-- **Putting arguments in order twice is doing it once.** -/
theorem rearranged_rearranged (e : Expr) : e.rearranged.rearranged = e.rearranged :=
  arranges_rearranged.order_order e

theorem canonical_canonical (e : Expr) : e.canonical.canonical = e.canonical :=
  arranges_canonical.order_order e

variable {ρ : Valuation}

/-- **A tree keeps its value when its arguments are put in order.** -/
theorem value_rearranged (e : Expr) : e.rearranged.value ρ = e.value ρ :=
  (arranges_rearranged.reordered e).regrouped.value_eq

theorem value_canonical (e : Expr) : e.canonical.value ρ = e.value ρ :=
  (arranges_canonical.reordered e).regrouped.value_eq

end Expr

end AlgebraTutor
