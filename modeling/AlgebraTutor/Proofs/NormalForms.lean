/-
Normal forms.

A run brings its tree into normal form first, and its trees are in normal form already: they were
read as such, or put together by a reduction.  So the second time must not change anything.  That is
not plain from the definition, since merging the nested sums and products of a node, and moving a
minus sign into its first constant, make new nodes of the arguments.  `IsNormal` says what those
look like: normalizing leads to such a tree, and leaves such a tree alone.

That the second time changes nothing would also be true of a function that never changes anything.
What is gained by normalizing is said node by node in `NormalNode`: there is nothing left to merge,
no sign in front of a constant it could go into, and no function with a second name.
-/
import AlgebraTutor.Proofs.Value

namespace AlgebraTutor

namespace Expr

/-! ### Trees in normal form -/

/-- The node is one of this operator. -/
def isOp (kind : Op) : Expr → Bool
  | op kind' _ _ => kind' = kind
  | _ => false

theorem spread_of_not {kind : Op} {e : Expr} (h : isOp kind e = false) : spread kind e = [e] := by
  cases e <;> simp_all [isOp, spread]

theorem keepsImplicit_of_not {kind : Op} {e : Expr} (h : isOp kind e = false) :
    keepsImplicit kind e = true := by
  cases e <;> simp_all [isOp, keepsImplicit]

/-- The tree is in normal form. -/
inductive IsNormal : Expr → Prop
  | const (q : Rat) : IsNormal (const q)
  | symbol (name : String) : IsNormal (symbol name)
  | member (object index : String) : IsNormal (member object index)
  /-- A sum or product has no argument of its own kind. -/
  | chain {kind : Op} {args : List Expr} {i : Bool} (hkind : kind.isCommutative = true)
      (hlength : 2 ≤ args.length) (hargs : ∀ arg ∈ args, IsNormal arg)
      (hflat : ∀ arg ∈ args, isOp kind arg = false) : IsNormal (op kind args i)
  | op {kind : Op} {args : List Expr} {i : Bool} (hkind : kind.isCommutative = false)
      (hargs : ∀ arg ∈ args, IsNormal arg) (hop : normalOp kind args i = op kind args i) :
      IsNormal (op kind args i)
  | call {name : String} {args : List Expr} (hargs : ∀ arg ∈ args, IsNormal arg)
      (hcall : normalCall name args = call name args) : IsNormal (call name args)

theorem merged_of_flat {kind : Op} {args : List Expr} (hlength : 2 ≤ args.length)
    (hflat : ∀ arg ∈ args, isOp kind arg = false) (i : Bool) :
    merged kind args i = op kind args i := by
  have hspread : args.flatMap (spread kind) = args := by
    have heach : ∀ arg ∈ args, spread kind arg = [arg] := fun arg harg =>
      spread_of_not (hflat arg harg)
    rw [List.flatMap_congr heach, List.flatMap_singleton']
  have himplicit : args.all (keepsImplicit kind) = true :=
    List.all_eq_true.mpr fun arg harg => keepsImplicit_of_not (hflat arg harg)
  unfold merged
  rw [hspread, himplicit, Bool.and_true]
  match args, hlength with
  | _ :: _ :: _, _ => rfl

/-- **A tree in normal form stays as it is.** -/
theorem IsNormal.normalize_eq {e : Expr} (h : e.IsNormal) : e.normalize = e := by
  have hmap {args : List Expr} (hargs : ∀ arg ∈ args, arg.normalize = arg) :
      args.map normalize = args := (List.map_congr_left hargs).trans (List.map_id _)
  induction h with
  | const q => rfl
  | symbol name => rfl
  | member object index => rfl
  | @chain kind args i hkind hlength _ hflat ih =>
      rw [normalize, normalizeAll_eq_map, hmap ih]
      cases kind <;> simp [Op.isCommutative] at hkind <;> exact merged_of_flat hlength hflat i
  | op _ _ hop ih => rw [normalize, normalizeAll_eq_map, hmap ih, hop]
  | call _ hcall ih => rw [normalize, normalizeAll_eq_map, hmap ih, hcall]

/-- What a sum or product in normal form looks like. -/
theorem chain_of_isNormal {kind : Op} {args : List Expr} {i : Bool} (h : IsNormal (op kind args i))
    (hkind : kind.isCommutative = true) : 2 ≤ args.length ∧ (∀ arg ∈ args, IsNormal arg) ∧
      ∀ arg ∈ args, isOp kind arg = false := by
  cases h with
  | chain _ hlength hargs hflat => exact ⟨hlength, hargs, hflat⟩
  | op hnot _ _ => exact absurd hkind (by simp [hnot])

/-- What normal arguments contribute to a sum or product around them is normal, and of another
kind. -/
theorem isNormal_of_mem_spread {kind : Op} (hkind : kind.isCommutative = true) {args : List Expr}
    (hargs : ∀ arg ∈ args, IsNormal arg) {e : Expr} (he : e ∈ args.flatMap (spread kind)) :
    IsNormal e ∧ isOp kind e = false := by
  obtain ⟨arg, harg, he⟩ := List.mem_flatMap.mp he
  cases hop : isOp kind arg with
  | false =>
      rw [spread_of_not hop] at he
      obtain rfl := List.mem_singleton.mp he
      exact ⟨hargs e harg, hop⟩
  | true =>
      cases arg with
      | op kind' args' i =>
          obtain rfl : kind' = kind := of_decide_eq_true hop
          obtain ⟨-, hnormal, hflat⟩ := chain_of_isNormal (hargs _ harg) hkind
          rw [spread, if_pos rfl] at he
          exact ⟨hnormal e he, hflat e he⟩
      | _ => cases hop

theorem isNormal_merged {kind : Op} (hkind : kind.isCommutative = true) {args : List Expr}
    (hargs : ∀ arg ∈ args, IsNormal arg) (i : Bool) : IsNormal (merged kind args i) := by
  have hflat := fun e => isNormal_of_mem_spread hkind hargs (e := e)
  unfold merged
  split
  · exact .const _
  · next only honly => exact (hflat only (by rw [honly]; exact List.mem_singleton_self only)).1
  · next hnil hone =>
      refine .chain hkind ?_ (fun e he => (hflat e he).1) fun e he => (hflat e he).2
      match hargs' : args.flatMap (spread kind) with
      | [] => exact absurd hargs' hnil
      | [only] => exact absurd hargs' (hone only)
      | _ :: _ :: _ => exact Nat.le_add_left 2 _

theorem isNormal_signed {args : List Expr} (hargs : ∀ arg ∈ args, IsNormal arg) (i : Bool) :
    IsNormal (signed args i) := by
  fun_cases signed args i with
  | case1 => exact .const _
  | case2 value factors j =>
      obtain ⟨hlength, hnormal, hflat⟩ := chain_of_isNormal (List.forall_mem_singleton.mp hargs) rfl
      rw [List.forall_mem_cons] at hnormal hflat
      exact .chain rfl hlength (List.forall_mem_cons.mpr ⟨.const _, hnormal.2⟩)
        (List.forall_mem_cons.mpr ⟨rfl, hflat.2⟩)
  | case3 value divisors j =>
      cases List.forall_mem_singleton.mp hargs with
      | chain hkind => cases hkind
      | op _ hnormal _ =>
          rw [List.forall_mem_cons] at hnormal
          exact .op rfl (List.forall_mem_cons.mpr ⟨.const _, hnormal.2⟩) rfl
  | case4 operand hconst hmul hdiv =>
      exact .op rfl hargs (signed.eq_4 false operand hconst hmul hdiv)
  | case5 =>
      rename_i hconst hmul hdiv hone
      exact .op rfl hargs (signed.eq_5 args i hconst hmul hdiv hone)

theorem isNormal_normalCall (name : String) {args : List Expr}
    (hargs : ∀ arg ∈ args, IsNormal arg) : IsNormal (normalCall name args) := by
  have hpair {x y : Expr} (hx : IsNormal x) (hy : IsNormal y) : ∀ arg ∈ [x, y], IsNormal arg :=
    List.forall_mem_cons.mpr ⟨hx, List.forall_mem_singleton.mpr hy⟩
  fun_cases normalCall name args with
  | case1 arg _ => exact .call (hpair (List.forall_mem_singleton.mp hargs) (.const 2)) rfl
  | case2 arg _ _ => exact .call (hpair (.const 10) (List.forall_mem_singleton.mp hargs)) rfl
  | case3 arg _ _ _ =>
      exact .call (hpair (.member _ _) (List.forall_mem_singleton.mp hargs)) rfl
  | case4 arg hroot hten hnatural =>
      refine .call hargs ?_
      rw [normalCall, if_neg hroot, if_neg hten, if_neg hnatural]
  | case5 =>
      rename_i hone
      exact .call hargs (normalCall.eq_2 name args hone)

/-- **Normalizing leads to a normal form.** -/
theorem isNormal_normalize (e : Expr) : e.normalize.IsNormal := by
  induction e using Expr.induction with
  | const q => exact .const q
  | symbol name => exact .symbol name
  | member object index => exact .member object index
  | op kind args i ih =>
      have hargs : ∀ arg ∈ args.map normalize, IsNormal arg := List.forall_mem_map.mpr ih
      rw [normalize, normalizeAll_eq_map]
      cases kind with
      | add => exact isNormal_merged rfl hargs i
      | mul => exact isNormal_merged rfl hargs i
      | neg => exact isNormal_signed hargs i
      | div => exact .op rfl hargs rfl
      | pow => exact .op rfl hargs rfl
  | call name args ih =>
      rw [normalize, normalizeAll_eq_map]
      exact isNormal_normalCall name (List.forall_mem_map.mpr ih)

/-- **Normalizing twice is normalizing once.** -/
theorem normalize_normalize (e : Expr) : e.normalize.normalize = e.normalize :=
  (isNormal_normalize e).normalize_eq

/-! ### The nodes of a normal form -/

/-- What a normal form looks like at each of its nodes. -/
structure NormalNode (node : Expr) : Prop where
  /-- A sum or product has at least two arguments, and none of its own kind. -/
  chain : ∀ kind args i, node = op kind args i → kind.isCommutative = true →
    2 ≤ args.length ∧ ∀ arg ∈ args, isOp kind arg = false
  /-- A minus sign stands in front of no constant, and of no product or quotient that begins with
  one. -/
  sign : ∀ operand i, node = op .neg [operand] i → operand.isConstant = false ∧
    ∀ kind first rest j, kind = .mul ∨ kind = .div → operand = op kind (first :: rest) j →
      first.isConstant = false
  /-- Of the names of a function only one is in use. -/
  name : ∀ name arg, node = call name [arg] →
    name ∉ ["sqrt", "nthRoot", "log10", "log", "logE", "ln"]

theorem IsNormal.args {e : Expr} (h : e.IsNormal) : ∀ arg ∈ e.args, IsNormal arg := by
  cases h with
  | chain _ _ hargs _ => exact hargs
  | op _ hargs _ => exact hargs
  | call hargs _ => exact hargs
  | _ => nofun

/-- Every node of a tree in normal form is in normal form. -/
theorem IsNormal.get? {e node : Expr} {path : Path} (h : e.IsNormal)
    (hnode : e.get? path = some node) : node.IsNormal := by
  induction path generalizing e with
  | nil =>
      cases hnode
      exact h
  | cons i path ih =>
      rw [Expr.get?] at hnode
      split at hnode
      · next arg harg => exact ih (h.args arg (List.mem_of_getElem? harg)) hnode
      · cases hnode

theorem signed_ne_of_isConstant {operand : Expr} (h : operand.isConstant = true) (i : Bool) :
    signed [operand] i ≠ op .neg [operand] i := by
  cases operand with
  | const q => nofun
  | _ => cases h

theorem signed_ne_of_first {kind : Op} (hkind : kind = .mul ∨ kind = .div) {first : Expr}
    (h : first.isConstant = true) (rest : List Expr) (i j : Bool) :
    signed [op kind (first :: rest) j] i ≠ op .neg [op kind (first :: rest) j] i := by
  cases first with
  | const q => rcases hkind with rfl | rfl <;> nofun
  | _ => cases h

theorem normalCall_ne_of_mem {name : String}
    (h : name ∈ ["sqrt", "nthRoot", "log10", "log", "logE", "ln"]) (arg : Expr) :
    normalCall name [arg] ≠ call name [arg] := by
  simp only [List.mem_cons, List.not_mem_nil, or_false] at h
  rcases h with rfl | rfl | rfl | rfl | rfl | rfl <;> simp [normalCall]

theorem IsNormal.normalNode {node : Expr} (h : node.IsNormal) : node.NormalNode where
  chain kind args i hnode hkind := by
    subst hnode
    obtain ⟨hlength, -, hflat⟩ := chain_of_isNormal h hkind
    exact ⟨hlength, hflat⟩
  sign operand i hnode := by
    subst hnode
    cases h with
    | chain hkind => cases hkind
    | op _ _ hop =>
        refine ⟨?_, ?_⟩
        · rw [← Bool.not_eq_true]
          exact fun hconstant => signed_ne_of_isConstant hconstant i hop
        · rintro kind first rest j hkind rfl
          rw [← Bool.not_eq_true]
          exact fun hfirst => signed_ne_of_first hkind hfirst rest i j hop
  name name arg hnode := by
    subst hnode
    cases h with
    | call _ hcall =>
        exact fun hname => normalCall_ne_of_mem hname arg hcall

/-- **Normalizing computes a normal form.**  Doing it twice is doing it once, none of the nodes of
the result can be simplified in the way normalizing does, and the result has the value of the tree.
The tree need not be well-formed. -/
theorem normalize_isNormalForm (e : Expr) : e.normalize.normalize = e.normalize ∧
    (∀ path node, e.normalize.get? path = some node → node.NormalNode) ∧
      ∀ ρ : Valuation, e.normalize.value ρ = e.value ρ :=
  ⟨normalize_normalize e, fun _ _ h => ((isNormal_normalize e).get? h).normalNode,
    fun _ => value_normalize e⟩

end Expr

end AlgebraTutor
