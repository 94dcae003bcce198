/-
Properties of trees that pass between a node and its arguments.

Being well-formed is such a property, and so is being well-formed without a call.  A tree has it if
and only if every node has as many arguments as it should and its arguments have it; calls may be
restricted further.  The property then passes to every node, to what is put together from trees that
have it, to what a match binds, and to what a pattern makes of that.  Stated once for all such
properties, these facts do not have to be shown for each.
-/
import AlgebraTutor.Proofs.Matching
import AlgebraTutor.Proofs.ReadTrees
import AlgebraTutor.Supported

namespace AlgebraTutor

namespace Expr

/-- The property passes between a node and its arguments, and to the normal form. -/
structure Hereditary (P : Expr → Prop) : Prop where
  const (q : Rat) : P (.const q)
  op {kind : Op} {args : List Expr} {i : Bool} :
    P (.op kind args i) ↔ kind.accepts args.length = true ∧ ∀ arg ∈ args, P arg
  callArgs {name : String} {args : List Expr} : P (.call name args) → ∀ arg ∈ args, P arg
  /-- Other arguments, as many of them, may stand in a call. -/
  call {name : String} {args args' : List Expr} : P (.call name args) →
    args'.length = args.length → (∀ arg ∈ args', P arg) → P (.call name args')
  normalize {e : Expr} : P e → P e.normalize

/-- These functions may be called with any arguments that have the property. -/
def Allows (P : Expr → Prop) (functions : List String) : Prop :=
  ∀ name ∈ functions, ∀ args : List Expr, (∀ arg ∈ args, P arg) → P (.call name args)

theorem allows_nil (P : Expr → Prop) : Allows P [] := fun _ h => nomatch h

theorem hereditary_isPlain : Hereditary IsPlain where
  const := isPlain_const
  op := isPlain_op
  callArgs h := (isPlain_call.mp h).2.2
  call h hlength hargs := by
    obtain ⟨hname, hletter, -⟩ := isPlain_call.mp h
    exact isPlain_call.mpr ⟨hname, hlength ▸ hletter, hargs⟩
  normalize := isPlain_normalize

/-- The names of the known functions are identifiers of more than one letter. -/
theorem allows_isPlain : Allows IsPlain supportedFunctions := by
  have hnames : ∀ name ∈ supportedFunctions,
      Token.isIdentifier name.toList = true ∧ name.length ≠ 1 := by decide
  intro name hname args hargs
  obtain ⟨hidentifier, hlength⟩ := hnames name hname
  exact isPlain_call.mpr ⟨hidentifier, fun h => hlength h.1, hargs⟩

/-- What passes from a tree to its arguments holds of all its nodes. -/
theorem of_get? {P : Expr → Prop} (hargs : ∀ e, P e → ∀ arg ∈ e.args, P arg) {path : Path} :
    ∀ {root node : Expr}, P root → root.get? path = some node → P node := by
  induction path with
  | nil =>
      intro root node hroot hnode
      cases hnode
      exact hroot
  | cons i path ih =>
      intro root node hroot hnode
      rw [Expr.get?] at hnode
      split at hnode
      · next arg harg => exact ih (hargs root hroot arg (List.mem_of_getElem? harg)) hnode
      · cases hnode

namespace Hereditary

variable {P : Expr → Prop} (hP : Hereditary P)

include hP

/-! ### Putting trees together -/

section Building

variable {a b : Expr}

theorem minus (ha : P a) : P (minus a) := hP.op.mpr ⟨rfl, by simpa using ha⟩

theorem sum (ha : P a) (hb : P b) : P (sum [a, b]) := hP.op.mpr ⟨rfl, by simp [ha, hb]⟩

theorem product (ha : P a) (hb : P b) : P (product [a, b]) := hP.op.mpr ⟨rfl, by simp [ha, hb]⟩

theorem quotient (ha : P a) (hb : P b) : P (quotient a b) := hP.op.mpr ⟨rfl, by simp [ha, hb]⟩

theorem power (ha : P a) (hb : P b) : P (power a b) := hP.op.mpr ⟨rfl, by simp [ha, hb]⟩

theorem negated (ha : P a) : P a.negated := by
  unfold Expr.negated
  split
  · exact hP.const _
  · exact (hP.op.mp ha).2 _ (List.mem_singleton.mpr rfl)
  · exact hP.minus ha

theorem ofRat (q : Rat) : P (ofRat q) := by
  unfold Expr.ofRat
  split
  · exact hP.const q
  · exact hP.quotient (hP.const _) (hP.const _)

/-- Some of the arguments of a sum or product, at least one, are the arguments of one as well. -/
theorem commutative {kind : Op} (hkind : kind.isCommutative = true) {args : List Expr} {i : Bool}
    (hne : args.length ≠ 0) (hargs : ∀ arg ∈ args, P arg) : P (.op kind args i) := by
  refine hP.op.mpr ⟨?_, hargs⟩
  cases kind <;> simp [Op.isCommutative] at hkind <;> simpa [Op.accepts] using hne

end Building

/-! ### Nodes of a tree -/

theorem arg {e : Expr} (he : P e) : ∀ arg ∈ e.args, P arg := by
  intro arg harg
  cases e with
  | op kind args i => exact (hP.op.mp he).2 arg harg
  | call name args => exact hP.callArgs he arg harg
  | _ => cases harg

theorem get? {root node : Expr} (hroot : P root) {path : Path}
    (hnode : root.get? path = some node) : P node := of_get? (fun _ he => hP.arg he) hroot hnode

theorem replace? {path : Path} {new : Expr} (hnew : P new) : ∀ {root tree : Expr}, P root →
    root.replace? path new = some tree → P tree := by
  induction path with
  | nil =>
      intro root tree hroot htree
      cases htree
      exact hnew
  | cons i path ih =>
      intro root tree hroot htree
      rw [Expr.replace?] at htree
      split at htree
      · next arg harg =>
          obtain ⟨arg', harg', rfl⟩ := Option.map_eq_some_iff.mp htree
          have hset : ∀ f ∈ root.args.set i arg', P f := by
            intro f hf
            rcases List.mem_or_eq_of_mem_set hf with hf | rfl
            · exact hP.arg hroot f hf
            · exact ih (hP.arg hroot arg (List.mem_of_getElem? harg)) harg'
          cases root with
          | op kind args implicit =>
              obtain ⟨hlength, -⟩ := hP.op.mp hroot
              exact hP.op.mpr ⟨by rw [Expr.args, List.length_set]; exact hlength, hset⟩
          | call name args => exact hP.call hroot List.length_set hset
          | _ => simp [args] at harg
      · cases htree

/-- Another node in the place of one leaves the tree with the property. -/
theorem splice {root new : Expr} (hroot : P root) (hnew : P new) (path : Path) :
    P (root.splice path new) := by
  unfold Expr.splice
  split
  · next tree htree => exact hP.normalize (hP.replace? hnew hroot htree)
  · exact hroot

end Hereditary

end Expr

/-! ### What a match binds -/

/-- All bound trees have the property. -/
def Bindings.All (P : Expr → Prop) (b : Bindings) : Prop := ∀ name e, b.get? name = some e → P e

namespace Bindings

variable {P : Expr → Prop}

theorem all_empty : empty.All P := fun _ _ h => nomatch h

theorem all_single (name : String) {e : Expr} (he : P e) : (single name e).All P := by
  intro other f hf
  rw [get?_single] at hf
  split at hf
  · cases hf
    exact he
  · cases hf

theorem All.union {left right : Bindings} (hleft : left.All P) (hright : right.All P) :
    (left.union right).All P := by
  intro name e he
  rw [get?_union] at he
  rcases Option.or_eq_some_iff.mp he with he | ⟨-, he⟩
  · exact hright name e he
  · exact hleft name e he

end Bindings

namespace Pattern

open AlgebraTutor.Expr

variable {context : Context} {P : Expr → Prop}

section Matches

variable (hP : Hereditary P)

include hP

theorem of_accept? {kind : WildcardKind} {e value : Expr} (h : kind.accept? context e = some value)
    (he : P e) : P value := by
  rcases accept?_eq_some h with ⟨-, rfl⟩ | ⟨-, q, -, rfl⟩
  · exact he
  · exact hP.const _

/-- The two operands that a longer sum or product is read as. -/
theorem of_mem_splits {kind : Op} (hkind : kind.isCommutative = true) {args : List Expr} {i : Bool}
    (hlength : 2 ≤ args.length) (hargs : ∀ arg ∈ args, P arg) {left right : Expr}
    (h : (left, right) ∈ splits kind i args) : P left ∧ P right := by
  obtain ⟨⟨one, others⟩, hpick, hmem⟩ := List.mem_flatMap.mp h
  have hperm : args.Perm (one :: others) := perm_of_mem_picks hpick
  have hall : ∀ arg ∈ one :: others, P arg := fun arg harg => hargs arg (hperm.mem_iff.mpr harg)
  obtain ⟨hone, hothers⟩ := List.forall_mem_cons.mp hall
  have hrest : P (regroup kind i others) := by
    unfold regroup
    split
    · next only => exact hothers only (List.mem_singleton.mpr rfl)
    · have heq := hperm.length_eq
      rw [List.length_cons] at heq
      exact hP.commutative hkind (by omega) hothers
  simp only [List.mem_cons, Prod.mk.injEq, List.not_mem_nil, or_false] at hmem
  rcases hmem with ⟨rfl, rfl⟩ | ⟨rfl, rfl⟩
  · exact ⟨hone, hrest⟩
  · exact ⟨hrest, hone⟩

end Matches

mutual

/-- A match with a tree that has the property binds trees that have it. -/
theorem all_of_mem_matchExpr (hP : Hereditary P) : ∀ {p : Pattern} {e : Expr} {b : Bindings},
    P e → b ∈ matchExpr context p e → b.All P
  | wildcard name kind, e, b, he, h => by
      rw [matchExpr] at h
      split at h
      · next value hvalue =>
          obtain rfl := List.mem_singleton.mp h
          exact Bindings.all_single name (of_accept? hP hvalue he)
      · cases h
  | const p, e, b, he, h => by
      cases e <;> simp only [matchExpr, List.not_mem_nil] at h
      split at h
      · exact List.mem_singleton.mp h ▸ Bindings.all_empty
      · cases h
  | symbol name, e, b, he, h => by
      cases e <;> simp only [matchExpr, List.not_mem_nil] at h
      split at h
      · exact List.mem_singleton.mp h ▸ Bindings.all_empty
      · cases h
  | member object index, e, b, he, h => by
      cases e <;> simp only [matchExpr, List.not_mem_nil] at h
      split at h
      · exact List.mem_singleton.mp h ▸ Bindings.all_empty
      · cases h
  | call name patterns, e, b, he, h => by
      obtain ⟨args, rfl, -, hb⟩ := exists_args_of_mem_matchExpr h
      have hempty : ∀ b ∈ [Bindings.empty], b.All P :=
        List.forall_mem_singleton.mpr Bindings.all_empty
      exact all_of_mem_matchArgs hP hempty (hP.callArgs he) hb
  | op kind patterns, e, b, he, h => by
      have hempty : ∀ b ∈ [Bindings.empty], b.All P :=
        List.forall_mem_singleton.mpr Bindings.all_empty
      obtain ⟨args, i, operands, rfl, hoperands, -, hb⟩ := exists_operands_of_mem_matchExpr h
      obtain ⟨-, hargs⟩ := hP.op.mp he
      cases hoperands with
      | args => exact all_of_mem_matchArgs hP hempty hargs hb
      | split hkind hlength hsplit =>
          obtain ⟨hleft, hright⟩ := of_mem_splits hP hkind hlength hargs hsplit
          exact all_of_mem_matchArgs hP hempty (by simp [hleft, hright]) hb

theorem all_of_mem_matchArgs (hP : Hereditary P) : ∀ {ps : List Pattern} {found : List Bindings}
    {es : List Expr} {b : Bindings}, (∀ b ∈ found, b.All P) →
      (∀ e ∈ es, P e) → b ∈ matchArgs context ps found es → b.All P
  | [], found, es, b, hfound, _, h => by
      rw [matchArgs] at h
      · exact hfound b h
      · simp
  | p :: ps, found, [], b, hfound, _, h => by
      rw [matchArgs] at h
      · exact hfound b h
      · simp
  | p :: ps, found, e :: es, b, hfound, hes, h => by
      obtain ⟨he, hes⟩ := List.forall_mem_cons.mp hes
      rw [matchArgs] at h
      split at h
      · cases h
      · refine all_of_mem_matchArgs hP (fun b' hb' => ?_) hes h
        obtain ⟨l, hl, r, hr, -, rfl⟩ := Bindings.mem_merge hb'
        exact (hfound l hl).union (all_of_mem_matchExpr hP he hr)

end

/-! ### What a pattern becomes -/

mutual

/-- The pattern is made of wildcards and constants, of operators with as many arguments as they
should have, and of calls of these functions. -/
def isMadeOf (functions : List String) : Pattern → Bool
  | wildcard _ _ => true
  | const _ => true
  | op kind args => kind.accepts args.length && allMadeOf functions args
  | call name args => functions.contains name && allMadeOf functions args
  | _ => false

/-- All patterns of the list are made so. -/
def allMadeOf (functions : List String) : List Pattern → Bool
  | [] => true
  | p :: ps => isMadeOf functions p && allMadeOf functions ps

end

theorem length_substituteAll? {b : Bindings} {ps : List Pattern} :
    ∀ {ts : List Expr}, substituteAll? b ps = some ts → ts.length = ps.length := by
  induction ps with
  | nil =>
      intro ts h
      cases h
      rfl
  | cons p ps ih =>
      intro ts h
      rw [substituteAll?] at h
      obtain ⟨t, -, h⟩ := Option.bind_eq_some_iff.mp h
      obtain ⟨us, hus, h⟩ := Option.bind_eq_some_iff.mp h
      cases h
      rw [List.length_cons, List.length_cons, ih hus]

mutual

theorem of_substitute? {functions : List String} (hP : Hereditary P) (hcalls : Allows P functions)
    {b : Bindings} (hb : b.All P) : ∀ {p : Pattern} {t : Expr}, p.isMadeOf functions = true →
      p.substitute? b = some t → P t
  | wildcard name kind, t, _, h => by
      unfold substitute? at h
      split at h
      · next heq =>
          cases heq
          obtain ⟨e, he, rfl⟩ := Option.map_eq_some_iff.mp h
          exact hP.negated (hb _ e he)
      · next heq =>
          cases heq
          exact hb _ t h
      all_goals next heq => cases heq
  | const q, t, _, h => by
      cases h
      exact hP.const q
  | symbol _, _, hp, _ => by cases hp
  | member _ _, _, hp, _ => by cases hp
  | call name args, t, hp, h => by
      obtain ⟨hname, hargs⟩ := Bool.and_eq_true_iff.mp hp
      rw [substitute?] at h
      obtain ⟨ts, hts, rfl⟩ := Option.map_eq_some_iff.mp h
      exact hcalls name (List.contains_iff_mem.mp hname) ts
        (all_of_substituteAll? hP hcalls hb hargs hts)
  | op kind args, t, hp, h => by
      obtain ⟨hlength, hargs⟩ := Bool.and_eq_true_iff.mp hp
      rw [substitute?] at h
      obtain ⟨ts, hts, rfl⟩ := Option.map_eq_some_iff.mp h
      rw [← length_substituteAll? hts] at hlength
      exact hP.op.mpr ⟨hlength, all_of_substituteAll? hP hcalls hb hargs hts⟩

theorem all_of_substituteAll? {functions : List String} (hP : Hereditary P)
    (hcalls : Allows P functions) {b : Bindings} (hb : b.All P) :
    ∀ {ps : List Pattern} {ts : List Expr}, allMadeOf functions ps = true →
      substituteAll? b ps = some ts → ∀ t ∈ ts, P t
  | [], ts, _, h => by
      cases h
      exact fun _ ht => nomatch ht
  | p :: ps, ts, hps, h => by
      obtain ⟨hp, hps⟩ := Bool.and_eq_true_iff.mp hps
      rw [substituteAll?] at h
      obtain ⟨t, ht, h⟩ := Option.bind_eq_some_iff.mp h
      obtain ⟨us, hus, h⟩ := Option.bind_eq_some_iff.mp h
      cases h
      exact List.forall_mem_cons.mpr
        ⟨of_substitute? hP hcalls hb hp ht, all_of_substituteAll? hP hcalls hb hps hus⟩

end

end Pattern

/-! ### What a rule makes of a node -/

namespace Rule

open AlgebraTutor.Expr Pattern

variable {P : Expr → Prop} (hP : Hereditary P) {context : Context} {rule : Rule} {e : Expr}

include hP

/-- Two arguments of a longer sum or product give way to one. -/
theorem of_replaceMatched {kind : Op} {args : List Expr} {i : Bool} {m n : Nat}
    (he : P (op kind args i)) (hkind : kind.isCommutative = true) (hlength : 2 < args.length)
    {new : Expr} (hnew : P new) : P (replaceMatched (op kind args i) (some (m, n)) new) := by
  obtain ⟨-, hargs⟩ := hP.op.mp he
  refine hP.commutative hkind ?_ fun f hf => ?_
  · rw [List.length_eraseIdx, List.length_set]
    split <;> omega
  · rcases List.mem_or_eq_of_mem_set (List.mem_of_mem_eraseIdx hf) with hf | rfl
    · exact hargs f hf
    · exact hnew

theorem all_of_mem_extractions {ms : List Match} (hms : rule.lhs.extractions? context e = .ok ms)
    (he : P e) {found : Match} (h : found ∈ ms) : found.bindings.All P ∧
      ∀ new : Expr, P new → P (replaceMatched e found.extraction new) := by
  obtain ⟨kind, patterns, args, implicit, i, j, left, right, -, rfl, hpair⟩ :=
    exists_pair_of_mem_extractions hms h
  obtain ⟨-, hargs⟩ := hP.op.mp he
  have hleft := hargs left (List.mem_of_getElem? hpair.first)
  have hright := hargs right (List.mem_of_getElem? hpair.second)
  refine ⟨all_of_mem_matchArgs hP ?_ (by simp [hleft, hright]) hpair.bindings, ?_⟩
  · exact List.forall_mem_singleton.mpr Bindings.all_empty
  · rw [hpair.extraction]
    exact fun new => of_replaceMatched hP he hpair.commutative hpair.longer

/-- A match binds trees with the property, and another such tree may take the place of what was
matched. -/
theorem all_of_mem_findMatches {ms : List Match} (hms : rule.findMatches context e = .ok ms)
    (he : P e) {found : Match} (h : found ∈ ms) : found.bindings.All P ∧
      ∀ new : Expr, P new → P (replaceMatched e found.extraction new) := by
  rcases findMatches_cases hms with hms | rfl
  · exact all_of_mem_extractions hP hms he h
  · obtain ⟨b, hb, rfl⟩ := List.mem_map.mp h
    exact ⟨all_of_mem_matchExpr hP he hb, fun _ hnew => hnew⟩

end Rule

end AlgebraTutor
