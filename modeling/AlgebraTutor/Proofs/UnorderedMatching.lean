/-
Matching does not see the order of arguments.

Taken up to reordering, bindings are a function from names to unordered trees, and the matches that
are found are a set of such functions.  What matching does to its bindings can be said in these
terms: two maps agree, and are joined, as functions.  So the set that is found depends on the
unordered tree only, although the lists come in another order and hold other representatives.

Two things have to be looked at.  A sum or product is split into one argument and the rest, and a
reordered one has the same splits up to reordering.  And what is kept of like bindings is the first
one found, which is the same set up to reordering, and leaves no two that are alike.

A sum or product of more than two patterns is matched argument by argument, in order, and here the
order does count.  But patterns that are read from a text have sums and products of two only.
-/
import AlgebraTutor.Proofs.MatchedBindings
import AlgebraTutor.Proofs.Recognition

namespace AlgebraTutor

open AlgebraTutor.Expr

namespace Bindings

/-! ### Bindings up to reordering -/

/-- What the names are bound to, up to reordering. -/
def unordered (b : Bindings) (name : String) : Option Unordered :=
  (b.get? name).map Expr.unordered

/-- The names of sorted entries come after the first one. -/
theorem lookup_eq_none_of_before {first : String × Expr} {rest : List (String × Expr)}
    (h : ∀ entry ∈ rest, Before first entry) {name : String} (hname : name ≤ first.1) :
    rest.lookup name = none := by
  rw [List.lookup_eq_none_iff]
  intro entry hentry
  rw [bne_iff_ne]
  rintro rfl
  exact absurd (h entry hentry) (String.not_lt.mpr hname)

theorem entriesAlike_iff : ∀ {entries entries' : List (String × Expr)},
    entries.Pairwise Before → entries'.Pairwise Before →
      (entriesAlike entries entries' = true ↔ ∀ name,
        (entries.lookup name).map Expr.unordered = (entries'.lookup name).map Expr.unordered)
  | [], [], _, _ => by simp [entriesAlike]
  | [], (name, e) :: rest, _, _ => by
      refine iff_of_false (by simp [entriesAlike]) fun h => ?_
      have hname := h name
      simp at hname
  | (name, e) :: rest, [], _, _ => by
      refine iff_of_false (by simp [entriesAlike]) fun h => ?_
      have hname := h name
      simp at hname
  | (name, e) :: rest, (name', e') :: rest', h, h' => by
      obtain ⟨hbefore, hrest⟩ := List.pairwise_cons.mp h
      obtain ⟨hbefore', hrest'⟩ := List.pairwise_cons.mp h'
      rw [entriesAlike, Bool.and_eq_true, Bool.and_eq_true, beq_iff_eq, alike_iff_unordered,
        entriesAlike_iff hrest hrest']
      simp only [lookup_cons_eq_ite]
      constructor
      · rintro ⟨⟨rfl, he⟩, hall⟩ other
        split
        · exact congrArg some he
        · exact hall other
      · intro hall
        have hname : name = name' := by
          by_contra hne
          have hfirst := hall name
          have hsecond := hall name'
          rw [if_pos rfl, if_neg hne] at hfirst
          rw [if_pos rfl, if_neg (Ne.symm hne)] at hsecond
          rcases String.le_total name name' with hle | hle
          · rw [lookup_eq_none_of_before hbefore' hle] at hfirst
            cases hfirst
          · rw [lookup_eq_none_of_before hbefore hle] at hsecond
            cases hsecond
        subst hname
        refine ⟨⟨rfl, ?_⟩, fun other => ?_⟩
        · have hfirst := hall name
          rw [if_pos rfl, if_pos rfl] at hfirst
          exact Option.some.inj hfirst
        · by_cases hother : other = name
          · subst hother
            rw [lookup_eq_none_of_before hbefore (String.le_refl _),
              lookup_eq_none_of_before hbefore' (String.le_refl _)]
          · have hsame := hall other
            rwa [if_neg hother, if_neg hother] at hsame

theorem get?_of_mem {b : Bindings} {name : String} {e : Expr} (h : (name, e) ∈ b.entries) :
    b.get? name = some e := by
  obtain ⟨entries, hsorted⟩ := b
  show entries.lookup name = some e
  induction entries with
  | nil => cases h
  | cons first rest ih =>
      obtain ⟨hbefore, hrest⟩ := List.pairwise_cons.mp hsorted
      rw [lookup_cons_eq_ite]
      rcases List.mem_cons.mp h with rfl | h
      · exact if_pos rfl
      · rw [if_neg (String.ne_of_lt (hbefore _ h)).symm]
        exact ih hrest h

/-- Bindings are alike if they are the same up to reordering. -/
theorem alike_iff {a b : Bindings} : a.alike b = true ↔ a.unordered = b.unordered := by
  rw [alike, entriesAlike_iff a.sorted b.sorted, funext_iff]
  exact Iff.rfl

/-- No name is bound to different trees. -/
def Agree (f g : String → Option Unordered) : Prop :=
  ∀ name x y, f name = some x → g name = some y → x = y

/-- Both bindings together.  Where they have a name in common, the second counts. -/
def joined (f g : String → Option Unordered) : String → Option Unordered :=
  fun name => (g name).or (f name)

theorem unordered_single (name : String) (e : Expr) :
    (single name e).unordered = fun other => if other = name then some e.unordered else none := by
  funext other
  rw [unordered, get?_single]
  split <;> rfl

theorem unordered_union (left right : Bindings) :
    (left.union right).unordered = joined left.unordered right.unordered := by
  funext name
  rw [unordered, get?_union, Option.map_or]
  rfl

theorem agree_iff {left right : Bindings} :
    left.agree right = true ↔ Agree left.unordered right.unordered := by
  constructor
  · intro h name x y hx hy
    obtain ⟨e, he, rfl⟩ := Option.map_eq_some_iff.mp hx
    obtain ⟨f, hf, rfl⟩ := Option.map_eq_some_iff.mp hy
    exact alike_iff_unordered.mp (alike_of_agree h he hf)
  · intro h
    refine List.all_eq_true.mpr fun entry hentry => ?_
    obtain ⟨name, f⟩ := entry
    dsimp only
    split
    · next e he =>
        have hf := get?_of_mem hentry
        exact alike_iff_unordered.mpr
          (h name _ _ (by rw [unordered, he]; rfl) (by rw [unordered, hf]; rfl))
    · rfl

/-! ### Lists of bindings up to reordering -/

/-- The bindings of a list, up to reordering. -/
def found (bs : List Bindings) : Set (String → Option Unordered) := {f | ∃ b ∈ bs, b.unordered = f}

theorem found_eq_iff {bs bs' : List Bindings} : found bs = found bs' ↔
    (∀ b ∈ bs, ∃ b' ∈ bs', b.alike b' = true) ∧ ∀ b' ∈ bs', ∃ b ∈ bs, b.alike b' = true := by
  simp only [alike_iff, Set.Subset.antisymm_iff]
  refine and_congr ⟨fun h b hb => ?_, ?_⟩ ⟨fun h b' hb' => h ⟨b', hb', rfl⟩, ?_⟩
  · obtain ⟨b', hb', heq⟩ := h ⟨b, hb, rfl⟩
    exact ⟨b', hb', heq.symm⟩
  · rintro h _ ⟨b, hb, rfl⟩
    obtain ⟨b', hb', heq⟩ := h b hb
    exact ⟨b', hb', heq.symm⟩
  · rintro h _ ⟨b', hb', rfl⟩
    exact h b' hb'

@[simp] theorem found_nil : found [] = ∅ := by simp [found]

@[simp] theorem found_singleton (b : Bindings) : found [b] = {b.unordered} := by
  ext f
  simp [found, eq_comm]

theorem found_eq_empty_iff {bs : List Bindings} : found bs = ∅ ↔ bs = [] := by
  cases bs with
  | nil => simp
  | cons b bs => exact iff_of_false (Set.Nonempty.ne_empty ⟨_, b, by simp, rfl⟩) (by simp)

theorem found_addNew (bs : List Bindings) (b : Bindings) :
    found (addNew bs b) = found bs ∪ {b.unordered} := by
  unfold addNew
  split
  · next h =>
      obtain ⟨a, ha, halike⟩ := List.any_eq_true.mp h
      refine (Set.union_eq_self_of_subset_right ?_).symm
      rw [Set.singleton_subset_iff]
      exact ⟨a, ha, alike_iff.mp halike⟩
  · ext f
    simp [found, or_and_right, exists_or, or_comm, eq_comm]

/-- A fold finds what its steps find. -/
theorem found_foldl {α : Type} {step : List Bindings → α → List Bindings}
    {new : α → Set (String → Option Unordered)}
    (hstep : ∀ bs a, found (step bs a) = found bs ∪ new a) :
    ∀ (as : List α) (bs : List Bindings),
      found (as.foldl step bs) = found bs ∪ {f | ∃ a ∈ as, f ∈ new a} := by
  intro as
  induction as with
  | nil => intro bs; simp
  | cons a as ih =>
      intro bs
      rw [List.foldl_cons, ih, hstep, Set.union_assoc]
      congr 1
      ext f
      simp

theorem found_foldl_addNew (new bs : List Bindings) :
    found (new.foldl addNew bs) = found bs ∪ found new := by
  rw [found_foldl found_addNew]
  congr 1
  ext f
  simp [found, eq_comm]

/-- **Two lists are joined up to reordering.** -/
theorem found_merge (left right : List Bindings) : found (merge left right) =
    {h | ∃ f ∈ found left, ∃ g ∈ found right, Agree f g ∧ joined f g = h} := by
  have hone (l : Bindings) (bs : List Bindings) (r : Bindings) :
      found (if l.agree r then addNew bs (l.union r) else bs) =
        found bs ∪ {h | Agree l.unordered r.unordered ∧ joined l.unordered r.unordered = h} := by
    split
    · next hagree =>
        rw [found_addNew, unordered_union]
        simp only [agree_iff.mp hagree, true_and, eq_comm, Set.ofPred_eq_eq_singleton]
    · next hagree => simp [mt agree_iff.mpr hagree]
  have hall (bs : List Bindings) (l : Bindings) := found_foldl (hone l) right bs
  rw [merge, found_foldl hall, found_nil, Set.empty_union]
  ext h
  simp [found]

/-- No two of the bindings are alike. -/
def Distinct (bs : List Bindings) : Prop := bs.Pairwise fun a b => a.alike b = false

theorem Distinct.addNew {bs : List Bindings} (h : Distinct bs) (b : Bindings) :
    Distinct (addNew bs b) := by
  unfold Bindings.addNew
  split
  · exact h
  · next hnone =>
      rw [List.any_eq_true, not_exists] at hnone
      refine List.pairwise_append.mpr ⟨h, List.pairwise_singleton _ _, fun a ha b' hb' => ?_⟩
      rw [List.mem_singleton.mp hb']
      exact Bool.eq_false_iff.mpr fun halike => hnone a ⟨ha, halike⟩

theorem Distinct.foldl_addNew {bs : List Bindings} (h : Distinct bs) (new : List Bindings) :
    Distinct (new.foldl Bindings.addNew bs) :=
  List.foldlRecOn new _ h fun _ h b _ => h.addNew b

theorem distinct_merge (left right : List Bindings) : Distinct (merge left right) := by
  refine List.foldlRecOn left _ List.Pairwise.nil fun bs h l _ => ?_
  refine List.foldlRecOn right _ h fun bs h r _ => ?_
  split
  · exact h.addNew _
  · exact h

end Bindings

/-! ### Wildcards -/

theorem WildcardKind.accept?_unordered (context : Context) (kind : WildcardKind) {e e' : Expr}
    (h : e.unordered = e'.unordered) : (kind.accept? context e).map Expr.unordered =
      (kind.accept? context e').map Expr.unordered := by
  have hreg : e.Regrouped e' := (unordered_eq_iff.mp h).regrouped
  have hconstant : e.isConstant = e'.isConstant := by
    rw [Expr.isConstant, Expr.isConstant, hreg.constant?_eq]
  have hmentions := hreg.mentions_eq
  cases kind with
  | any => exact congrArg some h
  | nonConstant =>
      simp only [accept?, hconstant]
      split <;> simp [h]
  | constant negative =>
      cases negative with
      | false =>
          simp only [accept?, hconstant]
          split <;> simp [h]
      | true =>
          have hvalue (e : Expr) : accept? context e (.constant true) = e.constant?.bind fun q =>
              if q < 0 then some (.const (-q)) else none := by cases e <;> rfl
          rw [hvalue, hvalue, hreg.constant?_eq]
  | unknown =>
      by_cases hsymbol : ∃ name, e = .symbol name
      · obtain ⟨name, rfl⟩ := hsymbol
        rw [(hreg.eq_symbol_iff name).mp rfl]
      · have hnone {e : Expr} (he : ¬∃ name, e = .symbol name) :
            accept? context e .unknown = none := by
          cases e <;> simp_all [accept?]
        rw [hnone hsymbol, hnone]
        simpa only [hreg.eq_symbol_iff] using hsymbol
  | excludesUnknown =>
      simp only [accept?, hmentions]
      split
      · split <;> simp [h]
      · rfl
  | containsUnknown =>
      simp only [accept?, hmentions]
      split
      · split <;> simp [h]
      · rfl

namespace Expr

/-- Two trees that are the same up to reordering are the same leaf, or operators or calls of the
same name with the same arguments up to reordering. -/
theorem unordered_cases {e e' : Expr} (h : e.unordered = e'.unordered) : e = e' ∨
    (∃ kind args i args' j, e = op kind args i ∧ e' = op kind args' j ∧
      gathered kind (args.map unordered) = gathered kind (args'.map unordered)) ∨
    ∃ name args args', e = call name args ∧ e' = call name args' ∧
      args.map unordered = args'.map unordered := by
  have hshape := shape_eq_iff.mpr (unordered_eq_iff.mp h)
  cases e with
  | op kind args i =>
      cases e' with
      | op kind' args' j =>
          obtain ⟨rfl, hargs⟩ := Shape.op.inj hshape
          exact .inr (.inl ⟨kind, args, i, args', j, rfl, rfl, hargs⟩)
      | _ => cases hshape
  | call name args =>
      cases e' with
      | call name' args' =>
          obtain ⟨rfl, hargs⟩ := Shape.call.inj hshape
          exact .inr (.inr ⟨name, args, args', rfl, rfl, hargs⟩)
      | _ => cases hshape
  | _ =>
      cases e' <;> cases hshape
      exact .inl rfl

end Expr

namespace Pattern

/-! ### Splits -/

variable {context : Context}

/-- A member of a list can be picked out of it. -/
theorem mem_picks {α : Type} : ∀ (before : List α) (one : α) (after : List α),
    (one, before ++ after) ∈ picks (before ++ one :: after)
  | [], _, _ => List.mem_cons_self ..
  | _ :: before, one, after => List.mem_cons_of_mem _
      (List.mem_map.mpr ⟨(one, before ++ after), mem_picks before one after, rfl⟩)

theorem regroup_unordered {kind : Op} (hkind : kind.isCommutative = true) {es fs : List Expr}
    (h : (es.map Expr.unordered).Perm (fs.map Expr.unordered)) (i j : Bool) :
    (regroup kind i es).unordered = (regroup kind j fs).unordered := by
  have hmany : (Expr.op kind es i).unordered = (Expr.op kind fs j).unordered := by
    rw [unordered_eq_iff, ← shape_eq_iff, shape, shape, Shape.op.injEq, gathered_eq_iff,
      if_pos hkind]
    exact ⟨rfl, h⟩
  have hlength : es.length = fs.length := by simpa using h.length_eq
  rcases es with _ | ⟨e, _ | ⟨e', es⟩⟩
  · obtain rfl := List.length_eq_zero_iff.mp hlength.symm
    exact hmany
  · obtain ⟨f, rfl⟩ := List.length_eq_one_iff.mp hlength.symm
    simpa [regroup] using h
  · rcases fs with _ | ⟨f, _ | ⟨f', fs⟩⟩
    · cases hlength
    · cases Nat.succ.inj hlength
    · exact hmany

/-- A reordered sum or product has the same splits up to reordering. -/
theorem exists_split {kind : Op} (hkind : kind.isCommutative = true) {args args' : List Expr}
    (h : (args.map Expr.unordered).Perm (args'.map Expr.unordered)) {i : Bool} (j : Bool)
    {left right : Expr} (hsplit : (left, right) ∈ splits kind i args) :
    ∃ left' right', (left', right') ∈ splits kind j args' ∧
      left.unordered = left'.unordered ∧ right.unordered = right'.unordered := by
  obtain ⟨⟨one, others⟩, hpick, hmem⟩ := List.mem_flatMap.mp hsplit
  have hperm := ((perm_of_mem_picks hpick).map Expr.unordered).symm.trans h
  obtain ⟨one', hone', heq⟩ := List.mem_map.mp (hperm.subset (List.mem_cons_self ..))
  obtain ⟨before, after, rfl⟩ := List.append_of_mem hone'
  have hothers : (others.map Expr.unordered).Perm ((before ++ after).map Expr.unordered) := by
    rw [← List.perm_cons one.unordered, ← List.map_cons, ← heq, ← List.map_cons]
    exact hperm.trans (List.perm_middle.map Expr.unordered)
  have hrest := regroup_unordered hkind hothers i j
  have hpick' := mem_picks before one' after
  simp only [List.mem_cons, Prod.mk.injEq, List.not_mem_nil, or_false] at hmem
  rcases hmem with ⟨rfl, rfl⟩ | ⟨rfl, rfl⟩
  · exact ⟨_, _, List.mem_flatMap.mpr ⟨_, hpick', by simp⟩, heq.symm, hrest⟩
  · exact ⟨_, _, List.mem_flatMap.mpr ⟨_, hpick', by simp⟩, hrest, heq.symm⟩

/-! ### Patterns that are read -/

mutual

/-- Every sum and product of the pattern has two operands. -/
def isPaired : Pattern → Bool
  | op kind args => (!kind.isCommutative || args.length == 2) && allPaired args
  | call _ args => allPaired args
  | _ => true

/-- Every sum and product of the patterns has two operands. -/
def allPaired : List Pattern → Bool
  | [] => true
  | p :: ps => isPaired p && allPaired ps

end

theorem isPaired_symbol (name : String) : (ofExpr (.symbol name)).isPaired = true := by
  rw [ofExpr]
  split <;> rfl

theorem isPaired_negated {p : Pattern} (h : p.isPaired = true) : p.negated.isPaired = true := by
  unfold negated
  split
  · rfl
  · rfl
  · simp [isPaired, allPaired, Op.isCommutative, h]

theorem isPaired_joined {kind : BinaryKind} {i : Bool} {a b : Expr}
    (ha : (ofExpr a).isPaired = true) (hb : (ofExpr b).isPaired = true) :
    (ofExpr (Phrase.joined kind i a b)).isPaired = true := by
  have hminus : (ofExpr (Expr.minus b)).isPaired = true := isPaired_negated hb
  cases kind <;>
    simp [Phrase.joined, Expr.sum, Expr.quotient, Expr.power, ofExpr, ofExprs, ofOp, isPaired,
      allPaired, Op.isCommutative, ha, hb, hminus]

mutual

/-- A pattern that is read has no longer sums and products, since the tree of a phrase has none. -/
theorem isPaired_of_expr? : ∀ {p : Phrase} {e : Expr}, p.expr? = some e →
    (ofExpr e).isPaired = true
  | .number digits, e, he => by
      obtain ⟨q, -, rfl⟩ := Option.map_eq_some_iff.mp he
      rfl
  | .symbol name, e, he => by
      cases he
      exact isPaired_symbol name
  | .paren inner, e, he => isPaired_of_expr? (p := inner) he
  | .call name args, e, he => by
      obtain ⟨es, hes, rfl⟩ := Option.map_eq_some_iff.mp he
      have hargs := allPaired_of_exprs? hes
      unfold Expr.ofCall
      split
      · next arg =>
          split
          · rw [ofExpr, ofExprs, ofOp, isPaired, allPaired, isPaired_symbol, hargs]
            · rfl
            · simp
          · exact hargs
      · exact hargs
  | .member object index, e, he => by
      cases he
      rfl
  | .neg operand, e, he => by
      obtain ⟨x, hx, rfl⟩ := Option.map_eq_some_iff.mp he
      exact isPaired_negated (isPaired_of_expr? (p := operand) hx)
  | .binary lhs kind i rhs, e, he => by
      obtain ⟨x, hx, he⟩ := Option.bind_eq_some_iff.mp he
      obtain ⟨y, hy, rfl⟩ := Option.map_eq_some_iff.mp he
      exact isPaired_joined (isPaired_of_expr? hx) (isPaired_of_expr? hy)

theorem allPaired_of_exprs? : ∀ {ps : List Phrase} {es : List Expr}, Phrase.exprs? ps = some es →
    allPaired (ofExprs es) = true
  | [], es, hes => by
      cases hes
      rfl
  | p :: ps, es, hes => by
      obtain ⟨x, hx, hes⟩ := Option.bind_eq_some_iff.mp hes
      obtain ⟨xs, hxs, rfl⟩ := Option.map_eq_some_iff.mp hes
      exact Bool.and_eq_true_iff.mpr ⟨isPaired_of_expr? hx, allPaired_of_exprs? hxs⟩

end

theorem isPaired_of_parse {text : String} {p : Pattern} (h : parse text = .ok p) :
    p.isPaired = true := by
  unfold parse at h
  split at h
  · next e he =>
      obtain rfl := Except.ok.inj h
      obtain ⟨phrase, -, hphrase⟩ := Expr.parse_eq_ok_iff.mp he
      exact isPaired_of_expr? hphrase
  · cases h

/-! ### Matching -/

open Bindings

section Operator

variable {kind : Op} {patterns : List Pattern}
  (hrow : ∀ {es es' : List Expr}, es.map Expr.unordered = es'.map Expr.unordered →
    found (matchArgs context patterns [.empty] es) =
      found (matchArgs context patterns [.empty] es'))
  {args args' : List Expr} {i j : Bool}

include hrow

theorem found_splits_subset (hkind : kind.isCommutative = true)
    (hargs : (args.map Expr.unordered).Perm (args'.map Expr.unordered)) :
    {f | ∃ pair ∈ splits kind i args,
        f ∈ found (matchArgs context patterns [.empty] [pair.1, pair.2])} ⊆
      {f | ∃ pair ∈ splits kind j args',
        f ∈ found (matchArgs context patterns [.empty] [pair.1, pair.2])} := by
  rintro f ⟨⟨left, right⟩, hsplit, hf⟩
  obtain ⟨left', right', hsplit', hleft, hright⟩ := exists_split hkind hargs j hsplit
  have hsame : [left, right].map Expr.unordered = [left', right'].map Expr.unordered := by
    simp [hleft, hright]
  refine ⟨_, hsplit', ?_⟩
  rwa [← hrow hsame]

/-- What is found for an operator depends on its unordered arguments, if this is so of a row. -/
theorem found_op (hpaired : (!kind.isCommutative || patterns.length == 2) = true)
    (hargs : gathered kind (args.map Expr.unordered) = gathered kind (args'.map Expr.unordered)) :
    found (matchExpr context (op kind patterns) (.op kind args i)) =
      found (matchExpr context (op kind patterns) (.op kind args' j)) := by
  rw [gathered_eq_iff] at hargs
  rw [matchExpr, matchExpr, if_neg (not_not.mpr rfl), if_neg (not_not.mpr rfl)]
  by_cases hkind : kind.isCommutative = true
  · rw [if_pos hkind] at hargs
    have hlength : args.length = args'.length := by simpa using hargs.length_eq
    have htwo : patterns.length = 2 := by simpa [hkind] using hpaired
    have hsplits (bs : List Bindings) (pair : Expr × Expr) := found_foldl_addNew
      (matchArgs context patterns [.empty] [pair.1, pair.2]) bs
    rw [hlength, htwo]
    split
    · rw [found_foldl hsplits, found_foldl hsplits]
      congr 1
      exact (found_splits_subset hrow hkind hargs).antisymm
        (found_splits_subset hrow hkind hargs.symm)
    · next hshort =>
        have hne : ¬2 = args'.length := fun heq => hshort ⟨hkind, rfl, heq.le⟩
        rw [if_neg hne, if_neg hne]
  · rw [if_neg hkind] at hargs
    have hlength : args.length = args'.length := by simpa using congrArg List.length hargs
    have hnot {n : Nat} : ¬(kind.isCommutative = true ∧ patterns.length = 2 ∧ 2 ≤ n) :=
      fun h => hkind h.1
    rw [if_neg hnot, if_neg hnot, hlength]
    split
    · exact hrow hargs
    · rfl

end Operator

/-- A pattern that neither operators nor calls match can only match one leaf. -/
theorem found_leaf {p : Pattern} (hop : ∀ kind args i, matchExpr context p (.op kind args i) = [])
    (hcall : ∀ name args, matchExpr context p (.call name args) = []) {e e' : Expr}
    (h : e.unordered = e'.unordered) :
    found (matchExpr context p e) = found (matchExpr context p e') := by
  rcases unordered_cases h with rfl | ⟨_, _, _, _, _, rfl, rfl, -⟩ | ⟨_, _, _, rfl, rfl, -⟩
  · rfl
  · rw [hop, hop]
  · rw [hcall, hcall]

mutual

/-- **What matching finds depends on the unordered tree only.** -/
theorem found_matchExpr : ∀ {p : Pattern} {e e' : Expr}, p.isPaired = true →
    e.unordered = e'.unordered →
      found (matchExpr context p e) = found (matchExpr context p e')
  | wildcard name kind, e, e', _, h => by
      have haccept := kind.accept?_unordered context h
      rw [matchExpr, matchExpr]
      cases hvalue : kind.accept? context e with
      | none =>
          rw [hvalue, Option.map_none, eq_comm, Option.map_eq_none_iff] at haccept
          rw [haccept]
      | some value =>
          rw [hvalue, Option.map_some, eq_comm, Option.map_eq_some_iff] at haccept
          obtain ⟨value', hvalue', heq⟩ := haccept
          rw [hvalue']
          dsimp only
          rw [found_singleton, found_singleton, unordered_single, unordered_single, heq]
  | const _, e, e', _, h =>
      found_leaf (fun _ _ _ => by simp only [matchExpr]) (fun _ _ => by simp only [matchExpr]) h
  | symbol _, e, e', _, h =>
      found_leaf (fun _ _ _ => by simp only [matchExpr]) (fun _ _ => by simp only [matchExpr]) h
  | member _ _, e, e', _, h =>
      found_leaf (fun _ _ _ => by simp only [matchExpr]) (fun _ _ => by simp only [matchExpr]) h
  | call name patterns, e, e', hp, h => by
      rcases unordered_cases h with rfl | ⟨_, _, _, _, _, rfl, rfl, -⟩ | ⟨_, _, _, rfl, rfl, hargs⟩
      · rfl
      · simp only [matchExpr]
      · have hlength := congrArg List.length hargs
        rw [List.length_map, List.length_map] at hlength
        rw [matchExpr, matchExpr, hlength]
        split
        · exact found_matchArgs hp rfl hargs
        · rfl
  | op kind patterns, e, e', hp, h => by
      rcases unordered_cases h with rfl | ⟨kind', args, i, args', j, rfl, rfl, hargs⟩ |
        ⟨_, _, _, rfl, rfl, -⟩
      · rfl
      · by_cases hkind : kind = kind'
        · subst hkind
          obtain ⟨hpaired, hp⟩ := Bool.and_eq_true_iff.mp hp
          exact found_op (fun hes => found_matchArgs hp rfl hes) hpaired hargs
        · rw [matchExpr, matchExpr, if_pos hkind, if_pos hkind]
      · simp only [matchExpr]

/-- What is found for a row of patterns depends on the unordered trees and on what was found
before. -/
theorem found_matchArgs : ∀ {ps : List Pattern} {bs bs' : List Bindings} {es es' : List Expr},
    allPaired ps = true → found bs = found bs' →
      es.map Expr.unordered = es'.map Expr.unordered →
        found (matchArgs context ps bs es) = found (matchArgs context ps bs' es')
  | [], bs, bs', es, es', _, hbs, hes => by
      rw [matchArgs, matchArgs]
      · exact hbs
      · simp
      · simp
  | p :: ps, bs, bs', [], [], _, hbs, _ => by
      rw [matchArgs, matchArgs]
      · exact hbs
      · simp
      · simp
  | p :: ps, bs, bs', e :: es, e' :: es', hps, hbs, hes => by
      obtain ⟨hp, hps⟩ := Bool.and_eq_true_iff.mp hps
      obtain ⟨he, hes⟩ := List.cons.inj hes
      have hempty : bs.isEmpty = bs'.isEmpty := by
        rw [Bool.eq_iff_iff, List.isEmpty_iff, List.isEmpty_iff, ← found_eq_empty_iff,
          ← found_eq_empty_iff, hbs]
      rw [matchArgs, matchArgs, hempty]
      split
      · rfl
      · refine found_matchArgs hps ?_ hes
        rw [found_merge, found_merge, hbs, found_matchExpr hp he]
  | _ :: _, _, _, [], _ :: _, _, _, hes => nomatch hes
  | _ :: _, _, _, _ :: _, [], _, _, hes => nomatch hes

end

/-! ### No two matches are alike -/

theorem distinct_matchArgs {ps : List Pattern} {bs : List Bindings} {es : List Expr}
    (hbs : Distinct bs) : Distinct (matchArgs context ps bs es) := by
  induction ps generalizing bs es with
  | nil =>
      rw [matchArgs]
      · exact hbs
      · simp
  | cons p ps ih =>
      cases es with
      | nil =>
          rw [matchArgs]
          · exact hbs
          · simp
      | cons e es =>
          rw [matchArgs]
          split
          · exact .nil
          · exact ih (distinct_merge _ _)

theorem distinct_matchExpr (p : Pattern) (e : Expr) : Distinct (matchExpr context p e) := by
  have hone (b : Bindings) : Distinct [b] := List.pairwise_singleton _ b
  unfold matchExpr
  split
  · split
    · exact hone _
    · exact .nil
  · split
    · exact hone _
    · exact .nil
  · split
    · exact hone _
    · exact .nil
  · split
    · exact hone _
    · exact .nil
  · split
    · exact distinct_matchArgs (hone _)
    · exact .nil
  · split
    · exact .nil
    · split
      · exact List.foldlRecOn _ _ .nil fun bs h pair _ => h.foldl_addNew _
      · split
        · exact distinct_matchArgs (hone _)
        · exact .nil
  · exact .nil

/-- **Matching does not depend on the order of arguments and finds nothing twice.**  A pattern that
is read fails on two trees that are equal up to reordering, with the same error, or it finds the
same bindings in both up to reordering; and no two bindings that it finds in one of them are
alike. -/
theorem matches?_reordered {text : String} {p : Pattern} (hp : parse text = .ok p)
    (context : Context) {e e' : Expr} (h : e.alike e' = true) :
    (∃ error, p.matches? context e = .error error ∧ p.matches? context e' = .error error) ∨
    ∃ bs bs', p.matches? context e = .ok bs ∧ p.matches? context e' = .ok bs' ∧
      (∀ b ∈ bs, ∃ b' ∈ bs', b.alike b' = true) ∧ (∀ b' ∈ bs', ∃ b ∈ bs, b.alike b' = true) ∧
      Distinct bs ∧ Distinct bs' := by
  unfold matches?
  cases p.checkUnknown context with
  | error error => exact .inl ⟨error, rfl, rfl⟩
  | ok _ =>
      have hfound : found (matchExpr context p e) = found (matchExpr context p e') :=
        found_matchExpr (isPaired_of_parse hp) (alike_iff_unordered.mp h)
      obtain ⟨hinto, honto⟩ := found_eq_iff.mp hfound
      exact .inr ⟨_, _, rfl, rfl, hinto, honto, distinct_matchExpr p e, distinct_matchExpr p e'⟩

/-- In `(x + y) + y + x` the pattern `n1 + n1` finds `y + x`, the rest that is left beside `x + y`,
and in `x + (y + x) + y` it finds `x + y`. -/
theorem matches?_reordered_twice :
    ∃ e e' : Expr, parse "n1 + n1" = .ok twice ∧ e.alike e' = true ∧
      e = .sum [.sum [.symbol "x", .symbol "y"], .symbol "y", .symbol "x"] ∧
      e' = .sum [.symbol "x", .sum [.symbol "y", .symbol "x"], .symbol "y"] ∧
      ∃ b b', twice.matches? .plain e = .ok [b] ∧ twice.matches? .plain e' = .ok [b'] ∧
        b.alike b' = true := by
  have halike : (Expr.sum [.sum [.symbol "x", .symbol "y"], .symbol "y", .symbol "x"]).alike
      (.sum [.symbol "x", .sum [.symbol "y", .symbol "x"], .symbol "y"]) = true := by decide
  have hmatches : twice.matches? .plain
      (.sum [.sum [.symbol "x", .symbol "y"], .symbol "y", .symbol "x"]) =
        .ok [.single "n1" (.sum [.symbol "y", .symbol "x"])] := rfl
  have hmatches' : twice.matches? .plain
      (.sum [.symbol "x", .sum [.symbol "y", .symbol "x"], .symbol "y"]) =
        .ok [.single "n1" (.sum [.symbol "x", .symbol "y"])] := rfl
  rcases matches?_reordered parse_sum_twice .plain halike with
    ⟨error, herror, -⟩ | ⟨bs, bs', hbs, hbs', hinto, -⟩
  · cases herror
  · obtain rfl := Except.ok.inj (hmatches.symm.trans hbs)
    obtain rfl := Except.ok.inj (hmatches'.symm.trans hbs')
    obtain ⟨b', hb', hlike⟩ := hinto _ (List.mem_singleton_self _)
    obtain rfl := List.mem_singleton.mp hb'
    exact ⟨_, _, parse_sum_twice, halike, rfl, rfl, _, _, hmatches, hmatches', hlike⟩

end Pattern

end AlgebraTutor
