/-
A match makes the pattern into the tree.

Under the bindings of a match every wildcard of the pattern is bound, and the tree that the pattern
becomes is a regrouping of the tree it was matched with.  Two things stand in the way of a plain
induction over the pattern, and both come from joining the matches of several arguments.

  * A name that occurs twice keeps the later of two like trees.  So what is carried through the
    induction is not that bindings stay the same but that they stay `Within` one another, up to
    regrouping, and `substitute?_mono` says that the tree of the pattern then stays the same up to
    regrouping as well.
  * A sum or product of two is matched with one argument and the regrouped rest.  `splits_regrouped`
    puts the two together again.

The same holds of two arguments that are taken out of a longer sum or product.
-/
import AlgebraTutor.Pattern.Match
import AlgebraTutor.Proofs.Regrouping
import AlgebraTutor.Rule.Apply

namespace AlgebraTutor

namespace Bindings

/-! ### Looking up names -/

@[simp] theorem get?_empty (name : String) : empty.get? name = none := rfl

@[simp] theorem get?_single (name other : String) (e : Expr) :
    (single name e).get? other = if other = name then some e else none := by
  by_cases h : other = name <;> simp [single, get?, h]

theorem lookup_cons_eq_ite (name other : String) (e : Expr) (rest : List (String × Expr)) :
    ((name, e) :: rest).lookup other = if other = name then some e else rest.lookup other := by
  by_cases h : other = name
  · subst h; simp
  · rw [List.lookup_cons, beq_eq_false_iff_ne.mpr h, if_neg h]

theorem lookup_insertEntry (name other : String) (e : Expr) :
    ∀ entries : List (String × Expr), (insertEntry name e entries).lookup other =
      if other = name then some e else entries.lookup other := by
  intro entries
  induction entries with
  | nil => by_cases h : other = name <;> simp [insertEntry, h]
  | cons entry rest ih =>
      obtain ⟨first, old⟩ := entry
      rw [insertEntry]
      split
      · rw [lookup_cons_eq_ite]
      · next hnot =>
          split
          · next hlt =>
              have hne : first ≠ name := fun heq => String.lt_irrefl _ (heq ▸ hlt)
              rw [lookup_cons_eq_ite, lookup_cons_eq_ite, ih]
              by_cases h : other = first
              · rw [if_pos h, if_neg (h ▸ hne), if_pos h]
              · rw [if_neg h, if_neg h]
          · next hnot' =>
              have heq : first = name :=
                String.le_antisymm (String.not_lt.mp hnot) (String.not_lt.mp hnot')
              rw [lookup_cons_eq_ite, lookup_cons_eq_ite, heq]
              by_cases h : other = name
              · rw [if_pos h, if_pos h]
              · rw [if_neg h, if_neg h, if_neg h]

@[simp] theorem get?_insert (b : Bindings) (name other : String) (e : Expr) :
    (b.insert name e).get? other = if other = name then some e else b.get? other :=
  lookup_insertEntry name other e b.entries

/-- In the union of two maps the second one counts where both have the name. -/
theorem get?_union (left right : Bindings) (name : String) :
    (left.union right).get? name = (right.get? name).or (left.get? name) := by
  obtain ⟨entries, hsorted⟩ := right
  show (entries.foldl (fun b (entry : String × Expr) => b.insert entry.1 entry.2) left).get? name
    = (entries.lookup name).or (left.get? name)
  induction entries generalizing left with
  | nil => rfl
  | cons entry rest ih =>
      obtain ⟨other, e⟩ := entry
      obtain ⟨hbefore, hrest⟩ := List.pairwise_cons.mp hsorted
      rw [List.foldl_cons, ih _ hrest, get?_insert, lookup_cons_eq_ite]
      by_cases h : name = other
      · subst h
        have hfresh : rest.lookup name = none := by
          rw [List.lookup_eq_none_iff]
          intro entry hentry
          simpa using (String.ne_of_lt (hbefore entry hentry))
        simp [hfresh]
      · simp [h]

theorem mem_of_get? {b : Bindings} {name : String} {e : Expr} (h : b.get? name = some e) :
    (name, e) ∈ b.entries := by
  obtain ⟨front, back, heq, -⟩ := List.lookup_eq_some_iff.mp h
  rw [heq]
  simp

theorem alike_of_agree {left right : Bindings} (h : left.agree right = true) {name : String}
    {e f : Expr} (he : left.get? name = some e) (hf : right.get? name = some f) :
    e.alike f = true := by
  have hentry := List.all_eq_true.mp h _ (mem_of_get? hf)
  simpa [he] using hentry

/-! ### Bindings within bindings -/

/-- Every name bound on the left is bound on the right, to a regrouping of the same tree. -/
def Within (b b' : Bindings) : Prop :=
  ∀ name e, b.get? name = some e → ∃ e', b'.get? name = some e' ∧ e'.Regrouped e

theorem Within.refl (b : Bindings) : b.Within b := fun _ e h => ⟨e, h, .refl e⟩

theorem Within.trans {b₁ b₂ b₃ : Bindings} (h₁ : b₁.Within b₂) (h₂ : b₂.Within b₃) :
    b₁.Within b₃ := by
  intro name e he
  obtain ⟨e', he', hreg⟩ := h₁ name e he
  obtain ⟨e'', he'', hreg'⟩ := h₂ name e' he'
  exact ⟨e'', he'', hreg'.trans hreg⟩

theorem right_within_union (left right : Bindings) : right.Within (left.union right) := by
  intro name e he
  exact ⟨e, by rw [get?_union, he]; rfl, .refl e⟩

/-- The left of two maps that agree loses entries to the right one, but only like ones. -/
theorem left_within_union {left right : Bindings} (h : left.agree right = true) :
    left.Within (left.union right) := by
  intro name e he
  rw [get?_union, he]
  cases hf : right.get? name with
  | none => exact ⟨e, rfl, .refl e⟩
  | some f => exact ⟨f, rfl, (Expr.regrouped_of_alike (alike_of_agree h he hf)).symm⟩

/-! ### Joining lists of bindings -/

/-- A fold that adds to a list adds nothing but what its steps add. -/
theorem mem_foldl_of_mem_step {α β : Type} {step : List β → α → List β} {P : α → β → Prop}
    (hstep : ∀ found a b, b ∈ step found a → b ∈ found ∨ P a b) :
    ∀ (as : List α) (found : List β) {b : β}, b ∈ as.foldl step found →
      b ∈ found ∨ ∃ a ∈ as, P a b := by
  intro as
  induction as with
  | nil => intro found b hb; exact .inl hb
  | cons a as ih =>
      intro found b hb
      rcases ih _ hb with hb | ⟨a', ha', hP⟩
      · rcases hstep found a b hb with hb | hP
        · exact .inl hb
        · exact .inr ⟨a, List.mem_cons_self .., hP⟩
      · exact .inr ⟨a', List.mem_cons_of_mem _ ha', hP⟩

theorem mem_addNew {found : List Bindings} {b c : Bindings} (h : c ∈ addNew found b) :
    c ∈ found ∨ c = b := by
  unfold addNew at h
  split at h
  · exact .inl h
  · simpa using h

theorem mem_foldl_addNew {found new : List Bindings} {b : Bindings}
    (h : b ∈ new.foldl addNew found) : b ∈ found ∨ b ∈ new := by
  rcases mem_foldl_of_mem_step (P := fun a b => b = a) (fun _ _ _ => mem_addNew) new found h with
    h | ⟨a, ha, rfl⟩
  · exact .inl h
  · exact .inr ha

/-- A joined map is the union of two maps that agree, one from each list. -/
theorem mem_merge {left right : List Bindings} {b : Bindings} (h : b ∈ merge left right) :
    ∃ l ∈ left, ∃ r ∈ right, l.agree r = true ∧ b = l.union r := by
  have hinner : ∀ (found : List Bindings) (l c : Bindings),
      c ∈ right.foldl (fun found r => if l.agree r then addNew found (l.union r) else found) found →
        c ∈ found ∨ ∃ r ∈ right, l.agree r = true ∧ c = l.union r := by
    intro found l c hc
    refine mem_foldl_of_mem_step (P := fun r c => l.agree r = true ∧ c = l.union r) ?_ right found
      hc
    intro found r c hc
    split at hc
    · next hagree =>
        rcases mem_addNew hc with hc | hc
        · exact .inl hc
        · exact .inr ⟨hagree, hc⟩
    · exact .inl hc
  rcases mem_foldl_of_mem_step hinner left [] h with h | h
  · cases h
  · exact h

end Bindings

namespace Pattern

open AlgebraTutor.Expr

/-! ### Bigger bindings give the same tree -/

mutual

/-- Under bindings that hold the given ones, the pattern becomes a regrouping of the same tree. -/
theorem substitute?_mono {b b' : Bindings} (hb : b.Within b') : ∀ {p : Pattern} {t : Expr},
    p.substitute? b = some t → ∃ t', p.substitute? b' = some t' ∧ t'.Regrouped t
  | wildcard name kind, t, h => by
      unfold substitute? at h ⊢
      split at h
      · next heq =>
          cases heq
          obtain ⟨e, he, rfl⟩ := Option.map_eq_some_iff.mp h
          obtain ⟨e', he', hreg⟩ := hb _ e he
          exact ⟨e'.negated, by simp [he'], hreg.negated⟩
      · next heq =>
          cases heq
          obtain ⟨e', he', hreg⟩ := hb _ t h
          exact ⟨e', he', hreg⟩
      all_goals next heq => cases heq
  | const _, t, h => ⟨t, h, .refl t⟩
  | symbol _, t, h => ⟨t, h, .refl t⟩
  | member _ _, t, h => ⟨t, h, .refl t⟩
  | op kind args, t, h => by
      rw [substitute?] at h ⊢
      obtain ⟨ts, hts, rfl⟩ := Option.map_eq_some_iff.mp h
      obtain ⟨ts', hts', hreg⟩ := substituteAll?_mono hb hts
      exact ⟨_, by rw [hts']; rfl, .opArgs kind false hreg⟩
  | call name args, t, h => by
      rw [substitute?] at h ⊢
      obtain ⟨ts, hts, rfl⟩ := Option.map_eq_some_iff.mp h
      obtain ⟨ts', hts', hreg⟩ := substituteAll?_mono hb hts
      exact ⟨_, by rw [hts']; rfl, .callArgs name hreg⟩

theorem substituteAll?_mono {b b' : Bindings} (hb : b.Within b') :
    ∀ {ps : List Pattern} {ts : List Expr}, substituteAll? b ps = some ts →
      ∃ ts', substituteAll? b' ps = some ts' ∧ List.Forall₂ Regrouped ts' ts
  | [], ts, h => by
      cases h
      exact ⟨[], rfl, .nil⟩
  | p :: ps, ts, h => by
      rw [substituteAll?] at h ⊢
      obtain ⟨t, ht, h⟩ := Option.bind_eq_some_iff.mp h
      obtain ⟨us, hus, h⟩ := Option.bind_eq_some_iff.mp h
      cases h
      obtain ⟨t', ht', hreg⟩ := substitute?_mono hb ht
      obtain ⟨us', hus', hregs⟩ := substituteAll?_mono hb hus
      exact ⟨t' :: us', by rw [ht', hus']; rfl, .cons hreg hregs⟩

end

/-- What a wildcard accepts is bound as it is, but for a negative constant, which is bound to its
magnitude. -/
theorem accept?_eq_some {context : Context} {kind : WildcardKind} {e value : Expr}
    (h : kind.accept? context e = some value) :
    (kind ≠ .constant true ∧ value = e) ∨
      kind = .constant true ∧ ∃ q, e = .const q ∧ value = .const (-q) := by
  cases kind with
  | constant negative =>
      cases negative with
      | false => simp only [WildcardKind.accept?] at h; split at h <;> simp_all
      | true =>
          simp only [WildcardKind.accept?] at h
          split at h
          · split at h <;> simp_all
          · cases h
  | any => simp [WildcardKind.accept?] at h; exact .inl ⟨by simp, h.symm⟩
  | _ =>
      simp only [WildcardKind.accept?] at h
      repeat' split at h
      all_goals simp_all

/-- A wildcard becomes the tree that it accepted. -/
theorem substitute?_single {context : Context} {kind : WildcardKind} (name : String)
    {e value : Expr} (h : kind.accept? context e = some value) :
    (wildcard name kind).substitute? (.single name value) = some e := by
  rcases accept?_eq_some h with ⟨hkind, rfl⟩ | ⟨rfl, q, rfl, rfl⟩
  · rw [substitute?]
    · simp
    · simpa using hkind
  · simp [substitute?, Expr.negated]

/-! ### Taking one argument out -/

/-- A choice is one member and the others. -/
theorem perm_of_mem_picks {α : Type} : ∀ {as : List α} {one : α} {others : List α},
    (one, others) ∈ picks as → as.Perm (one :: others) := by
  intro as
  induction as with
  | nil => intro one others h; cases h
  | cons a as ih =>
      intro one others h
      rcases List.mem_cons.mp h with h | h
      · cases h; exact .refl _
      · obtain ⟨⟨b, rest⟩, hmem, heq⟩ := List.mem_map.mp h
        cases heq
        exact ((ih hmem).cons a).trans (.swap _ _ _)

/-- A regrouped rest stands for the arguments it was made of. -/
theorem regroup_regrouped {kind : Op} (hkind : kind.isCommutative = true) (one : Expr)
    {others : List Expr} (hothers : others ≠ []) (i j : Bool) :
    Regrouped (.op kind [one, regroup kind i others] j) (.op kind (one :: others) j) := by
  unfold regroup
  split
  · exact .refl _
  · next hmany =>
      have hlength : 2 ≤ others.length := by
        match others with
        | [] => exact absurd rfl hothers
        | [only] => exact absurd rfl (hmany only)
        | _ :: _ :: _ => simp
      have h := Regrouped.flatten hkind hlength [one] [] j i
      rw [List.append_nil] at h
      exact h

/-- The two operands a sum or product is read as make it up again. -/
theorem splits_regrouped {kind : Op} (hkind : kind.isCommutative = true) {args : List Expr}
    (hargs : 2 ≤ args.length) {i : Bool} {left right : Expr}
    (h : (left, right) ∈ splits kind i args) (j : Bool) :
    Regrouped (.op kind [left, right] j) (.op kind args i) := by
  obtain ⟨⟨one, others⟩, hpick, hmem⟩ := List.mem_flatMap.mp h
  have hperm := perm_of_mem_picks hpick
  have hothers : others ≠ [] := by
    rintro rfl
    have := hperm.length_eq
    rw [List.length_singleton] at this
    omega
  have hall : Regrouped (.op kind [one, regroup kind i others] j) (.op kind args i) :=
    (regroup_regrouped hkind one hothers i j).trans
      ((Regrouped.perm hkind hperm.symm j).trans (.implicit kind args j i))
  simp only [List.mem_cons, Prod.mk.injEq, List.not_mem_nil, or_false] at hmem
  rcases hmem with ⟨rfl, rfl⟩ | ⟨rfl, rfl⟩
  · exact hall
  · exact (Regrouped.perm hkind (.swap _ _ _) j).trans hall

/-- What the patterns of an operator are matched with: the arguments one by one, or, in a sum or
product of two patterns, one argument and the rest. -/
inductive Operands (kind : Op) (args : List Expr) (i : Bool) : List Expr → Prop
  | args : Operands kind args i args
  | split (hkind : kind.isCommutative = true) (hlength : 2 ≤ args.length) {left right : Expr}
      (h : (left, right) ∈ splits kind i args) : Operands kind args i [left, right]

theorem Operands.regrouped {kind : Op} {args operands : List Expr} {i : Bool}
    (h : Operands kind args i operands) :
    Regrouped (.op kind operands false) (.op kind args i) := by
  cases h with
  | args => exact .implicit kind args false i
  | split hkind hlength h => exact splits_regrouped hkind hlength h false

theorem exists_operands_of_mem_matchExpr {context : Context} {kind : Op} {patterns : List Pattern}
    {e : Expr} {b : Bindings} (h : b ∈ matchExpr context (.op kind patterns) e) :
    ∃ args i operands, e = .op kind args i ∧ Operands kind args i operands ∧
      patterns.length = operands.length ∧ b ∈ matchArgs context patterns [.empty] operands := by
  cases e with
  | op kind' args i =>
      rw [matchExpr] at h
      split at h
      · cases h
      next hkind =>
        obtain rfl : kind = kind' := not_not.mp hkind
        split at h
        · next hcomm =>
            rcases Bindings.mem_foldl_of_mem_step
                (P := fun operands b =>
                  b ∈ matchArgs context patterns [.empty] [operands.1, operands.2])
                (fun _ _ _ => Bindings.mem_foldl_addNew) _ [] h with h | ⟨operands, hsplit, h⟩
            · cases h
            · exact ⟨args, i, _, rfl, .split hcomm.1 hcomm.2.2 hsplit, hcomm.2.1, h⟩
        · split at h
          · next hlength => exact ⟨args, i, args, rfl, .args, hlength, h⟩
          · cases h
  | _ => simp only [matchExpr, List.not_mem_nil] at h

/-- A function is matched through its arguments. -/
theorem exists_args_of_mem_matchExpr {context : Context} {name : String} {patterns : List Pattern}
    {e : Expr} {b : Bindings} (h : b ∈ matchExpr context (.call name patterns) e) :
    ∃ args, e = .call name args ∧ patterns.length = args.length ∧
      b ∈ matchArgs context patterns [.empty] args := by
  cases e with
  | call name' args =>
      rw [matchExpr] at h
      split at h
      · next hboth =>
          obtain ⟨rfl, hlength⟩ := hboth
          exact ⟨args, rfl, hlength, h⟩
      · cases h
  | _ => simp only [matchExpr, List.not_mem_nil] at h

/-! ### Matches are sound -/

mutual

/-- **Under the bindings of a match the pattern becomes a regrouping of the tree.** -/
theorem substitute?_of_mem_matchExpr {context : Context} : ∀ {p : Pattern} {e : Expr}
    {b : Bindings}, b ∈ matchExpr context p e → ∃ t, p.substitute? b = some t ∧ t.Regrouped e
  | wildcard name kind, e, b, h => by
      rw [matchExpr] at h
      split at h
      · next value hvalue =>
          obtain rfl := List.mem_singleton.mp h
          exact ⟨e, substitute?_single name hvalue, .refl e⟩
      · cases h
  | const p, e, b, h => by
      cases e <;> simp only [matchExpr, List.not_mem_nil] at h
      split at h
      · next heq => exact ⟨_, rfl, heq ▸ .refl _⟩
      · cases h
  | symbol name, e, b, h => by
      cases e <;> simp only [matchExpr, List.not_mem_nil] at h
      split at h
      · next heq => exact ⟨_, rfl, heq ▸ .refl _⟩
      · cases h
  | member object index, e, b, h => by
      cases e <;> simp only [matchExpr, List.not_mem_nil] at h
      split at h
      · next heq => exact ⟨_, rfl, heq.1 ▸ heq.2 ▸ .refl _⟩
      · cases h
  | op kind patterns, e, b, h => by
      obtain ⟨args, i, operands, rfl, hoperands, hlength, hb⟩ := exists_operands_of_mem_matchExpr h
      obtain ⟨-, -, -, ts, hts, hregs⟩ := substituteAll?_of_mem_matchArgs hlength hb
      exact ⟨.op kind ts false, by rw [substitute?, hts]; rfl,
        (Regrouped.opArgs kind false hregs).trans hoperands.regrouped⟩
  | call name patterns, e, b, h => by
      obtain ⟨args, rfl, hlength, hb⟩ := exists_args_of_mem_matchExpr h
      obtain ⟨-, -, -, ts, hts, hregs⟩ := substituteAll?_of_mem_matchArgs hlength hb
      exact ⟨.call name ts, by rw [substitute?, hts]; rfl, Regrouped.callArgs name hregs⟩

/-- What is found for a row of patterns holds one of the bindings found before it. -/
theorem substituteAll?_of_mem_matchArgs {context : Context} : ∀ {ps : List Pattern}
    {found : List Bindings} {es : List Expr} {b : Bindings}, ps.length = es.length →
      b ∈ matchArgs context ps found es →
      ∃ b₀ ∈ found, b₀.Within b ∧ ∃ ts, substituteAll? b ps = some ts ∧
        List.Forall₂ Regrouped ts es
  | [], found, [], b, _, h => by
      rw [matchArgs] at h
      · exact ⟨b, h, .refl b, [], rfl, .nil⟩
      · simp
  | p :: ps, found, e :: es, b, hlength, h => by
      rw [matchArgs] at h
      split at h
      · cases h
      · obtain ⟨b₁, hb₁, hwithin, ts, hts, hregs⟩ :=
          substituteAll?_of_mem_matchArgs (by simpa using hlength) h
        obtain ⟨l, hl, r, hr, hagree, rfl⟩ := Bindings.mem_merge hb₁
        obtain ⟨t, ht, hreg⟩ := substitute?_of_mem_matchExpr hr
        obtain ⟨t', ht', hreg'⟩ :=
          substitute?_mono ((Bindings.right_within_union l r).trans hwithin) ht
        exact ⟨l, hl, (Bindings.left_within_union hagree).trans hwithin, t' :: ts,
          by rw [substituteAll?, ht', hts]; rfl, .cons (hreg'.trans hreg) hregs⟩

end

/-! ### Matches with two arguments of a longer sum or product -/

theorem mem_orderedPairs {α : Type} {as : List α} {left right : α} {i j : Nat}
    (h : ((left, right), (i, j)) ∈ orderedPairs as) :
    i ≠ j ∧ as[i]? = some left ∧ as[j]? = some right := by
  obtain ⟨⟨a, i'⟩, ha, h⟩ := List.mem_flatMap.mp h
  obtain ⟨⟨b, j'⟩, hb, h⟩ := List.mem_filterMap.mp h
  simp only at h
  split at h
  · cases h
  · next hne =>
      cases h
      exact ⟨hne, List.mem_zipIdx_iff_getElem?.mp ha, List.mem_zipIdx_iff_getElem?.mp hb⟩

/-- Two members of a list give way to one, at the place of the first of them: whatever the one is,
the others are the same. -/
theorem replaceTwo_perm {α : Type} {as : List α} {left right : α} {i j : Nat} (hne : i ≠ j)
    (hi : as[i]? = some left) (hj : as[j]? = some right) :
    ∃ others, as.Perm (left :: right :: others) ∧
      ∀ one, ((as.set (min i j) one).eraseIdx (max i j)).Perm (one :: others) := by
  wlog hlt : i < j generalizing i j left right
  · obtain ⟨others, hperm, hone⟩ := this hne.symm hj hi (by omega)
    exact ⟨others, hperm.trans (.swap _ _ _), by simpa [min_comm, max_comm] using hone⟩
  obtain ⟨hj', rfl⟩ := List.getElem?_eq_some_iff.mp hj
  obtain ⟨hi', rfl⟩ := List.getElem?_eq_some_iff.mp hi
  have hlength : i < (as.eraseIdx j).length := by rw [List.length_eraseIdx_of_lt hj']; omega
  have hget : (as.eraseIdx j)[i] = as[i] := List.getElem_eraseIdx_of_lt hlength hlt
  refine ⟨(as.eraseIdx j).eraseIdx i, ?_, fun one => ?_⟩
  · refine (List.getElem_cons_eraseIdx_perm hj').symm.trans ?_
    have hfirst := List.getElem_cons_eraseIdx_perm hlength
    rw [hget] at hfirst
    exact (hfirst.symm.cons _).trans (.swap _ _ _)
  · rw [Nat.min_eq_left hlt.le, Nat.max_eq_right hlt.le, List.eraseIdx_set_gt hlt]
    exact List.set_perm_cons_eraseIdx hlength one

/-- The replaced arguments stand around the new one, whatever it is. -/
theorem replaceMatched_extraction (kind : Op) (args : List Expr) (implicit : Bool) {i j : Nat}
    (hi : i < args.length) (hj : j < args.length) (hne : i ≠ j) :
    ∃ before after, ∀ new, Rule.replaceMatched (.op kind args implicit) (some (i, j)) new =
      .op kind (before ++ new :: after) implicit := by
  have hlt : min i j < max i j := by omega
  have hmin : min i j < args.length := by omega
  refine ⟨args.take (min i j), (args.drop (min i j + 1)).eraseIdx (max i j - min i j - 1),
    fun new => ?_⟩
  rw [Rule.replaceMatched, List.set_eq_take_append_cons_drop, if_pos hmin,
    List.eraseIdx_append_of_length_le (by rw [List.length_take]; omega), List.length_take,
    Nat.min_eq_left hmin.le]
  obtain ⟨k, hk⟩ : ∃ k, max i j - min i j = k + 1 := ⟨max i j - min i j - 1, by omega⟩
  rw [hk, List.eraseIdx_cons_succ, Nat.add_sub_cancel]

/-- A match of two patterns with the arguments at two places of a longer sum or product. -/
structure IsPairMatch (context : Context) (kind : Op) (patterns : List Pattern) (args : List Expr)
    (i j : Nat) (left right : Expr) (found : Match) : Prop where
  commutative : kind.isCommutative = true
  longer : 2 < args.length
  extraction : found.extraction = some (i, j)
  ne : i ≠ j
  first : args[i]? = some left
  second : args[j]? = some right
  length : patterns.length = [left, right].length
  bindings : found.bindings ∈ matchArgs context patterns [.empty] [left, right]

theorem exists_pair_of_mem_extractions {context : Context} {p : Pattern} {e : Expr}
    {ms : List Match} (hms : p.extractions? context e = .ok ms) {found : Match} (h : found ∈ ms) :
    ∃ kind patterns args implicit i j left right, p = .op kind patterns ∧
      e = .op kind args implicit ∧
        IsPairMatch context kind patterns args i j left right found := by
  unfold extractions? at hms
  split at hms
  · next kind patterns kind' args implicit =>
      split at hms
      · cases hms; cases h
      · next hcond =>
          obtain ⟨rfl, hsplit, hlonger⟩ :
              kind = kind' ∧ (op kind patterns).isSplittable = true ∧ 2 < args.length := by
            simpa using hcond
          obtain ⟨hcomm, hlength⟩ : kind.isCommutative = true ∧ patterns.length = 2 := by
            unfold isSplittable at hsplit
            split at hsplit
            · next heq => cases heq; exact ⟨hsplit, rfl⟩
            · cases hsplit
          obtain ⟨_, -, hms⟩ := bind_eq_ok.mp hms
          obtain rfl := Except.ok.inj hms
          obtain ⟨⟨⟨left, right⟩, i, j⟩, hpair, hmem⟩ := List.mem_flatMap.mp h
          obtain ⟨b, hb, rfl⟩ := List.mem_map.mp hmem
          obtain ⟨hne, hleft, hright⟩ := mem_orderedPairs hpair
          exact ⟨kind, patterns, args, implicit, i, j, left, right, rfl, rfl, hcomm, hlonger,
            rfl, hne, hleft, hright, hlength, hb⟩
  · cases hms; cases h

/-- The node that was matched holds the two arguments. -/
theorem IsPairMatch.matchedNode_eq {context : Context} {kind : Op} {patterns : List Pattern}
    {args : List Expr} {i j : Nat} {left right : Expr} {found : Match}
    (h : IsPairMatch context kind patterns args i j left right found) (implicit : Bool) :
    Rule.matchedNode (.op kind args implicit) (some (i, j)) = .op kind [left, right] implicit := by
  rw [Rule.matchedNode, h.first, h.second]
  rfl

/-- The pattern becomes a regrouping of the node that was matched, and in the place of the two
arguments the node is a regrouping of itself. -/
theorem IsPairMatch.substitute {context : Context} {kind : Op} {patterns : List Pattern}
    {args : List Expr} {implicit : Bool} {i j : Nat} {left right : Expr} {found : Match}
    (h : IsPairMatch context kind patterns args i j left right found) :
    ∃ t, (op kind patterns).substitute? found.bindings = some t ∧
      t.Regrouped (Rule.matchedNode (.op kind args implicit) (some (i, j))) ∧
      (Rule.replaceMatched (.op kind args implicit) (some (i, j)) t).Regrouped
        (.op kind args implicit) := by
  obtain ⟨-, -, -, ts, hts, hregs⟩ := substituteAll?_of_mem_matchArgs h.length h.bindings
  obtain ⟨others, hperm, hone⟩ := replaceTwo_perm h.ne h.first h.second
  have hpair : 2 ≤ [left, right].length := Nat.le_refl 2
  refine ⟨.op kind ts false, by rw [substitute?, hts]; rfl, ?_, ?_⟩
  · rw [h.matchedNode_eq]
    exact (Regrouped.opArgs kind false hregs).trans (.implicit kind _ false implicit)
  refine (Regrouped.perm h.commutative (hone _) implicit).trans ?_
  refine (Regrouped.opArg kind [] others implicit (.opArgs kind false hregs)).trans ?_
  refine (Regrouped.flatten h.commutative hpair [] others implicit false).trans ?_
  exact .perm h.commutative hperm.symm implicit

end Pattern

namespace Rule

open Pattern

/-- A match of a rule with a node: the left pattern becomes what was matched, and in the place of
the match the node is a regrouping of itself. -/
structure Fits (rule : Rule) (e : Expr) (found : Match) (matched : Expr) : Prop where
  substitute : rule.lhs.substitute? found.bindings = some matched
  regrouped : (replaceMatched e found.extraction matched).Regrouped e
  /-- Only one place of the node depends on what is put there. -/
  place : (∀ new, replaceMatched e found.extraction new = new) ∨
    ∃ kind before after i, ∀ new,
      replaceMatched e found.extraction new = .op kind (before ++ new :: after) i

theorem fits_of_mem_extractions {context : Context} {rule : Rule} {e : Expr} {ms : List Match}
    (hms : rule.lhs.extractions? context e = .ok ms) {found : Match} (h : found ∈ ms) :
    ∃ matched, rule.Fits e found matched := by
  obtain ⟨kind, patterns, args, implicit, i, j, left, right, hlhs, rfl, hpair⟩ :=
    exists_pair_of_mem_extractions hms h
  obtain ⟨t, ht, -, hreg⟩ := hpair.substitute
  rw [← hlhs] at ht
  refine ⟨t, ht, ?_, .inr ?_⟩
  · rw [hpair.extraction]
    exact hreg
  · obtain ⟨before, after, hplace⟩ := replaceMatched_extraction kind args implicit
      (List.getElem?_eq_some_iff.mp hpair.first).1 (List.getElem?_eq_some_iff.mp hpair.second).1
      hpair.ne
    exact ⟨kind, before, after, implicit, by rw [hpair.extraction]; exact hplace⟩

/-- A rule is matched with two arguments of the node, or else with the whole node. -/
theorem findMatches_cases {context : Context} {rule : Rule} {e : Expr} {ms : List Match}
    (hms : rule.findMatches context e = .ok ms) : rule.lhs.extractions? context e = .ok ms ∨
      ms = (matchExpr context rule.lhs e).map fun b => ⟨b, none⟩ := by
  obtain ⟨direct, hdirect, hms⟩ := bind_eq_ok.mp hms
  obtain ⟨_, -, hdirect⟩ := bind_eq_ok.mp hdirect
  obtain rfl := Except.ok.inj hdirect
  split at hms
  · exact .inl hms
  · exact .inr (Except.ok.inj hms).symm

/-- **Every match of a rule fits.** -/
theorem fits_of_mem_findMatches {context : Context} {rule : Rule} {e : Expr} {ms : List Match}
    (hms : rule.findMatches context e = .ok ms) {found : Match} (h : found ∈ ms) :
    ∃ matched, rule.Fits e found matched := by
  rcases findMatches_cases hms with hms | rfl
  · exact fits_of_mem_extractions hms h
  · obtain ⟨b, hb, rfl⟩ := List.mem_map.mp h
    obtain ⟨matched, hmatched, hreg⟩ := substitute?_of_mem_matchExpr hb
    exact ⟨matched, hmatched, hreg, .inl fun _ => rfl⟩

end Rule

end AlgebraTutor
