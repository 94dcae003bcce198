/-
The key of a tree tells how it is printed inside a larger tree.

Whether an argument gets parentheses, a sign or a juxtaposition depends on the tree of the argument,
not on its text.  For the trees that normal forms are made of, all of this can be read off the text:
how tightly it binds from the phrase it is read as, whether it is a coefficient and where a sign or
an opening parenthesis stands from its characters.  The hard part is a term that loses its minus
sign.  Its operand may lose the parentheses along with the sign, and the text has to tell which
closing parenthesis goes with the opening one; that is so because what is printed is balanced.

Different trees can have one key, such as the constant `2/3` and the quotient of `2` and `3`.  So
nothing here follows from the trees being equal, for they need not be.
-/
import AlgebraTutor.Proofs.RoundTrip
import AlgebraTutor.Proofs.BalancedKeys

namespace AlgebraTutor

open Token

namespace Expr

/-! ### Regular trees -/

/-- The trees that normal forms are made of: sums and products have at least two arguments, and the
sign of a constant is part of it. -/
inductive Regular : Expr → Prop
  | const (q : Rat) : Regular (const q)
  | symbol {name : String} (hname : isIdentifier name.toList = true) : Regular (symbol name)
  | member {object index : String} (hobject : isIdentifier object.toList = true)
      (hindex : isIdentifier index.toList = true) : Regular (member object index)
  | sum {first second : Expr} {rest : List Expr} {i : Bool}
      (hargs : ∀ arg ∈ first :: second :: rest, Regular arg) :
      Regular (op .add (first :: second :: rest) i)
  | product {first second : Expr} {rest : List Expr} {i : Bool}
      (hargs : ∀ arg ∈ first :: second :: rest, Regular arg) :
      Regular (op .mul (first :: second :: rest) i)
  | quotient {a b : Expr} {i : Bool} (ha : Regular a) (hb : Regular b) :
      Regular (op .div [a, b] i)
  | power {a b : Expr} {i : Bool} (ha : Regular a) (hb : Regular b) : Regular (op .pow [a, b] i)
  | negation {a : Expr} {i : Bool} (hconst : a.isConstant = false) (ha : Regular a) :
      Regular (op .neg [a] i)
  | call {name : String} {args : List Expr} (hname : isIdentifier name.toList = true)
      (hargs : ∀ arg ∈ args, Regular arg) : Regular (call name args)

namespace Regular

variable {e : Expr}

theorem isWellFormed (h : Regular e) : e.isWellFormed = true := by
  induction h with
  | const q => rfl
  | symbol hname => exact hname
  | member hobject hindex => exact Bool.and_eq_true_iff.mpr ⟨hobject, hindex⟩
  | sum _ ih => exact isWellFormed_op.mpr ⟨rfl, ih⟩
  | product _ ih => exact isWellFormed_op.mpr ⟨rfl, ih⟩
  | quotient _ _ iha ihb => exact isWellFormed_op.mpr ⟨rfl, by simp [iha, ihb]⟩
  | power _ _ iha ihb => exact isWellFormed_op.mpr ⟨rfl, by simp [iha, ihb]⟩
  | negation _ _ ih => exact isWellFormed_op.mpr ⟨rfl, by simp [ih]⟩
  | call hname _ ih => exact isWellFormed_call.mpr ⟨hname, ih⟩

theorem isLone (h : Regular e) : e.isLone = false := by
  cases h <;> rfl

end Regular

/-! ### How tightly a key binds -/

/-- A text is read in one way. -/
theorem phrase_unique {text : List Char} {p q : Phrase} (hp : Derives .expr (lexemes text) p [])
    (hq : Derives .expr (lexemes text) q []) : p = q := by
  have htext : text = (String.ofList text).toList := (String.toList_ofList).symm
  rw [htext] at hp hq
  obtain ⟨f, hf, rfl⟩ := Formula.parse_of_derives hp
  obtain ⟨g, hg, rfl⟩ := Formula.parse_of_derives hq
  rw [hf] at hg
  cases hg
  rfl

/-- **Keys that are equal bind equally tightly.** -/
theorem tightness_eq_of_render_eq {a b : Expr} (ha : Regular a) (hb : Regular b)
    (h : render .compact a = render .compact b) : a.tightness = b.tightness := by
  have hphrase {e : Expr} (he : Regular e) : ∃ p : Phrase, p.tightness = e.tightness ∧
      Derives .expr (lexemes (render .compact e)) p [] := by
    obtain ⟨p, hp, hderives⟩ :=
      (printable .compact e he.isWellFormed nofun).sum.derives_expr (Follows.nil true)
    rw [List.append_nil, lexemes_nil] at hderives
    exact ⟨p, hp.tightness he.isLone, hderives⟩
  obtain ⟨p, hp, hpa⟩ := hphrase ha
  obtain ⟨q, hq, hqb⟩ := hphrase hb
  rw [← h] at hqb
  rw [← hp, ← hq, phrase_unique hpa hqb]

/-! ### How a key begins -/

/-- The number of a constant begins with its sign, or with a digit. -/
theorem starts_constText (q : Rat) : ∃ c text, constText q = c :: text ∧
    (q < 0 → c = '-') ∧ (¬q < 0 → c.isDigit = true) := by
  have hwritten {text numeral : List Char} {q : Rat} (h : Writes text q numeral) :
      ∃ c rest, text = c :: rest ∧ (q < 0 → c = '-') ∧ (¬q < 0 → c.isDigit = true) := by
    obtain ⟨c, rest, hc, hdigit⟩ : ∃ c rest, numeral = c :: rest ∧ c.isDigit = true := by
      cases h.isNumeral with
      | whole hne hdigits =>
          obtain ⟨c, rest, rfl⟩ := List.exists_cons_of_ne_nil hne
          exact ⟨c, rest, rfl, hdigits c (List.mem_cons_self ..)⟩
      | pointed hne _ hdigits _ =>
          obtain ⟨c, rest, rfl⟩ := List.exists_cons_of_ne_nil hne
          exact ⟨c, _, rfl, hdigits c (List.mem_cons_self ..)⟩
    rw [h.text]
    by_cases hneg : q < 0
    · exact ⟨'-', numeral, if_pos hneg, fun _ => rfl, fun h => absurd hneg h⟩
    · exact ⟨c, rest, (if_neg hneg).trans hc, fun h => absurd h hneg, fun _ => hdigit⟩
  rcases constText_cases q with ⟨numeral, hwrites, -⟩ | ⟨-, htext⟩
  · exact hwritten hwrites
  · obtain ⟨c, rest, hc, hneg, hdigit⟩ := hwritten (intText_writes q.num)
    have hsign : ((q.num : Int) : Rat) < 0 ↔ q < 0 := by
      rw [Int.cast_lt_zero, Rat.num_neg]
    rw [hsign] at hneg hdigit
    exact ⟨c, rest ++ '/' :: natText q.den, by rw [htext, hc, List.cons_append], hneg, hdigit⟩

/-- What the first character of a key tells. -/
structure BeginsWith (e : Expr) (c : Char) : Prop where
  text : ∃ rest, render .compact e = c :: rest
  startsNegative : e.startsNegative = true ↔ 1 < e.tightness ∧ c = '-'
  opens : e.startsWithNameOrParen = true ↔
    e.tightness ≤ 1 ∨ 4 ≤ e.tightness ∧ c.isDigit = false

theorem BeginsWith.wrap {e : Expr} {c : Char} (h : e.BeginsWith c) (needed : Bool) :
    ∃ rest, wrap needed (render .compact e) = (if needed then '(' else c) :: rest := by
  obtain ⟨rest, htext⟩ := h.text
  cases needed with
  | true => exact ⟨_, rfl⟩
  | false => exact ⟨rest, htext⟩

theorem lt_tightness_const (q : Rat) : 1 < (const q).tightness := by
  rw [tightness]
  split_ifs <;> decide

/-- What binds tightly does not begin with a sign. -/
theorem startsNegative_eq_false {e : Expr} (h : 4 ≤ e.tightness) : e.startsNegative = false := by
  cases e with
  | const q =>
      rw [startsNegative, decide_eq_false_iff_not]
      intro hneg
      rw [tightness, if_pos hneg] at h
      split at h <;> omega
  | op kind args i => cases kind <;> simp_all [tightness, startsNegative]
  | _ => rfl

theorem exists_beginsWith_of_named {e : Expr} (hwell : e.isWellFormed = true)
    (htight : e.tightness = 5) (hopens : e.startsWithNameOrParen = true) :
    ∃ c, e.BeginsWith c := by
  obtain ⟨c, rest, htext, hc⟩ := starts_of_named hwell (by omega) hopens
  refine ⟨c, ⟨rest, htext⟩, ?_, ?_⟩
  · rw [startsNegative_eq_false (by omega)]
    refine ⟨nofun, ?_⟩
    rintro ⟨-, rfl⟩
    cases hc
  · rw [hopens, isDigit_of_isNameStart hc]
    exact ⟨fun _ => .inr ⟨by omega, rfl⟩, fun _ => rfl⟩

/-- A product or a quotient begins like its first operand. -/
theorem exists_beginsWith_of_first {e first : Expr} {rest : List Char}
    (htext : render .compact e = wrap (first.tightness ≤ 1) (render .compact first) ++ rest)
    (htight : e.tightness = 2) (hnegative : e.startsNegative = first.startsNegative)
    (hopens : e.startsWithNameOrParen = false) (h : ∃ c, first.BeginsWith c) :
    ∃ c, e.BeginsWith c := by
  obtain ⟨c, hc⟩ := h
  obtain ⟨more, hmore⟩ := hc.wrap (first.tightness ≤ 1)
  rw [hmore] at htext
  refine ⟨_, ⟨_, htext⟩, ?_, ?_⟩
  · rw [hnegative, hc.startsNegative, htight]
    by_cases hwrapped : first.tightness ≤ 1
    · simp [hwrapped]
    · simp [hwrapped]
      omega
  · rw [hopens, htight]
    simp

theorem exists_beginsWith_power {a b : Expr} {i : Bool} (h : ∃ c, a.BeginsWith c) :
    ∃ c, (op .pow [a, b] i).BeginsWith c := by
  obtain ⟨c, hc⟩ := h
  have htight : (op .pow [a, b] i).tightness = 4 := rfl
  have hnegative : (op .pow [a, b] i).startsNegative = false := rfl
  have hopens : (op .pow [a, b] i).startsWithNameOrParen = true ↔
      a.startsWithNameOrParen = true ∨ a.tightness < 5 := by
    rw [startsWithNameOrParen, Bool.or_eq_true, decide_eq_true_eq]
  by_cases hwrapped : a.tightness ≤ 4
  · refine ⟨'(', ⟨_, by rw [render_pow, decide_eq_true hwrapped]; rfl⟩, ?_, ?_⟩
    · rw [hnegative]
      simp
    · rw [hopens, htight]
      exact ⟨fun _ => .inr ⟨Nat.le_refl 4, rfl⟩, fun _ => .inr (by omega)⟩
  · obtain ⟨more, hmore⟩ := hc.text
    refine ⟨c, ⟨_, by rw [render_pow, decide_eq_false hwrapped, wrap_false, hmore]; rfl⟩, ?_, ?_⟩
    · have hbase := hc.startsNegative
      rw [startsNegative_eq_false (by omega)] at hbase
      rw [hnegative, htight, hbase]
      simp
      omega
    · rw [hopens, hc.opens, htight]
      constructor
      · rintro ((h | h) | h)
        · omega
        · exact .inr ⟨Nat.le_refl 4, h.2⟩
        · omega
      · rintro (h | h)
        · omega
        · exact .inl (.inr ⟨by omega, h.2⟩)

theorem exists_beginsWith {e : Expr} (h : Regular e) : ∃ c, e.BeginsWith c := by
  induction h with
  | const q =>
      obtain ⟨c, rest, htext, hneg, hdigit⟩ := starts_constText q
      refine ⟨c, ⟨rest, by rw [render, htext]⟩, ?_, ?_⟩
      · rw [startsNegative, decide_eq_true_eq]
        refine ⟨fun h => ⟨lt_tightness_const q, hneg h⟩, ?_⟩
        rintro ⟨-, rfl⟩
        by_contra hq
        cases hdigit hq
      · refine ⟨fun h => absurd h Bool.false_ne_true, ?_⟩
        rintro (h | ⟨h, hc⟩)
        · exact absurd (lt_tightness_const q) (not_lt.mpr h)
        · have hq := startsNegative_eq_false h
          rw [startsNegative, decide_eq_false_iff_not] at hq
          rw [hdigit hq] at hc
          cases hc
  | symbol hname => exact exists_beginsWith_of_named hname rfl rfl
  | member hobject hindex =>
      exact exists_beginsWith_of_named (Regular.member hobject hindex).isWellFormed rfl rfl
  | call hname hargs _ =>
      exact exists_beginsWith_of_named (Regular.call hname hargs).isWellFormed rfl rfl
  | @sum first second rest i hargs ih =>
      obtain ⟨c, hc⟩ := ih first (List.mem_cons_self ..)
      obtain ⟨more, hmore⟩ := hc.text
      refine ⟨c, ⟨more ++ laterTerms .compact (second :: rest), ?_⟩, ?_, ?_⟩
      · rw [render, hmore, List.cons_append]
      · simp [startsNegative, tightness]
      · simp [startsWithNameOrParen, tightness]
  | product _ ih =>
      exact exists_beginsWith_of_first (render_mul_cons ..) rfl rfl rfl
        (ih _ (List.mem_cons_self ..))
  | quotient _ _ ih => exact exists_beginsWith_of_first (render_div ..) rfl rfl rfl ih
  | power _ _ ih => exact exists_beginsWith_power ih
  | @negation a i _ _ _ =>
      refine ⟨'-', ⟨_, render_neg i⟩, ?_, ?_⟩
      · simp [startsNegative, tightness]
      · simp [startsWithNameOrParen, tightness]

/-! ### Coefficients -/

theorem exists_not_isNumberChar {e : Expr} (hwell : e.isWellFormed = true)
    (htight : e.tightness = 5) (hopens : e.startsWithNameOrParen = true) :
    ¬∀ c ∈ render .compact e, isNumberChar c = true := by
  obtain ⟨c, rest, htext, hc⟩ : ∃ c rest, render .compact e = c :: rest ∧ isNameStart c = true :=
    starts_of_named hwell (by omega) hopens
  intro h
  have hnumber := h c (by rw [htext]; exact List.mem_cons_self ..)
  rw [isNumberChar, isDigit_of_isNameStart hc, Bool.false_or, Bool.or_eq_true, beq_iff_eq,
    beq_iff_eq] at hnumber
  rcases hnumber with rfl | rfl <;> cases hc

/-- Among what binds tightly, constants are told from other trees by their characters. -/
theorem isConstant_iff {e : Expr} (h : Regular e) (htight : 3 ≤ e.tightness) :
    e.isConstant = true ↔ ∀ c ∈ render .compact e, isNumberChar c = true := by
  induction h with
  | const q =>
      refine iff_of_true rfl ?_
      rw [render]
      rcases constText_cases q with ⟨numeral, hwrites, -⟩ | ⟨hfraction, -⟩
      · exact isNumberChar_of_writes hwrites
      · omega
  | symbol hname => exact iff_of_false Bool.false_ne_true (exists_not_isNumberChar hname rfl rfl)
  | member hobject hindex =>
      exact iff_of_false Bool.false_ne_true
        (exists_not_isNumberChar (Regular.member hobject hindex).isWellFormed rfl rfl)
  | call hname hargs _ =>
      exact iff_of_false Bool.false_ne_true
        (exists_not_isNumberChar (Regular.call hname hargs).isWellFormed rfl rfl)
  | sum _ ih => simp [tightness] at htight
  | product _ ih => simp [tightness] at htight
  | quotient _ _ ih => simp [tightness] at htight
  | power _ _ ih =>
      refine iff_of_false Bool.false_ne_true fun h => ?_
      have hcaret := h '^' (by simp [render_pow])
      cases hcaret
  | @negation a i hconst _ ih =>
      refine iff_of_false Bool.false_ne_true fun h => ?_
      rw [render_neg] at h
      by_cases hwrapped : a.tightness ≤ 3
      · have hopening := h '(' (by simp [hwrapped, wrap])
        cases hopening
      · rw [decide_eq_false hwrapped, wrap_false] at h
        have hoperand := (ih (by omega)).mpr fun c hc => h c (List.mem_cons_of_mem _ hc)
        rw [hconst] at hoperand
        cases hoperand

/-! ### Terms without their sign -/

theorem intText_of_neg {k : Int} (h : k < 0) : intText k = '-' :: intText (-k) := by
  obtain ⟨n, rfl⟩ := Int.eq_negSucc_of_lt_zero h
  rfl

/-- The text of a negative number is that of its magnitude, after a sign. -/
theorem decimalText?_of_neg {q : Rat} (h : q < 0) :
    decimalText? q = (decimalText? (-q)).map ('-' :: ·) := by
  have hnum : q.num < 0 := Rat.num_neg.mpr h
  unfold decimalText?
  rw [Rat.neg_den, Rat.neg_num, Int.natAbs_neg]
  split
  · rw [intText_of_neg hnum, Option.map_some]
  · cases decimalPlaces? q.den with
    | none => rfl
    | some places =>
        have hpos : ¬-q.num < 0 := by omega
        simp only [Option.map_some, if_neg hpos]

theorem constText_of_neg {q : Rat} (h : q < 0) : constText q = '-' :: constText (-q) := by
  have hnum : q.num < 0 := Rat.num_neg.mpr h
  unfold constText
  rw [decimalText?_of_neg h]
  cases decimalText? (-q) with
  | some text => rfl
  | none =>
      unfold ratioText
      rw [Rat.neg_den, Rat.neg_num, intText_of_neg hnum]
      simp only [Option.map_none, Option.getD_none, List.cons_append]
      split <;> rfl

/-- A constant is a coefficient if its text is no fraction. -/
def isCoefficient (e : Expr) : Bool := e.isConstant && decide (3 ≤ e.tightness)

theorem juxtaposes_compact (i isSecond : Bool) (previous factor : Expr) :
    juxtaposes .compact i isSecond previous factor =
      (isSecond && previous.isCoefficient && factor.startsWithNameOrParen) := by
  simp [juxtaposes, isCoefficient, Bool.and_assoc]

theorem isCoefficient_of_neg {q : Rat} (h : q < 0) :
    (const (-q)).isCoefficient = (const q).isCoefficient := by
  have htight : (3 ≤ (const (-q)).tightness) = (3 ≤ (const q).tightness) := by
    simp only [tightness, decimalText?_of_neg h, Rat.neg_den, Option.isNone_map]
    split_ifs <;> simp
  simp [isCoefficient, isConstant, constant?, htight]

/-- What a term loses with its minus sign.  A constant loses the sign only.  Where the sign belongs
to a negation, its operand `a` may lose parentheses too; what comes after it is `after`. -/
inductive SignLoss (e positive : Expr) : Prop
  | constant (c : Char) (rest : List Char) (hc : c.isDigit = true)
      (htext : render .compact e = '-' :: c :: rest)
      (hpositive : wrap (positive.tightness ≤ 1) (render .compact positive) = c :: rest)
  | negation (a : Expr) (after : List Char) (ha : Regular a)
      (hafter : after.head? ≠ some '^')
      (hconstant : e.isConstant = false)
      (htext : render .compact e =
        '-' :: (wrap (a.tightness ≤ 3) (render .compact a) ++ after))
      (hpositive : wrap (positive.tightness ≤ 1) (render .compact positive) =
        wrap (a.tightness ≤ 1) (render .compact a) ++ after)

/-- What follows a term is not touched when the term loses its sign. -/
theorem SignLoss.append {first q e positive : Expr} (h : SignLoss first q) (more : List Char)
    (hconstant : e.isConstant = false) (hmore : first.isConstant = false → more.head? ≠ some '^')
    (htext : render .compact e = render .compact first ++ more)
    (hpositive : wrap (positive.tightness ≤ 1) (render .compact positive) =
      wrap (q.tightness ≤ 1) (render .compact q) ++ more) : SignLoss e positive := by
  cases h with
  | constant c rest hc hfirst hq =>
      rw [hfirst, List.cons_append, List.cons_append] at htext
      rw [hq, List.cons_append] at hpositive
      exact .constant c _ hc htext hpositive
  | negation a after ha hafter hnot hfirst hq =>
      rw [hfirst, List.cons_append, List.append_assoc] at htext
      rw [hq, List.append_assoc] at hpositive
      refine .negation a _ ha ?_ hconstant htext hpositive
      cases after with
      | nil => exact hmore hnot
      | cons c after => exact hafter

theorem laterFactors_congr {previous previous' : Expr} (i isSecond : Bool)
    (h : previous.isCoefficient = previous'.isCoefficient) (factors : List Expr) :
    laterFactors .compact i isSecond previous (renderAll .compact factors) =
      laterFactors .compact i isSecond previous' (renderAll .compact factors) := by
  cases factors with
  | nil => rw [renderAll, laterFactors, laterFactors]
  | cons factor factors =>
      rw [laterFactors_cons, laterFactors_cons, juxtaposes_compact, juxtaposes_compact, h]

theorem head?_laterFactors {previous : Expr} (i isSecond : Bool)
    (h : previous.isConstant = false) (factors : List Expr) :
    (laterFactors .compact i isSecond previous (renderAll .compact factors)).head? ≠ some '^' := by
  cases factors with
  | nil => simp [renderAll, laterFactors]
  | cons factor factors =>
      rw [laterFactors_cons, juxtaposes_compact]
      simp [isCoefficient, h, signText]

theorem signLoss_of_withoutMinus? {e : Expr} : ∀ {positive : Expr}, Regular e →
    withoutMinus? e = some positive →
      1 < e.tightness ∧ positive.isCoefficient = e.isCoefficient ∧ SignLoss e positive := by
  fun_induction withoutMinus? e with
  | case1 q hneg =>
      intro positive he h
      cases h
      obtain ⟨c, rest, htext, -, hdigit⟩ := starts_constText (-q)
      have hnot : ¬-q < 0 := by linarith
      refine ⟨lt_tightness_const q, isCoefficient_of_neg hneg,
        .constant c rest (hdigit hnot) ?_ ?_⟩
      · rw [render, constText_of_neg hneg, htext]
      · rw [decide_eq_false (not_le.mpr (lt_tightness_const _)), wrap_false, render, htext]
  | case2 q hneg => intro positive he h; cases h
  | case3 operand rest i =>
      intro positive he h
      cases h
      cases he with
      | negation hconst ha =>
          refine ⟨Nat.lt_of_sub_eq_succ rfl, ?_, .negation operand [] ha (by simp) rfl ?_ ?_⟩
          · rw [isCoefficient, hconst]
            rfl
          · rw [render_neg, List.append_nil]
          · rw [List.append_nil]
  | case4 first rest i ih =>
      intro positive he h
      obtain ⟨q, hq, rfl⟩ := Option.map_eq_some_iff.1 h
      cases he with
      | @product _ second rest _ hargs =>
          obtain ⟨htight, hcoefficient, hloss⟩ := ih (hargs first (List.mem_cons_self ..)) hq
          refine ⟨Nat.lt_of_sub_eq_succ rfl, rfl, hloss.append _ rfl
            (fun hnot => head?_laterFactors i true hnot (second :: rest)) ?_ ?_⟩
          · rw [render_mul_cons, decide_eq_false (not_le.mpr htight), wrap_false]
          · rw [render_mul_cons, laterFactors_congr i true hcoefficient]
            rfl
  | case5 first rest i ih =>
      intro positive he h
      obtain ⟨q, hq, rfl⟩ := Option.map_eq_some_iff.1 h
      cases he with
      | @quotient _ b _ ha hb =>
          obtain ⟨htight, -, hloss⟩ := ih ha hq
          refine ⟨Nat.lt_of_sub_eq_succ rfl, rfl,
            hloss.append ('/' :: wrap (b.tightness ≤ 3) (render .compact b)) rfl (by simp) ?_ ?_⟩
          · rw [render_div, decide_eq_false (not_le.mpr htight), wrap_false]
          · rw [render_div]
            rfl
  | case6 e h₁ h₂ h₃ h₄ => intro positive he h; cases h

theorem wrap_true_append (text rest : List Char) :
    wrap true text ++ rest = '(' :: (text ++ ')' :: rest) := by
  simp [wrap]

/-- What binds most tightly is not in parentheses. -/
theorem head?_ne_opening {e : Expr} (he : e.isWellFormed = true) (htight : 4 < e.tightness) :
    (render .compact e).head? ≠ some '(' := by
  obtain ⟨c, rest, htext, hc⟩ : ∃ c rest, render .compact e = c :: rest ∧
      (c.isDigit = true ∨ isNameStart c = true) := by
    have hnamed (hopens : e.startsWithNameOrParen = true) :
        ∃ c rest, render .compact e = c :: rest ∧ isNameStart c = true :=
      starts_of_named he htight hopens
    cases e with
    | const q =>
        obtain ⟨c, rest, htext, -, hdigit⟩ := starts_constText q
        have hnegative := startsNegative_eq_false htight.le
        rw [startsNegative, decide_eq_false_iff_not] at hnegative
        exact ⟨c, rest, by rw [render, htext], .inl (hdigit hnegative)⟩
    | op kind args i => cases kind <;> simp [tightness] at htight
    | _ =>
        obtain ⟨c, rest, htext, hc⟩ := hnamed rfl
        exact ⟨c, rest, htext, .inr hc⟩
  rw [htext, List.head?_cons]
  rintro ⟨⟩
  rcases hc with hc | hc <;> cases hc

/-- Where a tight key begins with a parenthesis, that is closed in front of an exponent. -/
theorem exists_base_of_opening {e : Expr} (he : Regular e) (htight : 3 < e.tightness)
    {rest : List Char} (htext : render .compact e = '(' :: rest) :
    ∃ base more, base.isWellFormed = true ∧ rest = render .compact base ++ ')' :: '^' :: more := by
  have hle : e.tightness ≤ 4 := by
    by_contra hlt
    exact head?_ne_opening he.isWellFormed (Nat.lt_of_not_le hlt) (by rw [htext]; rfl)
  cases he with
  | @power a b i ha hb =>
      rw [render_pow] at htext
      have hwrapped : a.tightness ≤ 4 := by
        by_contra hlt
        refine head?_ne_opening ha.isWellFormed (Nat.lt_of_not_le hlt) ?_
        obtain ⟨c, hc⟩ := exists_beginsWith ha
        obtain ⟨more, hmore⟩ := hc.text
        rw [decide_eq_false hlt, wrap_false, hmore] at htext
        rw [hmore]
        exact congrArg some (List.head_eq_of_cons_eq htext)
      rw [decide_eq_true hwrapped, wrap_true_append] at htext
      exact ⟨a, _, ha.isWellFormed, (List.tail_eq_of_cons_eq htext).symm⟩
  | const q =>
      rcases constText_cases q with ⟨_, _, hq⟩ | ⟨hq, _⟩
      · rw [hq] at htight hle
        split_ifs at htight hle <;> omega
      · omega
  | _ => simp [tightness] at htight hle

/-- The operand of a sign is in parentheses, or it is not, whatever follows. -/
theorem wrapped_of_wrapped {a b : Expr} {after after' : List Char} (ha : Regular a)
    (hb : Regular b) (hafter : after.head? ≠ some '^')
    (h : wrap (a.tightness ≤ 3) (render .compact a) ++ after =
      wrap (b.tightness ≤ 3) (render .compact b) ++ after') (htight : a.tightness ≤ 3) :
    b.tightness ≤ 3 := by
  by_contra hlt
  rw [decide_eq_true htight, decide_eq_false hlt, wrap_false, wrap_true_append] at h
  obtain ⟨c, hc⟩ := exists_beginsWith hb
  obtain ⟨more, hmore⟩ := hc.text
  rw [hmore, List.cons_append] at h
  obtain rfl := List.head_eq_of_cons_eq h
  obtain ⟨base, more, hbase, rfl⟩ := exists_base_of_opening hb (Nat.lt_of_not_le hlt) hmore
  rw [List.append_assoc] at h
  have htail := List.tail_eq_of_cons_eq h
  obtain ⟨-, rfl⟩ := (balanced_render ha.isWellFormed).unique (balanced_render hbase) htail
  exact hafter rfl

theorem SignLoss.unique {a b p q : Expr} (hp : SignLoss a p) (hq : SignLoss b q)
    (h : render .compact a = render .compact b) :
    wrap (p.tightness ≤ 1) (render .compact p) = wrap (q.tightness ≤ 1) (render .compact q) := by
  -- Where an operand has no parentheses after the sign, it has none without it.
  have hplain {x : Expr} (hx : ¬x.tightness ≤ 3) (text : List Char) :
      wrap (x.tightness ≤ 1) text = wrap (x.tightness ≤ 3) text := by
    rw [decide_eq_false hx, decide_eq_false (by omega)]
  have hdigit {x : Expr} {c : Char} {rest after : List Char} (hc : c.isDigit = true)
      (h : wrap (x.tightness ≤ 3) (render .compact x) ++ after = c :: rest) :
      ¬x.tightness ≤ 3 := by
    intro hx
    rw [decide_eq_true hx, wrap_true_append] at h
    obtain rfl := List.head_eq_of_cons_eq h
    cases hc
  cases hp with
  | constant c rest hc htext hpositive =>
      rw [hpositive]
      rw [htext] at h
      cases hq with
      | constant c' rest' hc' htext' hpositive' =>
          rw [hpositive']
          rw [htext'] at h
          exact List.tail_eq_of_cons_eq h
      | negation x after hx hafter _ htext' hpositive' =>
          rw [hpositive']
          rw [htext'] at h
          have h := List.tail_eq_of_cons_eq h
          rw [hplain (hdigit hc h.symm), h]
  | negation x after hx hafter _ htext hpositive =>
      rw [hpositive]
      rw [htext] at h
      cases hq with
      | constant c rest hc htext' hpositive' =>
          rw [hpositive']
          rw [htext'] at h
          have h := List.tail_eq_of_cons_eq h
          rw [hplain (hdigit hc h), h]
      | negation y after' hy hafter' _ htext' hpositive' =>
          rw [hpositive']
          rw [htext'] at h
          have h := List.tail_eq_of_cons_eq h
          by_cases hx3 : x.tightness ≤ 3
          · have hy3 := wrapped_of_wrapped hx hy hafter h hx3
            rw [decide_eq_true hx3, decide_eq_true hy3, wrap_true_append, wrap_true_append] at h
            obtain ⟨htexts, rfl⟩ := (balanced_render hx.isWellFormed).unique
              (balanced_render hy.isWellFormed) (List.tail_eq_of_cons_eq h)
            rw [tightness_eq_of_render_eq hx hy htexts, htexts]
          · have hy3 : ¬y.tightness ≤ 3 := fun hy3 =>
              hx3 (wrapped_of_wrapped hy hx hafter' h.symm hy3)
            rw [hplain hx3, hplain hy3, h]

/-! ### The place of a tree -/

/-- Two trees look the same wherever they are printed. -/
structure SamePlace (a b : Expr) : Prop where
  text : render .compact a = render .compact b
  tightness : a.tightness = b.tightness
  isCoefficient : a.isCoefficient = b.isCoefficient
  startsNegative : a.startsNegative = b.startsNegative
  opens : a.startsWithNameOrParen = b.startsWithNameOrParen
  laterTerm : laterTerms .compact [a] = laterTerms .compact [b]

/-- **Regular trees with one key look the same wherever they are printed.** -/
theorem samePlace_of_key_eq {a b : Expr} (ha : Regular a) (hb : Regular b) (h : a.key = b.key) :
    SamePlace a b := by
  have htext : render .compact a = render .compact b := String.ofList_injective h
  have htight := tightness_eq_of_render_eq ha hb htext
  obtain ⟨c, hc⟩ := exists_beginsWith ha
  obtain ⟨rest, hrest⟩ := hc.text
  obtain ⟨c', hc'⟩ := exists_beginsWith hb
  obtain ⟨rest', hrest'⟩ := hc'.text
  obtain rfl : c = c' := by
    rw [htext, hrest'] at hrest
    exact (List.head_eq_of_cons_eq hrest).symm
  have hnegative : a.startsNegative = b.startsNegative := by
    rw [Bool.eq_iff_iff, hc.startsNegative, hc'.startsNegative, htight]
  refine ⟨htext, htight, ?_, hnegative, ?_, ?_⟩
  · unfold isCoefficient
    rw [htight]
    by_cases h3 : 3 ≤ b.tightness
    · have hconstant : a.isConstant = b.isConstant := by
        rw [Bool.eq_iff_iff, isConstant_iff ha (htight ▸ h3), isConstant_iff hb h3, htext]
      rw [hconstant]
    · simp [h3]
  · rw [Bool.eq_iff_iff, hc.opens, hc'.opens, htight]
  · rw [laterTerms_cons, laterTerms_cons]
    cases hp : withoutMinus? a with
    | none =>
        have hq : withoutMinus? b = none := by
          rw [withoutMinus?_eq_none hb.isWellFormed, ← hnegative]
          exact (withoutMinus?_eq_none ha.isWellFormed).mp hp
        rw [hq, htext, htight]
    | some p =>
        obtain ⟨q, hq⟩ : ∃ q, withoutMinus? b = some q := by
          rw [← Option.ne_none_iff_exists']
          intro hq
          rw [withoutMinus?_eq_none hb.isWellFormed, ← hnegative,
            ← withoutMinus?_eq_none ha.isWellFormed, hp] at hq
          cases hq
        obtain ⟨-, -, hlossA⟩ := signLoss_of_withoutMinus? ha hp
        obtain ⟨-, -, hlossB⟩ := signLoss_of_withoutMinus? hb hq
        simp only [hq, hlossA.unique hlossB htext]

end Expr

end AlgebraTutor
