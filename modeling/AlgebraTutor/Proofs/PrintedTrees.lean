/-
Printed sums, printed products and all printed trees.

A sum or a product is derived from the left, one term or factor after the other, and each of them
has to be followed by something that does not run into it: by a sign, by the end, or by a factor in
parentheses that is not read as an argument.  Only a coefficient may have a name right behind it.
-/
import AlgebraTutor.Proofs.PrintedOperands

namespace AlgebraTutor

open Token

namespace Expr

/-! ### Sums -/

/-- The first argument of a well-formed node can be exchanged. -/
theorem isWellFormed_op_cons {kind : Op} {first : Expr} {rest : List Expr} {i : Bool}
    (h : (op kind (first :: rest) i).isWellFormed = true) : first.isWellFormed = true ∧
      ∀ e : Expr, e.isWellFormed = true → (op kind (e :: rest) i).isWellFormed = true := by
  obtain ⟨hlength, hargs⟩ := isWellFormed_op.mp h
  obtain ⟨hfirst, hrest⟩ := List.forall_mem_cons.mp hargs
  exact ⟨hfirst, fun e he =>
    isWellFormed_op.mpr ⟨hlength, List.forall_mem_cons.mpr ⟨he, hrest⟩⟩⟩

/-- A term that is shown after a minus sign is the negation of what is shown. -/
theorem value_of_withoutMinus? {e : Expr} : ∀ {p : Expr}, e.isWellFormed = true →
    withoutMinus? e = some p → p.isWellFormed = true ∧
      ∀ ρ : Valuation, e.value ρ = (p.value ρ).map (- ·) := by
  fun_induction withoutMinus? e with
  | case1 value h =>
      intro p hwell hp
      cases hp
      exact ⟨rfl, fun ρ => by simp⟩
  | case2 value h => intro p _ hp; cases hp
  | case3 operand rest implicit =>
      intro p hwell hp
      cases hp
      obtain ⟨hlength, hargs⟩ := isWellFormed_op.mp hwell
      obtain rfl : rest = [] := by simpa [Op.accepts] using hlength
      exact ⟨hargs _ (List.mem_cons_self ..), fun ρ => value_minus operand⟩
  | case4 first rest implicit ih =>
      intro p hwell hp
      obtain ⟨q, hq, rfl⟩ := Option.map_eq_some_iff.1 hp
      obtain ⟨hfirst, hexchange⟩ := isWellFormed_op_cons hwell
      obtain ⟨hwell', hvalue⟩ := ih hfirst hq
      refine ⟨hexchange q hwell', fun ρ => ?_⟩
      cases hq' : q.value ρ <;> cases hrest' : values ρ rest <;>
        simp [hvalue, hq', hrest']
  | case5 first rest implicit ih =>
      intro p hwell hp
      obtain ⟨q, hq, rfl⟩ := Option.map_eq_some_iff.1 hp
      obtain ⟨hfirst, hexchange⟩ := isWellFormed_op_cons hwell
      obtain ⟨hwell', hvalue⟩ := ih hfirst hq
      refine ⟨hexchange q hwell', fun ρ => ?_⟩
      obtain ⟨divisor, rfl⟩ : ∃ divisor, rest = [divisor] := by
        simpa [Op.accepts, List.length_eq_one_iff] using (isWellFormed_op.mp hwell).1
      cases hq' : q.value ρ <;> cases hdivisor : divisor.value ρ <;>
        simp [hvalue, hq', hdivisor]
      split <;> simp [neg_div]
  | case6 e h₁ h₂ h₃ h₄ => intro p _ hp; cases hp

/-- A term is no larger without its sign, and still well-formed. -/
theorem size_withoutMinus?_le (term : Expr) :
    ((withoutMinus? term).getD term).size ≤ term.size := by
  cases hminus : withoutMinus? term with
  | none => exact Nat.le_refl _
  | some positive => exact size_le_of_withoutMinus? hminus

theorem isWellFormed_withoutMinus? {term : Expr} (h : term.isWellFormed = true) :
    ((withoutMinus? term).getD term).isWellFormed = true := by
  cases hminus : withoutMinus? term with
  | none => exact h
  | some positive => exact (value_of_withoutMinus? h hminus).1

/-- **Induction over the well-formed trees.**  Their operators have as many arguments as they should.
Of a sum, the terms after the first one are considered without their sign as well, as they are
shown. -/
@[elab_as_elim]
theorem wellFormed_induction {motive : (e : Expr) → e.isWellFormed = true → Prop}
    (const : ∀ q hwell, motive (.const q) hwell)
    (symbol : ∀ name hwell, motive (.symbol name) hwell)
    (member : ∀ object index hwell, motive (.member object index) hwell)
    (call : ∀ name args hwell (hargs : ∀ arg ∈ args, arg.isWellFormed = true),
      (∀ arg harg, motive arg (hargs arg harg)) → motive (.call name args) hwell)
    (add : ∀ first rest i hwell (hargs : ∀ arg ∈ first :: rest, arg.isWellFormed = true)
      (hshown : ∀ term ∈ rest, ((withoutMinus? term).getD term).isWellFormed = true),
      (∀ arg harg, motive arg (hargs arg harg)) →
      (∀ term hterm, motive ((withoutMinus? term).getD term) (hshown term hterm)) →
        motive (.op .add (first :: rest) i) hwell)
    (mul : ∀ first rest i hwell (hargs : ∀ arg ∈ first :: rest, arg.isWellFormed = true),
      (∀ arg harg, motive arg (hargs arg harg)) → motive (.op .mul (first :: rest) i) hwell)
    (div : ∀ a b i hwell (ha : a.isWellFormed = true) (hb : b.isWellFormed = true),
      motive a ha → motive b hb → motive (.op .div [a, b] i) hwell)
    (pow : ∀ a b i hwell (ha : a.isWellFormed = true) (hb : b.isWellFormed = true),
      motive a ha → motive b hb → motive (.op .pow [a, b] i) hwell)
    (neg : ∀ a i hwell (ha : a.isWellFormed = true),
      motive a ha → motive (.op .neg [a] i) hwell)
    (e : Expr) (hwell : e.isWellFormed = true) : motive e hwell := by
  have hsmaller (f : Expr) (hf : f.isWellFormed = true) (_hsize : f.size < e.size) :
      motive f hf := wellFormed_induction const symbol member call add mul div pow neg f hf
  have harg {args : List Expr} {arg : Expr} (h : arg ∈ args) (hsize : e.size = sizeAll args + 1) :
      arg.size < e.size := by
    have := size_le_sizeAll h
    omega
  cases e with
  | const q => exact const q hwell
  | symbol name => exact symbol name hwell
  | member object index => exact member object index hwell
  | call name args =>
      obtain ⟨-, hargs⟩ := isWellFormed_call.mp hwell
      exact call name args hwell hargs fun arg h => hsmaller arg _ (harg h rfl)
  | op kind args i =>
      obtain ⟨hlength, hargs⟩ := isWellFormed_op.mp hwell
      have hall (arg : Expr) (h : arg ∈ args) : motive arg (hargs arg h) :=
        hsmaller arg _ (harg h rfl)
      cases kind with
      | add =>
          cases args with
          | nil => cases hlength
          | cons first rest =>
              have hshown (term : Expr) (h : term ∈ rest) :=
                isWellFormed_withoutMinus? (hargs term (.tail _ h))
              refine add first rest i hwell hargs hshown hall fun term h => hsmaller _ _ ?_
              exact (size_withoutMinus?_le term).trans_lt (harg (.tail _ h) rfl)
      | mul =>
          cases args with
          | nil => cases hlength
          | cons first rest => exact mul first rest i hwell hargs hall
      | div =>
          obtain ⟨a, b, rfl⟩ := List.length_eq_two.mp (by simpa [Op.accepts] using hlength)
          exact div a b i hwell _ _ (hall a (by simp)) (hall b (by simp))
      | pow =>
          obtain ⟨a, b, rfl⟩ := List.length_eq_two.mp (by simpa [Op.accepts] using hlength)
          exact pow a b i hwell _ _ (hall a (by simp)) (hall b (by simp))
      | neg =>
          obtain ⟨a, rfl⟩ := List.length_eq_one_iff.mp (by simpa [Op.accepts] using hlength)
          exact neg a i hwell _ (hall a (by simp))
termination_by e.size

/-- A term loses its sign if and only if it begins with one. -/
theorem withoutMinus?_eq_none {e : Expr} :
    e.isWellFormed = true → (withoutMinus? e = none ↔ e.startsNegative = false) := by
  fun_induction withoutMinus? e with
  | case1 value h => intro _; simp [startsNegative, h]
  | case2 value h => intro _; simp [startsNegative, h]
  | case3 operand rest implicit => intro _; simp [startsNegative]
  | case4 first rest implicit ih =>
      intro hwell
      rw [Option.map_eq_none_iff, startsNegative]
      exact ih (isWellFormed_op_cons hwell).1
  | case5 first rest implicit ih =>
      intro hwell
      rw [Option.map_eq_none_iff, startsNegative]
      exact ih (isWellFormed_op_cons hwell).1
  | case6 e hconst hneg hmul hdiv =>
      intro hwell
      have hnegative : e.startsNegative = false := by
        cases e with
        | const q => exact absurd rfl (hconst q)
        | op kind args i =>
            obtain ⟨hlength, -⟩ := isWellFormed_op.mp hwell
            cases args with
            | nil => cases kind <;> cases hlength
            | cons first rest =>
                cases kind with
                | neg => exact absurd rfl (hneg first rest i)
                | mul => exact absurd rfl (hmul first rest i)
                | div => exact absurd rfl (hdiv first rest i)
                | _ => rfl
        | _ => rfl
      simp [hnegative]

/-- The term as it is shown after the first term of a sum, and the sign in front of it. -/
theorem laterTerms_cons (style : Style) (term : Expr) (rest : List Expr) :
    laterTerms style (term :: rest) =
      (match withoutMinus? term with
      | some positive => signText style '-' ++ wrap (positive.tightness ≤ 1) (render style positive)
      | none => signText style '+' ++ wrap (term.tightness ≤ 1) (render style term)) ++
        laterTerms style rest := by
  rw [laterTerms]
  split
  · next h => rw [h]; rfl
  · next h => rw [h]; rfl

theorem follows_laterTerms (style : Style) (terms : List Expr) {tail : List Char}
    (htail : Follows true tail) : Follows true (laterTerms style terms ++ tail) := by
  cases terms with
  | nil =>
      rw [laterTerms]
      exact htail
  | cons term rest =>
      rw [laterTerms_cons]
      split
      · rw [List.append_assoc, List.append_assoc]
        exact .signText rfl lexemes_minus (by decide) style _
      · rw [List.append_assoc, List.append_assoc]
        exact .signText rfl lexemes_plus (by decide) style _

/-- The terms after the first are derived one after the other. -/
theorem derives_laterTerms {style : Style} {tail : List Char} (htail : Follows true tail) :
    ∀ (terms : List Expr), (∀ term ∈ terms, term.isWellFormed = true) →
      (∀ term ∈ terms, ∀ e, e = (withoutMinus? term).getD term → Printable style e) →
      ∀ {done : List Expr} {p : Phrase} {i : Bool}, p.Means (op .add done i) →
      ∃ p' : Phrase, p'.Means (op .add (done ++ terms) i) ∧
        (terms ≠ [] ∨ p.tightness = 1 → p'.tightness = 1) ∧ ∀ q rest,
        Derives (.terms p') (lexemes tail) q rest →
          Derives (.terms p) (lexemes (laterTerms style terms ++ tail)) q rest := by
  intro terms
  induction terms with
  | nil =>
      intro _ _ done p i hp
      rw [laterTerms, List.append_nil]
      exact ⟨p, hp, fun h => h.resolve_left (absurd rfl), fun q rest hmore => hmore⟩
  | cons term terms ih =>
      intro hwell hprintable done p i hp
      obtain ⟨hterm, hterms⟩ := List.forall_mem_cons.mp hwell
      obtain ⟨hprint, hprints⟩ := List.forall_mem_cons.mp hprintable
      have hafter := follows_laterTerms style terms htail
      rw [laterTerms_cons]
      cases hminus : withoutMinus? term with
      | some positive =>
          obtain ⟨-, hvalue⟩ := value_of_withoutMinus? hterm hminus
          obtain ⟨t, ht, hderives⟩ := (hprint positive (by rw [hminus]; rfl)).wrap_term
            lt_of_not_wrapped fun _ => hafter.of_true _
          obtain ⟨p', hp', hbinds, hmore⟩ := ih hterms hprints (hp.minus false ht hvalue)
          rw [List.append_assoc] at hp'
          refine ⟨p', hp', fun _ => hbinds (.inr rfl), fun q rest hrest => ?_⟩
          rw [List.append_assoc, List.append_assoc, lexemes_signText lexemes_minus]
          exact .termsMore rfl rfl (hderives _ _ .factorsDone) (hmore q rest hrest)
      | none =>
          obtain ⟨t, ht, hderives⟩ := (hprint term (by rw [hminus]; rfl)).wrap_term
            lt_of_not_wrapped fun _ => hafter.of_true _
          obtain ⟨p', hp', hbinds, hmore⟩ := ih hterms hprints (hp.plus false ht)
          rw [List.append_assoc] at hp'
          refine ⟨p', hp', fun _ => hbinds (.inr rfl), fun q rest hrest => ?_⟩
          rw [List.append_assoc, List.append_assoc, lexemes_signText lexemes_plus]
          exact .termsMore rfl rfl (hderives _ _ .factorsDone) (hmore q rest hrest)

theorem printable_add {style : Style} {first : Expr} {rest : List Expr} {i : Bool}
    (hwell : (op .add (first :: rest) i).isWellFormed = true) (hfirst : Printable style first)
    (hrest : ∀ term ∈ rest, ∀ e, e = (withoutMinus? term).getD term → Printable style e) :
    Printable style (op .add (first :: rest) i) := by
  refine .of_sum (fun tail htail => ?_) (by rw [tightness])
  obtain ⟨-, hargs⟩ := isWellFormed_op.mp hwell
  obtain ⟨-, hwell'⟩ := List.forall_mem_cons.mp hargs
  obtain ⟨p, hp, hderives⟩ := hfirst.sum _ (follows_laterTerms style rest htail)
  have hp : p.Means (op .add [first] i) :=
    hp.means.congr fun ρ => (value_singleton rfl first i).symm
  obtain ⟨p', hp', hbinds, hmore⟩ := derives_laterTerms htail rest hwell' hrest hp
  refine ⟨p', ⟨hp', fun hlone => hbinds (.inl ?_)⟩, fun q r hr => ?_⟩
  · rintro rfl
    cases hlone
  rw [render, List.append_assoc]
  exact hderives q r (hmore q r hr)

/-! ### Products -/

theorem wrap_false (text : List Char) : wrap false text = text := rfl

/-- The printed form of a name, a member or a call begins with a name. -/
theorem starts_of_named {style : Style} {e : Expr} (hwell : e.isWellFormed = true)
    (htight : 4 < e.tightness) (h : e.startsWithNameOrParen = true) :
    ∃ c text, render style e = c :: text ∧ isNameStart c = true := by
  cases e with
  | const q => cases h
  | symbol name =>
      obtain ⟨c, rest, hname, hc⟩ := starts_of_isIdentifier hwell
      exact ⟨c, rest, by rw [render, hname], hc⟩
  | member object index =>
      obtain ⟨c, rest, hobject, hc⟩ := starts_of_isIdentifier (Bool.and_eq_true_iff.mp hwell).1
      exact ⟨c, rest ++ '.' :: index.toList, by rw [render, hobject, List.cons_append], hc⟩
  | op kind args i => cases kind <;> simp [tightness] at htight
  | call name args =>
      obtain ⟨name', args', hshown, hname', -⟩ := exists_shownCall style name args
      obtain ⟨c, rest, hname, hc⟩ :=
        starts_of_isIdentifier (hname' (isWellFormed_call.mp hwell).1)
      obtain ⟨text, htext⟩ : ∃ text, render style (call name args) = name'.toList ++ text :=
        ⟨_, by rw [render, callText, hshown]⟩
      exact ⟨c, rest ++ text, by rw [htext, hname, List.cons_append], hc⟩

/-- Where a coefficient may stand right in front of a factor, the factor begins with a name or with
a parenthesis. -/
theorem starts_of_startsWithNameOrParen {style : Style} {e : Expr} (hwell : e.isWellFormed = true)
    (h : e.startsWithNameOrParen = true) (tail : List Char) :
    Starts (fun c => !c.isDigit && c != '.')
      (wrap (factorIsWrapped false e) (render style e) ++ tail) := by
  have hparen : ∀ text : List Char,
      Starts (fun c => !c.isDigit && c != '.') (wrap true text ++ tail) := by
    rintro text _ ⟨⟩
    rfl
  have hnamed : ∀ (c : Char) (text : List Char), isNameStart c = true →
      Starts (fun c => !c.isDigit && c != '.') (c :: text) := by
    rintro c text hc _ ⟨⟩
    rw [Bool.and_eq_true, Bool.not_eq_true', bne_iff_ne]
    refine ⟨isDigit_of_isNameStart hc, ?_⟩
    rintro rfl
    cases hc
  by_cases hwrapped : factorIsWrapped false e = true
  · rw [hwrapped]
    exact hparen _
  · rw [Bool.not_eq_true] at hwrapped
    rw [hwrapped]
    by_cases htight : 4 < e.tightness
    · obtain ⟨c, text, htext, hc⟩ := starts_of_named hwell htight h
      rw [htext]
      exact hnamed c _ hc
    · -- What is left is a power, which begins like its base.
      obtain ⟨base, exponent, i, rfl⟩ : ∃ base exponent i, e = op .pow [base, exponent] i := by
        cases e with
        | op kind args i =>
            cases kind with
            | pow =>
                obtain ⟨hlength, -⟩ := isWellFormed_op.mp hwell
                obtain ⟨base, exponent, rfl⟩ :=
                  List.length_eq_two.mp (by simpa [Op.accepts] using hlength)
                exact ⟨base, exponent, i, rfl⟩
            | _ => simp_all [startsWithNameOrParen, factorIsWrapped, tightness]
        | _ => simp_all [startsWithNameOrParen, tightness]
      obtain ⟨-, hargs⟩ := isWellFormed_op.mp hwell
      rw [render_pow]
      by_cases hbase : base.tightness ≤ 4
      · rw [decide_eq_true hbase, wrap_false, List.append_assoc]
        rintro _ ⟨⟩
        rfl
      · rw [startsWithNameOrParen, Bool.or_eq_true] at h
        have hnot : ¬decide (base.tightness < 5) = true := by
          rw [decide_eq_true_eq]
          omega
        have hstarts : ∃ c text, render style base = c :: text ∧ isNameStart c = true :=
          starts_of_named (hargs base (List.mem_cons_self ..)) (Nat.lt_of_not_le hbase)
            (h.resolve_right hnot)
        obtain ⟨c, text, htext, hc⟩ := hstarts
        rw [decide_eq_false hbase, wrap_false, wrap_false, htext]
        exact hnamed c _ hc

section Products

variable {style : Style} {implicit : Bool}

/-- The factors after the first one, with what is in front of each. -/
theorem laterFactors_cons (isSecond : Bool) (previous factor : Expr) (rest : List Expr) :
    laterFactors style implicit isSecond previous (renderAll style (factor :: rest)) =
      (if juxtaposes style implicit isSecond previous factor then [] else signText style '*') ++
        wrap (factorIsWrapped false factor) (render style factor) ++
        laterFactors style implicit false factor (renderAll style rest) := by
  rw [renderAll, laterFactors]
  rfl

/-- What is shown after a factor does not run into it, unless the factor is a coefficient. -/
theorem follows_laterFactors {isFirst isSecond : Bool} {previous : Expr} {rest : List Expr}
    {tail : List Char} (hunwrapped : factorIsWrapped isFirst previous = false)
    (htail : Follows (lastEndsInName isFirst (previous :: rest)) tail)
    (hhides : style = .spaced → implicit = true → swallows isFirst previous rest = false)
    (hcoefficient : isSecond = false ∨ previous.isConstant = false ∨ previous.tightness < 3 ∨
      ∀ factor ∈ rest.head?, factor.startsWithNameOrParen = false) :
    Follows previous.endsInName
      (laterFactors style implicit isSecond previous (renderAll style rest) ++ tail) := by
  cases rest with
  | nil =>
      rw [lastEndsInName, hunwrapped] at htail
      rw [renderAll, laterFactors]
      exact htail
  | cons factor rest =>
      rw [laterFactors_cons]
      by_cases hjuxtaposes : juxtaposes style implicit isSecond previous factor = true
      · rw [if_pos hjuxtaposes, List.nil_append]
        have hsecond : style = .spaced ∧ implicit = true ∧ factorIsWrapped false factor = true ∧
            previous.isSymbol = false := by
          rcases Bool.or_eq_true_iff.mp hjuxtaposes with hfirst | hsecond
          · exfalso
            simp only [Bool.and_eq_true, decide_eq_true_eq] at hfirst
            obtain ⟨⟨⟨hsecond, hconstant⟩, htight⟩, hstarts⟩ := hfirst
            rcases hcoefficient with h | h | h | h
            · rw [h] at hsecond
              cases hsecond
            · rw [h] at hconstant
              cases hconstant
            · omega
            · rw [h factor rfl] at hstarts
              cases hstarts
          · simpa [and_assoc] using hsecond
        obtain ⟨hstyle, himplicit, hwrapped, hsymbol⟩ := hsecond
        have hname : previous.endsInName = false := by
          have hno := hhides hstyle himplicit
          simpa [isSwallowed, hwrapped, hsymbol, hunwrapped] using (Bool.or_eq_false_iff.mp hno).1
        rw [hwrapped, hname]
        exact ⟨by rintro _ ⟨⟩; rfl, fun h => absurd h (by decide)⟩
      · rw [if_neg hjuxtaposes, List.append_assoc, List.append_assoc]
        exact .signText rfl lexemes_times (by decide) style _

/-- The factors after the first are derived one after the other. -/
theorem derives_laterFactors {tail : List Char} : ∀ (rest : List Expr),
    (∀ factor ∈ rest, Printable style factor) →
    ∀ {isFirst isSecond : Bool} {previous : Expr} {done : List Expr} {p : Phrase} {i : Bool},
      (rest ≠ [] → Follows (lastEndsInName isFirst (previous :: rest)) tail) →
      (style = .spaced → implicit = true → swallows isFirst previous rest = false) →
      p.Means (op .mul done i) →
      ∃ p' : Phrase, p'.Means (op .mul (done ++ rest) i) ∧
        (rest ≠ [] ∨ p.tightness = 2 → p'.tightness = 2) ∧ ∀ q r,
        Derives (.factors p') (lexemes tail) q r →
          Derives (.factors p) (lexemes (laterFactors style implicit isSecond previous
            (renderAll style rest) ++ tail)) q r := by
  intro rest
  induction rest with
  | nil =>
      intro _ isFirst isSecond previous done p i _ _ hp
      rw [renderAll, laterFactors, List.append_nil]
      exact ⟨p, hp, fun h => h.resolve_left (absurd rfl), fun q r hmore => hmore⟩
  | cons factor rest ih =>
      intro hprintable isFirst isSecond previous done p i htail hhides hp
      obtain ⟨hfactor, hrest⟩ := List.forall_mem_cons.mp hprintable
      have htail : Follows (lastEndsInName false (factor :: rest)) tail :=
        htail (List.cons_ne_nil _ _)
      have hhides : style = .spaced → implicit = true → swallows false factor rest = false :=
        fun hstyle himplicit => (Bool.or_eq_false_iff.mp (hhides hstyle himplicit)).2
      have htight : factorIsWrapped false factor = false → 3 < factor.tightness := by
        intro h
        simp [factorIsWrapped] at h
        omega
      obtain ⟨q, hq, hderives⟩ := hfactor.wrap_power htight fun hunwrapped =>
        follows_laterFactors hunwrapped htail hhides (.inl rfl)
      rw [laterFactors_cons]
      by_cases hjuxtaposes : juxtaposes style implicit isSecond previous factor = true
      · obtain ⟨p', hp', hbinds, hmore⟩ :=
          ih hrest (fun _ => htail) hhides (hp.times true hq)
        rw [List.append_assoc] at hp'
        refine ⟨p', hp', fun _ => hbinds (.inr rfl), fun r s hr => ?_⟩
        rw [if_pos hjuxtaposes, List.nil_append, List.append_assoc]
        exact .factorsJuxtaposed hderives (hmore r s hr)
      · obtain ⟨p', hp', hbinds, hmore⟩ :=
          ih hrest (fun _ => htail) hhides (hp.times false hq)
        rw [List.append_assoc] at hp'
        refine ⟨p', hp', fun _ => hbinds (.inr rfl), fun r s hr => ?_⟩
        rw [if_neg hjuxtaposes, List.append_assoc, List.append_assoc,
          lexemes_signText lexemes_times]
        exact .factorsMore rfl rfl (.factor hderives) (hmore r s hr)

theorem render_mul_cons (first : Expr) (rest : List Expr) (i : Bool) :
    render style (op .mul (first :: rest) i) =
      wrap (first.tightness ≤ 1) (render style first) ++
        laterFactors style i true first (renderAll style rest) := by
  rw [render, renderAll, productText]
  simp [factorIsWrapped]

theorem printable_mul {first : Expr} {rest : List Expr}
    (hwell : ∀ factor ∈ first :: rest, factor.isWellFormed = true)
    (hprintable : ∀ factor ∈ first :: rest, Printable style factor)
    (hhides : style = .spaced → factorsHideCall implicit (first :: rest) = false) :
    Printable style (op .mul (first :: rest) implicit) := by
  refine .of_term (fun tail htail => ?_) (by rw [tightness])
  rw [endsInName] at htail
  obtain ⟨hfirst, hrest⟩ := List.forall_mem_cons.mp hprintable
  generalize htext : laterFactors style implicit true first (renderAll style rest) ++ tail = text
  have hderives : ∃ p : Phrase, p.Means first ∧ ∀ q r,
      Derives (.factors p) (lexemes text) q r → Derives .term
        (lexemes (wrap (first.tightness ≤ 1) (render style first) ++ text)) q r := by
    have hwrapped : factorIsWrapped true first = decide (first.tightness ≤ 1) := by
      simp [factorIsWrapped]
    by_cases hcoefficient : first.isConstant = true ∧ 2 < first.tightness ∧
        ∃ factor ∈ rest.head?, factor.startsWithNameOrParen = true
    · -- A coefficient may have a name right behind it.
      obtain ⟨hconstant, htight, factor, hfactor, hstarts⟩ := hcoefficient
      obtain ⟨q, rfl⟩ : ∃ q, first = const q := by
        cases first <;> simp_all [isConstant, constant?]
      obtain ⟨rest, rfl⟩ := List.head?_eq_some_iff.mp hfactor
      have hjuxtaposes : juxtaposes style implicit true (const q) factor = true := by
        simp [juxtaposes, hstarts, isConstant, constant?]
        omega
      have htext' : Starts (fun c => !c.isDigit && c != '.') text := by
        rw [← htext, laterFactors_cons, if_pos hjuxtaposes, List.nil_append, List.append_assoc]
        exact starts_of_startsWithNameOrParen (hwell factor (by simp)) hstarts _
      obtain ⟨p, hp, hderives⟩ := derives_const htight htext'
      refine ⟨p, hp, fun q r hr => ?_⟩
      rw [decide_eq_false (by omega), wrap_false, render]
      exact .term hderives hr
    · refine hfirst.wrap_term lt_of_not_wrapped fun hunwrapped => ?_
      rw [← htext]
      refine follows_laterFactors (hwrapped.trans hunwrapped) htail
        (fun hstyle => by simpa [factorsHideCall] using hhides hstyle) ?_
      by_contra hno
      simp only [not_or, not_forall, Bool.not_eq_false] at hno
      obtain ⟨-, hconstant, htight, factor, hfactor, hstarts⟩ := hno
      exact hcoefficient ⟨hconstant, by omega, factor, hfactor, hstarts⟩
  obtain ⟨p, hp, hfirst⟩ := hderives
  have hp : p.Means (op .mul [first] implicit) :=
    hp.congr fun ρ => (value_singleton rfl first implicit).symm
  obtain ⟨p', hp', hbinds, hmore⟩ := derives_laterFactors rest hrest (fun _ => htail)
    (fun hstyle => by simpa [factorsHideCall] using hhides hstyle) hp
  refine ⟨p', ⟨hp', fun hlone => hbinds (.inl ?_)⟩, fun q r hr => ?_⟩
  · rintro rfl
    cases hlone
  rw [render_mul_cons, List.append_assoc, htext]
  refine hfirst q r ?_
  rw [← htext]
  exact hmore q r hr

end Products

/-! ### Every tree -/

theorem anyHidesCall_eq_any (es : List Expr) : anyHidesCall es = es.any hidesCall := by
  induction es with
  | nil => rw [anyHidesCall, List.any_nil]
  | cons e es ih => rw [anyHidesCall, List.any_cons, ih]

theorem anyHidesCall_eq_false {es : List Expr} (h : anyHidesCall es = false) :
    ∀ e ∈ es, e.hidesCall = false := by
  intro e he
  rw [anyHidesCall_eq_any, List.any_eq_false] at h
  simpa using h e he

/-- A term that can be read can be read without its sign. -/
theorem laterTermsHideCall_eq_false {terms : List Expr} (h : laterTermsHideCall terms = false) :
    ∀ term ∈ terms, ((withoutMinus? term).getD term).hidesCall = false := by
  induction terms with
  | nil => intro term hterm; cases hterm
  | cons first terms ih =>
      rw [laterTermsHideCall, Bool.or_eq_false_iff] at h
      obtain ⟨hfirst, hterms⟩ := h
      refine List.forall_mem_cons.mpr ⟨?_, ih hterms⟩
      split at hfirst
      · next hminus => rw [hminus]; exact hfirst
      · next hminus => rw [hminus]; exact hfirst

/-- **The printed form of a well-formed tree is derived as a phrase that means the tree**, unless
it hides a call. -/
theorem printable (style : Style) (e : Expr) (hwell : e.isWellFormed = true) :
    e.Readable style → Printable style e := by
  induction e, hwell using wellFormed_induction with
  | const q => exact fun _ => printable_const style q
  | symbol name hwell => exact fun _ => printable_symbol style hwell
  | member object index hwell =>
      obtain ⟨hobject, hindex⟩ := Bool.and_eq_true_iff.mp hwell
      exact fun _ => printable_member style hobject hindex
  | call name args hwell _ ih =>
      intro hread
      refine printable_call (isWellFormed_call.mp hwell).1 fun arg harg => ih arg harg ?_
      intro hstyle
      have hhides := hread hstyle
      rw [hidesCall] at hhides
      exact anyHidesCall_eq_false hhides arg harg
  | add first rest i hwell _ _ ih ihShown =>
      intro hread
      have hhides (hstyle : style = .spaced) := Bool.or_eq_false_iff.mp
        ((hidesCall_add first rest i).symm.trans (hread hstyle))
      refine printable_add hwell (ih first (.head _) fun hstyle => (hhides hstyle).1) ?_
      rintro term hterm _ rfl
      exact ihShown term hterm fun hstyle =>
        laterTermsHideCall_eq_false (hhides hstyle).2 term hterm
  | mul first rest i _ hargs ih =>
      intro hread
      have hhides (hstyle : style = .spaced) := Bool.or_eq_false_iff.mp
        ((hidesCall_mul (first :: rest) i).symm.trans (hread hstyle))
      exact printable_mul hargs
        (fun arg harg => ih arg harg fun hstyle =>
          anyHidesCall_eq_false (hhides hstyle).2 arg harg)
        fun hstyle => (hhides hstyle).1
  | div a b i _ _ _ iha ihb =>
      intro hread
      have hhides (hstyle : style = .spaced) : a.hidesCall = false ∧ b.hidesCall = false := by
        simpa [hidesCall, anyHidesCall] using hread hstyle
      exact printable_div (iha fun hstyle => (hhides hstyle).1)
        (ihb fun hstyle => (hhides hstyle).2) i
  | pow a b i _ _ _ iha ihb =>
      intro hread
      have hhides (hstyle : style = .spaced) : a.hidesCall = false ∧ b.hidesCall = false := by
        simpa [hidesCall, anyHidesCall] using hread hstyle
      exact printable_pow (iha fun hstyle => (hhides hstyle).1)
        (ihb fun hstyle => (hhides hstyle).2) i
  | neg a i _ _ ih =>
      intro hread
      refine printable_neg (ih fun hstyle => ?_) i
      simpa [hidesCall, anyHidesCall] using hread hstyle

end Expr

end AlgebraTutor
