/-
Printed texts without their blanks.

White space separates tokens, so a text may read differently without it: `x y` is a product and `xy`
a name.  The printer puts blanks around the signs of a sum and a product and after commas only.  No
token goes on there, so a printed text has the same tokens without its blanks, and it reads the
same.
-/
import AlgebraTutor.Proofs.Misreading
import AlgebraTutor.Proofs.Recognition
import AlgebraTutor.Text.Blank

namespace AlgebraTutor

namespace Token

/-- The characters that are not blank. -/
def unspaced (text : List Char) : List Char := text.filter fun c => !AlgebraTutor.isBlank c

/-- Blanks stand only around the signs of sums and products and after commas. -/
inductive Aired : List Char → Prop
  | nil : Aired []
  | char {c : Char} {rest : List Char} (hc : AlgebraTutor.isBlank c = false)
      (hrest : Aired rest) : Aired (c :: rest)
  | sign {c : Char} {rest : List Char} (hc : c = '+' ∨ c = '-' ∨ c = '*') (hrest : Aired rest) :
      Aired (' ' :: c :: ' ' :: rest)
  | comma {rest : List Char} (hrest : Aired rest) : Aired (',' :: ' ' :: rest)

namespace Aired

theorem append {front rest : List Char} (hfront : Aired front) (hrest : Aired rest) :
    Aired (front ++ rest) := by
  induction hfront with
  | nil => exact hrest
  | char hc _ ih => exact .char hc ih
  | sign hc _ ih => exact .sign hc ih
  | comma _ ih => exact .comma ih

theorem of_forall {text : List Char} (h : ∀ c ∈ text, AlgebraTutor.isBlank c = false) :
    Aired text := by
  induction text with
  | nil => exact .nil
  | cons c text ih =>
      obtain ⟨hc, htext⟩ := List.forall_mem_cons.mp h
      exact .char hc (ih htext)

theorem flatMap {α : Type} {as : List α} {f : α → List Char} (h : ∀ a ∈ as, Aired (f a)) :
    Aired (as.flatMap f) := by
  induction as with
  | nil => exact .nil
  | cons a as ih =>
      obtain ⟨ha, has⟩ := List.forall_mem_cons.mp h
      exact ha.append (ih has)

end Aired

@[simp] theorem unspaced_char {c : Char} (hc : AlgebraTutor.isBlank c = false)
    (rest : List Char) : unspaced (c :: rest) = c :: unspaced rest :=
  List.filter_cons_of_pos (by simp [hc])

theorem unspaced_append {front rest : List Char}
    (hfront : ∀ c ∈ front, AlgebraTutor.isBlank c = false) :
    unspaced (front ++ rest) = front ++ unspaced rest := by
  rw [unspaced, List.filter_append, List.filter_eq_self.mpr]
  · rfl
  · intro c hc
    simp [hfront c hc]

theorem unspaced_sign {c : Char} (hc : c = '+' ∨ c = '-' ∨ c = '*') (rest : List Char) :
    unspaced (' ' :: c :: ' ' :: rest) = c :: unspaced rest := by
  rcases hc with rfl | rfl | rfl <;> rfl

theorem unspaced_comma (rest : List Char) : unspaced (',' :: ' ' :: rest) = ',' :: unspaced rest :=
  rfl

/-! ### Tokens without blanks -/

/-- A piece at the front of the text is measured, with or without the blanks after it. -/
def Measures (length : List Char → Nat) (text : List Char) : Prop :=
  ∃ front after, text = front ++ after ∧ Aired after ∧
    (∀ c ∈ front, AlgebraTutor.isBlank c = false) ∧
    length text = front.length ∧ length (unspaced text) = front.length

/-- Blanks end a run of characters, and so do the signs between them. -/
theorem measures_takeWhile {test : Char → Bool} (hblank : test ' ' = false)
    (hcomma : test ',' = false) (hplus : test '+' = false) (hminus : test '-' = false)
    (htimes : test '*' = false) {text : List Char} (h : Aired text) :
    Measures (fun text => (text.takeWhile test).length) text := by
  induction h with
  | nil => exact ⟨[], [], rfl, .nil, by simp, rfl, rfl⟩
  | @char c rest hc hrest ih =>
      by_cases hpass : test c = true
      · obtain ⟨front, after, rfl, hafter, hfront, hlength, hlength'⟩ := ih
        refine ⟨c :: front, after, rfl, hafter, List.forall_mem_cons.mpr ⟨hc, hfront⟩, ?_, ?_⟩
        · simp only [List.takeWhile_cons_of_pos hpass, List.length_cons] at hlength ⊢
          rw [hlength]
        · simp only [unspaced_char hc, List.takeWhile_cons_of_pos hpass, List.length_cons]
            at hlength' ⊢
          rw [hlength']
      · refine ⟨[], c :: rest, rfl, .char hc hrest, by simp, ?_, ?_⟩
        · simp only [List.takeWhile_cons_of_neg hpass, List.length_nil]
        · simp only [unspaced_char hc, List.takeWhile_cons_of_neg hpass, List.length_nil]
  | @sign c rest hc hrest ih =>
      have hstop : test c = false := by rcases hc with rfl | rfl | rfl <;> assumption
      refine ⟨[], _, rfl, .sign hc hrest, by simp, ?_, ?_⟩
      · simp [hblank]
      · rw [unspaced_sign hc]
        simp [hstop]
  | comma hrest ih =>
      refine ⟨[], _, rfl, .comma hrest, by simp, ?_, ?_⟩
      · simp [hcomma]
      · rw [unspaced_comma]
        simp [hcomma]

theorem measures_digits {text : List Char} (h : Aired text) :
    Measures (fun text => (text.takeWhile Char.isDigit).length) text :=
  measures_takeWhile rfl rfl rfl rfl rfl h

theorem fractionLength_point (rest : List Char) : fractionLength ('.' :: rest) =
    if (rest.takeWhile Char.isDigit).length = 0 then 0
    else (rest.takeWhile Char.isDigit).length + 1 := rfl

theorem fractionLength_of_ne {c : Char} (hc : c ≠ '.') (rest : List Char) :
    fractionLength (c :: rest) = 0 := by
  unfold fractionLength
  split
  · next heq =>
      cases heq
      exact absurd rfl hc
  · rfl

theorem measures_fraction {text : List Char} (h : Aired text) :
    Measures fractionLength text := by
  have hnone {text : List Char} (h : Aired text) (hlength : fractionLength text = 0)
      (hlength' : fractionLength (unspaced text) = 0) : Measures fractionLength text :=
    ⟨[], text, rfl, h, by simp, hlength, hlength'⟩
  cases h with
  | nil => exact hnone .nil rfl rfl
  | @char c rest hc hrest =>
      by_cases hpoint : c = '.'
      · subst hpoint
        obtain ⟨front, after, rfl, hafter, hfront, hlength, hlength'⟩ := measures_digits hrest
        dsimp only at hlength hlength'
        by_cases hempty : front.length = 0
        · refine hnone (.char hc hrest) ?_ ?_
          · rw [fractionLength_point, if_pos (hlength.trans hempty)]
          · rw [unspaced_char hc, fractionLength_point, if_pos (hlength'.trans hempty)]
        · refine ⟨'.' :: front, after, rfl, hafter, List.forall_mem_cons.mpr ⟨hc, hfront⟩, ?_, ?_⟩
          · rw [fractionLength_point, hlength, if_neg hempty, List.length_cons]
          · rw [unspaced_char hc, fractionLength_point, hlength', if_neg hempty, List.length_cons]
      · refine hnone (.char hc hrest) (fractionLength_of_ne hpoint _) ?_
        rw [unspaced_char hc]
        exact fractionLength_of_ne hpoint _
  | @sign c rest hc hrest =>
      refine hnone (.sign hc hrest) (fractionLength_of_ne (by decide) _) ?_
      rw [unspaced_sign hc]
      refine fractionLength_of_ne ?_ _
      rintro rfl
      revert hc
      decide
  | comma hrest =>
      refine hnone (.comma hrest) (fractionLength_of_ne (by decide) _) ?_
      rw [unspaced_comma]
      exact fractionLength_of_ne (by decide) _

/-- Digits and what may follow them. -/
theorem Measures.append {first second : List Char → Nat} {text : List Char}
    (hfirst : Measures first text) (hsecond : ∀ {text}, Aired text → Measures second text) :
    Measures (fun text => first text + second (text.drop (first text))) text := by
  obtain ⟨front, after, rfl, hafter, hfront, hlength, hlength'⟩ := hfirst
  obtain ⟨front', after', rfl, hafter', hfront', hsame, hsame'⟩ := hsecond hafter
  rw [unspaced_append hfront] at hlength'
  refine ⟨front ++ front', after', (List.append_assoc ..).symm, hafter',
    List.forall_mem_append.mpr ⟨hfront, hfront'⟩, ?_, ?_⟩
  · simp only [hlength, List.drop_left, hsame, List.length_append]
  · simp only [unspaced_append hfront, hlength', List.drop_left, hsame', List.length_append]

theorem isSpacing_of_not_isBlank {c : Char} (h : AlgebraTutor.isBlank c = false) :
    isSpacing c = false := by
  by_contra hspacing
  simp only [isSpacing, Bool.or_eq_true, beq_iff_eq, Bool.not_eq_false] at hspacing
  rcases hspacing with ((rfl | rfl) | rfl) | rfl <;> revert h <;> decide

/-- The length of a number is that of its digits and of its fraction, if it has one. -/
theorem munch_number {c : Char} (hdigit : c.isDigit = true) (rest : List Char) : munch c rest =
    (if fractionLength (rest.drop (rest.takeWhile Char.isDigit).length) = 0 then .int
      else .float, (rest.takeWhile Char.isDigit).length +
        fractionLength (rest.drop (rest.takeWhile Char.isDigit).length)) := by
  rw [munch_of_isDigit hdigit]
  split
  · next hzero => rw [hzero, Nat.add_zero]
  · rfl

theorem munch_fraction {c : Char} (hspacing : isSpacing c = false) (hname : isNameStart c = false)
    (hdigit : c.isDigit = false) (rest : List Char) : munch c rest =
      (if fractionLength (c :: rest) = 0 then singleKind c else .float,
        fractionLength (c :: rest) - 1) := by
  rw [munch_of_other hspacing hname hdigit]
  split
  · next hzero => rw [hzero]
  · rfl

/-- The first token does not depend on blanks behind it. -/
theorem measures_munch {c : Char} (hc : AlgebraTutor.isBlank c = false) {rest : List Char}
    (h : Aired rest) : (munch c (unspaced rest)).1 = (munch c rest).1 ∧
      Measures (fun rest => (munch c rest).2) rest := by
  have hspacing := isSpacing_of_not_isBlank hc
  by_cases hname : isNameStart c = true
  · simp only [munch_of_isNameStart hname, true_and]
    exact measures_takeWhile rfl rfl rfl rfl rfl h
  by_cases hdigit : c.isDigit = true
  · simp only [munch_number hdigit]
    refine ⟨?_, (measures_digits h).append measures_fraction⟩
    obtain ⟨front, after, rfl, hafter, hfront, hlength, hlength'⟩ := measures_digits h
    dsimp only at hlength hlength'
    rw [unspaced_append hfront] at hlength' ⊢
    rw [hlength, hlength', List.drop_left, List.drop_left]
    obtain ⟨front', after', rfl, -, hfront', hsame, hsame'⟩ := measures_fraction hafter
    rw [hsame, hsame']
  · obtain ⟨front, after, heq, hafter, hfront, hlength, hlength'⟩ :=
      measures_fraction (.char hc h)
    rw [unspaced_char hc] at hlength'
    rw [Bool.not_eq_true] at hname hdigit
    simp only [munch_fraction hspacing hname hdigit, hlength, hlength', true_and]
    cases front with
    | nil => exact ⟨[], rest, rfl, h, by simp, by simp [hlength], by simp [hlength']⟩
    | cons d front =>
        obtain rfl : c = d := (List.cons.inj heq).1
        obtain rfl : rest = front ++ after := (List.cons.inj heq).2
        exact ⟨front, after, rfl, hafter, (List.forall_mem_cons.mp hfront).2, by simp [hlength],
          by simp [hlength']⟩

/-- **A text with blanks only around signs has the same tokens without them.** -/
theorem lexemes_unspaced {text : List Char} (h : Aired text) :
    lexemes (unspaced text) = lexemes text := by
  suffices hall : ∀ (n : Nat) (text : List Char), text.length ≤ n → Aired text →
      lexemes (unspaced text) = lexemes text from hall text.length text (Nat.le_refl _) h
  intro n
  induction n with
  | zero =>
      intro text hn _
      obtain rfl : text = [] := List.eq_nil_of_length_eq_zero (Nat.le_zero.mp hn)
      rfl
  | succ n ih =>
      intro text hn h
      cases h with
      | nil => rfl
      | @char c rest hc hrest =>
          obtain ⟨hkind, front, after, rfl, hafter, hfront, hlength, hlength'⟩ :=
            measures_munch hc hrest
          dsimp only at hlength hlength'
          have hshorter : after.length ≤ n := by
            rw [List.length_cons, List.length_append] at hn
            omega
          rw [unspaced_char hc, lexemes_cons, lexemes_cons, hkind, hlength, hlength',
            unspaced_append hfront, List.take_left, List.take_left, List.drop_left,
            List.drop_left, ih after hshorter hafter]
      | @sign c rest hc hrest =>
          have hshorter : rest.length ≤ n := by
            simp only [List.length_cons] at hn
            omega
          rw [unspaced_sign hc, lexemes_space]
          rcases hc with rfl | rfl | rfl
          · rw [lexemes_plus, lexemes_plus, lexemes_space, ih rest hshorter hrest]
          · rw [lexemes_minus, lexemes_minus, lexemes_space, ih rest hshorter hrest]
          · rw [lexemes_times, lexemes_times, lexemes_space, ih rest hshorter hrest]
      | @comma rest hrest =>
          have hshorter : rest.length ≤ n := by
            simp only [List.length_cons] at hn
            omega
          rw [unspaced_comma, lexemes_comma, lexemes_comma, lexemes_space, ih rest hshorter hrest]

end Token

/-! ### Printed trees -/

namespace Expr

open Token

theorem isBlank_of_isDigit {c : Char} (h : c.isDigit = true) : isBlank c = false := by
  simp only [Char.isDigit, Bool.and_eq_true, decide_eq_true_eq, ge_iff_le,
    UInt32.le_iff_toNat_le] at h
  have hzero : '0'.val.toNat = 48 := rfl
  have hnine : '9'.val.toNat = 57 := rfl
  have hc : c.val.toNat = c.toNat := rfl
  simp only [isBlank, Bool.or_eq_false_iff, Bool.and_eq_false_iff, decide_eq_false_iff_not,
    beq_eq_false_iff_ne]
  omega

theorem isBlank_of_isNameRest {c : Char} (h : isNameRest c = true) : isBlank c = false := by
  by_cases hdigit : c.isDigit = true
  · exact isBlank_of_isDigit hdigit
  · simp only [isNameRest, Char.isAlphanum, hdigit, Char.isAlpha, Char.isUpper, Char.isLower,
      ge_iff_le, UInt32.le_iff_toNat_le, Bool.or_eq_true, Bool.and_eq_true, decide_eq_true_eq,
      beq_iff_eq, or_false, Bool.false_eq_true] at h
    have hA : 'A'.val.toNat = 65 := rfl
    have hZ : 'Z'.val.toNat = 90 := rfl
    have ha : 'a'.val.toNat = 97 := rfl
    have hz : 'z'.val.toNat = 122 := rfl
    have hc : c.val.toNat = c.toNat := rfl
    rcases h with h | rfl
    · simp only [isBlank, Bool.or_eq_false_iff, Bool.and_eq_false_iff, decide_eq_false_iff_not,
        beq_eq_false_iff_ne]
      omega
    · decide

theorem aired_identifier {name : List Char} (h : isIdentifier name = true) : Aired name := by
  refine .of_forall fun c hc => isBlank_of_isNameRest ?_
  cases name with
  | nil => cases h
  | cons first rest =>
      obtain ⟨hfirst, hrest⟩ := Bool.and_eq_true_iff.mp h
      rcases List.mem_cons.mp hc with rfl | hc
      · simp only [isNameStart, Bool.or_eq_true] at hfirst
        simp only [isNameRest, Char.isAlphanum, Bool.or_eq_true]
        exact hfirst.imp_left .inl
      · exact List.all_eq_true.mp hrest c hc

theorem aired_digits {digits : List Char} (h : ∀ c ∈ digits, c.isDigit = true) : Aired digits :=
  .of_forall fun c hc => isBlank_of_isDigit (h c hc)

theorem aired_wrap {text : List Char} (h : Aired text) (needed : Bool) :
    Aired (wrap needed text) := by
  unfold wrap
  split
  · exact .char (by decide) (h.append (.char (by decide) .nil))
  · exact h

theorem aired_natText (n : Nat) : Aired (natText n) :=
  aired_digits fun _ hc => isDigit_of_mem_natText hc

theorem aired_signed {q : Prop} [Decidable q] {text : List Char} (h : Aired text) :
    Aired (if q then '-' :: text else text) := by
  split
  · exact .char (by decide) h
  · exact h

theorem aired_constText (q : Rat) : Aired (constText q) := by
  rcases constText_cases q with ⟨numeral, hwrites, -⟩ | ⟨-, htext⟩
  · rw [hwrites.text]
    refine aired_signed ?_
    cases hwrites.isNumeral with
    | whole _ hdigits => exact aired_digits hdigits
    | pointed _ _ hwhole hplaces =>
        exact (aired_digits hwhole).append (.char (by decide) (aired_digits hplaces))
  · rw [htext, (intText_writes q.num).text]
    exact (aired_signed (aired_natText _)).append (.char (by decide) (aired_natText _))

theorem aired_intercalate {texts : List (List Char)} (h : ∀ text ∈ texts, Aired text) :
    Aired (List.intercalate [',', ' '] texts) := by
  induction texts with
  | nil => exact .nil
  | cons text texts ih =>
      obtain ⟨htext, htexts⟩ := List.forall_mem_cons.mp h
      cases texts with
      | nil => rwa [List.intercalate_singleton]
      | cons next texts =>
          rw [List.intercalate_cons_cons, List.append_assoc]
          exact htext.append (.comma (ih htexts))

/-- Each text of an operand has its blanks around signs. -/
def AiredTexts (operands : List (Expr × List Char)) : Prop :=
  ∀ operand ∈ operands, Aired operand.2

theorem aired_laterFactors (implicit : Bool) {factors : List (Expr × List Char)} :
    AiredTexts factors → ∀ (isSecond : Bool) (previous : Expr),
      Aired (laterFactors .spaced implicit isSecond previous factors) := by
  induction factors with
  | nil => intro _ isSecond previous; exact .nil
  | cons factor factors ih =>
      intro h isSecond previous
      obtain ⟨hfactor, hfactors⟩ := List.forall_mem_cons.mp h
      have hrest := (aired_wrap hfactor (factorIsWrapped false factor.1)).append
        (ih hfactors false factor.1)
      rw [laterFactors, List.append_assoc]
      split
      · exact hrest
      · exact .sign (by decide) hrest

theorem aired_productText (implicit : Bool) {factors : List (Expr × List Char)}
    (h : AiredTexts factors) : Aired (productText .spaced implicit factors) := by
  cases factors with
  | nil => exact .nil
  | cons factor factors =>
      obtain ⟨hfactor, hfactors⟩ := List.forall_mem_cons.mp h
      exact (aired_wrap hfactor _).append (aired_laterFactors implicit hfactors _ _)

theorem aired_chainText {sign : Char} (hsign : isBlank sign = false) (firstLimit limit : Nat)
    {operands : List (Expr × List Char)} (h : AiredTexts operands) :
    Aired (chainText sign firstLimit limit operands) := by
  cases operands with
  | nil => exact .nil
  | cons operand operands =>
      obtain ⟨hoperand, hoperands⟩ := List.forall_mem_cons.mp h
      refine (aired_wrap hoperand _).append (.flatMap fun operand hmem => ?_)
      exact .char hsign (aired_wrap (hoperands operand hmem) _)

theorem airedTexts_renderAll {es : List Expr} (h : ∀ e ∈ es, Aired (render .spaced e)) :
    AiredTexts (renderAll .spaced es) := by
  rw [renderAll_eq_map]
  exact List.forall_mem_map.mpr h

theorem aired_callText {name : String} (hname : isIdentifier name.toList = true) {es : List Expr}
    (hes : ∀ e ∈ es, Aired (render .spaced e)) :
    Aired (callText .spaced name (renderAll .spaced es)) := by
  obtain ⟨name', es', hshown, hname', hes', -⟩ := exists_shownCall .spaced name es
  have htexts := airedTexts_renderAll fun e he => hes e (hes' e he)
  rw [callText, hshown]
  refine (aired_identifier (hname' hname)).append (aired_wrap (aired_intercalate ?_) true)
  exact List.forall_mem_map.mpr htexts

theorem aired_laterTerms {terms : List Expr} :
    (∀ term ∈ terms, Aired (render .spaced ((withoutMinus? term).getD term))) →
      Aired (laterTerms .spaced terms) := by
  induction terms with
  | nil =>
      intro _
      rw [laterTerms]
      exact .nil
  | cons term terms ih =>
      intro h
      obtain ⟨hterm, hterms⟩ := List.forall_mem_cons.mp h
      rw [laterTerms_cons]
      refine Aired.append ?_ (ih hterms)
      cases hminus : withoutMinus? term with
      | none =>
          rw [hminus] at hterm
          exact .sign (by decide) (aired_wrap hterm _)
      | some positive =>
          rw [hminus] at hterm
          exact .sign (by decide) (aired_wrap hterm _)

/-- A well-formed tree is printed with blanks only around signs and after commas. -/
theorem aired_render {e : Expr} (hwell : e.isWellFormed = true) : Aired (render .spaced e) := by
  induction e, hwell using wellFormed_induction with
  | const q =>
      rw [render]
      exact aired_constText q
  | symbol name hwell =>
      rw [render]
      exact aired_identifier hwell
  | member object index hwell =>
      obtain ⟨hobject, hindex⟩ := Bool.and_eq_true_iff.mp hwell
      rw [render]
      exact (aired_identifier hobject).append (.char (by decide) (aired_identifier hindex))
  | call name args hwell _ ih =>
      rw [render]
      exact aired_callText (isWellFormed_call.mp hwell).1 ih
  | add first rest i _ _ _ ih ihShown =>
      rw [render]
      exact (ih first (.head _)).append (aired_laterTerms ihShown)
  | mul first rest i _ _ ih =>
      rw [render]
      exact aired_productText i (airedTexts_renderAll ih)
  | div a b i _ _ _ iha ihb =>
      rw [render]
      exact aired_chainText (by decide) 1 3 (airedTexts_renderAll (by simp [iha, ihb]))
  | pow a b i _ _ _ iha ihb =>
      rw [render]
      exact aired_chainText (by decide) 4 2 (airedTexts_renderAll (by simp [iha, ihb]))
  | neg a i _ _ ih =>
      rw [render_neg]
      exact .char (by decide) (aired_wrap ih _)

/-! ### What is read without the blanks -/

/-- What is read from a text depends on its tokens alone. -/
theorem parse_toOption_congr {a b : String} (h : lexemes a.toList = lexemes b.toList) :
    (parse a).toOption = (parse b).toOption := by
  have hread : ∀ e, parse a = .ok e ↔ parse b = .ok e := by
    intro e
    rw [parse_eq_ok_iff, parse_eq_ok_iff, h]
  cases ha : parse a with
  | ok e => rw [(hread e).mp ha]
  | error error =>
      cases hb : parse b with
      | ok e => rw [(hread e).mpr hb] at ha; cases ha
      | error error' => rfl

/-- **The text of a well-formed tree reads the same without its blanks.** -/
theorem parse_squeeze_text {e : Expr} (hwell : e.isWellFormed = true) :
    (parse (squeeze e.text)).toOption = (parse e.text).toOption := by
  refine parse_toOption_congr ?_
  rw [squeeze, text, String.toList_ofList, String.toList_ofList]
  exact lexemes_unspaced (aired_render hwell)

end Expr

end AlgebraTutor
