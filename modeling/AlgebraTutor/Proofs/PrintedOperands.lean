/-
Printed constants, names, calls and operands.

A constant is a numeral, with a sign or with a denominator.  A negation, a power and a quotient have
one or two operands, and each is in parentheses unless it is tight enough for its place.
-/
import AlgebraTutor.Proofs.Printing

namespace AlgebraTutor

open Token

namespace Expr

/-! ### Numbers -/

theorem derives_numeral {numeral : List Char} {q : Rat} (h : IsNumeral numeral)
    (hq : decimal? numeral = some q) {tail : List Char}
    (htail : Starts (fun c => !c.isDigit && c != '.') tail) :
    Derives .primary (lexemes (numeral ++ tail)) (.number (String.ofList numeral)) (lexemes tail) ∧
      (Phrase.number (String.ofList numeral)).Means (const q) := by
  obtain ⟨kind, hkind, hlexemes⟩ := lexemes_numeral h htail
  rw [hlexemes]
  exact ⟨.number hkind, .number hq⟩

/-- The text of a number with its sign. -/
theorem derives_written {text numeral : List Char} {q : Rat} (h : Writes text q numeral)
    {tail : List Char} (htail : Starts (fun c => !c.isDigit && c != '.') tail) :
    ∃ p : Phrase, p.Means (const q) ∧ p.tightness = (if q < 0 then 3 else 5) ∧
      Derives .factor (lexemes (text ++ tail)) p (lexemes tail) := by
  obtain ⟨hderives, hmeans⟩ := derives_numeral h.isNumeral h.reads htail
  rw [h.text]
  by_cases hneg : q < 0
  · rw [if_pos hneg, if_pos hneg, List.cons_append, lexemes_minus]
    refine ⟨_, hmeans.neg.congr fun ρ => ?_, rfl, .negation rfl (.factor (.power hderives))⟩
    rw [value_minus, value, value, abs_of_neg hneg]
    simp
  · rw [if_neg hneg, if_neg hneg]
    rw [abs_of_nonneg (not_lt.mp hneg)] at hmeans
    exact ⟨_, hmeans, rfl, .factor (.power hderives)⟩

/-- A constant is written as a numeral with its sign if its expansion ends, and else as a
fraction. -/
theorem constText_cases (q : Rat) :
    (∃ numeral, Writes (constText q) q numeral ∧ (const q).tightness = if q < 0 then 3 else 5) ∨
      ((const q).tightness = 2 ∧ constText q = intText q.num ++ '/' :: natText q.den) := by
  cases htext : decimalText? q with
  | some text =>
      obtain ⟨numeral, hwrites⟩ := decimalText?_writes htext
      refine .inl ⟨numeral, ?_, by rw [tightness, if_neg (by simp [htext])]⟩
      rwa [constText, htext, Option.getD_some]
  | none =>
      have hden : q.den ≠ 1 := by
        intro hden
        rw [decimalText?, if_pos hden] at htext
        cases htext
      refine .inr ⟨by rw [tightness, if_pos ⟨hden, by rw [htext]; rfl⟩], ?_⟩
      rw [constText, htext, Option.getD_none, ratioText, if_neg hden]

theorem derives_const {q : Rat} (htight : 2 < (const q).tightness) {tail : List Char}
    (htail : Starts (fun c => !c.isDigit && c != '.') tail) :
    ∃ p : Phrase, p.Means (const q) ∧
      Derives .factor (lexemes (constText q ++ tail)) p (lexemes tail) := by
  rcases constText_cases q with ⟨numeral, hwrites, -⟩ | ⟨hfraction, -⟩
  · obtain ⟨p, hp, -, hderives⟩ := derives_written hwrites htail
    exact ⟨p, hp, hderives⟩
  · omega

theorem printable_const (style : Style) (q : Rat) : Printable style (const q) := by
  have hrender : render style (const q) = constText q := by rw [render]
  rcases constText_cases q with ⟨numeral, hwrites, htight⟩ | ⟨htight, htext⟩
  · by_cases hneg : q < 0
    · refine .of_factor ?_ (by rw [htight, if_pos hneg])
      intro tail htail
      obtain ⟨p, hp, hbinds, hderives⟩ := derives_written hwrites htail.not_digit
      rw [hrender]
      exact ⟨p, ⟨hp, fun _ => hbinds.trans htight.symm⟩, hderives⟩
    · refine .of_primary ?_
      intro tail htail
      obtain ⟨hderives, hmeans⟩ := derives_numeral hwrites.isNumeral hwrites.reads htail.not_digit
      rw [abs_of_nonneg (not_lt.mp hneg)] at hmeans
      rw [hrender, hwrites.text, if_neg hneg]
      rw [if_neg hneg] at htight
      exact ⟨_, ⟨hmeans, fun _ => htight.symm⟩, hderives⟩
  · refine .of_term ?_ htight.le
    intro tail htail
    have hslash : Starts (fun c => !c.isDigit && c != '.') ('/' :: (natText q.den ++ tail)) := by
      rintro _ ⟨⟩
      rfl
    obtain ⟨p, hp, -, hnum⟩ := derives_written (intText_writes q.num) hslash
    obtain ⟨hdenominator, hmeans⟩ := derives_numeral
      (.whole (natText_ne_nil q.den) fun c => isDigit_of_mem_natText) (decimal?_natText q.den)
      htail.not_digit
    rw [lexemes_slash] at hnum
    refine ⟨_, ⟨(hp.binary .div false hmeans).congr fun ρ => ?_, fun _ => htight.symm⟩,
      fun r rest hmore => ?_⟩
    · have hden0 : (q.den : Rat) ≠ 0 := by exact_mod_cast q.den_nz
      simp [Phrase.joined, hden0, Rat.num_div_den]
    · rw [hrender, htext, List.append_assoc, List.cons_append]
      exact .term hnum (.factorsMore rfl rfl (.factor (.power hdenominator)) hmore)

/-! ### Names and calls -/

theorem starts_of_isIdentifier {name : List Char} (h : isIdentifier name = true) :
    ∃ c rest, name = c :: rest ∧ isNameStart c = true := by
  cases name with
  | nil => cases h
  | cons c rest => exact ⟨c, rest, rfl, (Bool.and_eq_true_iff.mp h).1⟩

theorem printable_symbol (style : Style) {name : String} (hname : isIdentifier name.toList = true) :
    Printable style (symbol name) := by
  refine .of_primary fun tail htail => ⟨_, ⟨.symbol name, fun _ => rfl⟩, ?_⟩
  rw [render, lexemes_name hname htail.not_name, String.ofList_toList]
  exact .symbol rfl (htail.noParen rfl)

theorem printable_member (style : Style) {object index : String}
    (hobject : isIdentifier object.toList = true) (hindex : isIdentifier index.toList = true) :
    Printable style (member object index) := by
  refine .of_primary fun tail htail => ⟨_, ⟨.member object index, fun _ => rfl⟩, ?_⟩
  have hpoint : Starts (fun c => !c.isDigit) (index.toList ++ tail) := by
    obtain ⟨c, rest, hc, hstart⟩ := starts_of_isIdentifier hindex
    rw [hc]
    rintro _ ⟨⟩
    simp [isDigit_of_isNameStart hstart]
  have hafter : Starts (fun c => !isNameRest c) ('.' :: (index.toList ++ tail)) := by
    rintro _ ⟨⟩
    rfl
  rw [render, List.append_assoc, List.cons_append, lexemes_name hobject hafter,
    lexemes_point hpoint, lexemes_name hindex htail.not_name, String.ofList_toList,
    String.ofList_toList]
  exact .member rfl rfl rfl

theorem renderAll_eq_map (style : Style) (es : List Expr) :
    renderAll style es = es.map fun e => (e, render style e) := by
  induction es with
  | nil => rw [renderAll, List.map_nil]
  | cons e es ih => rw [renderAll, List.map_cons, ih]

/-- Arguments with commas between them are the arguments of a call. -/
theorem derives_arguments {style : Style} (name : String) (tail : List Char) : ∀ (es : List Expr),
    es ≠ [] → (∀ e ∈ es, Printable style e) → ∃ ps, List.Forall₂ Phrase.Means ps es ∧
      ∀ before, Derives (.arguments name before)
        (lexemes (List.intercalate (if style = .spaced then [',', ' '] else [','])
          (es.map (render style)) ++ ')' :: tail)) (.call name (before ++ ps)) (lexemes tail) := by
  intro es
  induction es with
  | nil => intro hne; exact absurd rfl hne
  | cons e es ih =>
      intro _ hprintable
      obtain ⟨he, hes⟩ := List.forall_mem_cons.mp hprintable
      cases es with
      | nil =>
          have htail : Follows true (')' :: tail) := .of_cons rfl (lexemes_close tail) (by decide)
          obtain ⟨p, hp, hderives⟩ := he.sum.derives_expr htail
          rw [lexemes_close] at hderives
          refine ⟨[p], .cons hp.means .nil, fun before => ?_⟩
          rw [List.map_cons, List.map_nil, List.intercalate_singleton]
          exact .argumentsLast rfl hderives
      | cons f es =>
          obtain ⟨ps, hps, hmore⟩ := ih (List.cons_ne_nil _ _) hes
          generalize hrest : List.intercalate (if style = .spaced then [',', ' '] else [','])
            ((f :: es).map (render style)) ++ ')' :: tail = rest at hmore
          have hcomma : ∃ after, (if style = .spaced then [',', ' '] else [',']) ++ rest =
              ',' :: after ∧ lexemes after = lexemes rest := by
            cases style with
            | spaced => exact ⟨' ' :: rest, rfl, lexemes_space rest⟩
            | compact => exact ⟨rest, rfl, rfl⟩
          obtain ⟨after, hafter, hlexemes⟩ := hcomma
          have htail : Follows true (',' :: after) :=
            .of_cons rfl (lexemes_comma after) (by decide)
          obtain ⟨p, hp, hderives⟩ := he.sum.derives_expr htail
          rw [lexemes_comma, hlexemes] at hderives
          refine ⟨p :: ps, .cons hp.means hps, fun before => ?_⟩
          have htext : List.intercalate (if style = .spaced then [',', ' '] else [','])
              ((e :: f :: es).map (render style)) ++ ')' :: tail =
                render style e ++ ',' :: after := by
            rw [List.map_cons, List.map_cons, List.intercalate_cons_cons, List.append_assoc,
              List.append_assoc, ← List.map_cons, hrest, hafter]
          rw [htext]
          refine .argumentsMore rfl hderives ?_
          have hbefore := hmore (before ++ [p])
          rwa [List.append_assoc] at hbefore

/-- A name with arguments in parentheses is a call. -/
theorem derives_call {style : Style} {name : String} (hname : isIdentifier name.toList = true)
    {es : List Expr} (hes : ∀ e ∈ es, Printable style e) (tail : List Char) :
    ∃ p : Phrase, p.Means (call name es) ∧ p.tightness = 5 ∧
      Derives .primary (lexemes (name.toList ++ wrap true (List.intercalate
        (if style = .spaced then [',', ' '] else [',']) (es.map (render style))) ++ tail)) p
        (lexemes tail) := by
  have hparen : ∀ text : List Char, name.toList ++ wrap true text ++ tail =
      name.toList ++ '(' :: (text ++ ')' :: tail) := fun text => by simp [wrap]
  have hstarts : ∀ rest, Starts (fun c => !isNameRest c) ('(' :: rest) := by
    rintro rest _ ⟨⟩
    rfl
  rw [hparen, lexemes_name hname (hstarts _), lexemes_open, String.ofList_toList]
  by_cases hempty : es = []
  · subst hempty
    refine ⟨_, .call name .nil, rfl, ?_⟩
    rw [List.map_nil, List.intercalate_nil, List.nil_append, lexemes_close]
    exact .callEmpty rfl rfl rfl
  · obtain ⟨ps, hps, hderives⟩ := derives_arguments name tail es hempty hes
    exact ⟨_, .call name hps, rfl, .call rfl rfl (hderives [])⟩

/-- Two arguments with their printed forms are just these. -/
theorem eq_pair_of_renderAll {style : Style} {es : List Expr} {a b : Expr × List Char}
    (h : renderAll style es = [a, b]) : es = [a.1, b.1] ∧ b.2 = render style b.1 := by
  rw [renderAll_eq_map] at h
  obtain ⟨e, es₁, rfl, rfl, hes₁⟩ := List.map_eq_cons_iff.mp h
  obtain ⟨f, es₂, rfl, rfl, hes₂⟩ := List.map_eq_cons_iff.mp hes₁
  obtain rfl := List.map_eq_nil_iff.mp hes₂
  exact ⟨rfl, rfl⟩

/-- Logarithms mean the same under the name they are shown with. -/
theorem exists_shownCall (style : Style) (name : String) (es : List Expr) :
    ∃ name' es', shownCall style name (renderAll style es) = (name', renderAll style es') ∧
      (isIdentifier name.toList = true → isIdentifier name'.toList = true) ∧ (∀ e ∈ es', e ∈ es) ∧
      ∀ ρ : Valuation, (call name' es').value ρ = (call name es).value ρ := by
  have hsame : ∃ name' es', (name, renderAll style es) = (name', renderAll style es') ∧
      (isIdentifier name.toList = true → isIdentifier name'.toList = true) ∧
      (∀ e ∈ es', e ∈ es) ∧
      ∀ ρ : Valuation, (call name' es').value ρ = (call name es).value ρ :=
    ⟨name, es, rfl, id, fun _ h => h, fun _ => rfl⟩
  generalize htexts : renderAll style es = texts at hsame ⊢
  unfold shownCall
  split
  · next base argument =>
      split
      · next hlog =>
          obtain ⟨rfl, rfl⟩ := hlog
          obtain ⟨rfl, hargument⟩ := eq_pair_of_renderAll htexts
          refine ⟨"log10", [argument.1], ?_, fun _ => by decide,
            fun e he => List.mem_cons_of_mem _ he, fun ρ => ?_⟩
          · rw [renderAll_eq_map, List.map_singleton, ← hargument]
          · cases hf : argument.1.value ρ <;> simp [hf, ρ.call_decimalLog]
      · exact hsame
  · next base argument =>
      split
      · next hlog =>
          obtain ⟨rfl, rfl, rfl⟩ := hlog
          obtain ⟨rfl, hargument⟩ := eq_pair_of_renderAll htexts
          refine ⟨"ln", [argument.1], ?_, fun _ => by decide,
            fun e he => List.mem_cons_of_mem _ he, fun ρ => ?_⟩
          · rw [renderAll_eq_map, List.map_singleton, ← hargument]
          · cases hf : argument.1.value ρ <;> simp [hf, ρ.call_naturalLog]
      · exact hsame
  · exact hsame

theorem printable_call {style : Style} {name : String} (hname : isIdentifier name.toList = true)
    {es : List Expr} (hes : ∀ e ∈ es, Printable style e) : Printable style (call name es) := by
  refine .of_primary fun tail htail => ?_
  obtain ⟨name', es', hshown, hname', hes', hvalue⟩ := exists_shownCall style name es
  obtain ⟨p, hp, hbinds, hderives⟩ :=
    derives_call (hname' hname) (fun e he => hes e (hes' e he)) tail
  refine ⟨p, ⟨hp.congr hvalue, fun _ => hbinds⟩, ?_⟩
  have hmap : (renderAll style es').map Prod.snd = es'.map (render style) := by
    rw [renderAll_eq_map, List.map_map]
    rfl
  rw [← hmap] at hderives
  rw [render, callText, hshown]
  exact hderives

/-! ### Negations, powers and quotients -/

section Operators

variable {style : Style} {a b : Expr}

theorem render_neg (i : Bool) : render style (op .neg [a] i) =
    '-' :: wrap (a.tightness ≤ 3) (render style a) := by
  rw [render, renderAll_eq_map]
  simp

theorem render_div (i : Bool) : render style (op .div [a, b] i) =
    wrap (a.tightness ≤ 1) (render style a) ++ '/' :: wrap (b.tightness ≤ 3) (render style b) := by
  rw [render, renderAll_eq_map]
  simp [chainText]

theorem render_pow (i : Bool) : render style (op .pow [a, b] i) =
    wrap (a.tightness ≤ 4) (render style a) ++ '^' :: wrap (b.tightness ≤ 2) (render style b) := by
  rw [render, renderAll_eq_map]
  simp [chainText]

theorem lt_of_not_wrapped {n k : Nat} (h : decide (n ≤ k) = false) : k < n :=
  Nat.lt_of_not_le (of_decide_eq_false h)

/-- Where the last operand is not in parentheses, it ends what is printed. -/
theorem follows_last {k : Nat} {tail : List Char}
    (h : Follows (decide (k < a.tightness) && a.endsInName) tail)
    (hwrapped : decide (a.tightness ≤ k) = false) : Follows a.endsInName tail := by
  rwa [decide_eq_true (lt_of_not_wrapped hwrapped), Bool.true_and] at h

theorem printable_neg (ha : Printable style a) (i : Bool) : Printable style (op .neg [a] i) := by
  refine .of_factor (fun tail htail => ?_) (by rw [tightness])
  rw [endsInName] at htail
  obtain ⟨p, hp, hderives⟩ := ha.wrap_power lt_of_not_wrapped (follows_last htail)
  rw [render_neg, List.cons_append, lexemes_minus]
  exact ⟨.neg p, ⟨hp.neg, fun _ => rfl⟩, .negation rfl (.factor hderives)⟩

theorem printable_div (ha : Printable style a) (hb : Printable style b) (i : Bool) :
    Printable style (op .div [a, b] i) := by
  refine .of_term (fun tail htail => ?_) (by rw [tightness])
  rw [endsInName] at htail
  obtain ⟨q, hq, hright⟩ := hb.wrap_power lt_of_not_wrapped (follows_last htail)
  have hslash : ∀ c text, Follows c ('/' :: text) :=
    fun c text => .of_cons rfl (lexemes_slash text) (by decide)
  obtain ⟨p, hp, hleft⟩ := ha.wrap_term lt_of_not_wrapped fun _ => hslash _ _
  refine ⟨_, ⟨hp.binary .div false hq, fun _ => rfl⟩, fun r rest hmore => ?_⟩
  rw [render_div, List.append_assoc, List.cons_append]
  refine hleft _ _ ?_
  rw [lexemes_slash]
  exact .factorsMore rfl rfl (.factor hright) hmore

theorem printable_pow (ha : Printable style a) (hb : Printable style b) (i : Bool) :
    Printable style (op .pow [a, b] i) := by
  refine .of_power (fun tail htail => ?_) (by rw [tightness])
  rw [endsInName] at htail
  obtain ⟨q, hq, hright⟩ := hb.wrap_factor lt_of_not_wrapped (follows_last htail)
  have hcaret : ∀ c text, Follows c ('^' :: text) :=
    fun c text => .of_cons rfl (lexemes_caret text) (by decide)
  obtain ⟨p, hp, hleft⟩ := ha.wrap_primary lt_of_not_wrapped fun _ => hcaret _ _
  rw [lexemes_caret] at hleft
  refine ⟨_, ⟨hp.binary .exp false hq, fun _ => rfl⟩, ?_⟩
  rw [render_pow, List.append_assoc, List.cons_append]
  exact .exponent rfl hleft hright

end Operators

end Expr

end AlgebraTutor
