/-
Reading back what is shown.

A tree as it is read is shown in the same way as the tree itself, and hides no call.  So it is read
back, and with it the tree it came from: what is shown of a tree has the value of the tree as it is
read.
-/
import AlgebraTutor.Proofs.AsRead

namespace AlgebraTutor

namespace Expr

/-! ### A product as it is read -/

theorem isSwallowed_eq_true {isFirst : Bool} {previous factor : Expr} :
    isSwallowed isFirst previous factor = true ↔ factorIsWrapped false factor = true ∧
      previous.isSymbol = false ∧ factorIsWrapped isFirst previous = false ∧
      previous.endsInName = true := by
  unfold isSwallowed
  simp [and_assoc]

theorem isConstant_of_endsInName {e : Expr} (h : e.endsInName = true) : e.isConstant = false := by
  cases e with
  | const q => cases h
  | _ => rfl

theorem isSymbol_of_wrapped {e : Expr} (h : factorIsWrapped false e = true) :
    e.isSymbol = false := by
  cases e with
  | symbol name => cases h
  | _ => rfl

/-- A factor that is read as an argument goes with what is in front of it. -/
theorem factorsText_called {isFirst : Bool} {previous factor : Expr}
    (hwell : previous.isWellFormed = true) (hswallowed : isSwallowed isFirst previous factor = true)
    (isSecond : Bool) (rest : List Expr) :
    factorsText true isFirst isSecond (called factor previous :: rest) =
      factorsText true isFirst isSecond (previous :: factor :: rest) := by
  obtain ⟨hwrapped, hsymbol, hunwrapped, hname⟩ := isSwallowed_eq_true.mp hswallowed
  have hcall : ShowsCall factor (called factor previous) previous :=
    showsCall_called previous hwell hname
  have hjuxtaposes : juxtaposes .spaced true isSecond previous factor = true := by
    simp [juxtaposes, hwrapped, hsymbol]
  rw [factorsText_cons, if_pos hjuxtaposes, hunwrapped, factorsText, hcall.factorIsWrapped,
    hunwrapped, hcall.text, factorsText, hwrapped]
  simp only [wrap_false, List.append_assoc, List.nil_append]
  cases rest with
  | nil => rw [renderAll, laterFactors, laterFactors]
  | cons next rest =>
      have hconstant := hcall.isConstant.trans (isConstant_of_endsInName hname)
      have hnext : juxtaposes .spaced true isSecond (called factor previous) next =
          juxtaposes .spaced true false factor next := by
        simp [juxtaposes, hconstant, hcall.isSymbol hsymbol, isSymbol_of_wrapped hwrapped]
      rw [laterFactors_cons, laterFactors_cons, hnext]

/-- **A product is shown as it was when the factors that are read as arguments are made arguments**,
and then it has no more such factors. -/
theorem factorsFit_withCalls (implicit : Bool) {rest : List Expr} :
    ∀ (isFirst : Bool) {previous : Expr}, (∀ factor ∈ previous :: rest, factor.IsClear) →
    FactorsFit implicit isFirst [] (withCalls implicit isFirst previous rest) (previous :: rest) ∧
    lastEndsInName isFirst (withCalls implicit isFirst previous rest) =
      lastEndsInName isFirst (previous :: rest) ∧
    (implicit && factorsSwallow isFirst (withCalls implicit isFirst previous rest)) = false ∧
    ∀ factor ∈ withCalls implicit isFirst previous rest, factor.IsClear := by
  induction rest with
  | nil =>
      intro isFirst previous hclear
      refine ⟨⟨fun _ => (List.append_nil _).symm, _, _, _, _, rfl, rfl, .refl _⟩, rfl, ?_, hclear⟩
      exact Bool.and_false implicit
  | cons factor rest ih =>
      intro isFirst previous hclear
      obtain ⟨hprevious, hfactors⟩ := List.forall_mem_cons.mp hclear
      obtain ⟨hfactor, hrest⟩ := List.forall_mem_cons.mp hfactors
      rw [withCalls]
      by_cases hswallowed : (implicit && isSwallowed isFirst previous factor) = true
      · rw [if_pos hswallowed]
        obtain ⟨rfl, hswallowed⟩ := Bool.and_eq_true_iff.mp hswallowed
        obtain ⟨hwrapped, -, -, hname⟩ := isSwallowed_eq_true.mp hswallowed
        have hcall : ShowsCall factor (called factor previous) previous :=
          showsCall_called previous hprevious.wellFormed hname
        have hclear' : ∀ f ∈ called factor previous :: rest, f.IsClear :=
          List.forall_mem_cons.mpr ⟨isClear_called hfactor previous hprevious hname, hrest⟩
        obtain ⟨hfit, hends, hnone, hall⟩ := ih isFirst hclear'
        obtain ⟨factor', rest', _, _, hnew, hold, hfits⟩ := hfit.head
        cases hold
        refine ⟨⟨fun isSecond => ?_, _, _, _, _, hnew, rfl, hfits.trans hcall.toFits⟩, ?_, hnone,
          hall⟩
        · rw [hfit.text, factorsText_called hprevious.wellFormed hswallowed]
        · rw [hends]
          cases rest with
          | nil =>
              rw [lastEndsInName, lastEndsInName, lastEndsInName, hcall.endsInName, hwrapped]
              exact Bool.and_false _
          | cons next rest => rw [lastEndsInName, lastEndsInName, lastEndsInName]
      · rw [if_neg hswallowed]
        obtain ⟨hfit, hends, hnone, hall⟩ := ih false hfactors
        obtain ⟨factor', rest', _, _, hnew, hold, hfits⟩ := hfit.head
        cases hold
        rw [hnew] at hfit hends hnone hall ⊢
        refine ⟨⟨fun isSecond => ?_, _, _, _, _, rfl, rfl, .refl _⟩, ?_, ?_,
          List.forall_mem_cons.mpr ⟨hprevious, hall⟩⟩
        · rw [factorsText_cons, factorsText_cons, hfit.text, List.append_nil, List.append_nil,
            juxtaposes_congr (.refl previous) rfl hfits]
        · rw [lastEndsInName, lastEndsInName, hends]
        · rw [factorsSwallow, swallows, isSwallowed_congr hfits, Bool.and_or_distrib_left,
            (Bool.not_eq_true _).mp hswallowed, Bool.false_or]
          exact hnone

/-! ### Sums and calls as they are read -/

/-- What is to be shown of a tree as it is read. -/
structure IsReadAs (e : Expr) : Prop where
  looks : LooksLike e.asRead e
  clear : e.asRead.IsClear

theorem laterTerms_asRead {terms : List Expr} (hwell : ∀ term ∈ terms, term.isWellFormed = true)
    (h : ∀ term ∈ terms, ((withoutMinus? term).getD term).IsReadAs) :
    laterTerms .spaced (laterTermsAsRead terms) = laterTerms .spaced terms ∧
      laterTermsHideCall (laterTermsAsRead terms) = false ∧
      ∀ term ∈ laterTermsAsRead terms, term.isWellFormed = true := by
  induction terms with
  | nil =>
      rw [laterTermsAsRead]
      exact ⟨rfl, by rw [laterTermsHideCall], hwell⟩
  | cons term terms ih =>
      obtain ⟨hterm, hterms⟩ := List.forall_mem_cons.mp hwell
      obtain ⟨hread, hreads⟩ := List.forall_mem_cons.mp h
      obtain ⟨htext, hhides, hwell'⟩ := ih hterms hreads
      rw [laterTermsAsRead_cons]
      cases hminus : withoutMinus? term with
      | some positive =>
          rw [hminus, Option.getD_some] at hread
          have hnew : withoutMinus? (minus positive.asRead) = some positive.asRead := rfl
          refine ⟨?_, ?_, List.forall_mem_cons.mpr ⟨?_, hwell'⟩⟩
          · rw [laterTerms_cons, laterTerms_cons, hminus, hnew, htext]
            simp only [hread.looks.tightness, hread.looks.text]
          · rw [laterTermsHideCall, hhides, Bool.or_false]
            exact hread.clear.hidesNoCall
          · exact isWellFormed_op.mpr ⟨rfl, List.forall_mem_singleton.mpr hread.clear.wellFormed⟩
      | none =>
          rw [hminus, Option.getD_none] at hread
          have hnew : withoutMinus? term.asRead = none := by
            rw [withoutMinus?_eq_none hread.clear.wellFormed, hread.looks.startsNegative]
            exact (withoutMinus?_eq_none hterm).mp hminus
          refine ⟨?_, ?_, List.forall_mem_cons.mpr ⟨hread.clear.wellFormed, hwell'⟩⟩
          · rw [laterTerms_cons, laterTerms_cons, hminus, hnew, htext]
            simp only [hread.looks.tightness, hread.looks.text]
          · rw [laterTermsHideCall, hhides, Bool.or_false]
            split
            · next heq => rw [hnew] at heq; cases heq
            · exact hread.clear.hidesNoCall

theorem asRead_add (first : Expr) (rest : List Expr) (i : Bool) :
    (op .add (first :: rest) i).asRead = op .add (asRead first :: laterTermsAsRead rest) i := by
  rw [asRead]

theorem asRead_mul (factors : List Expr) (i : Bool) :
    (op .mul factors i).asRead = op .mul (factorsWithCalls i (asReadAll factors)) i := by
  rw [asRead]

theorem asRead_op {kind : Op} (hkind : kind.isCommutative = false) (args : List Expr) (i : Bool) :
    (op kind args i).asRead = op kind (asReadAll args) i := by
  cases kind with
  | add => cases hkind
  | mul => cases hkind
  | _ => rw [asRead] <;> simp

/-- An operator stays an operator, so that no argument turns into the base of a logarithm. -/
theorem exists_asRead_op (kind : Op) (args : List Expr) (i : Bool) :
    ∃ args', (op kind args i).asRead = op kind args' i := by
  by_cases hkind : kind.isCommutative = true
  · cases kind with
    | add =>
        cases args with
        | nil => exact ⟨[], by rw [asRead]⟩
        | cons first rest => exact ⟨_, asRead_add first rest i⟩
    | mul => exact ⟨_, asRead_mul args i⟩
    | _ => cases hkind
  · exact ⟨_, asRead_op ((Bool.not_eq_true _).mp hkind) args i⟩

theorem callText_asRead (name : String) {args : List Expr}
    (h : ∀ a ∈ args, render .spaced a.asRead = render .spaced a) :
    callText .spaced name (renderAll .spaced (asReadAll args)) =
      callText .spaced name (renderAll .spaced args) := by
  have hall : (renderAll .spaced (asReadAll args)).map Prod.snd =
      (renderAll .spaced args).map Prod.snd := by
    rw [asReadAll_eq_map, renderAll_eq_map, renderAll_eq_map]
    simpa using h
  by_cases htwo : ∃ a b, args = [a, b]
  · obtain ⟨a, b, rfl⟩ := htwo
    have hb := h b (by simp)
    have ha := h a (by simp)
    simp only [asReadAll, renderAll, ha, hb]
    cases a with
    | const q =>
        rw [asRead]
        simp only [callText, shownCall]
        split <;> rfl
    | member object index =>
        rw [asRead]
        simp only [callText, shownCall]
        split <;> rfl
    | symbol name => rw [asRead]; rfl
    | op kind args i =>
        obtain ⟨args', hargs'⟩ := exists_asRead_op kind args i
        rw [hargs']
        rfl
    | call name args => rw [asRead]; rfl
  · have hnone : ∀ texts : List (Expr × List Char), texts.length = args.length →
        shownCall .spaced name texts = (name, texts) := by
      intro texts hlength
      unfold shownCall
      split
      · exact absurd (List.length_eq_two.mp (by simpa using hlength.symm)) htwo
      · exact absurd (List.length_eq_two.mp (by simpa using hlength.symm)) htwo
      · rfl
    unfold callText
    rw [hnone _ (by rw [renderAll_eq_map, asReadAll_eq_map]; simp),
      hnone _ (by rw [renderAll_eq_map]; simp)]
    simp only [hall]

/-! ### Every tree as it is read -/

theorem IsReadAs.of_leaf {e : Expr} (hwell : e.isWellFormed = true) (hread : e.asRead = e)
    (hhides : e.hidesCall = false) : e.IsReadAs :=
  ⟨hread.symm ▸ .refl e, hread.symm ▸ ⟨hwell, hhides⟩⟩

theorem IsReadAs.of_add {first : Expr} {rest : List Expr} {i : Bool}
    (hwell : (op .add (first :: rest) i).isWellFormed = true) (hfirst : first.IsReadAs)
    (hrest : ∀ term ∈ rest, ((withoutMinus? term).getD term).IsReadAs) :
    (op .add (first :: rest) i).IsReadAs := by
  obtain ⟨-, hargs⟩ := isWellFormed_op.mp hwell
  obtain ⟨-, hterms⟩ := List.forall_mem_cons.mp hargs
  obtain ⟨htext, hhides, hwell'⟩ := laterTerms_asRead hterms hrest
  constructor <;> rw [asRead_add]
  · have hrender : render .spaced (op .add (asRead first :: laterTermsAsRead rest) i) =
        render .spaced (op .add (first :: rest) i) := by
      rw [render, render, hfirst.looks.text, htext]
    exact ⟨⟨rfl, rfl, rfl, rfl⟩, hrender, rfl, rfl⟩
  · refine ⟨isWellFormed_op.mpr ⟨rfl, ?_⟩, ?_⟩
    · exact List.forall_mem_cons.mpr ⟨hfirst.clear.wellFormed, hwell'⟩
    · rw [hidesCall_add, hfirst.clear.hidesNoCall, hhides, Bool.or_false]

theorem forall₂_asReadAll {es : List Expr} (h : ∀ e ∈ es, e.IsReadAs) :
    List.Forall₂ LooksLike (asReadAll es) es := by
  induction es with
  | nil =>
      rw [asReadAll]
      exact .nil
  | cons e es ih =>
      obtain ⟨he, hes⟩ := List.forall_mem_cons.mp h
      rw [asReadAll]
      exact .cons he.looks (ih hes)

theorem clear_asReadAll {es : List Expr} (h : ∀ e ∈ es, e.IsReadAs) :
    ∀ e ∈ asReadAll es, e.IsClear := by
  rw [asReadAll_eq_map]
  exact List.forall_mem_map.mpr fun e he => (h e he).clear

theorem IsReadAs.of_mul {first : Expr} {rest : List Expr} {i : Bool}
    (h : ∀ factor ∈ first :: rest, factor.IsReadAs) : (op .mul (first :: rest) i).IsReadAs := by
  have hlooks := forall₂_asReadAll h
  have hclear := clear_asReadAll h
  rw [asReadAll] at hlooks hclear
  obtain ⟨hfit, hends, hnone, hall⟩ := factorsFit_withCalls i true hclear
  have hread : (op .mul (first :: rest) i).asRead =
      op .mul (withCalls i true first.asRead (asReadAll rest)) i := by
    rw [asRead_mul, asReadAll, factorsWithCalls]
  have hfirst := (h first (List.mem_cons_self ..)).looks
  constructor <;> rw [hread]
  · refine ⟨hfit.fits.trans ⟨rfl, hfirst.startsNegative, rfl, rfl⟩, ?_, rfl, ?_⟩
    · rw [render_mul, render_mul, hfit.text, List.append_nil, factorsText_congr hlooks]
    · rw [endsInName, endsInName, hends, lastEndsInName_congr hlooks]
  · refine (isClear_op (by simp)).mpr ⟨?_, hall, fun _ => ?_⟩
    · exact bne_iff_ne.mpr hfit.length_ne_zero
    · rw [factorsHideCall_eq]
      exact hnone

theorem IsReadAs.of_call {name : String} {args : List Expr}
    (hname : Token.isIdentifier name.toList = true) (h : ∀ a ∈ args, a.IsReadAs) :
    (call name args).IsReadAs := by
  have hclear := clear_asReadAll h
  have hread : (call name args).asRead = call name (asReadAll args) := by rw [asRead]
  constructor <;> rw [hread]
  · have hrender :
        render .spaced (call name (asReadAll args)) = render .spaced (call name args) := by
      rw [render, render, callText_asRead name fun a ha => (h a ha).looks.text]
    exact ⟨⟨rfl, rfl, rfl, rfl⟩, hrender, rfl, rfl⟩
  · refine ⟨isWellFormed_call.mpr ⟨hname, fun a ha => (hclear a ha).wellFormed⟩, ?_⟩
    rw [hidesCall, anyHidesCall_eq_any, List.any_eq_false]
    intro a ha
    exact (Bool.not_eq_true _).mpr (hclear a ha).hidesNoCall

section Operators

variable {a a' b b' : Expr}

theorem LooksLike.neg (ha : LooksLike a' a) (i : Bool) :
    LooksLike (op .neg [a'] i) (op .neg [a] i) where
  tightness := rfl
  startsNegative := rfl
  startsWithNameOrParen := rfl
  isConstant := rfl
  text := by rw [render_neg, render_neg, ha.tightness, ha.text]
  isSymbol := rfl
  endsInName := by rw [Expr.endsInName, Expr.endsInName, ha.tightness, ha.endsInName]

theorem LooksLike.div (ha : LooksLike a' a) (hb : LooksLike b' b) (i : Bool) :
    LooksLike (op .div [a', b'] i) (op .div [a, b] i) where
  tightness := rfl
  startsNegative := ha.startsNegative
  startsWithNameOrParen := rfl
  isConstant := rfl
  text := by rw [render_div, render_div, ha.tightness, ha.text, hb.tightness, hb.text]
  isSymbol := rfl
  endsInName := by rw [Expr.endsInName, Expr.endsInName, hb.tightness, hb.endsInName]

theorem LooksLike.pow (ha : LooksLike a' a) (hb : LooksLike b' b) (i : Bool) :
    LooksLike (op .pow [a', b'] i) (op .pow [a, b] i) where
  tightness := rfl
  startsNegative := rfl
  startsWithNameOrParen := by
    rw [Expr.startsWithNameOrParen, Expr.startsWithNameOrParen, ha.startsWithNameOrParen,
      ha.tightness]
  isConstant := rfl
  text := by rw [render_pow, render_pow, ha.tightness, ha.text, hb.tightness, hb.text]
  isSymbol := rfl
  endsInName := by rw [Expr.endsInName, Expr.endsInName, hb.tightness, hb.endsInName]

theorem IsReadAs.of_neg (ha : a.IsReadAs) (i : Bool) : (op .neg [a] i).IsReadAs := by
  have hread : (op .neg [a] i).asRead = op .neg [a.asRead] i := by
    rw [asRead_op rfl, asReadAll_eq_map, List.map_cons, List.map_nil]
  constructor <;> rw [hread]
  · exact ha.looks.neg i
  · exact ha.clear.neg i

theorem IsReadAs.of_div (ha : a.IsReadAs) (hb : b.IsReadAs) (i : Bool) :
    (op .div [a, b] i).IsReadAs := by
  have hread : (op .div [a, b] i).asRead = op .div [a.asRead, b.asRead] i := by
    rw [asRead_op rfl, asReadAll_eq_map, List.map_cons, List.map_cons, List.map_nil]
  constructor <;> rw [hread]
  · exact ha.looks.div hb.looks i
  · exact ha.clear.div hb.clear i

theorem IsReadAs.of_pow (ha : a.IsReadAs) (hb : b.IsReadAs) (i : Bool) :
    (op .pow [a, b] i).IsReadAs := by
  have hread : (op .pow [a, b] i).asRead = op .pow [a.asRead, b.asRead] i := by
    rw [asRead_op rfl, asReadAll_eq_map, List.map_cons, List.map_cons, List.map_nil]
  constructor <;> rw [hread]
  · exact ha.looks.pow hb.looks i
  · exact ha.clear.pow hb.clear i

end Operators

/-- **A tree as it is read is shown as the tree itself, and hides no call.** -/
theorem isReadAs (e : Expr) (hwell : e.isWellFormed = true) : e.IsReadAs := by
  induction e, hwell using wellFormed_induction with
  | const q hwell => exact .of_leaf hwell (by rw [asRead]) (by simp [hidesCall])
  | symbol name hwell => exact .of_leaf hwell (by rw [asRead]) (by simp [hidesCall])
  | member object index hwell => exact .of_leaf hwell (by rw [asRead]) (by simp [hidesCall])
  | call name args hwell _ ih => exact .of_call (isWellFormed_call.mp hwell).1 ih
  | add first rest i hwell _ _ ih ihShown => exact .of_add hwell (ih first (.head _)) ihShown
  | mul first rest i _ _ ih => exact .of_mul ih
  | div a b i _ _ _ iha ihb => exact .of_div iha ihb i
  | pow a b i _ _ _ iha ihb => exact .of_pow iha ihb i
  | neg a i _ _ ih => exact .of_neg ih i

/-! ### Reading back what is shown -/

/-- What is shown of a tree is read, and has the value of the tree as it is read. -/
theorem exists_parseNormal_text {e : Expr} (hwell : e.isWellFormed = true) :
    ∃ x, parseNormal e.text = .ok x ∧ ∀ ρ : Valuation, x.value ρ = e.asRead.value ρ.lettered := by
  obtain ⟨hlooks, hclear⟩ := isReadAs e hwell
  obtain ⟨x, hx, hvalue⟩ :=
    parse_render .spaced e.asRead hclear.wellFormed fun _ => hclear.hidesNoCall
  rw [hlooks.text] at hx
  refine ⟨x.normalize, parseNormal_of_parse hx, fun ρ => ?_⟩
  rw [value_normalize, hvalue]

/-- The tree has the same value as it is read. -/
def ReadsBack (e : Expr) : Prop := ∀ ρ : Valuation, e.asRead.value ρ.lettered = e.value ρ

/-- A tree that hides no call, and calls no single letter, reads back. -/
theorem readsBack_of_clear {e : Expr} (he : e.IsPlain) (hhides : e.hidesCall = false) :
    e.ReadsBack := by
  intro ρ
  obtain ⟨x, hx, hvalue⟩ := exists_parseNormal_text he.wellFormed
  obtain ⟨y, hy, hvalue'⟩ := parse_render .spaced e he.wellFormed fun _ => hhides
  have hnormal : parseNormal e.text = .ok y.normalize := parseNormal_of_parse hy
  rw [hx] at hnormal
  cases hnormal
  rw [← hvalue, value_normalize, hvalue', value_lettered he.noLetterCall]

/-- **What is shown of a tree that was read can be read again, and has the value of the tree as it
is read.**  So it has the value of the tree if and only if the tree reads back, and that it does
unless it hides a call. -/
theorem parseNormal_text {text : String} {x : Expr} (h : parse text = .ok x) :
    ∃ y, parseNormal x.normalize.text = .ok y ∧
      (∀ ρ : Valuation, y.value ρ = x.normalize.asRead.value ρ.lettered) ∧
      ((∀ ρ : Valuation, y.value ρ = x.normalize.value ρ) ↔ x.normalize.ReadsBack) ∧
      (x.normalize.hidesCall = false → x.normalize.ReadsBack) := by
  have hplain : x.normalize.IsPlain := isPlain_normalize (isPlain_of_parse h)
  obtain ⟨y, hy, hvalue⟩ := exists_parseNormal_text hplain.wellFormed
  refine ⟨y, hy, hvalue, ?_, readsBack_of_clear hplain⟩
  constructor
  · intro hsame ρ
    rw [← hvalue, hsame]
  · intro hback ρ
    rw [hvalue, hback]

/-- A power times a sum, with the two in parentheses. -/
theorem parse_powerTimesSum : parse "(x^n)(y+1)" =
    .ok (op .mul [power (symbol "x") (symbol "n"), sum [symbol "y", const 1]] true) :=
  parse_of_ofText? (by cbv)

/-- The product of `x^n` and `y + 1` is shown as `x^n(y + 1)`, and read as a power of `x`. -/
theorem parseNormal_text_powerTimesSum :
    ∃ x y, parse "(x^n)(y+1)" = .ok x ∧ x.normalize.text = "x^n(y + 1)" ∧
      parseNormal x.normalize.text = .ok y ∧ x.normalize.value (.uniform 2) = some 12 ∧
        y.value (.uniform 2) = some 64 := by
  have hread : (op .mul [power (symbol "x") (symbol "n"), sum [symbol "y", const 1]] true).asRead =
      op .mul [power (symbol "x") (call "n" [sum [symbol "y", const 1]])] true := by cbv
  obtain ⟨y, hy, hvalue⟩ := exists_parseNormal_text (e := (op .mul [power (symbol "x") (symbol "n"),
    sum [symbol "y", const 1]] true)) (by decide)
  refine ⟨_, y, parse_powerTimesSum, by cbv, hy, ?_, ?_⟩
  · rw [value_normalize]
    simp [Valuation.uniform, Valuation.arithmetic, integerPower]
    norm_num
  · have hsymbol (name : String) : (Valuation.uniform 2).lettered.symbol name = 2 := rfl
    have hcall : (Valuation.uniform 2).lettered.call "n" [3] = some 6 := by
      show (if "n".length = 1 then some (2 * 3) else none) = some (6 : Rat)
      rw [if_pos (by decide)]
      norm_num
    have hpower : (Valuation.uniform 2).power 2 6 = some 64 := by
      show integerPower 2 6 = some 64
      norm_num [integerPower]
    have hsum : (2 : Rat) + 1 = 3 := by norm_num
    rw [hvalue, hread]
    simp [hsymbol, hcall, hpower, hsum]

/-- The same with a variable in place of the sum. -/
theorem parse_powerTimesVariable :
    parse "(x^n)y" = .ok (op .mul [power (symbol "x") (symbol "n"), symbol "y"] true) :=
  parse_of_ofText? (by cbv)

/-- The product of `x^n` and `y` is shown as `x^n * y`, and read back. -/
theorem parseNormal_text_powerTimesVariable :
    ∃ x y, parse "(x^n)y" = .ok x ∧ parseNormal x.normalize.text = .ok y ∧
      ∀ ρ : Valuation, y.value ρ = x.normalize.value ρ := by
  obtain ⟨y, hy, -, hsame, hclear⟩ := parseNormal_text parse_powerTimesVariable
  exact ⟨_, y, parse_powerTimesVariable, hy, hsame.mpr (hclear (by cbv))⟩

end Expr

end AlgebraTutor
