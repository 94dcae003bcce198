/-
What a shown tree is read as.

A product that was written without sign may be shown with a factor in parentheses right after one
that ends in a variable, and a reader takes the variable and that factor for a call: `x^n(y + 1)` is
read as a power whose exponent is a call of `n`, and since a single letter is a factor, as
`x^(n*(y + 1))`.  Such a tree is not read back for what it is.

What it is read as can be said exactly.  `asRead` puts the calls in place of the products.  A call
in place of the last variable of a tree shows the argument behind the tree, and changes nothing that
decides about signs and parentheses around it.
-/
import AlgebraTutor.Proofs.ReadTrees

namespace AlgebraTutor

namespace Expr

/-! ### The calls that are read -/

mutual

/-- The tree with a call in place of the variable that its printed form ends in. -/
def called (arg : Expr) : Expr → Expr
  | symbol name => call name [arg]
  | op .mul factors i => op .mul (lastCalled arg factors) i
  | op .div [a, b] i => op .div [a, called arg b] i
  | op .pow [a, b] i => op .pow [a, called arg b] i
  | op .neg [a] i => op .neg [called arg a] i
  | e => e

/-- The factors with such a call in the last one. -/
def lastCalled (arg : Expr) : List Expr → List Expr
  | [] => []
  | [factor] => [called arg factor]
  | first :: factor :: rest => first :: lastCalled arg (factor :: rest)

end

/-- The factors from `previous` on, each with the factors that are read as arguments of its last
variable. -/
def withCalls (implicit isFirst : Bool) (previous : Expr) : List Expr → List Expr
  | [] => [previous]
  | factor :: rest =>
      if implicit && isSwallowed isFirst previous factor then
        withCalls implicit isFirst (called factor previous) rest
      else previous :: withCalls implicit false factor rest

/-- The factors of a product as they are read. -/
def factorsWithCalls (implicit : Bool) : List Expr → List Expr
  | [] => []
  | first :: rest => withCalls implicit true first rest

mutual

/-- The tree as it is read where it is shown. -/
def asRead : Expr → Expr
  | op .add [] i => op .add [] i
  | op .add (first :: rest) i => op .add (asRead first :: laterTermsAsRead rest) i
  | op .mul factors i => op .mul (factorsWithCalls i (asReadAll factors)) i
  | op kind args i => op kind (asReadAll args) i
  | call name args => call name (asReadAll args)
  | const q => const q
  | symbol name => symbol name
  | member object index => member object index
termination_by e => 2 * e.size
decreasing_by all_goals simp only [size, sizeAll]; omega

/-- The trees of a list, each as it is read. -/
def asReadAll : List Expr → List Expr
  | [] => []
  | e :: es => asRead e :: asReadAll es
termination_by es => 2 * sizeAll es + 1
decreasing_by
  all_goals simp only [sizeAll]
  · omega
  · have := size_pos e; omega

/-- The terms of a sum after the first.  What is shown after a minus sign is read without it. -/
def laterTermsAsRead : List Expr → List Expr
  | [] => []
  | term :: rest =>
      (match _h : withoutMinus? term with
      | some positive => minus (asRead positive)
      | none => asRead term) :: laterTermsAsRead rest
termination_by es => 2 * sizeAll es + 1
decreasing_by
  all_goals simp only [sizeAll]
  · have := size_le_of_withoutMinus? _h; omega
  · omega
  · have := size_pos term; omega

end

theorem asReadAll_eq_map (es : List Expr) : asReadAll es = es.map asRead := by
  induction es with
  | nil => rw [asReadAll, List.map_nil]
  | cons e es ih => rw [asReadAll, List.map_cons, ih]

theorem laterTermsAsRead_cons (term : Expr) (rest : List Expr) :
    laterTermsAsRead (term :: rest) =
      (match withoutMinus? term with
      | some positive => minus (asRead positive)
      | none => asRead term) :: laterTermsAsRead rest := by
  rw [laterTermsAsRead]
  split
  · next h => rw [h]
  · next h => rw [h]

/-! ### Trees in the same place -/

/-- Around the two trees the printer puts the same signs and parentheses. -/
structure Fits (new old : Expr) : Prop where
  tightness : new.tightness = old.tightness
  startsNegative : new.startsNegative = old.startsNegative
  startsWithNameOrParen : new.startsWithNameOrParen = old.startsWithNameOrParen
  isConstant : new.isConstant = old.isConstant

theorem Fits.refl (e : Expr) : Fits e e := ⟨rfl, rfl, rfl, rfl⟩

theorem Fits.trans {a b c : Expr} (hab : Fits a b) (hbc : Fits b c) : Fits a c where
  tightness := hab.tightness.trans hbc.tightness
  startsNegative := hab.startsNegative.trans hbc.startsNegative
  startsWithNameOrParen := hab.startsWithNameOrParen.trans hbc.startsWithNameOrParen
  isConstant := hab.isConstant.trans hbc.isConstant

theorem Fits.factorIsWrapped {new old : Expr} (h : Fits new old) (isFirst : Bool) :
    factorIsWrapped isFirst new = factorIsWrapped isFirst old := by
  unfold Expr.factorIsWrapped
  rw [h.tightness, h.startsNegative]

/-- The tree `new` is shown as `old` is. -/
structure LooksLike (new old : Expr) : Prop extends Fits new old where
  text : render .spaced new = render .spaced old
  isSymbol : new.isSymbol = old.isSymbol
  endsInName : new.endsInName = old.endsInName

theorem LooksLike.refl (e : Expr) : LooksLike e e := ⟨.refl e, rfl, rfl, rfl⟩

/-- The tree `new` is shown as `old` with an argument in parentheses after it. -/
structure ShowsCall (arg new old : Expr) : Prop extends Fits new old where
  text : render .spaced new = render .spaced old ++ wrap true (render .spaced arg)
  isSymbol : old.isSymbol = false → new.isSymbol = false
  endsInName : new.endsInName = false

/-- A tree that is well-formed and hides no call. -/
structure IsClear (e : Expr) : Prop where
  wellFormed : e.isWellFormed = true
  hidesNoCall : e.hidesCall = false

/-! ### The text of some factors -/

/-- The factors as they are shown in a product, with what stands in front of the first of them left
out. -/
def factorsText (implicit isFirst isSecond : Bool) : List Expr → List Char
  | [] => []
  | previous :: rest =>
      wrap (factorIsWrapped isFirst previous) (render .spaced previous) ++
        laterFactors .spaced implicit isSecond previous (renderAll .spaced rest)

/-- Tells whether one of the factors is read as an argument of the one before it. -/
def factorsSwallow (isFirst : Bool) : List Expr → Bool
  | [] => false
  | previous :: rest => swallows isFirst previous rest

theorem factorsHideCall_eq (implicit : Bool) (factors : List Expr) :
    factorsHideCall implicit factors = (implicit && factorsSwallow true factors) := by
  cases factors with
  | nil => exact (Bool.and_false implicit).symm
  | cons first rest => rfl

theorem render_mul (factors : List Expr) (i : Bool) :
    render .spaced (op .mul factors i) = factorsText i true true factors := by
  rw [render]
  cases factors with
  | nil => rw [renderAll, productText, factorsText]
  | cons first rest => rw [renderAll, productText, factorsText]

theorem factorsText_cons (implicit isFirst isSecond : Bool) (previous factor : Expr)
    (rest : List Expr) :
    factorsText implicit isFirst isSecond (previous :: factor :: rest) =
      wrap (factorIsWrapped isFirst previous) (render .spaced previous) ++
        ((if juxtaposes .spaced implicit isSecond previous factor then []
          else signText .spaced '*') ++ factorsText implicit false false (factor :: rest)) := by
  rw [factorsText, laterFactors_cons, factorsText, List.append_assoc]

/-- Between two factors stands what stands between two that fit in their places. -/
theorem juxtaposes_congr {implicit isSecond : Bool} {previous previous' factor factor' : Expr}
    (hprevious : Fits previous' previous) (hsymbol : previous'.isSymbol = previous.isSymbol)
    (hfactor : Fits factor' factor) :
    juxtaposes .spaced implicit isSecond previous' factor' =
      juxtaposes .spaced implicit isSecond previous factor := by
  unfold juxtaposes
  rw [hprevious.isConstant, hprevious.tightness, hfactor.startsWithNameOrParen,
    hfactor.factorIsWrapped, hsymbol]

theorem isSwallowed_congr {isFirst : Bool} {previous factor factor' : Expr}
    (hfactor : Fits factor' factor) :
    isSwallowed isFirst previous factor' = isSwallowed isFirst previous factor := by
  unfold isSwallowed
  rw [hfactor.factorIsWrapped]

theorem factorsText_congr {new old : List Expr} (h : List.Forall₂ LooksLike new old) :
    ∀ implicit isFirst isSecond,
      factorsText implicit isFirst isSecond new = factorsText implicit isFirst isSecond old := by
  induction h with
  | nil => intro _ _ _; rfl
  | @cons previous' previous _ _ hprevious hrest ih =>
      intro implicit isFirst isSecond
      have htext : wrap (factorIsWrapped isFirst previous') (render .spaced previous') =
          wrap (factorIsWrapped isFirst previous) (render .spaced previous) := by
        rw [hprevious.factorIsWrapped, hprevious.text]
      cases hrest with
      | nil => rw [factorsText, factorsText, htext, renderAll, laterFactors, laterFactors]
      | cons hfactor _ =>
          rw [factorsText_cons, factorsText_cons, htext, ih,
            juxtaposes_congr hprevious.toFits hprevious.isSymbol hfactor.toFits]

theorem lastEndsInName_congr {new old : List Expr} (h : List.Forall₂ LooksLike new old) :
    ∀ isFirst, lastEndsInName isFirst new = lastEndsInName isFirst old := by
  induction h with
  | nil => intro _; rfl
  | cons hprevious hrest ih =>
      intro isFirst
      cases hrest with
      | nil =>
          rw [lastEndsInName, lastEndsInName, hprevious.factorIsWrapped, hprevious.endsInName]
      | cons _ _ =>
          rw [lastEndsInName, lastEndsInName]
          exact ih false

/-- In a product the factors `new` are shown as `old` with the text `after` behind them, and from
the outside they look the same. -/
structure FactorsFit (implicit isFirst : Bool) (after : List Char) (new old : List Expr) :
    Prop where
  text : ∀ isSecond, factorsText implicit isFirst isSecond new =
    factorsText implicit isFirst isSecond old ++ after
  head : ∃ factor' rest' factor rest,
    new = factor' :: rest' ∧ old = factor :: rest ∧ Fits factor' factor

theorem FactorsFit.length_ne_zero {implicit isFirst : Bool} {after : List Char}
    {new old : List Expr} (h : FactorsFit implicit isFirst after new old) : new.length ≠ 0 := by
  obtain ⟨factor', rest', -, -, rfl, -, -⟩ := h.head
  exact Nat.succ_ne_zero _

theorem FactorsFit.fits {implicit i : Bool} {after : List Char} {new old : List Expr}
    (h : FactorsFit implicit true after new old) : Fits (op .mul new i) (op .mul old i) := by
  obtain ⟨factor', rest', factor, rest, rfl, rfl, hfits⟩ := h.head
  exact ⟨rfl, hfits.startsNegative, rfl, rfl⟩

/-! ### A call at the end -/

section Called

variable {arg : Expr}

/-- What is said of the last factor is said of all factors together. -/
theorem factorsFit_lastCalled {factors : List Expr} :
    ∀ {isFirst : Bool}, lastEndsInName isFirst factors = true →
    (∀ factor ∈ factors, factor.endsInName = true → ShowsCall arg (called arg factor) factor) →
    (∀ implicit, FactorsFit implicit isFirst (wrap true (render .spaced arg))
      (lastCalled arg factors) factors) ∧
    lastEndsInName isFirst (lastCalled arg factors) = false ∧
    factorsSwallow isFirst (lastCalled arg factors) = factorsSwallow isFirst factors := by
  induction factors with
  | nil => intro _ h; cases h
  | cons previous rest ih =>
      intro isFirst hname hshows
      cases rest with
      | nil =>
          rw [lastEndsInName, Bool.and_eq_true, Bool.not_eq_true'] at hname
          obtain ⟨hunwrapped, hname⟩ := hname
          have hlast := hshows previous (List.mem_cons_self ..) hname
          refine ⟨fun implicit => ⟨fun isSecond => ?_, _, _, _, _, rfl, rfl, hlast.toFits⟩, ?_, rfl⟩
          · rw [lastCalled, factorsText, factorsText, renderAll, laterFactors, laterFactors,
              hlast.factorIsWrapped, hunwrapped, hlast.text]
            simp [wrap]
          · rw [lastCalled, lastEndsInName, hlast.endsInName, Bool.and_false]
      | cons factor rest =>
          obtain ⟨-, hrest⟩ := List.forall_mem_cons.mp hshows
          have hname : lastEndsInName false (factor :: rest) = true := hname
          obtain ⟨hfit, hends, hswallow⟩ := ih hname hrest
          obtain ⟨factor', rest', _, _, hnew, hold, hfactor⟩ := (hfit true).head
          cases hold
          rw [lastCalled]
          rw [hnew] at hfit hends hswallow ⊢
          refine ⟨fun implicit => ⟨fun isSecond => ?_, _, _, _, _, rfl, rfl, .refl _⟩, hends, ?_⟩
          · rw [factorsText_cons, factorsText_cons, (hfit implicit).text false,
              juxtaposes_congr (.refl previous) rfl hfactor]
            simp only [List.append_assoc]
          · rw [factorsSwallow, factorsSwallow, swallows, swallows, isSwallowed_congr hfactor]
            exact congrArg _ hswallow

theorem wrap_of_lt {n k : Nat} (h : k < n) (text : List Char) : wrap (n ≤ k) text = text := by
  rw [decide_eq_false (Nat.not_le_of_lt h), wrap_false]

section Operators

variable {a b b' : Expr}

theorem ShowsCall.div (hb : ShowsCall arg b' b) (htight : 3 < b.tightness) (i : Bool) :
    ShowsCall arg (op .div [a, b'] i) (op .div [a, b] i) where
  tightness := rfl
  startsNegative := rfl
  startsWithNameOrParen := rfl
  isConstant := rfl
  text := by
    rw [render_div, render_div, hb.tightness, hb.text, wrap_of_lt htight, wrap_of_lt htight,
      List.append_assoc, List.cons_append]
  isSymbol := fun _ => rfl
  endsInName := by rw [Expr.endsInName, hb.endsInName, Bool.and_false]

theorem ShowsCall.pow (hb : ShowsCall arg b' b) (htight : 2 < b.tightness) (i : Bool) :
    ShowsCall arg (op .pow [a, b'] i) (op .pow [a, b] i) where
  tightness := rfl
  startsNegative := rfl
  startsWithNameOrParen := rfl
  isConstant := rfl
  text := by
    rw [render_pow, render_pow, hb.tightness, hb.text, wrap_of_lt htight, wrap_of_lt htight,
      List.append_assoc, List.cons_append]
  isSymbol := fun _ => rfl
  endsInName := by rw [Expr.endsInName, hb.endsInName, Bool.and_false]

theorem ShowsCall.neg (hb : ShowsCall arg b' b) (htight : 3 < b.tightness) (i : Bool) :
    ShowsCall arg (op .neg [b'] i) (op .neg [b] i) where
  tightness := rfl
  startsNegative := rfl
  startsWithNameOrParen := rfl
  isConstant := rfl
  text := by
    rw [render_neg, render_neg, hb.tightness, hb.text, wrap_of_lt htight, wrap_of_lt htight,
      List.cons_append]
  isSymbol := fun _ => rfl
  endsInName := by rw [Expr.endsInName, hb.endsInName, Bool.and_false]

end Operators

/-- **A tree that ends in a variable is shown with an argument after it if that variable is
called.** -/
theorem showsCall_called (e : Expr) (hwell : e.isWellFormed = true) :
    e.endsInName = true → ShowsCall arg (called arg e) e := by
  induction e, hwell using wellFormed_induction with
  | const | member | call | add => nofun
  | symbol name hwell =>
      intro _
      refine ⟨⟨rfl, rfl, rfl, rfl⟩, ?_, nofun, rfl⟩
      rw [called, render, render, renderAll, renderAll]
      simp [callText, shownCall]
  | mul first rest i _ _ ih =>
      intro hname
      obtain ⟨hfit, hends, -⟩ := factorsFit_lastCalled hname ih
      refine ⟨(hfit i).fits, ?_, fun _ => rfl, hends⟩
      rw [called, render_mul, render_mul, (hfit i).text]
  | div a b i _ _ _ _ ihb =>
      intro hname
      rw [endsInName, Bool.and_eq_true, decide_eq_true_eq] at hname
      exact .div (ihb hname.2) hname.1 i
  | pow a b i _ _ _ _ ihb =>
      intro hname
      rw [endsInName, Bool.and_eq_true, decide_eq_true_eq] at hname
      exact .pow (ihb hname.2) hname.1 i
  | neg a i _ _ ih =>
      intro hname
      rw [endsInName, Bool.and_eq_true, decide_eq_true_eq] at hname
      exact .neg (ih hname.2) hname.1 i

/-- An operator hides no call if no argument of it does and no factor is read as an argument. -/
theorem isClear_op {kind : Op} (hkind : kind ≠ .add) {args : List Expr} {i : Bool} :
    (op kind args i).IsClear ↔ kind.accepts args.length = true ∧ (∀ a ∈ args, a.IsClear) ∧
      (kind = .mul → factorsHideCall i args = false) := by
  have hhides : (op kind args i).hidesCall = false ↔
      (kind = .mul → factorsHideCall i args = false) ∧ ∀ a ∈ args, a.hidesCall = false := by
    rw [← Bool.not_eq_true, ← Bool.not_eq_true]
    cases kind <;> simp [hidesCall, anyHidesCall_eq_any] at hkind ⊢
  constructor
  · rintro ⟨hwell, hclear⟩
    obtain ⟨hlength, hargs⟩ := isWellFormed_op.mp hwell
    obtain ⟨hmul, hall⟩ := hhides.mp hclear
    exact ⟨hlength, fun a ha => ⟨hargs a ha, hall a ha⟩, hmul⟩
  · rintro ⟨hlength, hargs, hmul⟩
    exact ⟨isWellFormed_op.mpr ⟨hlength, fun a ha => (hargs a ha).wellFormed⟩,
      hhides.mpr ⟨hmul, fun a ha => (hargs a ha).hidesNoCall⟩⟩

theorem IsClear.neg {a : Expr} (ha : a.IsClear) (i : Bool) : (op .neg [a] i).IsClear :=
  (isClear_op (by simp)).mpr ⟨rfl, List.forall_mem_singleton.mpr ha, nofun⟩

theorem IsClear.div {a b : Expr} (ha : a.IsClear) (hb : b.IsClear) (i : Bool) :
    (op .div [a, b] i).IsClear :=
  (isClear_op (by simp)).mpr ⟨rfl, by simp [ha, hb], nofun⟩

theorem IsClear.pow {a b : Expr} (ha : a.IsClear) (hb : b.IsClear) (i : Bool) :
    (op .pow [a, b] i).IsClear :=
  (isClear_op (by simp)).mpr ⟨rfl, by simp [ha, hb], nofun⟩

theorem isClear_lastCalled {factors : List Expr} :
    ∀ {isFirst : Bool}, lastEndsInName isFirst factors = true →
    (∀ factor ∈ factors, factor.IsClear) →
    (∀ factor ∈ factors, factor.endsInName = true → (called arg factor).IsClear) →
    ∀ factor ∈ lastCalled arg factors, factor.IsClear := by
  induction factors with
  | nil => intro _ h; cases h
  | cons previous rest ih =>
      intro isFirst hname hclear hcalled
      obtain ⟨hprevious, hrest⟩ := List.forall_mem_cons.mp hclear
      obtain ⟨hlast, hcalledRest⟩ := List.forall_mem_cons.mp hcalled
      cases rest with
      | nil =>
          rw [lastEndsInName, Bool.and_eq_true] at hname
          exact List.forall_mem_singleton.mpr (hlast hname.2)
      | cons factor rest =>
          have hname : lastEndsInName false (factor :: rest) = true := hname
          exact List.forall_mem_cons.mpr ⟨hprevious, ih hname hrest hcalledRest⟩

theorem isClear_called (harg : arg.IsClear) (e : Expr) (he : e.IsClear) :
    e.endsInName = true → (called arg e).IsClear := by
  have hwell := he.wellFormed
  induction e, hwell using wellFormed_induction with
  | const | member | call | add => nofun
  | symbol name hwell =>
      refine fun _ => ⟨isWellFormed_call.mpr ⟨hwell, ?_⟩, ?_⟩
      · exact List.forall_mem_singleton.mpr harg.wellFormed
      · rw [called, hidesCall, anyHidesCall, anyHidesCall, harg.hidesNoCall, Bool.or_false]
  | mul first rest i _ hargs ih =>
      intro hname
      obtain ⟨-, hclear, hmul⟩ := (isClear_op (by simp)).mp he
      obtain ⟨hfit, -, hswallow⟩ := factorsFit_lastCalled hname fun a ha =>
        showsCall_called a (hargs a ha)
      refine (isClear_op (by simp)).mpr ⟨?_, ?_, fun _ => ?_⟩
      · exact bne_iff_ne.mpr (hfit i).length_ne_zero
      · exact isClear_lastCalled hname hclear fun a ha => ih a ha (hclear a ha)
      · rw [factorsHideCall_eq, hswallow, ← factorsHideCall_eq, hmul rfl]
  | div a b i _ _ _ _ ihb =>
      intro hname
      obtain ⟨-, hclear, -⟩ := (isClear_op (by simp)).mp he
      rw [endsInName, Bool.and_eq_true] at hname
      exact .div (hclear a (by simp)) (ihb (hclear b (by simp)) hname.2) i
  | pow a b i _ _ _ _ ihb =>
      intro hname
      obtain ⟨-, hclear, -⟩ := (isClear_op (by simp)).mp he
      rw [endsInName, Bool.and_eq_true] at hname
      exact .pow (hclear a (by simp)) (ihb (hclear b (by simp)) hname.2) i
  | neg a i _ _ ih =>
      intro hname
      obtain ⟨-, hclear, -⟩ := (isClear_op (by simp)).mp he
      rw [endsInName, Bool.and_eq_true] at hname
      exact .neg (ih (hclear a (by simp)) hname.2) i

end Called

end Expr

end AlgebraTutor
