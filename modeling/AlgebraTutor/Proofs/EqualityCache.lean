/-
What is remembered of comparisons does not change their answers.

A comparison looks into its memory before it reads anything, and what it finds there comes from
earlier comparisons of other texts.  The invariant is that nothing is remembered but canonical
forms, and that texts are in one set only if their canonical forms have one key.  A comparison keeps
it, because it joins two sets only for texts with one key, and having one key is transitive.  Being
alike would not do for that: it takes the lemma that canonical forms that are alike have one key.

So an answer depends on the two texts alone: they are equal if they are the same up to white space
or if both can be read and their canonical forms have one key.  These are two conditions that do not
agree with each other.  White space separates tokens, so that `xy` and `x y` are the same text up to
white space, but a variable and a product when they are read.
-/
import AlgebraTutor.Proofs.CanonicalKeys
import AlgebraTutor.Proofs.DisjointSets
import AlgebraTutor.Equality.Cache

namespace AlgebraTutor

/-! ### Texts with one key -/

/-- Both texts can be read, and their canonical forms have one key. -/
def SameKey (a b : String) : Prop :=
  ∃ f g, Expr.canonicalForm? a = some f ∧ Expr.canonicalForm? b = some g ∧ f.key = g.key

namespace SameKey

variable {a b c : String}

theorem symm : SameKey a b → SameKey b a
  | ⟨f, g, hf, hg, h⟩ => ⟨g, f, hg, hf, h.symm⟩

theorem trans : SameKey a b → SameKey b c → SameKey a c
  | ⟨f, g, hf, hg, h⟩, ⟨g', k, hg', hk, h'⟩ => by
      obtain rfl : g = g' := Option.some.inj (hg.symm.trans hg')
      exact ⟨f, k, hf, hk, h.trans h'⟩

/-- Texts with one key have one value. -/
theorem value_eq (h : SameKey a b) {x y : Expr} (hx : Expr.parse a = .ok x)
    (hy : Expr.parse b = .ok y) (ρ : Valuation) : x.value ρ = y.value ρ := by
  obtain ⟨f, g, hf, hg, hkey⟩ := h
  obtain ⟨hplainF, hvalueF⟩ := Expr.value_canonicalForm? hx hf
  obtain ⟨hplainG, hvalueG⟩ := Expr.value_canonicalForm? hy hg
  rw [← hvalueF, ← hvalueG]
  exact Expr.value_eq_of_key_eq hplainF.wellFormed hplainF.noLetterCall hplainG.wellFormed
    hplainG.noLetterCall hkey ρ

end SameKey

/-- The answer to a comparison of two texts. -/
def EqualTexts (a b : String) : Prop :=
  isBlankText a = false ∧ isBlankText b = false ∧ (squeeze a = squeeze b ∨ SameKey a b)

namespace EqualTexts

variable {a b c : String}

theorem refl (ha : isBlankText a = false) : EqualTexts a a := ⟨ha, ha, .inl rfl⟩

theorem symm : EqualTexts a b → EqualTexts b a
  | ⟨ha, hb, h⟩ => ⟨hb, ha, h.imp Eq.symm SameKey.symm⟩

/-- Two comparisons with a text in common say something about the third one only if they are made
in the same way. -/
theorem trans_iff (hab : EqualTexts a b) (hbc : EqualTexts b c) :
    EqualTexts a c ↔ squeeze a = squeeze b ∧ squeeze b = squeeze c ∨ SameKey a b ∧ SameKey b c := by
  obtain ⟨ha, -, hab⟩ := hab
  obtain ⟨-, hc, hbc⟩ := hbc
  constructor
  · rintro ⟨-, -, hac⟩
    rcases hab, hbc with ⟨hab | hab, hbc | hbc⟩
    · exact .inl ⟨hab, hbc⟩
    · exact hac.imp (fun hac => ⟨hab, hab.symm.trans hac⟩) fun hac => ⟨hac.trans hbc.symm, hbc⟩
    · exact hac.imp (fun hac => ⟨hac.trans hbc.symm, hbc⟩) fun hac => ⟨hab, hab.symm.trans hac⟩
    · exact .inr ⟨hab, hbc⟩
  · rintro (⟨hab, hbc⟩ | ⟨hab, hbc⟩)
    · exact ⟨ha, hc, .inl (hab.trans hbc)⟩
    · exact ⟨ha, hc, .inr (hab.trans hbc)⟩

end EqualTexts

namespace EqualityCache

variable {cache : EqualityCache}

/-! ### The invariant -/

/-- The caches that comparisons and requests for keys lead to. -/
inductive Reachable : EqualityCache → Prop
  | empty : Reachable .empty
  | areEqual {cache : EqualityCache} (h : Reachable cache) (a b : String) :
      Reachable (cache.areEqual a b).2
  | canonicalKey {cache : EqualityCache} (h : Reachable cache) (text : String) :
      Reachable (cache.canonicalKey text).2

/-- Nothing is remembered but canonical forms, and only texts with one key are in one set. -/
structure Sound (cache : EqualityCache) : Prop where
  wellNumbered : cache.sets.WellNumbered
  forms : ∀ text form, cache.forms[text]? = some form → form = Expr.canonicalForm? text
  sets : ∀ a b, cache.sets.InOneSet a b → SameKey a b

theorem sound_empty : Sound empty where
  wellNumbered := DisjointSet.wellNumbered_empty
  forms text form h := by simp [empty] at h
  sets a b h := absurd h DisjointSet.not_inOneSet_empty

/-- Looking up the canonical form of a text finds it, and remembers no more than that. -/
theorem Sound.form (h : Sound cache) (text : String) :
    (cache.form text).1 = Expr.canonicalForm? text ∧ Sound (cache.form text).2 := by
  unfold EqualityCache.form
  split
  · next form hform => exact ⟨h.forms text form hform, h⟩
  · refine ⟨rfl, h.wellNumbered, fun other form hother => ?_, h.sets⟩
    simp only [Std.TreeMap.getElem?_insert] at hother
    split at hother
    · next heq =>
        cases hother
        rw [Std.LawfulEqCmp.eq_of_compare heq]
    · exact h.forms other form hother

theorem Sound.canonicalKey (h : Sound cache) (text : String) :
    (cache.canonicalKey text).1 = (Expr.canonicalForm? text).map Expr.key ∧
      Sound (cache.canonicalKey text).2 := by
  obtain ⟨hform, hsound⟩ := h.form text
  refine ⟨?_, hsound⟩
  rw [← hform]
  rfl

/-- Joining the sets of two texts with one key leaves only texts with one key in one set. -/
theorem Sound.union (h : Sound cache) {a b : String} (hab : SameKey a b) :
    Sound { cache with sets := cache.sets.union a b } := by
  obtain ⟨hnumbered, hsets⟩ := DisjointSet.union_spec h.wellNumbered a b
  refine ⟨hnumbered, h.forms, fun x y hxy => ?_⟩
  have htouches {x : String} (hx : cache.sets.Touches a x ∨ cache.sets.Touches b x) :
      SameKey x a := by
    rcases hx with (rfl | hx) | (rfl | hx)
    · exact hab.trans hab.symm
    · exact h.sets x a hx
    · exact hab.symm
    · exact (h.sets x b hx).trans hab.symm
  rcases (hsets x y).mp hxy with hxy | ⟨hx, hy⟩
  · exact h.sets x y hxy
  · exact (htouches hx).trans (htouches hy).symm

/-- Reading both texts finds out whether they have one key, and puts them in one set if so. -/
theorem Sound.compareForms (h : Sound cache) (a b : String) :
    ((cache.compareForms a b).1 = true ↔ SameKey a b) ∧ Sound (cache.compareForms a b).2 ∧
      (SameKey a b → (cache.compareForms a b).2.sets.InOneSet a b) := by
  obtain ⟨hleft, hafter⟩ := h.form a
  obtain ⟨hright, hboth⟩ := hafter.form b
  unfold EqualityCache.compareForms
  rcases hformA : cache.form a with ⟨left, afterA⟩
  rcases hformB : afterA.form b with ⟨right, afterB⟩
  simp only [hformA, hformB] at hleft hright hboth ⊢
  have hsame : SameKey a b ↔ ∃ f g, left = some f ∧ right = some g ∧ f.key = g.key := by
    rw [hleft, hright]
    rfl
  cases left with
  | none =>
      have hno : ¬SameKey a b := by simp [hsame]
      exact ⟨iff_of_false nofun hno, hboth, fun hab => absurd hab hno⟩
  | some f =>
      cases right with
      | none =>
          have hno : ¬SameKey a b := by simp [hsame]
          exact ⟨iff_of_false nofun hno, hboth, fun hab => absurd hab hno⟩
      | some g =>
          have hequal : (f.alike g || f.key == g.key) = true ↔ SameKey a b := by
            rw [Bool.or_eq_true, beq_iff_eq,
              or_iff_right_of_imp (Expr.key_eq_of_alike_forms hleft.symm hright.symm)]
            simp [hsame]
          simp only
          split
          · next heq =>
              have hab := hequal.mp heq
              refine ⟨iff_of_true rfl hab, hboth.union hab, fun _ => ?_⟩
              obtain ⟨-, hsets⟩ := DisjointSet.union_spec hboth.wellNumbered a b
              exact (hsets a b).mpr (.inr ⟨.inl (.inl rfl), .inr (.inl rfl)⟩)
          · next hne =>
              have hno : ¬SameKey a b := fun hab => hne (hequal.mpr hab)
              exact ⟨iff_of_false nofun hno, hboth, fun hab => absurd hab hno⟩

/-- **One comparison** gives the answer that the texts have, and keeps the invariant.  Texts found
equal are in one set afterwards, unless that can be told without reading them. -/
theorem Sound.areEqual (h : Sound cache) (a b : String) :
    ((cache.areEqual a b).1 = true ↔ EqualTexts a b) ∧ Sound (cache.areEqual a b).2 ∧
      (EqualTexts a b → squeeze a = squeeze b ∨ (cache.areEqual a b).2.sets.InOneSet a b) := by
  unfold EqualityCache.areEqual
  split
  · next hblank =>
      have hno : ¬EqualTexts a b := by
        rintro ⟨ha, hb, -⟩
        simp [ha, hb] at hblank
      exact ⟨iff_of_false nofun hno, h, fun hab => absurd hab hno⟩
  · next hblank =>
      rw [Bool.not_eq_true, Bool.or_eq_false_iff] at hblank
      split
      · next hsqueeze =>
          have hsqueeze : squeeze a = squeeze b := hsqueeze.elim (congrArg squeeze) id
          exact ⟨iff_of_true rfl ⟨hblank.1, hblank.2, .inl hsqueeze⟩, h, fun _ => .inl hsqueeze⟩
      · next hsqueeze =>
          rw [not_or] at hsqueeze
          have hanswer : EqualTexts a b ↔ SameKey a b := by
            unfold EqualTexts
            simp only [hblank, hsqueeze.2, false_or, true_and]
          obtain ⟨hknown, hagrees⟩ := cache.sets.same_spec a b
          have hsound : Sound { cache with sets := (cache.sets.same a b).2 } :=
            ⟨hagrees.wellNumbered h.wellNumbered, h.forms,
              fun x y hxy => h.sets x y (hagrees.inOneSet.mp hxy)⟩
          rcases hsame : cache.sets.same a b with ⟨known, sets⟩
          simp only [hsame] at hknown hagrees hsound ⊢
          rw [hanswer]
          split
          · next heq =>
              have hab := hknown.mp heq
              exact ⟨iff_of_true rfl (h.sets a b hab), hsound, fun _ =>
                .inr (hagrees.inOneSet.mpr hab)⟩
          · obtain ⟨hequal, hafter, hjoined⟩ := hsound.compareForms a b
            exact ⟨hequal, hafter, fun hab => .inr (hjoined hab)⟩

/-- **Nothing is remembered that is not so.** -/
theorem sound_of_reachable (h : Reachable cache) : Sound cache := by
  induction h with
  | empty => exact sound_empty
  | areEqual _ a b ih => exact (ih.areEqual a b).2.1
  | canonicalKey _ text ih => exact (ih.canonicalKey text).2

/-- The answer to a comparison does not depend on what is remembered. -/
theorem areEqual_iff (h : Reachable cache) (a b : String) :
    (cache.areEqual a b).1 = true ↔ EqualTexts a b :=
  ((sound_of_reachable h).areEqual a b).1

/-- Texts found equal by reading them need not be read again. -/
theorem same_of_areEqual (h : Reachable cache) {a b : String}
    (hequal : (cache.areEqual a b).1 = true) (hsqueeze : squeeze a ≠ squeeze b) :
    ((cache.areEqual a b).2.sets.same a b).1 = true := by
  obtain ⟨hanswer, -, hjoined⟩ := (sound_of_reachable h).areEqual a b
  exact (DisjointSet.same_spec _ a b).1.mpr ((hjoined (hanswer.mp hequal)).resolve_left hsqueeze)

theorem canonicalKey_eq (h : Reachable cache) (text : String) :
    (cache.canonicalKey text).1 = (Expr.canonicalForm? text).map Expr.key :=
  ((sound_of_reachable h).canonicalKey text).1

/-! ### Products of two variables

The texts of the examples below, and what is read from them. -/

/-- The product `x * y`. -/
def productOfXY : Expr := .product [.symbol "x", .symbol "y"]

/-- The canonical form of a text, as far as phrases are found. -/
def canonicalOfText? (text : String) : Option Expr :=
  (Expr.ofText? text).bind fun e => (Expr.ofText? e.canonicalize.key).map Expr.canonicalize

theorem canonicalForm?_of_canonicalOfText? {text : String} {form : Expr}
    (h : canonicalOfText? text = some form) : Expr.canonicalForm? text = some form := by
  obtain ⟨e, he, h⟩ := Option.bind_eq_some_iff.mp h
  obtain ⟨x, hx, rfl⟩ := Option.map_eq_some_iff.mp h
  unfold Expr.canonicalForm?
  rw [Expr.parse_of_ofText? he]
  simp only [Expr.parse_of_ofText? hx]

/-- Whether two texts have one key, as far as phrases are found. -/
def sameKey? (a b : String) : Option Bool :=
  (canonicalOfText? a).bind fun f => (canonicalOfText? b).map fun g => decide (f.key = g.key)

theorem sameKey_iff_of_sameKey? {a b : String} {same : Bool} (h : sameKey? a b = some same) :
    SameKey a b ↔ same = true := by
  obtain ⟨f, hf, h⟩ := Option.bind_eq_some_iff.mp h
  obtain ⟨g, hg, rfl⟩ := Option.map_eq_some_iff.mp h
  have hf := canonicalForm?_of_canonicalOfText? hf
  have hg := canonicalForm?_of_canonicalOfText? hg
  rw [decide_eq_true_eq]
  constructor
  · rintro ⟨f', g', hf', hg', hkey⟩
    obtain rfl := Option.some.inj (hf.symm.trans hf')
    obtain rfl := Option.some.inj (hg.symm.trans hg')
    exact hkey
  · exact fun hkey => ⟨f, g, hf, hg, hkey⟩

/-- Texts with different keys are not found equal, unless they are the same up to white space. -/
theorem not_equalTexts_of_sameKey? {a b : String} (hkey : sameKey? a b = some false)
    (hsqueeze : squeeze a ≠ squeeze b) : ¬EqualTexts a b := by
  rintro ⟨-, -, hequal | hsame⟩
  · exact hsqueeze hequal
  · exact Bool.false_ne_true ((sameKey_iff_of_sameKey? hkey).mp hsame)

theorem parse_xy : Expr.parse "x*y" = .ok productOfXY := Expr.parse_of_ofText? (by cbv)

theorem parse_yx : Expr.parse "y*x" = .ok (.product [.symbol "y", .symbol "x"]) :=
  Expr.parse_of_ofText? (by cbv)

/-- Texts that differ in the order of their factors. -/
theorem sameKey_yx_xy : SameKey "y*x" "x*y" := (sameKey_iff_of_sameKey? (by cbv)).mpr rfl

/-- Texts that differ in how a product is written. -/
theorem sameKey_xy_juxtaposed : SameKey "x*y" "x y" := (sameKey_iff_of_sameKey? (by cbv)).mpr rfl

theorem equalTexts_yx_xy : EqualTexts "y*x" "x*y" := ⟨by decide, by decide, .inr sameKey_yx_xy⟩

theorem equalTexts_xy_juxtaposed : EqualTexts "x*y" "x y" :=
  ⟨by decide, by decide, .inr sameKey_xy_juxtaposed⟩

/-! ### The answers -/

/-- **Texts found equal have one value.**  White space is left out here: without it, the texts
that are the same up to white space are the same. -/
theorem value_eq_of_areEqual (hcache : Reachable cache) {a b : String}
    (ha : ∀ c ∈ a.toList, isBlank c = false) (hb : ∀ c ∈ b.toList, isBlank c = false) {x y : Expr}
    (hx : Expr.parse a = .ok x) (hy : Expr.parse b = .ok y) (h : (cache.areEqual a b).1 = true)
    (ρ : Valuation) : x.value ρ = y.value ρ := by
  obtain ⟨-, -, hsqueeze | hkey⟩ := (areEqual_iff hcache a b).mp h
  · rw [squeeze_eq_self ha, squeeze_eq_self hb] at hsqueeze
    subst hsqueeze
    obtain rfl : x = y := Except.ok.inj (hx.symm.trans hy)
    rfl
  · exact hkey.value_eq hx hy ρ

theorem value_eq_of_areEqual_product :
    (Expr.product [.symbol "y", .symbol "x"]).value (.uniform 2) = productOfXY.value (.uniform 2) :=
  value_eq_of_areEqual (.areEqual .empty "y*x" "x*y") (by simp [isBlank]) (by simp [isBlank])
    parse_yx parse_xy ((areEqual_iff (.areEqual .empty _ _) _ _).mpr equalTexts_yx_xy) (.uniform 2)

/-- **What is remembered makes no difference.**  Texts are in one set only if both can be read and
have one canonical key, every answer is the one given from scratch, and for texts that are not the
same up to white space it tells whether their canonical keys are the same. -/
theorem areEqual_transparent (hcache : Reachable cache) (a b : String) :
    ((cache.sets.same a b).1 = true →
      (∃ x, Expr.parse a = .ok x) ∧ (∃ y, Expr.parse b = .ok y) ∧
        ∃ f g, Expr.canonicalForm? a = some f ∧ Expr.canonicalForm? b = some g ∧ f.key = g.key ∧
          (cache.canonicalKey a).1 = some f.key ∧ (cache.canonicalKey b).1 = some f.key) ∧
      (cache.areEqual a b).1 = (empty.areEqual a b).1 ∧
      (isBlankText a = false → isBlankText b = false →
        ∀ x y, Expr.parse a = .ok x → Expr.parse b = .ok y → squeeze a ≠ squeeze b →
          ∃ f g, Expr.canonicalForm? a = some f ∧ Expr.canonicalForm? b = some g ∧
            ((empty.areEqual a b).1 = true ↔ f.key = g.key)) := by
  refine ⟨fun hsame => ?_, ?_, fun ha hb x y hx hy hsqueeze => ?_⟩
  · have hset := (cache.sets.same_spec a b).1.mp hsame
    obtain ⟨f, g, hf, hg, hkey⟩ := (sound_of_reachable hcache).sets a b hset
    refine ⟨Expr.exists_canonicalForm?_iff.mp ⟨f, hf⟩, Expr.exists_canonicalForm?_iff.mp ⟨g, hg⟩,
      f, g, hf, hg, hkey, ?_, ?_⟩
    · rw [canonicalKey_eq hcache, hf, Option.map_some]
    · rw [canonicalKey_eq hcache, hg, hkey, Option.map_some]
  · rw [Bool.eq_iff_iff, areEqual_iff hcache, areEqual_iff .empty]
  · obtain ⟨f, hf⟩ := Expr.exists_canonicalForm?_iff.mpr ⟨x, hx⟩
    obtain ⟨g, hg⟩ := Expr.exists_canonicalForm?_iff.mpr ⟨y, hy⟩
    refine ⟨f, g, hf, hg, ?_⟩
    rw [areEqual_iff .empty]
    constructor
    · rintro ⟨-, -, hequal | ⟨f', g', hf', hg', hkey⟩⟩
      · exact absurd hequal hsqueeze
      · obtain rfl : f' = f := Option.some.inj (hf'.symm.trans hf)
        obtain rfl : g' = g := Option.some.inj (hg'.symm.trans hg)
        exact hkey
    · exact fun hkey => ⟨ha, hb, .inr ⟨f, g, hf, hg, hkey⟩⟩

theorem areEqual_transparent_product :
    ((empty.areEqual "y*x" "x*y").2.sets.same "y*x" "x*y").1 = true ∧
      (∃ key, ((empty.areEqual "y*x" "x*y").2.canonicalKey "y*x").1 = some key ∧
        ((empty.areEqual "y*x" "x*y").2.canonicalKey "x*y").1 = some key) ∧
      ((empty.areEqual "y*x" "x*y").2.areEqual "y*x" "x*y").1 = (empty.areEqual "y*x" "x*y").1 ∧
      ∃ f g, Expr.canonicalForm? "y*x" = some f ∧ Expr.canonicalForm? "x*y" = some g ∧
        ((empty.areEqual "y*x" "x*y").1 = true ↔ f.key = g.key) := by
  obtain ⟨hset, hscratch, hkeys⟩ :=
    areEqual_transparent (.areEqual .empty "y*x" "x*y") "y*x" "x*y"
  have hsame := same_of_areEqual .empty ((areEqual_iff .empty _ _).mpr equalTexts_yx_xy)
    (by decide)
  obtain ⟨-, -, f, -, -, -, -, hleft, hright⟩ := hset hsame
  exact ⟨hsame, ⟨f.key, hleft, hright⟩, hscratch,
    hkeys (by decide) (by decide) _ _ parse_yx parse_xy (by decide)⟩

/-- **Being found equal is reflexive and symmetric, and transitive for comparisons made in one
way**: if two comparisons have a text in common, the third one follows if both are equal up to white
space or both have one canonical key, and in no other case.  For texts without white space these
are all cases. -/
theorem areEqual_equivalence (hcache : Reachable cache) {a b c : String}
    (ha : isBlankText a = false) (hb : isBlankText b = false) (hc : isBlankText c = false) :
    (cache.areEqual a a).1 = true ∧
      (cache.areEqual a b).1 = (cache.areEqual b a).1 ∧
      ((cache.areEqual a b).1 = true → (cache.areEqual b c).1 = true →
        ((cache.areEqual a c).1 = true ↔
          squeeze a = squeeze b ∧ squeeze b = squeeze c ∨ SameKey a b ∧ SameKey b c)) ∧
      (squeeze a = a → squeeze b = b → squeeze c = c →
        (cache.areEqual a b).1 = true → (cache.areEqual b c).1 = true →
          (cache.areEqual a c).1 = true) := by
  simp only [areEqual_iff hcache, Bool.eq_iff_iff]
  refine ⟨.refl ha, ⟨.symm, .symm⟩, EqualTexts.trans_iff, fun hsqueezeA hsqueezeB hsqueezeC => ?_⟩
  rintro ⟨-, -, hab⟩ ⟨-, -, hbc⟩
  rw [hsqueezeA, hsqueezeB] at hab
  rw [hsqueezeB, hsqueezeC] at hbc
  refine ⟨ha, hc, ?_⟩
  rcases hab, hbc with ⟨rfl | hab, rfl | hbc⟩
  · exact .inl rfl
  · exact .inr hbc
  · exact .inr hab
  · exact .inr (hab.trans hbc)

theorem areEqual_equivalence_products :
    (empty.areEqual "y*x" "y*x").1 = true ∧
      (empty.areEqual "y*x" "x*y").1 = (empty.areEqual "x*y" "y*x").1 ∧
      (empty.areEqual "y*x" "x y").1 = true := by
  obtain ⟨hrefl, hsymm, htrans, -⟩ :=
    areEqual_equivalence .empty (a := "y*x") (b := "x*y") (c := "x y") (by decide) (by decide)
      (by decide)
  have hyx := (areEqual_iff .empty _ _).mpr equalTexts_yx_xy
  have hxy := (areEqual_iff .empty _ _).mpr equalTexts_xy_juxtaposed
  exact ⟨hrefl, hsymm, (htrans hyx hxy).mpr (.inr ⟨sameKey_yx_xy, sameKey_xy_juxtaposed⟩)⟩

/-- The text `x y` is the variable `xy` up to white space and the product `x*y` when it is read, so
it equals two texts that do not equal each other. -/
theorem areEqual_letters_juxtaposed :
    isBlankText "xy" = false ∧ isBlankText "x y" = false ∧ isBlankText "x*y" = false ∧
      (empty.areEqual "xy" "x y").1 = true ∧ (empty.areEqual "x y" "x*y").1 = true ∧
      (empty.areEqual "xy" "x*y").1 = false := by
  have hletters : EqualTexts "xy" "x y" := ⟨by decide, by decide, .inl (by decide)⟩
  have hproduct := equalTexts_xy_juxtaposed.symm
  have hdifferent : ¬EqualTexts "xy" "x*y" := not_equalTexts_of_sameKey? (by cbv) (by decide)
  refine ⟨by decide, by decide, by decide, (areEqual_iff .empty _ _).mpr hletters,
    (areEqual_iff .empty _ _).mpr hproduct, ?_⟩
  rw [← Bool.not_eq_true, areEqual_iff .empty]
  exact hdifferent

end EqualityCache

end AlgebraTutor
