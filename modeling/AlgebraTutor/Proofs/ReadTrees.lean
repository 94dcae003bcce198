/-
What is read is well-formed.

A tree that comes from a text has the right number of arguments everywhere, because a phrase of the
grammar stands for no other nodes, and its names are identifiers, because names come from tokens and
the pattern of such a token admits nothing else.  Both pass from the parts of a phrase to the phrase.
-/
import AlgebraTutor.Proofs.DerivedParts
import AlgebraTutor.Proofs.MaximalMunch
import AlgebraTutor.Proofs.Recognition
import AlgebraTutor.Proofs.Reordering

namespace AlgebraTutor

open Token

/-! ### Well-formed trees -/

namespace Expr

/-- The trees that are read: well-formed, and with a product in place of a call of a letter. -/
structure IsPlain (e : Expr) : Prop where
  wellFormed : e.isWellFormed = true
  noLetterCall : e.hasLetterCall = false

theorem anyHasLetterCall_eq_any (es : List Expr) : anyHasLetterCall es = es.any hasLetterCall := by
  induction es with
  | nil => rfl
  | cons e es ih => exact congrArg (hasLetterCall e || ·) ih

theorem hasLetterCall_op {kind : Op} {args : List Expr} {i : Bool} :
    (op kind args i).hasLetterCall = args.any hasLetterCall := anyHasLetterCall_eq_any args

theorem hasLetterCall_call {name : String} {args : List Expr} : (call name args).hasLetterCall =
    (name.length == 1 && args.length == 1 || args.any hasLetterCall) :=
  congrArg (name.length == 1 && args.length == 1 || ·) (anyHasLetterCall_eq_any args)

theorem isPlain_op {kind : Op} {args : List Expr} {i : Bool} :
    (op kind args i).IsPlain ↔ kind.accepts args.length = true ∧ ∀ arg ∈ args, arg.IsPlain := by
  constructor
  · rintro ⟨hwell, hletter⟩
    obtain ⟨hlength, hargs⟩ := isWellFormed_op.mp hwell
    rw [hasLetterCall_op, List.any_eq_false] at hletter
    exact ⟨hlength, fun arg harg => ⟨hargs arg harg, by simpa using hletter arg harg⟩⟩
  · rintro ⟨hlength, hargs⟩
    refine ⟨isWellFormed_op.mpr ⟨hlength, fun arg harg => (hargs arg harg).wellFormed⟩, ?_⟩
    rw [hasLetterCall_op, List.any_eq_false]
    intro arg harg
    simp [(hargs arg harg).noLetterCall]

theorem isPlain_call {name : String} {args : List Expr} :
    (call name args).IsPlain ↔ isIdentifier name.toList = true ∧
      ¬(name.length = 1 ∧ args.length = 1) ∧ ∀ arg ∈ args, arg.IsPlain := by
  constructor
  · rintro ⟨hwell, hletter⟩
    obtain ⟨hname, hargs⟩ := isWellFormed_call.mp hwell
    rw [hasLetterCall_call, Bool.or_eq_false_iff, List.any_eq_false] at hletter
    exact ⟨hname, by simpa using hletter.1,
      fun arg harg => ⟨hargs arg harg, by simpa using hletter.2 arg harg⟩⟩
  · rintro ⟨hname, hletter, hargs⟩
    refine ⟨isWellFormed_call.mpr ⟨hname, fun arg harg => (hargs arg harg).wellFormed⟩, ?_⟩
    rw [hasLetterCall_call, Bool.or_eq_false_iff, List.any_eq_false]
    refine ⟨by simpa using hletter, fun arg harg => ?_⟩
    simp [(hargs arg harg).noLetterCall]

/-- A node stays well-formed if its arguments do. -/
theorem IsPlain.map_op {kind : Op} {args : List Expr} {i : Bool} (h : (op kind args i).IsPlain)
    {f : Expr → Expr} (hf : ∀ arg ∈ args, arg.IsPlain → (f arg).IsPlain) :
    (op kind (args.map f) i).IsPlain := by
  obtain ⟨hlength, hargs⟩ := isPlain_op.mp h
  refine isPlain_op.mpr ⟨by rwa [List.length_map], ?_⟩
  exact List.forall_mem_map.mpr fun arg harg => hf arg harg (hargs arg harg)

theorem IsPlain.map_call {name : String} {args : List Expr} (h : (call name args).IsPlain)
    {f : Expr → Expr} (hf : ∀ arg ∈ args, arg.IsPlain → (f arg).IsPlain) :
    (call name (args.map f)).IsPlain := by
  obtain ⟨hname, hletter, hargs⟩ := isPlain_call.mp h
  refine isPlain_call.mpr ⟨hname, by rwa [List.length_map], ?_⟩
  exact List.forall_mem_map.mpr fun arg harg => hf arg harg (hargs arg harg)

/-- A reordering of a well-formed tree is well-formed. -/
theorem Reordered.isPlain {a b : Expr} (h : Reordered a b) (ha : a.IsPlain) : b.IsPlain := by
  induction h with
  | refl _ => exact ha
  | trans _ _ ih₁ ih₂ => exact ih₂ (ih₁ ha)
  | implicit kind args i j => exact isPlain_op.mpr (isPlain_op.mp ha)
  | perm _ h i =>
      obtain ⟨hlength, hargs⟩ := isPlain_op.mp ha
      exact isPlain_op.mpr ⟨h.length_eq ▸ hlength, fun arg harg => hargs arg (h.mem_iff.mpr harg)⟩
  | opArg kind before after i _ ih =>
      obtain ⟨hlength, hargs⟩ := isPlain_op.mp ha
      rw [List.forall_mem_append, List.forall_mem_cons] at hargs
      refine isPlain_op.mpr ⟨by simpa using hlength, ?_⟩
      rw [List.forall_mem_append, List.forall_mem_cons]
      exact ⟨hargs.1, ih hargs.2.1, hargs.2.2⟩
  | callArg name before after _ ih =>
      obtain ⟨hname, hletter, hargs⟩ := isPlain_call.mp ha
      rw [List.forall_mem_append, List.forall_mem_cons] at hargs
      refine isPlain_call.mpr ⟨hname, by simpa using hletter, ?_⟩
      rw [List.forall_mem_append, List.forall_mem_cons]
      exact ⟨hargs.1, ih hargs.2.1, hargs.2.2⟩

theorem isPlain_const (q : Rat) : (const q).IsPlain := ⟨rfl, rfl⟩

theorem isPlain_symbol {name : String} (h : isIdentifier name.toList = true) :
    (symbol name).IsPlain := ⟨h, rfl⟩

theorem isPlain_minus {e : Expr} (he : e.IsPlain) : (minus e).IsPlain :=
  isPlain_op.mpr ⟨rfl, by simpa using he⟩

theorem isPlain_ofCall {name : String} (hname : isIdentifier name.toList = true)
    {args : List Expr} (hargs : ∀ arg ∈ args, arg.IsPlain) : (ofCall name args).IsPlain := by
  unfold ofCall
  split
  · next arg =>
      split
      · refine isPlain_op.mpr ⟨rfl, ?_⟩
        simpa using ⟨isPlain_symbol hname, hargs arg (by simp)⟩
      · next hlength =>
          exact isPlain_call.mpr ⟨hname, fun h => hlength h.1, hargs⟩
  · next hsingle =>
      refine isPlain_call.mpr ⟨hname, fun h => ?_, hargs⟩
      obtain ⟨arg, rfl⟩ := List.length_eq_one_iff.mp h.2
      exact hsingle arg rfl

theorem isPlain_joined {kind : BinaryKind} {i : Bool} {a b : Expr} (ha : a.IsPlain)
    (hb : b.IsPlain) : (Phrase.joined kind i a b).IsPlain := by
  have hminus := isPlain_minus hb
  cases kind <;> refine isPlain_op.mpr ⟨rfl, ?_⟩ <;> simp [ha, hb, hminus]

end Expr

/-! ### Phrases with well-formed trees -/

/-- The pattern of names admits only identifiers. -/
theorem Lexeme.Fits.isIdentifier {l : Lexeme} (h : l.Fits) (hkind : l.kind = .name) :
    isIdentifier l.text.toList = true := by
  rw [Fits, hkind] at h
  obtain ⟨c, rest, heq, hc, hrest⟩ :=
    (TokenKind.isClass_letter.mem_mul_kstar TokenKind.isClass_nameRest).mp h
  rw [heq]
  exact Bool.and_eq_true_iff.mpr ⟨hc, List.all_eq_true.mpr hrest⟩

namespace Phrase

open AlgebraTutor.Expr

/-- If the phrase has a tree, it is well-formed. -/
def IsPlain (p : Phrase) : Prop := ∀ e, p.expr? = some e → e.IsPlain

theorem arePlain_of_exprs? {ps : List Phrase} (hps : ∀ p ∈ ps, p.IsPlain) :
    ∀ {es : List Expr}, exprs? ps = some es → ∀ e ∈ es, e.IsPlain := by
  induction ps with
  | nil =>
      intro es hes
      cases hes
      simp
  | cons p ps ih =>
      intro es hes
      obtain ⟨hp, hps⟩ := List.forall_mem_cons.mp hps
      obtain ⟨x, hx, hes⟩ := Option.bind_eq_some_iff.mp hes
      obtain ⟨xs, hxs, rfl⟩ := Option.map_eq_some_iff.mp hes
      exact List.forall_mem_cons.mpr ⟨hp x hx, ih hps hxs⟩

/-- What is written with the tokens of a text has a well-formed tree. -/
theorem compositional_isPlain : Compositional Lexeme.Fits IsPlain where
  number _ _ e he := by
    obtain ⟨q, -, rfl⟩ := Option.map_eq_some_iff.mp he
    exact isPlain_const q
  symbol hl hkind e he := by
    cases he
    exact isPlain_symbol (hl.isIdentifier hkind)
  member hobject hobjectKind hindex hindexKind e he := by
    cases he
    exact ⟨Bool.and_eq_true_iff.mpr
      ⟨hobject.isIdentifier hobjectKind, hindex.isIdentifier hindexKind⟩, rfl⟩
  paren hp := hp
  call hl hkind hps e he := by
    obtain ⟨es, hes, rfl⟩ := Option.map_eq_some_iff.mp he
    exact isPlain_ofCall (hl.isIdentifier hkind) (arePlain_of_exprs? hps hes)
  neg hp e he := by
    obtain ⟨x, hx, rfl⟩ := Option.map_eq_some_iff.mp he
    exact isPlain_minus (hp x hx)
  binary kind i hp hq e he := by
    obtain ⟨x, hx, he⟩ := Option.bind_eq_some_iff.mp he
    obtain ⟨y, hy, rfl⟩ := Option.map_eq_some_iff.mp he
    exact isPlain_joined (hp x hx) (hq y hy)

end Phrase

namespace Expr

/-- **What is read from a text is well-formed**, and calls no function with a single letter for a
name with one argument. -/
theorem isPlain_of_parse {text : String} {e : Expr} (h : parse text = .ok e) : e.IsPlain := by
  obtain ⟨p, hp, he⟩ := parse_eq_ok_iff.mp h
  exact hp.holds Phrase.compositional_isPlain (fits_lexemes text) trivial e he

/-! ### Normal forms -/

theorem isPlain_of_mem_spread {kind : Op} {e f : Expr} (he : e.IsPlain) (h : f ∈ spread kind e) :
    f.IsPlain := by
  unfold spread at h
  split at h
  · split at h
    · exact (isPlain_op.mp he).2 f h
    · exact List.mem_singleton.mp h ▸ he
  · exact List.mem_singleton.mp h ▸ he

theorem isPlain_merged {kind : Op} (hkind : kind.isCommutative = true) {args : List Expr}
    (hargs : ∀ arg ∈ args, arg.IsPlain) (i : Bool) : (merged kind args i).IsPlain := by
  have hflat : ∀ e ∈ args.flatMap (spread kind), e.IsPlain := by
    intro e he
    obtain ⟨arg, harg, he⟩ := List.mem_flatMap.mp he
    exact isPlain_of_mem_spread (hargs arg harg) he
  unfold merged
  split
  · exact isPlain_const _
  · next only heq => exact hflat only (by rw [heq]; exact List.mem_singleton.mpr rfl)
  · next hnil _ =>
      refine isPlain_op.mpr ⟨?_, hflat⟩
      have hlength : (args.flatMap (spread kind)).length ≠ 0 := fun h =>
        hnil (List.eq_nil_of_length_eq_zero h)
      cases kind <;> simp [Op.isCommutative] at hkind <;> simpa [Op.accepts] using hlength

theorem isPlain_signed {args : List Expr} {i : Bool} (h : (op .neg args i).IsPlain) :
    (signed args i).IsPlain := by
  obtain ⟨hlength, hargs⟩ := isPlain_op.mp h
  unfold signed
  split
  · exact isPlain_const _
  · obtain ⟨hlength', hfactors⟩ := isPlain_op.mp (hargs _ (List.mem_singleton.mpr rfl))
    exact isPlain_op.mpr ⟨hlength', List.forall_mem_cons.mpr
      ⟨isPlain_const _, (List.forall_mem_cons.mp hfactors).2⟩⟩
  · obtain ⟨hlength', hdivisors⟩ := isPlain_op.mp (hargs _ (List.mem_singleton.mpr rfl))
    exact isPlain_op.mpr ⟨hlength', List.forall_mem_cons.mpr
      ⟨isPlain_const _, (List.forall_mem_cons.mp hdivisors).2⟩⟩
  · exact isPlain_minus (hargs _ (List.mem_singleton.mpr rfl))
  · exact h

theorem isPlain_normalOp {kind : Op} {args : List Expr} {i : Bool}
    (h : (op kind args i).IsPlain) : (normalOp kind args i).IsPlain := by
  cases kind with
  | add => exact isPlain_merged rfl (isPlain_op.mp h).2 i
  | mul => exact isPlain_merged rfl (isPlain_op.mp h).2 i
  | div => exact h
  | pow => exact h
  | neg => exact isPlain_signed h

theorem isPlain_normalCall {name : String} {args : List Expr} (h : (call name args).IsPlain) :
    (normalCall name args).IsPlain := by
  obtain ⟨hname, hletter, hargs⟩ := isPlain_call.mp h
  unfold normalCall
  split
  · next arg =>
      have harg : arg.IsPlain := hargs arg (List.mem_singleton.mpr rfl)
      split_ifs
      · refine isPlain_call.mpr ⟨by decide, by simp, ?_⟩
        simpa using ⟨harg, isPlain_const 2⟩
      · refine isPlain_call.mpr ⟨by decide, by simp, ?_⟩
        simpa using ⟨isPlain_const 10, harg⟩
      · refine isPlain_call.mpr ⟨by decide, by simp, ?_⟩
        simpa using ⟨⟨by decide, rfl⟩, harg⟩
      · exact h
  · exact h

/-- A normal form is well-formed. -/
theorem isPlain_normalize {e : Expr} (h : e.IsPlain) : e.normalize.IsPlain := by
  induction e using Expr.induction with
  | const q => exact h
  | symbol name => exact h
  | member object index => exact h
  | op kind args i ih =>
      rw [normalize, normalizeAll_eq_map]
      exact isPlain_normalOp (h.map_op ih)
  | call name args ih =>
      rw [normalize, normalizeAll_eq_map]
      exact isPlain_normalCall (h.map_call ih)

end Expr

end AlgebraTutor
