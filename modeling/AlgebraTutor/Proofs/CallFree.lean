/-
Trees without function calls.

They stay without calls when they are normalized, so being well-formed without a call is a
hereditary property.  A pattern that calls a function makes no such tree.
-/
import AlgebraTutor.Proofs.Hereditary

namespace AlgebraTutor

namespace Expr

/-- The tree is well-formed and calls no function. -/
structure IsArithmetic (e : Expr) : Prop where
  wellFormed : e.isWellFormed = true
  noCall : e.hasCall = false

theorem isArithmetic_op {kind : Op} {args : List Expr} {i : Bool} :
    (op kind args i).IsArithmetic ↔
      kind.accepts args.length = true ∧ ∀ arg ∈ args, arg.IsArithmetic := by
  constructor
  · rintro ⟨hwell, hcall⟩
    obtain ⟨hlength, hargs⟩ := isWellFormed_op.mp hwell
    rw [hasCall_op, List.any_eq_false] at hcall
    exact ⟨hlength, fun arg harg => ⟨hargs arg harg, by simpa using hcall arg harg⟩⟩
  · rintro ⟨hlength, hargs⟩
    refine ⟨isWellFormed_op.mpr ⟨hlength, fun arg harg => (hargs arg harg).wellFormed⟩, ?_⟩
    rw [hasCall_op, List.any_eq_false]
    intro arg harg
    simp [(hargs arg harg).noCall]

/-! ### Calls in normal forms -/

mutual

theorem hasLetterCall_eq_false : ∀ {e : Expr}, e.hasCall = false → e.hasLetterCall = false
  | const _, _ => rfl
  | symbol _, _ => rfl
  | member _ _, _ => rfl
  | op _ _ _, h => anyHasLetterCall_eq_false h
  | call _ _, h => by cases h

theorem anyHasLetterCall_eq_false : ∀ {es : List Expr}, anyHasCall es = false →
    anyHasLetterCall es = false
  | [], _ => rfl
  | e :: es, h => by
      obtain ⟨he, hes⟩ := Bool.or_eq_false_iff.mp h
      rw [anyHasLetterCall, hasLetterCall_eq_false he, anyHasLetterCall_eq_false hes, Bool.or_false]

end

theorem IsArithmetic.isPlain {e : Expr} (he : e.IsArithmetic) : e.IsPlain :=
  ⟨he.wellFormed, hasLetterCall_eq_false he.noCall⟩

theorem any_hasCall_spread (kind : Op) (e : Expr) : (spread kind e).any hasCall = e.hasCall := by
  unfold spread
  split
  · split
    · rw [hasCall_op]
    · exact Bool.or_false _
  · exact Bool.or_false _

theorem hasCall_merged (kind : Op) (args : List Expr) (i : Bool) :
    (merged kind args i).hasCall = args.any hasCall := by
  have hflat : (args.flatMap (spread kind)).any hasCall = args.any hasCall := by
    rw [List.any_flatMap]
    exact congrArg _ (funext (any_hasCall_spread kind))
  rw [← hflat]
  unfold merged
  split
  · next h => rw [h]; rfl
  · next only h => rw [h]; exact (Bool.or_false _).symm
  · exact hasCall_op _ _ _

theorem hasCall_signed (args : List Expr) (i : Bool) :
    (signed args i).hasCall = args.any hasCall := by
  have hconst (q : Rat) : (const q).hasCall = false := rfl
  unfold signed
  split <;> simp [Expr.minus, hconst]

theorem hasCall_normalOp (kind : Op) (args : List Expr) (i : Bool) :
    (normalOp kind args i).hasCall = args.any hasCall := by
  cases kind with
  | add => exact hasCall_merged .add args i
  | mul => exact hasCall_merged .mul args i
  | div => exact hasCall_op _ _ _
  | pow => exact hasCall_op _ _ _
  | neg => exact hasCall_signed args i

mutual

/-- The normal form calls a function if and only if the tree does. -/
theorem hasCall_normalize : ∀ e : Expr, e.normalize.hasCall = e.hasCall
  | const _ => rfl
  | symbol _ => rfl
  | member _ _ => rfl
  | op kind args i => by
      rw [normalize, hasCall_normalOp, hasCall_op, any_hasCall_normalizeAll args]
  | call name args => by
      rw [normalize]
      unfold normalCall
      split
      · split_ifs <;> rfl
      · rfl

theorem any_hasCall_normalizeAll : ∀ es : List Expr,
    (normalizeAll es).any hasCall = es.any hasCall
  | [] => rfl
  | e :: es => by
      rw [normalizeAll, List.any_cons, List.any_cons, hasCall_normalize e,
        any_hasCall_normalizeAll es]

end

theorem hereditary_isArithmetic : Hereditary IsArithmetic where
  const := fun _ => ⟨rfl, rfl⟩
  op := isArithmetic_op
  callArgs h := nomatch h.noCall
  call h := nomatch h.noCall
  normalize {e} h :=
    ⟨(isPlain_normalize h.isPlain).wellFormed, (hasCall_normalize e).trans h.noCall⟩

theorem hasCall_of_get? {root node : Expr} (hroot : root.hasCall = false) {path : Path}
    (hnode : root.get? path = some node) : node.hasCall = false := by
  refine of_get? (P := fun e => e.hasCall = false) (fun e he arg harg => ?_) hroot hnode
  cases e with
  | op kind args i =>
      rw [hasCall_op, List.any_eq_false] at he
      simpa using he arg harg
  | call name args => cases he
  | _ => cases harg

end Expr

/-! ### Patterns with calls -/

namespace Pattern

open AlgebraTutor.Expr

mutual

/-- Tells whether a function is called in a pattern. -/
def hasCall : Pattern → Bool
  | op _ args => anyHasCall args
  | call _ _ => true
  | _ => false

/-- Tells whether a function is called in one of the patterns. -/
def anyHasCall : List Pattern → Bool
  | [] => false
  | p :: ps => hasCall p || anyHasCall ps

end

mutual

/-- A pattern with a call only becomes trees with a call. -/
theorem hasCall_substitute? {b : Bindings} : ∀ {p : Pattern} {t : Expr}, p.hasCall = true →
    p.substitute? b = some t → t.hasCall = true
  | wildcard _ _, _, hp, _ => by cases hp
  | const _, _, hp, _ => by cases hp
  | symbol _, _, hp, _ => by cases hp
  | member _ _, _, hp, _ => by cases hp
  | call name args, t, _, h => by
      rw [substitute?] at h
      obtain ⟨ts, -, rfl⟩ := Option.map_eq_some_iff.mp h
      rfl
  | op kind args, t, hp, h => by
      rw [substitute?] at h
      obtain ⟨ts, hts, rfl⟩ := Option.map_eq_some_iff.mp h
      rw [hasCall_op]
      exact any_hasCall_substituteAll? hp hts

theorem any_hasCall_substituteAll? {b : Bindings} : ∀ {ps : List Pattern} {ts : List Expr},
    anyHasCall ps = true → substituteAll? b ps = some ts → ts.any Expr.hasCall = true
  | [], _, hps, _ => by cases hps
  | p :: ps, ts, hps, h => by
      rw [substituteAll?] at h
      obtain ⟨t, ht, h⟩ := Option.bind_eq_some_iff.mp h
      obtain ⟨us, hus, h⟩ := Option.bind_eq_some_iff.mp h
      cases h
      rw [List.any_cons, Bool.or_eq_true]
      rcases Bool.or_eq_true_iff.mp hps with hp | hps
      · exact .inl (hasCall_substitute? hp ht)
      · exact .inr (any_hasCall_substituteAll? hps hus)

end

end Pattern

end AlgebraTutor
