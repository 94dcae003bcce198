/-
Keys are balanced.

In a key every parenthesis has its counterpart, because names and numbers have none and the printer
adds them in pairs.  What that is good for is that a closing parenthesis can be told by what is in
front of it: two texts that go on after a balanced beginning and a closing parenthesis have the same
beginning.
-/
import AlgebraTutor.Proofs.PrintedTrees

namespace AlgebraTutor

open Token

/-! ### Balanced texts -/

/-- Every parenthesis in the text has its counterpart. -/
inductive Balanced : List Char → Prop
  | nil : Balanced []
  | char {c : Char} {rest : List Char} (hopening : c ≠ '(') (hclosing : c ≠ ')')
      (hrest : Balanced rest) : Balanced (c :: rest)
  | group {inner rest : List Char} (hinner : Balanced inner) (hrest : Balanced rest) :
      Balanced ('(' :: (inner ++ ')' :: rest))

namespace Balanced

variable {s t : List Char}

theorem append (hs : Balanced s) (ht : Balanced t) : Balanced (s ++ t) := by
  induction hs with
  | nil => exact ht
  | char hopening hclosing _ ih => exact .char hopening hclosing ih
  | group hinner _ _ ih =>
      rw [List.cons_append, List.append_assoc, List.cons_append]
      exact .group hinner ih

/-- A text without parentheses is balanced. -/
theorem of_test {test : Char → Bool} (hopening : test '(' = false) (hclosing : test ')' = false)
    (h : ∀ c ∈ s, test c = true) : Balanced s := by
  induction s with
  | nil => exact .nil
  | cons c s ih =>
      obtain ⟨hc, hs⟩ := List.forall_mem_cons.mp h
      refine .char ?_ ?_ (ih hs)
      · rintro rfl
        rw [hopening] at hc
        cases hc
      · rintro rfl
        rw [hclosing] at hc
        cases hc

theorem wrap (hs : Balanced s) (needed : Bool) : Balanced (Expr.wrap needed s) := by
  cases needed with
  | false => exact hs
  | true => exact .group hs .nil

/-- A closing parenthesis that follows a balanced text ends it. -/
theorem unique (hs : Balanced s) (ht : Balanced t) {rest rest' : List Char}
    (h : s ++ ')' :: rest = t ++ ')' :: rest') : s = t ∧ rest = rest' := by
  induction hs generalizing t rest rest' with
  | nil =>
      cases ht with
      | nil => exact ⟨rfl, List.tail_eq_of_cons_eq h⟩
      | char _ hclosing _ => exact absurd (List.head_eq_of_cons_eq h).symm hclosing
      | group _ _ => exact absurd (List.head_eq_of_cons_eq h) (by decide)
  | char hopening hclosing _ ih =>
      cases ht with
      | nil => exact absurd (List.head_eq_of_cons_eq h) hclosing
      | char _ _ ht =>
          obtain ⟨rfl, rfl⟩ := ih ht (List.tail_eq_of_cons_eq h)
          exact ⟨by rw [List.head_eq_of_cons_eq h], rfl⟩
      | group _ _ => exact absurd (List.head_eq_of_cons_eq h) hopening
  | group _ _ ihInner ihRest =>
      cases ht with
      | nil => exact absurd (List.head_eq_of_cons_eq h) (by decide)
      | char hopening _ _ => exact absurd (List.head_eq_of_cons_eq h).symm hopening
      | group hinner hrest =>
          simp only [List.cons_append, List.append_assoc] at h
          have htail := List.tail_eq_of_cons_eq h
          obtain ⟨rfl, hrests⟩ := ihInner hinner htail
          obtain ⟨rfl, rfl⟩ := ihRest hrest hrests
          exact ⟨rfl, rfl⟩

end Balanced

namespace Expr

/-! ### Names and numbers -/

/-- A character of the text of a number that is not a fraction. -/
def isNumberChar (c : Char) : Bool := c.isDigit || c == '.' || c == '-'

theorem isNumberChar_of_writes {text numeral : List Char} {q : Rat} (h : Writes text q numeral) :
    ∀ c ∈ text, isNumberChar c = true := by
  have hnumeral : ∀ c ∈ numeral, isNumberChar c = true := by
    cases h.isNumeral with
    | whole _ hdigits => exact fun c hc => by simp [isNumberChar, hdigits c hc]
    | pointed _ _ hwhole hplaces =>
        intro c hc
        rcases List.mem_append.mp hc with hc | hc
        · simp [isNumberChar, hwhole c hc]
        · rcases List.mem_cons.mp hc with rfl | hc
          · rfl
          · simp [isNumberChar, hplaces c hc]
  rw [h.text]
  split
  · exact List.forall_mem_cons.mpr ⟨rfl, hnumeral⟩
  · exact hnumeral

theorem balanced_name {name : List Char} (h : isIdentifier name = true) : Balanced name := by
  cases name with
  | nil => exact .nil
  | cons c rest =>
      obtain ⟨hc, hall⟩ := Bool.and_eq_true_iff.mp h
      have hc : isNameRest c = true := by
        rw [isNameStart, Bool.or_eq_true] at hc
        rw [isNameRest, Char.isAlphanum, Bool.or_eq_true, Bool.or_eq_true]
        exact hc.imp .inl id
      exact .of_test rfl rfl (List.forall_mem_cons.mpr ⟨hc, List.all_eq_true.mp hall⟩)

theorem balanced_constText (q : Rat) : Balanced (constText q) := by
  have hwritten {text numeral : List Char} {q : Rat} (h : Writes text q numeral) :
      Balanced text := .of_test rfl rfl (isNumberChar_of_writes h)
  rcases constText_cases q with ⟨numeral, hwrites, -⟩ | ⟨-, htext⟩
  · exact hwritten hwrites
  · rw [htext]
    exact (hwritten (intText_writes q.num)).append
      (.char (by decide) (by decide) (.of_test rfl rfl fun c => isDigit_of_mem_natText))

/-! ### Printed trees -/

theorem balanced_laterTerms {terms : List Expr}
    (h : ∀ term ∈ terms, Balanced (render .compact ((withoutMinus? term).getD term))) :
    Balanced (laterTerms .compact terms) := by
  induction terms with
  | nil =>
      rw [laterTerms]
      exact .nil
  | cons term terms ih =>
      obtain ⟨hterm, hterms⟩ := List.forall_mem_cons.mp h
      rw [laterTerms_cons]
      refine .append ?_ (ih hterms)
      cases hminus : withoutMinus? term with
      | some positive =>
          rw [hminus] at hterm
          exact .char (by decide) (by decide) (hterm.wrap _)
      | none =>
          rw [hminus] at hterm
          exact .char (by decide) (by decide) (hterm.wrap _)

theorem balanced_laterFactors {factors : List Expr} {i : Bool}
    (h : ∀ factor ∈ factors, Balanced (render .compact factor)) {isSecond : Bool}
    {previous : Expr} :
    Balanced (laterFactors .compact i isSecond previous (renderAll .compact factors)) := by
  induction factors generalizing isSecond previous with
  | nil =>
      rw [renderAll, laterFactors]
      exact .nil
  | cons factor factors ih =>
      obtain ⟨hfactor, hfactors⟩ := List.forall_mem_cons.mp h
      rw [laterFactors_cons]
      refine .append (.append ?_ (hfactor.wrap _)) (ih hfactors)
      split
      · exact .nil
      · exact .char (by decide) (by decide) .nil

theorem balanced_intercalate {texts : List (List Char)} (h : ∀ text ∈ texts, Balanced text) :
    Balanced (List.intercalate [','] texts) := by
  induction texts with
  | nil => exact .nil
  | cons text texts ih =>
      obtain ⟨htext, htexts⟩ := List.forall_mem_cons.mp h
      cases texts with
      | nil => rwa [List.intercalate_singleton]
      | cons other texts =>
          rw [List.intercalate_cons_cons]
          exact (htext.append (.char (by decide) (by decide) .nil)).append (ih htexts)

/-- The compact style shows every function under its own name. -/
theorem render_call (name : String) (args : List Expr) : render .compact (call name args) =
    name.toList ++ wrap true (List.intercalate [','] (args.map (render .compact))) := by
  have hshown : shownCall .compact name (renderAll .compact args) =
      (name, renderAll .compact args) := by
    unfold shownCall
    split
    · next h _ => cases h
    · next h _ => cases h
    · rfl
  have htexts : (renderAll .compact args).map Prod.snd = args.map (render .compact) := by
    rw [renderAll_eq_map, List.map_map]
    rfl
  rw [render, callText, hshown, ← htexts]
  rfl

/-- **The key of a well-formed tree is balanced.** -/
theorem balanced_render {e : Expr} (hwell : e.isWellFormed = true) :
    Balanced (render .compact e) := by
  induction e, hwell using wellFormed_induction with
  | const q =>
      rw [render]
      exact balanced_constText q
  | symbol name hwell =>
      rw [render]
      exact balanced_name hwell
  | member object index hwell =>
      obtain ⟨hobject, hindex⟩ := Bool.and_eq_true_iff.mp hwell
      rw [render]
      exact (balanced_name hobject).append (.char (by decide) (by decide) (balanced_name hindex))
  | call name args hwell _ ih =>
      rw [render_call]
      refine (balanced_name (isWellFormed_call.mp hwell).1).append
        ((balanced_intercalate ?_).wrap true)
      exact List.forall_mem_map.mpr ih
  | add first rest i _ _ _ ih ihShown =>
      rw [render]
      exact (ih first (.head _)).append (balanced_laterTerms ihShown)
  | mul first rest i _ _ ih =>
      obtain ⟨hfirst, hrest⟩ := List.forall_mem_cons.mp ih
      rw [render_mul_cons]
      exact (hfirst.wrap _).append (balanced_laterFactors hrest)
  | div a b i _ _ _ iha ihb =>
      rw [render_div]
      exact (iha.wrap _).append (.char (by decide) (by decide) (ihb.wrap _))
  | pow a b i _ _ _ iha ihb =>
      rw [render_pow]
      exact (iha.wrap _).append (.char (by decide) (by decide) (ihb.wrap _))
  | neg a i _ _ ih =>
      rw [render_neg]
      exact .char (by decide) (by decide) (ih.wrap _)

end Expr

end AlgebraTutor
