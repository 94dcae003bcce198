/-
The parts of a formula and their tokens.

A formula that was read is spelled by its tokens: they write it, and by themselves they make up an
expression with its phrase.  Each of these alone would say too little.  Which tokens write a formula
says nothing of precedence, and the phrase says nothing of places; but of a phrase and of tokens
there is only one formula that they can be (`Written.unique`).

A formula that is spelled has its parts laid out in its tokens, one behind the other, and each of
them is spelled by tokens of its own.
-/
import AlgebraTutor.Proofs.DerivedParts
import AlgebraTutor.Proofs.WrittenFormulas

namespace AlgebraTutor

namespace Formula

open Phrase

variable {f g : Formula} {fs gs : List Formula} {ts us : List Token}

/-! ### The tokens and the phrase determine the formula -/

/-- Formulas have as many tokens as their phrases say. -/
theorem Written.length_eq (h : Written fs ts) : ts.length + 1 = rowWidth (phrases fs) := by
  induction h <;>
    simp only [phrases, phrase, rowWidth, width, List.length_cons, List.length_append] at * <;>
    grind

theorem Written.phrases_ne (h : Written fs ts) (p q : Phrase) : [p] ≠ q :: phrases fs := by
  intro heq
  obtain ⟨f, fs, rfl⟩ := List.exists_cons_of_ne_nil h.ne_nil
  cases (List.cons.inj heq).2

/-- Of two formulas with the same phrase, the same number of tokens is the beginning. -/
theorem Written.append_inj {ts' us us' : List Token} (hf : Written [f] ts) (hg : Written [g] ts')
    (hphrase : f.phrase = g.phrase) (h : ts ++ us = ts' ++ us') : ts = ts' ∧ us = us' := by
  have hfLength := hf.length_eq
  have hgLength := hg.length_eq
  rw [phrases, hphrase] at hfLength
  rw [phrases] at hgLength
  simp only [phrases] at hfLength hgLength
  exact List.append_inj h (by omega)

/-- **The tokens and the phrases determine the formulas.** -/
theorem Written.unique (h : Written fs ts) (h' : Written gs ts)
    (hphrases : phrases fs = phrases gs) : fs = gs := by
  induction h generalizing gs with
  | number token =>
      generalize hts : [token] = us at h'
      cases h' with
      | number token' => cases hts; rfl
      | more _ _ others => exact absurd hphrases (others.phrases_ne _ _)
      | _ => simp [phrases, phrase] at hphrases
  | symbol token =>
      generalize hts : [token] = us at h'
      cases h' with
      | symbol token' => cases hts; rfl
      | more _ _ others => exact absurd hphrases (others.phrases_ne _ _)
      | _ => simp [phrases, phrase] at hphrases
  | member object dot index =>
      generalize hts : [object, dot, index] = us at h'
      cases h' with
      | member object' dot' index' => cases hts; rfl
      | more _ _ others => exact absurd hphrases (others.phrases_ne _ _)
      | _ => simp [phrases, phrase] at hphrases
  | @paren opening closing _ ts _ ih =>
      generalize hts : opening :: (ts ++ [closing]) = us at h'
      cases h' with
      | paren opening' closing' h' =>
          obtain ⟨rfl, hinner⟩ := List.cons.inj hts
          obtain ⟨rfl, hclosing⟩ := List.append_inj' hinner rfl
          obtain rfl := List.singleton_injective hclosing
          simp only [phrases, phrase, List.cons.injEq, Phrase.paren.injEq] at hphrases
          obtain rfl := List.singleton_injective (ih h' (by simp only [phrases, hphrases.1]))
          rfl
      | more _ _ others => exact absurd hphrases (others.phrases_ne _ _)
      | _ => simp [phrases, phrase] at hphrases
  | callEmpty name opening closing =>
      generalize hts : [name, opening, closing] = us at h'
      cases h' with
      | callEmpty name' opening' closing' => cases hts; rfl
      | call name' opening' closing' h' =>
          obtain ⟨g, gs, rfl⟩ := List.exists_cons_of_ne_nil h'.ne_nil
          simp [phrases, phrase] at hphrases
      | more _ _ others => exact absurd hphrases (others.phrases_ne _ _)
      | _ => simp [phrases, phrase] at hphrases
  | @call name opening closing args ts h ih =>
      generalize hts : name :: opening :: (ts ++ [closing]) = us at h'
      cases h' with
      | callEmpty name' opening' closing' =>
          obtain ⟨g, gs, rfl⟩ := List.exists_cons_of_ne_nil h.ne_nil
          simp [phrases, phrase] at hphrases
      | call name' opening' closing' h' =>
          obtain ⟨rfl, hafter⟩ := List.cons.inj hts
          obtain ⟨rfl, hargs⟩ := List.cons.inj hafter
          obtain ⟨rfl, hclosing⟩ := List.append_inj' hargs rfl
          obtain rfl := List.singleton_injective hclosing
          simp only [phrases, phrase, List.cons.injEq, Phrase.call.injEq] at hphrases
          rw [ih h' hphrases.1.2]
      | more _ _ others => exact absurd hphrases (others.phrases_ne _ _)
      | _ => simp [phrases, phrase] at hphrases
  | @neg sign _ ts _ ih =>
      generalize hts : sign :: ts = us at h'
      cases h' with
      | neg sign' h' =>
          obtain ⟨rfl, rfl⟩ := List.cons.inj hts
          simp only [phrases, phrase, List.cons.injEq, Phrase.neg.injEq] at hphrases
          obtain rfl := List.singleton_injective (ih h' (by simp only [phrases, hphrases.1]))
          rfl
      | more _ _ others => exact absurd hphrases (others.phrases_ne _ _)
      | _ => simp [phrases, phrase] at hphrases
  | @binary kind sign _ _ ts us hlhs hrhs ihl ihr =>
      generalize hts : ts ++ sign :: us = vs at h'
      cases h' with
      | binary kind' sign' hlhs' hrhs' =>
          simp only [phrases, phrase, List.cons.injEq, Phrase.binary.injEq, and_true, true_and]
            at hphrases
          obtain ⟨hl, rfl, hr⟩ := hphrases
          obtain ⟨rfl, hafter⟩ := hlhs.append_inj hlhs' hl hts
          obtain ⟨rfl, rfl⟩ := List.cons.inj hafter
          obtain rfl := List.singleton_injective (ihl hlhs' (by simp only [phrases, hl]))
          obtain rfl := List.singleton_injective (ihr hrhs' (by simp only [phrases, hr]))
          rfl
      | more _ _ others => exact absurd hphrases (others.phrases_ne _ _)
      | _ => simp [phrases, phrase] at hphrases
  | @juxtaposed _ _ ts us hlhs hrhs ihl ihr =>
      generalize hts : ts ++ us = vs at h'
      cases h' with
      | juxtaposed hlhs' hrhs' =>
          simp only [phrases, phrase, List.cons.injEq, Phrase.binary.injEq, and_true, true_and]
            at hphrases
          obtain ⟨hl, hr⟩ := hphrases
          obtain ⟨rfl, rfl⟩ := hlhs.append_inj hlhs' hl hts
          obtain rfl := List.singleton_injective (ihl hlhs' (by simp only [phrases, hl]))
          obtain rfl := List.singleton_injective (ihr hrhs' (by simp only [phrases, hr]))
          rfl
      | more _ _ others => exact absurd hphrases (others.phrases_ne _ _)
      | _ => simp [phrases, phrase] at hphrases
  | @more comma _ _ ts us h others ih ihs =>
      generalize hts : ts ++ comma :: us = vs at h'
      cases h' with
      | more comma' h' others' =>
          simp only [phrases, List.cons.injEq] at hphrases
          obtain ⟨hfirst, hrest⟩ := hphrases
          obtain ⟨rfl, hafter⟩ := h.append_inj h' hfirst hts
          obtain ⟨rfl, rfl⟩ := List.cons.inj hafter
          obtain rfl := List.singleton_injective (ih h' (by simp only [phrases, hfirst]))
          rw [ihs others' hrest]
      | _ => exact absurd hphrases.symm (others.phrases_ne _ _)

/-! ### Formulas that are spelled -/

/-- The tokens write the formula and are an expression by themselves. -/
structure Spelled (f : Formula) (ts : List Token) : Prop where
  written : Written [f] ts
  derives : Derives .expr (ts.map Token.lexed) f.phrase []

/-- The tokens that write what is derived are those that its derivation uses. -/
theorem Spelled.of_derives {after : List Token} {rest : List Lexeme} (hf : Written [f] ts)
    (h : Derives .expr ((ts ++ after).map Token.lexed) f.phrase rest) :
    Spelled f ts ∧ rest = after.map Token.lexed := by
  obtain ⟨used, hused, hcut⟩ := h.exists_cut
  have hwidth := hf.length_eq
  have hlength := h.length_eq
  simp only [phrases, rowWidth, Production.begun] at hwidth hlength
  rw [hused, List.length_append] at hlength
  rw [List.map_append] at hused
  obtain ⟨rfl, rfl⟩ := List.append_inj hused (by rw [List.length_map]; omega)
  have halone := @hcut [] (by rintro ⟨_, ⟨⟩, -⟩)
  rw [List.append_nil] at halone
  exact ⟨⟨hf, halone⟩, rfl⟩

/-- What ends a derivation is spelled if it is written. -/
theorem Spelled.of_derives_all {rest : List Lexeme} (hf : Written [f] ts)
    (h : Derives .expr (ts.map Token.lexed) f.phrase rest) : Spelled f ts := by
  rw [← List.append_nil ts] at h
  exact (of_derives hf h).1

theorem spelled_symbol {name : Token} (h : name.kind = .name) :
    Spelled (.symbol ⟨name.lexeme, name.span⟩) [name] :=
  ⟨.symbol name, .expr_of_primary (.symbol h (by rintro _ ⟨⟩))⟩

/-! ### Parts -/

/-- The formulas that the formula is made of.  The names in it count as variables. -/
def parts : Formula → List Formula
  | number _ _ | symbol _ => []
  | paren inner _ => [inner]
  | call name args _ _ => symbol name :: args
  | member object index _ => [symbol object, symbol index]
  | neg operand _ _ => [operand]
  | binary lhs _ rhs _ => [lhs, rhs]

/-- Each of the formulas is spelled by some of the tokens, one behind the other. -/
inductive LaidOut : List Formula → List Token → Prop
  | nothing (ts : List Token) : LaidOut [] ts
  | next (before : List Token) {f : Formula} {fs : List Formula} {ts us : List Token}
      (h : Spelled f ts) (more : LaidOut fs us) : LaidOut (f :: fs) (before ++ ts ++ us)

theorem LaidOut.prepend (h : LaidOut fs ts) (before : List Token) : LaidOut fs (before ++ ts) := by
  cases h with
  | nothing => exact .nothing _
  | next between hf more =>
      rw [← List.append_assoc, ← List.append_assoc]
      exact .next (before ++ between) hf more

theorem Spelled.laidOut (h : Spelled f ts) (before after : List Token) :
    LaidOut [f] (before ++ ts ++ after) := .next before h (.nothing after)

theorem Spelled.laidOut_last (h : Spelled f ts) (before : List Token) :
    LaidOut [f] (before ++ ts) := by
  have hlaidOut := h.laidOut before []
  rwa [List.append_nil] at hlaidOut

/-- What is laid out is somewhere among the tokens. -/
theorem LaidOut.of_mem (h : LaidOut fs ts) (hf : f ∈ fs) :
    ∃ before us after, ts = before ++ us ++ after ∧ Spelled f us := by
  induction h with
  | nothing => cases hf
  | @next before _ _ ts us hfirst _ ih =>
      rcases List.mem_cons.mp hf with rfl | hf
      · exact ⟨before, ts, us, rfl, hfirst⟩
      · obtain ⟨between, vs, after, rfl, hvs⟩ := ih hf
        exact ⟨before ++ ts ++ between, vs, after, by simp, hvs⟩

theorem Written.row_cases (h : Written (f :: fs) ts) : fs = [] ∧ Written [f] ts ∨
    ∃ us comma vs, ts = us ++ comma :: vs ∧ Written [f] us ∧ Written fs vs := by
  cases h with
  | more comma h others => exact .inr ⟨_, comma, _, rfl, h, others⟩
  | _ => exact .inl ⟨rfl, by constructor <;> assumption⟩

/-- The arguments of a call are laid out in the tokens between the parentheses. -/
theorem LaidOut.of_arguments {name : String} (before : List Phrase) {after : List Token}
    {rest : List Lexeme} (h : Written fs ts) (hderives : Derives (.arguments name before)
      ((ts ++ after).map Token.lexed) (.call name (before ++ phrases fs)) rest) :
    LaidOut fs (ts ++ after) := by
  induction fs generalizing before ts with
  | nil => exact .nothing _
  | cons f fs ih =>
      obtain ⟨first, others, sign, us, hphrase, hfirst, hothers⟩ := hderives.arguments_cases
      obtain ⟨rfl, rfl⟩ : f.phrase = first ∧ phrases fs = others := by
        simpa [phrases] using hphrase
      rcases h.row_cases with ⟨rfl, h⟩ | ⟨vs, comma, ws, rfl, h, hfs⟩
      · exact (Spelled.of_derives h hfirst).1.laidOut [] after
      · rw [List.append_assoc] at hfirst
        obtain ⟨hf, heq⟩ := Spelled.of_derives h hfirst
        obtain ⟨-, rfl⟩ := List.cons.inj heq
        rcases hothers with ⟨hnone, -⟩ | ⟨-, hothers⟩
        · obtain ⟨g, gs, rfl⟩ := List.exists_cons_of_ne_nil hfs.ne_nil
          cases hnone
        · have hcall : before ++ phrases (f :: fs) = before ++ [f.phrase] ++ phrases fs := by
            rw [phrases, List.append_assoc, List.singleton_append]
          have hrow := ih _ hfs (hcall ▸ hothers)
          rw [List.append_assoc]
          exact .next [] hf (hrow.prepend [comma])

/-- **A formula that is spelled has its parts laid out in its tokens.** -/
theorem Spelled.parts_laidOut (h : Spelled f ts) : LaidOut f.parts ts := by
  obtain ⟨hwritten, hderives⟩ := h
  cases hwritten with
  | number token => exact .nothing _
  | symbol token => exact .nothing _
  | member object dot index =>
      obtain ⟨_, _, _, hts, hobject, hindex⟩ := hderives.of_member
      cases hts
      exact .next [] (spelled_symbol hobject) ((spelled_symbol hindex).laidOut_last [dot])
  | @paren opening closing inner ts hinner =>
      obtain ⟨_, _, _, hts, hderives⟩ := hderives.of_paren
      obtain ⟨-, rfl⟩ := List.cons.inj hts
      exact (Spelled.of_derives hinner hderives).1.laidOut [opening] [closing]
  | callEmpty name opening closing =>
      obtain ⟨_, _, _, hts, hname, -⟩ := hderives.of_call
      cases hts
      exact (spelled_symbol hname).laidOut [] [opening, closing]
  | @call name opening closing args ts hargs =>
      obtain ⟨_, _, _, hts, hname, hderives⟩ := hderives.of_call
      obtain ⟨rfl, hafter⟩ := List.cons.inj hts
      obtain ⟨-, rfl⟩ := List.cons.inj hafter
      rcases hderives with hnone | hderives
      · obtain ⟨f, fs, rfl⟩ := List.exists_cons_of_ne_nil hargs.ne_nil
        cases hnone
      · exact .next [] (spelled_symbol hname)
          ((LaidOut.of_arguments [] hargs hderives).prepend [opening])
  | @neg sign operand ts hoperand =>
      obtain ⟨_, _, hts, hderives⟩ := hderives.of_neg
      obtain ⟨-, rfl⟩ := List.cons.inj hts
      exact (Spelled.of_derives_all hoperand hderives).laidOut_last [sign]
  | @binary kind sign lhs rhs ts us hlhs hrhs =>
      cases hderives.of_binary with
      | operator hleft hright =>
          obtain ⟨hlhs, heq⟩ := Spelled.of_derives hlhs hleft
          obtain ⟨-, rfl⟩ := List.cons.inj heq
          exact .next [] hlhs ((Spelled.of_derives_all hrhs hright).laidOut_last [sign])
  | @juxtaposed lhs rhs ts us hlhs hrhs =>
      cases hderives.of_binary with
      | juxtaposed hleft hright =>
          obtain ⟨hlhs, rfl⟩ := Spelled.of_derives hlhs hleft
          exact .next [] hlhs ((Spelled.of_derives_all hrhs hright).laidOut_last [])
  | more comma h others => exact absurd rfl others.ne_nil

end Formula

end AlgebraTutor
