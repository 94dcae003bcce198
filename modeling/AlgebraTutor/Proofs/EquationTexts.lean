/-
How an equation is split into its sides.

It is split at its equals sign before anything is read, so one might expect that a side is cut in
two.  But an equals sign is a token of its own wherever it stands, and in no phrase of the grammar is
there one.  So a text that can be read has none, and two such texts with an
equals sign between them are the two sides again, without the blanks around them.
-/
import AlgebraTutor.Assessment.Equation
import AlgebraTutor.Proofs.Recognition

namespace AlgebraTutor

/-! ### Equals signs among tokens -/

namespace Token

theorem assign_notMem_takeWhile {test : Char → Bool} (h : test '=' = false) (text : List Char) :
    '=' ∉ text.take (text.takeWhile test).length := by
  rw [← List.prefix_iff_eq_take.mp (List.takeWhile_prefix test)]
  intro hmem
  rw [List.mem_takeWhile_imp hmem] at h
  cases h

theorem assign_notMem_fraction (text : List Char) : '=' ∉ text.take (fractionLength text) := by
  unfold fractionLength
  split
  · next rest =>
      dsimp only
      split
      · exact List.not_mem_nil
      · rw [List.take_succ_cons]
        exact List.not_mem_cons_of_ne_of_not_mem (by decide) (assign_notMem_takeWhile rfl rest)
  · exact List.not_mem_nil

/-- No token goes on over an equals sign. -/
theorem assign_notMem_munch (c : Char) (rest : List Char) :
    '=' ∉ rest.take (munch c rest).2 := by
  unfold munch
  split
  · exact assign_notMem_takeWhile rfl rest
  split
  · exact assign_notMem_takeWhile rfl rest
  split
  · dsimp only
    split
    · exact assign_notMem_takeWhile rfl rest
    · rw [List.take_add]
      intro hmem
      rcases List.mem_append.mp hmem with hmem | hmem
      · exact assign_notMem_takeWhile rfl rest hmem
      · exact assign_notMem_fraction _ hmem
  · dsimp only
    split
    · exact List.not_mem_nil
    · next hfraction =>
        obtain ⟨n, hn⟩ := Nat.exists_eq_succ_of_ne_zero hfraction
        have hnone := assign_notMem_fraction (c :: rest)
        rw [hn, List.take_succ_cons] at hnone
        rw [hn]
        exact fun hmem => hnone (.tail _ hmem)

/-- **Every equals sign of a text is a token.** -/
theorem exists_assign_of_mem {text : List Char} (h : '=' ∈ text) :
    ∃ l ∈ lexemes text, l.kind = .assign := by
  -- the tokens of what is left of a text are those of a shorter one, not of its tail
  induction hn : text.length using Nat.strong_induction_on generalizing text with
  | _ n ih =>
    subst hn
    cases text with
    | nil => cases h
    | cons c rest =>
        by_cases hc : c = '='
        · subst hc
          rw [lexemes_single rfl rfl rfl rfl (by decide)]
          exact ⟨_, .head _, rfl⟩
        · have hrest : '=' ∈ rest := List.mem_of_ne_of_mem (Ne.symm hc) h
          rw [← List.take_append_drop (munch c rest).2 rest] at hrest
          have hlater : '=' ∈ rest.drop (munch c rest).2 :=
            (List.mem_append.mp hrest).resolve_left (assign_notMem_munch c rest)
          have hshorter : (rest.drop (munch c rest).2).length < (c :: rest).length := by
            rw [List.length_drop, List.length_cons]
            omega
          obtain ⟨l, hl, hkind⟩ := ih _ hshorter hlater rfl
          rw [lexemes_cons]
          split
          · exact ⟨l, hl, hkind⟩
          · exact ⟨l, .tail _ hl, hkind⟩

end Token

/-! ### Equals signs in phrases -/

theorem BinaryKind.ne_assign_of_ofToken? {token : TokenKind} {kind : BinaryKind}
    (h : BinaryKind.ofToken? token = some kind) : token ≠ .assign := by
  rintro rfl
  cases h

/-- **No phrase has an equals sign in it**: where one stands among the tokens, it is left over. -/
theorem Derives.assign_mem {g : Production} {ts rest : List Lexeme} {p : Phrase}
    (h : Derives g ts p rest) {l : Lexeme} (hl : l ∈ ts) (hassign : l.kind = .assign) :
    l ∈ rest := by
  have hskip {kind : TokenKind} (hkind : kind ≠ .assign) {t : Lexeme} (ht : t.kind = kind)
      {ts : List Lexeme} (hl : l ∈ t :: ts) : l ∈ ts := by
    refine List.mem_of_ne_of_mem (fun heq => hkind ?_) hl
    rw [← ht, ← heq, hassign]
  induction h with
  | expr _ _ first more => exact more (first hl)
  | termsDone => exact hl
  | termsMore hsign _ _ _ next more =>
      exact more (next (hskip (BinaryKind.ne_assign_of_ofToken? hsign) rfl hl))
  | term _ _ first more => exact more (first hl)
  | factorsDone => exact hl
  | factorsMore hsign _ _ _ next more =>
      exact more (next (hskip (BinaryKind.ne_assign_of_ofToken? hsign) rfl hl))
  | factorsJuxtaposed _ _ next more => exact more (next hl)
  | negation hsign _ operand => exact operand (hskip (by decide) hsign hl)
  | factor _ power => exact power hl
  | power _ primary => exact primary hl
  | exponent hsign _ _ base exponent => exact exponent (hskip (by decide) hsign (base hl))
  | callEmpty hname hopening hclosing =>
      exact hskip (by decide) hclosing (hskip (by decide) hopening (hskip (by decide) hname hl))
  | call hname hopening _ args =>
      exact args (hskip (by decide) hopening (hskip (by decide) hname hl))
  | argumentsLast hclosing _ last => exact hskip (by decide) hclosing (last hl)
  | argumentsMore hcomma _ _ next more => exact more (hskip (by decide) hcomma (next hl))
  | member hobject hdot hindex =>
      exact hskip (by decide) hindex (hskip (by decide) hdot (hskip (by decide) hobject hl))
  | number hdigits =>
      rcases hdigits with hint | hfloat
      · exact hskip (by decide) hint hl
      · exact hskip (by decide) hfloat hl
  | symbol hname _ => exact hskip (by decide) hname hl
  | paren hopening hclosing _ inner =>
      exact hskip (by decide) hclosing (inner (hskip (by decide) hopening hl))

/-- A text that can be read has no equals sign. -/
theorem Expr.assign_notMem_of_parse {text : String} {e : Expr} (h : Expr.parse text = .ok e) :
    '=' ∉ text.toList := by
  obtain ⟨p, hderives, -⟩ := Expr.parse_eq_ok_iff.mp h
  intro hmem
  obtain ⟨l, hl, hassign⟩ := Token.exists_assign_of_mem hmem
  exact absurd (hderives.assign_mem hl hassign) List.not_mem_nil

/-! ### The sides of an equation -/

theorem trimBlanks_eq_self {text : String} (h : ∀ c ∈ text.toList, isBlank c = false) :
    trimBlanks text = text := by
  have hkeep {front : List Char} (h : ∀ c ∈ front, isBlank c = false) :
      front.dropWhile isBlank = front :=
    List.dropWhile_eq_self_iff.mpr fun hfront => by simp [h _ (List.getElem_mem hfront)]
  rw [trimBlanks, hkeep h, hkeep fun c hc => h c (List.mem_reverse.mp hc), List.reverse_reverse,
    String.ofList_toList]

namespace Assessment

/-- **Two texts that can be read are the sides of the equation between them.** -/
theorem splitSides_of_parse {lhs rhs : String} {x y : Expr} (hx : Expr.parse lhs = .ok x)
    (hy : Expr.parse rhs = .ok y) :
    splitSides (lhs ++ "=" ++ rhs) = .ok (trimBlanks lhs, trimBlanks rhs) := by
  have hlhs := Expr.assign_notMem_of_parse hx
  have hrhs := Expr.assign_notMem_of_parse hy
  have htext : (lhs ++ "=" ++ rhs).toList = lhs.toList ++ '=' :: rhs.toList := by simp
  have hother : ∀ c ∈ lhs.toList, (c != '=') = true := fun c hc =>
    bne_iff_ne.mpr fun heq => hlhs (heq ▸ hc)
  unfold splitSides
  dsimp only
  rw [htext, List.takeWhile_append_of_pos hother, List.dropWhile_append_of_pos hother]
  simp [hrhs]

end Assessment

end AlgebraTutor
