/-
What a reader that succeeded has read.

The readers call one another and try one thing after another.  What can be said of one that
succeeded is which of the others succeeded, one after the other, and where each of them stood; for
the readers of single tokens it is which tokens were there.  So each reader is taken apart once
here, and a fact about what is read needs no more than these cases.
-/
import AlgebraTutor.Proofs.RoundTrip

namespace AlgebraTutor

/-! ### What has been read -/

namespace Outcome

variable {α : Type} {n : Nat} {o : Outcome α n} {a b : α} {c next : Cursor}

theorem Gives.left_lt (h : o.Gives a next) : next.left < n := h.fst

theorem Gives.unique (h : o.Gives a next) (h' : o.Gives b c) : a = b ∧ next = c := by
  obtain ⟨_, rfl⟩ := h
  obtain ⟨_, heq⟩ := h'
  injection heq with ha hc
  exact ⟨ha, hc⟩

theorem Gives.not_fails (h : o.Gives a next) : ¬o.Fails := by
  intro hfails
  obtain ⟨_, rfl⟩ := h
  obtain ⟨_, _, heq⟩ := hfails
  cases heq

theorem gives_or_fails (o : Outcome α n) : (∃ a next, o.Gives a next) ∨ o.Fails := by
  cases o with
  | done a next h => exact .inl ⟨a, next, h, rfl⟩
  | failed error c => exact .inr ⟨error, c, rfl⟩

end Outcome

namespace Cursor

variable {c next : Cursor} {kind : TokenKind} {token : Token}

/-- The tokens from the cursor on, without blanks. -/
def tokens (c : Cursor) : List Token := c.ahead.filter fun token => !token.isBlank

theorem lexemes_eq_map_tokens (c : Cursor) : c.lexemes = c.tokens.map Token.lexed := rfl

theorem tokens_of_next (h : c.next.Gives token next) : c.tokens = token :: next.tokens := by
  have hfrom (size : Nat) : ∀ (ahead : List Token) (last : Option Token),
      (nextFrom size last ahead).Gives token next →
        ahead.filter (fun token => !token.isBlank) = token :: next.tokens := by
    intro ahead
    induction ahead with
    | nil =>
        rintro last ⟨_, h⟩
        cases h
    | cons first ahead ih =>
        intro last h
        rw [nextFrom] at h
        by_cases hblank : first.isBlank = true
        · rw [if_pos hblank] at h
          rw [List.filter_cons_of_neg (by simp [hblank])]
          exact ih _ (Outcome.gives_weaken.mp h)
        · rw [if_neg hblank] at h
          obtain ⟨_, heq⟩ := h
          injection heq with htoken hnext
          rw [List.filter_cons_of_pos (by simp [hblank]), htoken, ← hnext]
          rfl
  exact hfrom c.size c.ahead c.last h

theorem lexemes_of_next (h : c.next.Gives token next) : c.lexemes = token.lexed :: next.lexemes := by
  rw [lexemes_eq_map_tokens, tokens_of_next h]
  rfl

theorem next_of_expect (h : (c.expect kind).Gives token next) :
    c.next.Gives token next ∧ token.kind = kind := by
  rw [expect] at h
  split at h
  · next token' next' h' hnext =>
      split at h
      · next hkind =>
          obtain ⟨_, heq⟩ := h
          cases heq
          exact ⟨⟨_, hnext⟩, hkind⟩
      · exact absurd ⟨_, _, rfl⟩ h.not_fails
  · exact absurd ⟨_, _, rfl⟩ h.not_fails

theorem lexemes_of_expect (h : (c.expect kind).Gives token next) :
    c.lexemes = token.lexed :: next.lexemes ∧ token.kind = kind :=
  ⟨lexemes_of_next (next_of_expect h).1, (next_of_expect h).2⟩

end Cursor

namespace Formula

variable {c c₁ next : Cursor} {f g x lhs rhs : Formula} {op : BinaryOp} {prec : Precedence}

theorem readName_cases {name : Name} (h : (readName c).Gives name next) :
    ∃ token, c.next.Gives token next ∧ token.kind = .name ∧ name = ⟨token.lexeme, token.span⟩ := by
  rw [readName] at h
  rcases (c.expect .name).gives_or_fails with ⟨token, c₁, htoken⟩ | ⟨_, _, hfails⟩
  · obtain ⟨hnext, hkind⟩ := Cursor.next_of_expect htoken
    obtain ⟨_, htoken⟩ := htoken
    rw [htoken] at h
    obtain ⟨_, heq⟩ := h
    cases heq
    exact ⟨token, hnext, hkind, rfl⟩
  · rw [hfails] at h
    exact absurd ⟨_, _, rfl⟩ h.not_fails

theorem lexemes_of_readName {name : Name} (h : (readName c).Gives name next) :
    ∃ l, c.lexemes = l :: next.lexemes ∧ l.kind = .name ∧ l.text = name.text := by
  obtain ⟨token, hnext, hkind, rfl⟩ := readName_cases h
  exact ⟨token.lexed, Cursor.lexemes_of_next hnext, hkind, rfl⟩

/-- An operator that is read is a token. -/
theorem token_of_readBinaryOp (h : (readBinaryOp c).Gives op next) :
    ∃ token kind, c.next.Gives token next ∧ BinaryKind.ofToken? token.kind = some kind ∧
      op = ⟨kind, false, token.span⟩ := by
  rw [readBinaryOp] at h
  split at h
  · exact absurd ⟨_, _, rfl⟩ h.not_fails
  · next token next' h' hnext =>
      split at h
      · next kind hkind =>
          obtain ⟨_, heq⟩ := h
          cases heq
          exact ⟨token, kind, ⟨_, hnext⟩, hkind, rfl⟩
      · exact absurd ⟨_, _, rfl⟩ h.not_fails

theorem lexemes_of_readBinaryOp (h : (readBinaryOp c).Gives op next) :
    ∃ l, c.lexemes = l :: next.lexemes ∧ BinaryKind.ofToken? l.kind = some op.kind ∧
      op.implicit = false := by
  obtain ⟨token, kind, hnext, hkind, rfl⟩ := token_of_readBinaryOp h
  exact ⟨token.lexed, Cursor.lexemes_of_next hnext, hkind, rfl⟩

/-! ### How reading goes on -/

/-- Nothing can be read at the cursor that an operator asks for: neither one that binds as `prec`
says, nor an operand, if operands without an operator are asked for. -/
structure Stops (allows : BinaryKind → Prop) (juxtaposes : Prop) (c : Cursor) : Prop where
  operator : ∀ op c₁, (readBinaryOp c).Gives op c₁ → ¬allows op.kind
  operand : juxtaposes → (readBinaryOp c).Fails → (readPrimary c).Fails

theorem Stops.of_operator {allows : BinaryKind → Prop} {juxtaposes : Prop}
    (hop : (readBinaryOp c).Gives op c₁) (h : ¬allows op.kind) : Stops allows juxtaposes c where
  operator op' c' hop' := by
    rw [← (hop.unique hop').1]
    exact h
  operand _ hfails := absurd hfails hop.not_fails

theorem Stops.of_fails {allows : BinaryKind → Prop} {juxtaposes : Prop}
    (hop : (readBinaryOp c).Fails) (h : juxtaposes → (readPrimary c).Fails) :
    Stops allows juxtaposes c where
  operator _ _ hop' := absurd hop hop'.not_fails
  operand hjuxtaposes _ := h hjuxtaposes

/-- The ways in which reading goes on from a left operand. -/
inductive GoesOn (lhs : Formula) (prec : Precedence) (c : Cursor) (f : Formula) (next : Cursor) :
    Prop
  | operator {op : BinaryOp} {c₁ c₂ c₃ : Cursor} {rhs joined : Formula}
      (hop : (readBinaryOp c).Gives op c₁) (hprec : prec ≤ op.kind.precedence)
      (hrhs : (readOperand c₁).Gives rhs c₂) (hjoined : (absorb lhs op rhs c₂).Gives joined c₃)
      (h : (readOperations joined prec c₃).Gives f next)
  | juxtaposed {c₁ c₂ : Cursor} {rhs product : Formula} (hprec : prec ≤ .factor)
      (hrhs : (readPrimary c).Gives rhs c₁)
      (hproduct : (absorb lhs (juxtaposition lhs rhs) rhs c₁).Gives product c₂)
      (h : (readOperations product prec c₂).Gives f next)
  | stops (hf : f = lhs) (hnext : next = c)
      (h : Stops (prec ≤ ·.precedence) (prec ≤ .factor) c)

theorem readOperation_cases (h : (readOperation lhs op prec c).Gives f next) :
    ∃ rhs c₁ joined c₂, (readOperand c).Gives rhs c₁ ∧ (absorb lhs op rhs c₁).Gives joined c₂ ∧
      (readOperations joined prec c₂).Gives f next := by
  rw [readOperation] at h
  split at h
  · exact absurd ⟨_, _, rfl⟩ h.not_fails
  · next rhs c₁ h₁ hrhs =>
      split at h
      · exact absurd ⟨_, _, rfl⟩ h.not_fails
      · next joined c₂ h₂ hjoined =>
          exact ⟨rhs, c₁, joined, c₂, ⟨_, hrhs⟩, ⟨_, hjoined⟩, Outcome.gives_weaken.mp h⟩

theorem readOperations_cases (h : (readOperations lhs prec c).Gives f next) :
    GoesOn lhs prec c f next := by
  rw [readOperations] at h
  split at h
  · next op c₁ h₁ hop =>
      have hgives : (readBinaryOp c).Gives op c₁ := ⟨_, hop⟩
      split at h
      · next hprec =>
          obtain ⟨rhs, c₂, joined, c₃, hrhs, hjoined, h⟩ :=
            readOperation_cases (Outcome.gives_weaken.mp h)
          exact .operator hgives hprec hrhs hjoined h
      · next hprec =>
          obtain ⟨_, heq⟩ := h
          injection heq with hf hnext
          exact .stops hf.symm hnext.symm (.of_operator hgives hprec)
  · next error stopped hop =>
      have hfails : (readBinaryOp c).Fails := ⟨_, _, hop⟩
      split at h
      · next hprec =>
          split at h
          · next error' stopped' hprimary =>
              obtain ⟨_, heq⟩ := h
              injection heq with hf hnext
              exact .stops hf.symm hnext.symm (.of_fails hfails fun _ => ⟨_, _, hprimary⟩)
          · next rhs c₁ h₁ hrhs =>
              split at h
              · exact absurd ⟨_, _, rfl⟩ h.not_fails
              · next product c₂ h₂ hproduct =>
                  exact .juxtaposed hprec ⟨_, hrhs⟩ ⟨_, hproduct⟩ (Outcome.gives_weaken.mp h)
      · next hprec =>
          obtain ⟨_, heq⟩ := h
          injection heq with hf hnext
          exact .stops hf.symm hnext.symm (.of_fails hfails fun hle => absurd hle hprec)

/-- The operators that a right operand takes in. -/
def Takes (op : BinaryOp) (kind : BinaryKind) : Prop :=
  op.kind.precedence < kind.precedence ∨ kind.associativity = .right

/-- The ways in which a right operand takes in what follows it. -/
inductive TakesIn (lhs : Formula) (op : BinaryOp) (rhs : Formula) (c : Cursor) (f : Formula)
    (next : Cursor) : Prop
  | operator {following : BinaryOp} {c₁ c₂ : Cursor} {larger : Formula}
      (hop : (readBinaryOp c).Gives following c₁) (htakes : Takes op following.kind)
      (hlarger : (readOperation rhs following following.kind.precedence c₁).Gives larger c₂)
      (h : (absorb lhs op larger c₂).Gives f next)
  | juxtaposed {c₁ c₂ : Cursor} {factor product : Formula} (hprec : ¬.factor ≤ op.kind.precedence)
      (hfactor : (readPrimary c).Gives factor c₁)
      (hproduct : (absorb rhs (juxtaposition rhs factor) factor c₁).Gives product c₂)
      (h : (absorb lhs op product c₂).Gives f next)
  | stops (hf : f = join lhs op rhs) (hnext : next = c)
      (h : Stops (Takes op) (¬.factor ≤ op.kind.precedence) c)

theorem absorb_cases (h : (absorb lhs op rhs c).Gives f next) : TakesIn lhs op rhs c f next := by
  rw [absorb] at h
  split at h
  · next following c₁ h₁ hop =>
      have hgives : (readBinaryOp c).Gives following c₁ := ⟨_, hop⟩
      split at h
      · next htakes =>
          split at h
          · exact absurd ⟨_, _, rfl⟩ h.not_fails
          · next larger c₂ h₂ hlarger =>
              exact .operator hgives htakes ⟨_, hlarger⟩ (Outcome.gives_weaken.mp h)
      · next htakes =>
          obtain ⟨_, heq⟩ := h
          injection heq with hf hnext
          exact .stops hf.symm hnext.symm (.of_operator hgives htakes)
  · next error stopped hop =>
      have hfails : (readBinaryOp c).Fails := ⟨_, _, hop⟩
      split at h
      · next hprec =>
          obtain ⟨_, heq⟩ := h
          injection heq with hf hnext
          exact .stops hf.symm hnext.symm (.of_fails hfails fun hnot => absurd hprec hnot)
      · next hprec =>
          split at h
          · next error' stopped' hprimary =>
              obtain ⟨_, heq⟩ := h
              injection heq with hf hnext
              exact .stops hf.symm hnext.symm (.of_fails hfails fun _ => ⟨_, _, hprimary⟩)
          · next factor c₁ h₁ hfactor =>
              split at h
              · exact absurd ⟨_, _, rfl⟩ h.not_fails
              · next product c₂ h₂ hproduct =>
                  exact .juxtaposed hprec ⟨_, hfactor⟩ ⟨_, hproduct⟩ (Outcome.gives_weaken.mp h)

theorem readPrimary_cases (h : (readPrimary c).Gives f next) :
    (readCall c).Gives f next ∨ (readMember c).Gives f next ∨
      ((readCall c).Fails ∧ (readLiteral c).Gives f next) ∨ (readParen c).Gives f next := by
  rw [readPrimary] at h
  split at h
  · next f' next' h' hcall =>
      obtain ⟨_, heq⟩ := h
      cases heq
      exact .inl ⟨_, hcall⟩
  · next error stopped hcall =>
      split at h
      · next f' next' h' hmember =>
          obtain ⟨_, heq⟩ := h
          cases heq
          exact .inr (.inl ⟨_, hmember⟩)
      · split at h
        · next f' next' h' hliteral =>
            obtain ⟨_, heq⟩ := h
            cases heq
            exact .inr (.inr (.inl ⟨⟨_, _, hcall⟩, _, hliteral⟩))
        · exact .inr (.inr (.inr h))

theorem readParen_cases (h : (readParen c).Gives f next) :
    ∃ opening c₁ inner c₂ closing, (c.expect .openParen).Gives opening c₁ ∧
      c₁.sees .closeParen = false ∧ (readExpr c₁).Gives inner c₂ ∧
      (c₂.expect .closeParen).Gives closing next ∧
      f = .paren inner ⟨opening.span.start, closing.span.stop⟩ := by
  rw [readParen] at h
  split at h
  · exact absurd ⟨_, _, rfl⟩ h.not_fails
  · next opening c₁ h₁ hopening =>
      split at h
      · exact absurd ⟨_, _, rfl⟩ h.not_fails
      · next hsees =>
          split at h
          · exact absurd ⟨_, _, rfl⟩ h.not_fails
          · next inner c₂ h₂ hinner =>
              split at h
              · exact absurd ⟨_, _, rfl⟩ h.not_fails
              · next closing c₃ h₃ hclosing =>
                  obtain ⟨_, heq⟩ := h
                  cases heq
                  exact ⟨opening, c₁, inner, c₂, closing, ⟨_, hopening⟩, by simpa using hsees,
                    ⟨_, hinner⟩, ⟨_, hclosing⟩, rfl⟩

theorem readCall_cases (h : (readCall c).Gives f next) :
    ∃ name c₁ opening c₂ args c₃ closing, (readName c).Gives name c₁ ∧
      (c₁.expect .openParen).Gives opening c₂ ∧
      (args = [] ∧ c₃ = c₂ ∨ (readList .comma c₂).Gives args c₃) ∧
      (c₃.expect .closeParen).Gives closing next ∧
      f = .call name args ⟨name.span.start, closing.span.stop⟩
        ⟨opening.span.start, closing.span.stop⟩ := by
  rw [readCall] at h
  split at h
  · exact absurd ⟨_, _, rfl⟩ h.not_fails
  · next name c₁ h₁ hname =>
      split at h
      · exact absurd ⟨_, _, rfl⟩ h.not_fails
      · next opening c₂ h₂ hopening =>
          simp only at h
          split at h
          · split at h
            · exact absurd ⟨_, _, rfl⟩ h.not_fails
            · next closing c₄ h₄ hclosing =>
                obtain ⟨_, heq⟩ := h
                cases heq
                exact ⟨name, c₁, opening, c₂, [], c₂, closing, ⟨_, hname⟩, ⟨_, hopening⟩,
                  .inl ⟨rfl, rfl⟩, ⟨_, hclosing⟩, rfl⟩
          · split at h
            · exact absurd ⟨_, _, rfl⟩ h.not_fails
            · next args c₃ h₃ hargs =>
                split at h
                · exact absurd ⟨_, _, rfl⟩ h.not_fails
                · next closing c₄ h₄ hclosing =>
                    obtain ⟨_, heq⟩ := h
                    cases heq
                    exact ⟨name, c₁, opening, c₂, args, c₃, closing, ⟨_, hname⟩, ⟨_, hopening⟩,
                      .inr ⟨_, hargs⟩, ⟨_, hclosing⟩, rfl⟩

theorem readList_cases {separator : TokenKind} {args : List Formula}
    (h : (readList separator c).Gives args next) :
    ∃ first c₁, (readExpr c).Gives first c₁ ∧ (args = [first] ∧ next = c₁ ∨
      ∃ comma c₂ others, (c₁.expect separator).Gives comma c₂ ∧
        (readList separator c₂).Gives others next ∧ args = first :: others) := by
  rw [readList] at h
  split at h
  · exact absurd ⟨_, _, rfl⟩ h.not_fails
  · next first c₁ h₁ hfirst =>
      refine ⟨first, c₁, ⟨_, hfirst⟩, ?_⟩
      split at h
      · obtain ⟨_, heq⟩ := h
        cases heq
        exact .inl ⟨rfl, rfl⟩
      · next comma c₂ h₂ hcomma =>
          split at h
          · exact absurd ⟨_, _, rfl⟩ h.not_fails
          · next others c₃ h₃ hothers =>
              obtain ⟨_, heq⟩ := h
              cases heq
              exact .inr ⟨comma, c₂, others, ⟨_, hcomma⟩, ⟨_, hothers⟩, rfl⟩

theorem readNegation_cases (h : (readNegation c).Gives f next) :
    ∃ sign c₁ x c₂ operand, (c.expect .sub).Gives sign c₁ ∧ (readOperand c₁).Gives x c₂ ∧
      (readOperations x .negation c₂).Gives operand next ∧
      f = .neg operand sign.span ⟨sign.span.start, operand.span.stop⟩ := by
  rw [readNegation, readSign] at h
  rcases (c.expect .sub).gives_or_fails with ⟨sign, c₁, h₁, hsign⟩ | ⟨_, _, hsign⟩
  · rw [hsign] at h
    simp only [Outcome.map] at h
    split at h
    · exact absurd ⟨_, _, rfl⟩ h.not_fails
    · next x c₂ h₂ hx =>
        split at h
        · exact absurd ⟨_, _, rfl⟩ h.not_fails
        · next operand c₃ h₃ hoperand =>
            obtain ⟨_, heq⟩ := h
            cases heq
            exact ⟨sign, c₁, x, c₂, operand, ⟨_, hsign⟩, ⟨_, hx⟩, ⟨_, hoperand⟩, rfl⟩
  · rw [hsign] at h
    exact absurd ⟨_, _, rfl⟩ h.not_fails

theorem readOperand_cases (h : (readOperand c).Gives f next) :
    (readNegation c).Gives f next ∨ (readPrimary c).Gives f next := by
  rw [readOperand] at h
  split at h
  · next f' next' h' hnegation =>
      obtain ⟨_, heq⟩ := h
      cases heq
      exact .inl ⟨_, hnegation⟩
  · exact .inr h

theorem readExpr_cases (h : (readExpr c).Gives f next) :
    ∃ x c₁, (readOperand c).Gives x c₁ ∧ (readOperations x .any c₁).Gives f next := by
  rw [readExpr] at h
  split at h
  · exact absurd ⟨_, _, rfl⟩ h.not_fails
  · split at h
    · exact absurd ⟨_, _, rfl⟩ h.not_fails
    · next x c₁ h₁ hx => exact ⟨x, c₁, ⟨_, hx⟩, Outcome.gives_weaken.mp h⟩

theorem readMember_cases (h : (readMember c).Gives f next) :
    ∃ object c₁ dot c₂ index, (readName c).Gives object c₁ ∧ (c₁.expect .dot).Gives dot c₂ ∧
      (readName c₂).Gives index next ∧
      f = .member object index ⟨object.span.start, index.span.stop⟩ := by
  rw [readMember] at h
  split at h
  · exact absurd ⟨_, _, rfl⟩ h.not_fails
  · next object c₁ h₁ hobject =>
      split at h
      · exact absurd ⟨_, _, rfl⟩ h.not_fails
      · next dot c₂ h₂ hdot =>
          split at h
          · exact absurd ⟨_, _, rfl⟩ h.not_fails
          · next index c₃ h₃ hindex =>
              obtain ⟨_, heq⟩ := h
              cases heq
              exact ⟨object, c₁, dot, c₂, index, ⟨_, hobject⟩, ⟨_, hdot⟩, ⟨_, hindex⟩, rfl⟩

theorem lexemes_of_readMember (h : (readMember c).Gives f next) :
    ∃ object dot index, c.lexemes = object :: dot :: index :: next.lexemes ∧
      object.kind = .name ∧ dot.kind = .dot ∧ index.kind = .name ∧
      f.phrase = .member object.text index.text := by
  obtain ⟨object, c₁, dot, c₂, index, hobject, hdot, hindex, rfl⟩ := readMember_cases h
  obtain ⟨l, hl, hkind, htext⟩ := lexemes_of_readName hobject
  obtain ⟨hd, hdkind⟩ := Cursor.lexemes_of_expect hdot
  obtain ⟨l', hl', hkind', htext'⟩ := lexemes_of_readName hindex
  exact ⟨l, dot.lexed, l', by rw [hl, hd, hl'], hkind, hdkind, hkind',
    by rw [phrase, htext, htext']⟩

theorem readLiteral_cases (h : (readLiteral c).Gives f next) :
    (∃ token, c.next.Gives token next ∧ (token.kind = .int ∨ token.kind = .float) ∧
      f = .number token.lexeme token.span) ∨
    ∃ name, (readName c).Gives name next ∧ f = .symbol name := by
  rw [readLiteral] at h
  split at h
  · next f' next' h' hnumber =>
      obtain ⟨_, heq⟩ := h
      cases heq
      left
      rw [readNumber] at hnumber
      split at hnumber
      · next token c₁ h₁ hint =>
          cases hnumber
          obtain ⟨hnext, hkind⟩ := Cursor.next_of_expect ⟨_, hint⟩
          exact ⟨token, hnext, .inl hkind, rfl⟩
      · rcases (c.expect .float).gives_or_fails with ⟨token, c₁, h₁, hfloat⟩ | ⟨_, _, hfloat⟩
        · rw [hfloat] at hnumber
          cases hnumber
          obtain ⟨hnext, hkind⟩ := Cursor.next_of_expect ⟨_, hfloat⟩
          exact ⟨token, hnext, .inr hkind, rfl⟩
        · rw [hfloat] at hnumber
          cases hnumber
  · right
    rw [readSymbol] at h
    rcases (readName c).gives_or_fails with ⟨name, c₁, h₁, hname⟩ | ⟨_, _, hname⟩
    · rw [hname] at h
      obtain ⟨_, heq⟩ := h
      cases heq
      exact ⟨name, ⟨_, hname⟩, rfl⟩
    · rw [hname] at h
      exact absurd ⟨_, _, rfl⟩ h.not_fails

end Formula

end AlgebraTutor
