/-
What a reader that failed has found.

Readers try one thing after another, and most of what goes wrong on the way is forgotten when the
next attempt is made.  Whatever a call, a member, a number or a negation failed for is dropped in
favour of what the reader of a formula in parentheses says, which is tried last.  So there are few
errors that come through, and each of them names a token that was ahead, or the end of the text
(`Reports`).

One error is not of this kind.  An expression that would begin with a closing parenthesis is refused
at the place where the reader stands, and a blank may stand there.  Within an expression this does
not happen, because a closing parenthesis is looked for before an inner expression is read, and the
arguments of a call are read by an attempt that is given up.
-/
import AlgebraTutor.Proofs.Recognition
import AlgebraTutor.Proofs.ReaderMoves

namespace AlgebraTutor

/-- The reader fails with the error. -/
def Outcome.Raises {α : Type} {n : Nat} (o : Outcome α n) (error : Error) : Prop :=
  ∃ stopped, o = .failed error stopped

@[simp] theorem Outcome.raises_weaken {α : Type} {n m : Nat} {h : n ≤ m} {o : Outcome α n}
    {error : Error} : (o.weaken h).Raises error ↔ o.Raises error := by
  cases o <;> simp [Raises, weaken]

/-! ### Going ahead -/

namespace Cursor

variable {c c₁ c₂ next : Cursor} {token : Token} {error : Error}

/-- The second cursor stands in the same text, as far ahead as the first one or further. -/
structure LeadsTo (c next : Cursor) : Prop where
  suffix : next.ahead <:+ c.ahead
  size : next.size = c.size

theorem LeadsTo.refl (c : Cursor) : c.LeadsTo c := ⟨List.suffix_refl _, rfl⟩

theorem LeadsTo.trans (h : c.LeadsTo c₁) (h₁ : c₁.LeadsTo c₂) : c.LeadsTo c₂ :=
  ⟨h₁.suffix.trans h.suffix, h₁.size.trans h.size⟩

theorem LeadsTo.mem_tokens (h : c.LeadsTo next) (htoken : token ∈ next.tokens) :
    token ∈ c.tokens :=
  (h.suffix.sublist.filter _).subset htoken

theorem leadsTo_of_next (h : c.next.Gives token next) : c.LeadsTo next := by
  have hfrom (size : Nat) : ∀ (ahead : List Token) (last : Option Token),
      (nextFrom size last ahead).Gives token next → next.ahead <:+ ahead ∧ next.size = size := by
    intro ahead
    induction ahead with
    | nil =>
        rintro last ⟨_, h⟩
        cases h
    | cons first ahead ih =>
        intro last h
        rw [nextFrom] at h
        split at h
        · obtain ⟨hsuffix, hsize⟩ := ih _ (Outcome.gives_weaken.mp h)
          exact ⟨hsuffix.trans (List.suffix_cons _ _), hsize⟩
        · obtain ⟨_, heq⟩ := h
          cases heq
          exact ⟨List.suffix_cons _ _, rfl⟩
  obtain ⟨hsuffix, hsize⟩ := hfrom c.size c.ahead c.last h
  exact ⟨hsuffix, hsize⟩

theorem leadsTo_of_expect {kind : TokenKind} (h : (c.expect kind).Gives token next) :
    c.LeadsTo next := leadsTo_of_next (next_of_expect h).1

theorem Reaches.leadsTo (h : c.Reaches next) : c.LeadsTo next := by
  induction h with
  | refl => exact .refl c
  | tail _ h ih =>
      obtain ⟨token, h⟩ := h
      exact ih.trans (leadsTo_of_next h)

theorem Moves.leadsTo (h : c.Moves next) : c.LeadsTo next := h.reaches.leadsTo

theorem leadsTo_skipBlanks (c : Cursor) : c.LeadsTo c.skipBlanks := by
  have hfrom (size : Nat) : ∀ (ahead : List Token) (last : Option Token),
      (skipFrom size last ahead).ahead <:+ ahead ∧ (skipFrom size last ahead).size = size := by
    intro ahead
    induction ahead with
    | nil => intro last; exact ⟨List.suffix_refl _, rfl⟩
    | cons first ahead ih =>
        intro last
        rw [skipFrom]
        split
        · obtain ⟨hsuffix, hsize⟩ := ih (some first)
          exact ⟨hsuffix.trans (List.suffix_cons _ _), hsize⟩
        · exact ⟨List.suffix_refl _, rfl⟩
  obtain ⟨hsuffix, hsize⟩ := hfrom c.size c.ahead c.last
  exact ⟨hsuffix, hsize⟩

end Cursor

/-! ### What is reported -/

namespace Cursor

variable {c c₁ : Cursor} {kind : TokenKind} {error : Error}

/-- What can be wrong with an expression that is read from the cursor on: the text ends too early, a
token is not of a kind that is asked for, a parenthesis is opened and not closed, or there is
nothing in it. -/
inductive Reports (c : Cursor) : Error → Prop
  | ended : Reports c (Cause.unexpectedEof.located c.endSpan)
  | unexpected {token : Token} {expected : List TokenKind} (h : token ∈ c.tokens)
      (hkind : token.kind ∉ expected) :
      Reports c ((Cause.unexpectedToken expected token.kind).located token.span)
  | unclosed {opening : Token} (h : opening ∈ c.tokens) (hkind : opening.kind = .openParen) :
      Reports c ((Cause.unclosedParenthesis true).located opening.span)
  | empty {before inside : Cursor} {opening : Token} (h : c.LeadsTo before)
      (hopening : (before.expect .openParen).Gives opening inside)
      (hclosing : inside.sees .closeParen = true) :
      Reports c (Cause.emptyParenthesis.located inside.span)

/-- What is reported from further ahead is reported. -/
theorem Reports.of_leadsTo (h : c₁.Reports error) (hc : c.LeadsTo c₁) : c.Reports error := by
  cases h with
  | ended =>
      rw [endSpan, hc.size]
      exact .ended
  | unexpected h hkind => exact .unexpected (hc.mem_tokens h) hkind
  | unclosed h hkind => exact .unclosed (hc.mem_tokens h) hkind
  | empty h hopening hclosing => exact .empty (hc.trans h) hopening hclosing

theorem eq_of_next_raises (h : c.next.Raises error) :
    error = Cause.unexpectedEof.located c.endSpan := by
  have hfrom (size : Nat) : ∀ (ahead : List Token) (last : Option Token),
      (nextFrom size last ahead).Raises error →
        error = Cause.unexpectedEof.located ⟨size, size⟩ := by
    intro ahead
    induction ahead with
    | nil =>
        rintro last ⟨_, h⟩
        cases h
        rfl
    | cons first ahead ih =>
        rintro last ⟨stopped, h⟩
        rw [nextFrom] at h
        split at h
        · cases hnext : nextFrom size (some first) ahead with
          | done token next hshorter =>
              rw [hnext] at h
              cases h
          | failed error' stopped' =>
              rw [hnext] at h
              cases h
              exact ih _ ⟨_, hnext⟩
        · cases h
  exact hfrom c.size c.ahead c.last h

theorem expect_reports (h : (c.expect kind).Raises error) : c.Reports error := by
  obtain ⟨stopped, h⟩ := h
  rw [expect] at h
  split at h
  · next token next hshorter hnext =>
      split at h
      · cases h
      · next hkind =>
          cases h
          have htokens := tokens_of_next ⟨hshorter, hnext⟩
          exact .unexpected (htokens ▸ .head _) (by simpa using hkind)
  · next error' stopped' hnext =>
      cases h
      rw [eq_of_next_raises ⟨_, hnext⟩]
      exact .ended

end Cursor

namespace Formula

variable {c : Cursor} {lhs rhs : Formula} {op : BinaryOp} {prec : Precedence} {error : Error}

/-- An operand fails as a formula in parentheses does, which is what is tried last. -/
theorem readParen_raises_of_operand (h : (readOperand c).Raises error) :
    (readParen c).Raises error := by
  have hprimary : (readPrimary c).Raises error := by
    obtain ⟨stopped, h⟩ := h
    rw [readOperand] at h
    split at h
    · cases h
    · exact ⟨stopped, h⟩
  obtain ⟨stopped, h⟩ := hprimary
  rw [readPrimary] at h
  split at h
  · cases h
  · split at h
    · cases h
    · split at h
      · cases h
      · exact ⟨stopped, h⟩

theorem readParen_raises (h : (readParen c).Raises error) :
    (c.expect .openParen).Raises error ∨
      ∃ opening c₁, (c.expect .openParen).Gives opening c₁ ∧
        (c₁.sees .closeParen = true ∧ error = Cause.emptyParenthesis.located c₁.span ∨
          c₁.sees .closeParen = false ∧ ((readExpr c₁).Raises error ∨
            error = (Cause.unclosedParenthesis true).located opening.span)) := by
  obtain ⟨stopped, h⟩ := h
  rw [readParen] at h
  split at h
  · next error' stopped' hopening =>
      cases h
      exact .inl ⟨_, hopening⟩
  · next opening c₁ h₁ hopening =>
      refine .inr ⟨opening, c₁, ⟨h₁, hopening⟩, ?_⟩
      split at h
      · next hsees =>
          cases h
          exact .inl ⟨hsees, rfl⟩
      · next hsees =>
          refine .inr ⟨by simpa using hsees, ?_⟩
          split at h
          · next error' stopped' hinner =>
              cases h
              exact .inl ⟨_, hinner⟩
          · split at h
            · cases h
              exact .inr rfl
            · cases h

theorem readExpr_raises (h : (readExpr c).Raises error) :
    c.sees .closeParen = true ∧ error = (Cause.unclosedParenthesis false).located c.span ∨
      c.sees .closeParen = false ∧ ((readOperand c).Raises error ∨
        ∃ x c₁, (readOperand c).Gives x c₁ ∧ (readOperations x .any c₁).Raises error) := by
  obtain ⟨stopped, h⟩ := h
  rw [readExpr] at h
  split at h
  · next hsees =>
      cases h
      exact .inl ⟨hsees, rfl⟩
  · next hsees =>
      refine .inr ⟨by simpa using hsees, ?_⟩
      split at h
      · next error' stopped' hx =>
          cases h
          exact .inl ⟨_, hx⟩
      · next x c₁ h₁ hx => exact .inr ⟨x, c₁, ⟨h₁, hx⟩, Outcome.raises_weaken.mp ⟨_, h⟩⟩

theorem readOperation_raises (h : (readOperation lhs op prec c).Raises error) :
    (readOperand c).Raises error ∨ ∃ rhs c₁, (readOperand c).Gives rhs c₁ ∧
      ((absorb lhs op rhs c₁).Raises error ∨ ∃ joined c₂,
        (absorb lhs op rhs c₁).Gives joined c₂ ∧
          (readOperations joined prec c₂).Raises error) := by
  obtain ⟨stopped, h⟩ := h
  rw [readOperation] at h
  split at h
  · next error' stopped' hrhs =>
      cases h
      exact .inl ⟨_, hrhs⟩
  · next rhs c₁ h₁ hrhs =>
      refine .inr ⟨rhs, c₁, ⟨h₁, hrhs⟩, ?_⟩
      split at h
      · next error' stopped' hjoined =>
          cases h
          exact .inl ⟨_, hjoined⟩
      · next joined c₂ h₂ hjoined =>
          exact .inr ⟨joined, c₂, ⟨h₂, hjoined⟩, Outcome.raises_weaken.mp ⟨_, h⟩⟩

theorem readOperations_raises (h : (readOperations lhs prec c).Raises error) :
    (∃ op c₁, (readBinaryOp c).Gives op c₁ ∧ (readOperation lhs op prec c₁).Raises error) ∨
      ∃ rhs c₁, (readPrimary c).Gives rhs c₁ ∧
        ((absorb lhs (juxtaposition lhs rhs) rhs c₁).Raises error ∨ ∃ product c₂,
          (absorb lhs (juxtaposition lhs rhs) rhs c₁).Gives product c₂ ∧
            (readOperations product prec c₂).Raises error) := by
  obtain ⟨stopped, h⟩ := h
  rw [readOperations] at h
  split at h
  · next op c₁ h₁ hop =>
      split at h
      · exact .inl ⟨op, c₁, ⟨h₁, hop⟩, Outcome.raises_weaken.mp ⟨_, h⟩⟩
      · cases h
  · split at h
    · split at h
      · cases h
      · next rhs c₁ h₁ hrhs =>
          refine .inr ⟨rhs, c₁, ⟨h₁, hrhs⟩, ?_⟩
          split at h
          · next error' stopped' hproduct =>
              cases h
              exact .inl ⟨_, hproduct⟩
          · next product c₂ h₂ hproduct =>
              exact .inr ⟨product, c₂, ⟨h₂, hproduct⟩, Outcome.raises_weaken.mp ⟨_, h⟩⟩
    · cases h

theorem absorb_raises (h : (absorb lhs op rhs c).Raises error) :
    (∃ following c₁, (readBinaryOp c).Gives following c₁ ∧
      ((readOperation rhs following following.kind.precedence c₁).Raises error ∨ ∃ larger c₂,
        (readOperation rhs following following.kind.precedence c₁).Gives larger c₂ ∧
          (absorb lhs op larger c₂).Raises error)) ∨
      ∃ factor c₁, (readPrimary c).Gives factor c₁ ∧
        ((absorb rhs (juxtaposition rhs factor) factor c₁).Raises error ∨ ∃ product c₂,
          (absorb rhs (juxtaposition rhs factor) factor c₁).Gives product c₂ ∧
            (absorb lhs op product c₂).Raises error) := by
  obtain ⟨stopped, h⟩ := h
  rw [absorb] at h
  split at h
  · next following c₁ h₁ hop =>
      split at h
      · refine .inl ⟨following, c₁, ⟨h₁, hop⟩, ?_⟩
        split at h
        · next error' stopped' hlarger =>
            cases h
            exact .inl ⟨_, hlarger⟩
        · next larger c₂ h₂ hlarger =>
            exact .inr ⟨larger, c₂, ⟨h₂, hlarger⟩, Outcome.raises_weaken.mp ⟨_, h⟩⟩
      · cases h
  · split at h
    · cases h
    · split at h
      · cases h
      · next factor c₁ h₁ hfactor =>
          refine .inr ⟨factor, c₁, ⟨h₁, hfactor⟩, ?_⟩
          split at h
          · next error' stopped' hproduct =>
              cases h
              exact .inl ⟨_, hproduct⟩
          · next product c₂ h₂ hproduct =>
              exact .inr ⟨product, c₂, ⟨h₂, hproduct⟩, Outcome.raises_weaken.mp ⟨_, h⟩⟩

mutual

/-- An expression that does not begin with a closing parenthesis fails for something ahead. -/
theorem readExpr_reports {c : Cursor} {error : Error} (hsees : c.sees .closeParen = false)
    (h : (readExpr c).Raises error) : c.Reports error := by
  rcases readExpr_raises h with ⟨hsees', -⟩ | ⟨-, h | ⟨x, c₁, hx, h⟩⟩
  · rw [hsees] at hsees'
    cases hsees'
  · exact readParen_reports (readParen_raises_of_operand h)
  · have h₁ := hx.left_lt
    exact (readOperations_reports h).of_leadsTo (moves_of_readOperand hx).leadsTo
termination_by (c.left, 7)

theorem readParen_reports {c : Cursor} {error : Error} (h : (readParen c).Raises error) :
    c.Reports error := by
  rcases readParen_raises h with h | ⟨opening, c₁, hopening, h⟩
  · exact Cursor.expect_reports h
  · have h₁ := hopening.left_lt
    obtain ⟨hnext, hkind⟩ := Cursor.next_of_expect hopening
    rcases h with ⟨hsees, rfl⟩ | ⟨hsees, h | rfl⟩
    · exact .empty (.refl c) hopening hsees
    · exact (readExpr_reports hsees h).of_leadsTo (Cursor.leadsTo_of_next hnext)
    · exact .unclosed (Cursor.tokens_of_next hnext ▸ .head _) hkind
termination_by (c.left, 2)

theorem readOperation_reports {c : Cursor} {lhs : Formula} {op : BinaryOp} {prec : Precedence}
    {error : Error} (h : (readOperation lhs op prec c).Raises error) : c.Reports error := by
  rcases readOperation_raises h with h | ⟨rhs, c₁, hrhs, h⟩
  · exact readParen_reports (readParen_raises_of_operand h)
  · have h₁ := hrhs.left_lt
    refine Cursor.Reports.of_leadsTo ?_ (moves_of_readOperand hrhs).leadsTo
    rcases h with h | ⟨joined, c₂, hjoined, h⟩
    · exact absorb_reports h
    · have h₂ := hjoined.left_lt
      exact (readOperations_reports h).of_leadsTo (reaches_of_absorb hjoined).leadsTo
termination_by (c.left, 7)

theorem readOperations_reports {c : Cursor} {lhs : Formula} {prec : Precedence} {error : Error}
    (h : (readOperations lhs prec c).Raises error) : c.Reports error := by
  rcases readOperations_raises h with ⟨op, c₁, hop, h⟩ | ⟨rhs, c₁, hrhs, h⟩
  · have h₁ := hop.left_lt
    exact (readOperation_reports h).of_leadsTo (moves_of_readBinaryOp hop).leadsTo
  · have h₁ := hrhs.left_lt
    refine Cursor.Reports.of_leadsTo ?_ (moves_of_readPrimary hrhs).leadsTo
    rcases h with h | ⟨product, c₂, hproduct, h⟩
    · exact absorb_reports h
    · have h₂ := hproduct.left_lt
      exact (readOperations_reports h).of_leadsTo (reaches_of_absorb hproduct).leadsTo
termination_by (c.left, 4)

theorem absorb_reports {c : Cursor} {lhs rhs : Formula} {op : BinaryOp} {error : Error}
    (h : (absorb lhs op rhs c).Raises error) : c.Reports error := by
  rcases absorb_raises h with ⟨following, c₁, hop, h⟩ | ⟨factor, c₁, hfactor, h⟩
  · have h₁ := hop.left_lt
    refine Cursor.Reports.of_leadsTo ?_ (moves_of_readBinaryOp hop).leadsTo
    rcases h with h | ⟨larger, c₂, hlarger, h⟩
    · exact readOperation_reports h
    · have h₂ := hlarger.left_lt
      exact (absorb_reports h).of_leadsTo (moves_of_readOperation hlarger).leadsTo
  · have h₁ := hfactor.left_lt
    refine Cursor.Reports.of_leadsTo ?_ (moves_of_readPrimary hfactor).leadsTo
    rcases h with h | ⟨product, c₂, hproduct, h⟩
    · exact absorb_reports h
    · have h₂ := hproduct.left_lt
      exact (absorb_reports h).of_leadsTo (reaches_of_absorb hproduct).leadsTo
termination_by (c.left, 4)

end

end Formula

/-! ### Whole texts -/

/-- A token that is not blank comes next.  It is reported as being too many, and a closing
parenthesis as having no partner. -/
def Cursor.LeavesOver (c : Cursor) (error : Error) : Prop :=
  ∃ token rest, c.skipBlanks.ahead = token :: rest ∧ error =
    (if token.kind = .closeParen then Cause.unclosedParenthesis false
      else Cause.expectedEof).located token.span

/-- A whole text is refused if the reader fails, or if something is left over. -/
theorem Outcome.result_whole_eq_error {α : Type} {n : Nat} {o : Outcome α n} {error : Error} :
    o.whole.result = .error error ↔
      o.Raises error ∨ ∃ a next, o.Gives a next ∧ next.LeavesOver error := by
  cases o with
  | done value next shorter =>
      rw [whole]
      constructor
      · intro h
        simp only at h
        split at h
        · cases h
        · next token rest hahead =>
            cases h
            exact .inr ⟨value, next, ⟨shorter, rfl⟩, token, rest, hahead, rfl⟩
      · rintro (⟨_, h⟩ | ⟨_, _, ⟨_, h⟩, token, rest, hahead, rfl⟩)
        · cases h
        · cases h
          simp only
          split
          · next hnil =>
              rw [hahead] at hnil
              cases hnil
          · next token' rest' heq =>
              rw [hahead] at heq
              cases heq
              rfl
  | failed error' stopped =>
      constructor
      · intro h
        cases h
        exact .inl ⟨stopped, rfl⟩
      · rintro (⟨_, h⟩ | ⟨_, _, ⟨_, h⟩, -⟩)
        · cases h
          rfl
        · cases h

/-- An equation fails as one of its sides does, or for want of an equals sign between them. -/
theorem Equation.read_raises_iff {c : Cursor} {error : Error} : (read c).Raises error ↔
    (Formula.readExpr c).Raises error ∨ ∃ lhs c₁, (Formula.readExpr c).Gives lhs c₁ ∧
      ((c₁.expect .assign).Fails ∧ error = Cause.expectedEquation.located c₁.span ∨
        ∃ sign c₂, (c₁.expect .assign).Gives sign c₂ ∧ (Formula.readExpr c₂).Raises error) := by
  constructor
  · rintro ⟨stopped, h⟩
    rw [read] at h
    split at h
    · next error' stopped' hlhs =>
        cases h
        exact .inl ⟨_, hlhs⟩
    · next lhs c₁ h₁ hlhs =>
        refine .inr ⟨lhs, c₁, ⟨h₁, hlhs⟩, ?_⟩
        split at h
        · next error' stopped' hsign =>
            cases h
            exact .inl ⟨⟨_, _, hsign⟩, rfl⟩
        · next sign c₂ h₂ hsign =>
            refine .inr ⟨sign, c₂, ⟨h₂, hsign⟩, ?_⟩
            split at h
            · next error' stopped' hrhs =>
                cases h
                exact ⟨_, hrhs⟩
            · cases h
  · rintro (⟨stopped, h⟩ | ⟨lhs, c₁, ⟨h₁, hlhs⟩, h⟩)
    · exact ⟨c, by rw [read, h]⟩
    · rcases h with ⟨⟨_, _, hsign⟩, rfl⟩ | ⟨sign, c₂, ⟨h₂, hsign⟩, stopped, hrhs⟩
      · exact ⟨c₁, by rw [read, hlhs]; simp only [hsign]⟩
      · exact ⟨c₂, by rw [read, hlhs]; simp only [hsign, hrhs]⟩

/-- Where the reading of an expression begins when a text is read as an equation. -/
inductive Equation.Begins (text : String) : Cursor → Prop
  | lhs : Begins text (.ofText text)
  | rhs {lhs : Formula} {sign : Token} {c₁ c₂ : Cursor}
      (hlhs : (Formula.readExpr (.ofText text)).Gives lhs c₁)
      (hsign : (c₁.expect .assign).Gives sign c₂) : Begins text c₂

theorem Equation.Begins.leadsTo {text : String} {c : Cursor} (h : Begins text c) :
    (Cursor.ofText text).LeadsTo c := by
  cases h with
  | lhs => exact .refl _
  | rhs hlhs hsign =>
      exact (Formula.moves_of_readExpr hlhs).leadsTo.trans (Cursor.leadsTo_of_expect hsign)

/-- Why a text is refused in which the reading of expressions begins at the cursors that `begins`
holds of. -/
inductive Refused (text : String) (begins : Cursor → Prop) : Error → Prop
  | closing {c : Cursor} (hc : begins c) (hsees : c.sees .closeParen = true) :
      Refused text begins ((Cause.unclosedParenthesis false).located c.span)
  | inside {c : Cursor} {error : Error} (hc : begins c) (h : c.Reports error) :
      Refused text begins error
  | unequal {c : Cursor} (hc : (Cursor.ofText text).LeadsTo c) :
      Refused text begins (Cause.expectedEquation.located c.span)
  | leftOver {c : Cursor} {error : Error} (hc : (Cursor.ofText text).LeadsTo c)
      (h : c.LeavesOver error) : Refused text begins error

section Refused

variable {text : String} {begins : Cursor → Prop} {c : Cursor} {error : Error}

theorem refused_of_raises (hc : begins c) (h : (Formula.readExpr c).Raises error) :
    Refused text begins error := by
  rcases Formula.readExpr_raises h with ⟨hsees, rfl⟩ | ⟨hsees, -⟩
  · exact .closing hc hsees
  · exact .inside hc (Formula.readExpr_reports hsees h)

theorem Formula.refused_of_parse (h : parse text = .error error) :
    Refused text (· = .ofText text) error := by
  rcases Outcome.result_whole_eq_error.mp h with h | ⟨f, next, h, hleft⟩
  · exact refused_of_raises rfl h
  · exact .leftOver (moves_of_readExpr h).leadsTo hleft

theorem Equation.refused_of_parse (h : parse text = .error error) :
    Refused text (Begins text) error := by
  rcases Outcome.result_whole_eq_error.mp h with h | ⟨e, next, h, hleft⟩
  · rcases read_raises_iff.mp h with h | ⟨lhs, c₁, hlhs, ⟨-, rfl⟩ | ⟨sign, c₂, hsign, h⟩⟩
    · exact refused_of_raises .lhs h
    · exact .unequal (Formula.moves_of_readExpr hlhs).leadsTo
    · exact refused_of_raises (.rhs hlhs hsign) h
  · obtain ⟨c₁, sign, c₂, hlhs, hsign, hrhs⟩ := read_cases h
    exact .leftOver ((Begins.rhs hlhs hsign).leadsTo.trans
      (Formula.moves_of_readExpr hrhs).leadsTo) hleft

/-- An expression that begins with a closing parenthesis is refused where its reading begins. -/
theorem Formula.readExpr_of_sees (h : c.sees .closeParen = true) :
    (readExpr c).Raises ((Cause.unclosedParenthesis false).located c.span) :=
  ⟨c, by rw [readExpr, if_pos h]⟩

theorem Formula.parse_of_sees (h : (Cursor.ofText text).sees .closeParen = true) :
    parse text = .error ((Cause.unclosedParenthesis false).located (Cursor.ofText text).span) :=
  Outcome.result_whole_eq_error.mpr (.inl (readExpr_of_sees h))

theorem Equation.parse_of_sees (hc : Begins text c) (h : c.sees .closeParen = true) :
    parse text = .error ((Cause.unclosedParenthesis false).located c.span) := by
  refine Outcome.result_whole_eq_error.mpr (.inl (read_raises_iff.mpr ?_))
  cases hc with
  | lhs => exact .inl (Formula.readExpr_of_sees h)
  | rhs hlhs hsign => exact .inr ⟨_, _, hlhs, .inr ⟨_, _, hsign, Formula.readExpr_of_sees h⟩⟩

end Refused

end AlgebraTutor
