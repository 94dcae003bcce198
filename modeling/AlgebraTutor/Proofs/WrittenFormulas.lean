/-
The tokens that write a formula.

A formula comes from a row of tokens, blanks left out, and its places are theirs: every part reaches
from its first token to its last one, an operator stands where its token does, and the operator of a
juxtaposition is the gap between its operands.  The relation that says so knows nothing of
precedence.  It only says which tokens went where, and that is why it is easily kept by the readers:
a right operand that takes in more of what follows it still begins at the same token.
-/
import AlgebraTutor.Proofs.ReaderCases

namespace AlgebraTutor

namespace Formula

/-- The tokens write the formulas, with one more token between any two of them, and the places of
the formulas are theirs. -/
inductive Written : List Formula → List Token → Prop
  | number (token : Token) : Written [.number token.lexeme token.span] [token]
  | symbol (token : Token) : Written [.symbol ⟨token.lexeme, token.span⟩] [token]
  | member (object dot index : Token) :
      Written [.member ⟨object.lexeme, object.span⟩ ⟨index.lexeme, index.span⟩
        ⟨object.span.start, index.span.stop⟩] [object, dot, index]
  | paren (opening closing : Token) {inner : Formula} {ts : List Token} (h : Written [inner] ts) :
      Written [.paren inner ⟨opening.span.start, closing.span.stop⟩]
        (opening :: (ts ++ [closing]))
  | callEmpty (name opening closing : Token) :
      Written [.call ⟨name.lexeme, name.span⟩ [] ⟨name.span.start, closing.span.stop⟩
        ⟨opening.span.start, closing.span.stop⟩] [name, opening, closing]
  | call (name opening closing : Token) {args : List Formula} {ts : List Token}
      (h : Written args ts) :
      Written [.call ⟨name.lexeme, name.span⟩ args ⟨name.span.start, closing.span.stop⟩
        ⟨opening.span.start, closing.span.stop⟩] (name :: opening :: (ts ++ [closing]))
  | neg (sign : Token) {operand : Formula} {ts : List Token} (h : Written [operand] ts) :
      Written [.neg operand sign.span ⟨sign.span.start, operand.span.stop⟩] (sign :: ts)
  | binary (kind : BinaryKind) (sign : Token) {lhs rhs : Formula} {ts us : List Token}
      (hlhs : Written [lhs] ts) (hrhs : Written [rhs] us) :
      Written [.binary lhs ⟨kind, false, sign.span⟩ rhs ⟨lhs.span.start, rhs.span.stop⟩]
        (ts ++ sign :: us)
  | juxtaposed {lhs rhs : Formula} {ts us : List Token} (hlhs : Written [lhs] ts)
      (hrhs : Written [rhs] us) :
      Written [.binary lhs ⟨.mul, true, ⟨lhs.span.stop, rhs.span.start⟩⟩ rhs
        ⟨lhs.span.start, rhs.span.stop⟩] (ts ++ us)
  | more (comma : Token) {f : Formula} {fs : List Formula} {ts us : List Token}
      (h : Written [f] ts) (others : Written fs us) : Written (f :: fs) (ts ++ comma :: us)

/-! ### The first and the last token -/

section Ends

variable {f g : Formula} {fs : List Formula} {ts us : List Token}

theorem Written.ne_nil (h : Written fs ts) : fs ≠ [] := by
  rintro rfl
  cases h

/-- Formulas begin where their first token does. -/
theorem Written.head?_eq (h : Written fs ts) :
    ts.head?.map (·.span.start) = fs.head?.map (·.span.start) := by
  induction h with
  | binary kind sign _ _ ih _ | juxtaposed _ _ ih _ | more comma _ _ ih _ =>
      obtain ⟨first, hfirst, heq⟩ := Option.map_eq_some_iff.mp ih
      rw [List.head?_append, hfirst]
      exact congrArg some heq
  | _ => rfl

/-- Formulas end where their last token does. -/
theorem Written.getLast?_eq (h : Written fs ts) :
    ts.getLast?.map (·.span.stop) = fs.getLast?.map (·.span.stop) := by
  induction h with
  | paren opening closing _ _ =>
      rw [← List.cons_append, List.getLast?_concat]
      rfl
  | call name opening closing _ _ =>
      rw [← List.cons_append, ← List.cons_append, List.getLast?_concat]
      rfl
  | neg sign _ ih =>
      obtain ⟨last, hlast, heq⟩ := Option.map_eq_some_iff.mp ih
      rw [List.getLast?_cons, hlast]
      exact congrArg some heq
  | binary kind sign _ _ _ ih =>
      obtain ⟨last, hlast, heq⟩ := Option.map_eq_some_iff.mp ih
      rw [List.getLast?_append, List.getLast?_cons, hlast]
      exact congrArg some heq
  | juxtaposed _ _ _ ih =>
      obtain ⟨last, hlast, heq⟩ := Option.map_eq_some_iff.mp ih
      rw [List.getLast?_append, hlast]
      exact congrArg some heq
  | more comma _ hothers _ ih =>
      obtain ⟨g, hg⟩ :=
        Option.ne_none_iff_exists'.mp (mt List.getLast?_eq_none_iff.mp hothers.ne_nil)
      rw [hg] at ih
      obtain ⟨last, hlast, heq⟩ := Option.map_eq_some_iff.mp ih
      rw [List.getLast?_append, List.getLast?_cons, List.getLast?_cons, hlast, hg]
      exact congrArg some heq
  | _ => rfl

/-- What begins with the same tokens begins at the same place. -/
theorem Written.start_eq (hf : Written [f] ts) (hg : Written [g] (ts ++ us)) :
    g.span.start = f.span.start := by
  obtain ⟨first, hfirst, heq⟩ := Option.map_eq_some_iff.mp hf.head?_eq
  have hstart := hg.head?_eq
  rw [List.head?_append, hfirst] at hstart
  exact (Option.some.inj hstart).symm.trans heq

end Ends

/-! ### What the readers have read -/

/-- The tokens between the two cursors, behind those of `front`, write the formula. -/
def Continues (front : List Token) (c : Cursor) (f : Formula) (next : Cursor) : Prop :=
  ∃ ts, c.tokens = ts ++ next.tokens ∧ Written [f] (front ++ ts)

/-- The operator joins a right operand that begins at `start` to `lhs`, behind the tokens of
`front`. -/
def Joins (front : List Token) (lhs : Formula) (op : BinaryOp) (start : Nat) : Prop :=
  ∀ {rhs : Formula} {ts : List Token}, Written [rhs] ts → rhs.span.start = start →
    Written [join lhs op rhs] (front ++ ts)

section Readers

variable {c c₁ next : Cursor} {f lhs rhs : Formula} {front ts : List Token} {op : BinaryOp}

theorem Continues.stays (h : Written [f] front) : Continues front c f c :=
  ⟨[], rfl, by rwa [List.append_nil]⟩

theorem Continues.prepend (h : Continues (front ++ ts) c₁ f next)
    (hts : c.tokens = ts ++ c₁.tokens) : Continues front c f next := by
  obtain ⟨us, hus, hf⟩ := h
  exact ⟨ts ++ us, by rw [hts, hus, List.append_assoc], by rwa [← List.append_assoc]⟩

theorem Continues.token {token : Token} (hnext : c.next.Gives token c₁)
    (h : Continues (front ++ [token]) c₁ f next) : Continues front c f next :=
  h.prepend (Cursor.tokens_of_next hnext)

/-- What goes on with what has been read goes on with what was there before. -/
theorem Continues.trans (h : Continues front c lhs c₁)
    (hmore : ∀ {ts}, Written [lhs] ts → Continues ts c₁ f next) : Continues front c f next := by
  obtain ⟨ts, hts, hlhs⟩ := h
  exact (hmore hlhs).prepend hts

/-- An operand is joined by going on with its tokens. -/
theorem Continues.joined (h : Continues [] c rhs c₁)
    (hmore : ∀ {ts}, Written [rhs] ts → Continues (front ++ ts) c₁ f next) :
    Continues front c f next := by
  obtain ⟨ts, hts, hrhs⟩ := h
  exact (hmore hrhs).prepend hts

theorem joins_operator {token : Token} (kind : BinaryKind) (hlhs : Written [lhs] front)
    (start : Nat) : Joins (front ++ [token]) lhs ⟨kind, false, token.span⟩ start := by
  intro ts rhs hrhs _
  rw [List.append_assoc]
  exact .binary kind token hlhs hrhs

theorem joins_juxtaposition (hlhs : Written [lhs] front) (rhs : Formula) :
    Joins front lhs (juxtaposition lhs rhs) rhs.span.start := by
  intro ts larger hlarger hstart
  rw [juxtaposition, ← hstart]
  exact .juxtaposed hlhs hlarger

mutual

theorem readExpr_continues {c next : Cursor} {f : Formula} (h : (readExpr c).Gives f next) :
    Continues [] c f next := by
  obtain ⟨x, c₁, hx, h⟩ := readExpr_cases h
  have h₁ := hx.left_lt
  exact (readOperand_continues hx).trans fun hx => readOperations_continues hx h
termination_by (c.left, 7)

theorem readList_written {c next : Cursor} {args : List Formula}
    (h : (readList .comma c).Gives args next) :
    ∃ ts, c.tokens = ts ++ next.tokens ∧ Written args ts := by
  obtain ⟨first, c₁, hfirst, h⟩ := readList_cases h
  have h₁ := hfirst.left_lt
  obtain ⟨ts, hts, hwritten⟩ := readExpr_continues hfirst
  rcases h with ⟨rfl, rfl⟩ | ⟨comma, c₂, others, hcomma, hothers, rfl⟩
  · exact ⟨ts, hts, hwritten⟩
  · have h₂ := hcomma.left_lt
    obtain ⟨us, hus, hrow⟩ := readList_written hothers
    refine ⟨ts ++ comma :: us, ?_, .more comma hwritten hrow⟩
    rw [hts, Cursor.tokens_of_next (Cursor.next_of_expect hcomma).1, hus]
    simp
termination_by (c.left, 8)

theorem readOperand_continues {c next : Cursor} {f : Formula} (h : (readOperand c).Gives f next) :
    Continues [] c f next := by
  rcases readOperand_cases h with h | h
  · exact readNegation_continues h
  · exact readPrimary_continues h
termination_by (c.left, 6)

theorem readNegation_continues {c next : Cursor} {f : Formula}
    (h : (readNegation c).Gives f next) : Continues [] c f next := by
  obtain ⟨sign, c₁, x, c₂, operand, hsign, hx, hoperand, rfl⟩ := readNegation_cases h
  have h₁ := hsign.left_lt
  have h₂ := hx.left_lt
  obtain ⟨ts, hts, hwritten⟩ :=
    (readOperand_continues hx).trans fun hx => readOperations_continues hx hoperand
  refine ⟨sign :: ts, ?_, .neg sign hwritten⟩
  rw [Cursor.tokens_of_next (Cursor.next_of_expect hsign).1, hts]
  rfl
termination_by (c.left, 5)

theorem readPrimary_continues {c next : Cursor} {f : Formula} (h : (readPrimary c).Gives f next) :
    Continues [] c f next := by
  rcases readPrimary_cases h with h | h | ⟨-, h⟩ | h
  · exact readCall_continues h
  · obtain ⟨object, c₁, dot, c₂, index, hobject, hdot, hindex, rfl⟩ := readMember_cases h
    obtain ⟨token, hnext, -, rfl⟩ := readName_cases hobject
    obtain ⟨token', hnext', -, rfl⟩ := readName_cases hindex
    refine ⟨[token, dot, token'], ?_, .member ..⟩
    rw [Cursor.tokens_of_next hnext, Cursor.tokens_of_next (Cursor.next_of_expect hdot).1,
      Cursor.tokens_of_next hnext']
    rfl
  · rcases readLiteral_cases h with ⟨token, hnext, -, rfl⟩ | ⟨name, hname, rfl⟩
    · exact ⟨[token], Cursor.tokens_of_next hnext, .number token⟩
    · obtain ⟨token, hnext, -, rfl⟩ := readName_cases hname
      exact ⟨[token], Cursor.tokens_of_next hnext, .symbol token⟩
  · exact readParen_continues h
termination_by (c.left, 3)

theorem readCall_continues {c next : Cursor} {f : Formula} (h : (readCall c).Gives f next) :
    Continues [] c f next := by
  obtain ⟨name, c₁, opening, c₂, args, c₃, closing, hname, hopening, hargs, hclosing, rfl⟩ :=
    readCall_cases h
  have h₁ := hname.left_lt
  have h₂ := hopening.left_lt
  obtain ⟨token, hnext, -, rfl⟩ := readName_cases hname
  have htokens := Cursor.tokens_of_next hnext
  rw [Cursor.tokens_of_next (Cursor.next_of_expect hopening).1] at htokens
  have hclosing := Cursor.tokens_of_next (Cursor.next_of_expect hclosing).1
  rcases hargs with ⟨rfl, rfl⟩ | hargs
  · exact ⟨[token, opening, closing], by rw [htokens, hclosing]; rfl, .callEmpty ..⟩
  · obtain ⟨ts, hts, hrow⟩ := readList_written hargs
    refine ⟨token :: opening :: (ts ++ [closing]), ?_, .call token opening closing hrow⟩
    rw [htokens, hts, hclosing]
    simp
termination_by (c.left, 2)

theorem readParen_continues {c next : Cursor} {f : Formula} (h : (readParen c).Gives f next) :
    Continues [] c f next := by
  obtain ⟨opening, c₁, inner, c₂, closing, hopening, -, hinner, hclosing, rfl⟩ :=
    readParen_cases h
  have h₁ := hopening.left_lt
  obtain ⟨ts, hts, hwritten⟩ := readExpr_continues hinner
  refine ⟨opening :: (ts ++ [closing]), ?_, .paren opening closing hwritten⟩
  rw [Cursor.tokens_of_next (Cursor.next_of_expect hopening).1, hts,
    Cursor.tokens_of_next (Cursor.next_of_expect hclosing).1]
  simp
termination_by (c.left, 2)

theorem readOperations_continues {c next : Cursor} {lhs f : Formula} {front : List Token}
    {prec : Precedence} (hlhs : Written [lhs] front)
    (h : (readOperations lhs prec c).Gives f next) : Continues front c f next := by
  cases readOperations_cases h with
  | @operator op c₁ c₂ c₃ rhs joined hop _ hrhs hjoined h =>
      have h₁ := hop.left_lt
      have h₂ := hrhs.left_lt
      have h₃ := hjoined.left_lt
      obtain ⟨token, kind, hnext, -, rfl⟩ := token_of_readBinaryOp hop
      refine Continues.token hnext ?_
      refine Continues.trans ?_ fun hjoined => readOperations_continues hjoined h
      exact (readOperand_continues hrhs).joined fun hrhs =>
        absorb_continues (joins_operator kind hlhs _) hrhs hjoined
  | @juxtaposed c₁ c₂ rhs product _ hrhs hproduct h =>
      have h₁ := hrhs.left_lt
      have h₂ := hproduct.left_lt
      refine Continues.trans ?_ fun hproduct => readOperations_continues hproduct h
      exact (readPrimary_continues hrhs).joined fun hrhs =>
        absorb_continues (joins_juxtaposition hlhs _) hrhs hproduct
  | stops hf hnext _ =>
      subst hf hnext
      exact .stays hlhs
termination_by (c.left, 4)

/-- What is taken in makes the right operand longer, but it still begins where it did. -/
theorem absorb_continues {c next : Cursor} {lhs rhs f : Formula} {op : BinaryOp}
    {front ts : List Token} (hjoins : Joins front lhs op rhs.span.start)
    (hrhs : Written [rhs] ts) (h : (absorb lhs op rhs c).Gives f next) :
    Continues (front ++ ts) c f next := by
  have hgrown {larger : Formula} {c' : Cursor} (hc' : c'.left < c.left)
      (hlarger : Continues ts c larger c') (h : (absorb lhs op larger c').Gives f next) :
      Continues (front ++ ts) c f next := by
    obtain ⟨us, hus, hlarger⟩ := hlarger
    refine Continues.prepend ?_ hus
    rw [List.append_assoc]
    exact absorb_continues (hrhs.start_eq hlarger ▸ hjoins) hlarger h
  cases absorb_cases h with
  | @operator following c₁ c₂ larger hop _ hlarger h =>
      obtain ⟨x, c₃, joined, c₄, hx, hjoined, hlarger⟩ := readOperation_cases hlarger
      have h₁ := hop.left_lt
      have h₂ := hx.left_lt
      have h₃ := hjoined.left_lt
      have h₄ := hlarger.left_lt
      refine hgrown (by omega) ?_ h
      obtain ⟨token, kind, hnext, -, rfl⟩ := token_of_readBinaryOp hop
      refine Continues.token hnext ?_
      refine Continues.trans ?_ fun hjoined => readOperations_continues hjoined hlarger
      exact (readOperand_continues hx).joined fun hx =>
        absorb_continues (joins_operator kind hrhs _) hx hjoined
  | @juxtaposed c₁ c₂ factor product _ hfactor hproduct h =>
      have h₁ := hfactor.left_lt
      have h₂ := hproduct.left_lt
      refine hgrown (by omega) ?_ h
      exact (readPrimary_continues hfactor).joined fun hfactor =>
        absorb_continues (joins_juxtaposition hrhs _) hfactor hproduct
  | stops hf hnext _ =>
      subst hf hnext
      exact .stays (hjoins hrhs rfl)
termination_by (c.left, 4)

end

end Readers

end Formula

end AlgebraTutor
