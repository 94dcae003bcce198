/-
What single readers do.

A reader is described by the tokens at its cursor, blanks and places aside: whether it gives a
value, and which tokens are left then.  The readers that call others are described by what those
give.  So the facts here follow the readers branch by branch, and what they come to on a whole
formula is put together from them.
-/
import AlgebraTutor.Proofs.Grammar

namespace AlgebraTutor

/-! ### Outcomes -/

/-- Reading comes to the value `a` and goes on at the cursor `next`. -/
def Outcome.Gives {α : Type} {n : Nat} (o : Outcome α n) (a : α) (next : Cursor) : Prop :=
  ∃ h, o = .done a next h

/-- Reading comes to nothing. -/
def Outcome.Fails {α : Type} {n : Nat} (o : Outcome α n) : Prop := ∃ error c, o = .failed error c

@[simp] theorem Outcome.gives_weaken {α : Type} {n m : Nat} {h : n ≤ m} {o : Outcome α n} {a : α}
    {next : Cursor} : (o.weaken h).Gives a next ↔ o.Gives a next := by
  unfold Gives
  cases o with
  | done a' next' h' =>
      constructor
      · rintro ⟨_, heq⟩
        cases heq
        exact ⟨h', rfl⟩
      · rintro ⟨_, heq⟩
        cases heq
        exact ⟨_, rfl⟩
  | failed error c =>
      constructor
      · rintro ⟨_, heq⟩
        cases heq
      · rintro ⟨_, heq⟩
        cases heq

/-! ### The tokens at a cursor -/

/-- The token without its place. -/
def Token.lexed (token : Token) : Lexeme := ⟨token.kind, token.lexeme⟩

/-- The tokens from the cursor on, without blanks and places. -/
def Cursor.lexemes (c : Cursor) : List Lexeme :=
  (c.ahead.filter fun token => !token.isBlank).map Token.lexed

namespace Cursor

variable {c : Cursor} {kind : TokenKind} {l : Lexeme} {ls : List Lexeme}

theorem nextFrom_cases (size : Nat) : ∀ (ahead : List Token) (last : Option Token),
    match (ahead.filter fun token => !token.isBlank).map Token.lexed with
    | [] => (nextFrom size last ahead).Fails
    | l :: ls => ∃ token next, (nextFrom size last ahead).Gives token next ∧ token.lexed = l ∧
        next.lexemes = ls := by
  intro ahead
  induction ahead with
  | nil => intro last; exact ⟨_, _, rfl⟩
  | cons token ahead ih =>
      intro last
      rw [nextFrom]
      by_cases hblank : token.isBlank = true
      · have hthis := ih (some token)
        rw [List.filter_cons, if_neg (by simp [hblank]), if_pos hblank]
        split at hthis
        · obtain ⟨error, stopped, hfails⟩ := hthis
          rw [hfails]
          exact ⟨_, _, rfl⟩
        · simpa using hthis
      · rw [List.filter_cons, if_pos (by simp [hblank]), if_neg hblank]
        exact ⟨token, _, ⟨_, rfl⟩, rfl, rfl⟩

theorem next_gives (h : c.lexemes = l :: ls) :
    ∃ token next, c.next.Gives token next ∧ token.lexed = l ∧ next.lexemes = ls := by
  have hcases := nextFrom_cases c.size c.ahead c.last
  rw [show List.map _ _ = c.lexemes from rfl, h] at hcases
  exact hcases

theorem next_fails (h : c.lexemes = []) : c.next.Fails := by
  have hcases := nextFrom_cases c.size c.ahead c.last
  rw [show List.map _ _ = c.lexemes from rfl, h] at hcases
  exact hcases

theorem expect_gives (h : c.lexemes = l :: ls) (hkind : l.kind = kind) :
    ∃ token next, (c.expect kind).Gives token next ∧ token.lexed = l ∧ next.lexemes = ls := by
  obtain ⟨token, next, ⟨hshorter, hnext⟩, rfl, hls⟩ := next_gives h
  refine ⟨token, next, ⟨hshorter, ?_⟩, rfl, hls⟩
  rw [expect, hnext]
  exact if_pos hkind

theorem expect_fails (h : ∀ l ∈ c.lexemes.head?, l.kind ≠ kind) : (c.expect kind).Fails := by
  unfold expect
  cases hls : c.lexemes with
  | nil =>
      obtain ⟨error, stopped, hnext⟩ := next_fails hls
      rw [hnext]
      exact ⟨_, _, rfl⟩
  | cons l ls =>
      obtain ⟨token, next, ⟨hshorter, hnext⟩, rfl, -⟩ := next_gives hls
      have hkind : ¬token.kind = kind := h token.lexed (by rw [hls]; rfl)
      rw [hnext]
      simp only [if_neg hkind]
      exact ⟨_, _, rfl⟩

theorem sees_eq (c : Cursor) (kind : TokenKind) :
    c.sees kind = c.lexemes.head?.any (·.kind == kind) := by
  unfold sees current? lexemes
  rw [List.head?_map, ← List.head?_filter]
  cases (c.ahead.filter fun token => !token.isBlank).head? <;> rfl

end Cursor

/-- The kinds of token that an operand without sign begins with. -/
def TokenKind.opensPrimary : TokenKind → Bool
  | .name | .int | .float | .openParen => true
  | _ => false

/-! ### Operators -/

namespace Formula

variable {c c₁ c₂ next : Cursor} {l : Lexeme} {ls : List Lexeme} {kind : BinaryKind}
  {op following : BinaryOp} {lhs rhs f joined product larger factor : Formula} {prec : Precedence}

theorem readBinaryOp_gives (h : c.lexemes = l :: ls)
    (hkind : BinaryKind.ofToken? l.kind = some kind) :
    ∃ op next, (readBinaryOp c).Gives op next ∧ op.kind = kind ∧ op.implicit = false ∧
      next.lexemes = ls := by
  obtain ⟨token, next, ⟨hshorter, hnext⟩, rfl, hls⟩ := Cursor.next_gives h
  have hkind : BinaryKind.ofToken? token.kind = some kind := hkind
  refine ⟨⟨kind, false, token.span⟩, next, ⟨hshorter, ?_⟩, rfl, rfl, hls⟩
  rw [readBinaryOp, hnext]
  simp only [hkind]

theorem readBinaryOp_fails
    (h : ∀ l ∈ c.lexemes.head?, BinaryKind.ofToken? l.kind = none) : (readBinaryOp c).Fails := by
  unfold readBinaryOp
  cases hls : c.lexemes with
  | nil =>
      obtain ⟨error, stopped, hnext⟩ := Cursor.next_fails hls
      rw [hnext]
      exact ⟨_, _, rfl⟩
  | cons l ls =>
      obtain ⟨token, next, ⟨hshorter, hnext⟩, rfl, -⟩ := Cursor.next_gives hls
      have hkind : BinaryKind.ofToken? token.kind = none := h token.lexed (by rw [hls]; rfl)
      rw [hnext]
      simp only [hkind]
      exact ⟨_, _, rfl⟩

/-! ### Going on after an operand -/

theorem readOperations_of_op (hop : (readBinaryOp c).Gives op c₁)
    (hprec : prec ≤ op.kind.precedence) (h : (readOperation lhs op prec c₁).Gives f next) :
    (readOperations lhs prec c).Gives f next := by
  obtain ⟨hshorter, hop⟩ := hop
  rw [readOperations, hop]
  simpa [if_pos hprec] using h

theorem readOperations_of_looser (hop : (readBinaryOp c).Gives op c₁)
    (hprec : ¬prec ≤ op.kind.precedence) : (readOperations lhs prec c).Gives lhs c := by
  obtain ⟨hshorter, hop⟩ := hop
  rw [readOperations, hop]
  simp only [if_neg hprec]
  exact ⟨_, rfl⟩

theorem readOperations_of_juxtaposed (hop : (readBinaryOp c).Fails) (hprec : prec ≤ .factor)
    (hrhs : (readPrimary c).Gives rhs c₁)
    (hproduct : (absorb lhs (juxtaposition lhs rhs) rhs c₁).Gives product c₂)
    (h : (readOperations product prec c₂).Gives f next) :
    (readOperations lhs prec c).Gives f next := by
  obtain ⟨error, stopped, hop⟩ := hop
  obtain ⟨hshorter, hrhs⟩ := hrhs
  obtain ⟨hshorter', hproduct⟩ := hproduct
  rw [readOperations, hop]
  simp only [if_pos hprec, hrhs, hproduct]
  simpa using h

theorem readOperations_of_tight (hop : (readBinaryOp c).Fails) (hprec : ¬prec ≤ .factor) :
    (readOperations lhs prec c).Gives lhs c := by
  obtain ⟨error, stopped, hop⟩ := hop
  rw [readOperations, hop]
  simp only [if_neg hprec]
  exact ⟨_, rfl⟩

theorem readOperations_of_end (hop : (readBinaryOp c).Fails) (hprimary : (readPrimary c).Fails) :
    (readOperations lhs prec c).Gives lhs c := by
  by_cases hprec : prec ≤ .factor
  · obtain ⟨error, stopped, hop⟩ := hop
    obtain ⟨error', stopped', hprimary⟩ := hprimary
    rw [readOperations, hop]
    simp only [if_pos hprec, hprimary]
    exact ⟨_, rfl⟩
  · exact readOperations_of_tight hop hprec

theorem readOperation_gives (hrhs : (readOperand c).Gives rhs c₁)
    (hjoined : (absorb lhs op rhs c₁).Gives joined c₂)
    (h : (readOperations joined prec c₂).Gives f next) :
    (readOperation lhs op prec c).Gives f next := by
  obtain ⟨hshorter, hrhs⟩ := hrhs
  obtain ⟨hshorter', hjoined⟩ := hjoined
  rw [readOperation, hrhs]
  simp only [hjoined]
  simpa using h

theorem absorb_of_tighter (hop : (readBinaryOp c).Gives following c₁)
    (htighter : op.kind.precedence < following.kind.precedence ∨
      following.kind.associativity = .right)
    (hlarger : (readOperation rhs following following.kind.precedence c₁).Gives larger c₂)
    (h : (absorb lhs op larger c₂).Gives f next) : (absorb lhs op rhs c).Gives f next := by
  obtain ⟨hshorter, hop⟩ := hop
  obtain ⟨hshorter', hlarger⟩ := hlarger
  rw [absorb, hop]
  simp only [if_pos htighter, hlarger]
  simpa using h

theorem absorb_of_looser (hop : (readBinaryOp c).Gives following c₁)
    (hlooser : ¬(op.kind.precedence < following.kind.precedence ∨
      following.kind.associativity = .right)) :
    (absorb lhs op rhs c).Gives (join lhs op rhs) c := by
  obtain ⟨hshorter, hop⟩ := hop
  rw [absorb, hop]
  simp only [if_neg hlooser]
  exact ⟨_, rfl⟩

theorem absorb_of_tight (hop : (readBinaryOp c).Fails) (hprec : .factor ≤ op.kind.precedence) :
    (absorb lhs op rhs c).Gives (join lhs op rhs) c := by
  obtain ⟨error, stopped, hop⟩ := hop
  rw [absorb, hop]
  simp only [if_pos hprec]
  exact ⟨_, rfl⟩

theorem absorb_of_end (hop : (readBinaryOp c).Fails) (hprimary : (readPrimary c).Fails) :
    (absorb lhs op rhs c).Gives (join lhs op rhs) c := by
  by_cases hprec : .factor ≤ op.kind.precedence
  · exact absorb_of_tight hop hprec
  · obtain ⟨error, stopped, hop⟩ := hop
    obtain ⟨error', stopped', hprimary⟩ := hprimary
    rw [absorb, hop]
    simp only [if_neg hprec, hprimary]
    exact ⟨_, rfl⟩

theorem absorb_of_juxtaposed (hop : (readBinaryOp c).Fails)
    (hprec : ¬.factor ≤ op.kind.precedence) (hfactor : (readPrimary c).Gives factor c₁)
    (hproduct : (absorb rhs (juxtaposition rhs factor) factor c₁).Gives product c₂)
    (h : (absorb lhs op product c₂).Gives f next) : (absorb lhs op rhs c).Gives f next := by
  obtain ⟨error, stopped, hop⟩ := hop
  obtain ⟨hshorter, hfactor⟩ := hfactor
  obtain ⟨hshorter', hproduct⟩ := hproduct
  rw [absorb, hop]
  simp only [if_neg hprec, hfactor, hproduct]
  simpa using h

/-! ### Operands -/

theorem readName_gives (h : c.lexemes = l :: ls) (hkind : l.kind = .name) :
    ∃ name next, (readName c).Gives name next ∧ name.text = l.text ∧ next.lexemes = ls := by
  obtain ⟨token, next, ⟨hshorter, hnext⟩, rfl, hls⟩ := Cursor.expect_gives h hkind
  refine ⟨⟨token.lexeme, token.span⟩, next, ⟨hshorter, ?_⟩, rfl, hls⟩
  rw [readName, hnext]
  rfl

theorem readName_fails (h : ∀ l ∈ c.lexemes.head?, l.kind ≠ .name) : (readName c).Fails := by
  obtain ⟨error, stopped, hnext⟩ := Cursor.expect_fails h
  exact ⟨error, stopped, by rw [readName, hnext]; rfl⟩

theorem readCall_of_no_name (h : (readName c).Fails) : (readCall c).Fails := by
  obtain ⟨error, stopped, h⟩ := h
  rw [readCall, h]
  exact ⟨_, _, rfl⟩

theorem readCall_of_no_paren {name : Name} (hname : (readName c).Gives name c₁)
    (h : ∀ l ∈ c₁.lexemes.head?, l.kind ≠ .openParen) : (readCall c).Fails := by
  obtain ⟨hshorter, hname⟩ := hname
  obtain ⟨error, stopped, h⟩ := Cursor.expect_fails h
  rw [readCall, hname]
  simp only [h]
  exact ⟨_, _, rfl⟩

theorem readMember_of_no_name (h : (readName c).Fails) : (readMember c).Fails := by
  obtain ⟨error, stopped, h⟩ := h
  rw [readMember, h]
  exact ⟨_, _, rfl⟩

theorem readMember_of_no_dot {name : Name} (hname : (readName c).Gives name c₁)
    (h : ∀ l ∈ c₁.lexemes.head?, l.kind ≠ .dot) : (readMember c).Fails := by
  obtain ⟨hshorter, hname⟩ := hname
  obtain ⟨error, stopped, h⟩ := Cursor.expect_fails h
  rw [readMember, hname]
  simp only [h]
  exact ⟨_, _, rfl⟩

theorem readPrimary_of_call (h : (readCall c).Gives f next) : (readPrimary c).Gives f next := by
  obtain ⟨hshorter, h⟩ := h
  rw [readPrimary, h]
  exact ⟨_, rfl⟩

theorem readPrimary_of_member (hcall : (readCall c).Fails) (h : (readMember c).Gives f next) :
    (readPrimary c).Gives f next := by
  obtain ⟨_, _, hcall⟩ := hcall
  obtain ⟨hshorter, h⟩ := h
  rw [readPrimary, hcall]
  simp only [h]
  exact ⟨_, rfl⟩

theorem readPrimary_of_literal (hcall : (readCall c).Fails) (hmember : (readMember c).Fails)
    (h : (readLiteral c).Gives f next) : (readPrimary c).Gives f next := by
  obtain ⟨_, _, hcall⟩ := hcall
  obtain ⟨_, _, hmember⟩ := hmember
  obtain ⟨hshorter, h⟩ := h
  rw [readPrimary, hcall]
  simp only [hmember, h]
  exact ⟨_, rfl⟩

theorem readPrimary_of_paren (hcall : (readCall c).Fails) (hmember : (readMember c).Fails)
    (hliteral : (readLiteral c).Fails) (h : (readParen c).Gives f next) :
    (readPrimary c).Gives f next := by
  obtain ⟨_, _, hcall⟩ := hcall
  obtain ⟨_, _, hmember⟩ := hmember
  obtain ⟨_, _, hliteral⟩ := hliteral
  obtain ⟨hshorter, h⟩ := h
  rw [readPrimary, hcall]
  simp only [hmember, hliteral, h]
  exact ⟨_, rfl⟩

theorem readNumber_gives (h : c.lexemes = l :: ls) (hkind : l.kind = .int ∨ l.kind = .float) :
    ∃ f next, (readNumber c).Gives f next ∧ f.phrase = .number l.text ∧ next.lexemes = ls := by
  unfold readNumber
  by_cases hint : l.kind = .int
  · obtain ⟨token, next, ⟨hshorter, hnext⟩, rfl, hls⟩ := Cursor.expect_gives h hint
    rw [hnext]
    exact ⟨_, next, ⟨hshorter, rfl⟩, rfl, hls⟩
  · have hfails : (c.expect .int).Fails :=
      Cursor.expect_fails (by rw [h]; rintro _ ⟨⟩; exact hint)
    obtain ⟨error, stopped, hfails⟩ := hfails
    obtain ⟨token, next, ⟨hshorter, hnext⟩, rfl, hls⟩ :=
      Cursor.expect_gives h (hkind.resolve_left hint)
    rw [hfails]
    simp only [hnext]
    exact ⟨_, next, ⟨hshorter, rfl⟩, rfl, hls⟩

theorem readNumber_fails (h : ∀ l ∈ c.lexemes.head?, l.kind ≠ .int ∧ l.kind ≠ .float) :
    (readNumber c).Fails := by
  obtain ⟨_, _, hint⟩ := Cursor.expect_fails fun l hl => (h l hl).1
  obtain ⟨_, _, hfloat⟩ := Cursor.expect_fails fun l hl => (h l hl).2
  rw [readNumber, hint]
  simp only [hfloat]
  exact ⟨_, _, rfl⟩

theorem readLiteral_fails (hnumber : (readNumber c).Fails) (hname : (readName c).Fails) :
    (readLiteral c).Fails := by
  obtain ⟨_, _, hnumber⟩ := hnumber
  obtain ⟨_, _, hname⟩ := hname
  rw [readLiteral, hnumber]
  simp only [readSymbol, hname]
  exact ⟨_, _, rfl⟩

theorem readParen_fails (h : ∀ l ∈ c.lexemes.head?, l.kind ≠ .openParen) :
    (readParen c).Fails := by
  obtain ⟨_, _, h⟩ := Cursor.expect_fails h
  rw [readParen, h]
  exact ⟨_, _, rfl⟩

/-- No operand begins with a token that opens none. -/
theorem readPrimary_fails (h : ∀ l ∈ c.lexemes.head?, l.kind.opensPrimary = false) :
    (readPrimary c).Fails := by
  have hne {kind : TokenKind} (hkind : kind.opensPrimary = true) :
      ∀ l ∈ c.lexemes.head?, l.kind ≠ kind := by
    rintro l hl rfl
    rw [h l hl] at hkind
    cases hkind
  have hname := readName_fails (hne rfl)
  obtain ⟨_, _, hcall⟩ := readCall_of_no_name hname
  obtain ⟨_, _, hmember⟩ := readMember_of_no_name hname
  obtain ⟨_, _, hliteral⟩ := readLiteral_fails
    (readNumber_fails fun l hl => ⟨hne rfl l hl, hne rfl l hl⟩) hname
  obtain ⟨_, _, hparen⟩ := readParen_fails (hne rfl)
  rw [readPrimary, hcall]
  simp only [hmember, hliteral, hparen]
  exact ⟨_, _, rfl⟩

theorem readOperand_of_primary (h : ∀ l ∈ c.lexemes.head?, l.kind ≠ .sub)
    (hprimary : (readPrimary c).Gives f next) : (readOperand c).Gives f next := by
  obtain ⟨_, _, hsign⟩ := Cursor.expect_fails h
  obtain ⟨hshorter, hprimary⟩ := hprimary
  rw [readOperand, readNegation, readSign, hsign]
  simp only [Outcome.map, hprimary]
  exact ⟨_, rfl⟩

theorem readSign_gives (h : c.lexemes = l :: ls) (hkind : l.kind = .sub) :
    ∃ span next, (readSign c).Gives span next ∧ next.lexemes = ls := by
  obtain ⟨token, next, ⟨hshorter, hnext⟩, rfl, hls⟩ := Cursor.expect_gives h hkind
  exact ⟨token.span, next, ⟨hshorter, by rw [readSign, hnext]; rfl⟩, hls⟩

theorem readOperand_of_negation {sign : Span} (hsign : (readSign c).Gives sign c₁)
    (hlhs : (readOperand c₁).Gives lhs c₂) (h : (readOperations lhs .negation c₂).Gives f next) :
    ∃ g, (readOperand c).Gives g next ∧ g.phrase = .neg f.phrase := by
  obtain ⟨hshorter, hsign⟩ := hsign
  obtain ⟨hshorter₁, hlhs⟩ := hlhs
  obtain ⟨hshorter₂, h⟩ := h
  refine ⟨.neg f sign ⟨sign.start, f.span.stop⟩, ⟨by omega, ?_⟩, rfl⟩
  rw [readOperand, readNegation, hsign]
  simp only [hlhs, h]

end Formula

end AlgebraTutor
