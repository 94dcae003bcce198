/-
The readers read everything that the grammar derives.

Climbing precedences groups a formula in another order than the grammar does: a right operand is
read without what follows it, and takes that in afterwards.  So the statement about a factor or a
term is not that a reader returns it, but that going on from the operand that was read comes to the
same as going on from the whole factor or term.

A derivation may stop early, and the readers do not.  So what is left after a derivation has to
begin with a token that no longer phrase could go on with.
-/
import AlgebraTutor.Proofs.Readers

namespace AlgebraTutor

/-! ### What may follow -/

/-- The kinds of token with which no longer phrase of this production goes on. -/
def Production.followers : Production → List TokenKind
  | .expr | .terms _ => [.closeParen, .comma, .assign]
  | .term | .factors _ => [.closeParen, .comma, .assign, .add, .sub]
  | .factor | .power =>
      [.closeParen, .comma, .assign, .add, .sub, .mul, .div, .name, .int, .float, .openParen]
  | .primary | .arguments _ _ =>
      [.closeParen, .comma, .assign, .add, .sub, .mul, .div, .name, .int, .float, .openParen, .exp]

/-- The tokens that are left do not belong to a phrase of this production. -/
def Production.Precedes (g : Production) (rest : List Lexeme) : Prop :=
  ∀ l ∈ rest.head?, l.kind ∈ g.followers

/-- A phrase that precedes these tokens may be part of one that fewer tokens may follow. -/
theorem Production.Precedes.mono {g g' : Production} {rest : List Lexeme} (h : g.Precedes rest)
    (hsubset : ∀ kind ∈ g.followers, kind ∈ g'.followers) : g'.Precedes rest := by
  intro l hl
  exact hsubset l.kind (h l hl)

theorem Production.precedes_cons {l : Lexeme} {ls : List Lexeme} {g : Production}
    (h : l.kind ∈ g.followers) : g.Precedes (l :: ls) := by
  rintro _ ⟨⟩
  exact h

/-- The tokens begin as an operand without sign does. -/
def OpensPrimary (ts : List Lexeme) : Prop :=
  ∃ l ls, ts = l :: ls ∧ l.kind.opensPrimary = true

/-- The tokens begin as an expression does. -/
def OpensExpr (ts : List Lexeme) : Prop :=
  ∃ l ls, ts = l :: ls ∧ (l.kind = .sub ∨ l.kind.opensPrimary = true)

namespace Derives

variable {ts rest : List Lexeme} {p q : Phrase}

theorem opens_of_primary (h : Derives .primary ts p rest) : OpensPrimary ts := by
  cases h with
  | callEmpty hname _ _ => exact ⟨_, _, rfl, by rw [hname]; rfl⟩
  | call hname _ _ => exact ⟨_, _, rfl, by rw [hname]; rfl⟩
  | member hobject _ _ => exact ⟨_, _, rfl, by rw [hobject]; rfl⟩
  | number hdigits => exact ⟨_, _, rfl, by rcases hdigits with h | h <;> rw [h] <;> rfl⟩
  | symbol hname _ => exact ⟨_, _, rfl, by rw [hname]; rfl⟩
  | paren hopening _ _ => exact ⟨_, _, rfl, by rw [hopening]; rfl⟩

theorem opens_of_power (h : Derives .power ts p rest) : OpensPrimary ts := by
  cases h with
  | power primary => exact primary.opens_of_primary
  | exponent _ base _ => exact base.opens_of_primary

theorem opens_of_factor (h : Derives .factor ts p rest) : OpensExpr ts := by
  cases h with
  | negation hsign _ => exact ⟨_, _, rfl, .inl hsign⟩
  | factor power =>
      obtain ⟨l, ls, rfl, hl⟩ := power.opens_of_power
      exact ⟨l, ls, rfl, .inr hl⟩

theorem opens_of_expr (h : Derives .expr ts p rest) : OpensExpr ts := by
  cases h with
  | expr first _ => cases first with | term first _ => exact first.opens_of_factor

theorem opens_of_arguments {name : String} {before : List Phrase}
    (h : Derives (.arguments name before) ts p rest) : OpensExpr ts := by
  cases h with
  | argumentsLast _ last => exact last.opens_of_expr
  | argumentsMore _ next _ => exact next.opens_of_expr

/-- What comes after the first term does not belong to it. -/
theorem term_precedes (h : Derives (.terms q) ts p rest) (hrest : Production.expr.Precedes rest) :
    Production.term.Precedes ts := by
  cases h with
  | termsDone => exact hrest.mono (by decide)
  | @termsMore sign kind _ _ _ _ _ _ hsign hkind _ _ =>
      rintro _ ⟨⟩
      revert hsign hkind
      cases sign.kind <;> cases kind <;> decide

/-- What comes after the first factor does not belong to it. -/
theorem factor_precedes (h : Derives (.factors q) ts p rest)
    (hrest : Production.term.Precedes rest) : Production.factor.Precedes ts := by
  cases h with
  | factorsDone => exact hrest.mono (by decide)
  | @factorsMore sign kind _ _ _ _ _ _ hsign hkind _ _ =>
      rintro _ ⟨⟩
      revert hsign hkind
      cases sign.kind <;> cases kind <;> decide
  | factorsJuxtaposed next _ =>
      obtain ⟨l, ls, rfl, hl⟩ := next.opens_of_power
      rintro _ ⟨⟩
      revert hl
      cases l.kind <;> decide

end Derives

/-! ### Where reading stops -/

namespace Formula

variable {c next : Cursor} {f x lhs : Formula} {op : BinaryOp} {prec : Precedence}

theorem readBinaryOp_cases (c : Cursor) : (readBinaryOp c).Fails ∨ ∃ op c₁,
    (readBinaryOp c).Gives op c₁ ∧
      ∃ l ∈ c.lexemes.head?, BinaryKind.ofToken? l.kind = some op.kind := by
  cases hls : c.lexemes with
  | nil => exact .inl (readBinaryOp_fails (by rw [hls]; rintro _ ⟨⟩))
  | cons l ls =>
      cases hkind : BinaryKind.ofToken? l.kind with
      | none => exact .inl (readBinaryOp_fails (by rw [hls]; rintro _ ⟨⟩; exact hkind))
      | some kind =>
          obtain ⟨op, c₁, hop, rfl, -, -⟩ := readBinaryOp_gives hls hkind
          exact .inr ⟨op, c₁, hop, l, rfl, hkind⟩

theorem precedence_of_mem_followers {kind : TokenKind} {operator : BinaryKind}
    (hkind : kind ∈ Production.factor.followers)
    (hoperator : BinaryKind.ofToken? kind = some operator) :
    operator.precedence ≤ .factor ∧ operator.associativity = .left := by
  revert hkind hoperator
  cases kind <;> cases operator <;> decide

theorem precedence_of_mem_term_followers {kind : TokenKind} {operator : BinaryKind}
    (hkind : kind ∈ Production.term.followers)
    (hoperator : BinaryKind.ofToken? kind = some operator) :
    operator.precedence = .term ∧ operator.associativity = .left := by
  revert hkind hoperator
  cases kind <;> cases operator <;> decide

/-- After a factor, a tighter operator goes no further. -/
theorem readOperations_after_factor (h : Production.factor.Precedes c.lexemes)
    (hprec : ¬prec ≤ .factor) : (readOperations f prec c).Gives f c := by
  rcases readBinaryOp_cases c with hfails | ⟨op, c₁, hop, l, hl, hkind⟩
  · exact readOperations_of_tight hfails hprec
  · refine readOperations_of_looser hop fun hle => hprec ?_
    exact Nat.le_trans hle (precedence_of_mem_followers (h l hl) hkind).1

theorem absorb_after_factor (h : Production.factor.Precedes c.lexemes)
    (hprec : .factor ≤ op.kind.precedence) : (absorb lhs op f c).Gives (join lhs op f) c := by
  rcases readBinaryOp_cases c with hfails | ⟨following, c₁, hfollowing, l, hl, hkind⟩
  · exact absorb_of_tight hfails hprec
  · obtain ⟨hle, hleft⟩ := precedence_of_mem_followers (h l hl) hkind
    refine absorb_of_looser hfollowing ?_
    rintro (hlt | hright)
    · exact absurd (Nat.le_trans hle hprec) (Nat.not_le_of_lt hlt)
    · rw [hleft] at hright
      cases hright

/-- What begins an expression does not close a list of arguments. -/
theorem sees_closeParen_of_opens (h : OpensExpr c.lexemes) : c.sees .closeParen = false := by
  obtain ⟨l, ls, hc, hl⟩ := h
  rw [Cursor.sees_eq, hc]
  revert hl
  show _ → (l.kind == .closeParen) = false
  cases l.kind <;> decide

theorem readPrimary_after_term (h : Production.term.Precedes c.lexemes) :
    (readPrimary c).Fails := by
  refine readPrimary_fails fun l hl => ?_
  have hmem := h l hl
  revert hmem
  cases l.kind <;> decide

/-- After a term, products go no further. -/
theorem readOperations_after_term (h : Production.term.Precedes c.lexemes)
    (hprec : ¬prec ≤ .term) : (readOperations f prec c).Gives f c := by
  rcases readBinaryOp_cases c with hfails | ⟨op, c₁, hop, l, hl, hkind⟩
  · exact readOperations_of_end hfails (readPrimary_after_term h)
  · refine readOperations_of_looser hop ?_
    rw [(precedence_of_mem_term_followers (h l hl) hkind).1]
    exact hprec

theorem absorb_after_term (h : Production.term.Precedes c.lexemes)
    (hprec : .term ≤ op.kind.precedence) : (absorb lhs op f c).Gives (join lhs op f) c := by
  rcases readBinaryOp_cases c with hfails | ⟨following, c₁, hfollowing, l, hl, hkind⟩
  · exact absorb_of_end hfails (readPrimary_after_term h)
  · obtain ⟨hterm, hleft⟩ := precedence_of_mem_term_followers (h l hl) hkind
    refine absorb_of_looser hfollowing ?_
    rintro (hlt | hright)
    · rw [hterm] at hlt
      exact absurd hprec (Nat.not_le_of_lt hlt)
    · rw [hleft] at hright
      cases hright

/-- Nothing goes on after an expression. -/
theorem readOperations_after_expr (h : Production.expr.Precedes c.lexemes) :
    (readOperations f prec c).Gives f c := by
  refine readOperations_of_end (readBinaryOp_fails fun l hl => ?_)
    (readPrimary_after_term (h.mono (by decide)))
  have hmem := h l hl
  revert hmem
  cases l.kind <;> decide

/-! ### Every derivation is read -/

/-- Going on from the operand `x` at `c` comes to the same as going on from `f` at `next`. -/
structure Resumes (x : Formula) (c : Cursor) (f : Formula) (next : Cursor) : Prop where
  operations : ∀ prec g n, (readOperations f prec next).Gives g n →
    (readOperations x prec c).Gives g n
  absorb : ∀ lhs op g n, (absorb lhs op f next).Gives g n → (absorb lhs op x c).Gives g n

/-- Going on from the operand `x` at `c` makes it the term `f`. -/
structure Completes (x : Formula) (c : Cursor) (f : Formula) (next : Cursor) : Prop where
  operations : ∀ prec ≤ Precedence.factor, ∀ g n, (readOperations f prec next).Gives g n →
    (readOperations x prec c).Gives g n
  absorb : ∀ lhs op, op.kind.precedence = .term → (absorb lhs op x c).Gives (join lhs op f) next

theorem Resumes.refl (f : Formula) (c : Cursor) : Resumes f c f c :=
  ⟨fun _ _ _ h => h, fun _ _ _ _ h => h⟩

theorem Completes.of_resumes {c₁ : Cursor} {y : Formula} (h₁ : Resumes x c y c₁)
    (h₂ : Completes y c₁ f next) : Completes x c f next where
  operations prec hprec g n h := h₁.operations prec g n (h₂.operations prec hprec g n h)
  absorb lhs op hop := h₁.absorb lhs op _ _ (h₂.absorb lhs op hop)

/-- What the readers have to do with a phrase that can be derived. -/
def Reads : Production → List Lexeme → Phrase → List Lexeme → Prop
  | .expr, ts, p, rest => ∀ c : Cursor, c.lexemes = ts → ∃ f next,
      (readExpr c).Gives f next ∧ f.phrase = p ∧ next.lexemes = rest
  | .terms lhs, ts, p, rest => ∀ (c : Cursor) (x : Formula), c.lexemes = ts → x.phrase = lhs →
      ∃ f next, (readOperations x .any c).Gives f next ∧ f.phrase = p ∧ next.lexemes = rest
  | .term, ts, p, rest => ∀ c : Cursor, c.lexemes = ts → ∃ x c₁ f next,
      (readOperand c).Gives x c₁ ∧ Completes x c₁ f next ∧ f.phrase = p ∧ next.lexemes = rest
  | .factors lhs, ts, p, rest => ∀ (c : Cursor) (x : Formula), c.lexemes = ts → x.phrase = lhs →
      ∃ f next, Completes x c f next ∧ f.phrase = p ∧ next.lexemes = rest
  | .factor, ts, p, rest => ∀ c : Cursor, c.lexemes = ts → ∃ x c₁ f next,
      (readOperand c).Gives x c₁ ∧ Resumes x c₁ f next ∧ f.phrase = p ∧ next.lexemes = rest
  | .power, ts, p, rest => ∀ c : Cursor, c.lexemes = ts → ∃ x c₁ f next,
      (readPrimary c).Gives x c₁ ∧ Resumes x c₁ f next ∧ f.phrase = p ∧ next.lexemes = rest
  | .primary, ts, p, rest => ∀ c : Cursor, c.lexemes = ts → ∃ f next,
      (readPrimary c).Gives f next ∧ f.phrase = p ∧ next.lexemes = rest
  | .arguments name before, ts, p, rest => ∀ c : Cursor, c.lexemes = ts →
      ∃ args c₁ closing next, (readList .comma c).Gives args c₁ ∧
        (c₁.expect .closeParen).Gives closing next ∧ p = .call name (before ++ phrases args) ∧
        next.lexemes = rest

section Steps

variable {ts us rest : List Lexeme} {p q lhsPhrase : Phrase} {sign : Lexeme} {kind : BinaryKind}

/-- A power takes the exponent in, whatever is read around it. -/
theorem Reads.exponent (hsign : sign.kind = .exp) (hrest : Production.power.Precedes rest)
    (hbase : Reads .primary ts p (sign :: us)) (hexponent : Reads .factor us q rest) :
    Reads .power ts (.binary p .exp false q) rest := by
  intro c hc
  obtain ⟨x, c₁, hx, rfl, hc₁⟩ := hbase c hc
  have hsign : BinaryKind.ofToken? sign.kind = some .exp := by rw [hsign]; rfl
  obtain ⟨op, c₂, hop, hkind, himplicit, hc₂⟩ := readBinaryOp_gives hc₁ hsign
  obtain ⟨y, c₃, f, next, hy, hresumes, rfl, rfl⟩ := hexponent c₂ hc₂
  have hexp : op.kind.precedence = .exp := by rw [hkind]; rfl
  have hjoin : (Formula.absorb x op y c₃).Gives (join x op f) next :=
    hresumes.absorb _ _ _ _ (absorb_after_factor hrest (by rw [hexp]; decide))
  refine ⟨x, c₁, join x op f, next, hx, ⟨?_, ?_⟩, ?_, rfl⟩
  · intro prec g n hg
    refine readOperations_of_op hop ?_ (readOperation_gives hy hjoin hg)
    rw [hexp]
    cases prec <;> decide
  · intro lhs op' g n hg
    refine absorb_of_tighter hop (.inr (by rw [hkind]; rfl)) (readOperation_gives hy hjoin ?_) hg
    rw [hexp]
    exact readOperations_after_factor hrest (by decide)
  · rw [phrase_join, hkind, himplicit]

/-- A sign takes in the factor behind it. -/
theorem Reads.negation (hsign : sign.kind = .sub) (hrest : Production.factor.Precedes rest)
    (hoperand : Reads .factor ts p rest) : Reads .factor (sign :: ts) (.neg p) rest := by
  intro c hc
  obtain ⟨span, c₁, hspan, hc₁⟩ := readSign_gives hc hsign
  obtain ⟨x, c₂, f, next, hx, hresumes, rfl, rfl⟩ := hoperand c₁ hc₁
  obtain ⟨g, hg, hphrase⟩ := readOperand_of_negation hspan hx
    (hresumes.operations _ _ _ (readOperations_after_factor hrest (by decide)))
  exact ⟨g, next, g, next, hg, .refl g next, hphrase, rfl⟩

theorem Reads.factor (hopens : OpensPrimary ts)
    (hpower : Reads .power ts p rest) : Reads .factor ts p rest := by
  intro c hc
  obtain ⟨x, c₁, f, next, hx, hresumes, hp, hnext⟩ := hpower c hc
  refine ⟨x, c₁, f, next, readOperand_of_primary ?_ hx, hresumes, hp, hnext⟩
  obtain ⟨l, ls, rfl, hl⟩ := hopens
  rw [hc]
  rintro _ ⟨⟩ hsub
  rw [hsub] at hl
  cases hl

theorem Reads.factorsDone (hrest : Production.term.Precedes rest) :
    Reads (.factors p) rest p rest := by
  rintro c x rfl rfl
  refine ⟨x, c, ⟨fun _ _ _ _ h => h, fun lhs op hop => ?_⟩, rfl, rfl⟩
  exact absorb_after_term hrest (by rw [hop]; decide)

/-- One more factor after a sign.  As part of a term it is read right away; as part of a later
term it is what binds tighter than the sum. -/
theorem Reads.factorsMore (hsign : BinaryKind.ofToken? sign.kind = some kind)
    (hkind : kind.precedence = .factor) (hus : Production.factor.Precedes us)
    (hrest : Production.term.Precedes rest) (hnext : Reads .factor ts p us)
    (hmore : Reads (.factors (.binary lhsPhrase kind false p)) us q rest) :
    Reads (.factors lhsPhrase) (sign :: ts) q rest := by
  rintro c x hc rfl
  obtain ⟨op, c₁, hop, rfl, himplicit, hc₁⟩ := readBinaryOp_gives hc hsign
  obtain ⟨y, c₂, f, c₃, hy, hresumes, rfl, rfl⟩ := hnext c₁ hc₁
  have hjoin : (Formula.absorb x op y c₂).Gives (join x op f) c₃ :=
    hresumes.absorb _ _ _ _ (absorb_after_factor hus (by rw [hkind]; decide))
  obtain ⟨g, next, hcompletes, rfl, rfl⟩ :=
    hmore c₃ (join x op f) rfl (by rw [phrase_join, himplicit])
  refine ⟨g, next, ⟨?_, ?_⟩, rfl, rfl⟩
  · intro prec hprec h n hh
    refine readOperations_of_op hop (by rw [hkind]; exact hprec) ?_
    exact readOperation_gives hy hjoin (hcompletes.operations prec hprec h n hh)
  · intro lhs op' hop'
    have hg : (readOperation x op op.kind.precedence c₁).Gives g next := by
      rw [hkind]
      refine readOperation_gives hy hjoin (hcompletes.operations _ (Nat.le_refl _) g next ?_)
      exact readOperations_after_term hrest (by decide)
    refine absorb_of_tighter hop (.inl (by rw [hop', hkind]; decide)) hg ?_
    exact absorb_after_term hrest (by rw [hop']; decide)

/-- One more factor without a sign in front of it. -/
theorem Reads.factorsJuxtaposed (hopens : OpensPrimary ts)
    (hus : Production.factor.Precedes us) (hnext : Reads .power ts p us)
    (hmore : Reads (.factors (.binary lhsPhrase .mul true p)) us q rest) :
    Reads (.factors lhsPhrase) ts q rest := by
  rintro c x hc rfl
  have hop : (readBinaryOp c).Fails := by
    refine readBinaryOp_fails ?_
    obtain ⟨l, ls, rfl, hl⟩ := hopens
    rw [hc]
    rintro _ ⟨⟩
    revert hl
    cases l.kind <;> decide
  obtain ⟨y, c₁, f, c₂, hy, hresumes, rfl, rfl⟩ := hnext c hc
  have hjoin :
      (Formula.absorb x (juxtaposition x y) y c₁).Gives (join x (juxtaposition x y) f) c₂ :=
    hresumes.absorb _ _ _ _ (absorb_after_factor hus (Nat.le_refl _))
  obtain ⟨g, next, hcompletes, rfl, rfl⟩ := hmore c₂ (join x (juxtaposition x y) f) rfl rfl
  refine ⟨g, next, ⟨?_, ?_⟩, rfl, rfl⟩
  · intro prec hprec h n hh
    exact readOperations_of_juxtaposed hop hprec hy hjoin (hcompletes.operations prec hprec h n hh)
  · intro lhs op' hop'
    exact absorb_of_juxtaposed hop (by rw [hop']; decide) hy hjoin (hcompletes.absorb lhs op' hop')

theorem Reads.term (hfirst : Reads .factor ts p us) (hmore : Reads (.factors p) us q rest) :
    Reads .term ts q rest := by
  intro c hc
  obtain ⟨x, c₁, f, c₂, hx, hresumes, rfl, rfl⟩ := hfirst c hc
  obtain ⟨g, next, hcompletes, rfl, rfl⟩ := hmore c₂ f rfl rfl
  exact ⟨x, c₁, g, next, hx, .of_resumes hresumes hcompletes, rfl, rfl⟩

theorem Reads.termsMore (hsign : BinaryKind.ofToken? sign.kind = some kind)
    (hkind : kind.precedence = .term) (hnext : Reads .term ts p us)
    (hmore : Reads (.terms (.binary lhsPhrase kind false p)) us q rest) :
    Reads (.terms lhsPhrase) (sign :: ts) q rest := by
  rintro c x hc rfl
  obtain ⟨op, c₁, hop, rfl, himplicit, hc₁⟩ := readBinaryOp_gives hc hsign
  obtain ⟨y, c₂, f, c₃, hy, hcompletes, rfl, rfl⟩ := hnext c₁ hc₁
  obtain ⟨g, next, hg, rfl, rfl⟩ := hmore c₃ (join x op f) rfl (by rw [phrase_join, himplicit])
  refine ⟨g, next, readOperations_of_op hop ?_ ?_, rfl, rfl⟩
  · rw [hkind]
    decide
  · exact readOperation_gives hy (hcompletes.absorb x op hkind) hg

theorem Reads.expr (hopens : OpensExpr ts)
    (hfirst : Reads .term ts p us) (hmore : Reads (.terms p) us q rest) :
    Reads .expr ts q rest := by
  intro c hc
  obtain ⟨x, c₁, f, c₂, ⟨hshorter, hx⟩, hcompletes, rfl, rfl⟩ := hfirst c hc
  obtain ⟨g, next, hg, rfl, rfl⟩ := hmore c₂ f rfl rfl
  obtain ⟨hshorter', hg⟩ := hcompletes.operations .any (by decide) _ _ hg
  have hsees : c.sees .closeParen = false := sees_closeParen_of_opens (hc ▸ hopens)
  refine ⟨g, next, ⟨by omega, ?_⟩, rfl, rfl⟩
  rw [readExpr, hsees, hx]
  simp only [hg]
  rfl

end Steps

/-! ### Operands without sign -/

section Primaries

variable {ts us rest : List Lexeme} {p q : Phrase} {name opening closing comma dot index : Lexeme}
  {callee : String} {before : List Phrase}

/-- What a call comes to, once its arguments have been read. -/
theorem readCall_gives {c c₁ c₂ c₃ next : Cursor} {callee : Name} {token token' : Token}
    {args : List Formula} (hcallee : (readName c).Gives callee c₁)
    (hopening : (c₁.expect .openParen).Gives token c₂)
    (hargs : args = [] ∧ c₃ = c₂ ∧ c₂.sees .closeParen = true ∨
      c₂.sees .closeParen = false ∧ (readList .comma c₂).Gives args c₃)
    (hclosing : (c₃.expect .closeParen).Gives token' next) :
    ∃ f, (readCall c).Gives f next ∧ f.phrase = .call callee.text (phrases args) := by
  obtain ⟨h₁, hcallee⟩ := hcallee
  obtain ⟨h₂, hopening⟩ := hopening
  obtain ⟨h₄, hclosing⟩ := hclosing
  refine ⟨.call callee args ⟨callee.span.start, token'.span.stop⟩
    ⟨token.span.start, token'.span.stop⟩, ?_, rfl⟩
  rw [readCall, hcallee]
  simp only [hopening]
  rcases hargs with ⟨rfl, rfl, hsees⟩ | ⟨hsees, h₃, hlist⟩
  · simp only [hsees, if_true, hclosing]
    exact ⟨by omega, rfl⟩
  · simp only [hsees, Bool.false_eq_true, if_false, hlist, hclosing]
    exact ⟨by omega, rfl⟩

theorem Reads.callEmpty (hname : name.kind = .name) (hopening : opening.kind = .openParen)
    (hclosing : closing.kind = .closeParen) :
    Reads .primary (name :: opening :: closing :: rest) (.call name.text []) rest := by
  intro c hc
  obtain ⟨callee, c₁, hcallee, htext, hc₁⟩ := readName_gives hc hname
  obtain ⟨token, c₂, htoken, -, hc₂⟩ := Cursor.expect_gives hc₁ hopening
  obtain ⟨token', next, htoken', -, hnext⟩ := Cursor.expect_gives hc₂ hclosing
  have hsees : c₂.sees .closeParen = true := by
    rw [Cursor.sees_eq, hc₂]
    simp [hclosing]
  obtain ⟨f, hf, hphrase⟩ := readCall_gives hcallee htoken (.inl ⟨rfl, rfl, hsees⟩) htoken'
  exact ⟨f, next, readPrimary_of_call hf, by rw [hphrase, htext]; rfl, hnext⟩

theorem Reads.call (hname : name.kind = .name) (hopening : opening.kind = .openParen)
    (hopens : OpensExpr ts)
    (hargs : Reads (.arguments name.text []) ts p rest) :
    Reads .primary (name :: opening :: ts) p rest := by
  intro c hc
  obtain ⟨callee, c₁, hcallee, htext, hc₁⟩ := readName_gives hc hname
  obtain ⟨token, c₂, htoken, -, rfl⟩ := Cursor.expect_gives hc₁ hopening
  obtain ⟨args, c₃, token', next, hlist, htoken', rfl, rfl⟩ := hargs c₂ rfl
  obtain ⟨f, hf, hphrase⟩ := readCall_gives hcallee htoken
    (.inr ⟨sees_closeParen_of_opens hopens, hlist⟩) htoken'
  exact ⟨f, next, readPrimary_of_call hf, by rw [hphrase, htext]; rfl, rfl⟩

theorem Reads.argumentsLast (hclosing : closing.kind = .closeParen)
    (hlast : Reads .expr ts p (closing :: rest)) :
    Reads (.arguments callee before) ts (.call callee (before ++ [p])) rest := by
  intro c hc
  obtain ⟨f, c₁, ⟨h₁, hf⟩, rfl, hc₁⟩ := hlast c hc
  obtain ⟨token, next, htoken, -, hnext⟩ := Cursor.expect_gives hc₁ hclosing
  have hcomma : (c₁.expect .comma).Fails :=
    Cursor.expect_fails (by rw [hc₁]; rintro _ ⟨⟩; rw [hclosing]; decide)
  obtain ⟨error, stopped, hcomma⟩ := hcomma
  refine ⟨[f], c₁, token, next, ⟨h₁, ?_⟩, htoken, rfl, hnext⟩
  rw [readList, hf]
  simp only [hcomma]

theorem Reads.argumentsMore (hcomma : comma.kind = .comma) (hnext : Reads .expr ts p (comma :: us))
    (hmore : Reads (.arguments callee (before ++ [p])) us q rest) :
    Reads (.arguments callee before) ts q rest := by
  intro c hc
  obtain ⟨f, c₁, ⟨h₁, hf⟩, rfl, hc₁⟩ := hnext c hc
  obtain ⟨token, c₂, ⟨h₂, htoken⟩, -, hc₂⟩ := Cursor.expect_gives hc₁ hcomma
  obtain ⟨args, c₃, token', next, ⟨h₃, hlist⟩, htoken', rfl, rfl⟩ := hmore c₂ hc₂
  refine ⟨f :: args, c₃, token', next, ⟨by omega, ?_⟩, htoken', ?_, rfl⟩
  · rw [readList, hf]
    simp only [htoken, hlist]
  · rw [List.append_assoc]
    rfl

theorem Reads.member (hobject : name.kind = .name) (hdot : dot.kind = .dot)
    (hindex : index.kind = .name) :
    Reads .primary (name :: dot :: index :: rest) (.member name.text index.text) rest := by
  intro c hc
  obtain ⟨object, c₁, hobject, hobject', hc₁⟩ := readName_gives hc hobject
  have hcall : (readCall c).Fails :=
    readCall_of_no_paren hobject (by rw [hc₁]; rintro _ ⟨⟩; rw [hdot]; decide)
  obtain ⟨token, c₂, ⟨h₂, htoken⟩, -, hc₂⟩ := Cursor.expect_gives hc₁ hdot
  obtain ⟨member, next, ⟨h₃, hmember⟩, hmember', hnext⟩ := readName_gives hc₂ hindex
  obtain ⟨h₁, hobject⟩ := hobject
  refine ⟨.member object member ⟨object.span.start, member.span.stop⟩, next,
    readPrimary_of_member hcall ⟨by omega, ?_⟩, by rw [phrase, hobject', hmember'], hnext⟩
  rw [readMember, hobject]
  simp only [htoken, hmember]

theorem Reads.number (hdigits : name.kind = .int ∨ name.kind = .float) :
    Reads .primary (name :: rest) (.number name.text) rest := by
  intro c hc
  have hnoName : (readName c).Fails :=
    readName_fails (by rw [hc]; rintro _ ⟨⟩; rcases hdigits with h | h <;> rw [h] <;> decide)
  obtain ⟨f, next, ⟨h₁, hf⟩, hphrase, hnext⟩ := readNumber_gives hc hdigits
  refine ⟨f, next, readPrimary_of_literal (readCall_of_no_name hnoName)
    (readMember_of_no_name hnoName) ⟨h₁, ?_⟩, hphrase, hnext⟩
  rw [readLiteral, hf]

/-- A name is a variable unless it is the name of a call or of a container. -/
theorem Reads.symbol (hname : name.kind = .name)
    (hparen : ∀ following ∈ rest.head?, following.kind ≠ .openParen)
    (hrest : Production.primary.Precedes rest) :
    Reads .primary (name :: rest) (.symbol name.text) rest := by
  intro c hc
  obtain ⟨symbol, next, hsymbol, htext, hnext⟩ := readName_gives hc hname
  have hcall : (readCall c).Fails := readCall_of_no_paren hsymbol (by rw [hnext]; exact hparen)
  have hmember : (readMember c).Fails := by
    refine readMember_of_no_dot hsymbol ?_
    rw [hnext]
    intro l hl hdot
    have hmem := hrest l hl
    rw [hdot] at hmem
    revert hmem
    decide
  have hnumber : (readNumber c).Fails :=
    readNumber_fails (by rw [hc]; rintro _ ⟨⟩; rw [hname]; decide)
  obtain ⟨h₁, hsymbol⟩ := hsymbol
  obtain ⟨error, stopped, hnumber⟩ := hnumber
  refine ⟨.symbol symbol, next, readPrimary_of_literal hcall hmember ⟨h₁, ?_⟩,
    by rw [phrase, htext], hnext⟩
  rw [readLiteral, hnumber, readSymbol, hsymbol]
  rfl

theorem Reads.paren (hopening : opening.kind = .openParen) (hclosing : closing.kind = .closeParen)
    (hopens : OpensExpr ts)
    (hinner : Reads .expr ts p (closing :: rest)) :
    Reads .primary (opening :: ts) (.paren p) rest := by
  intro c hc
  have hne {kind : TokenKind} (hkind : kind ≠ .openParen) :
      ∀ l ∈ c.lexemes.head?, l.kind ≠ kind := by
    rw [hc]
    rintro _ ⟨⟩
    rw [hopening]
    exact hkind.symm
  have hnoName : (readName c).Fails := readName_fails (hne (by decide))
  have hliteral : (readLiteral c).Fails := readLiteral_fails
    (readNumber_fails fun l hl => ⟨hne (by decide) l hl, hne (by decide) l hl⟩) hnoName
  obtain ⟨token, c₁, ⟨h₁, htoken⟩, -, rfl⟩ := Cursor.expect_gives hc hopening
  obtain ⟨f, c₂, ⟨h₂, hf⟩, rfl, hc₂⟩ := hinner c₁ rfl
  obtain ⟨token', next, ⟨h₃, htoken'⟩, -, hnext⟩ := Cursor.expect_gives hc₂ hclosing
  refine ⟨.paren f ⟨token.span.start, token'.span.stop⟩, next,
    readPrimary_of_paren (readCall_of_no_name hnoName) (readMember_of_no_name hnoName) hliteral
      ⟨by omega, ?_⟩, rfl, hnext⟩
  rw [readParen, htoken]
  simp only [sees_closeParen_of_opens hopens, Bool.false_eq_true, if_false, hf, htoken']

end Primaries

end Formula

open Formula

/-- **The readers read what the grammar derives**, if what is left could not go on with it. -/
theorem Derives.reads {g : Production} {ts rest : List Lexeme} {p : Phrase}
    (h : Derives g ts p rest) : g.Precedes rest → Reads g ts p rest := by
  induction h with
  | expr first more ihFirst ihMore =>
      intro hrest
      have hopens := (Derives.expr first more).opens_of_expr
      exact .expr hopens (ihFirst (more.term_precedes hrest)) (ihMore hrest)
  | termsDone =>
      rintro hrest c x rfl rfl
      exact ⟨x, c, readOperations_after_expr hrest, rfl, rfl⟩
  | termsMore hsign hkind next more ihNext ihMore =>
      intro hrest
      exact .termsMore hsign hkind (ihNext (more.term_precedes hrest)) (ihMore hrest)
  | term first more ihFirst ihMore =>
      intro hrest
      exact .term (ihFirst (more.factor_precedes hrest)) (ihMore hrest)
  | factorsDone => exact fun hrest => .factorsDone hrest
  | factorsMore hsign hkind next more ihNext ihMore =>
      intro hrest
      have hus := more.factor_precedes hrest
      exact .factorsMore hsign hkind hus hrest (ihNext hus) (ihMore hrest)
  | factorsJuxtaposed next more ihNext ihMore =>
      intro hrest
      have hus := more.factor_precedes hrest
      exact .factorsJuxtaposed next.opens_of_power hus (ihNext hus) (ihMore hrest)
  | negation hsign operand ih => exact fun hrest => .negation hsign hrest (ih hrest)
  | factor power ih => exact fun hrest => .factor power.opens_of_power (ih hrest)
  | power primary ih =>
      intro hrest c hc
      obtain ⟨f, next, hf, hp, hnext⟩ := ih (hrest.mono (by decide)) c hc
      exact ⟨f, next, f, next, hf, .refl f next, hp, hnext⟩
  | exponent hsign base exponent ihBase ihExponent =>
      intro hrest
      refine .exponent hsign hrest (ihBase (Production.precedes_cons ?_)) (ihExponent hrest)
      rw [hsign]
      decide
  | callEmpty hname hopening hclosing => exact fun _ => .callEmpty hname hopening hclosing
  | call hname hopening args ih =>
      exact fun hrest => .call hname hopening args.opens_of_arguments (ih hrest)
  | argumentsLast hclosing last ih =>
      exact fun _ => .argumentsLast hclosing
        (ih (Production.precedes_cons (by rw [hclosing]; decide)))
  | argumentsMore hcomma next more ihNext ihMore =>
      exact fun hrest => .argumentsMore hcomma
        (ihNext (Production.precedes_cons (by rw [hcomma]; decide))) (ihMore hrest)
  | member hobject hdot hindex => exact fun _ => .member hobject hdot hindex
  | number hdigits => exact fun _ => .number hdigits
  | symbol hname hparen => exact fun hrest => .symbol hname hparen hrest
  | paren hopening hclosing inner ih =>
      exact fun _ => .paren hopening hclosing inner.opens_of_expr
        (ih (Production.precedes_cons (by rw [hclosing]; decide)))

end AlgebraTutor
