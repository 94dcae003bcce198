/-
The readers read what the grammar derives, and nothing else.

Climbing precedences builds a formula in another order than a derivation does, so the statements
follow the formula as it grows: what has been read so far is an operand, or begins a term, or begins
a sum, and each operator that is read takes it from one of these to the next.  Where reading stops
matters as well, because what stands there decides whether the formula could have gone on.

One thing is read that the grammar does not derive.  A name with an opening parenthesis behind it
that begins no call is read as a variable, and reading stops in front of that parenthesis.  But what
begins no call is no formula in parentheses either, so nothing reads on from there, and the text as
a whole is refused.  That is what `Blocked` stands for.
-/
import AlgebraTutor.Proofs.ReaderCases

namespace AlgebraTutor

/-! ### Where a phrase ends -/

namespace Cursor

/-- There is an opening parenthesis here, and no formula in parentheses. -/
structure Blocked (c : Cursor) : Prop where
  opening : ∃ l ls, c.lexemes = l :: ls ∧ l.kind = .openParen
  operand : (Formula.readPrimary c).Fails

/-- No power goes on here. -/
def EndsPower (c : Cursor) : Prop :=
  ∀ op next, (Formula.readBinaryOp c).Gives op next → op.kind ≠ .exp

/-- No term goes on here. -/
structure EndsTerm (c : Cursor) : Prop where
  operator : ∀ op next, (Formula.readBinaryOp c).Gives op next → op.kind.precedence = .term
  operand : (Formula.readPrimary c).Fails

variable {c next : Cursor} {op : BinaryOp}

theorem Blocked.not_operator (h : c.Blocked) : ¬(Formula.readBinaryOp c).Gives op next := by
  intro hop
  obtain ⟨l, ls, hls, hkind⟩ := h.opening
  refine Outcome.Gives.not_fails hop (Formula.readBinaryOp_fails ?_)
  rw [hls]
  intro l' hl'
  obtain rfl : l = l' := by simpa using hl'
  rw [hkind]
  rfl

/-- Nothing begins an operand where an operator stands. -/
theorem readPrimary_fails_of_operator (hop : (Formula.readBinaryOp c).Gives op next) :
    (Formula.readPrimary c).Fails := by
  obtain ⟨l, hls, hkind, -⟩ := Formula.lexemes_of_readBinaryOp hop
  refine Formula.readPrimary_fails ?_
  rw [hls]
  intro l' hl'
  obtain rfl : l = l' := by simpa using hl'
  revert hkind
  cases l.kind <;> simp [BinaryKind.ofToken?, BinaryKind.all, BinaryKind.token,
    TokenKind.opensPrimary]

/-- A term ends where nothing that binds as tightly as a product can be read. -/
theorem EndsTerm.of_stops {allows : BinaryKind → Prop} {juxtaposes : Prop}
    (h : Formula.Stops allows juxtaposes c) (hjuxtaposes : juxtaposes)
    (hallows : ∀ kind : BinaryKind, kind.precedence ≠ .term → allows kind) : c.EndsTerm where
  operator op next hop := by
    by_contra hterm
    exact h.operator op next hop (hallows op.kind hterm)
  operand := by
    rcases (Formula.readBinaryOp c).gives_or_fails with ⟨op, next, hop⟩ | hfails
    · exact readPrimary_fails_of_operator hop
    · exact h.operand hjuxtaposes hfails

end Cursor

namespace Formula

variable {c c₁ c₂ c₃ next : Cursor} {f x y lhs rhs joined : Formula} {op : BinaryOp}
  {prec : Precedence} {g g' : Production} {ts us : List Lexeme}

theorem eq_exp_of_le {kind : BinaryKind} (h : prec ≤ kind.precedence) (hprec : ¬prec ≤ .factor) :
    kind = .exp := by
  revert h hprec
  cases kind <;> cases prec <;> decide

theorem eq_exp_of_takes {kind : BinaryKind} (h : Takes op kind)
    (hprec : .factor ≤ op.kind.precedence) : kind = .exp := by
  unfold Takes at h
  revert h hprec
  generalize op.kind = k
  cases kind <;> cases k <;> decide

theorem precedence_ne_term_of_takes {kind : BinaryKind} (h : Takes op kind)
    (hprec : .term ≤ op.kind.precedence) : kind.precedence ≠ .term := by
  unfold Takes at h
  revert h hprec
  generalize op.kind = k
  cases kind <;> cases k <;> decide

theorem precedence_eq_factor {kind : BinaryKind} (hexp : kind ≠ .exp)
    (hterm : kind.precedence ≠ .term) : kind.precedence = .factor := by
  revert hexp hterm
  cases kind <;> decide

theorem factor_le_of_ne_term {kind : BinaryKind} (h : kind.precedence ≠ .term) :
    .factor ≤ kind.precedence := by
  revert h
  cases kind <;> decide

/-- After a power, a tighter operator goes no further. -/
theorem readOperations_of_endsPower (hends : c.EndsPower) (hprec : ¬prec ≤ .factor)
    (h : (readOperations lhs prec c).Gives f next) : f = lhs ∧ next = c := by
  cases readOperations_cases h with
  | @operator op c₁ _ _ _ _ hop hprec' _ _ _ =>
      exact absurd (eq_exp_of_le hprec' hprec) (hends op c₁ hop)
  | juxtaposed hprec' _ _ _ => exact absurd hprec' hprec
  | stops hf hnext _ => exact ⟨hf, hnext⟩

theorem absorb_of_endsPower (hends : c.EndsPower) (hprec : .factor ≤ op.kind.precedence)
    (h : (absorb lhs op rhs c).Gives f next) : f = join lhs op rhs ∧ next = c := by
  cases absorb_cases h with
  | @operator following c₁ _ _ hop htakes _ _ =>
      exact absurd (eq_exp_of_takes htakes hprec) (hends following c₁ hop)
  | juxtaposed hprec' _ _ _ => exact absurd hprec hprec'
  | stops hf hnext _ => exact ⟨hf, hnext⟩

/-- After a term, products go no further. -/
theorem readOperations_of_endsTerm (hends : c.EndsTerm) (hprec : ¬prec ≤ .term)
    (h : (readOperations lhs prec c).Gives f next) : f = lhs ∧ next = c := by
  cases readOperations_cases h with
  | @operator op c₁ _ _ _ _ hop hprec' _ _ _ =>
      rw [hends.operator op c₁ hop] at hprec'
      exact absurd hprec' hprec
  | juxtaposed _ hrhs _ _ => exact absurd hends.operand hrhs.not_fails
  | stops hf hnext _ => exact ⟨hf, hnext⟩

theorem absorb_of_endsTerm (hends : c.EndsTerm) (hprec : .term ≤ op.kind.precedence)
    (h : (absorb lhs op rhs c).Gives f next) : f = join lhs op rhs ∧ next = c := by
  cases absorb_cases h with
  | @operator following c₁ _ _ hop htakes _ _ =>
      exact absurd (hends.operator following c₁ hop) (precedence_ne_term_of_takes htakes hprec)
  | juxtaposed _ hfactor _ _ => exact absurd hends.operand hfactor.not_fails
  | stops hf hnext _ => exact ⟨hf, hnext⟩

/-! ### What has been read so far -/

/-- The formula was made of the first of the tokens `ts` as the grammar says, and reading stands at
`c` now; or else nothing can be read from here on. -/
def Made (g : Production) (ts : List Lexeme) (x : Formula) (c : Cursor) : Prop :=
  c.Blocked ∨ Derives g ts x.phrase c.lexemes

/-- An operand as it is read: one without sign may still turn out to be the base of a power. -/
def IsOperand (ts : List Lexeme) (x : Formula) (c : Cursor) : Prop :=
  Made .primary ts x c ∨ Made .factor ts x c ∧ c.EndsPower

/-- The formula is the beginning of a term, or all of it. -/
structure BeginsTerm (ts : List Lexeme) (x : Formula) (c : Cursor) : Prop where
  goesOn : c.Blocked ∨ ∀ p rest, Derives (.factors x.phrase) c.lexemes p rest →
    Derives .term ts p rest
  ends : c.EndsPower

/-- The formula is the beginning of a sum, or all of it. -/
structure BeginsSum (ts : List Lexeme) (x : Formula) (c : Cursor) : Prop where
  goesOn : c.Blocked ∨ ∀ p rest, Derives (.terms x.phrase) c.lexemes p rest →
    Derives .expr ts p rest
  ends : c.EndsTerm

theorem Made.mono (h : Made g ts x c)
    (hmono : ∀ p rest, Derives g ts p rest → Derives g' ts p rest) : Made g' ts x c :=
  h.imp_right (hmono _ _)

/-- What reading went on from was derived. -/
theorem Made.derives (h : Made g ts x c) (hblocked : ¬c.Blocked) :
    Derives g ts x.phrase c.lexemes := h.resolve_left hblocked

/-- No call and no list goes on where nothing can be read. -/
theorem Made.derives_of_expect {kind : TokenKind} {token : Token} (h : Made g ts x c)
    (htoken : (c.expect kind).Gives token next) (hkind : kind ≠ .openParen) :
    Derives g ts x.phrase (token.lexed :: next.lexemes) ∧ token.lexed.kind = kind := by
  obtain ⟨hls, htokenKind⟩ := Cursor.lexemes_of_expect htoken
  refine ⟨hls ▸ h.derives fun hblocked => ?_, htokenKind⟩
  obtain ⟨l, ls, hls', hopening⟩ := hblocked.opening
  rw [hls] at hls'
  injection hls' with hl
  rw [← hl] at hopening
  exact hkind (htokenKind.symm.trans hopening)

theorem Made.factor (h : Made .primary ts x c) : Made .factor ts x c :=
  h.mono fun _ _ hderives => .factor (.power hderives)

theorem Made.exponent (hbase : Made .primary ts x c) (hop : (readBinaryOp c).Gives op c₁)
    (hkind : op.kind = .exp) (hy : Made .factor c₁.lexemes y c₂) :
    Made .power ts (join x op y) c₂ := by
  rcases hy with hblocked | hy
  · exact .inl hblocked
  · have hx := hbase.derives fun hblocked => hblocked.not_operator hop
    obtain ⟨l, hls, htoken, himplicit⟩ := lexemes_of_readBinaryOp hop
    have hexp : l.kind = .exp := by
      rw [hkind] at htoken
      revert htoken
      cases l.kind <;> decide
    right
    rw [phrase_join, hkind, himplicit]
    exact .exponent hexp (hls ▸ hx) hy

theorem Made.negation {sign : Token} (hsign : (c.expect .sub).Gives sign c₁)
    (hx : Made .factor c₁.lexemes x c₂) (hphrase : f.phrase = .neg x.phrase) :
    Made .factor c.lexemes f c₂ := by
  obtain ⟨hls, hkind⟩ := Cursor.lexemes_of_expect hsign
  refine hx.imp_right fun hx => ?_
  rw [hls, hphrase]
  exact .negation hkind hx

theorem BeginsTerm.of_factor (h : Made .factor ts x c) (hends : c.EndsPower) :
    BeginsTerm ts x c :=
  ⟨h.imp_right fun h _ _ hmore => .term h hmore, hends⟩

theorem BeginsTerm.term (h : BeginsTerm ts x c) : Made .term ts x c :=
  h.goesOn.imp_right fun h => h _ _ .factorsDone

theorem BeginsTerm.times (h : BeginsTerm ts x c) (hop : (readBinaryOp c).Gives op c₁)
    (hkind : op.kind.precedence = .factor) (hy : Made .factor c₁.lexemes y c₂)
    (hends : c₂.EndsPower) : BeginsTerm ts (join x op y) c₂ := by
  refine ⟨hy.imp_right fun hy p rest hmore => ?_, hends⟩
  have hx := h.goesOn.resolve_left fun hblocked => hblocked.not_operator hop
  obtain ⟨l, hls, htoken, himplicit⟩ := lexemes_of_readBinaryOp hop
  rw [phrase_join, himplicit] at hmore
  apply hx
  rw [hls]
  exact .factorsMore htoken hkind hy hmore

theorem BeginsTerm.juxtaposed (h : BeginsTerm ts x c) (hrhs : (readPrimary c).Gives rhs c₁)
    (hy : Made .power c.lexemes y c₂) (hends : c₂.EndsPower) :
    BeginsTerm ts (join x (juxtaposition x rhs) y) c₂ := by
  refine ⟨hy.imp_right fun hy p rest hmore => ?_, hends⟩
  have hx := h.goesOn.resolve_left fun hblocked => hrhs.not_fails hblocked.operand
  exact hx p rest (.factorsJuxtaposed hy hmore)

theorem BeginsSum.of_term (h : Made .term ts x c) (hends : c.EndsTerm) : BeginsSum ts x c :=
  ⟨h.imp_right fun h _ _ hmore => .expr h hmore, hends⟩

theorem BeginsSum.expr (h : BeginsSum ts x c) : Made .expr ts x c :=
  h.goesOn.imp_right fun h => h _ _ .termsDone

theorem BeginsSum.plus (h : BeginsSum ts x c) (hop : (readBinaryOp c).Gives op c₁)
    (hy : Made .term c₁.lexemes y c₂) (hends : c₂.EndsTerm) :
    BeginsSum ts (join x op y) c₂ := by
  refine ⟨hy.imp_right fun hy p rest hmore => ?_, hends⟩
  have hx := h.goesOn.resolve_left fun hblocked => hblocked.not_operator hop
  obtain ⟨l, hls, htoken, himplicit⟩ := lexemes_of_readBinaryOp hop
  rw [phrase_join, himplicit] at hmore
  apply hx
  rw [hls]
  exact .termsMore htoken (h.ends.operator op c₁ hop) hy hmore

/-! ### The variable in front of a parenthesis -/

/-- One expression makes up a list if no comma follows it. -/
theorem readList_of_last {closing : Token} (hx : (readExpr c).Gives x c₁)
    (hclosing : (c₁.expect .closeParen).Gives closing next) :
    (readList .comma c).Gives [x] c₁ := by
  obtain ⟨hls, hkind⟩ := Cursor.lexemes_of_expect hclosing
  have hcomma : (c₁.expect .comma).Fails := by
    refine Cursor.expect_fails fun l hl => ?_
    obtain rfl : closing.lexed = l := by simpa [hls] using hl
    show closing.kind ≠ .comma
    rw [hkind]
    decide
  obtain ⟨hshorter, hx⟩ := hx
  obtain ⟨_, _, hcomma⟩ := hcomma
  refine ⟨hshorter, ?_⟩
  rw [readList, hx]
  simp only [hcomma]

/-- A name that begins no call stands in front of no formula in parentheses. -/
theorem blocked_of_readName {name : Name} {l : Lexeme} {ls : List Lexeme}
    (hname : (readName c).Gives name next) (hcall : (readCall c).Fails)
    (hls : next.lexemes = l :: ls) (hopening : l.kind = .openParen) : next.Blocked := by
  refine ⟨⟨l, ls, hls, hopening⟩, ?_⟩
  have hkind {l' : Lexeme} {ls' : List Lexeme} (hls' : next.lexemes = l' :: ls') :
      l'.kind = .openParen := by
    rw [hls] at hls'
    injection hls' with hl
    exact hl ▸ hopening
  have hnoName : (readName next).Fails := by
    refine readName_fails fun l' hl' => ?_
    obtain rfl : l = l' := by simpa [hls] using hl'
    rw [hopening]
    decide
  rcases (readPrimary next).gives_or_fails with ⟨f, n, h⟩ | hfails
  · exfalso
    rcases readPrimary_cases h with h | h | ⟨-, h⟩ | h
    · exact h.not_fails (readCall_of_no_name hnoName)
    · exact h.not_fails (readMember_of_no_name hnoName)
    · rcases readLiteral_cases h with ⟨token, hnext, hint, -⟩ | ⟨name', hname', -⟩
      · have htoken : token.kind = .openParen := hkind (Cursor.lexemes_of_next hnext)
        rw [htoken] at hint
        exact absurd hint (by decide)
      · exact hname'.not_fails hnoName
    · obtain ⟨opening, c₁, inner, c₂, closing, hopening', hsees, hinner, hclosing, -⟩ :=
        readParen_cases h
      have hlist := readList_of_last hinner hclosing
      obtain ⟨g, hg, -⟩ := readCall_gives hname hopening' (.inr ⟨hsees, hlist⟩) hclosing
      exact hg.not_fails hcall
  · exact hfails

/-! ### The readers -/

/-- What is shown of the readers, where fewer than `n` tokens are ahead. -/
structure SoundBelow (n : Nat) : Prop where
  operand : ∀ {c next : Cursor} {f : Formula}, c.left < n → (readOperand c).Gives f next →
    IsOperand c.lexemes f next
  expr : ∀ {c next : Cursor} {f : Formula}, c.left < n → (readExpr c).Gives f next →
    Made .expr c.lexemes f next

section Readers

variable {n : Nat}

theorem readList_derives (sound : SoundBelow n) {c c₁ next : Cursor} {args : List Formula}
    {closing : Token} (hn : c.left < n) (h : (readList .comma c).Gives args c₁)
    (hclosing : (c₁.expect .closeParen).Gives closing next) (name : String)
    (before : List Phrase) :
    Derives (.arguments name before) c.lexemes (.call name (before ++ phrases args))
      next.lexemes := by
  obtain ⟨first, c₂, hfirst, hothers⟩ := readList_cases h
  have h₂ := hfirst.left_lt
  rcases hothers with ⟨rfl, rfl⟩ | ⟨comma, c₃, others, hcomma, hothers, rfl⟩
  · obtain ⟨hfirst, hkind⟩ := (sound.expr hn hfirst).derives_of_expect hclosing (by decide)
    exact .argumentsLast hkind hfirst
  · have h₃ := hcomma.left_lt
    obtain ⟨hfirst, hkind⟩ := (sound.expr hn hfirst).derives_of_expect hcomma (by decide)
    have hmore := readList_derives sound (by omega) hothers hclosing name (before ++ [first.phrase])
    rw [List.append_assoc] at hmore
    exact .argumentsMore hkind hfirst hmore
termination_by c.left

theorem readCall_derives (sound : SoundBelow n) (hn : c.left ≤ n)
    (h : (readCall c).Gives f next) : Derives .primary c.lexemes f.phrase next.lexemes := by
  obtain ⟨name, c₁, opening, c₂, args, c₃, closing, hname, hopening, hargs, hclosing, rfl⟩ :=
    readCall_cases h
  have h₁ := hname.left_lt
  have h₂ := hopening.left_lt
  obtain ⟨l, hls, hkind, htext⟩ := lexemes_of_readName hname
  obtain ⟨hls₁, hkind₁⟩ := Cursor.lexemes_of_expect hopening
  rw [phrase, hls, hls₁, ← htext]
  rcases hargs with ⟨rfl, rfl⟩ | hargs
  · obtain ⟨hls₂, hkind₂⟩ := Cursor.lexemes_of_expect hclosing
    rw [hls₂]
    exact .callEmpty hkind hkind₁ hkind₂
  · exact .call hkind hkind₁ (readList_derives sound (by omega) hargs hclosing l.text [])

theorem readParen_derives (sound : SoundBelow n) (hn : c.left ≤ n)
    (h : (readParen c).Gives f next) : Derives .primary c.lexemes f.phrase next.lexemes := by
  obtain ⟨opening, c₁, inner, c₂, closing, hopening, -, hinner, hclosing, rfl⟩ :=
    readParen_cases h
  have h₁ := hopening.left_lt
  obtain ⟨hls, hkind⟩ := Cursor.lexemes_of_expect hopening
  obtain ⟨hinner, hkind₁⟩ :=
    (sound.expr (by omega) hinner).derives_of_expect hclosing (by decide)
  rw [phrase, hls]
  exact .paren hkind hkind₁ hinner

theorem readPrimary_made (sound : SoundBelow n) (hn : c.left ≤ n)
    (h : (readPrimary c).Gives f next) : Made .primary c.lexemes f next := by
  rcases readPrimary_cases h with h | h | ⟨hcall, h⟩ | h
  · exact .inr (readCall_derives sound hn h)
  · obtain ⟨object, dot, index, hls, hobject, hdot, hindex, hphrase⟩ := lexemes_of_readMember h
    right
    rw [hls, hphrase]
    exact .member hobject hdot hindex
  · rcases readLiteral_cases h with ⟨token, hnext, hkind, rfl⟩ | ⟨name, hname, rfl⟩
    · right
      rw [Cursor.lexemes_of_next hnext]
      exact .number hkind
    · obtain ⟨l, hls, hkind, htext⟩ := lexemes_of_readName hname
      by_cases hopening : ∃ following ∈ next.lexemes.head?, following.kind = .openParen
      · obtain ⟨following, hhead, hopening⟩ := hopening
        obtain ⟨ls, hls'⟩ := List.head?_eq_some_iff.mp hhead
        exact .inl (blocked_of_readName hname hcall hls' hopening)
      · right
        rw [hls, phrase, ← htext]
        exact .symbol hkind fun following hhead heq => hopening ⟨following, hhead, heq⟩
  · exact .inr (readParen_derives sound hn h)

/-! An operand is read without its exponent.  The reader that goes on with it, and the one that
takes it in as a right operand, add that first. -/

theorem exists_exponent (h : ¬c.EndsPower) :
    ∃ op next, (readBinaryOp c).Gives op next ∧ op.kind = .exp := by
  unfold Cursor.EndsPower at h
  push Not at h
  exact h

mutual

theorem power_of_exponent (sound : SoundBelow n) {c c₁ c₂ next : Cursor} {x rhs f : Formula}
    {op : BinaryOp} {ts : List Lexeme} (hn : c.left ≤ n) (hx : Made .primary ts x c)
    (hop : (readBinaryOp c).Gives op c₁) (hkind : op.kind = .exp)
    (hrhs : (readOperand c₁).Gives rhs c₂) (hf : (absorb x op rhs c₂).Gives f next) :
    Made .power ts f next ∧ next.EndsPower := by
  have h₁ := hop.left_lt
  have h₂ := hrhs.left_lt
  obtain ⟨y, c', -, hy, hends, hf⟩ :=
    absorb_operand sound (by omega) (sound.operand (by omega) hrhs) hf
  obtain ⟨rfl, rfl⟩ := absorb_of_endsPower hends (by rw [hkind]; decide) hf
  exact ⟨hx.exponent hop hkind hy, hends⟩
termination_by (c.left, 0)

theorem absorb_power (sound : SoundBelow n) {c next : Cursor} {lhs x f : Formula} {op : BinaryOp}
    {ts : List Lexeme} (hn : c.left ≤ n) (hx : Made .primary ts x c)
    (h : (absorb lhs op x c).Gives f next) :
    ∃ y c', c'.left ≤ c.left ∧ Made .power ts y c' ∧ c'.EndsPower ∧
      (absorb lhs op y c').Gives f next := by
  by_cases hends : c.EndsPower
  · exact ⟨x, c, le_refl _, hx.mono fun _ _ => .power, hends, h⟩
  · obtain ⟨following, c₁, hop, hkind⟩ := exists_exponent hends
    cases absorb_cases h with
    | operator hop' htakes hlarger h =>
        obtain ⟨rfl, rfl⟩ := hop.unique hop'
        obtain ⟨rhs, c₂, joined, c₃, hrhs, hjoined, hlarger⟩ := readOperation_cases hlarger
        have h₁ := hop.left_lt
        have h₂ := hrhs.left_lt
        have h₃ := hjoined.left_lt
        obtain ⟨hpower, hends⟩ := power_of_exponent sound hn hx hop hkind hrhs hjoined
        obtain ⟨rfl, rfl⟩ :=
          readOperations_of_endsPower hends (by rw [hkind]; decide) hlarger
        exact ⟨_, _, by omega, hpower, hends, h⟩
    | juxtaposed hprec hfactor hproduct h =>
        exact absurd (Cursor.readPrimary_fails_of_operator hop) hfactor.not_fails
    | stops hf hnext hstops =>
        refine absurd ?_ (hstops.operator following c₁ hop)
        rw [hkind]
        exact .inr rfl
termination_by (c.left, 1)

theorem absorb_operand (sound : SoundBelow n) {c next : Cursor} {lhs x f : Formula}
    {op : BinaryOp} {ts : List Lexeme} (hn : c.left ≤ n) (hx : IsOperand ts x c)
    (h : (absorb lhs op x c).Gives f next) :
    ∃ y c', c'.left ≤ c.left ∧ Made .factor ts y c' ∧ c'.EndsPower ∧
      (absorb lhs op y c').Gives f next := by
  rcases hx with hx | ⟨hx, hends⟩
  · obtain ⟨y, c', hle, hy, hends, h⟩ := absorb_power sound hn hx h
    exact ⟨y, c', hle, hy.mono fun _ _ => .factor, hends, h⟩
  · exact ⟨x, c, le_refl _, hx, hends, h⟩
termination_by (c.left, 2)

end

theorem readOperations_operand (sound : SoundBelow n) (hn : c.left ≤ n) (hx : IsOperand ts x c)
    (h : (readOperations x prec c).Gives f next) :
    ∃ y c', c'.left ≤ c.left ∧ Made .factor ts y c' ∧ c'.EndsPower ∧
      (readOperations y prec c').Gives f next := by
  by_cases hends : c.EndsPower
  · refine ⟨x, c, le_refl _, ?_, hends, h⟩
    exact hx.elim Made.factor And.left
  · obtain ⟨op, c₁, hop, hkind⟩ := exists_exponent hends
    have hx : Made .primary ts x c := hx.resolve_right fun h => hends h.2
    cases readOperations_cases h with
    | operator hop' hprec hrhs hjoined h =>
        obtain ⟨rfl, rfl⟩ := hop.unique hop'
        have h₁ := hop.left_lt
        have h₂ := hrhs.left_lt
        have h₃ := hjoined.left_lt
        obtain ⟨hpower, hends⟩ := power_of_exponent sound hn hx hop hkind hrhs hjoined
        exact ⟨_, _, by omega, hpower.mono fun _ _ => .factor, hends, h⟩
    | juxtaposed hprec hrhs hproduct h =>
        exact absurd (Cursor.readPrimary_fails_of_operator hop) hrhs.not_fails
    | stops hf hnext hstops =>
        refine absurd ?_ (hstops.operator op c₁ hop)
        rw [hkind]
        cases prec <;> decide

/-! Likewise the factors of a term are read one by one, and the readers pass the end of the term
before they go on with the sum. -/

theorem BeginsTerm.readOperator (sound : SoundBelow n) (hn : c.left ≤ n) (hx : BeginsTerm ts x c)
    (hop : (readBinaryOp c).Gives op c₁) (hkind : op.kind.precedence = .factor)
    (hrhs : (readOperand c₁).Gives rhs c₂) (hf : (absorb x op rhs c₂).Gives f next) :
    BeginsTerm ts f next := by
  have h₁ := hop.left_lt
  have h₂ := hrhs.left_lt
  obtain ⟨y, c', -, hy, hends, hf⟩ :=
    absorb_operand sound (by omega) (sound.operand (by omega) hrhs) hf
  obtain ⟨rfl, rfl⟩ := absorb_of_endsPower hends (by rw [hkind]; decide) hf
  exact hx.times hop hkind hy hends

theorem BeginsTerm.readJuxtaposed (sound : SoundBelow n) (hn : c.left ≤ n)
    (hx : BeginsTerm ts x c) (hrhs : (readPrimary c).Gives rhs c₁)
    (hf : (absorb x (juxtaposition x rhs) rhs c₁).Gives f next) : BeginsTerm ts f next := by
  have h₁ := hrhs.left_lt
  obtain ⟨y, c', -, hy, hends, hf⟩ :=
    absorb_power sound (by omega) (readPrimary_made sound hn hrhs) hf
  obtain ⟨rfl, rfl⟩ := absorb_of_endsPower hends (Nat.le_refl _) hf
  exact hx.juxtaposed hrhs hy hends

theorem readOperations_term (sound : SoundBelow n) {c next : Cursor} {x f : Formula}
    {ts : List Lexeme} {prec : Precedence} (hn : c.left ≤ n) (hx : BeginsTerm ts x c)
    (hprec : prec ≤ .factor) (h : (readOperations x prec c).Gives f next) :
    ∃ y c', c'.left ≤ c.left ∧ Made .term ts y c' ∧ c'.EndsTerm ∧
      (readOperations y prec c').Gives f next := by
  cases readOperations_cases h with
  | @operator op c₁ c₂ c₃ rhs joined hop hprec' hrhs hjoined hmore =>
      have h₁ := hop.left_lt
      have h₂ := hrhs.left_lt
      have h₃ := hjoined.left_lt
      by_cases hterm : op.kind.precedence = .term
      · refine ⟨x, c, le_refl _, hx.term, ?_, h⟩
        refine ⟨fun op' c' hop' => ?_, Cursor.readPrimary_fails_of_operator hop⟩
        obtain ⟨rfl, -⟩ := hop.unique hop'
        exact hterm
      · have hkind := precedence_eq_factor (hx.ends op c₁ hop) hterm
        obtain ⟨y, c', hle, hy, hends, hmore⟩ := readOperations_term sound (by omega)
          (hx.readOperator sound hn hop hkind hrhs hjoined) hprec hmore
        exact ⟨y, c', by omega, hy, hends, hmore⟩
  | @juxtaposed c₁ c₂ rhs product _ hrhs hproduct hmore =>
      have h₁ := hrhs.left_lt
      have h₂ := hproduct.left_lt
      obtain ⟨y, c', hle, hy, hends, hmore⟩ := readOperations_term sound (by omega)
        (hx.readJuxtaposed sound hn hrhs hproduct) hprec hmore
      exact ⟨y, c', by omega, hy, hends, hmore⟩
  | stops hf hnext hstops =>
      refine ⟨x, c, le_refl _, hx.term, .of_stops hstops hprec fun kind hterm => ?_, h⟩
      exact Nat.le_trans hprec (factor_le_of_ne_term hterm)
termination_by c.left

/-- In a later term, what has been read takes in the factors that follow it. -/
theorem absorb_term (sound : SoundBelow n) {c next : Cursor} {lhs x f : Formula} {op : BinaryOp}
    {ts : List Lexeme} (hn : c.left ≤ n) (hx : BeginsTerm ts x c)
    (hprec : op.kind.precedence = .term) (h : (absorb lhs op x c).Gives f next) :
    ∃ y, f = join lhs op y ∧ Made .term ts y next ∧ next.EndsTerm := by
  cases absorb_cases h with
  | @operator following c₁ c₂ larger hop htakes hlarger h =>
      obtain ⟨rhs, c₃, joined, c₄, hrhs, hjoined, hlarger⟩ := readOperation_cases hlarger
      have h₁ := hop.left_lt
      have h₂ := hrhs.left_lt
      have h₃ := hjoined.left_lt
      have hkind : following.kind.precedence = .factor :=
        precedence_eq_factor (hx.ends following c₁ hop)
          (precedence_ne_term_of_takes htakes (by rw [hprec]; decide))
      obtain ⟨y, c', hle, hy, hends, hlarger⟩ := readOperations_term sound (by omega)
        (hx.readOperator sound hn hop hkind hrhs hjoined) (by rw [hkind]; decide) hlarger
      obtain ⟨rfl, rfl⟩ := readOperations_of_endsTerm hends (by rw [hkind]; decide) hlarger
      obtain ⟨rfl, rfl⟩ := absorb_of_endsTerm hends (by rw [hprec]; decide) h
      exact ⟨_, rfl, hy, hends⟩
  | @juxtaposed c₁ c₂ factor product _ hfactor hproduct h =>
      have h₁ := hfactor.left_lt
      have h₂ := hproduct.left_lt
      exact absorb_term sound (by omega) (hx.readJuxtaposed sound hn hfactor hproduct) hprec h
  | stops hf hnext hstops =>
      subst hf hnext
      refine ⟨x, rfl, hx.term, .of_stops hstops (by rw [hprec]; decide) fun kind hterm => ?_⟩
      left
      rw [hprec]
      exact Nat.lt_of_lt_of_le (by decide) (factor_le_of_ne_term hterm)
termination_by c.left

/-- Going on with a sum makes it a whole one. -/
theorem readOperations_sum (sound : SoundBelow n) {c next : Cursor} {x f : Formula}
    {ts : List Lexeme} (hn : c.left ≤ n) (hx : BeginsSum ts x c)
    (h : (readOperations x .any c).Gives f next) : Made .expr ts f next := by
  cases readOperations_cases h with
  | @operator op c₁ c₂ c₃ rhs joined hop _ hrhs hjoined h =>
      have h₁ := hop.left_lt
      have h₂ := hrhs.left_lt
      have h₃ := hjoined.left_lt
      obtain ⟨x', c', hle, hx', hends, hjoined⟩ :=
        absorb_operand sound (by omega) (sound.operand (by omega) hrhs) hjoined
      obtain ⟨y, rfl, hy, hends⟩ :=
        absorb_term sound (by omega) (.of_factor hx' hends) (hx.ends.operator op c₁ hop) hjoined
      exact readOperations_sum sound (by omega) (hx.plus hop hy hends) h
  | juxtaposed _ hrhs _ _ => exact absurd hx.ends.operand hrhs.not_fails
  | stops hf hnext _ =>
      subst hf hnext
      exact hx.expr
termination_by c.left

theorem readNegation_made (sound : SoundBelow n) (hn : c.left ≤ n)
    (h : (readNegation c).Gives f next) : Made .factor c.lexemes f next ∧ next.EndsPower := by
  obtain ⟨sign, c₁, x, c₂, operand, hsign, hx, hoperand, rfl⟩ := readNegation_cases h
  have h₁ := hsign.left_lt
  have h₂ := hx.left_lt
  obtain ⟨y, c', -, hy, hends, hoperand⟩ :=
    readOperations_operand sound (by omega) (sound.operand (by omega) hx) hoperand
  obtain ⟨rfl, rfl⟩ := readOperations_of_endsPower hends (by decide) hoperand
  exact ⟨hy.negation hsign rfl, hends⟩

theorem readOperand_isOperand (sound : SoundBelow n) (hn : c.left ≤ n)
    (h : (readOperand c).Gives f next) : IsOperand c.lexemes f next := by
  rcases readOperand_cases h with h | h
  · exact .inr (readNegation_made sound hn h)
  · exact .inl (readPrimary_made sound hn h)

end Readers

theorem soundBelow (n : Nat) : SoundBelow n := by
  induction n with
  | zero => exact ⟨fun h => absurd h (Nat.not_lt_zero _), fun h => absurd h (Nat.not_lt_zero _)⟩
  | succ n sound =>
      refine ⟨fun hn h => readOperand_isOperand sound (Nat.le_of_lt_succ hn) h, ?_⟩
      intro c next f hn h
      have hle : c.left ≤ n := Nat.le_of_lt_succ hn
      obtain ⟨x, c₁, hx, h⟩ := readExpr_cases h
      have h₁ := hx.left_lt
      obtain ⟨y, c₂, h₂, hy, hends, h⟩ :=
        readOperations_operand sound (by omega) (readOperand_isOperand sound hle hx) h
      obtain ⟨z, c₃, h₃, hz, hends', h⟩ :=
        readOperations_term sound (by omega) (.of_factor hy hends) (by decide) h
      exact readOperations_sum sound (by omega) (.of_term hz hends') h

/-- **What the readers read is derived by the grammar**, unless nothing can be read behind it. -/
theorem readExpr_made (h : (readExpr c).Gives f next) : Made .expr c.lexemes f next :=
  (soundBelow (c.left + 1)).expr (Nat.lt_succ_self _) h

end Formula

/-! ### Whole texts -/

theorem Cursor.lexemes_of_skipBlanks {c : Cursor} (h : c.skipBlanks.ahead = []) :
    c.lexemes = [] := by
  have hfrom (size : Nat) : ∀ (ahead : List Token) (last : Option Token),
      (skipFrom size last ahead).ahead = [] → ahead.filter (fun token => !token.isBlank) = [] := by
    intro ahead
    induction ahead with
    | nil => intro last _; rfl
    | cons token ahead ih =>
        intro last h
        rw [skipFrom] at h
        by_cases hblank : token.isBlank = true
        · rw [if_pos hblank] at h
          rw [List.filter_cons_of_neg (by simp [hblank])]
          exact ih _ h
        · rw [if_neg hblank] at h
          cases h
  rw [lexemes, hfrom c.size c.ahead c.last h]
  rfl

/-- A whole text is read if no token is left. -/
theorem Outcome.result_whole_eq_ok {α : Type} {n : Nat} {o : Outcome α n} {a : α} :
    o.whole.result = .ok a ↔ ∃ next, o.Gives a next ∧ next.lexemes = [] := by
  cases o with
  | done value next shorter =>
      rw [whole]
      constructor
      · intro h
        simp only at h
        split at h
        · next hahead =>
            cases h
            exact ⟨next, ⟨shorter, rfl⟩, Cursor.lexemes_of_skipBlanks hahead⟩
        · cases h
      · rintro ⟨next', ⟨_, heq⟩, hlexemes⟩
        cases heq
        have hahead := Cursor.ahead_skipBlanks hlexemes
        simp only
        split
        · rfl
        · next heq =>
            rw [hahead] at heq
            cases heq
  | failed error stopped =>
      constructor
      · intro h
        cases h
      · rintro ⟨next, ⟨_, heq⟩, -⟩
        cases heq

namespace Formula

variable {c next : Cursor} {f : Formula}

/-- Where no token is left, what was read is derived. -/
theorem derives_of_readExpr (h : (readExpr c).Gives f next) (hnext : next.lexemes = []) :
    Derives .expr c.lexemes f.phrase [] := by
  rw [← hnext]
  refine (readExpr_made h).derives fun hblocked => ?_
  obtain ⟨l, ls, hls, -⟩ := hblocked.opening
  rw [hnext] at hls
  cases hls

end Formula

namespace Equation

variable {c next : Cursor} {e : Equation}

theorem read_cases (h : (read c).Gives e next) :
    ∃ c₁ token c₂, (Formula.readExpr c).Gives e.lhs c₁ ∧ (c₁.expect .assign).Gives token c₂ ∧
      (Formula.readExpr c₂).Gives e.rhs next := by
  rw [read] at h
  split at h
  · exact absurd ⟨_, _, rfl⟩ h.not_fails
  · next lhs c₁ h₁ hlhs =>
      split at h
      · exact absurd ⟨_, _, rfl⟩ h.not_fails
      · next token c₂ h₂ htoken =>
          split at h
          · exact absurd ⟨_, _, rfl⟩ h.not_fails
          · next rhs c₃ h₃ hrhs =>
              obtain ⟨_, heq⟩ := h
              cases heq
              exact ⟨c₁, token, c₂, ⟨_, hlhs⟩, ⟨_, htoken⟩, ⟨_, hrhs⟩⟩

theorem read_gives {c₁ c₂ : Cursor} {lhs rhs : Formula} {token : Token}
    (hlhs : (Formula.readExpr c).Gives lhs c₁) (htoken : (c₁.expect .assign).Gives token c₂)
    (hrhs : (Formula.readExpr c₂).Gives rhs next) :
    ∃ e, (read c).Gives e next ∧ e.lhs = lhs ∧ e.rhs = rhs := by
  obtain ⟨h₁, hlhs⟩ := hlhs
  obtain ⟨h₂, htoken⟩ := htoken
  obtain ⟨h₃, hrhs⟩ := hrhs
  refine ⟨⟨lhs, rhs, ⟨lhs.span.start, rhs.span.stop⟩⟩, ⟨by omega, ?_⟩, rfl, rfl⟩
  rw [read, hlhs]
  simp only [htoken, hrhs]

/-- **Reading an equation accepts two expressions with an equals sign between them**, and nothing
else. -/
theorem exists_parse_iff {text : String} {p q : Phrase} :
    (∃ e, parse text = .ok e ∧ e.lhs.phrase = p ∧ e.rhs.phrase = q) ↔
      ∃ sign rest, sign.kind = .assign ∧
        Derives .expr (Token.lexemes text.toList) p (sign :: rest) ∧ Derives .expr rest q [] := by
  constructor
  · rintro ⟨e, h, rfl, rfl⟩
    obtain ⟨next, hread, hnext⟩ := Outcome.result_whole_eq_ok.mp h
    obtain ⟨c₁, token, c₂, hlhs, htoken, hrhs⟩ := read_cases hread
    obtain ⟨hlhs, hkind⟩ :=
      (Formula.readExpr_made hlhs).derives_of_expect htoken (by decide)
    rw [Token.lexemes_ofText] at hlhs
    exact ⟨token.lexed, c₂.lexemes, hkind, hlhs, Formula.derives_of_readExpr hrhs hnext⟩
  · rintro ⟨sign, rest, hkind, hp, hq⟩
    have hprecedes : Production.expr.Precedes (sign :: rest) :=
      Production.precedes_cons (by rw [hkind]; decide)
    obtain ⟨lhs, c₁, hlhs, rfl, hc₁⟩ :=
      hp.reads hprecedes (.ofText text) (Token.lexemes_ofText text)
    obtain ⟨token, c₂, htoken, -, hc₂⟩ := Cursor.expect_gives hc₁ hkind
    obtain ⟨rhs, next, hrhs, rfl, hnext⟩ := hq.reads (by rintro _ ⟨⟩) c₂ hc₂
    obtain ⟨e, hread, rfl, rfl⟩ := read_gives hlhs htoken hrhs
    exact ⟨e, Outcome.result_whole_eq_ok.mpr ⟨next, hread, hnext⟩, rfl, rfl⟩

end Equation

namespace Formula

/-- Reading a text gives the phrases that the grammar derives from its tokens. -/
theorem exists_parse_iff {text : String} {p : Phrase} :
    (∃ f, parse text = .ok f ∧ f.phrase = p) ↔
      Derives .expr (Token.lexemes text.toList) p [] := by
  refine ⟨?_, parse_of_derives⟩
  rintro ⟨f, h, rfl⟩
  obtain ⟨next, hread, hnext⟩ := Outcome.result_whole_eq_ok.mp h
  rw [← Token.lexemes_ofText]
  exact derives_of_readExpr hread hnext

/-- The grammar derives no more than one phrase from the tokens of a text. -/
theorem eq_of_derives {text : String} {p q : Phrase}
    (hp : Derives .expr (Token.lexemes text.toList) p [])
    (hq : Derives .expr (Token.lexemes text.toList) q []) : p = q := by
  obtain ⟨f, hf, rfl⟩ := parse_of_derives hp
  obtain ⟨g, hg, rfl⟩ := parse_of_derives hq
  rw [hf] at hg
  cases hg
  rfl

/-- **Reading accepts exactly what the grammar derives, and builds what it derives.**  A text is
read if its tokens, without the blanks, make up an expression; there is one phrase then that they
make up, and the formula that is read is that phrase.  Two expressions with an equals sign between
them are read as an equation in the same way. -/
theorem parse_recognizes (text : String) :
    ((∃ f, parse text = .ok f) ↔ ∃! p, Derives .expr (Token.lexemes text.toList) p []) ∧
    (∀ p, (∃ f, parse text = .ok f ∧ f.phrase = p) ↔
      Derives .expr (Token.lexemes text.toList) p []) ∧
    ∀ p q, (∃ e, Equation.parse text = .ok e ∧ e.lhs.phrase = p ∧ e.rhs.phrase = q) ↔
      ∃ sign rest, sign.kind = .assign ∧
        Derives .expr (Token.lexemes text.toList) p (sign :: rest) ∧ Derives .expr rest q [] := by
  refine ⟨⟨?_, ?_⟩, fun p => exists_parse_iff, fun p q => Equation.exists_parse_iff⟩
  · rintro ⟨f, hf⟩
    have hp := exists_parse_iff.mp ⟨f, hf, rfl⟩
    exact ⟨f.phrase, hp, fun q hq => eq_of_derives hq hp⟩
  · rintro ⟨p, hp, -⟩
    obtain ⟨f, hf, -⟩ := exists_parse_iff.mpr hp
    exact ⟨f, hf⟩

end Formula

/-- Reading a text gives the tree of the phrase that the grammar derives. -/
theorem Expr.parse_eq_ok_iff {text : String} {e : Expr} : Expr.parse text = .ok e ↔
    ∃ p, Derives .expr (Token.lexemes text.toList) p [] ∧ p.expr? = some e := by
  constructor
  · intro h
    obtain ⟨f, hf, he⟩ := bind_eq_ok.mp h
    exact ⟨f.phrase, Formula.exists_parse_iff.mp ⟨f, hf, rfl⟩, ofFormula_eq_ok.mp he⟩
  · rintro ⟨p, hderives, he⟩
    exact parse_of_derives hderives he

end AlgebraTutor
