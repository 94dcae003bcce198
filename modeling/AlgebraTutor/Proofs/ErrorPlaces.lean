/-
Errors are told with their place.

A text that is refused is refused for something in it.  The error has one place, which is the place
of a token, or the empty place behind the last one.  What comes after reading cannot fail: the only
thing in a formula that might have no tree is a number, and every number comes from a token whose
pattern admits nothing but digits and a point with digits behind it.

Of the places there is one that is not what it seems.  A parenthesis without partner is reported at
that parenthesis, unless it is a closing one with nothing but blanks in front of it, in the text or
behind the equals sign.  Blanks are passed over to find the parenthesis, but the place that is
reported is where the reader stands, and that is the first of the blanks.
-/
import AlgebraTutor.Proofs.DecimalExpansions
import AlgebraTutor.Proofs.DerivedParts
import AlgebraTutor.Proofs.ExactSpans
import AlgebraTutor.Proofs.ReaderErrors

namespace AlgebraTutor

/-! ### Places in a text -/

/-- The empty place behind the last token of the text. -/
def Token.endOf (text : String) : Span :=
  match (Token.scan text).getLast? with
  | some last => ⟨last.span.stop, last.span.stop⟩
  | none => ⟨0, 0⟩

/-- The place of a token of the text, or else the empty place behind the last one. -/
def Span.IsPlace (text : String) (span : Span) : Prop :=
  (∃ token ∈ Token.scan text, token.span = span) ∨ span = Token.endOf text

/-- The causes for which a text can be refused. -/
def Cause.IsSyntactic : Cause → Prop
  | unexpectedEof | expectedEof | unexpectedToken _ _ | unclosedParenthesis _ | emptyParenthesis
  | expectedEquation => True
  | missingUnknown | malformedRule _ | invalidInput _ | notAnEquation => False

/-- The error tells what is wrong with the text, and at one place in it. -/
structure Error.IsLocated (text : String) (error : Error) : Prop where
  syntactic : error.cause.IsSyntactic
  place : ∃ span, error.spans = [span] ∧ span.IsPlace text

section Places

variable {text : String} {begins : Cursor → Prop} {c : Cursor} {error : Error}

theorem Cursor.endSpan_ofText (text : String) : (ofText text).endSpan = Token.endOf text := by
  rw [endSpan, ofText, Token.endOf]
  cases (Token.scan text).getLast? <;> rfl

/-- The tokens ahead are tokens of the text. -/
theorem Cursor.LeadsTo.mem_scan (h : (ofText text).LeadsTo c) {token : Token}
    (htoken : token ∈ c.ahead) : token ∈ Token.scan text :=
  h.suffix.subset htoken

theorem Cursor.LeadsTo.mem_scan_of_mem_tokens (h : (ofText text).LeadsTo c) {token : Token}
    (htoken : token ∈ c.tokens) : token ∈ Token.scan text :=
  h.mem_scan (List.mem_of_mem_filter htoken)

theorem Cursor.LeadsTo.isPlace_span (h : (ofText text).LeadsTo c) : c.span.IsPlace text := by
  unfold span
  split
  · next token rest hahead => exact .inl ⟨token, h.mem_scan (hahead ▸ .head _), rfl⟩
  · exact .inr (by rw [← endSpan_ofText, endSpan, h.size]; rfl)

/-- What is left over is a token of the text. -/
theorem Cursor.LeadsTo.exists_leftOver (hc : (ofText text).LeadsTo c) (h : c.LeavesOver error) :
    ∃ token ∈ Token.scan text, error = (if token.kind = .closeParen
      then Cause.unclosedParenthesis false else Cause.expectedEof).located token.span := by
  obtain ⟨token, rest, hahead, rfl⟩ := h
  exact ⟨token, (hc.trans (leadsTo_skipBlanks c)).mem_scan (hahead ▸ .head _), rfl⟩

theorem Cursor.Reports.isLocated (h : c.Reports error) (hc : (ofText text).LeadsTo c) :
    error.IsLocated text := by
  cases h with
  | ended =>
      refine ⟨trivial, _, rfl, .inr ?_⟩
      rw [← endSpan_ofText, endSpan, hc.size]
      rfl
  | unexpected htoken _ =>
      exact ⟨trivial, _, rfl, .inl ⟨_, hc.mem_scan_of_mem_tokens htoken, rfl⟩⟩
  | unclosed htoken _ =>
      exact ⟨trivial, _, rfl, .inl ⟨_, hc.mem_scan_of_mem_tokens htoken, rfl⟩⟩
  | empty hbefore hopening _ =>
      exact ⟨trivial, _, rfl, ((hc.trans hbefore).trans (leadsTo_of_expect hopening)).isPlace_span⟩

theorem Refused.isLocated (h : Refused text begins error)
    (hbegins : ∀ c, begins c → (Cursor.ofText text).LeadsTo c) : error.IsLocated text := by
  cases h with
  | closing hc _ => exact ⟨trivial, _, rfl, (hbegins _ hc).isPlace_span⟩
  | inside hc h => exact h.isLocated (hbegins _ hc)
  | unequal hc => exact ⟨trivial, _, rfl, hc.isPlace_span⟩
  | leftOver hc h =>
      obtain ⟨token, htoken, rfl⟩ := hc.exists_leftOver h
      refine ⟨?_, _, rfl, .inl ⟨token, htoken, rfl⟩⟩
      show Cause.IsSyntactic (if _ then _ else _)
      split <;> trivial

end Places

/-! ### Trees of what was read -/

/-- **The patterns of numbers agree with the reader of their digits.** -/
theorem TokenKind.exists_decimal?_of_mem_pattern {kind : TokenKind} {w : List Char}
    (hw : w ∈ kind.pattern) (hkind : kind = .int ∨ kind = .float) :
    ∃ q, decimal? w = some q := by
  rcases hkind with rfl | rfl
  · obtain ⟨c, rest, rfl, hc, hrest⟩ := (isClass_digit.mem_mul_kstar isClass_digit).mp hw
    exact ⟨_, decimal?_eq_some_iff.mpr
      (.whole (List.cons_ne_nil c rest) (List.forall_mem_cons.mpr ⟨hc, hrest⟩))⟩
  · obtain ⟨whole, c, places, rfl, hwhole, hc, hplaces⟩ := mem_pattern_float.mp hw
    exact ⟨_, decimal?_eq_some_iff.mpr (.pointed (by simp)
      (List.forall_mem_append.mpr ⟨hwhole, List.forall_mem_cons.mpr ⟨hc, hplaces⟩⟩))⟩

namespace Phrase

variable {p q : Phrase} {ps : List Phrase}

/-- The phrase has a tree. -/
def HasTree (p : Phrase) : Prop := ∃ e, p.expr? = some e

theorem HasTree.neg (h : p.HasTree) : (neg p).HasTree := by
  obtain ⟨e, he⟩ := h
  exact ⟨_, by rw [expr?, he]; rfl⟩

theorem HasTree.binary (hp : p.HasTree) (hq : q.HasTree) (kind : BinaryKind) (i : Bool) :
    (binary p kind i q).HasTree := by
  obtain ⟨e, he⟩ := hp
  obtain ⟨f, hf⟩ := hq
  exact ⟨_, by rw [expr?, he, hf]; rfl⟩

theorem exists_exprs? (h : ∀ p ∈ ps, p.HasTree) : ∃ es, exprs? ps = some es := by
  induction ps with
  | nil => exact ⟨[], rfl⟩
  | cons p ps ih =>
      obtain ⟨⟨e, he⟩, hps⟩ := List.forall_mem_cons.mp h
      obtain ⟨es, hes⟩ := ih hps
      exact ⟨e :: es, by rw [exprs?, he, hes]; rfl⟩

theorem HasTree.call (h : ∀ p ∈ ps, p.HasTree) (name : String) : (call name ps).HasTree := by
  obtain ⟨es, hes⟩ := exists_exprs? h
  exact ⟨_, by rw [expr?, hes]; rfl⟩

/-- What is written with the tokens of a text has a tree. -/
theorem compositional_hasTree : Compositional Lexeme.Fits HasTree where
  number hl hkind := by
    obtain ⟨q, hq⟩ := TokenKind.exists_decimal?_of_mem_pattern hl hkind
    exact ⟨.const q, by rw [expr?, hq]; rfl⟩
  symbol _ _ := ⟨_, rfl⟩
  member _ _ _ _ := ⟨_, rfl⟩
  paren hp := hp
  call _ _ hps := .call hps _
  neg hp := hp.neg
  binary kind i hp hq := hp.binary hq kind i

end Phrase

namespace Expr

variable {text : String} {error : Error}

theorem exists_ofFormula {f : Formula} {ts rest : List Lexeme}
    (h : Derives .expr ts f.phrase rest) (hts : ∀ l ∈ ts, l.Fits) : ∃ e, ofFormula f = .ok e := by
  obtain ⟨e, he⟩ := h.holds Phrase.compositional_hasTree hts trivial
  exact ⟨e, ofFormula_eq_ok.mpr he⟩

/-- A formula that was read has a tree. -/
theorem exists_ofFormula_of_parse {f : Formula} (h : Formula.parse text = .ok f) :
    ∃ e, ofFormula f = .ok e :=
  exists_ofFormula (Formula.exists_parse_iff.mp ⟨f, h, rfl⟩) (Token.fits_lexemes text)

theorem exists_ofFormula_of_parseEquation {e : Equation} (h : Equation.parse text = .ok e) :
    (∃ lhs, ofFormula e.lhs = .ok lhs) ∧ ∃ rhs, ofFormula e.rhs = .ok rhs := by
  obtain ⟨sign, rest, -, hlhs, hrhs⟩ := Equation.exists_parse_iff.mp ⟨e, h, rfl, rfl⟩
  have htext := Token.fits_lexemes text
  exact ⟨exists_ofFormula hlhs htext, exists_ofFormula hrhs fun l hl =>
    htext l (hlhs.suffix.subset (.tail _ hl))⟩

/-- No error comes from what is done with a formula after it was read. -/
theorem parse_eq_error_iff : parse text = .error error ↔ Formula.parse text = .error error := by
  rw [parse]
  cases h : Formula.parse text with
  | error error' => simp [bind, Except.bind]
  | ok f =>
      obtain ⟨e, he⟩ := exists_ofFormula_of_parse h
      simp [bind, Except.bind, he]

theorem parseEquation_eq_error_iff :
    parseEquation text = .error error ↔ Equation.parse text = .error error := by
  rw [parseEquation]
  cases h : Equation.parse text with
  | error error' => simp [bind, Except.bind]
  | ok e =>
      obtain ⟨⟨lhs, hlhs⟩, rhs, hrhs⟩ := exists_ofFormula_of_parseEquation h
      simp [bind, Except.bind, pure, Except.pure, hlhs, hrhs]

end Expr

/-- **Errors of reading are located.**  A text that is not read as an expression, or not as an
equation, is refused for one of six causes, at one place: that of one of its tokens, or the empty
place behind the last of them.  What was read has a tree, and so have the two sides of an equation.
So the tree of a text is refused exactly if the text is, with the same error, and never because a
number could not be read. -/
theorem parseErrors_areLocated (text : String) :
    (∀ error, Formula.parse text = .error error ∨ Equation.parse text = .error error →
      error.IsLocated text) ∧
    (∀ f, Formula.parse text = .ok f → ∃ e, Expr.ofFormula f = .ok e) ∧
    (∀ e, Equation.parse text = .ok e →
      (∃ lhs, Expr.ofFormula e.lhs = .ok lhs) ∧ ∃ rhs, Expr.ofFormula e.rhs = .ok rhs) ∧
    (∀ error, Expr.parse text = .error error ↔ Formula.parse text = .error error) ∧
    (∀ error, Expr.parseEquation text = .error error ↔ Equation.parse text = .error error) ∧
    ∀ error input, Expr.parse text = .error error ∨ Expr.parseEquation text = .error error →
      error.cause ≠ .invalidInput input := by
  have hlocated (error : Error)
      (h : Formula.parse text = .error error ∨ Equation.parse text = .error error) :
      error.IsLocated text := by
    rcases h with h | h
    · exact (Formula.refused_of_parse h).isLocated fun c hc => hc ▸ .refl _
    · exact (Equation.refused_of_parse h).isLocated fun c hc => hc.leadsTo
  refine ⟨hlocated, fun f => Expr.exists_ofFormula_of_parse, fun e =>
    Expr.exists_ofFormula_of_parseEquation, fun error => Expr.parse_eq_error_iff, fun error =>
    Expr.parseEquation_eq_error_iff, fun error input h hcause => ?_⟩
  rw [Expr.parse_eq_error_iff, Expr.parseEquation_eq_error_iff] at h
  have hsyntactic := (hlocated error h).syntactic
  rw [hcause] at hsyntactic
  exact hsyntactic

/-- Empty parentheses are reported at what stands behind the opening one, and a sign that is missing
at the end of the text.  Both sides of an equation have a tree. -/
theorem parseErrors_areLocated_parentheses :
    (Formula.parse "2 * ()" = .error (Cause.emptyParenthesis.located ⟨5, 6⟩) ∧
      (Cause.emptyParenthesis.located ⟨5, 6⟩).IsLocated "2 * ()") ∧
    (Equation.parse "x" = .error (Cause.expectedEquation.located ⟨1, 1⟩) ∧
      (Cause.expectedEquation.located ⟨1, 1⟩).IsLocated "x") ∧
    (∃ f, Formula.parse ".5" = .ok f ∧ ∃ e, Expr.ofFormula f = .ok e) ∧
    (∃ e, Equation.parse "x=2" = .ok e ∧
      (∃ lhs, Expr.ofFormula e.lhs = .ok lhs) ∧ ∃ rhs, Expr.ofFormula e.rhs = .ok rhs) ∧
    (Cause.emptyParenthesis.located ⟨5, 6⟩).cause ≠ .invalidInput "2" := by
  have hempty : Formula.parse "2 * ()" = .error (Cause.emptyParenthesis.located ⟨5, 6⟩) := by
    have htext : Cursor.ofText "2 * ()" = ⟨none, [⟨.int, "2", ⟨0, 1⟩⟩, ⟨.whitespace, " ", ⟨1, 2⟩⟩,
        ⟨.mul, "*", ⟨2, 3⟩⟩, ⟨.whitespace, " ", ⟨3, 4⟩⟩, ⟨.openParen, "(", ⟨4, 5⟩⟩,
        ⟨.closeParen, ")", ⟨5, 6⟩⟩], 6⟩ := by cbv
    rw [Formula.parse, htext]
    cbv
  have hsign : Equation.parse "x" = .error (Cause.expectedEquation.located ⟨1, 1⟩) := by
    have htext : Cursor.ofText "x" = ⟨none, [⟨.name, "x", ⟨0, 1⟩⟩], 1⟩ := by cbv
    rw [Equation.parse, htext]
    cbv
  have hnumber : Formula.parse ".5" = .ok (.number ".5" ⟨0, 2⟩) := by
    have htext : Cursor.ofText ".5" = ⟨none, [⟨.float, ".5", ⟨0, 2⟩⟩], 2⟩ := by cbv
    rw [Formula.parse, htext]
    cbv
  have hequation : Equation.parse "x=2" =
      .ok ⟨.symbol ⟨"x", ⟨0, 1⟩⟩, .number "2" ⟨2, 3⟩, ⟨0, 3⟩⟩ := by
    have htext : Cursor.ofText "x=2" = ⟨none, [⟨.name, "x", ⟨0, 1⟩⟩, ⟨.assign, "=", ⟨1, 2⟩⟩,
        ⟨.int, "2", ⟨2, 3⟩⟩], 3⟩ := by cbv
    rw [Equation.parse, htext]
    cbv
  obtain ⟨hlocated, -, -, hexpr, -, hdigits⟩ := parseErrors_areLocated "2 * ()"
  exact ⟨⟨hempty, hlocated _ (.inl hempty)⟩,
    ⟨hsign, (parseErrors_areLocated "x").1 _ (.inr hsign)⟩,
    ⟨_, hnumber, (parseErrors_areLocated ".5").2.1 _ hnumber⟩,
    ⟨_, hequation, (parseErrors_areLocated "x=2").2.2.1 _ hequation⟩,
    hdigits _ _ (.inl ((hexpr _).mpr hempty))⟩

/-! ### Parentheses without partner -/

/-- The error is at a token of this kind. -/
def Error.PointsAt (text : String) (kind : TokenKind) (error : Error) : Prop :=
  ∃ token ∈ Token.scan text, token.kind = kind ∧ error.spans = [token.span]

/-- There is a blank here, and the next token that is none is a closing parenthesis. -/
def Cursor.HidesClosing (c : Cursor) : Prop :=
  (∃ blank ∈ c.ahead.head?, blank.isBlank = true) ∧ c.sees .closeParen = true

section Parentheses

variable {text : String} {begins : Cursor → Prop} {c : Cursor} {error : Error}

/-- No two tokens of a text are in the same place. -/
theorem Token.eq_of_span_eq {t u : Token} (ht : t ∈ scan text) (hu : u ∈ scan text)
    (hspan : t.span = u.span) : t = u := by
  have horder : InOrder (scan text) := (cuts_scanFrom 0 text.toList).consecutive.inOrder
  have hapart : ((scan text).map span).Nodup := by
    refine List.pairwise_map.mpr (horder.inOrder.imp_of_mem fun {t u} ht _ hle heq => ?_)
    have hlt := horder.nonempty t ht
    rw [← heq] at hle
    omega
  exact List.inj_on_of_nodup_map hapart ht hu hspan

/-- What is reported in front of a hidden parenthesis is a blank. -/
theorem Cursor.HidesClosing.exists_blank (h : c.HidesClosing) (hc : (ofText text).LeadsTo c) :
    ∃ blank ∈ Token.scan text, blank.isBlank = true ∧ c.span = blank.span := by
  obtain ⟨⟨blank, hblank, hkind⟩, -⟩ := h
  obtain ⟨rest, hahead⟩ := List.head?_eq_some_iff.mp hblank
  exact ⟨blank, hc.mem_scan (hahead ▸ .head _), hkind, by rw [span, hahead]⟩

theorem Error.not_pointsAt_of_blank {blank : Token} {cause : Cause} (hmem : blank ∈ Token.scan text)
    (hblank : blank.isBlank = true) : ¬(cause.located blank.span).PointsAt text .closeParen := by
  rintro ⟨token, htoken, hkind, hspans⟩
  have hsame : blank = token := Token.eq_of_span_eq hmem htoken (List.singleton_injective hspans)
  rw [hsame, Token.isBlank, hkind] at hblank
  cases hblank

/-- A closing parenthesis that is not hidden is what is reported. -/
theorem Cursor.pointsAt_of_sees (hc : (ofText text).LeadsTo c) (hsees : c.sees .closeParen = true)
    (hhides : ¬c.HidesClosing) :
    ((Cause.unclosedParenthesis false).located c.span).PointsAt text .closeParen := by
  obtain ⟨closing, hcurrent, hkind⟩ := (Option.any_eq_true _ _).mp hsees
  cases hahead : c.ahead with
  | nil =>
      rw [current?, hahead] at hcurrent
      cases hcurrent
  | cons first rest =>
      have hfirst : first.isBlank = false := by
        by_contra hblank
        exact hhides ⟨⟨first, by rw [hahead]; rfl, by simpa using hblank⟩, hsees⟩
      rw [current?, hahead, List.find?_cons_of_pos (by simp [hfirst])] at hcurrent
      obtain rfl : first = closing := Option.some.inj hcurrent
      exact ⟨first, hc.mem_scan (hahead ▸ .head _), by simpa using hkind, by rw [span, hahead]; rfl⟩

/-- A parenthesis that is opened and not closed is reported where it is, and so is a closing one if
none is hidden where the reading of an expression begins. -/
theorem Refused.pointsAt {opening : Bool} (h : Refused text begins error)
    (hbegins : ∀ c, begins c → (Cursor.ofText text).LeadsTo c)
    (hcause : error.cause = .unclosedParenthesis opening) :
    opening = true ∧ error.PointsAt text .openParen ∨
      opening = false ∧ ((∀ c, begins c → ¬c.HidesClosing) → error.PointsAt text .closeParen) := by
  cases h with
  | @closing c hc hsees =>
      cases hcause
      exact .inr ⟨rfl, fun hhides => Cursor.pointsAt_of_sees (hbegins c hc) hsees (hhides c hc)⟩
  | @inside c _ hc h =>
      cases h with
      | @unclosed token htoken hkind =>
          cases hcause
          exact .inl ⟨rfl, token, (hbegins c hc).mem_scan_of_mem_tokens htoken, hkind, rfl⟩
      | _ => cases hcause
  | unequal _ => cases hcause
  | leftOver hc h =>
      obtain ⟨token, htoken, rfl⟩ := hc.exists_leftOver h
      by_cases hkind : token.kind = .closeParen
      · rw [if_pos hkind] at hcause ⊢
        cases hcause
        exact .inr ⟨rfl, fun _ => ⟨token, htoken, hkind, rfl⟩⟩
      · rw [if_neg hkind] at hcause
        cases hcause

/-- If a hidden parenthesis is always what is reported, then the error is at the parenthesis that
has no partner exactly if none is hidden. -/
theorem Refused.pointsAt_iff (h : Refused text begins error)
    (hbegins : ∀ c, begins c → (Cursor.ofText text).LeadsTo c)
    (hhidden : ∀ c, begins c → c.HidesClosing →
      error = (Cause.unclosedParenthesis false).located c.span) :
    (error.cause = .unclosedParenthesis true → error.PointsAt text .openParen) ∧
    (error.cause = .unclosedParenthesis false →
      (error.PointsAt text .closeParen ↔ ∀ c, begins c → ¬c.HidesClosing)) := by
  refine ⟨fun hcause => ?_, fun hcause => ⟨fun hpoints c hc hhides => ?_, ?_⟩⟩
  · exact ((h.pointsAt hbegins hcause).resolve_right fun hclosing => Bool.noConfusion hclosing.1).2
  · obtain ⟨blank, hmem, hblank, hspan⟩ := hhides.exists_blank (hbegins c hc)
    rw [hhidden c hc hhides, hspan] at hpoints
    exact Error.not_pointsAt_of_blank hmem hblank hpoints
  · exact ((h.pointsAt hbegins hcause).resolve_left fun hopening => Bool.noConfusion hopening.1).2

end Parentheses

/-- **A parenthesis without partner is reported where it is, unless it is hidden.**  If an opening
one has no partner, the error is at an opening parenthesis.  If a closing one has none, the error is
at a closing parenthesis exactly if neither the text nor, for equations, what is behind the equals
sign of a text with a readable left side begins with blanks and a closing parenthesis.  Where it
does, this is what the text is refused for, and the error is at a blank. -/
theorem unclosedParenthesis_isPointedAt_iff (text : String) :
    (∀ error, Formula.parse text = .error error →
      (error.cause = .unclosedParenthesis true → error.PointsAt text .openParen) ∧
      (error.cause = .unclosedParenthesis false →
        (error.PointsAt text .closeParen ↔ ¬(Cursor.ofText text).HidesClosing))) ∧
    (∀ error, Equation.parse text = .error error →
      (error.cause = .unclosedParenthesis true → error.PointsAt text .openParen) ∧
      (error.cause = .unclosedParenthesis false →
        (error.PointsAt text .closeParen ↔ ∀ c, Equation.Begins text c → ¬c.HidesClosing))) ∧
    ((Cursor.ofText text).HidesClosing → ∃ blank ∈ Token.scan text, blank.isBlank = true ∧
      Formula.parse text = .error ((Cause.unclosedParenthesis false).located blank.span)) ∧
    ∀ c, Equation.Begins text c → c.HidesClosing →
      ∃ blank ∈ Token.scan text, blank.isBlank = true ∧
        Equation.parse text = .error ((Cause.unclosedParenthesis false).located blank.span) := by
  refine ⟨fun error h => ?_, fun error h => ?_, fun hhides => ?_, fun c hc hhides => ?_⟩
  · have hpoints := (Formula.refused_of_parse h).pointsAt_iff (fun c hc => hc ▸ .refl _) (by
      rintro c rfl hhides
      exact Except.error.inj (h.symm.trans (Formula.parse_of_sees hhides.2)))
    rwa [forall_eq] at hpoints
  · exact (Equation.refused_of_parse h).pointsAt_iff (fun c hc => hc.leadsTo) fun c hc hhides =>
      Except.error.inj (h.symm.trans (Equation.parse_of_sees hc hhides.2))
  · obtain ⟨blank, hmem, hblank, hspan⟩ := hhides.exists_blank (.refl _)
    exact ⟨blank, hmem, hblank, hspan ▸ Formula.parse_of_sees hhides.2⟩
  · obtain ⟨blank, hmem, hblank, hspan⟩ := hhides.exists_blank hc.leadsTo
    exact ⟨blank, hmem, hblank, hspan ▸ Equation.parse_of_sees hc hhides.2⟩

/-- The parenthesis in `(x` is not closed, and the one in `x)` is not opened.  Both are reported
where they are, but behind the equals sign of `x = )` a blank is reported. -/
theorem unclosedParenthesis_isPointedAt_sides :
    (Formula.parse "(x" = .error ((Cause.unclosedParenthesis true).located ⟨0, 1⟩) ∧
      ((Cause.unclosedParenthesis true).located ⟨0, 1⟩).PointsAt "(x" .openParen) ∧
    (Formula.parse "x)" = .error ((Cause.unclosedParenthesis false).located ⟨1, 2⟩) ∧
      ((Cause.unclosedParenthesis false).located ⟨1, 2⟩).PointsAt "x)" .closeParen) ∧
    ((∃ c, Equation.Begins "x = )" c ∧ c.HidesClosing) ∧
      ∃ blank ∈ Token.scan "x = )", blank.isBlank = true ∧
        Equation.parse "x = )" = .error ((Cause.unclosedParenthesis false).located blank.span) ∧
        ¬((Cause.unclosedParenthesis false).located blank.span).PointsAt "x = )" .closeParen) := by
  have hopening :
      Formula.parse "(x" = .error ((Cause.unclosedParenthesis true).located ⟨0, 1⟩) := by
    have htext : Cursor.ofText "(x" =
        ⟨none, [⟨.openParen, "(", ⟨0, 1⟩⟩, ⟨.name, "x", ⟨1, 2⟩⟩], 2⟩ := by cbv
    rw [Formula.parse, htext]
    cbv
  have hclosing : Cursor.ofText "x)" =
      ⟨none, [⟨.name, "x", ⟨0, 1⟩⟩, ⟨.closeParen, ")", ⟨1, 2⟩⟩], 2⟩ := by cbv
  have hleft : Formula.parse "x)" = .error ((Cause.unclosedParenthesis false).located ⟨1, 2⟩) := by
    rw [Formula.parse, hclosing]
    cbv
  have hshown : ¬(Cursor.ofText "x)").HidesClosing := by
    rintro ⟨⟨blank, hblank, hkind⟩, -⟩
    rw [hclosing] at hblank
    cases hblank
    cases hkind
  have hbegins : Equation.Begins "x = )" ⟨some ⟨.assign, "=", ⟨2, 3⟩⟩,
      [⟨.whitespace, " ", ⟨3, 4⟩⟩, ⟨.closeParen, ")", ⟨4, 5⟩⟩], 5⟩ := by
    have htext : Cursor.ofText "x = )" = ⟨none, [⟨.name, "x", ⟨0, 1⟩⟩, ⟨.whitespace, " ", ⟨1, 2⟩⟩,
        ⟨.assign, "=", ⟨2, 3⟩⟩, ⟨.whitespace, " ", ⟨3, 4⟩⟩, ⟨.closeParen, ")", ⟨4, 5⟩⟩], 5⟩ := by
      cbv
    have hlhs : (Formula.readExpr (.ofText "x = )")).Gives (.symbol ⟨"x", ⟨0, 1⟩⟩)
        ⟨some ⟨.name, "x", ⟨0, 1⟩⟩, [⟨.whitespace, " ", ⟨1, 2⟩⟩, ⟨.assign, "=", ⟨2, 3⟩⟩,
          ⟨.whitespace, " ", ⟨3, 4⟩⟩, ⟨.closeParen, ")", ⟨4, 5⟩⟩], 5⟩ := by
      rw [htext]
      exact ⟨by decide, by cbv⟩
    exact .rhs hlhs ⟨by decide, rfl⟩
  have hhides : (⟨some ⟨.assign, "=", ⟨2, 3⟩⟩,
      [⟨.whitespace, " ", ⟨3, 4⟩⟩, ⟨.closeParen, ")", ⟨4, 5⟩⟩], 5⟩ : Cursor).HidesClosing :=
    ⟨⟨_, rfl, rfl⟩, rfl⟩
  obtain ⟨-, hequation, -, hhidden⟩ := unclosedParenthesis_isPointedAt_iff "x = )"
  obtain ⟨blank, hmem, hblank, hright⟩ := hhidden _ hbegins hhides
  exact ⟨⟨hopening, ((unclosedParenthesis_isPointedAt_iff "(x").1 _ hopening).1 rfl⟩,
    ⟨hleft, (((unclosedParenthesis_isPointedAt_iff "x)").1 _ hleft).2 rfl).mpr hshown⟩,
    ⟨_, hbegins, hhides⟩, blank, hmem, hblank, hright,
    fun hpoints => ((hequation _ hright).2 rfl).mp hpoints _ hbegins hhides⟩

/-- The text ` )` is refused for the parenthesis, at the blank in front of it. -/
theorem unclosedParenthesis_behindBlank :
    Formula.parse " )" = .error ((Cause.unclosedParenthesis false).located ⟨0, 1⟩) ∧
      ¬((Cause.unclosedParenthesis false).located ⟨0, 1⟩).PointsAt " )" .closeParen := by
  have hblank : ⟨.whitespace, " ", ⟨0, 1⟩⟩ ∈ Token.scan " )" := by
    have hscan :
        Token.scan " )" = [⟨.whitespace, " ", ⟨0, 1⟩⟩, ⟨.closeParen, ")", ⟨1, 2⟩⟩] := by cbv
    exact hscan ▸ .head _
  exact ⟨by cbv, Error.not_pointsAt_of_blank hblank rfl⟩

end AlgebraTutor
