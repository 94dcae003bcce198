/-
Whole texts that are read.

A text is read as an expression if the grammar derives all of its tokens, and the tree is that of
the phrase that is derived.  For a text that is given, a derivation can be computed: the phrase of
a production is looked for from the left, as long as it goes on, with a bound on how deep the
productions are nested.  Nothing is claimed of a text for which no phrase is found this way.  But
a phrase that is found is derived, and so it is what the readers make of the text.
-/
import AlgebraTutor.Proofs.Lexing
import AlgebraTutor.Proofs.Reading
import AlgebraTutor.Pattern.Basic

namespace AlgebraTutor

open Token

/-! ### Reading a whole text -/

theorem Cursor.ahead_skipBlanks {c : Cursor} (h : c.lexemes = []) : c.skipBlanks.ahead = [] := by
  have hfrom (size : Nat) : ∀ (ahead : List Token) (last : Option Token),
      bare ahead = [] → (skipFrom size last ahead).ahead = [] := by
    intro ahead
    induction ahead with
    | nil => intro last _; rfl
    | cons token ahead ih =>
        intro last h
        rw [bare_cons] at h
        split at h
        · next hblank =>
            rw [skipFrom, if_pos (by simp [Token.isBlank, hblank])]
            exact ih _ h
        · cases h
  exact hfrom c.size c.ahead c.last h

/-- A text is read if its tokens make up an expression. -/
theorem Formula.parse_of_derives {text : String} {p : Phrase}
    (h : Derives .expr (lexemes text.toList) p []) :
    ∃ f, Formula.parse text = .ok f ∧ f.phrase = p := by
  obtain ⟨f, next, ⟨hshorter, hread⟩, hphrase, hnext⟩ :=
    h.reads (by rintro _ ⟨⟩) (.ofText text) (lexemes_ofText text)
  refine ⟨f, ?_, hphrase⟩
  rw [parse, hread, Outcome.whole]
  have hahead := Cursor.ahead_skipBlanks hnext
  simp only
  split
  · rfl
  · next heq =>
      rw [hahead] at heq
      cases heq

theorem Expr.parse_of_derives {text : String} {p : Phrase} {e : Expr}
    (h : Derives .expr (lexemes text.toList) p []) (he : p.expr? = some e) :
    Expr.parse text = .ok e := by
  obtain ⟨f, hf, rfl⟩ := Formula.parse_of_derives h
  rw [parse, hf]
  exact ofFormula_eq_ok.mpr he

/-! ### Finding a derivation -/

/-- The tokens behind the first one, if that is of this kind. -/
def behind? (kind : TokenKind) : List Lexeme → Option (List Lexeme)
  | [] => none
  | l :: ls => if l.kind = kind then some ls else none

/-- The operator of this precedence that the tokens begin with, and the tokens behind it. -/
def operator? (precedence : Precedence) : List Lexeme → Option (BinaryKind × List Lexeme)
  | [] => none
  | l :: ls => (BinaryKind.ofToken? l.kind).bind fun kind =>
      if kind.precedence = precedence then some (kind, ls) else none

/-- A phrase that the production derives from the first tokens, and the tokens that are left. -/
def Production.phrase? : (depth : Nat) → Production → List Lexeme → Option (Phrase × List Lexeme)
  | 0, _, _ => none
  | depth + 1, .expr, ts =>
      (phrase? depth .term ts).bind fun (p, us) => phrase? depth (.terms p) us
  | depth + 1, .terms lhs, ts =>
      match operator? .term ts with
      | some (kind, us) => (phrase? depth .term us).bind fun (p, vs) =>
          phrase? depth (.terms (.binary lhs kind false p)) vs
      | none => some (lhs, ts)
  | depth + 1, .term, ts =>
      (phrase? depth .factor ts).bind fun (p, us) => phrase? depth (.factors p) us
  | depth + 1, .factors lhs, ts =>
      match operator? .factor ts with
      | some (kind, us) => (phrase? depth .factor us).bind fun (p, vs) =>
          phrase? depth (.factors (.binary lhs kind false p)) vs
      | none =>
          match phrase? depth .power ts with
          | some (p, us) => phrase? depth (.factors (.binary lhs .mul true p)) us
          | none => some (lhs, ts)
  | depth + 1, .factor, ts =>
      match behind? .sub ts with
      | some us => (phrase? depth .factor us).map fun (p, rest) => (.neg p, rest)
      | none => phrase? depth .power ts
  | depth + 1, .power, ts =>
      (phrase? depth .primary ts).bind fun (p, us) =>
        match behind? .exp us with
        | some vs => (phrase? depth .factor vs).map fun (q, rest) => (.binary p .exp false q, rest)
        | none => some (p, us)
  | _ + 1, .primary, [] => none
  | depth + 1, .primary, l :: ts =>
      match l.kind with
      | .name =>
          match behind? .openParen ts with
          | some us =>
              match behind? .closeParen us with
              | some rest => some (.call l.text [], rest)
              | none => phrase? depth (.arguments l.text []) us
          | none =>
              match behind? .dot ts with
              | some (index :: rest) =>
                  if index.kind = .name then some (.member l.text index.text, rest) else none
              | _ => some (.symbol l.text, ts)
      | .int | .float => some (.number l.text, ts)
      | .openParen => (phrase? depth .expr ts).bind fun (p, us) =>
          (behind? .closeParen us).map fun rest => (.paren p, rest)
      | _ => none
  | depth + 1, .arguments name before, ts =>
      (phrase? depth .expr ts).bind fun (p, us) =>
        match behind? .comma us with
        | some vs => phrase? depth (.arguments name (before ++ [p])) vs
        | none => (behind? .closeParen us).map fun rest => (.call name (before ++ [p]), rest)

/-- The phrase that a whole text is, as far as one is found. -/
def Phrase.ofText? (text : String) : Option Phrase :=
  let ts := lexemes text.toList
  match Production.expr.phrase? (8 * (ts.length + 1)) ts with
  | some (p, []) => some p
  | _ => none

theorem behind?_eq_some {kind : TokenKind} {ts us : List Lexeme} (h : behind? kind ts = some us) :
    ∃ l, ts = l :: us ∧ l.kind = kind := by
  cases ts with
  | nil => cases h
  | cons l ts =>
      rw [behind?] at h
      split at h
      · next hkind =>
          cases h
          exact ⟨l, rfl, hkind⟩
      · cases h

theorem behind?_eq_none {kind : TokenKind} {ts : List Lexeme} (h : behind? kind ts = none) :
    ∀ l ∈ ts.head?, l.kind ≠ kind := by
  rintro l hl rfl
  cases ts with
  | nil => cases hl
  | cons _ ts =>
      cases hl
      rw [behind?, if_pos rfl] at h
      cases h

theorem operator?_eq_some {precedence : Precedence} {ts us : List Lexeme} {kind : BinaryKind}
    (h : operator? precedence ts = some (kind, us)) :
    ∃ l, ts = l :: us ∧ BinaryKind.ofToken? l.kind = some kind ∧ kind.precedence = precedence := by
  cases ts with
  | nil => cases h
  | cons l ts =>
      obtain ⟨found, hfound, h⟩ := Option.bind_eq_some_iff.mp h
      split at h
      · next hprecedence =>
          cases h
          exact ⟨l, rfl, hfound, hprecedence⟩
      · cases h

namespace Production

variable {depth : Nat} {ts rest : List Lexeme} {p : Phrase}

/-- What is found of a production on one level, if everything found on the next one is derived. -/
theorem derives_of_primary
    (ih : ∀ {g : Production} {ts rest : List Lexeme} {p : Phrase},
      g.phrase? depth ts = some (p, rest) → Derives g ts p rest)
    (h : primary.phrase? (depth + 1) ts = some (p, rest)) : Derives .primary ts p rest := by
  cases ts with
  | nil => cases h
  | cons l ts =>
      rw [phrase?] at h
      split at h
      · next hname =>
          split at h
          · next hbehind =>
              obtain ⟨opening, rfl, hopening⟩ := behind?_eq_some hbehind
              split at h
              · next hend =>
                  obtain ⟨closing, rfl, hclosing⟩ := behind?_eq_some hend
                  cases h
                  exact .callEmpty hname hopening hclosing
              · exact .call hname hopening (ih h)
          · next hbehind =>
              split at h
              · next hpoint =>
                  obtain ⟨dot, rfl, hdot⟩ := behind?_eq_some hpoint
                  split at h
                  · next hindex =>
                      cases h
                      exact .member hname hdot hindex
                  · cases h
              · cases h
                exact .symbol hname (behind?_eq_none hbehind)
      · next hdigits =>
          cases h
          exact .number (.inl hdigits)
      · next hdigits =>
          cases h
          exact .number (.inr hdigits)
      · next hopening =>
          obtain ⟨⟨q, us⟩, hinner, h⟩ := Option.bind_eq_some_iff.mp h
          obtain ⟨_, hend, heq⟩ := Option.map_eq_some_iff.mp h
          obtain ⟨closing, rfl, hclosing⟩ := behind?_eq_some hend
          cases heq
          exact .paren hopening hclosing (ih hinner)
      · cases h

/-- A phrase that is found is derived. -/
theorem derives_of_phrase? (depth : Nat) {g : Production}
    (h : g.phrase? depth ts = some (p, rest)) : Derives g ts p rest := by
  induction depth generalizing g ts rest p with
  | zero => cases h
  | succ depth ih =>
      cases g with
      | expr =>
          rw [phrase?] at h
          obtain ⟨⟨q, us⟩, hterm, h⟩ := Option.bind_eq_some_iff.mp h
          exact .expr (ih hterm) (ih h)
      | terms lhs =>
          rw [phrase?] at h
          split at h
          · next hoperator =>
              obtain ⟨sign, rfl, hsign, hkind⟩ := operator?_eq_some hoperator
              obtain ⟨⟨q, us⟩, hterm, h⟩ := Option.bind_eq_some_iff.mp h
              exact .termsMore hsign hkind (ih hterm) (ih h)
          · cases h
            exact .termsDone
      | term =>
          rw [phrase?] at h
          obtain ⟨⟨q, us⟩, hfactor, h⟩ := Option.bind_eq_some_iff.mp h
          exact .term (ih hfactor) (ih h)
      | factors lhs =>
          rw [phrase?] at h
          split at h
          · next hoperator =>
              obtain ⟨sign, rfl, hsign, hkind⟩ := operator?_eq_some hoperator
              obtain ⟨⟨q, us⟩, hfactor, h⟩ := Option.bind_eq_some_iff.mp h
              exact .factorsMore hsign hkind (ih hfactor) (ih h)
          · split at h
            · next hpower => exact .factorsJuxtaposed (ih hpower) (ih h)
            · cases h
              exact .factorsDone
      | factor =>
          rw [phrase?] at h
          split at h
          · next hbehind =>
              obtain ⟨sign, rfl, hsign⟩ := behind?_eq_some hbehind
              obtain ⟨⟨q, us⟩, hoperand, heq⟩ := Option.map_eq_some_iff.mp h
              cases heq
              exact .negation hsign (ih hoperand)
          · exact .factor (ih h)
      | power =>
          rw [phrase?] at h
          obtain ⟨⟨q, us⟩, hbase, h⟩ := Option.bind_eq_some_iff.mp h
          dsimp only at h
          split at h
          · next hbehind =>
              obtain ⟨sign, rfl, hsign⟩ := behind?_eq_some hbehind
              obtain ⟨⟨r, vs⟩, hexponent, heq⟩ := Option.map_eq_some_iff.mp h
              cases heq
              exact .exponent hsign (ih hbase) (ih hexponent)
          · cases h
            exact .power (ih hbase)
      | primary => exact derives_of_primary ih h
      | arguments name before =>
          rw [phrase?] at h
          obtain ⟨⟨q, us⟩, hargument, h⟩ := Option.bind_eq_some_iff.mp h
          dsimp only at h
          split at h
          · next hbehind =>
              obtain ⟨comma, rfl, hcomma⟩ := behind?_eq_some hbehind
              exact .argumentsMore hcomma (ih hargument) (ih h)
          · obtain ⟨_, hend, heq⟩ := Option.map_eq_some_iff.mp h
            obtain ⟨closing, rfl, hclosing⟩ := behind?_eq_some hend
            cases heq
            exact .argumentsLast hclosing (ih hargument)

end Production

theorem Phrase.derives_of_ofText? {text : String} {p : Phrase} (h : ofText? text = some p) :
    Derives .expr (lexemes text.toList) p [] := by
  rw [ofText?] at h
  split at h
  · next hfound =>
      cases h
      exact Production.derives_of_phrase? _ hfound
  · cases h

/-- The tree of a text, as far as a phrase is found. -/
def Expr.ofText? (text : String) : Option Expr := (Phrase.ofText? text).bind Phrase.expr?

theorem Expr.parse_of_ofText? {text : String} {e : Expr} (h : ofText? text = some e) :
    Expr.parse text = .ok e := by
  obtain ⟨p, hp, he⟩ := Option.bind_eq_some_iff.mp h
  exact parse_of_derives (Phrase.derives_of_ofText? hp) he

/-- The tree of a text in normal form, as far as a phrase is found. -/
def Expr.normalOfText? (text : String) : Option Expr := (ofText? text).map normalize

theorem Expr.parseNormal_of_normalOfText? {text : String} {e : Expr}
    (h : normalOfText? text = some e) : Expr.parseNormal text = .ok e := by
  obtain ⟨f, hf, rfl⟩ := Option.map_eq_some_iff.mp h
  exact parseNormal_of_parse (parse_of_ofText? hf)

/-- The pattern of a text, as far as a phrase is found. -/
def Pattern.ofText? (text : String) : Option Pattern := (Expr.ofText? text).map ofExpr

theorem Pattern.parse_of_ofText? {text : String} {p : Pattern} (h : ofText? text = some p) :
    Pattern.parse text = .ok p := by
  obtain ⟨e, he, rfl⟩ := Option.map_eq_some_iff.mp h
  rw [parse, Expr.parse_of_ofText? he]

end AlgebraTutor
