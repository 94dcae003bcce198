/-
The parts of what is derived.

A part of an expression is an expression of its own: what the grammar derives from some tokens falls
into parts that it derives from fewer of them.  For a chain of operators, which is grouped from the
left, the left operand of the last one is the chain before it.

To see that a part needs no tokens but its own, a derivation is cut off where it ends.  What comes
behind it does not matter, but for an opening parenthesis, which would make a call of a variable.
So any other tokens may follow instead, if they begin with a parenthesis only where there was one.
-/
import AlgebraTutor.Proofs.Grammar

namespace AlgebraTutor

/-! ### Cutting a derivation off -/

/-- The tokens begin with an opening parenthesis. -/
def Opening (ts : List Lexeme) : Prop := ∃ l ∈ ts.head?, l.kind = .openParen

theorem Opening.append {rest rest' : List Lexeme} (h : Opening rest' → Opening rest)
    (ts : List Lexeme) : Opening (ts ++ rest') → Opening (ts ++ rest) := by
  cases ts with
  | nil => exact h
  | cons l ts => exact id

section

variable {g g' : Production} {ts us rest : List Lexeme} {p q : Phrase}

/-- What is used of the tokens derives the phrase in front of other tokens as well. -/
def Cut (g : Production) (used : List Lexeme) (p : Phrase) (rest : List Lexeme) : Prop :=
  ∀ {rest'}, (Opening rest' → Opening rest) → Derives g (used ++ rest') p rest'

/-- Two derivations, one behind the other and some tokens between them, are cut off together. -/
theorem exists_cut_pair (between : List Lexeme)
    (h : ∃ used, ts = used ++ (between ++ us) ∧ Cut g used p (between ++ us))
    (h' : ∃ used, us = used ++ rest ∧ Cut g' used q rest) :
    ∃ used, ts = used ++ rest ∧ ∀ {rest'}, (Opening rest' → Opening rest) →
      ∃ us', Derives g (used ++ rest') p (between ++ us') ∧ Derives g' us' q rest' := by
  obtain ⟨v, rfl, hv⟩ := h'
  obtain ⟨u, rfl, hu⟩ := h
  refine ⟨u ++ (between ++ v), by simp, fun {rest'} hrest => ⟨v ++ rest', ?_, hv hrest⟩⟩
  have hbetween := @hu (between ++ v ++ rest')
  simp only [List.append_assoc] at hbetween ⊢
  refine hbetween fun hopening => ?_
  rw [← List.append_assoc] at hopening ⊢
  exact Opening.append hrest _ hopening

/-- **A derivation uses the first of the tokens, and nothing else matters to it** but whether a
parenthesis is opened right behind them. -/
theorem Derives.exists_cut (h : Derives g ts p rest) :
    ∃ used, ts = used ++ rest ∧ Cut g used p rest := by
  induction h with
  | expr _ _ ih₁ ih₂ =>
      obtain ⟨used, rfl, hused⟩ := exists_cut_pair [] ih₁ ih₂
      refine ⟨used, rfl, fun hrest => ?_⟩
      obtain ⟨us, h₁, h₂⟩ := hused hrest
      exact .expr h₁ h₂
  | termsDone => exact ⟨[], rfl, fun _ => .termsDone⟩
  | @termsMore sign _ _ _ _ _ _ _ hsign hkind _ _ ih₁ ih₂ =>
      obtain ⟨used, rfl, hused⟩ := exists_cut_pair [] ih₁ ih₂
      refine ⟨sign :: used, rfl, fun hrest => ?_⟩
      obtain ⟨us, h₁, h₂⟩ := hused hrest
      exact .termsMore hsign hkind h₁ h₂
  | term _ _ ih₁ ih₂ =>
      obtain ⟨used, rfl, hused⟩ := exists_cut_pair [] ih₁ ih₂
      refine ⟨used, rfl, fun hrest => ?_⟩
      obtain ⟨us, h₁, h₂⟩ := hused hrest
      exact .term h₁ h₂
  | factorsDone => exact ⟨[], rfl, fun _ => .factorsDone⟩
  | @factorsMore sign _ _ _ _ _ _ _ hsign hkind _ _ ih₁ ih₂ =>
      obtain ⟨used, rfl, hused⟩ := exists_cut_pair [] ih₁ ih₂
      refine ⟨sign :: used, rfl, fun hrest => ?_⟩
      obtain ⟨us, h₁, h₂⟩ := hused hrest
      exact .factorsMore hsign hkind h₁ h₂
  | factorsJuxtaposed _ _ ih₁ ih₂ =>
      obtain ⟨used, rfl, hused⟩ := exists_cut_pair [] ih₁ ih₂
      refine ⟨used, rfl, fun hrest => ?_⟩
      obtain ⟨us, h₁, h₂⟩ := hused hrest
      exact .factorsJuxtaposed h₁ h₂
  | @negation sign _ _ _ hsign _ ih =>
      obtain ⟨used, rfl, hused⟩ := ih
      exact ⟨sign :: used, rfl, fun hrest => .negation hsign (hused hrest)⟩
  | factor _ ih =>
      obtain ⟨used, rfl, hused⟩ := ih
      exact ⟨used, rfl, fun hrest => .factor (hused hrest)⟩
  | power _ ih =>
      obtain ⟨used, rfl, hused⟩ := ih
      exact ⟨used, rfl, fun hrest => .power (hused hrest)⟩
  | @exponent sign _ _ _ _ _ hsign _ _ ih₁ ih₂ =>
      obtain ⟨used, rfl, hused⟩ := exists_cut_pair [sign] ih₁ ih₂
      refine ⟨used, rfl, fun hrest => ?_⟩
      obtain ⟨us, h₁, h₂⟩ := hused hrest
      exact .exponent hsign h₁ h₂
  | @callEmpty name opening closing _ hname hopening hclosing =>
      exact ⟨[name, opening, closing], rfl, fun _ => .callEmpty hname hopening hclosing⟩
  | @call name opening _ _ _ hname hopening _ ih =>
      obtain ⟨used, rfl, hused⟩ := ih
      exact ⟨name :: opening :: used, rfl, fun hrest => .call hname hopening (hused hrest)⟩
  | @argumentsLast _ _ closing _ _ _ hclosing _ ih =>
      obtain ⟨used, rfl, hused⟩ := ih
      refine ⟨used ++ [closing], by simp, fun hrest => ?_⟩
      rw [List.append_assoc]
      exact .argumentsLast hclosing (hused (Opening.append hrest [closing]))
  | @argumentsMore _ _ comma _ _ _ _ _ hcomma _ _ ih₁ ih₂ =>
      obtain ⟨used, rfl, hused⟩ := exists_cut_pair [comma] ih₁ ih₂
      refine ⟨used, rfl, fun hrest => ?_⟩
      obtain ⟨us, h₁, h₂⟩ := hused hrest
      exact .argumentsMore hcomma h₁ h₂
  | @member object dot index _ hobject hdot hindex =>
      exact ⟨[object, dot, index], rfl, fun _ => .member hobject hdot hindex⟩
  | @number digits _ hdigits => exact ⟨[digits], rfl, fun _ => .number hdigits⟩
  | @symbol name _ hname hrest =>
      refine ⟨[name], rfl, fun hrest' => .symbol hname fun following hfollowing heq => ?_⟩
      obtain ⟨l, hl, hopening⟩ := hrest' ⟨following, hfollowing, heq⟩
      exact hrest l hl hopening
  | @paren opening closing _ _ _ hopening hclosing _ ih =>
      obtain ⟨used, rfl, hused⟩ := ih
      refine ⟨opening :: (used ++ [closing]), by simp, fun hrest => ?_⟩
      rw [List.cons_append, List.append_assoc]
      exact .paren hopening hclosing (hused (Opening.append hrest [closing]))

end

/-! ### What is made of what was derived -/

/-- The tokens that are left are the last ones. -/
theorem Derives.suffix {g : Production} {ts rest : List Lexeme} {p : Phrase}
    (h : Derives g ts p rest) : rest <:+ ts := by
  obtain ⟨used, rfl, -⟩ := h.exists_cut
  exact List.suffix_append used rest

/-- A phrase has the property if its parts do and the tokens that it is named or numbered by are
fit. -/
structure Phrase.Compositional (fit : Lexeme → Prop) (P : Phrase → Prop) : Prop where
  number {l : Lexeme} (hl : fit l) (hkind : l.kind = .int ∨ l.kind = .float) : P (.number l.text)
  symbol {l : Lexeme} (hl : fit l) (hkind : l.kind = .name) : P (.symbol l.text)
  member {object index : Lexeme} (hobject : fit object) (hobjectKind : object.kind = .name)
    (hindex : fit index) (hindexKind : index.kind = .name) : P (.member object.text index.text)
  paren {p : Phrase} (hp : P p) : P (.paren p)
  call {l : Lexeme} {ps : List Phrase} (hl : fit l) (hkind : l.kind = .name)
    (hps : ∀ p ∈ ps, P p) : P (.call l.text ps)
  neg {p : Phrase} (hp : P p) : P (.neg p)
  binary {p q : Phrase} (kind : BinaryKind) (i : Bool) (hp : P p) (hq : P q) :
    P (.binary p kind i q)

/-- What has been derived before has the property. -/
def Production.GoesOnFrom (fit : Lexeme → Prop) (P : Phrase → Prop) : Production → Prop
  | terms lhs | factors lhs => P lhs
  | arguments name before => (∃ l, fit l ∧ l.kind = .name ∧ l.text = name) ∧ ∀ p ∈ before, P p
  | expr | term | factor | power | primary => True

/-- **What is derived from fit tokens has every property that phrases have from their parts.** -/
theorem Derives.holds {fit : Lexeme → Prop} {P : Phrase → Prop} (hP : Phrase.Compositional fit P)
    {g : Production} {ts rest : List Lexeme} {p : Phrase} (h : Derives g ts p rest)
    (hts : ∀ l ∈ ts, fit l) (hg : g.GoesOnFrom fit P) : P p := by
  have hrest {g : Production} {ts rest : List Lexeme} {p : Phrase} (h : Derives g ts p rest)
      (hts : ∀ l ∈ ts, fit l) : ∀ l ∈ rest, fit l := fun l hl => hts l (h.suffix.subset hl)
  have htail {l : Lexeme} {ts : List Lexeme} (h : ∀ l' ∈ l :: ts, fit l') : ∀ l' ∈ ts, fit l' :=
    (List.forall_mem_cons.mp h).2
  have hconcat {p : Phrase} {ps : List Phrase} (hps : ∀ q ∈ ps, P q) (hp : P p) :
      ∀ q ∈ ps ++ [p], P q :=
    List.forall_mem_append.mpr ⟨hps, List.forall_mem_singleton.mpr hp⟩
  induction h with
  | expr first _ ihFirst ihMore => exact ihMore (hrest first hts) (ihFirst hts trivial)
  | termsDone => exact hg
  | termsMore _ _ next _ ihNext ihMore =>
      exact ihMore (hrest next (htail hts)) (hP.binary _ _ hg (ihNext (htail hts) trivial))
  | term first _ ihFirst ihMore => exact ihMore (hrest first hts) (ihFirst hts trivial)
  | factorsDone => exact hg
  | factorsMore _ _ next _ ihNext ihMore =>
      exact ihMore (hrest next (htail hts)) (hP.binary _ _ hg (ihNext (htail hts) trivial))
  | factorsJuxtaposed next _ ihNext ihMore =>
      exact ihMore (hrest next hts) (hP.binary _ _ hg (ihNext hts trivial))
  | negation _ _ ih => exact hP.neg (ih (htail hts) trivial)
  | factor _ ih => exact ih hts trivial
  | power _ ih => exact ih hts trivial
  | exponent _ base _ ihBase ihExponent =>
      exact hP.binary _ _ (ihBase hts trivial) (ihExponent (htail (hrest base hts)) trivial)
  | callEmpty hname => exact hP.call (hts _ (.head _)) hname (List.forall_mem_nil _)
  | call hname _ _ ih =>
      exact ih (htail (htail hts)) ⟨⟨_, hts _ (.head _), hname, rfl⟩, List.forall_mem_nil _⟩
  | argumentsLast _ _ ih =>
      obtain ⟨⟨l, hl, hkind, rfl⟩, hbefore⟩ := hg
      exact hP.call hl hkind (hconcat hbefore (ih hts trivial))
  | argumentsMore _ next _ ihNext ihMore =>
      exact ihMore (htail (hrest next hts)) ⟨hg.1, hconcat hg.2 (ihNext hts trivial)⟩
  | member hobject _ hindex =>
      exact hP.member (hts _ (.head _)) hobject (hts _ (by simp)) hindex
  | number hdigits => exact hP.number (hts _ (.head _)) hdigits
  | symbol hname _ => exact hP.symbol (hts _ (.head _)) hname
  | paren _ _ _ ih => exact hP.paren (ih (htail hts) trivial)

/-! ### How many tokens are used -/

namespace Phrase

mutual

/-- The number of tokens that write the phrase. -/
def width : Phrase → Nat
  | number _ => 1
  | symbol _ => 1
  | paren inner => inner.width + 2
  | call _ args => 2 + max 1 (rowWidth args)
  | member _ _ => 3
  | neg operand => operand.width + 1
  | binary lhs _ implicit rhs => lhs.width + rhs.width + if implicit then 0 else 1

/-- The number of tokens that write the phrases, with one more behind each. -/
def rowWidth : List Phrase → Nat
  | [] => 0
  | p :: ps => p.width + 1 + rowWidth ps

end

theorem rowWidth_append (ps qs : List Phrase) :
    rowWidth (ps ++ qs) = rowWidth ps + rowWidth qs := by
  induction ps with
  | nil => simp [rowWidth]
  | cons p ps ih => simp only [List.cons_append, rowWidth, ih, Nat.add_assoc]

end Phrase

/-- The number of tokens that have been used when the production comes to its turn. -/
def Production.begun : Production → Nat
  | .terms lhs => lhs.width
  | .factors lhs => lhs.width
  | .arguments _ before => 2 + Phrase.rowWidth before
  | _ => 0

/-- A derivation uses as many tokens as write the phrase. -/
theorem Derives.length_eq {g : Production} {ts rest : List Lexeme} {p : Phrase}
    (h : Derives g ts p rest) : ts.length + g.begun = p.width + rest.length := by
  induction h <;>
    simp only [Production.begun, Phrase.width, Phrase.rowWidth, Phrase.rowWidth_append,
      List.length_cons] at * <;> grind

/-! ### Operands -/

/-- The tokens derive two operands, one behind the other, and there is a token between them unless
they are juxtaposed. -/
inductive DerivesPair (ts : List Lexeme) (lhs : Phrase) : Bool → Phrase → List Lexeme → Prop
  | operator {sign : Lexeme} {us rest : List Lexeme} {rhs : Phrase}
      (hlhs : Derives .expr ts lhs (sign :: us)) (hrhs : Derives .expr us rhs rest) :
      DerivesPair ts lhs false rhs rest
  | juxtaposed {us rest : List Lexeme} {rhs : Phrase} (hlhs : Derives .expr ts lhs us)
      (hrhs : Derives .expr us rhs rest) : DerivesPair ts lhs true rhs rest

section

variable {ts rest : List Lexeme} {p lhs : Phrase}

theorem Derives.expr_of_term (h : Derives .term ts p rest) : Derives .expr ts p rest :=
  .expr h .termsDone

theorem Derives.expr_of_factor (h : Derives .factor ts p rest) : Derives .expr ts p rest :=
  expr_of_term (.term h .factorsDone)

theorem Derives.expr_of_primary (h : Derives .primary ts p rest) : Derives .expr ts p rest :=
  expr_of_factor (.factor (.power h))

/-- A chain of terms ends with the last one, which was joined to the chain before it. -/
theorem Derives.terms_cases (h : Derives (.terms lhs) ts p rest) : p = lhs ∧ ts = rest ∨
    ∃ front kind sign us last, p = .binary front kind false last ∧
      Derives (.terms lhs) ts front (sign :: us) ∧ Derives .term us last rest := by
  generalize hg : Production.terms lhs = g at h
  induction h generalizing lhs with
  | termsDone =>
      cases hg
      exact .inl ⟨rfl, rfl⟩
  | @termsMore sign kind _ _ _ _ _ _ hsign hkind next more _ ih =>
      cases hg
      right
      rcases ih rfl with ⟨rfl, rfl⟩ | ⟨front, kind', sign', us, last, rfl, hfront, hlast⟩
      · exact ⟨_, kind, sign, _, _, rfl, .termsDone, next⟩
      · exact ⟨front, kind', sign', us, last, rfl, .termsMore hsign hkind next hfront, hlast⟩
  | _ => cases hg

/-- A chain of factors ends with the last one, which was joined to the chain before it. -/
theorem Derives.factors_cases (h : Derives (.factors lhs) ts p rest) : p = lhs ∧ ts = rest ∨
    (∃ front kind sign us last, p = .binary front kind false last ∧
      Derives (.factors lhs) ts front (sign :: us) ∧ Derives .factor us last rest) ∨
    ∃ front us last, p = .binary front .mul true last ∧ Derives (.factors lhs) ts front us ∧
      Derives .power us last rest := by
  generalize hg : Production.factors lhs = g at h
  induction h generalizing lhs with
  | factorsDone =>
      cases hg
      exact .inl ⟨rfl, rfl⟩
  | @factorsMore sign kind _ _ _ _ _ _ hsign hkind next more _ ih =>
      cases hg
      right
      rcases ih rfl with ⟨rfl, rfl⟩ | ⟨front, kind', sign', us, last, rfl, hfront, hlast⟩ |
        ⟨front, us, last, rfl, hfront, hlast⟩
      · exact .inl ⟨_, kind, sign, _, _, rfl, .factorsDone, next⟩
      · exact .inl ⟨front, kind', sign', us, last, rfl, .factorsMore hsign hkind next hfront, hlast⟩
      · exact .inr ⟨front, us, last, rfl, .factorsMore hsign hkind next hfront, hlast⟩
  | factorsJuxtaposed next more _ ih =>
      cases hg
      right
      rcases ih rfl with ⟨rfl, rfl⟩ | ⟨front, kind', sign', us, last, rfl, hfront, hlast⟩ |
        ⟨front, us, last, rfl, hfront, hlast⟩
      · exact .inr ⟨_, _, _, rfl, .factorsDone, next⟩
      · exact .inl ⟨front, kind', sign', us, last, rfl, .factorsJuxtaposed next hfront, hlast⟩
      · exact .inr ⟨front, us, last, rfl, .factorsJuxtaposed next hfront, hlast⟩
  | _ => cases hg

/-- The arguments that are read are those of the call. -/
theorem Derives.arguments_cases {name : String} {before : List Phrase}
    (h : Derives (.arguments name before) ts p rest) :
    ∃ first others sign us, p = .call name (before ++ first :: others) ∧
      Derives .expr ts first (sign :: us) ∧ (others = [] ∧ us = rest ∨
        others ≠ [] ∧ Derives (.arguments name (before ++ [first])) us p rest) := by
  generalize hg : Production.arguments name before = g at h
  induction h generalizing before with
  | @argumentsLast _ _ closing _ _ p hclosing last _ =>
      cases hg
      exact ⟨p, [], closing, _, rfl, last, .inl ⟨rfl, rfl⟩⟩
  | @argumentsMore _ _ comma _ _ _ p _ hcomma next more _ ih =>
      cases hg
      obtain ⟨first, others, sign, us, rfl, -, -⟩ := ih rfl
      exact ⟨p, first :: others, comma, _, by simp, next, .inr ⟨by simp, by simpa using more⟩⟩
  | _ => cases hg

theorem Derives.exists_call {name : String} {before : List Phrase}
    (h : Derives (.arguments name before) ts p rest) : ∃ args, p = .call name args := by
  obtain ⟨first, others, _, _, heq, -⟩ := h.arguments_cases
  exact ⟨before ++ first :: others, heq⟩

/-- What is derived as an expression is two operands, or a negation, or an operand by itself. -/
theorem Derives.expr_cases (h : Derives .expr ts p rest) :
    (∃ lhs kind i rhs, p = .binary lhs kind i rhs ∧ DerivesPair ts lhs i rhs rest) ∨
    (∃ sign us operand, ts = sign :: us ∧ p = .neg operand ∧ Derives .expr us operand rest) ∨
    Derives .primary ts p rest := by
  cases h with
  | expr first more =>
      rcases more.terms_cases with ⟨rfl, rfl⟩ | ⟨front, kind, sign, us, last, rfl, hfront, hlast⟩
      · cases first with
        | term first more =>
            rcases more.factors_cases with ⟨rfl, rfl⟩ |
              ⟨front, kind, sign, us, last, rfl, hfront, hlast⟩ |
              ⟨front, us, last, rfl, hfront, hlast⟩
            · cases first with
              | negation hsign operand =>
                  exact .inr (.inl ⟨_, _, _, rfl, rfl, operand.expr_of_factor⟩)
              | factor power =>
                  cases power with
                  | power primary => exact .inr (.inr primary)
                  | exponent hsign base exponent =>
                      exact .inl ⟨_, _, _, _, rfl,
                        .operator base.expr_of_primary exponent.expr_of_factor⟩
            · exact .inl ⟨_, _, _, _, rfl,
                .operator (.expr_of_term (.term first hfront)) hlast.expr_of_factor⟩
            · exact .inl ⟨_, _, _, _, rfl,
                .juxtaposed (.expr_of_term (.term first hfront)) (.expr_of_factor (.factor hlast))⟩
      · exact .inl ⟨_, _, _, _, rfl, .operator (.expr first hfront) hlast.expr_of_term⟩

/-! ### Parts

What an expression of each shape was derived from. -/

theorem Derives.of_binary {kind : BinaryKind} {i : Bool} {rhs : Phrase}
    (h : Derives .expr ts (.binary lhs kind i rhs) rest) : DerivesPair ts lhs i rhs rest := by
  rcases h.expr_cases with ⟨_, _, _, _, heq, hpair⟩ | ⟨_, _, _, _, heq, -⟩ | h
  · cases heq
    exact hpair
  · cases heq
  · cases h with
    | call _ _ hargs =>
        obtain ⟨_, heq⟩ := hargs.exists_call
        cases heq

theorem Derives.of_neg {operand : Phrase} (h : Derives .expr ts (.neg operand) rest) :
    ∃ sign us, ts = sign :: us ∧ Derives .expr us operand rest := by
  rcases h.expr_cases with ⟨_, _, _, _, heq, -⟩ | ⟨sign, us, _, hts, heq, hoperand⟩ | h
  · cases heq
  · cases heq
    exact ⟨sign, us, hts, hoperand⟩
  · cases h with
    | call _ _ hargs =>
        obtain ⟨_, heq⟩ := hargs.exists_call
        cases heq

theorem Derives.of_paren {inner : Phrase} (h : Derives .expr ts (.paren inner) rest) :
    ∃ opening us closing, ts = opening :: us ∧ Derives .expr us inner (closing :: rest) := by
  rcases h.expr_cases with ⟨_, _, _, _, heq, -⟩ | ⟨_, _, _, _, heq, -⟩ | h
  · cases heq
  · cases heq
  · cases h with
    | paren _ _ hinner => exact ⟨_, _, _, rfl, hinner⟩
    | call _ _ hargs =>
        obtain ⟨_, heq⟩ := hargs.exists_call
        cases heq

theorem Derives.of_member {object index : String}
    (h : Derives .expr ts (.member object index) rest) :
    ∃ first dot last, ts = first :: dot :: last :: rest ∧ first.kind = .name ∧
      last.kind = .name := by
  rcases h.expr_cases with ⟨_, _, _, _, heq, -⟩ | ⟨_, _, _, _, heq, -⟩ | h
  · cases heq
  · cases heq
  · cases h with
    | member hobject _ hindex => exact ⟨_, _, _, rfl, hobject, hindex⟩
    | call _ _ hargs =>
        obtain ⟨_, heq⟩ := hargs.exists_call
        cases heq

theorem Derives.of_call {name : String} {args : List Phrase}
    (h : Derives .expr ts (.call name args) rest) :
    ∃ callee opening us, ts = callee :: opening :: us ∧ callee.kind = .name ∧
      (args = [] ∨ Derives (.arguments name []) us (.call name args) rest) := by
  rcases h.expr_cases with ⟨_, _, _, _, heq, -⟩ | ⟨_, _, _, _, heq, -⟩ | h
  · cases heq
  · cases heq
  · cases h with
    | callEmpty hname _ _ => exact ⟨_, _, _, rfl, hname, .inl rfl⟩
    | call hname _ hargs =>
        obtain ⟨_, heq⟩ := hargs.exists_call
        obtain ⟨rfl, -⟩ := Phrase.call.inj heq
        exact ⟨_, _, _, rfl, hname, .inr hargs⟩

end

end AlgebraTutor
