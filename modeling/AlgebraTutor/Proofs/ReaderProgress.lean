/-
Reading gets ahead and comes to an end.

A cursor is a place in a row of tokens.  A reader that succeeds there goes on at a later place of
the same row, past a token that is not blank, so it cannot be called again and again at the same
place.  That is what makes the loops end: each of the three takes a token in every round that is
followed by another one.

The round of a right operand is the one that is not obvious.  It looks at the operator that
follows and then hands the place in front of the operator to the loop that reads operations, which
could in general stop at once.  It does not, because it is asked for operators that bind as the
one that was seen does, so it takes that one first (`readOperation_of_readOperations`).
-/
import AlgebraTutor.Formula.Attempts
import AlgebraTutor.Proofs.ReaderMoves

namespace AlgebraTutor

/-! ### Places in a row of tokens -/

namespace Cursor

/-- The place in front of the token with the index `i`. -/
def atIndex (tokens : List Token) (i : Nat) : Cursor :=
  ⟨(tokens.take i).getLast?, tokens.drop i, (tokens.getLast?.map (·.span.stop)).getD 0⟩

theorem ofText_eq_atIndex (text : String) : ofText text = atIndex (Token.scan text) 0 := rfl

/-- From the first index to the second one, a token that is not blank is passed, and the second one
is in the row or at its end. -/
structure Advances (tokens : List Token) (i j : Nat) : Prop where
  lt : i < j
  le : j ≤ tokens.length
  passes : ∃ k token, i ≤ k ∧ k < j ∧ tokens[k]? = some token ∧ token.isBlank = false

variable {tokens : List Token} {i j k : Nat} {c next : Cursor} {token : Token}

theorem Advances.trans (h : Advances tokens i j) (h' : Advances tokens j k) :
    Advances tokens i k := by
  obtain ⟨m, token, hle, hlt, hget, hblank⟩ := h.passes
  exact ⟨h.lt.trans h'.lt, h'.le, m, token, hle, hlt.trans h'.lt, hget, hblank⟩

/-- The next token that is not blank is the last one that is passed. -/
theorem exists_index_of_next (h : (atIndex tokens i).next.Gives token next) :
    ∃ j, Advances tokens i j ∧ next = atIndex tokens j := by
  have hfrom (size : Nat) : ∀ (ahead : List Token) (last : Option Token) (i : Nat),
      tokens.drop i = ahead → (nextFrom size last ahead).Gives token next →
        ∃ j, Advances tokens i j ∧
          next = ⟨(tokens.take j).getLast?, tokens.drop j, size⟩ := by
    intro ahead
    induction ahead with
    | nil =>
        rintro last i - ⟨_, h⟩
        cases h
    | cons first ahead ih =>
        intro last i hdrop h
        have hget : tokens[i]? = some first := by
          rw [← List.head?_drop, hdrop, List.head?_cons]
        have hlt : i < tokens.length := (List.getElem?_eq_some_iff.mp hget).1
        have hrest : tokens.drop (i + 1) = ahead := by
          rw [← List.drop_drop, hdrop, List.drop_one, List.tail_cons]
        rw [nextFrom] at h
        by_cases hblank : first.isBlank = true
        · rw [if_pos hblank] at h
          obtain ⟨j, hj, hnext⟩ := ih _ _ hrest (Outcome.gives_weaken.mp h)
          obtain ⟨m, token, hle, hpasses⟩ := hj.passes
          exact ⟨j, ⟨by have := hj.lt; omega, hj.le, m, token, by omega, hpasses⟩, hnext⟩
        · rw [if_neg hblank] at h
          obtain ⟨_, heq⟩ := h
          cases heq
          refine ⟨i + 1, ⟨by omega, hlt, i, token, le_rfl, by omega, hget, ?_⟩, ?_⟩
          · simpa using hblank
          · rw [List.take_add_one, hget, hrest]
            simp
  exact hfrom _ _ _ i rfl h

/-- Where reading moves, it advances in the row of tokens that it began in. -/
theorem exists_index_of_moves (h : (atIndex tokens i).Moves next) :
    ∃ j, Advances tokens i j ∧ next = atIndex tokens j := by
  induction h with
  | single h =>
      obtain ⟨token, h⟩ := h
      exact exists_index_of_next h
  | tail _ h ih =>
      obtain ⟨j, hj, rfl⟩ := ih
      obtain ⟨token, h⟩ := h
      obtain ⟨k, hk, rfl⟩ := exists_index_of_next h
      exact ⟨k, hj.trans hk, rfl⟩

end Cursor

/-! ### Loops -/

/-- One round of a loop, from what has been read and where to what has been read then. -/
abbrev Round (β : Type) := β × Cursor → β × Cursor → Prop

/-- A loop goes on by rounds until one of them is the last, and a round that is followed by another
one takes a token. -/
structure IsLoop {β γ : Type} (round : Round β) (last gives : β × Cursor → γ → Cursor → Prop) :
    Prop where
  advances : ∀ tokens i x s, round (x, .atIndex tokens i) s →
    ∃ j, Cursor.Advances tokens i j ∧ s.2 = .atIndex tokens j
  ends : WellFounded fun s' s => round s s'
  runs : ∀ s a next, gives s a next ↔ ∃ s', Relation.ReflTransGen round s s' ∧ last s' a next

/-- What makes a loop of a recursion: it goes on or stops, and what goes on moves. -/
theorem IsLoop.of_cases {β γ : Type} {round : Round β} {last gives : β × Cursor → γ → Cursor → Prop}
    (hmoves : ∀ s s', round s s' → s.2.Moves s'.2)
    (hlast : ∀ s a next, last s a next → gives s a next)
    (hround : ∀ s s' a next, round s s' → gives s' a next → gives s a next)
    (hcases : ∀ s a next, gives s a next → last s a next ∨ ∃ s', round s s' ∧ gives s' a next) :
    IsLoop round last gives := by
  have hends : WellFounded fun s' s => round s s' :=
    Subrelation.wf (fun {s' s} h => (hmoves s s' h).left_lt)
      (measure fun s : β × Cursor => s.2.left).wf
  refine ⟨fun tokens i x s h => Cursor.exists_index_of_moves (hmoves _ _ h), hends, ?_⟩
  intro s a next
  constructor
  · intro h
    induction s using hends.induction with
    | _ s ih =>
        rcases hcases s a next h with hstop | ⟨s', hs, h'⟩
        · exact ⟨s, .refl, hstop⟩
        · obtain ⟨s'', hrest, hstop⟩ := ih s' hs h'
          exact ⟨s'', .head hs hrest, hstop⟩
  · rintro ⟨s', hrounds, hstop⟩
    induction hrounds using Relation.ReflTransGen.head_induction_on with
    | refl => exact hlast _ _ _ hstop
    | head hs _ ih => exact hround _ _ _ _ hs ih

/-! ### The loops of operations -/

namespace Formula

variable {c c₁ next : Cursor} {f lhs rhs : Formula} {op following : BinaryOp} {prec : Precedence}

/-- An operand does not begin with an operator. -/
theorem readBinaryOp_fails_of_primary (h : (readPrimary c).Gives f next) :
    (readBinaryOp c).Fails := by
  rcases (readBinaryOp c).gives_or_fails with ⟨op, c₁, hop⟩ | hfails
  · obtain ⟨l, hl, hkind, -⟩ := lexemes_of_readBinaryOp hop
    have hopens : l.kind.opensPrimary = false := by
      cases hl : l.kind <;> rw [hl] at hkind <;> first | rfl | cases hkind
    refine absurd (readPrimary_fails fun l' hl' => ?_) h.not_fails
    rw [hl, List.head?_cons, Option.mem_some_iff] at hl'
    exact hl' ▸ hopens
  · exact hfails

/-- One round of going on from a left operand: an operator with its right operand, or a factor
without an operator in front. -/
inductive OperationsRound (prec : Precedence) : Round Formula
  | operator {lhs rhs joined : Formula} {c c₁ c₂ c₃ : Cursor} {op : BinaryOp}
      (hop : (readBinaryOp c).Gives op c₁) (hprec : prec ≤ op.kind.precedence)
      (hrhs : (readOperand c₁).Gives rhs c₂) (hjoined : (absorb lhs op rhs c₂).Gives joined c₃) :
      OperationsRound prec (lhs, c) (joined, c₃)
  | juxtaposed {lhs rhs product : Formula} {c c₁ c₂ : Cursor} (hop : (readBinaryOp c).Fails)
      (hprec : prec ≤ .factor) (hrhs : (readPrimary c).Gives rhs c₁)
      (hproduct : (absorb lhs (juxtaposition lhs rhs) rhs c₁).Gives product c₂) :
      OperationsRound prec (lhs, c) (product, c₂)

/-- One round in which a right operand takes in what follows it: what an operator makes of it that
binds tighter, or a factor without an operator in front. -/
inductive AbsorbRound (op : BinaryOp) : Round Formula
  | operator {rhs larger : Formula} {c c₁ c₂ : Cursor} {following : BinaryOp}
      (hop : (readBinaryOp c).Gives following c₁) (htakes : Takes op following.kind)
      (hlarger : (readOperations rhs following.kind.precedence c).Gives larger c₂) :
      AbsorbRound op (rhs, c) (larger, c₂)
  | juxtaposed {rhs factor product : Formula} {c c₁ c₂ : Cursor} (hop : (readBinaryOp c).Fails)
      (hprec : ¬.factor ≤ op.kind.precedence) (hfactor : (readPrimary c).Gives factor c₁)
      (hproduct : (absorb rhs (juxtaposition rhs factor) factor c₁).Gives product c₂) :
      AbsorbRound op (rhs, c) (product, c₂)

/-- The last round of going on from a left operand: nothing follows that is asked for. -/
structure OperationsEnd (prec : Precedence) (s : Formula × Cursor) (f : Formula) (next : Cursor) :
    Prop where
  value : f = s.1
  place : next = s.2
  stops : Stops (prec ≤ ·.precedence) (prec ≤ .factor) s.2

/-- The last round of a right operand: what follows is left alone, and the operands are joined. -/
structure AbsorbEnd (lhs : Formula) (op : BinaryOp) (s : Formula × Cursor) (f : Formula)
    (next : Cursor) : Prop where
  value : f = join lhs op s.1
  place : next = s.2
  stops : Stops (Takes op) (¬.factor ≤ op.kind.precedence) s.2

/-- What is asked for operators that bind as the next one does takes that one first. -/
theorem readOperation_of_readOperations (hop : (readBinaryOp c).Gives following c₁)
    (h : (readOperations rhs following.kind.precedence c).Gives f next) :
    (readOperation rhs following following.kind.precedence c₁).Gives f next := by
  cases readOperations_cases h with
  | operator hop' _ hrhs hjoined h =>
      obtain ⟨rfl, rfl⟩ := hop.unique hop'
      exact readOperation_gives hrhs hjoined h
  | juxtaposed _ hrhs _ _ => exact absurd (readBinaryOp_fails_of_primary hrhs) hop.not_fails
  | stops _ _ hstops => exact absurd (Nat.le_refl _) (hstops.operator _ _ hop)

theorem OperationsRound.moves {s s' : Formula × Cursor} (h : OperationsRound prec s s') :
    s.2.Moves s'.2 := by
  cases h with
  | operator hop _ hrhs hjoined =>
      exact ((moves_of_readBinaryOp hop).trans (moves_of_readOperand hrhs)).on
        (reaches_of_absorb hjoined)
  | juxtaposed _ _ hrhs hproduct =>
      exact (moves_of_readPrimary hrhs).on (reaches_of_absorb hproduct)

theorem AbsorbRound.moves {s s' : Formula × Cursor} (h : AbsorbRound op s s') :
    s.2.Moves s'.2 := by
  cases h with
  | operator hop _ hlarger =>
      exact (moves_of_readBinaryOp hop).trans
        (moves_of_readOperation (readOperation_of_readOperations hop hlarger))
  | juxtaposed _ _ hfactor hproduct =>
      exact (moves_of_readPrimary hfactor).on (reaches_of_absorb hproduct)

theorem readOperations_of_stops (h : Stops (prec ≤ ·.precedence) (prec ≤ .factor) c) :
    (readOperations lhs prec c).Gives lhs c := by
  rcases (readBinaryOp c).gives_or_fails with ⟨op, c₁, hop⟩ | hfails
  · exact readOperations_of_looser hop (h.operator op c₁ hop)
  · by_cases hprec : prec ≤ .factor
    · exact readOperations_of_end hfails (h.operand hprec hfails)
    · exact readOperations_of_tight hfails hprec

theorem absorb_of_stops (h : Stops (Takes op) (¬.factor ≤ op.kind.precedence) c) :
    (absorb lhs op rhs c).Gives (join lhs op rhs) c := by
  rcases (readBinaryOp c).gives_or_fails with ⟨following, c₁, hop⟩ | hfails
  · exact absorb_of_looser hop (h.operator following c₁ hop)
  · by_cases hprec : .factor ≤ op.kind.precedence
    · exact absorb_of_tight hfails hprec
    · exact absorb_of_end hfails (h.operand hprec hfails)

/-- Operations are read in rounds until none follows that is asked for. -/
theorem isLoop_readOperations (prec : Precedence) :
    IsLoop (OperationsRound prec) (OperationsEnd prec)
      fun s f next => (readOperations s.1 prec s.2).Gives f next := by
  refine .of_cases (fun s s' h => h.moves) ?_ ?_ ?_
  · rintro s f next ⟨rfl, rfl, hstops⟩
    exact readOperations_of_stops hstops
  · intro s s' f next hround h
    cases hround with
    | operator hop hprec hrhs hjoined =>
        exact readOperations_of_op hop hprec (readOperation_gives hrhs hjoined h)
    | juxtaposed hop hprec hrhs hproduct =>
        exact readOperations_of_juxtaposed hop hprec hrhs hproduct h
  · intro s f next h
    cases readOperations_cases h with
    | operator hop hprec hrhs hjoined h => exact .inr ⟨_, .operator hop hprec hrhs hjoined, h⟩
    | juxtaposed hprec hrhs hproduct h =>
        have hop := readBinaryOp_fails_of_primary hrhs
        exact .inr ⟨_, .juxtaposed hop hprec hrhs hproduct, h⟩
    | stops hf hnext hstops => exact .inl ⟨hf, hnext, hstops⟩

/-- A right operand takes in what follows in rounds, until what follows is left to the operator. -/
theorem isLoop_absorb (lhs : Formula) (op : BinaryOp) :
    IsLoop (AbsorbRound op) (AbsorbEnd lhs op)
      fun s f next => (absorb lhs op s.1 s.2).Gives f next := by
  refine .of_cases (fun s s' h => h.moves) ?_ ?_ ?_
  · rintro s f next ⟨rfl, rfl, hstops⟩
    exact absorb_of_stops hstops
  · intro s s' f next hround h
    cases hround with
    | operator hop htakes hlarger =>
        exact absorb_of_tighter hop htakes (readOperation_of_readOperations hop hlarger) h
    | juxtaposed hop hprec hfactor hproduct =>
        exact absorb_of_juxtaposed hop hprec hfactor hproduct h
  · intro s f next h
    cases absorb_cases h with
    | operator hop htakes hlarger h =>
        exact .inr ⟨_, .operator hop htakes
          (readOperations_of_op hop (Nat.le_refl _) hlarger), h⟩
    | juxtaposed hprec hfactor hproduct h =>
        have hop := readBinaryOp_fails_of_primary hfactor
        exact .inr ⟨_, .juxtaposed hop hprec hfactor hproduct, h⟩
    | stops hf hnext hstops => exact .inl ⟨hf, hnext, hstops⟩

end Formula

/-! ### Attempts -/

namespace Outcome

variable {α β : Type} {n : Nat} {o : Outcome α n} {start stopped next : Cursor} {error : Error}
  {a : α}

theorem eq_of_orStay (h : o.orStay start = .failed error stopped) : stopped = start := by
  cases o with
  | done => cases h
  | failed => cases h; rfl

theorem gives_of_orStay (h : (o.orStay start).Gives a next) : o.Gives a next := by
  cases o with
  | done => exact h
  | failed => exact absurd ⟨_, _, rfl⟩ h.not_fails

theorem gives_of_check {test : α → Cursor → Option Error} (h : (o.check test).Gives a next) :
    o.Gives a next := by
  cases o with
  | done b c hshorter =>
      rw [check] at h
      split at h
      · exact h
      · exact absurd ⟨_, _, rfl⟩ h.not_fails
  | failed => exact absurd ⟨_, _, rfl⟩ h.not_fails

theorem exists_gives_of_map {g : α → β} {b : β} (h : (o.map g).Gives b next) :
    ∃ a, o.Gives a next := by
  cases o with
  | done a c hshorter =>
      obtain ⟨_, heq⟩ := h
      cases heq
      exact ⟨a, _, rfl⟩
  | failed => exact absurd ⟨_, _, rfl⟩ h.not_fails

theorem eq_failed_of_weaken {m : Nat} {h : n ≤ m} (heq : o.weaken h = .failed error stopped) :
    o = .failed error stopped := by
  cases o with
  | done => cases heq
  | failed => cases heq; rfl

end Outcome

namespace Reader

variable {α : Type} {read : Reader α} {separator : TokenKind} {c next start : Cursor} {a : α}
  {values : List α}

/-- When the reader fails, the cursor is where it was. -/
def StaysOnFailure (read : Reader α) : Prop :=
  ∀ c error stopped, read c = .failed error stopped → stopped = c

theorem attempt_staysOnFailure (read : Reader α) : read.attempt.StaysOnFailure :=
  fun _ _ _ h => Outcome.eq_of_orStay h

theorem attemptThen_staysOnFailure (read : Reader α) (test : α → Cursor → Option Error) :
    (read.attemptThen test).StaysOnFailure := fun _ _ _ h => Outcome.eq_of_orStay h

theorem eq_of_delimitedFrom {c stopped : Cursor} {values : List α} {error : Error}
    (h : delimitedFrom read separator start values c = .failed error stopped) :
    stopped = start := by
  rw [delimitedFrom] at h
  split at h
  · cases h
    rfl
  · next value c₁ h₁ hvalue =>
    split at h
    · exact eq_of_delimitedFrom (Outcome.eq_failed_of_weaken h)
    · cases h
termination_by c.left

theorem delimited_staysOnFailure (read : Reader α) (separator : TokenKind) :
    (read.delimited separator).StaysOnFailure := fun _ _ _ h => eq_of_delimitedFrom h

theorem delimitedFrom_of_separator {values' : List α} {token : Token} {c₁ c₂ : Cursor}
    (hvalue : (read c).Gives a c₁) (hseparator : (c₁.expect separator).Gives token c₂)
    (h : (delimitedFrom read separator start (values ++ [a]) c₂).Gives values' next) :
    (delimitedFrom read separator start values c).Gives values' next := by
  obtain ⟨hshorter, hvalue⟩ := hvalue
  obtain ⟨hshorter', hseparator⟩ := hseparator
  rw [delimitedFrom, attempt, hvalue]
  simp only [Outcome.orStay, hseparator]
  simpa using h

theorem delimitedFrom_of_last (hvalue : (read c).Gives a next)
    (hseparator : (next.expect separator).Fails) :
    (delimitedFrom read separator start values c).Gives (values ++ [a]) next := by
  obtain ⟨hshorter, hvalue⟩ := hvalue
  obtain ⟨_, _, hseparator⟩ := hseparator
  rw [delimitedFrom, attempt, hvalue]
  simp only [Outcome.orStay, hseparator]
  exact ⟨_, rfl⟩

theorem delimitedFrom_cases {values' : List α}
    (h : (delimitedFrom read separator start values c).Gives values' next) :
    ∃ a c₁, (read c).Gives a c₁ ∧
      (values' = values ++ [a] ∧ next = c₁ ∧ (c₁.expect separator).Fails ∨
        ∃ token c₂, (c₁.expect separator).Gives token c₂ ∧
          (delimitedFrom read separator start (values ++ [a]) c₂).Gives values' next) := by
  rw [delimitedFrom] at h
  split at h
  · exact absurd ⟨_, _, rfl⟩ h.not_fails
  · next a c₁ h₁ hvalue =>
    refine ⟨a, c₁, Outcome.gives_of_orStay ⟨h₁, hvalue⟩, ?_⟩
    split at h
    · next token c₂ h₂ hseparator =>
      exact .inr ⟨token, c₂, ⟨h₂, hseparator⟩, Outcome.gives_weaken.mp h⟩
    · next hseparator =>
      obtain ⟨_, heq⟩ := h
      cases heq
      exact .inl ⟨rfl, rfl, _, _, hseparator⟩

/-- One round of reading a list: a value with a separator behind it. -/
inductive DelimitedRound (read : Reader α) (separator : TokenKind) : Round (List α)
  | value {values : List α} {a : α} {token : Token} {c c₁ c₂ : Cursor}
      (hvalue : (read c).Gives a c₁) (hseparator : (c₁.expect separator).Gives token c₂) :
      DelimitedRound read separator (values, c) (values ++ [a], c₂)

/-- The last round of reading a list: a value without a separator behind it. -/
inductive DelimitedEnd (read : Reader α) (separator : TokenKind) :
    List α × Cursor → List α → Cursor → Prop
  | value {values : List α} {a : α} {c next : Cursor} (hvalue : (read c).Gives a next)
      (hseparator : (next.expect separator).Fails) :
      DelimitedEnd read separator (values, c) (values ++ [a]) next

/-- A list is read in rounds until a value has no separator behind it. -/
theorem isLoop_delimitedFrom (hmoves : ∀ c a next, (read c).Gives a next → c.Moves next)
    (separator : TokenKind) (start : Cursor) :
    IsLoop (DelimitedRound read separator) (DelimitedEnd read separator)
      fun s values next => (delimitedFrom read separator start s.1 s.2).Gives values next := by
  refine .of_cases ?_ ?_ ?_ ?_
  · rintro s s' ⟨hvalue, hseparator⟩
    exact (hmoves _ _ _ hvalue).trans (Cursor.moves_of_expect hseparator)
  · rintro s values next ⟨hvalue, hseparator⟩
    exact delimitedFrom_of_last hvalue hseparator
  · rintro s s' values next ⟨hvalue, hseparator⟩ h
    exact delimitedFrom_of_separator hvalue hseparator h
  · intro s values next h
    obtain ⟨a, c₁, hvalue, hcase⟩ := delimitedFrom_cases h
    rcases hcase with ⟨rfl, rfl, hfails⟩ | ⟨token, c₂, hseparator, h⟩
    · exact .inl (.value hvalue hfails)
    · exact .inr ⟨_, .value hvalue hseparator, h⟩

theorem moves_of_delimitedFrom (hmoves : ∀ c a next, (read c).Gives a next → c.Moves next)
    {c next : Cursor} {values values' : List α}
    (h : (delimitedFrom read separator start values c).Gives values' next) : c.Moves next := by
  obtain ⟨a, c₁, hvalue, ⟨-, rfl, -⟩ | ⟨token, c₂, hseparator, h⟩⟩ := delimitedFrom_cases h
  · exact hmoves _ _ _ hvalue
  · have h₁ := hvalue.left_lt
    have h₂ := hseparator.left_lt
    exact ((hmoves _ _ _ hvalue).trans (Cursor.moves_of_expect hseparator)).trans
      (moves_of_delimitedFrom hmoves h)
termination_by c.left

end Reader

/-! ### The readers of the language -/

/-- The readers of the language, and the attempts that can be made with them. -/
inductive IsReader : {α : Type} → Reader α → Prop
  | next : IsReader Cursor.next
  | token (kind : TokenKind) : IsReader (Cursor.expect kind)
  | operator : IsReader Formula.readBinaryOp
  | sign : IsReader Formula.readSign
  | number : IsReader Formula.readNumber
  | symbol : IsReader Formula.readSymbol
  | literal : IsReader Formula.readLiteral
  | member : IsReader Formula.readMember
  | call : IsReader Formula.readCall
  | paren : IsReader Formula.readParen
  | primary : IsReader Formula.readPrimary
  | negation : IsReader Formula.readNegation
  | operand : IsReader Formula.readOperand
  | expression : IsReader Formula.readExpr
  | equation : IsReader Equation.read
  | attempt {α : Type} {read : Reader α} (h : IsReader read) : IsReader read.attempt
  | attemptThen {α : Type} {read : Reader α} (h : IsReader read)
      (test : α → Cursor → Option Error) : IsReader (read.attemptThen test)
  | delimited {α : Type} {read : Reader α} (h : IsReader read) (separator : TokenKind) :
      IsReader (read.delimited separator)

theorem Equation.moves_of_read {c next : Cursor} {e : Equation}
    (h : (Equation.read c).Gives e next) : c.Moves next := by
  rw [Equation.read] at h
  split at h
  · exact absurd ⟨_, _, rfl⟩ h.not_fails
  · next lhs c₁ h₁ hlhs =>
    split at h
    · exact absurd ⟨_, _, rfl⟩ h.not_fails
    · next sign c₂ h₂ hsign =>
      split at h
      · exact absurd ⟨_, _, rfl⟩ h.not_fails
      · next rhs c₃ h₃ hrhs =>
        obtain ⟨_, heq⟩ := h
        cases heq
        exact ((Formula.moves_of_readExpr ⟨_, hlhs⟩).trans
          (Cursor.moves_of_expect ⟨_, hsign⟩)).trans (Formula.moves_of_readExpr ⟨_, hrhs⟩)

/-- A reader that succeeds has passed a token that is not blank. -/
theorem IsReader.moves {α : Type} {read : Reader α} (h : IsReader read) :
    ∀ c a next, (read c).Gives a next → c.Moves next := by
  induction h with
  | next => exact fun c a next h => Cursor.moves_of_next h
  | token kind => exact fun c a next h => Cursor.moves_of_expect h
  | operator => exact fun c a next h => Formula.moves_of_readBinaryOp h
  | sign =>
      intro c a next h
      obtain ⟨token, htoken⟩ := Outcome.exists_gives_of_map h
      exact Cursor.moves_of_expect htoken
  | number =>
      rintro c a next ⟨hshorter, h⟩
      refine Formula.moves_of_readLiteral (f := a) ⟨hshorter, ?_⟩
      rw [Formula.readLiteral, h]
  | symbol =>
      intro c a next h
      obtain ⟨name, hname⟩ := Outcome.exists_gives_of_map h
      exact Formula.moves_of_readName hname
  | literal => exact fun c a next h => Formula.moves_of_readLiteral h
  | member => exact fun c a next h => Formula.moves_of_readMember h
  | call => exact fun c a next h => Formula.moves_of_readCall h
  | paren => exact fun c a next h => Formula.moves_of_readParen h
  | primary => exact fun c a next h => Formula.moves_of_readPrimary h
  | negation => exact fun c a next h => Formula.moves_of_readNegation h
  | operand => exact fun c a next h => Formula.moves_of_readOperand h
  | expression => exact fun c a next h => Formula.moves_of_readExpr h
  | equation => exact fun c a next h => Equation.moves_of_read h
  | attempt _ ih => exact fun c a next h => ih c a next (Outcome.gives_of_orStay h)
  | attemptThen _ test ih =>
      exact fun c a next h => ih c a next (Outcome.gives_of_check (Outcome.gives_of_orStay h))
  | delimited _ separator ih => exact fun c a next h => Reader.moves_of_delimitedFrom ih h

namespace Formula

theorem readList_staysOnFailure (separator : TokenKind) :
    Reader.StaysOnFailure (readList separator) := by
  intro c error stopped h
  rw [readList] at h
  split at h
  · cases h
    rfl
  · split at h
    · cases h
    · split at h
      · cases h
        rfl
      · cases h

/-- The loop and the recursion read the same lists. -/
theorem delimitedFrom_readExpr {separator : TokenKind} {start : Cursor} (values : List Formula)
    (c : Cursor) : Reader.delimitedFrom readExpr separator start values c =
      ((readList separator c).map (values ++ ·)).orStay start := by
  rw [Reader.delimitedFrom, readList, Reader.attempt]
  cases readExpr c with
  | failed error stopped => rfl
  | done first c₁ h₁ =>
      simp only [Outcome.orStay]
      cases c₁.expect separator with
      | failed error stopped => rfl
      | done token c₂ h₂ =>
          simp only
          rw [delimitedFrom_readExpr (values ++ [first]) c₂]
          cases readList separator c₂ with
          | failed error stopped => rfl
          | done others c₃ h₃ => simp [Outcome.map, Outcome.orStay, Outcome.weaken]
termination_by c.left

/-- The arguments of a call are read as any list is. -/
theorem readList_eq_delimited (separator : TokenKind) :
    readList separator = Reader.delimited readExpr separator := by
  funext c
  rw [Reader.delimited, delimitedFrom_readExpr]
  cases h : readList separator c with
  | done args next hshorter => rfl
  | failed error stopped =>
      obtain rfl := readList_staysOnFailure separator c error stopped h
      rfl

end Formula

/-- **Reading gets ahead, and what is given up is given up in place.**  At every place in a row of
tokens, a reader fails or goes on at a later place of the row, past a token that is not blank.  An
attempt that fails is still where it began, whatever it is an attempt of.  The loops of the readers
are rounds in which such a token is passed, so all of them come to an end. -/
theorem readers_getAhead :
    (∀ (α : Type) (read : Reader α), IsReader read → ∀ tokens i,
      (read (.atIndex tokens i)).Fails ∨ ∃ a j, Cursor.Advances tokens i j ∧
        (read (.atIndex tokens i)).Gives a (.atIndex tokens j)) ∧
    (∀ (α : Type) (read : Reader α), read.attempt.StaysOnFailure ∧
      (∀ test, (read.attemptThen test).StaysOnFailure) ∧
      ∀ separator, (read.delimited separator).StaysOnFailure) ∧
    (∀ prec, IsLoop (Formula.OperationsRound prec) (Formula.OperationsEnd prec)
      fun s f next => (Formula.readOperations s.1 prec s.2).Gives f next) ∧
    (∀ lhs op, IsLoop (Formula.AbsorbRound op) (Formula.AbsorbEnd lhs op)
      fun s f next => (Formula.absorb lhs op s.1 s.2).Gives f next) ∧
    (∀ (α : Type) (read : Reader α), IsReader read → ∀ separator start,
      IsLoop (Reader.DelimitedRound read separator) (Reader.DelimitedEnd read separator)
        fun s values next => (read.delimitedFrom separator start s.1 s.2).Gives values next) ∧
    ∀ separator, Formula.readList separator = Reader.delimited Formula.readExpr separator := by
  refine ⟨fun α read hread tokens i => ?_, fun α read => ⟨read.attempt_staysOnFailure,
    read.attemptThen_staysOnFailure, read.delimited_staysOnFailure⟩, Formula.isLoop_readOperations,
    Formula.isLoop_absorb, fun α read hread => Reader.isLoop_delimitedFrom hread.moves,
    Formula.readList_eq_delimited⟩
  rcases (read (.atIndex tokens i)).gives_or_fails with ⟨a, next, h⟩ | hfails
  · obtain ⟨j, hj, rfl⟩ := Cursor.exists_index_of_moves (hread.moves _ _ _ h)
    exact .inr ⟨a, j, hj, h⟩
  · exact .inl hfails

/-- The variable behind a blank is passed, and a list of such variables cannot go on for ever. -/
theorem readers_getAhead_variable :
    (∃ f j, Cursor.Advances [⟨.whitespace, " ", ⟨0, 1⟩⟩, ⟨.name, "x", ⟨1, 2⟩⟩] 0 j ∧
      (Formula.readExpr (.atIndex [⟨.whitespace, " ", ⟨0, 1⟩⟩, ⟨.name, "x", ⟨1, 2⟩⟩] 0)).Gives f
        (.atIndex [⟨.whitespace, " ", ⟨0, 1⟩⟩, ⟨.name, "x", ⟨1, 2⟩⟩] j)) ∧
    WellFounded fun s' s => Reader.DelimitedRound Formula.readExpr .comma s s' := by
  refine ⟨?_, (readers_getAhead.2.2.2.2.1 _ _ .expression .comma (.atIndex [] 0)).ends⟩
  rcases readers_getAhead.1 _ _ .expression [⟨.whitespace, " ", ⟨0, 1⟩⟩, ⟨.name, "x", ⟨1, 2⟩⟩] 0
    with hfails | hgives
  · have hread : (Formula.readExpr (.atIndex [⟨.whitespace, " ", ⟨0, 1⟩⟩,
        ⟨.name, "x", ⟨1, 2⟩⟩] 0)).result = .ok (.symbol ⟨"x", ⟨1, 2⟩⟩) := by cbv
    obtain ⟨error, stopped, heq⟩ := hfails
    rw [heq] at hread
    cases hread
  · exact hgives

end AlgebraTutor
