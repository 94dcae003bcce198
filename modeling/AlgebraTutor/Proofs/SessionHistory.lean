/-
What a session remembers after any requests.

A request reads its texts one after another, and what it does in between and afterwards concerns
them and texts that the tutor shows.  Those can always be read, and neither listing steps nor
simplifying ever fails with the standard rules.  So there is one way in which grading can fail once
there are sides to be graded: at the first text that cannot be read, with those before it remembered
and nothing of this one.

A text counts as remembered as soon as one with the same key is.  It is then never read again, so
that even a text that cannot be read may be remembered, and does no harm.
-/
import AlgebraTutor.Proofs.Answers
import AlgebraTutor.Proofs.ListedReductions

namespace AlgebraTutor

namespace Session

variable {α β : Type} {S : Settings → Prop} {s s' : Session} {text : String}

/-! ### Texts of which something is remembered -/

/-- The tree of the text is remembered, or that of a text with the same key. -/
def Remembers (s : Session) (text : String) : Prop := ∃ e, s.parsed[squeeze text]? = some e

/-- Nothing is remembered of the text, nor of one with the same key. -/
structure Lacks (s : Session) (text : String) : Prop where
  parsed : s.parsed[squeeze text]? = none
  explored : s.explored[squeeze text]? = none
  answers : s.answers[squeeze text]? = none

theorem Extends.remembers (h : s'.Extends s) (hs : s.Remembers text) : s'.Remembers text := by
  obtain ⟨e, he⟩ := hs
  exact ⟨e, h.parsed _ e he⟩

theorem Extends.lacks (h : s'.Extends s) (hs : s'.Lacks text) : s.Lacks text where
  parsed := Option.eq_none_iff_forall_not_mem.mpr fun e he => by
    cases hs.parsed.symm.trans (h.parsed _ e he)
  explored := Option.eq_none_iff_forall_not_mem.mpr fun steps hsteps => by
    cases hs.explored.symm.trans (h.explored _ steps hsteps)
  answers := Option.eq_none_iff_forall_not_mem.mpr fun answer hanswer => by
    cases hs.answers.symm.trans (h.answers _ answer hanswer)

/-- Without its tree nothing of a text is remembered. -/
theorem Coherent.lacks (hs : s.Coherent S) (h : s.parsed[squeeze text]? = none) :
    s.Lacks text where
  parsed := h
  explored := Option.eq_none_iff_forall_not_mem.mpr fun steps hsteps => by
    obtain ⟨e, -, -, he, -⟩ := hs.explored _ steps hsteps
    cases h.symm.trans he
  answers := Option.eq_none_iff_forall_not_mem.mpr fun answer hanswer => by
    obtain ⟨e, -, -, -, -, he, -⟩ := hs.answers _ answer hanswer
    cases h.symm.trans he

/-! ### Reading texts one after another -/

/-- The texts are remembered up to one that cannot be read and of which nothing is remembered. -/
def StopsAt (s : Session) (texts : List String) (error : Error) : Prop :=
  ∃ before text after, texts = before ++ text :: after ∧
    (∀ earlier ∈ before, s.Remembers earlier) ∧
    Expr.parseNormal text = .error error ∧ s.Lacks text

/-- In a session that remembers what is known, the operation reads the texts one after another, and
it fails only if one of them cannot be read. -/
def Reads (S : Settings → Prop) (known texts : List String) {α : Type} (Q : α → Prop)
    (m : SessionM α) : Prop :=
  ∀ s : Session, s.Coherent S → (∀ text ∈ known, s.Remembers text) →
    s.Yields S m (fun a s' => Q a ∧ ∀ text ∈ texts, s'.Remembers text) ∧
    ∀ error, s.resultOf m = .error error → (s.stateAfter m).StopsAt texts error

section Reading

variable {known texts more : List String} {Q : α → Prop} {R : β → Prop} {m : SessionM α}
  {f : α → SessionM β}

theorem StopsAt.append {error : Error} (h : s.StopsAt texts error) (more : List String) :
    s.StopsAt (texts ++ more) error := by
  obtain ⟨before, text, after, rfl, h⟩ := h
  exact ⟨before, text, after ++ more, by simp, h⟩

theorem StopsAt.after {error : Error} (h : s.StopsAt more error)
    (htexts : ∀ text ∈ texts, s.Remembers text) : s.StopsAt (texts ++ more) error := by
  obtain ⟨before, text, after, rfl, hbefore, h⟩ := h
  refine ⟨texts ++ before, text, after, by simp, fun earlier hearlier => ?_, h⟩
  rcases List.mem_append.mp hearlier with hearlier | hearlier
  · exact htexts earlier hearlier
  · exact hbefore earlier hearlier

/-- What is read first is known to what comes then. -/
theorem Reads.bind (hm : Reads S known texts Q m)
    (hf : ∀ a, Q a → Reads S (texts ++ known) more R (f a)) :
    Reads S known (texts ++ more) R (m >>= f) := by
  intro s hs hknown
  obtain ⟨hyields, hstops⟩ := hm s hs hknown
  have hthen : ∀ a (s' : Session), s'.Coherent S → s'.Extends s →
      (Q a ∧ ∀ text ∈ texts, s'.Remembers text) →
        s'.Yields S (f a) (fun b s'' => R b ∧ ∀ text ∈ more, s''.Remembers text) ∧
          ∀ error, s'.resultOf (f a) = .error error →
            (s'.stateAfter (f a)).StopsAt more error := by
    rintro a s' hs' hkept ⟨ha, htexts⟩
    refine hf a ha s' hs' fun text htext => ?_
    rcases List.mem_append.mp htext with htext | htext
    · exact htexts text htext
    · exact hkept.remembers (hknown text htext)
  constructor
  · refine hyields.bind fun a s' hs' hkept ha => ?_
    refine (hthen a s' hs' hkept ha).1.weaken fun b s'' _ hkept' hb => ⟨hb.1, fun text htext => ?_⟩
    rcases List.mem_append.mp htext with htext | htext
    · exact hkept'.remembers (ha.2 text htext)
    · exact hb.2 text htext
  · intro error herror
    rcases bind_cases s m f with ⟨error', hfirst, hresult, hstate⟩ | ⟨a, ha, hresult, hstate⟩
    · rw [hresult] at herror
      cases herror
      rw [hstate]
      exact (hstops _ hfirst).append more
    · have hfirst := hyields.result a ha
      obtain ⟨hrest, hfails⟩ := hthen a _ hyields.coherent hyields.kept hfirst
      rw [hresult] at herror
      rw [hstate]
      exact (hfails error herror).after fun text htext => hrest.kept.remembers (hfirst.2 text htext)

/-- Nothing more is read after some texts. -/
theorem Reads.bind_reading_nothing (hm : Reads S known texts Q m)
    (hf : ∀ a, Q a → Reads S (texts ++ known) [] R (f a)) : Reads S known texts R (m >>= f) := by
  have hbind := hm.bind hf
  rwa [List.append_nil] at hbind

theorem Reads.of_yields (hm : ∀ s : Session, s.Coherent S → s.Yields S m fun a _ => Q a)
    (hok : ∀ s : Session, s.Coherent S → ∃ a, s.resultOf m = .ok a) : Reads S known [] Q m := by
  intro s hs _
  refine ⟨(hm s hs).weaken fun a s' _ _ ha => ⟨ha, nofun⟩, fun error herror => ?_⟩
  obtain ⟨a, ha⟩ := hok s hs
  cases ha.symm.trans herror

theorem reads_pure {a : α} (h : Q a) : Reads S known [] Q (pure a) :=
  .of_yields (fun _ hs => .pure hs h) fun _ _ => ⟨a, rfl⟩

theorem Reads.weaken {Q' : α → Prop} (hm : Reads S known texts Q m) (h : ∀ a, Q a → Q' a) :
    Reads S known texts Q' m := by
  intro s hs hknown
  obtain ⟨hyields, hstops⟩ := hm s hs hknown
  exact ⟨hyields.weaken fun a _ _ _ ha => ⟨h a ha.1, ha.2⟩, hstops⟩

/-- A text that is known, or that shows a tree, can be read. -/
theorem Reads.of_known (hm : Reads S known [text] Q m)
    (htext : text ∈ known ∨ Expr.Shows text) : Reads S known [] Q m := by
  intro s hs hknown
  obtain ⟨hyields, hstops⟩ := hm s hs hknown
  refine ⟨hyields.weaken fun a s' _ _ ha => ⟨ha.1, nofun⟩, fun error herror => ?_⟩
  obtain ⟨before, stop, after, htexts, -, hread, hlacks⟩ := hstops error herror
  obtain rfl : text = stop := by
    cases before with
    | nil => exact (List.cons.inj htexts).1
    | cons first before => simp at htexts
  rcases htext with hmem | hshows
  · obtain ⟨e, he⟩ := hyields.kept.remembers (hknown text hmem)
    cases hlacks.parsed.symm.trans he
  · obtain ⟨x, hx⟩ := hshows.exists_parse
    cases (Expr.parseNormal_of_parse hx).symm.trans hread

end Reading

/-! ### The operations on one text -/

theorem stopsAt_of_parse {error : Error} (hs : s.Coherent S)
    (h : s.resultOf (parse text) = .error error) :
    (s.stateAfter (parse text)).StopsAt [text] error := by
  rcases parse_cases s text with ⟨e, -, hresult, -⟩ |
    ⟨hnew, ⟨error', hread, hresult, hstate⟩ | ⟨e, -, hresult, -⟩⟩
  · cases hresult.symm.trans h
  · cases hresult.symm.trans h
    rw [hstate]
    exact ⟨[], text, [], rfl, nofun, hread, hs.lacks hnew⟩
  · cases hresult.symm.trans h

variable {known : List String}

theorem reads_parse (text : String) : Reads S known [text] Expr.IsPlain (parse text) := by
  intro s hs _
  refine ⟨(yields_parse hs text).weaken fun e s' hs' _ he => ?_, fun _ => stopsAt_of_parse hs⟩
  refine ⟨hs'.isPlain_of_parsed he, fun other hother => ?_⟩
  obtain rfl := List.mem_singleton.mp hother
  exact ⟨e, he⟩

theorem reads_nextSteps (text : String) :
    Reads S known [text] (Listed Expr.Shows) (nextSteps text) := by
  intro s hs _
  constructor
  · refine (yields_nextSteps hs text).weaken fun steps s' hs' _ hsteps => ?_
    obtain ⟨e, -, -, he, -⟩ := hs'.explored _ steps hsteps
    refine ⟨hs'.shows_of_explored hsteps, fun other hother => ?_⟩
    obtain rfl := List.mem_singleton.mp hother
    exact ⟨e, he⟩
  · intro error herror
    rcases nextSteps_cases s text with ⟨steps, -, hresult, -⟩ |
      ⟨-, ⟨error', hread, hresult, hstate⟩ | ⟨e, -, hresult, -⟩⟩
    · cases hresult.symm.trans herror
    · cases hresult.symm.trans herror
      rw [hstate]
      exact stopsAt_of_parse hs hread
    · obtain ⟨steps, hsteps⟩ := Explorer.exists_ok_of_nextSteps_standard s.context e
      rw [hs.rules, hsteps] at hresult
      cases hresult.symm.trans herror

/-- With the standard rules every tree has an answer. -/
theorem Coherent.exists_simplified (hs : s.Coherent S) (e : Expr) :
    ∃ answer, s.simplified e = .ok answer := by
  obtain ⟨final, steps, hrun⟩ := Simplifier.exists_ok_of_run (s := s.simplifier false) hs.rules e
  exact ⟨final.text, by rw [simplified, hrun]; rfl⟩

theorem reads_answer (text : String) : Reads S known [text] Expr.Shows (answer text) := by
  intro s hs _
  constructor
  · refine (yields_answer hs text).weaken fun result s' hs' _ hresult => ?_
    obtain ⟨e, -, -, -, -, he, -⟩ := hs'.answers _ result hresult
    refine ⟨hs'.shows_of_answers hresult, fun other hother => ?_⟩
    obtain rfl := List.mem_singleton.mp hother
    exact ⟨e, he⟩
  · intro error herror
    rcases answer_cases s text with ⟨known, -, hresult, -⟩ |
      ⟨-, ⟨error', hread, hresult, hstate⟩ | ⟨e, -, hresult, -⟩⟩
    · cases hresult.symm.trans herror
    · cases hresult.symm.trans herror
      rw [hstate]
      exact stopsAt_of_parse hs hread
    · obtain ⟨answer, hanswer⟩ := hs.exists_simplified e
      cases (hresult.trans hanswer).symm.trans herror

theorem reads_areEqual (a b : String) : Reads S known [] (fun _ => True) (areEqual a b) :=
  .of_yields (fun _ hs => (yields_areEqual hs a b).weaken fun _ _ _ _ _ => trivial)
    fun _ _ => ⟨_, rfl⟩

theorem reads_canonicalKey? (text : String) :
    Reads S known [] (fun _ => True) (canonicalKey? text) :=
  .of_yields (fun _ hs => (yields_canonicalKey? hs text).weaken fun _ _ _ _ _ => trivial)
    fun _ _ => ⟨_, rfl⟩

/-- **On texts that are known or that show trees nothing fails**, and no other text is read. -/
theorem searching_reads (known : List String) :
    Searching (fun text => text ∈ known ∨ Expr.Shows text) (Reads S known []) where
  pure := reads_pure
  bind := Reads.bind_reading_nothing
  get_bind _ h s hs hknown := by
    obtain ⟨hyields, hstops⟩ := h s s hs hknown
    refine ⟨.get_bind hyields, fun error herror => ?_⟩
    rw [resultOf_get_bind] at herror
    rw [stateAfter_get_bind]
    exact hstops error herror
  shows := .inr
  parse {text} h := (reads_parse text).of_known h
  answer {text} h := ((reads_answer text).of_known h).weaken fun _ => .inr
  areEqual := reads_areEqual
  canonicalKey? := reads_canonicalKey?
  nextSteps {text} h := by
    refine ((reads_nextSteps text).of_known h).weaken fun steps hlisted step hstep => ?_
    obtain ⟨hafter, hmistakes⟩ := hlisted step hstep
    exact ⟨.inr hafter, fun mistake hmem => .inr (hmistakes mistake hmem)⟩

/-! ### Grading -/

section Grading

variable {before after : String}

theorem reads_assess (hbefore : before ∈ known) (after answer : String) :
    Reads S known [after] (fun _ => True) (Assessment.assess before after answer) := by
  have hread : Reads S known [] Expr.IsPlain (parse before) :=
    (reads_parse before).of_known (.inl hbefore)
  rw [Assessment.assess_eq]
  refine hread.bind fun _ _ => (reads_parse after).bind_reading_nothing fun _ _ => ?_
  refine Reads.weaken (Q := fun infos => ∀ info ∈ infos, info.Untagged) ?_ fun _ _ => trivial
  exact (searching_reads _).assessReadTexts (.inl (by simp [hbefore])) (.inl (by simp)) answer

theorem reads_assessChain (answer : String) (first : String) (rest : List String)
    (hfirst : first ∈ known) :
    Reads S known rest (fun _ => True) (Assessment.assessChain answer (first :: rest)) := by
  induction rest generalizing first known with
  | nil => exact reads_pure trivial
  | cons after rest ih =>
      refine (reads_assess hfirst after answer).bind fun infos _ => ?_
      exact (ih after (by simp)).bind_reading_nothing fun _ _ => reads_pure trivial

theorem reads_assessStep (before after : String) :
    Reads S known [before, after] (fun _ => True) (assessStep before after) :=
  (reads_answer before).bind fun answer _ => reads_assess (by simp) after answer

theorem reads_assessSteps (texts : List String) :
    Reads S known texts (fun _ => True) (assessSteps texts) := by
  cases texts with
  | nil => exact reads_pure trivial
  | cons first rest =>
      exact (reads_answer first).bind fun answer _ => reads_assessChain answer first rest (by simp)

/-- The sides of both equations are read before any of them is graded. -/
theorem reads_assessSides (lhsText rhsText lhsText' rhsText' : String) :
    Reads S known [lhsText, rhsText, lhsText', rhsText'] (fun _ => True)
      (Assessment.assessSides lhsText rhsText lhsText' rhsText') := by
  refine (reads_parse lhsText).bind fun lhs hlhs => (reads_parse rhsText).bind fun rhs hrhs => ?_
  refine (reads_parse lhsText').bind fun _ _ => ?_
  refine (reads_parse rhsText').bind_reading_nothing fun _ _ => ?_
  exact (searching_reads _).assessReadSides (.inl (by simp)) (.inl (by simp)) (.inl (by simp))
    (.inl (by simp)) hlhs hrhs

end Grading

/-! ### Simplification -/

section Simplifying

variable {settings : Settings}

theorem bind_pure_eq (s : Session) (m : SessionM α) (f : α → β) :
    s.resultOf (m >>= fun a => pure (f a)) = (s.resultOf m).map f ∧
      s.stateAfter (m >>= fun a => pure (f a)) = s.stateAfter m := by
  rcases bind_cases s m fun a => pure (f a) with
    ⟨error, hfirst, hresult, hstate⟩ | ⟨a, hfirst, hresult, hstate⟩
  · rw [hresult, hfirst]
    exact ⟨rfl, hstate⟩
  · rw [hresult, hfirst]
    exact ⟨rfl, hstate⟩

/-- Steps are those of the tree that reading gives, remembered or not. -/
theorem Coherent.resultOf_nextSteps (hs : s.Coherent (· = settings)) {root : Expr}
    (hroot : s.resultOf (parse text) = .ok root) :
    s.resultOf (nextSteps text) = Explorer.nextSteps s.context s.rules root := by
  rcases nextSteps_cases s text with ⟨steps, hsteps, hresult, -⟩ |
    ⟨-, ⟨error, hread, -, -⟩ | ⟨e, hread, hresult, -⟩⟩
  · obtain ⟨e, _, rfl, he, hnext⟩ := hs.explored _ steps hsteps
    obtain rfl := Except.ok.inj ((resultOf_parse_of_parsed he).symm.trans hroot)
    rw [hresult, hs.rules, ← hnext, ← hs.settings]
    rfl
  · cases hread.symm.trans hroot
  · cases hread.symm.trans hroot
    exact hresult

/-- Listing every step reads the text without remembering it first. -/
theorem possibilities_cases (s : Session) (text : String) (dryRun : Bool) :
    (∃ error, s.resultOf (parse text) = .error error ∧
      s.resultOf (possibilities text dryRun) = .error error ∧
      s.stateAfter (possibilities text dryRun) = s) ∨
    ∃ root, s.resultOf (parse text) = .ok root ∧
      s.resultOf (possibilities text dryRun) =
        (if dryRun then Explorer.nextSteps s.context s.rules root
          else s.resultOf (nextSteps text)).map (Simplified.mk root) ∧
      s.stateAfter (possibilities text dryRun) =
        if dryRun then s else s.stateAfter (nextSteps text) := by
  obtain ⟨hread, hsame⟩ := resultOf_parseSilently s text
  unfold possibilities
  rcases bind_cases s (parseSilently text) _ with
    ⟨error, hfirst, hresult, hstate⟩ | ⟨root, hfirst, hresult, hstate⟩
  · exact .inl ⟨error, hread.symm.trans hfirst, hresult, hstate.trans hsame⟩
  · refine .inr ⟨root, hread.symm.trans hfirst, ?_⟩
    rw [hresult, hstate, hsame]
    cases dryRun with
    | false =>
        rw [if_neg Bool.false_ne_true, if_neg Bool.false_ne_true, if_neg Bool.false_ne_true]
        exact bind_pure_eq s (nextSteps text) (Simplified.mk root)
    | true =>
        rw [if_pos rfl, if_pos rfl, if_pos rfl, resultOf_get_bind, stateAfter_get_bind]
        have hlists := bind_pure_eq s (liftExcept (Explorer.nextSteps s.context s.rules root))
          (Simplified.mk root)
        rw [resultOf_liftExcept, stateAfter_liftExcept] at hlists
        exact hlists

/-- A dry run leaves the session as it was. -/
theorem stateAfter_simplify_dryRun (s : Session) (text : String)
    (mistakes allPossibilities : Bool) :
    s.stateAfter (simplify text ⟨mistakes, true, allPossibilities⟩) = s := by
  cases allPossibilities with
  | true =>
      show s.stateAfter (possibilities text true) = s
      rcases possibilities_cases s text true with ⟨error, -, -, hstate⟩ | ⟨root, -, -, hstate⟩
      · exact hstate
      · exact hstate
  | false =>
      obtain ⟨-, hsame⟩ := resultOf_parseSilently s text
      rw [simplify_eq, if_pos rfl]
      rcases bind_cases s (parseSilently text) (simplifyTree text mistakes true) with
        ⟨error, -, -, hstate⟩ | ⟨root, -, -, hstate⟩
      · exact hstate.trans hsame
      · rw [hstate, hsame]
        obtain ⟨-, ⟨error, -, hstate⟩ | ⟨final, steps, -, hstate⟩⟩ :=
          simplifyTree_cases s text mistakes true root
        · exact hstate
        · exact hstate

/-- A dry run gives what the same request would give without it. -/
theorem Coherent.resultOf_simplify_dryRun (hs : s.Coherent (· = settings)) (text : String)
    (mistakes allPossibilities : Bool) :
    s.resultOf (simplify text ⟨mistakes, true, allPossibilities⟩) =
      s.resultOf (simplify text ⟨mistakes, false, allPossibilities⟩) := by
  cases allPossibilities with
  | true =>
      show s.resultOf (possibilities text true) = s.resultOf (possibilities text false)
      rcases possibilities_cases s text true, possibilities_cases s text false with
        ⟨⟨error, hread, hdry, -⟩ | ⟨root, hread, hdry, -⟩,
          ⟨error', hread', hwet, -⟩ | ⟨root', hread', hwet, -⟩⟩
      · cases hread.symm.trans hread'
        exact hdry.trans hwet.symm
      · cases hread.symm.trans hread'
      · cases hread.symm.trans hread'
      · cases hread.symm.trans hread'
        refine hdry.trans (Eq.trans ?_ hwet.symm)
        rw [if_pos rfl, if_neg Bool.false_ne_true, hs.resultOf_nextSteps hread]
  | false =>
      obtain ⟨hread, hsame⟩ := resultOf_parseSilently s text
      rw [simplify_eq, simplify_eq, if_pos rfl, if_neg Bool.false_ne_true]
      rcases bind_cases s (parseSilently text) (simplifyTree text mistakes true) with
        ⟨error, hfirst, hdry, -⟩ | ⟨root, hfirst, hdry, -⟩
      · exact hdry.trans (bind_of_error (hread.symm.trans hfirst)).1.symm
      · obtain ⟨hwet, -⟩ :=
          bind_of_ok (f := simplifyTree text mistakes false) (hread.symm.trans hfirst)
        obtain ⟨hdryTree, -⟩ := simplifyTree_cases s text mistakes true root
        obtain ⟨hwetTree, -⟩ :=
          simplifyTree_cases (s.stateAfter (parse text)) text mistakes false root
        obtain ⟨parsed, hparsed⟩ := stateAfter_parse s text
        rw [hdry, hsame, hdryTree, hwet, hwetTree, hparsed]
        rfl

/-- Simplification fails at its text or not at all. -/
theorem Coherent.stopsAt_of_simplify (hs : s.Coherent S) {mistakes allPossibilities : Bool}
    {error : Error}
    (h : s.resultOf (simplify text ⟨mistakes, false, allPossibilities⟩) = .error error) :
    s.stateAfter (simplify text ⟨mistakes, false, allPossibilities⟩) = s ∨
      (s.stateAfter (simplify text ⟨mistakes, false, allPossibilities⟩)).StopsAt [text] error := by
  cases allPossibilities with
  | true =>
      change s.resultOf (possibilities text false) = _ at h
      show s.stateAfter (possibilities text false) = s ∨
        (s.stateAfter (possibilities text false)).StopsAt [text] error
      rcases possibilities_cases s text false with
        ⟨error', -, -, hstate⟩ | ⟨root, -, hresult, hstate⟩
      · exact .inl hstate
      · have hreads : Reads S [] [text] (Listed Expr.Shows) (nextSteps text) := reads_nextSteps text
        obtain ⟨-, hstops⟩ := hreads s hs nofun
        rw [hresult, if_neg Bool.false_ne_true] at h
        rw [hstate, if_neg Bool.false_ne_true]
        refine .inr (hstops error ?_)
        cases hsteps : s.resultOf (nextSteps text) with
        | ok steps => rw [hsteps] at h; cases h
        | error error' => rw [hsteps] at h; cases h; rfl
  | false =>
      rw [simplify_eq, if_neg Bool.false_ne_true] at h ⊢
      rcases bind_cases s (parse text) (simplifyTree text mistakes false) with
        ⟨error', hfirst, hresult, hstate⟩ | ⟨root, hfirst, hresult, -⟩
      · cases hresult.symm.trans h
        rw [hstate]
        exact .inr (stopsAt_of_parse hs hfirst)
      · obtain ⟨hTree, -⟩ :=
          simplifyTree_cases (s.stateAfter (parse text)) text mistakes false root
        obtain ⟨final, steps, hrun⟩ := Simplifier.exists_ok_of_run
          (s := (s.stateAfter (parse text)).simplifier mistakes)
          (yields_parse hs text).coherent.rules root
        rw [hresult, hTree, simplifiedBy, hrun] at h
        cases h

end Simplifying

/-! ### Requests -/

theorem stateAfter_solve (s : Session) (equation : String) (unknown : Option String) :
    s.stateAfter (solve equation unknown) = s := by
  unfold solve
  rw [stateAfter_get_bind]
  dsimp only
  split
  · rfl
  · rcases liftExcept_bind_cases s (Expr.parseEquation equation) _ with
      ⟨error, -, -, hstate⟩ | ⟨sides, -, -, hstate⟩
    · exact hstate
    · exact hstate.trans (stateAfter_liftExcept ..)

/-- An equation without two sides is refused before anything is read. -/
theorem Coherent.stopsAt_of_assessEquation (hs : s.Coherent S) {before after : String}
    {error : Error} (h : s.resultOf (assessEquation before after) = .error error) :
    s.stateAfter (assessEquation before after) = s ∨
      (s.stateAfter (assessEquation before after)).StopsAt
        (Request.sidesOf before ++ Request.sidesOf after) error := by
  rw [Assessment.assessEquation_eq] at h ⊢
  unfold Request.sidesOf
  rcases liftExcept_bind_cases s (Assessment.splitSides before) _ with
    ⟨_, -, -, hstate⟩ | ⟨⟨lhsText, rhsText⟩, hsplit, hresult, hstate⟩
  · exact .inl hstate
  rw [hresult] at h
  rw [hstate]
  rcases liftExcept_bind_cases s (Assessment.splitSides after) _ with
    ⟨_, -, -, hstate'⟩ | ⟨⟨lhsText', rhsText'⟩, hsplit', hresult', hstate'⟩
  · exact .inl hstate'
  rw [hresult'] at h
  rw [hstate', hsplit, hsplit']
  have hreads : Reads S [] [lhsText, rhsText, lhsText', rhsText'] (fun _ => True)
      (Assessment.assessSides lhsText rhsText lhsText' rhsText') :=
    reads_assessSides lhsText rhsText lhsText' rhsText'
  exact .inr ((hreads s hs nofun).2 error h)

/-- **A request that fails changes nothing or stops at the first of its texts that cannot be read
and is not remembered.** -/
theorem Coherent.stopsAt_of_operation (hs : s.Coherent S) (request : Request) {error : Error}
    (h : s.resultOf request.operation = .error error) :
    s.stateAfter request.operation = s ∨
      (s.stateAfter request.operation).StopsAt request.texts error := by
  have hreads {α : Type} {Q : α → Prop} {m : SessionM α} {texts : List String}
      (hm : Reads S [] texts Q m) (hm' : s.resultOf m = .error error) :
      (s.stateAfter m).StopsAt texts error := (hm s hs nofun).2 error hm'
  cases request with
  | parse text => exact .inr (hreads (reads_parse text) h)
  | canonicalKey text => exact .inr (hreads (reads_canonicalKey? text) h)
  | areEqual a b => exact .inr (hreads (reads_areEqual a b) h)
  | simplify text options =>
      obtain ⟨mistakes, dryRun, allPossibilities⟩ := options
      cases dryRun with
      | true => exact .inl (stateAfter_simplify_dryRun s text mistakes allPossibilities)
      | false => exact hs.stopsAt_of_simplify h
  | nextSteps text => exact .inr (hreads (reads_nextSteps text) h)
  | answer text => exact .inr (hreads (reads_answer text) h)
  | assessStep before after => exact .inr (hreads (reads_assessStep before after) h)
  | assessSteps texts => exact .inr (hreads (reads_assessSteps texts) h)
  | assessEquation before after => exact hs.stopsAt_of_assessEquation h
  | solve equation unknown => exact .inl (stateAfter_solve s equation unknown)

/-! ### Any requests -/

variable {settings : Settings}

/-- The steps and the answer under a key are those of the tree under it. -/
structure FitsTogether (s : Session) : Prop where
  explored : ∀ (key : String) (steps : List Step), s.explored[key]? = some steps →
    ∃ e, s.parsed[key]? = some e ∧ Explorer.nextSteps s.context s.rules e = .ok steps
  answers : ∀ (key : String) (answer : String), s.answers[key]? = some answer →
    ∃ e, s.parsed[key]? = some e ∧ s.simplified e = .ok answer

theorem Coherent.fitsTogether (hs : s.Coherent (· = settings)) : s.FitsTogether where
  explored key steps hsteps := by
    obtain ⟨e, _, rfl, he, hnext⟩ := hs.explored key steps hsteps
    refine ⟨e, he, ?_⟩
    rw [hs.rules, ← hnext, ← hs.settings]
    rfl
  answers key answer hanswer := by
    obtain ⟨e, _, final, steps, rfl, he, hrun, rfl⟩ := hs.answers key answer hanswer
    refine ⟨e, he, ?_⟩
    rw [simplified, hs.simplifier_eq, hs.settings, hrun]
    rfl

theorem Coherent.afterRequests (hs : s.Coherent (· = settings)) (requests : List Request) :
    (s.afterRequests requests).Coherent (· = settings) ∧ (s.afterRequests requests).Extends s := by
  induction requests generalizing s with
  | nil => exact ⟨hs, .refl s⟩
  | cons request rest ih =>
      obtain ⟨hcoherent, hkept⟩ := hs.operation request
      obtain ⟨hrest, hmore⟩ := ih hcoherent
      exact ⟨hrest, hmore.trans (hkept fun _ h => h.trans hs.settings.symm)⟩

/-- **What a session remembers fits together and never changes**, whatever it was asked, also if it
failed.  A request that fails changes nothing, or it reads its texts up to one that cannot be read,
and then nothing of this one is remembered, neither before nor after.  A dry run changes nothing and
gives what the same request would give without it. -/
theorem fitsTogether_afterRequests (settings : Settings) (history : List Request) :
    let s := (ofSettings settings).afterRequests history
    s.FitsTogether ∧ (∀ more, (s.afterRequests more).Extends s) ∧
    (∀ (request : Request) (error : Error), s.resultOf request.operation = .error error →
      let s' := s.stateAfter request.operation
      s' = s ∨ ∃ before text after, request.texts = before ++ text :: after ∧
        (∀ earlier ∈ before, s'.Remembers earlier) ∧
        Expr.parseNormal text = .error error ∧ s.Lacks text ∧ s'.Lacks text) ∧
    ∀ (text : String) (mistakes allPossibilities : Bool),
      s.stateAfter (simplify text ⟨mistakes, true, allPossibilities⟩) = s ∧
        s.resultOf (simplify text ⟨mistakes, true, allPossibilities⟩) =
          s.resultOf (simplify text ⟨mistakes, false, allPossibilities⟩) := by
  intro s
  have hnew : (ofSettings settings).Coherent (· = settings) := coherent_ofSettings rfl
  obtain ⟨hs, -⟩ := hnew.afterRequests history
  refine ⟨hs.fitsTogether, fun more => (hs.afterRequests more).2, fun request error herror => ?_,
    fun text mistakes allPossibilities => ⟨stateAfter_simplify_dryRun s text mistakes _,
      hs.resultOf_simplify_dryRun text mistakes _⟩⟩
  obtain ⟨-, hkept⟩ := hs.operation request
  rcases hs.stopsAt_of_operation request herror with
    hsame | ⟨before, text, after, htexts, hbefore, hread, hlacks⟩
  · exact .inl hsame
  · exact .inr ⟨before, text, after, htexts, hbefore, hread,
      (hkept fun _ h => h.trans hs.settings.symm).lacks hlacks, hlacks⟩

end Session

end AlgebraTutor
