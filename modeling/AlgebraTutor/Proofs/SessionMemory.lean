/-
What a session remembers.

An operation may use and add to the memory of the session, also one that fails.  The invariant is
that what is remembered fits together: every tree is the tree of a text, and the steps and the
answer under a key are those of the tree under the same key.  Every operation keeps it, and none
forgets anything.

The tree under a key need not be that of every text with this key, since texts are remembered
without their white space.  What follows from that is not a matter of this file.
-/
import AlgebraTutor.Assessment.Equation
import AlgebraTutor.Proofs.EqualityCache
import AlgebraTutor.Proofs.PlainSteps

namespace AlgebraTutor

namespace Session

variable {α β : Type}

/-! ### Running operations -/

/-- What the operation gives in a session. -/
def resultOf (s : Session) (m : SessionM α) : Except Error α := (m.run.run s).1

/-- The session after the operation. -/
def stateAfter (s : Session) (m : SessionM α) : Session := (m.run.run s).2

section Runs

variable (s : Session)

@[simp] theorem resultOf_pure (a : α) : s.resultOf (pure a) = .ok a := rfl

@[simp] theorem stateAfter_pure (a : α) : s.stateAfter (pure a : SessionM α) = s := rfl

@[simp] theorem resultOf_get : s.resultOf get = .ok s := rfl

@[simp] theorem stateAfter_get : s.stateAfter get = s := rfl

@[simp] theorem resultOf_liftExcept (r : Except Error α) : s.resultOf (liftExcept r) = r := by
  cases r <;> rfl

@[simp] theorem stateAfter_liftExcept (r : Except Error α) : s.stateAfter (liftExcept r) = s := by
  cases r <;> rfl

theorem run_bind (m : SessionM α) (f : α → SessionM β) :
    (m >>= f).run.run s = match m.run.run s with
      | (.ok a, s') => (f a).run.run s'
      | (.error error, s') => (.error error, s') := by
  rw [ExceptT.run_bind, StateT.run_bind]
  rcases m.run.run s with ⟨_ | a, s'⟩ <;> rfl

variable {s} {m : SessionM α} {f : α → SessionM β}

theorem bind_of_ok {a : α} (h : s.resultOf m = .ok a) :
    s.resultOf (m >>= f) = (s.stateAfter m).resultOf (f a) ∧
      s.stateAfter (m >>= f) = (s.stateAfter m).stateAfter (f a) := by
  unfold resultOf at h
  unfold resultOf stateAfter
  rw [run_bind]
  rcases hrun : m.run.run s with ⟨r, s'⟩
  rw [hrun] at h
  subst h
  exact ⟨rfl, rfl⟩

theorem bind_of_error {error : Error} (h : s.resultOf m = .error error) :
    s.resultOf (m >>= f) = .error error ∧ s.stateAfter (m >>= f) = s.stateAfter m := by
  unfold resultOf at h
  unfold resultOf stateAfter
  rw [run_bind]
  rcases hrun : m.run.run s with ⟨r, s'⟩
  rw [hrun] at h
  subst h
  exact ⟨rfl, rfl⟩

/-- An operation fails, or what comes after it is done in the session that it leaves. -/
theorem bind_cases (s : Session) (m : SessionM α) (f : α → SessionM β) :
    (∃ error, s.resultOf m = .error error ∧ s.resultOf (m >>= f) = .error error ∧
      s.stateAfter (m >>= f) = s.stateAfter m) ∨
    ∃ a, s.resultOf m = .ok a ∧ s.resultOf (m >>= f) = (s.stateAfter m).resultOf (f a) ∧
      s.stateAfter (m >>= f) = (s.stateAfter m).stateAfter (f a) := by
  cases hresult : s.resultOf m with
  | error error => exact .inl ⟨error, rfl, bind_of_error hresult⟩
  | ok a => exact .inr ⟨a, rfl, bind_of_ok hresult⟩

theorem liftExcept_bind_cases (s : Session) (r : Except Error α) (f : α → SessionM β) :
    (∃ error, r = .error error ∧ s.resultOf (liftExcept r >>= f) = .error error ∧
      s.stateAfter (liftExcept r >>= f) = s) ∨
    ∃ a, r = .ok a ∧ s.resultOf (liftExcept r >>= f) = s.resultOf (f a) ∧
      s.stateAfter (liftExcept r >>= f) = s.stateAfter (f a) := by
  have hcases := bind_cases s (liftExcept r) f
  rw [resultOf_liftExcept, stateAfter_liftExcept] at hcases
  exact hcases

end Runs

/-! ### The invariant -/

/-- What is remembered fits together and was worked out with settings in `S`, as the present ones
are. -/
structure Coherent (S : Settings → Prop) (s : Session) : Prop where
  settings : S s.settings
  rules : s.rules = .standard
  equality : s.equality.Sound
  /-- A tree is the tree of a text that has its key. -/
  parsed : ∀ (key : String) (e : Expr), s.parsed[key]? = some e →
    ∃ text, squeeze text = key ∧ Expr.parseNormal text = .ok e
  /-- Steps are those of the tree under the same key. -/
  explored : ∀ (key : String) (steps : List Step), s.explored[key]? = some steps →
    ∃ e settings, S settings ∧ s.parsed[key]? = some e ∧
      Explorer.nextSteps (ofSettings settings).context .standard e = .ok steps
  /-- An answer is that of the tree under the same key. -/
  answers : ∀ (key : String) (answer : String), s.answers[key]? = some answer →
    ∃ e settings final steps, S settings ∧ s.parsed[key]? = some e ∧
      ((ofSettings settings).simplifier false).run e = .ok (final, steps) ∧ answer = final.text

/-- Nothing is forgotten, and the settings are kept. -/
structure Extends (s' s : Session) : Prop where
  settings : s'.settings = s.settings
  rules : s'.rules = s.rules
  parsed : ∀ (key : String) (e : Expr), s.parsed[key]? = some e → s'.parsed[key]? = some e
  explored : ∀ (key : String) (steps : List Step),
    s.explored[key]? = some steps → s'.explored[key]? = some steps
  answers : ∀ (key : String) (answer : String),
    s.answers[key]? = some answer → s'.answers[key]? = some answer

namespace Extends

theorem refl (s : Session) : s.Extends s :=
  ⟨rfl, rfl, fun _ _ h => h, fun _ _ h => h, fun _ _ h => h⟩

theorem trans {s s' s'' : Session} (h' : s''.Extends s') (h : s'.Extends s) : s''.Extends s where
  settings := h'.settings.trans h.settings
  rules := h'.rules.trans h.rules
  parsed key e he := h'.parsed key e (h.parsed key e he)
  explored key steps hsteps := h'.explored key steps (h.explored key steps hsteps)
  answers key answer hanswer := h'.answers key answer (h.answers key answer hanswer)

end Extends

variable {S : Settings → Prop}

theorem coherent_ofSettings {settings : Settings} (h : S settings) :
    (ofSettings settings).Coherent S where
  settings := h
  rules := rfl
  equality := EqualityCache.sound_empty
  parsed _ _ h := by simp [ofSettings] at h
  explored _ _ h := by simp [ofSettings] at h
  answers _ _ h := by simp [ofSettings] at h

namespace Coherent

variable {s : Session} (h : s.Coherent S) {key : String}

include h

theorem isPlain_of_parsed {e : Expr} (he : s.parsed[key]? = some e) : e.IsPlain := by
  obtain ⟨text, -, hread⟩ := h.parsed key e he
  exact Expr.isPlain_of_parseNormal hread

/-- What steps lead to are texts of trees. -/
theorem shows_of_explored {steps : List Step} (hsteps : s.explored[key]? = some steps) :
    ∀ step ∈ steps, Expr.Shows step.after ∧
      ∀ mistake ∈ step.mistakes, Expr.Shows mistake.after := by
  obtain ⟨e, settings, -, he, hnext⟩ := h.explored key steps hsteps
  exact fun step hstep => Explorer.shows_of_mem_nextSteps (h.isPlain_of_parsed he) hnext hstep

/-- An answer is the text of a tree. -/
theorem shows_of_answers {answer : String} (hanswer : s.answers[key]? = some answer) :
    Expr.Shows answer := by
  obtain ⟨e, settings, final, steps, -, he, hrun, rfl⟩ := h.answers key answer hanswer
  exact (Simplifier.isPlain_of_run rfl (h.isPlain_of_parsed he) hrun).shows

/-- The simplifier depends on the settings alone. -/
theorem simplifier_eq (withMistakes : Bool) :
    s.simplifier withMistakes = (ofSettings s.settings).simplifier withMistakes := by
  unfold simplifier
  rw [h.rules]
  rfl

end Coherent

/-! ### What is added to the memory -/

theorem getElem?_insert {β : Type} (t : Std.TreeMap String β) (key other : String) (value : β) :
    (t.insert key value)[other]? = if key = other then some value else t[other]? := by
  rw [Std.TreeMap.getElem?_insert]
  by_cases h : key = other
  · rw [if_pos (by rw [h]; exact Std.ReflCmp.compare_self), if_pos h]
  · rw [if_neg fun heq => h (Std.LawfulEqCmp.eq_of_compare heq), if_neg h]

section Additions

variable {s : Session} (h : s.Coherent S)

include h

/-- A tree is added under a key that has none. -/
theorem Coherent.insertParsed {text : String} {e : Expr} (hnew : s.parsed[squeeze text]? = none)
    (he : Expr.parseNormal text = .ok e) :
    Coherent S { s with parsed := s.parsed.insert (squeeze text) e } ∧
      Extends { s with parsed := s.parsed.insert (squeeze text) e } s := by
  have hkept : ∀ (key : String) (x : Expr), s.parsed[key]? = some x →
      (s.parsed.insert (squeeze text) e)[key]? = some x := by
    intro key x hx
    rw [getElem?_insert, if_neg]
    · exact hx
    · rintro rfl
      rw [hnew] at hx
      cases hx
  refine ⟨⟨h.settings, h.rules, h.equality, ?_, ?_, ?_⟩,
    ⟨rfl, rfl, hkept, fun _ _ h => h, fun _ _ h => h⟩⟩
  · intro key x hx
    rw [getElem?_insert] at hx
    split at hx
    · next heq =>
        cases hx
        exact ⟨text, heq, he⟩
    · exact h.parsed key x hx
  · intro key steps hsteps
    obtain ⟨x, settings, hS, hx, hnext⟩ := h.explored key steps hsteps
    exact ⟨x, settings, hS, hkept key x hx, hnext⟩
  · intro key answer hanswer
    obtain ⟨x, settings, final, steps, hS, hx, hrun⟩ := h.answers key answer hanswer
    exact ⟨x, settings, final, steps, hS, hkept key x hx, hrun⟩

theorem Coherent.insertExplored {key : String} {e : Expr} {steps : List Step}
    (he : s.parsed[key]? = some e) (hnew : s.explored[key]? = none)
    (hsteps : Explorer.nextSteps s.context s.rules e = .ok steps) :
    Coherent S { s with explored := s.explored.insert key steps } ∧
      Extends { s with explored := s.explored.insert key steps } s := by
  refine ⟨⟨h.settings, h.rules, h.equality, h.parsed, ?_, h.answers⟩,
    ⟨rfl, rfl, fun _ _ h => h, ?_, fun _ _ h => h⟩⟩
  · intro key' steps' hsteps'
    rw [getElem?_insert] at hsteps'
    split at hsteps'
    · next heq =>
        cases hsteps'
        rw [h.rules] at hsteps
        exact ⟨e, s.settings, h.settings, heq ▸ he, hsteps⟩
    · exact h.explored key' steps' hsteps'
  · intro key' steps' hsteps'
    rw [getElem?_insert, if_neg]
    · exact hsteps'
    · rintro rfl
      rw [hnew] at hsteps'
      cases hsteps'

/-- The answer is the same whether mistakes are asked for or not. -/
theorem Coherent.exists_run {e final : Expr} {steps : List Step} {withMistakes : Bool}
    (hrun : (s.simplifier withMistakes).run e = .ok (final, steps)) :
    ∃ steps', ((ofSettings s.settings).simplifier false).run e = .ok (final, steps') := by
  have hsame := (s.simplifier withMistakes).map_fst_run false e
  rw [hrun] at hsame
  change ((s.simplifier false).run e).map Prod.fst = _ at hsame
  rw [h.simplifier_eq] at hsame
  cases hrun' : ((ofSettings s.settings).simplifier false).run e with
  | error error =>
      rw [hrun'] at hsame
      cases hsame
  | ok found =>
      rw [hrun'] at hsame
      obtain rfl : found.1 = final := Except.ok.inj hsame
      exact ⟨found.2, rfl⟩

theorem Coherent.insertAnswer {key : String} {e final : Expr} {steps : List Step}
    {withMistakes : Bool} (he : s.parsed[key]? = some e)
    (hrun : (s.simplifier withMistakes).run e = .ok (final, steps)) :
    Coherent S { s with answers := s.answers.insert key final.text } := by
  obtain ⟨steps', hrun'⟩ := h.exists_run hrun
  refine ⟨h.settings, h.rules, h.equality, h.parsed, h.explored, ?_⟩
  intro key' answer hanswer
  rw [getElem?_insert] at hanswer
  split at hanswer
  · next heq =>
      cases hanswer
      exact ⟨e, s.settings, final, steps', h.settings, heq ▸ he, hrun', rfl⟩
  · exact h.answers key' answer hanswer

/-- As long as the settings stay the same, an answer is only ever replaced by itself. -/
theorem Coherent.extends_insertAnswer {key : String} {e final : Expr} {steps : List Step}
    {withMistakes : Bool} (he : s.parsed[key]? = some e)
    (hrun : (s.simplifier withMistakes).run e = .ok (final, steps))
    (hnew : s.answers[key]? = none ∨ ∀ settings, S settings → settings = s.settings) :
    Extends { s with answers := s.answers.insert key final.text } s := by
  obtain ⟨steps', hrun'⟩ := h.exists_run hrun
  refine ⟨rfl, rfl, fun _ _ h => h, fun _ _ h => h, ?_⟩
  intro key' answer hanswer
  rw [getElem?_insert]
  split
  · next heq =>
      subst heq
      rcases hnew with hnew | hsame
      · rw [hnew] at hanswer
        cases hanswer
      · obtain ⟨x, settings, final', steps'', hS, hx, hrun'', rfl⟩ := h.answers _ answer hanswer
        obtain rfl := hsame settings hS
        obtain rfl := Option.some.inj (he.symm.trans hx)
        rw [hrun'] at hrun''
        cases hrun''
        rfl
  · exact hanswer

theorem Coherent.withEquality {equality : EqualityCache} (hequality : equality.Sound) :
    Coherent S { s with equality := equality } ∧ Extends { s with equality := equality } s :=
  ⟨⟨h.settings, h.rules, hequality, h.parsed, h.explored, h.answers⟩,
    ⟨rfl, rfl, fun _ _ h => h, fun _ _ h => h, fun _ _ h => h⟩⟩

end Additions

/-! ### What an operation yields -/

/-- The operation keeps the invariant and forgets nothing, even if it fails.  What it gives has the
property in the session afterwards. -/
structure Yields (S : Settings → Prop) (s : Session) (m : SessionM α)
    (Q : α → Session → Prop) : Prop where
  coherent : (s.stateAfter m).Coherent S
  kept : (s.stateAfter m).Extends s
  result : ∀ a, s.resultOf m = .ok a → Q a (s.stateAfter m)

namespace Yields

variable {s : Session} {Q : α → Session → Prop} {R : β → Session → Prop}

theorem of_same {m : SessionM α} (hs : s.Coherent S) (hstate : s.stateAfter m = s)
    (h : ∀ a, s.resultOf m = .ok a → Q a s) : s.Yields S m Q := by
  refine ⟨?_, ?_, fun a ha => ?_⟩
  · rw [hstate]
    exact hs
  · rw [hstate]
    exact .refl s
  · rw [hstate]
    exact h a ha

theorem pure (hs : s.Coherent S) {a : α} (h : Q a s) : s.Yields S (pure a) Q := by
  refine .of_same hs rfl fun b hb => ?_
  cases hb
  exact h

theorem liftExcept (hs : s.Coherent S) {r : Except Error α} (h : ∀ a, r = .ok a → Q a s) :
    s.Yields S (liftExcept r) Q :=
  .of_same hs (s.stateAfter_liftExcept r) fun a ha => h a ((s.resultOf_liftExcept r).symm.trans ha)

theorem bind {m : SessionM α} {f : α → SessionM β} (hm : s.Yields S m Q)
    (hf : ∀ a (s' : Session), s'.Coherent S → s'.Extends s → Q a s' → s'.Yields S (f a) R) :
    s.Yields S (m >>= f) R := by
  rcases bind_cases s m f with ⟨error, -, hresult, hstate⟩ | ⟨a, ha, hresult, hstate⟩
  · refine ⟨hstate ▸ hm.coherent, hstate ▸ hm.kept, fun b hb => ?_⟩
    rw [hresult] at hb
    cases hb
  · have hthen := hf a _ hm.coherent hm.kept (hm.result a ha)
    refine ⟨hstate ▸ hthen.coherent, hstate ▸ hthen.kept.trans hm.kept, fun b hb => ?_⟩
    rw [hresult] at hb
    rw [hstate]
    exact hthen.result b hb

theorem weaken {Q' : α → Session → Prop} {m : SessionM α} (hm : s.Yields S m Q)
    (h : ∀ a (s' : Session), s'.Coherent S → s'.Extends s → Q a s' → Q' a s') : s.Yields S m Q' :=
  ⟨hm.coherent, hm.kept, fun a ha => h a _ hm.coherent hm.kept (hm.result a ha)⟩

theorem get_bind {f : Session → SessionM β} (h : s.Yields S (f s) R) : s.Yields S (get >>= f) R :=
  ⟨h.coherent, h.kept, h.result⟩

/-- The first element that passes a test.  What is known of the elements before it, and of it, is
still known when it was found. -/
theorem findFirstM? {p : α → SessionM Bool} {Passes Fails : α → Session → Prop} {as : List α}
    (hs : s.Coherent S)
    (hfails : ∀ a (s' s'' : Session), s''.Extends s' → Fails a s' → Fails a s'')
    (hp : ∀ a ∈ as, ∀ s' : Session, s'.Coherent S → s'.Extends s →
      s'.Yields S (p a) fun found s'' =>
        (found = true → Passes a s'') ∧ (found = false → Fails a s'')) :
    s.Yields S (as.findM? p) fun found s' =>
      (∀ a, found = some a → ∃ before after, as = before ++ a :: after ∧
        (∀ b ∈ before, Fails b s') ∧ Passes a s') ∧
      (found = none → ∀ a ∈ as, Fails a s') := by
  induction as generalizing s with
  | nil => exact .pure hs ⟨nofun, fun _ _ => nofun⟩
  | cons a as ih =>
      refine (hp a (.head _) s hs (.refl s)).bind fun found s' hs' hkept hfound => ?_
      cases found with
      | true =>
          refine .pure hs' ⟨fun b hb => ?_, nofun⟩
          obtain rfl := Option.some.inj hb
          exact ⟨[], as, rfl, nofun, hfound.1 rfl⟩
      | false =>
          have hrest := ih hs' fun b hb s'' hs'' hmore =>
            hp b (.tail _ hb) s'' hs'' (hmore.trans hkept)
          refine hrest.weaken fun found s'' _ hmore hrest => ⟨fun b hb => ?_, fun hnone => ?_⟩
          · obtain ⟨before, after, rfl, hbefore, hpasses⟩ := hrest.1 b hb
            exact ⟨a :: before, after, rfl,
              List.forall_mem_cons.mpr ⟨hfails a _ _ hmore (hfound.2 rfl), hbefore⟩, hpasses⟩
          · exact List.forall_mem_cons.mpr ⟨hfails a _ _ hmore (hfound.2 rfl), hrest.2 hnone⟩

/-- The first element that passes a test.  Those that fail it do so in every session. -/
theorem findM? {p : α → SessionM Bool} {Fails : α → Prop} {as : List α} (hs : s.Coherent S)
    (hp : ∀ a ∈ as, ∀ s' : Session, s'.Coherent S → s'.Extends s →
      s'.Yields S (p a) fun found s'' => (found = true → Q a s'') ∧ (found = false → Fails a)) :
    s.Yields S (as.findM? p) fun found s' =>
      (∀ a, found = some a → a ∈ as ∧ Q a s') ∧ (found = none → ∀ a ∈ as, Fails a) := by
  refine (findFirstM? hs ?_ hp).weaken fun found s' _ _ hfound => ⟨fun a ha => ?_, hfound.2⟩
  · exact fun _ _ _ _ h => h
  · obtain ⟨before, after, rfl, -, hpasses⟩ := hfound.1 a ha
    exact ⟨by simp, hpasses⟩

/-- The first result among those for the elements. -/
theorem findSomeM? {f : α → SessionM (Option β)} {Q : α → β → Session → Prop} {as : List α}
    (hs : s.Coherent S) (hf : ∀ a ∈ as, ∀ s' : Session, s'.Coherent S → s'.Extends s →
      s'.Yields S (f a) fun found s'' => ∀ b, found = some b → Q a b s'') :
    s.Yields S (as.findSomeM? f) fun found s' => ∀ b, found = some b → ∃ a ∈ as, Q a b s' := by
  induction as generalizing s with
  | nil => exact .pure hs nofun
  | cons a as ih =>
      rw [List.findSomeM?_cons]
      refine (hf a (.head _) s hs (.refl s)).bind fun found s' hs' hkept hfound => ?_
      cases found with
      | some b =>
          refine .pure hs' fun c hc => ?_
          obtain rfl := Option.some.inj hc
          exact ⟨a, .head _, hfound b rfl⟩
      | none =>
          have hrest := ih hs' fun b hb s'' hs'' hmore =>
            hf b (.tail _ hb) s'' hs'' (hmore.trans hkept)
          refine hrest.weaken fun found s'' _ _ hrest b hb => ?_
          obtain ⟨c, hc, hb⟩ := hrest b hb
          exact ⟨c, .tail _ hc, hb⟩

end Yields

/-! ### What the operations on one text do -/

section Texts

variable {s : Session} {text : String}

theorem resultOf_get_bind (f : Session → SessionM α) : s.resultOf (get >>= f) = s.resultOf (f s) :=
  (bind_of_ok (s.resultOf_get)).1

theorem stateAfter_get_bind (f : Session → SessionM α) :
    s.stateAfter (get >>= f) = s.stateAfter (f s) := (bind_of_ok (s.resultOf_get)).2

/-- A tree that is not remembered is read and remembered. -/
theorem parse_cases (s : Session) (text : String) :
    (∃ e, s.parsed[squeeze text]? = some e ∧ s.resultOf (parse text) = .ok e ∧
      s.stateAfter (parse text) = s) ∨
    s.parsed[squeeze text]? = none ∧
      ((∃ error, Expr.parseNormal text = .error error ∧
        s.resultOf (parse text) = .error error ∧ s.stateAfter (parse text) = s) ∨
      ∃ e, Expr.parseNormal text = .ok e ∧ s.resultOf (parse text) = .ok e ∧
        s.stateAfter (parse text) = { s with parsed := s.parsed.insert (squeeze text) e }) := by
  unfold parse
  rw [resultOf_get_bind, stateAfter_get_bind]
  cases hknown : s.parsed[squeeze text]? with
  | some e => exact .inl ⟨e, rfl, rfl, rfl⟩
  | none =>
      exact .inr ⟨rfl, liftExcept_bind_cases ..⟩

/-- A tree that is remembered is given without reading. -/
theorem resultOf_parse_of_parsed {s : Session} {text : String} {e : Expr}
    (h : s.parsed[squeeze text]? = some e) : s.resultOf (parse text) = .ok e := by
  rcases parse_cases s text with ⟨x, hx, hresult, -⟩ | ⟨hnone, -⟩
  · cases hx.symm.trans h
    exact hresult
  · cases hnone.symm.trans h

/-- Reading concerns the trees alone. -/
theorem stateAfter_parse (s : Session) (text : String) : ∃ parsed,
    s.stateAfter (parse text) = { s with parsed := parsed } := by
  rcases parse_cases s text with ⟨e, -, -, hstate⟩ | ⟨-, ⟨error, -, -, hstate⟩ | ⟨e, -, -, hstate⟩⟩
  · exact ⟨s.parsed, hstate⟩
  · exact ⟨s.parsed, hstate⟩
  · exact ⟨_, hstate⟩

/-- What was read is remembered. -/
theorem yields_parse (hs : s.Coherent S) (text : String) :
    s.Yields S (parse text) fun e s' => s'.parsed[squeeze text]? = some e := by
  rcases parse_cases s text with ⟨e, he, hresult, hstate⟩ |
    ⟨hnew, ⟨error, -, hresult, hstate⟩ | ⟨e, he, hresult, hstate⟩⟩
  · refine .of_same hs hstate fun a ha => ?_
    obtain rfl := Except.ok.inj (hresult.symm.trans ha)
    exact he
  · refine .of_same hs hstate fun a ha => ?_
    rw [hresult] at ha
    cases ha
  · obtain ⟨hcoherent, hkept⟩ := hs.insertParsed hnew he
    rw [← hstate] at hcoherent hkept
    refine ⟨hcoherent, hkept, fun a ha => ?_⟩
    obtain rfl := Except.ok.inj (hresult.symm.trans ha)
    rw [hstate, getElem?_insert, if_pos rfl]

/-- Steps that are not remembered are those of the tree, and are remembered. -/
theorem nextSteps_cases (s : Session) (text : String) :
    (∃ steps, s.explored[squeeze text]? = some steps ∧
      s.resultOf (nextSteps text) = .ok steps ∧ s.stateAfter (nextSteps text) = s) ∨
    s.explored[squeeze text]? = none ∧
      ((∃ error, s.resultOf (parse text) = .error error ∧
        s.resultOf (nextSteps text) = .error error ∧
        s.stateAfter (nextSteps text) = s.stateAfter (parse text)) ∨
      ∃ e, s.resultOf (parse text) = .ok e ∧
        s.resultOf (nextSteps text) = Explorer.nextSteps s.context s.rules e ∧
        ((∃ error, Explorer.nextSteps s.context s.rules e = .error error ∧
          s.stateAfter (nextSteps text) = s.stateAfter (parse text)) ∨
        ∃ steps, Explorer.nextSteps s.context s.rules e = .ok steps ∧
          s.stateAfter (nextSteps text) = { s.stateAfter (parse text) with
            explored := s.explored.insert (squeeze text) steps })) := by
  unfold nextSteps
  rw [resultOf_get_bind, stateAfter_get_bind]
  cases hknown : s.explored[squeeze text]? with
  | some steps => exact .inl ⟨steps, rfl, rfl, rfl⟩
  | none =>
      refine .inr ⟨rfl, (bind_cases s (parse text) _).imp id ?_⟩
      rintro ⟨e, hread, hresult, hstate⟩
      refine ⟨e, hread, ?_⟩
      obtain ⟨parsed, hparse⟩ := stateAfter_parse s text
      dsimp only
      rw [hresult, hstate, hparse, resultOf_get_bind, stateAfter_get_bind]
      rcases liftExcept_bind_cases _ (Explorer.nextSteps s.context s.rules e) _ with
        ⟨error, herror, hresult, hstate⟩ | ⟨steps, hsteps, hresult, hstate⟩
      · exact ⟨hresult.trans herror.symm, .inl ⟨error, herror, hstate⟩⟩
      · exact ⟨hresult.trans hsteps.symm, .inr ⟨steps, hsteps, hstate⟩⟩

/-- Steps that were listed are remembered. -/
theorem yields_nextSteps (hs : s.Coherent S) (text : String) :
    s.Yields S (nextSteps text) fun steps s' => s'.explored[squeeze text]? = some steps := by
  have hparse := yields_parse hs text
  rcases nextSteps_cases s text with ⟨steps, hsteps, hresult, hstate⟩ |
    ⟨hnew, ⟨error, -, hresult, hstate⟩ |
      ⟨e, he, hresult, ⟨error, herror, hstate⟩ | ⟨steps, hsteps, hstate⟩⟩⟩
  · refine .of_same hs hstate fun a ha => ?_
    obtain rfl := Except.ok.inj (hresult.symm.trans ha)
    exact hsteps
  · refine ⟨hstate ▸ hparse.coherent, hstate ▸ hparse.kept, fun a ha => ?_⟩
    rw [hresult] at ha
    cases ha
  · refine ⟨hstate ▸ hparse.coherent, hstate ▸ hparse.kept, fun a ha => ?_⟩
    rw [hresult, herror] at ha
    cases ha
  · obtain ⟨parsed, hafter⟩ := stateAfter_parse s text
    obtain ⟨hcoherent, hkept, hparsed⟩ := hparse
    have hparsed := hparsed e he
    rw [hafter] at hcoherent hkept hparsed hstate
    obtain ⟨hcoherent', hkept'⟩ := hcoherent.insertExplored hparsed hnew hsteps
    rw [← hstate] at hcoherent' hkept'
    refine ⟨hcoherent', hkept'.trans hkept, fun a ha => ?_⟩
    rw [hresult, hsteps] at ha
    obtain rfl := Except.ok.inj ha
    rw [hstate, getElem?_insert, if_pos rfl]

/-- What the session's simplifier makes of a tree. -/
def simplified (s : Session) (e : Expr) : Except Error String :=
  ((s.simplifier false).run e).map fun found => found.1.text

/-- An answer that is not remembered is that of the tree, and is remembered. -/
theorem answer_cases (s : Session) (text : String) :
    (∃ known, s.answers[squeeze text]? = some known ∧
      s.resultOf (answer text) = .ok known ∧ s.stateAfter (answer text) = s) ∨
    s.answers[squeeze text]? = none ∧
      ((∃ error, s.resultOf (parse text) = .error error ∧
        s.resultOf (answer text) = .error error ∧
        s.stateAfter (answer text) = s.stateAfter (parse text)) ∨
      ∃ e, s.resultOf (parse text) = .ok e ∧
        s.resultOf (answer text) = s.simplified e ∧
        ((∃ error, (s.simplifier false).run e = .error error ∧
          s.stateAfter (answer text) = s.stateAfter (parse text)) ∨
        ∃ final steps, (s.simplifier false).run e = .ok (final, steps) ∧
          s.stateAfter (answer text) = { s.stateAfter (parse text) with
            answers := s.answers.insert (squeeze text) final.text })) := by
  unfold answer
  rw [resultOf_get_bind, stateAfter_get_bind]
  cases hknown : s.answers[squeeze text]? with
  | some answer => exact .inl ⟨answer, rfl, rfl, rfl⟩
  | none =>
      refine .inr ⟨rfl, (bind_cases s (parse text) _).imp id ?_⟩
      rintro ⟨e, hread, hresult, hstate⟩
      refine ⟨e, hread, ?_⟩
      obtain ⟨parsed, hparse⟩ := stateAfter_parse s text
      dsimp only
      rw [hresult, hstate, hparse, resultOf_get_bind, stateAfter_get_bind]
      unfold simplified
      rcases liftExcept_bind_cases _ ((s.simplifier false).run e) _ with
        ⟨error, herror, hresult, hstate⟩ | ⟨found, hrun, hresult, hstate⟩
      · rw [herror]
        exact ⟨hresult, .inl ⟨error, rfl, hstate⟩⟩
      · rw [hrun]
        exact ⟨hresult, .inr ⟨found.1, found.2, rfl, hstate⟩⟩

/-- An answer that was given is remembered. -/
theorem yields_answer (hs : s.Coherent S) (text : String) :
    s.Yields S (answer text) fun result s' => s'.answers[squeeze text]? = some result := by
  have hparse := yields_parse hs text
  rcases answer_cases s text with ⟨known, hknown, hresult, hstate⟩ |
    ⟨hnew, ⟨error, -, hresult, hstate⟩ |
      ⟨e, he, hresult, ⟨error, herror, hstate⟩ | ⟨final, steps, hrun, hstate⟩⟩⟩
  · refine .of_same hs hstate fun a ha => ?_
    obtain rfl := Except.ok.inj (hresult.symm.trans ha)
    exact hknown
  · refine ⟨hstate ▸ hparse.coherent, hstate ▸ hparse.kept, fun a ha => ?_⟩
    rw [hresult] at ha
    cases ha
  · refine ⟨hstate ▸ hparse.coherent, hstate ▸ hparse.kept, fun a ha => ?_⟩
    rw [hresult, simplified, herror] at ha
    cases ha
  · obtain ⟨parsed, hafter⟩ := stateAfter_parse s text
    obtain ⟨hcoherent, hkept, hparsed⟩ := hparse
    have hparsed := hparsed e he
    rw [hafter] at hcoherent hkept hparsed hstate
    have hcoherent' := hcoherent.insertAnswer hparsed hrun
    have hkept' := hcoherent.extends_insertAnswer hparsed hrun (.inl hnew)
    rw [← hstate] at hcoherent' hkept'
    refine ⟨hcoherent', hkept'.trans hkept, fun a ha => ?_⟩
    rw [hresult, simplified, hrun] at ha
    obtain rfl := Except.ok.inj ha
    rw [hstate, getElem?_insert, if_pos rfl]

/-- Reading without remembering gives what reading gives. -/
theorem resultOf_parseSilently (s : Session) (text : String) :
    s.resultOf (parseSilently text) = s.resultOf (parse text) ∧
      s.stateAfter (parseSilently text) = s := by
  unfold parseSilently
  rw [resultOf_get_bind, stateAfter_get_bind]
  rcases parse_cases s text with ⟨e, he, hresult, -⟩ |
    ⟨hnew, ⟨error, hread, hresult, -⟩ | ⟨e, hread, hresult, -⟩⟩
  · rw [he, hresult]
    exact ⟨rfl, rfl⟩
  · rw [hnew, hresult, hread]
    exact ⟨rfl, rfl⟩
  · rw [hnew, hresult, hread]
    exact ⟨rfl, rfl⟩

theorem yields_parseSilently (hs : s.Coherent S) (text : String) :
    s.Yields S (parseSilently text) fun e _ => e.IsPlain := by
  obtain ⟨hresult, hstate⟩ := resultOf_parseSilently s text
  have hparse := yields_parse hs text
  refine .of_same hs hstate fun e he => ?_
  rw [hresult] at he
  exact hparse.coherent.isPlain_of_parsed (hparse.result e he)

/-- What the session's simplifier makes of a tree, with its trace. -/
def simplifiedBy (s : Session) (mistakes : Bool) (e : Expr) : Except Error Simplified :=
  ((s.simplifier mistakes).run e).map fun found => ⟨found.1, found.2⟩

/-- What simplification does with the tree of the text. -/
def simplifyTree (text : String) (mistakes dryRun : Bool) (root : Expr) : SessionM Simplified := do
  let (final, steps) ← liftExcept (((← get).simplifier mistakes).run root)
  if !dryRun then
    modify fun s => { s with answers := s.answers.insert (squeeze text) final.text }
  return ⟨final, steps⟩

theorem simplify_eq (text : String) (mistakes dryRun : Bool) :
    simplify text ⟨mistakes, dryRun, false⟩ =
      (if dryRun then parseSilently text else parse text) >>=
        simplifyTree text mistakes dryRun := by
  cases dryRun with
  | true => rfl
  | false => rfl

/-- The simplified tree is remembered as the answer, unless this is a dry run. -/
theorem simplifyTree_cases (s : Session) (text : String) (mistakes dryRun : Bool) (e : Expr) :
    s.resultOf (simplifyTree text mistakes dryRun e) = s.simplifiedBy mistakes e ∧
      ((∃ error, (s.simplifier mistakes).run e = .error error ∧
        s.stateAfter (simplifyTree text mistakes dryRun e) = s) ∨
      ∃ final steps, (s.simplifier mistakes).run e = .ok (final, steps) ∧
        s.stateAfter (simplifyTree text mistakes dryRun e) = if dryRun then s else
          { s with answers := s.answers.insert (squeeze text) final.text }) := by
  unfold simplifyTree simplifiedBy
  rw [resultOf_get_bind, stateAfter_get_bind]
  rcases liftExcept_bind_cases s ((s.simplifier mistakes).run e) _ with
    ⟨error, herror, hresult, hstate⟩ | ⟨⟨final, steps⟩, hrun, hresult, hstate⟩
  · refine ⟨hresult.trans ?_, .inl ⟨error, herror, hstate⟩⟩
    rw [herror]
    rfl
  · rw [hresult, hstate, hrun]
    cases dryRun with
    | true => exact ⟨rfl, .inr ⟨final, steps, rfl, rfl⟩⟩
    | false => exact ⟨rfl, .inr ⟨final, steps, rfl, rfl⟩⟩

theorem coherent_simplifyTree (hs : s.Coherent S) (text : String) (mistakes dryRun : Bool)
    {e : Expr} (he : dryRun = false → s.parsed[squeeze text]? = some e) :
    (s.stateAfter (simplifyTree text mistakes dryRun e)).Coherent S ∧
      ((∀ settings, S settings → settings = s.settings) →
        (s.stateAfter (simplifyTree text mistakes dryRun e)).Extends s) := by
  obtain ⟨-, ⟨error, -, hstate⟩ | ⟨final, steps, hrun, hstate⟩⟩ :=
    simplifyTree_cases s text mistakes dryRun e
  · rw [hstate]
    exact ⟨hs, fun _ => .refl s⟩
  · cases dryRun with
    | true =>
        rw [hstate]
        exact ⟨hs, fun _ => .refl s⟩
    | false =>
        rw [hstate]
        have hparsed := he rfl
        exact ⟨hs.insertAnswer hparsed hrun, fun hsame =>
          hs.extends_insertAnswer hparsed hrun (.inr hsame)⟩

/-- Simplification keeps the invariant, and forgets nothing as long as the settings stay the
same. -/
theorem coherent_simplify (hs : s.Coherent S) (text : String) (mistakes dryRun : Bool) :
    (s.stateAfter (simplify text ⟨mistakes, dryRun, false⟩)).Coherent S ∧
      ((∀ settings, S settings → settings = s.settings) →
        (s.stateAfter (simplify text ⟨mistakes, dryRun, false⟩)).Extends s) := by
  suffices hread : ∃ m : SessionM Expr,
      (if dryRun then parseSilently text else parse text) = m ∧
        s.Yields S m fun e s' => dryRun = false → s'.parsed[squeeze text]? = some e by
    obtain ⟨m, hm, hyields⟩ := hread
    rw [simplify_eq, hm]
    rcases bind_cases s m (simplifyTree text mistakes dryRun) with
      ⟨error, -, -, hstate⟩ | ⟨e, hresult, -, hstate⟩
    · rw [hstate]
      exact ⟨hyields.coherent, fun _ => hyields.kept⟩
    · rw [hstate]
      obtain ⟨hcoherent, hkept⟩ := coherent_simplifyTree hyields.coherent text mistakes dryRun
        (hyields.result e hresult)
      rw [hyields.kept.settings] at hkept
      exact ⟨hcoherent, fun hsame => (hkept hsame).trans hyields.kept⟩
  cases dryRun with
  | true => exact ⟨_, rfl, (yields_parseSilently hs text).weaken fun _ _ _ _ _ => nofun⟩
  | false => exact ⟨_, rfl, (yields_parse hs text).weaken fun _ _ _ _ he _ => he⟩

/-- Comparing texts concerns the comparisons alone, and gives the answer that the texts have. -/
theorem yields_areEqual (hs : s.Coherent S) (a b : String) :
    s.Yields S (areEqual a b) fun equal _ => equal = true ↔ EqualTexts a b := by
  obtain ⟨hanswer, hsound, -⟩ := hs.equality.areEqual a b
  obtain ⟨hcoherent, hkept⟩ := hs.withEquality hsound
  refine ⟨hcoherent, hkept, fun equal hequal => ?_⟩
  obtain rfl := Except.ok.inj hequal
  exact hanswer

theorem yields_canonicalKey? (hs : s.Coherent S) (text : String) :
    s.Yields S (canonicalKey? text) fun key _ =>
      key = (Expr.canonicalForm? text).map Expr.key := by
  obtain ⟨hanswer, hsound⟩ := hs.equality.canonicalKey text
  obtain ⟨hcoherent, hkept⟩ := hs.withEquality hsound
  refine ⟨hcoherent, hkept, fun key hkey => ?_⟩
  obtain rfl := Except.ok.inj hkey
  exact hanswer

end Texts

end Session

end AlgebraTutor
