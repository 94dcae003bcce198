/-
The search follows steps that are listed.

A state of the search is a text with the path that led to it.  The invariant of the queue is that
every path goes from the start to its text by steps that the session lists, through texts with
different canonical keys, and that it is no longer than what has been visited so far allows.  It is
the visited keys that make the keys along a path different: a text is queued only with a key that
has not been seen, and the keys of a path have all been seen.

What the search finds is a path of this kind with one more step, and a verdict tells that path hop
by hop.  Since nothing is forgotten, what was listed, answered and compared on the way can still be
asked of the session afterwards.
-/
import AlgebraTutor.Proofs.SessionOperations

namespace AlgebraTutor

/-! ### What is known of texts -/

/-- What a session tells of texts. -/
structure Facts where
  /-- The steps listed for a text. -/
  lists : String → List Step → Prop
  /-- The text that a text simplifies to. -/
  answers : String → String → Prop
  equal : String → String → Prop
  /-- The texts have one canonical key. -/
  sameKey : String → String → Prop

/-- What is known first is known then. -/
structure Facts.Implies (F G : Facts) : Prop where
  lists : ∀ text steps, F.lists text steps → G.lists text steps
  answers : ∀ text answer, F.answers text answer → G.answers text answer
  equal_iff : ∀ a b, F.equal a b ↔ G.equal a b
  sameKey_iff : ∀ a b, F.sameKey a b ↔ G.sameKey a b

namespace Session

variable {α : Type} {S : Settings → Prop} {s s' : Session} {text : String}

/-- What the session gives when it is asked. -/
def told (s : Session) : Facts where
  lists text steps := s.resultOf (nextSteps text) = .ok steps
  answers text result := s.resultOf (answer text) = .ok result
  equal a b := s.resultOf (areEqual a b) = .ok true
  sameKey a b := s.resultOf (canonicalKey? a) = s.resultOf (canonicalKey? b)

/-- What the session remembers, with what holds of the texts themselves. -/
def remembered (s : Session) : Facts where
  lists text steps := s.explored[squeeze text]? = some steps
  answers text result := s.answers[squeeze text]? = some result
  equal := EqualTexts
  sameKey a b := (Expr.canonicalForm? a).map Expr.key = (Expr.canonicalForm? b).map Expr.key

theorem Extends.implies (h : s'.Extends s) : s.remembered.Implies s'.remembered where
  lists text := h.explored (squeeze text)
  answers text := h.answers (squeeze text)
  equal_iff _ _ := Iff.rfl
  sameKey_iff _ _ := Iff.rfl

/-- What is remembered is told, and comparisons are answered truly. -/
theorem Coherent.implies_told (hs : s.Coherent S) : s.remembered.Implies s.told where
  lists text steps h := by
    rcases nextSteps_cases s text with ⟨steps', hsteps', hresult, -⟩ | ⟨hnone, -⟩
    · obtain rfl := Option.some.inj (hsteps'.symm.trans h)
      exact hresult
    · cases hnone.symm.trans h
  answers text result h := by
    rcases answer_cases s text with ⟨known, hknown, hresult, -⟩ | ⟨hnone, -⟩
    · obtain rfl := Option.some.inj (hknown.symm.trans h)
      exact hresult
    · cases hnone.symm.trans h
  equal_iff a b := by
    obtain ⟨hanswer, -, -⟩ := hs.equality.areEqual a b
    show EqualTexts a b ↔ Except.ok (s.equality.areEqual a b).1 = .ok true
    rw [← hanswer, Except.ok.injEq]
  sameKey_iff a b := by
    obtain ⟨ha, -⟩ := hs.equality.canonicalKey a
    obtain ⟨hb, -⟩ := hs.equality.canonicalKey b
    show _ ↔ Except.ok (s.equality.canonicalKey a).1 = .ok (s.equality.canonicalKey b).1
    rw [ha, hb, Except.ok.injEq]
    exact Iff.rfl

theorem Yields.and {m : SessionM α} {Q R : α → Session → Prop} (hQ : s.Yields S m Q)
    (hR : s.Yields S m R) : s.Yields S m fun a s' => Q a s' ∧ R a s' :=
  ⟨hQ.coherent, hQ.kept, fun a ha => ⟨hQ.result a ha, hR.result a ha⟩⟩

end Session

open Session

/-! ### Paths of listed steps -/

/-- Each step of the path is one of those listed for the text before it. -/
def Walks (F : Facts) : String → List Hop → Prop
  | _, [] => True
  | text, hop :: path =>
      (∃ steps, F.lists text steps ∧ hop.step ∈ steps ∧ hop.available = changesOf steps) ∧
        Walks F hop.step.after path

/-- The text at the end of a path. -/
def endOf (start : String) : List Hop → String
  | [] => start
  | hop :: path => endOf hop.step.after path

/-- The texts that a path goes through, from the start to its end. -/
def textsOf (start : String) (path : List Hop) : List String :=
  start :: path.map fun hop => hop.step.after

section Walking

variable {F G : Facts} {start : String} {path : List Hop} {hop : Hop}

@[simp] theorem endOf_concat (start : String) (path : List Hop) (hop : Hop) :
    endOf start (path ++ [hop]) = hop.step.after := by
  induction path generalizing start with
  | nil => rfl
  | cons first path ih => exact ih first.step.after

theorem textsOf_concat (start : String) (path : List Hop) (hop : Hop) :
    textsOf start (path ++ [hop]) = textsOf start path ++ [hop.step.after] := by
  simp [textsOf]

theorem Walks.mono (hFG : F.Implies G) (h : Walks F start path) : Walks G start path := by
  induction path generalizing start with
  | nil => trivial
  | cons hop path ih =>
      obtain ⟨⟨steps, hsteps, hmem, havailable⟩, hrest⟩ := h
      exact ⟨⟨steps, hFG.lists _ steps hsteps, hmem, havailable⟩, ih hrest⟩

theorem Walks.concat (h : Walks F start path) {steps : List Step}
    (hsteps : F.lists (endOf start path) steps) {step : Step} (hmem : step ∈ steps) :
    Walks F start (path ++ [⟨step, changesOf steps⟩]) := by
  induction path generalizing start with
  | nil => exact ⟨⟨steps, hsteps, hmem, rfl⟩, trivial⟩
  | cons hop path ih =>
      obtain ⟨hfirst, hrest⟩ := h
      exact ⟨hfirst, ih hrest hsteps⟩

end Walking

/-! ### How much is explored -/

section Exploration

variable {S : Settings → Prop} {s : Session}

theorem explored_parse (s : Session) (text : String) :
    (s.stateAfter (parse text)).explored = s.explored := by
  obtain ⟨parsed, hstate⟩ := stateAfter_parse s text
  rw [hstate]

theorem explored_answer (s : Session) (text : String) :
    (s.stateAfter (answer text)).explored = s.explored := by
  have hparse := explored_parse s text
  rcases answer_cases s text with ⟨known, -, -, hstate⟩ |
    ⟨-, ⟨error, -, -, hstate⟩ | ⟨e, -, -, ⟨error, -, hstate⟩ | ⟨final, steps, -, hstate⟩⟩⟩
  · rw [hstate]
  · rw [hstate, hparse]
  · rw [hstate, hparse]
  · rw [hstate]
    exact hparse

theorem size_explored_nextSteps (s : Session) (text : String) :
    (s.stateAfter (nextSteps text)).explored.size ≤ s.explored.size + 1 := by
  have hparse := explored_parse s text
  rcases nextSteps_cases s text with ⟨known, -, -, hstate⟩ |
    ⟨-, ⟨error, -, -, hstate⟩ | ⟨e, -, -, ⟨error, -, hstate⟩ | ⟨steps, -, hstate⟩⟩⟩
  · rw [hstate]
    omega
  · rw [hstate, hparse]
    omega
  · rw [hstate, hparse]
    omega
  · rw [hstate]
    exact Std.TreeMap.size_insert_le

/-- Listing steps explores one text at most. -/
theorem yields_lists (hs : s.Coherent S) (text : String) :
    s.Yields S (nextSteps text) fun steps s' =>
      s'.remembered.lists text steps ∧ s'.explored.size ≤ s.explored.size + 1 := by
  have hyields := yields_nextSteps hs text
  exact ⟨hyields.coherent, hyields.kept, fun steps hsteps =>
    ⟨hyields.result steps hsteps, size_explored_nextSteps s text⟩⟩

/-- The operation explores nothing. -/
def ExploresNothing (S : Settings → Prop) {α : Type} (Q : α → Prop) (m : SessionM α) : Prop :=
  ∀ s : Session, s.Coherent S → s.Yields S m fun a s' => Q a ∧ s'.explored = s.explored

theorem Session.Yields.exploringNothing {α : Type} {Q : α → Prop} {R : α → Session → Prop}
    {m : SessionM α} (hyields : s.Yields S m R)
    (hsame : (s.stateAfter m).explored = s.explored)
    (hQ : ∀ a (s' : Session), s'.Coherent S → R a s' → Q a) :
    s.Yields S m fun a s' => Q a ∧ s'.explored = s.explored :=
  ⟨hyields.coherent, hyields.kept, fun a ha =>
    ⟨hQ a _ hyields.coherent (hyields.result a ha), hsame⟩⟩

theorem compositional_exploresNothing :
    Compositional (fun _ => True) (ExploresNothing S) where
  pure h _ hs := .pure hs ⟨h, rfl⟩
  bind hm hf _ hs := (hm _ hs).bind fun a _ hs' _ ha =>
    (hf a ha.1 _ hs').weaken fun _ _ _ _ hb => ⟨hb.1, hb.2.trans ha.2⟩
  get_bind _ h s hs := .get_bind (h s s hs)
  shows _ := trivial
  parse {text} _ s hs :=
    (yields_parse hs text).exploringNothing (explored_parse s text)
      fun _ _ hs' he => hs'.isPlain_of_parsed he
  answer {text} _ s hs :=
    (yields_answer hs text).exploringNothing (explored_answer s text) fun _ _ _ _ => trivial
  areEqual a b _ hs := (yields_areEqual hs a b).exploringNothing rfl fun _ _ _ _ => trivial
  canonicalKey? text _ hs :=
    (yields_canonicalKey? hs text).exploringNothing rfl fun _ _ _ _ => trivial

end Exploration

/-! ### The pieces of the search -/

/-- The key by which the search tells a text apart. -/
def keyOf (text : String) : String :=
  ((Expr.canonicalForm? text).map Expr.key).getD (squeeze text)

/-- The mistake leads to the goal, and from there to a wrong answer. -/
def Mistaken (F : Facts) (goal : String) (step : Step) (mistake : MistakeStep) : Prop :=
  F.equal mistake.after goal ∧ ∃ wrong right, F.answers mistake.after wrong ∧
    F.answers step.after right ∧ ¬F.equal wrong right

theorem Mistaken.mono {F G : Facts} (hFG : F.Implies G) {goal : String} {step : Step}
    {mistake : MistakeStep} (h : Mistaken F goal step mistake) : Mistaken G goal step mistake := by
  obtain ⟨hleads, wrong, right, hwrong, hright, hdiffer⟩ := h
  exact ⟨(hFG.equal_iff _ _).mp hleads, wrong, right, hFG.answers _ _ hwrong,
    hFG.answers _ _ hright, fun hequal => hdiffer ((hFG.equal_iff _ _).mpr hequal)⟩

section Pieces

variable {S : Settings → Prop} {s : Session} (hs : s.Coherent S) (goal : String)

include hs

theorem yields_stateKey (text : String) :
    s.Yields S (Search.stateKey text) fun key _ => key = keyOf text := by
  refine (yields_canonicalKey? hs text).bind fun key s' hs' _ hkey => .pure hs' ?_
  rw [hkey]
  rfl

theorem yields_findStep? (candidates : List Step) :
    s.Yields S (Search.findStep? goal candidates) fun found s' =>
      s'.explored = s.explored ∧
        (∀ step, found = some step → step ∈ candidates ∧ EqualTexts step.after goal) ∧
        (found = none → ∀ step ∈ candidates, ¬EqualTexts step.after goal) := by
  have hfind : s.Yields S (Search.findStep? goal candidates) fun found _ =>
      (∀ step, found = some step → step ∈ candidates ∧ EqualTexts step.after goal) ∧
        (found = none → ∀ step ∈ candidates, ¬EqualTexts step.after goal) := by
    refine .findM? hs fun candidate _ s' hs' _ => ?_
    refine (yields_areEqual hs' candidate.after goal).weaken fun found _ _ _ hfound => ?_
    exact ⟨hfound.mp, fun hnot hequal => by simp [hfound.mpr hequal] at hnot⟩
  have hsame := compositional_exploresNothing.findStep? goal candidates s hs
  exact (hsame.and hfind).weaken fun found s' _ _ h => ⟨h.1.2, h.2⟩

theorem yields_isMistake (candidate : Step) (mistake : MistakeStep) :
    s.Yields S (Search.isMistake goal candidate mistake) fun found s' =>
      found = true → Mistaken s'.remembered goal candidate mistake := by
  refine (yields_areEqual hs mistake.after goal).bind fun leads s₁ hs₁ _ hleads => ?_
  cases leads with
  | false => exact .pure hs₁ nofun
  | true =>
      refine (yields_answer hs₁ mistake.after).bind fun wrong s₂ hs₂ _ hwrong => ?_
      refine (yields_answer hs₂ candidate.after).bind fun right s₃ hs₃ h₃ hright => ?_
      refine (yields_areEqual hs₃ wrong right).bind fun same s₄ hs₄ h₄ hsame => .pure hs₄ ?_
      intro hdiffer
      refine ⟨hleads.mp rfl, wrong, right, ?_, h₄.answers _ _ hright, fun hequal => ?_⟩
      · exact (h₄.trans h₃).answers _ _ hwrong
      · simp [hsame.mpr hequal] at hdiffer

theorem yields_findMistake? (candidates : List Step) :
    s.Yields S (Search.findMistake? goal candidates) fun found s' =>
      s'.explored = s.explored ∧ ∀ step kind, found = some (step, kind) → step ∈ candidates ∧
        ∃ mistake ∈ step.mistakes, mistake.kind = kind ∧
          Mistaken s'.remembered goal step mistake := by
  have hcandidate : ∀ candidate ∈ candidates, ∀ s₁ : Session, s₁.Coherent S → s₁.Extends s →
      s₁.Yields S (do
          let mistake ← candidate.mistakes.findM? (Search.isMistake goal candidate)
          return mistake.map fun mistake => (candidate, mistake.kind))
        fun found s' => ∀ pair : Step × Mistake, found = some pair → pair.1 = candidate ∧
          ∃ mistake ∈ candidate.mistakes, mistake.kind = pair.2 ∧
            Mistaken s'.remembered goal candidate mistake := by
    intro candidate _ s₁ hs₁ _
    have hfind : s₁.Yields S (candidate.mistakes.findM? (Search.isMistake goal candidate))
        fun found s' => (∀ mistake, found = some mistake → mistake ∈ candidate.mistakes ∧
          Mistaken s'.remembered goal candidate mistake) ∧
          (found = none → ∀ mistake ∈ candidate.mistakes, True) := by
      refine .findM? hs₁ fun mistake _ s₂ hs₂ _ => ?_
      exact (yields_isMistake hs₂ goal candidate mistake).weaken fun found _ _ _ hfound =>
        ⟨hfound, fun _ => trivial⟩
    refine hfind.bind fun found s₂ hs₂ _ hfound => .pure hs₂ fun pair hpair => ?_
    obtain ⟨mistake, hmistake, rfl⟩ := Option.map_eq_some_iff.mp hpair
    obtain ⟨hmem, hmistaken⟩ := hfound.1 mistake hmistake
    exact ⟨rfl, mistake, hmem, rfl, hmistaken⟩
  have hlisted : Listed (fun _ => True) candidates := fun _ _ => ⟨trivial, fun _ _ => trivial⟩
  have hsame := compositional_exploresNothing.findMistake? goal hlisted s hs
  have hfind := hsame.and (Yields.findSomeM? hs hcandidate)
  refine hfind.weaken fun found s' _ _ h => ⟨h.1.2, fun step kind heq => ?_⟩
  obtain ⟨candidate, hmem, rfl, hmistake⟩ := h.2 _ heq
  exact ⟨hmem, hmistake⟩

/-- Every new state is behind one of the steps, with a key that had not been seen. -/
theorem yields_expand (path : List Hop) (available : List Change) (candidates : List Step)
    (seen : Std.TreeSet String) :
    s.Yields S (Search.expand path available candidates seen) fun found s' =>
      s'.explored = s.explored ∧ (∀ key ∈ seen, key ∈ found.2) ∧
        ∀ state ∈ found.1, ∃ step ∈ candidates,
          state = ⟨step.after, path ++ [⟨step, available⟩]⟩ ∧ keyOf step.after ∉ seen ∧
            keyOf step.after ∈ found.2 := by
  induction candidates generalizing s seen with
  | nil => exact .pure hs ⟨rfl, fun _ hkey => hkey, nofun⟩
  | cons candidate rest ih =>
      have hkey := compositional_exploresNothing.stateKey candidate.after s hs
      refine ((yields_stateKey hs candidate.after).and hkey).bind fun key s₁ hs₁ _ hkey => ?_
      obtain ⟨rfl, -, hsame⟩ := hkey
      by_cases hseen : seen.contains (keyOf candidate.after) = true
      · rw [if_pos hseen]
        refine (ih hs₁ seen).weaken fun found _ _ _ hfound => ?_
        obtain ⟨hsame', hkept, hstates⟩ := hfound
        refine ⟨hsame'.trans hsame, hkept, fun state hstate => ?_⟩
        obtain ⟨step, hmem, hstep⟩ := hstates state hstate
        exact ⟨step, .tail _ hmem, hstep⟩
      · rw [if_neg hseen]
        refine (ih hs₁ _).bind fun found s₂ hs₂ _ hfound => .pure hs₂ ?_
        obtain ⟨hsame', hkept, hstates⟩ := hfound
        refine ⟨hsame'.trans hsame, fun key hkey => hkept key (by simp [hkey]), ?_⟩
        intro state hstate
        rcases List.mem_cons.mp hstate with rfl | hstate
        · exact ⟨candidate, .head _, rfl, by simpa using hseen, hkept _ (by simp)⟩
        · obtain ⟨step, hmem, hstep, hnew, hafter⟩ := hstates state hstate
          exact ⟨step, .tail _ hmem, hstep, fun hold => hnew (by simp [hold]), hafter⟩

end Pieces

/-! ### The search -/

/-- A state waits rightly if `count` more visits are allowed. -/
structure Waits (F : Facts) (start : String) (maxDepth maxStates count : Nat)
    (seen : Std.TreeSet String) (state : Search.State) : Prop where
  walks : Walks F start state.path
  ends : endOf start state.path = state.text
  shallow : state.path.length + 1 ≤ max 1 maxDepth
  early : state.path.length + count ≤ maxStates
  distinct : ((textsOf start state.path).map keyOf).Nodup
  seen : ∀ text ∈ textsOf start state.path, keyOf text ∈ seen

/-- The step leads to the goal, or if there is a mistake no step does and the mistake is one of
this step that leads there. -/
def Leads (F : Facts) (goal : String) (steps : List Step) (step : Step) : Option Mistake → Prop
  | none => F.equal step.after goal
  | some kind => (∀ other ∈ steps, ¬F.equal other.after goal) ∧
      ∃ mistake ∈ step.mistakes, mistake.kind = kind ∧ Mistaken F goal step mistake

/-- A path that was found goes by listed steps through different texts, and its last step leads to
the goal. -/
structure Genuine (F : Facts) (start goal : String) (maxDepth maxStates : Nat) (path : List Hop)
    (steps : List Step) (step : Step) (mistake : Option Mistake) : Prop where
  walks : Walks F start path
  lists : F.lists (endOf start path) steps
  mem : step ∈ steps
  leads : Leads F goal steps step mistake
  shallow : path.length + 1 ≤ max 1 maxDepth
  early : path.length + 1 ≤ maxStates
  distinct : ((textsOf start path).map keyOf).Nodup

section Visits

variable {F G : Facts} {start goal : String} {maxDepth maxStates count : Nat}
  {seen seen' : Std.TreeSet String} {state : Search.State}

theorem Leads.mono (hFG : F.Implies G) {steps : List Step} {step : Step}
    {mistake : Option Mistake} (h : Leads F goal steps step mistake) :
    Leads G goal steps step mistake := by
  cases mistake with
  | none => exact (hFG.equal_iff _ _).mp h
  | some kind =>
      obtain ⟨hnone, mistake, hmem, hkind, hmistaken⟩ := h
      refine ⟨fun other hother hequal => ?_, mistake, hmem, hkind, hmistaken.mono hFG⟩
      exact hnone other hother ((hFG.equal_iff _ _).mpr hequal)

theorem Genuine.mono (hFG : F.Implies G) {path : List Hop} {steps : List Step} {step : Step}
    {mistake : Option Mistake}
    (h : Genuine F start goal maxDepth maxStates path steps step mistake) :
    Genuine G start goal maxDepth maxStates path steps step mistake :=
  { h with
    walks := h.walks.mono hFG
    lists := hFG.lists _ _ h.lists
    leads := h.leads.mono hFG }

theorem waits_start (start : String) (maxDepth maxStates : Nat) :
    Waits F start maxDepth maxStates maxStates (Std.TreeSet.empty.insert (keyOf start))
      ⟨start, []⟩ where
  walks := trivial
  ends := rfl
  shallow := by simp
  early := by simp
  distinct := by simp [textsOf]
  seen := by simp [textsOf]

theorem Waits.mono (hFG : F.Implies G)
    (h : Waits F start maxDepth maxStates count seen state) :
    Waits G start maxDepth maxStates count seen state :=
  { h with walks := h.walks.mono hFG }

/-- A state goes on waiting while others are visited. -/
theorem Waits.later (h : Waits F start maxDepth maxStates (count + 1) seen state)
    (hFG : F.Implies G) (hseen : ∀ key ∈ seen, key ∈ seen') :
    Waits G start maxDepth maxStates count seen' state :=
  { h.mono hFG with
    early := by
      have hearly := h.early
      omega
    seen := fun text htext => hseen _ (h.seen text htext) }

/-- A state behind a listed step waits rightly, if its key has not been seen. -/
theorem Waits.next (h : Waits F start maxDepth maxStates (count + 1) seen state)
    {steps : List Step} (hsteps : F.lists state.text steps) {step : Step} (hmem : step ∈ steps)
    (hdepth : ¬maxDepth ≤ state.path.length + 1) (hnew : keyOf step.after ∉ seen)
    (hseen : ∀ key ∈ seen, key ∈ seen') (hafter : keyOf step.after ∈ seen') :
    Waits F start maxDepth maxStates count seen'
      ⟨step.after, state.path ++ [⟨step, changesOf steps⟩]⟩ where
  walks := h.walks.concat (h.ends.symm ▸ hsteps) hmem
  ends := endOf_concat ..
  shallow := by
    simp only [List.length_append, List.length_singleton]
    omega
  early := by
    have hearly := h.early
    simp only [List.length_append, List.length_singleton]
    omega
  distinct := by
    rw [textsOf_concat, List.map_append, List.map_singleton, List.nodup_append]
    refine ⟨h.distinct, List.nodup_singleton _, fun key hkey other hother heq => ?_⟩
    obtain ⟨text, htext, rfl⟩ := List.mem_map.mp hkey
    obtain rfl := List.mem_singleton.mp hother
    exact hnew (heq ▸ h.seen text htext)
  seen text htext := by
    rw [textsOf_concat] at htext
    rcases List.mem_append.mp htext with htext | htext
    · exact hseen _ (h.seen text htext)
    · obtain rfl := List.mem_singleton.mp htext
      exact hafter

/-- The step from a state that waited rightly to the goal completes a genuine path. -/
theorem Waits.genuine (h : Waits F start maxDepth maxStates (count + 1) seen state)
    (hFG : F.Implies G) {steps : List Step} (hsteps : G.lists state.text steps) {step : Step}
    (hmem : step ∈ steps) {mistake : Option Mistake} (hleads : Leads G goal steps step mistake) :
    Genuine G start goal maxDepth maxStates state.path steps step mistake where
  walks := h.walks.mono hFG
  lists := h.ends.symm ▸ hsteps
  mem := hmem
  leads := hleads
  shallow := h.shallow
  early := by
    have hearly := h.early
    omega
  distinct := h.distinct

theorem Walks.shows {S : Settings → Prop} {s : Session} (hs : s.Coherent S) {path : List Hop}
    (h : Walks s.remembered start path) : ∀ hop ∈ path, Expr.Shows hop.step.after := by
  induction path generalizing start with
  | nil => nofun
  | cons first path ih =>
      obtain ⟨⟨steps, hsteps, hmem, -⟩, hrest⟩ := h
      intro hop hhop
      rcases List.mem_cons.mp hhop with rfl | hhop
      · exact (hs.shows_of_explored hsteps _ hmem).1
      · exact ih hrest hop hhop

/-- Texts that the search tells apart have different canonical keys, as the steps along a path lead
to texts that can be read. -/
theorem Genuine.pairwise {S : Settings → Prop} {s : Session} (hs : s.Coherent S) {path : List Hop}
    {steps : List Step} {step : Step} {mistake : Option Mistake}
    (h : Genuine s.remembered start goal maxDepth maxStates path steps step mistake) :
    (textsOf start path).Pairwise fun a b => ¬s.remembered.sameKey a b := by
  have hdiffer {a b : String} (hb : ∃ hop ∈ path, hop.step.after = b) (hkey : keyOf a ≠ keyOf b) :
      ¬s.remembered.sameKey a b := by
    intro hsame
    obtain ⟨hop, hhop, rfl⟩ := hb
    have hshows := h.walks.shows hs hop hhop
    obtain ⟨form, hform⟩ := Expr.exists_canonicalForm?_iff.mpr hshows.exists_parse
    have hsame : (Expr.canonicalForm? a).map Expr.key =
        (Expr.canonicalForm? hop.step.after).map Expr.key := hsame
    apply hkey
    unfold keyOf
    rw [hsame, hform]
    rfl
  have hdistinct := List.pairwise_map.mp h.distinct
  obtain ⟨hstart, hpath⟩ := List.pairwise_cons.mp hdistinct
  refine List.pairwise_cons.mpr ⟨fun b hb => ?_, hpath.imp_of_mem fun _ hb => ?_⟩
  · exact hdiffer (List.mem_map.mp hb) (hstart b hb)
  · exact hdiffer (List.mem_map.mp hb)

/-- What the search finds. -/
def Finds (s : Session) (start goal : String) (maxDepth maxStates : Nat) (found : Found) : Prop :=
  ∃ path steps step, found.path = path ++ [⟨step, changesOf steps⟩] ∧
    Genuine s.remembered start goal maxDepth maxStates path steps step found.mistake

variable {S : Settings → Prop}

/-- After the states behind a state have joined the queue, all that wait there wait rightly. -/
theorem yields_expand_queue {s : Session} {candidates : List Step} {queue : List Search.State}
    (hs : s.Coherent S) (hlists : s.remembered.lists state.text candidates)
    (hstate : Waits s.remembered start maxDepth maxStates (count + 1) seen state)
    (hqueue : ∀ other ∈ queue,
      Waits s.remembered start maxDepth maxStates (count + 1) seen other)
    (hdepth : ¬maxDepth ≤ state.path.length + 1) :
    s.Yields S (Search.expand state.path (changesOf candidates) candidates seen) fun found s' =>
      s'.explored = s.explored ∧ ∀ other ∈ queue ++ found.1,
        Waits s'.remembered start maxDepth maxStates count found.2 other := by
  refine (yields_expand hs _ _ _ _).weaken fun found s' _ hkept hfound => ?_
  obtain ⟨hsame, hseen, hstates⟩ := hfound
  refine ⟨hsame, fun other hother => ?_⟩
  rcases List.mem_append.mp hother with hother | hother
  · exact (hqueue other hother).later hkept.implies hseen
  · obtain ⟨step, hmem, rfl, hnew, hafter⟩ := hstates other hother
    exact (hstate.mono hkept.implies).next (hkept.implies.lists _ _ hlists) hmem hdepth hnew hseen
      hafter

/-- **Visiting states finds genuine paths only**, and explores no more texts than states are
visited.  The induction is on the number of visits, for all queues of states that wait rightly. -/
theorem yields_visit (goal : String) (count : Nat) {s : Session} {queue : List Search.State}
    {seen : Std.TreeSet String} (hs : s.Coherent S)
    (hqueue : ∀ state ∈ queue, Waits s.remembered start maxDepth maxStates count seen state) :
    s.Yields S (Search.visit goal maxDepth count queue seen) fun found s' =>
      (∀ f, found = some f → Finds s' start goal maxDepth maxStates f) ∧
        s'.explored.size ≤ s.explored.size + count := by
  induction count generalizing s queue seen with
  | zero => exact .pure hs ⟨nofun, by omega⟩
  | succ count ih =>
      cases queue with
      | nil => exact .pure hs ⟨nofun, by omega⟩
      | cons state queue =>
          have hstate := hqueue state (.head _)
          have hrest := fun other hother => hqueue other (.tail state hother)
          refine (yields_lists hs state.text).bind fun candidates s₁ hs₁ h₁ hlisted => ?_
          obtain ⟨hlists, hsize⟩ := hlisted
          refine (yields_findStep? hs₁ goal candidates).bind fun found s₂ hs₂ h₂ hfound => ?_
          obtain ⟨hsame₂, hleads, hnone⟩ := hfound
          rw [← hsame₂] at hsize
          cases found with
          | some step =>
              obtain ⟨hmem, hequal⟩ := hleads step rfl
              refine .pure hs₂ ⟨fun f hf => ?_, by omega⟩
              obtain rfl := Option.some.inj hf
              exact ⟨state.path, candidates, step, rfl, hstate.genuine (h₂.trans h₁).implies
                (h₂.implies.lists _ _ hlists) hmem hequal⟩
          | none =>
              refine (yields_findMistake? hs₂ goal candidates).bind fun found s₃ hs₃ h₃ hfound => ?_
              obtain ⟨hsame₃, hmistaken⟩ := hfound
              rw [← hsame₃] at hsize
              have hkept := (h₃.trans h₂).trans h₁
              have hlists := (h₃.trans h₂).implies.lists _ _ hlists
              cases found with
              | some pair =>
                  obtain ⟨hmem, hmistake⟩ := hmistaken pair.1 pair.2 rfl
                  refine .pure hs₃ ⟨fun f hf => ?_, by omega⟩
                  obtain rfl := Option.some.inj hf
                  exact ⟨state.path, candidates, pair.1, rfl, hstate.genuine hkept.implies hlists
                    hmem ⟨hnone rfl, hmistake⟩⟩
              | none =>
                  dsimp only
                  by_cases hdepth : maxDepth ≤ state.path.length + 1
                  · rw [if_pos hdepth]
                    have hvisit := ih hs₃ fun other hother =>
                      (hrest other hother).later hkept.implies fun _ hkey => hkey
                    exact hvisit.weaken fun found s₄ _ _ h => ⟨h.1, by have hmore := h.2; omega⟩
                  · rw [if_neg hdepth]
                    have hexpand := yields_expand_queue hs₃ hlists (hstate.mono hkept.implies)
                      (fun other hother => (hrest other hother).mono hkept.implies) hdepth
                    refine hexpand.bind fun found s₄ hs₄ _ hfound => ?_
                    rw [← hfound.1] at hsize
                    exact (ih hs₄ hfound.2).weaken fun found s₅ _ _ h =>
                      ⟨h.1, by have hmore := h.2; omega⟩

/-- **The search finds genuine paths only**, within the limits of the session. -/
theorem yields_run {s : Session} (hs : s.Coherent S) (start goal : String) :
    s.Yields S (Search.run start goal) fun found s' =>
      (∀ f, found = some f →
        Finds s' start goal s.settings.maxDepth s.settings.maxStates f) ∧
        s'.explored.size ≤ s.explored.size + s.settings.maxStates := by
  refine .get_bind ?_
  have hkey := compositional_exploresNothing.stateKey start s hs
  refine ((yields_stateKey hs start).and hkey).bind fun key s₁ hs₁ _ hkey => ?_
  obtain ⟨rfl, -, hsame⟩ := hkey
  rw [← hsame]
  refine yields_visit goal _ hs₁ fun state hstate => ?_
  obtain rfl := List.mem_singleton.mp hstate
  exact waits_start start _ _

end Visits

end AlgebraTutor
