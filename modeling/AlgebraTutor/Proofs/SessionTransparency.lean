/-
When a session answers as if it remembered nothing.

Trees, steps and answers are remembered under texts without their white space.  So what is
remembered makes no difference as long as no two texts with one key are read differently, and this
is exactly when: of two texts that are read differently, the one that is asked for first decides
how the other one is read from then on.

White space separates tokens, so there are such texts.  But every text that the tutor shows reads
the same without its white space.  The texts that do so have one reading for each key, and for these
a session answers every request as a new one would.
-/
import AlgebraTutor.Proofs.SessionOperations

namespace AlgebraTutor

/-! ### Texts with one reading for each key -/

/-- No two of the texts that are the same up to white space are read differently. -/
def OneReading (T : String → Prop) : Prop :=
  ∀ a b, T a → T b → squeeze a = squeeze b →
    (Expr.parseNormal a).toOption = (Expr.parseNormal b).toOption

/-- The text reads the same without its white space. -/
def Steady (text : String) : Prop :=
  (Expr.parseNormal text).toOption = (Expr.parseNormal (squeeze text)).toOption

theorem oneReading_steady : OneReading Steady := by
  intro a b ha hb hkey
  unfold Steady at ha hb
  rw [ha, hb, hkey]

theorem steady_of_unspaced {text : String} (h : ∀ c ∈ text.toList, isBlank c = false) :
    Steady text := by
  unfold Steady
  rw [squeeze_eq_self h]

theorem parseNormal_toOption (text : String) :
    (Expr.parseNormal text).toOption = (Expr.parse text).toOption.map Expr.normalize := by
  unfold Expr.parseNormal
  cases Expr.parse text <;> rfl

/-- What the tutor shows reads the same without its white space. -/
theorem steady_of_shows {text : String} (h : Expr.Shows text) : Steady text := by
  obtain ⟨e, he, rfl⟩ := h
  unfold Steady
  rw [parseNormal_toOption, parseNormal_toOption, Expr.parse_squeeze_text he.wellFormed]

theorem OneReading.parseNormal_eq {T : String → Prop} (h : OneReading T) {a b : String}
    (ha : T a) (hb : T b) (hkey : squeeze a = squeeze b) {e : Expr}
    (he : Expr.parseNormal a = .ok e) : Expr.parseNormal b = .ok e := by
  have hsame := h a b ha hb hkey
  rw [he] at hsame
  cases hb : Expr.parseNormal b with
  | error error => rw [hb] at hsame; cases hsame
  | ok x => rw [hb] at hsame; rw [Option.some.inj hsame]

namespace Session

/-! ### Sessions that remember the trees of the texts -/

variable {settings : Settings} {T : String → Prop} {s : Session}

/-- The settings have always been the same, and the trees are those of all texts in `T` with their
keys. -/
structure Faithful (settings : Settings) (T : String → Prop) (s : Session) : Prop where
  coherent : s.Coherent (· = settings)
  parsed : ∀ (key : String) (e : Expr), s.parsed[key]? = some e →
    ∀ text, T text → squeeze text = key → Expr.parseNormal text = .ok e

theorem faithful_ofSettings (settings : Settings) (T : String → Prop) :
    (ofSettings settings).Faithful settings T :=
  ⟨coherent_ofSettings rfl, fun _ _ h => by simp [ofSettings] at h⟩

namespace Faithful

theorem of_yields {α : Type} {m : SessionM α} {Q : α → Session → Prop} (hs : s.Faithful settings T)
    (hm : s.Yields (· = settings) m Q) (hparsed : (s.stateAfter m).parsed = s.parsed) :
    (s.stateAfter m).Faithful settings T where
  coherent := hm.coherent
  parsed := hparsed ▸ hs.parsed

variable (hs : s.Faithful settings T)

include hs

theorem settings_eq : s.settings = settings := hs.coherent.settings

theorem context_eq : s.context = (ofSettings settings).context := by
  unfold context
  rw [hs.settings_eq]
  rfl

theorem simplifier_eq (withMistakes : Bool) :
    s.simplifier withMistakes = (ofSettings settings).simplifier withMistakes := by
  rw [hs.coherent.simplifier_eq, hs.settings_eq]

/-- Reading gives the tree of the text. -/
theorem parse (hT : OneReading T) {text : String} (htext : T text) :
    s.resultOf (Session.parse text) = Expr.parseNormal text ∧
      (s.stateAfter (Session.parse text)).Faithful settings T := by
  have hyields := yields_parse hs.coherent text
  rcases parse_cases s text with ⟨e, he, hresult, hstate⟩ |
    ⟨-, ⟨error, hread, hresult, hstate⟩ | ⟨e, hread, hresult, hstate⟩⟩
  · refine ⟨?_, hs.of_yields hyields (by rw [hstate])⟩
    rw [hresult, hs.parsed _ e he text htext rfl]
  · refine ⟨?_, hs.of_yields hyields (by rw [hstate])⟩
    rw [hresult, hread]
  · refine ⟨hresult.trans hread.symm, ⟨hyields.coherent, ?_⟩⟩
    rw [hstate]
    intro key x hx other hother hkey
    rw [getElem?_insert] at hx
    split at hx
    · next heq =>
        obtain rfl := Option.some.inj hx
        exact hT.parseNormal_eq htext hother (heq.trans hkey.symm) hread
    · exact hs.parsed key x hx other hother hkey

theorem parseSilently (hT : OneReading T) {text : String} (htext : T text) :
    s.resultOf (Session.parseSilently text) = Expr.parseNormal text ∧
      (s.stateAfter (Session.parseSilently text)).Faithful settings T := by
  obtain ⟨hresult, hstate⟩ := resultOf_parseSilently s text
  rw [hresult, hstate]
  exact ⟨(hs.parse hT htext).1, hs⟩

/-- Listing steps gives the steps of the tree of the text. -/
theorem nextSteps (hT : OneReading T) {text : String} (htext : T text) :
    s.resultOf (Session.nextSteps text) =
        Expr.parseNormal text >>= Explorer.nextSteps (ofSettings settings).context .standard ∧
      (s.stateAfter (Session.nextSteps text)).Faithful settings T := by
  obtain ⟨hread, hafter⟩ := hs.parse hT htext
  have hyields := yields_nextSteps hs.coherent text
  have hcontext := hs.context_eq
  have hrules := hs.coherent.rules
  rcases nextSteps_cases s text with ⟨steps, hsteps, hresult, hstate⟩ |
    ⟨-, ⟨error, herror, hresult, hstate⟩ | ⟨e, he, hresult, hstate⟩⟩
  · refine ⟨?_, hs.of_yields hyields (by rw [hstate])⟩
    obtain ⟨e, settings', hsame, he, hnext⟩ := hs.coherent.explored _ steps hsteps
    rw [hsame] at hnext
    rw [hresult, hs.parsed _ e he text htext rfl]
    exact hnext.symm
  · refine ⟨?_, by rw [hstate]; exact hafter⟩
    rw [hresult, ← hread, herror]
    rfl
  · refine ⟨?_, ⟨hyields.coherent, ?_⟩⟩
    · rw [hresult, ← hread, he, hcontext, hrules]
      rfl
    · rcases hstate with ⟨error, -, hstate⟩ | ⟨steps, -, hstate⟩
      · rw [hstate]
        exact hafter.parsed
      · rw [hstate]
        exact hafter.parsed

/-- Answering gives what the tree of the text simplifies to. -/
theorem answer (hT : OneReading T) {text : String} (htext : T text) :
    s.resultOf (Session.answer text) =
        Expr.parseNormal text >>= (ofSettings settings).simplified ∧
      (s.stateAfter (Session.answer text)).Faithful settings T := by
  obtain ⟨hread, hafter⟩ := hs.parse hT htext
  have hyields := yields_answer hs.coherent text
  have hsimplifier := hs.simplifier_eq false
  rcases answer_cases s text with ⟨known, hknown, hresult, hstate⟩ |
    ⟨-, ⟨error, herror, hresult, hstate⟩ | ⟨e, he, hresult, hstate⟩⟩
  · refine ⟨?_, hs.of_yields hyields (by rw [hstate])⟩
    obtain ⟨e, settings', final, steps, hsame, he, hrun, rfl⟩ := hs.coherent.answers _ known hknown
    rw [hsame] at hrun
    rw [hresult, hs.parsed _ e he text htext rfl]
    show _ = (ofSettings settings).simplified e
    unfold simplified
    rw [hrun]
    rfl
  · refine ⟨?_, by rw [hstate]; exact hafter⟩
    rw [hresult, ← hread, herror]
    rfl
  · refine ⟨?_, ⟨hyields.coherent, ?_⟩⟩
    · rw [hresult, ← hread, he]
      unfold simplified
      rw [hsimplifier]
      rfl
    · rcases hstate with ⟨error, -, hstate⟩ | ⟨final, steps, -, hstate⟩
      · rw [hstate]
        exact hafter.parsed
      · rw [hstate]
        exact hafter.parsed

theorem simplifyTree (mistakes dryRun : Bool) {text : String} {e : Expr}
    (he : dryRun = false → s.parsed[squeeze text]? = some e) :
    s.resultOf (Session.simplifyTree text mistakes dryRun e) =
        (ofSettings settings).simplifiedBy mistakes e ∧
      (s.stateAfter (Session.simplifyTree text mistakes dryRun e)).Faithful settings T := by
  obtain ⟨hcoherent, -⟩ := coherent_simplifyTree hs.coherent text mistakes dryRun he
  obtain ⟨hresult, hstate⟩ := simplifyTree_cases s text mistakes dryRun e
  refine ⟨?_, ⟨hcoherent, ?_⟩⟩
  · rw [hresult]
    unfold simplifiedBy
    rw [hs.simplifier_eq]
  · rcases hstate with ⟨error, -, hstate⟩ | ⟨final, steps, -, hstate⟩
    · rw [hstate]
      exact hs.parsed
    · rw [hstate]
      cases dryRun with
      | true => exact hs.parsed
      | false => exact hs.parsed

/-- Simplification gives what the simplifier makes of the tree of the text. -/
theorem simplify (hT : OneReading T) {text : String} (htext : T text) (mistakes dryRun : Bool) :
    s.resultOf (Session.simplify text ⟨mistakes, dryRun, false⟩) =
        Expr.parseNormal text >>= (ofSettings settings).simplifiedBy mistakes ∧
      (s.stateAfter (Session.simplify text ⟨mistakes, dryRun, false⟩)).Faithful settings T := by
  rw [simplify_eq]
  suffices hread : ∃ m : SessionM Expr, (if dryRun then Session.parseSilently text
      else Session.parse text) = m ∧ s.resultOf m = Expr.parseNormal text ∧
      (s.stateAfter m).Faithful settings T ∧ ∀ e, s.resultOf m = .ok e → dryRun = false →
        (s.stateAfter m).parsed[squeeze text]? = some e by
    obtain ⟨m, hm, hread, hafter, hparsed⟩ := hread
    rw [hm]
    rcases bind_cases s m (Session.simplifyTree text mistakes dryRun) with
      ⟨error, hresult, hfails, hstate⟩ | ⟨e, hresult, hgives, hstate⟩
    · rw [hfails, hstate, ← hread, hresult]
      exact ⟨rfl, hafter⟩
    · rw [hgives, hstate, ← hread, hresult]
      exact hafter.simplifyTree mistakes dryRun (hparsed e hresult)
  cases dryRun with
  | true =>
      obtain ⟨hread, hafter⟩ := hs.parseSilently hT htext
      exact ⟨_, rfl, hread, hafter, fun _ _ => nofun⟩
  | false =>
      obtain ⟨hread, hafter⟩ := hs.parse hT htext
      exact ⟨_, rfl, hread, hafter, fun e he _ =>
        (yields_parse hs.coherent text).result e he⟩

end Faithful

/-! ### Transparency -/

/-- In all sessions that remember the trees of the texts the operation gives this result, and it
leaves such a session. -/
def Gives (settings : Settings) (T : String → Prop) {α : Type} (m : SessionM α)
    (result : Except Error α) : Prop :=
  ∀ s : Session, s.Faithful settings T →
    s.resultOf m = result ∧ (s.stateAfter m).Faithful settings T

theorem Gives.bind {α β : Type} {m : SessionM α} {f : α → SessionM β} {a : α}
    {result : Except Error β} (hm : Gives settings T m (.ok a))
    (hf : Gives settings T (f a) result) : Gives settings T (m >>= f) result := by
  intro s hs
  obtain ⟨hresult, hafter⟩ := hm s hs
  obtain ⟨hgives, hstate⟩ := bind_of_ok (f := f) hresult
  rw [hgives, hstate]
  exact hf _ hafter

theorem Gives.bind_error {α β : Type} {m : SessionM α} {error : Error}
    (hm : Gives settings T m (.error error)) (f : α → SessionM β) :
    Gives settings T (m >>= f) (.error error) := by
  intro s hs
  obtain ⟨hresult, hafter⟩ := hm s hs
  obtain ⟨hfails, hstate⟩ := bind_of_error (f := f) hresult
  rw [hfails, hstate]
  exact ⟨rfl, hafter⟩

/-- All these sessions have the settings and rules of a new one. -/
theorem Gives.get_bind {α : Type} {f : Session → SessionM α} {result : Except Error α}
    (hf : ∀ s s' : Session, s.settings = s'.settings → s.rules = s'.rules → f s = f s')
    (h : Gives settings T (f (ofSettings settings)) result) :
    Gives settings T (get >>= f) result := by
  intro s hs
  rw [resultOf_get_bind, stateAfter_get_bind,
    hf s (ofSettings settings) hs.settings_eq hs.coherent.rules]
  exact h s hs

theorem gives_pure {α : Type} (a : α) : Gives settings T (pure a) (.ok a) :=
  fun _ hs => ⟨rfl, hs⟩

theorem gives_areEqual {a b : String} {equal : Bool} (h : equal = true ↔ EqualTexts a b) :
    Gives settings T (areEqual a b) (.ok equal) := by
  intro s hs
  obtain ⟨hanswer, -, -⟩ := hs.coherent.equality.areEqual a b
  refine ⟨?_, hs.of_yields (yields_areEqual hs.coherent a b) rfl⟩
  exact congrArg Except.ok (Bool.eq_iff_iff.mpr (hanswer.trans h.symm))

theorem gives_true {a b : String} (h : EqualTexts a b) :
    Gives settings T (areEqual a b) (.ok true) :=
  gives_areEqual (iff_of_true rfl h)

theorem gives_false {a b : String} (h : ¬EqualTexts a b) :
    Gives settings T (areEqual a b) (.ok false) :=
  gives_areEqual (iff_of_false Bool.false_ne_true h)

theorem gives_canonicalKey? (text : String) :
    Gives settings T (canonicalKey? text) (.ok ((Expr.canonicalForm? text).map Expr.key)) := by
  intro s hs
  obtain ⟨hanswer, -⟩ := hs.coherent.equality.canonicalKey text
  refine ⟨?_, hs.of_yields (yields_canonicalKey? hs.coherent text) rfl⟩
  exact congrArg Except.ok hanswer

/-- The operation gives the same result in all sessions that remember the trees of the texts. -/
def Transparent (settings : Settings) (T : String → Prop) {α : Type} (Q : α → Prop)
    (m : SessionM α) : Prop :=
  ∃ result, (∀ a, result = .ok a → Q a) ∧ Gives settings T m result

theorem Transparent.bind {α β : Type} {Q : α → Prop} {R : β → Prop} {m : SessionM α}
    {f : α → SessionM β} (hm : Transparent settings T Q m)
    (hf : ∀ a, Q a → Transparent settings T R (f a)) : Transparent settings T R (m >>= f) := by
  obtain ⟨result, hQ, hm⟩ := hm
  cases result with
  | error error => exact ⟨.error error, nofun, hm.bind_error f⟩
  | ok a =>
      obtain ⟨result, hR, hf⟩ := hf a (hQ a rfl)
      exact ⟨result, hR, hm.bind hf⟩

/-- What an operation gives can be seen from a new session. -/
theorem Gives.transparent {α : Type} {Q : α → Prop} {R : α → Session → Prop} {m : SessionM α}
    {result : Except Error α} (hm : Gives settings T m result)
    (hyields : ∀ s : Session, s.Coherent (· = settings) → s.Yields (· = settings) m R)
    (hQ : ∀ a (s' : Session), s'.Coherent (· = settings) → R a s' → Q a) :
    Transparent settings T Q m := by
  refine ⟨result, fun a ha => ?_, hm⟩
  have hfresh := hyields (ofSettings settings) (coherent_ofSettings rfl)
  have hresult := (hm _ (faithful_ofSettings settings T)).1
  exact hQ a _ hfresh.coherent (hfresh.result a (hresult.trans ha))

theorem transparent_areEqual (a b : String) :
    Transparent settings T (fun _ => True) (areEqual a b) := by
  obtain ⟨hfresh, -, -⟩ := EqualityCache.sound_empty.areEqual a b
  exact ⟨_, fun _ _ => trivial, gives_areEqual hfresh⟩

/-- **Every operation on one text is transparent**, if the texts have one reading for each key. -/
theorem exploring_transparent (hT : OneReading T) (hshown : ∀ text, Expr.Shows text → T text) :
    Exploring T (Transparent settings T) where
  pure h := ⟨.ok _, fun _ ha => Except.ok.inj ha ▸ h, gives_pure _⟩
  bind := .bind
  liftExcept h := ⟨_, h, fun s hs => by
    rw [resultOf_liftExcept, stateAfter_liftExcept]
    exact ⟨rfl, hs⟩⟩
  get_bind hf h := by
    obtain ⟨result, hQ, hm⟩ := h (ofSettings settings)
    exact ⟨result, hQ, .get_bind hf hm⟩
  shows h := hshown _ h
  parseSilently htext := ⟨_, fun _ => Expr.isPlain_of_parseNormal, fun _ hs =>
    hs.parseSilently hT htext⟩
  parse htext := ⟨_, fun _ => Expr.isPlain_of_parseNormal, fun _ hs => hs.parse hT htext⟩
  answer {text} htext :=
    Gives.transparent (fun _ hs => hs.answer hT htext) (fun _ hs => yields_answer hs text)
      fun _ _ hs' hanswer => hshown _ (hs'.shows_of_answers hanswer)
  areEqual := transparent_areEqual
  canonicalKey? text := ⟨_, fun _ _ => trivial, gives_canonicalKey? text⟩
  nextSteps {text} htext :=
    Gives.transparent (fun _ hs => hs.nextSteps hT htext) (fun _ hs => yields_nextSteps hs text)
      fun _ _ hs' hsteps step hstep => by
        obtain ⟨hafter, hmistakes⟩ := hs'.shows_of_explored hsteps step hstep
        exact ⟨hshown _ hafter, fun mistake hmem => hshown _ (hmistakes mistake hmem)⟩

/-- **Every request is transparent**, if its texts have one reading for each key. -/
theorem transparent_operation (hT : OneReading T) (hshown : ∀ text, Expr.Shows text → T text)
    {request : Request} (htexts : ∀ text ∈ request.texts, T text) :
    Transparent settings T (fun _ => True) request.operation := by
  refine (exploring_transparent hT hshown).operation htexts fun text mistakes dryRun heq => ?_
  subst heq
  have htext := htexts text (.head _)
  exact ⟨_, fun _ _ => trivial, fun _ hs => hs.simplify hT htext mistakes dryRun⟩

/-! ### Requests on texts with one reading for each key -/

/-- A request on texts in `T` is answered as in a new session, whatever requests on texts in `T`
came before, also such that failed. -/
def AnswersAfresh (T : String → Prop) : Prop :=
  ∀ (settings : Settings) (history : List Request) (request : Request),
    (∀ earlier ∈ history, ∀ text ∈ earlier.texts, T text) → (∀ text ∈ request.texts, T text) →
      ((ofSettings settings).afterRequests history).resultOf request.operation =
        (ofSettings settings).resultOf request.operation

theorem faithful_afterRequests (hT : OneReading T) (hshown : ∀ text, Expr.Shows text → T text)
    (hs : s.Faithful settings T) {history : List Request}
    (hhistory : ∀ earlier ∈ history, ∀ text ∈ earlier.texts, T text) :
    (s.afterRequests history).Faithful settings T := by
  induction history generalizing s with
  | nil => exact hs
  | cons request rest ih =>
      have htransparent : Transparent settings T (fun _ => True) request.operation :=
        transparent_operation hT hshown (hhistory request (.head _))
      obtain ⟨result, -, hrequest⟩ := htransparent
      obtain ⟨-, hafter⟩ := hrequest s hs
      exact ih hafter fun earlier hearlier => hhistory earlier (.tail _ hearlier)

theorem answersAfresh_of_oneReading (hT : OneReading T)
    (hshown : ∀ text, Expr.Shows text → T text) : AnswersAfresh T := by
  intro settings history request hhistory hrequest
  have hnew := faithful_ofSettings settings T
  have htransparent : Transparent settings T (fun _ => True) request.operation :=
    transparent_operation hT hshown hrequest
  obtain ⟨result, -, hsame⟩ := htransparent
  rw [(hsame _ (faithful_afterRequests hT hshown hnew hhistory)).1, (hsame _ hnew).1]

/-- A text with the key of one that has been read is read as that one. -/
theorem resultOf_parse_of_read (settings : Settings) {a b : String} (hkey : squeeze a = squeeze b)
    {e : Expr} (he : Expr.parseNormal a = .ok e) :
    ((ofSettings settings).afterRequests [.parse a]).resultOf (parse b) = .ok e := by
  have hnew : (ofSettings settings).parsed[squeeze a]? = none := by simp [ofSettings]
  rcases parse_cases (ofSettings settings) a with ⟨x, hx, -, -⟩ |
    ⟨-, ⟨error, herror, -, -⟩ | ⟨x, hx, hresult, -⟩⟩
  · rw [hnew] at hx
    cases hx
  · rw [he] at herror
    cases herror
  · obtain rfl := Except.ok.inj (hx.symm.trans he)
    have hcoherent : (ofSettings settings).Coherent (· = settings) := coherent_ofSettings rfl
    have hyields := yields_parse hcoherent a
    have hknown := hyields.result x hresult
    rw [hkey] at hknown
    exact resultOf_parse_of_parsed hknown

theorem resultOf_parse_ofSettings (settings : Settings) (text : String) :
    (ofSettings settings).resultOf (parse text) = Expr.parseNormal text := by
  rcases parse_cases (ofSettings settings) text with ⟨e, he, -, -⟩ |
    ⟨-, ⟨error, hread, hresult, -⟩ | ⟨e, hread, hresult, -⟩⟩
  · simp [ofSettings] at he
  · rw [hresult, hread]
  · rw [hresult, hread]

/-- Two texts with one key that are read differently are answered differently in one order. -/
theorem oneReading_of_answersAfresh (h : AnswersAfresh T) : OneReading T := by
  have hread : ∀ {a b : String}, T a → T b → squeeze a = squeeze b → ∀ e,
      Expr.parseNormal a = .ok e → Expr.parseNormal b = .ok e := by
    intro a b ha hb hkey e he
    have hsame := h .standard [.parse a] (.parse b) ?_ ?_
    · rw [← resultOf_parse_ofSettings .standard b]
      exact hsame.symm.trans (resultOf_parse_of_read .standard hkey he)
    · intro earlier hearlier text htext
      obtain rfl := List.mem_singleton.mp hearlier
      obtain rfl := List.mem_singleton.mp htext
      exact ha
    · intro text htext
      obtain rfl := List.mem_singleton.mp htext
      exact hb
  intro a b ha hb hkey
  cases hreadA : Expr.parseNormal a with
  | ok e => rw [hread ha hb hkey e hreadA]
  | error error =>
      cases hreadB : Expr.parseNormal b with
      | ok e =>
          rw [hread hb ha hkey.symm e hreadB] at hreadA
          cases hreadA
      | error error' => rfl

theorem AnswersAfresh.mono {T' : String → Prop} (h : AnswersAfresh T')
    (hle : ∀ text, T text → T' text) : AnswersAfresh T := by
  intro settings history request hhistory hrequest
  refine h settings history request ?_ fun text htext => hle text (hrequest text htext)
  intro earlier hearlier text htext
  exact hle text (hhistory earlier hearlier text htext)

/-- **What a session remembers makes no difference to texts that read the same without their white
space**, and in general to texts that include those the tutor shows exactly if no two of them with
one key are read differently. -/
theorem answersAfresh_iff_oneReading (T : String → Prop) :
    ((∀ text, T text → Steady text) → AnswersAfresh T) ∧
      ((∀ text, Expr.Shows text → T text) → (AnswersAfresh T ↔ OneReading T)) := by
  have hsteady : AnswersAfresh Steady :=
    answersAfresh_of_oneReading oneReading_steady fun _ => steady_of_shows
  refine ⟨hsteady.mono, fun hshown => ⟨oneReading_of_answersAfresh, fun hT => ?_⟩⟩
  exact answersAfresh_of_oneReading hT hshown

theorem answersAfresh_iff_oneReading_products :
    ((ofSettings .standard).afterRequests [.answer "y*x", .areEqual "y*x" "x y"]).resultOf
        (Request.assessStep "x*y" "y*x").operation =
      (ofSettings .standard).resultOf (Request.assessStep "x*y" "y*x").operation ∧
    OneReading Steady := by
  obtain ⟨hafresh, hiff⟩ := answersAfresh_iff_oneReading Steady
  have hafresh := hafresh fun _ h => h
  have hxy : Steady "x*y" := steady_of_unspaced (by simp [isBlank])
  have hyx : Steady "y*x" := steady_of_unspaced (by simp [isBlank])
  refine ⟨hafresh .standard _ _ ?_ ?_, (hiff fun _ => steady_of_shows).mp hafresh⟩
  · simp [Request.texts, hyx]
  · simp [Request.texts, hxy, hyx]

/-- The letters `xy` are read as a product if `x y` was read before. -/
theorem resultOf_parse_letters :
    ((ofSettings .standard).afterRequests [.parse "x y"]).resultOf (Request.parse "xy").operation =
        .ok (.op .mul [.symbol "x", .symbol "y"] true) ∧
      (ofSettings .standard).resultOf (Request.parse "xy").operation = .ok (.symbol "xy") ∧
      ¬AnswersAfresh fun _ => True := by
  have hjuxtaposed : Expr.parseNormal "x y" = .ok (.op .mul [.symbol "x", .symbol "y"] true) :=
    Expr.parseNormal_of_normalOfText? (by cbv)
  have hletters : Expr.parseNormal "xy" = .ok (.symbol "xy") :=
    Expr.parseNormal_of_normalOfText? (by cbv)
  have hkey : squeeze "x y" = squeeze "xy" := by cbv
  have hafter := resultOf_parse_of_read .standard hkey hjuxtaposed
  have hfirst := (resultOf_parse_ofSettings .standard "xy").trans hletters
  refine ⟨hafter, hfirst, fun hafresh => ?_⟩
  have hsame := hafresh .standard [.parse "x y"] (.parse "xy") (by simp) (by simp)
  have hcontradiction := (hafter.symm.trans hsame).trans hfirst
  cases hcontradiction

end Session

end AlgebraTutor
