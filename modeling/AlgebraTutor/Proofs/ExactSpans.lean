/-
The places of formulas are exact.

Each formula in a formula that was read has a place in the text, from one character to another.  The
text in that place, read by itself, is that formula again.  Two things could be in the way.  Text
that is cut out might fall into other tokens than it did in the whole text, since a token is as long
as it can be; but it is only cut between tokens, and there cutting anew changes nothing.  And a
formula that was read as an operand, where a looser operator would have stopped the reader, might be
read otherwise where nothing stops it; but the grammar derives it from its own tokens in any case.

That the formula is the same, with every place in it moved by the place it has in the text, is then
a matter of uniqueness: it has the same tokens and the same phrase.
-/
import AlgebraTutor.Proofs.FormulaParts
import AlgebraTutor.Proofs.MaximalMunch
import AlgebraTutor.Proofs.Recognition

namespace AlgebraTutor

/-! ### Moving places -/

/-- The place `n` bytes further on. -/
def Span.moved (n : Nat) (span : Span) : Span := ⟨n + span.start, n + span.stop⟩

def Token.moved (n : Nat) (token : Token) : Token := { token with span := token.span.moved n }

def Name.moved (n : Nat) (name : Name) : Name := { name with span := name.span.moved n }

def BinaryOp.moved (n : Nat) (op : BinaryOp) : BinaryOp := { op with span := op.span.moved n }

namespace Formula

mutual

/-- The formula with every place in it `n` bytes further on. -/
def moved (n : Nat) : Formula → Formula
  | number digits span => .number digits (span.moved n)
  | symbol name => .symbol (name.moved n)
  | paren inner span => .paren (inner.moved n) (span.moved n)
  | call name args span parens =>
      .call (name.moved n) (allMoved n args) (span.moved n) (parens.moved n)
  | member object index span => .member (object.moved n) (index.moved n) (span.moved n)
  | neg operand sign span => .neg (operand.moved n) (sign.moved n) (span.moved n)
  | binary lhs op rhs span => .binary (lhs.moved n) (op.moved n) (rhs.moved n) (span.moved n)

/-- The formulas with every place in them `n` bytes further on. -/
def allMoved (n : Nat) : List Formula → List Formula
  | [] => []
  | f :: fs => f.moved n :: allMoved n fs

end

theorem span_moved (n : Nat) (f : Formula) : (f.moved n).span = f.span.moved n := by
  cases f <;> rfl

mutual

@[simp] theorem phrase_moved (n : Nat) : ∀ f : Formula, (f.moved n).phrase = f.phrase
  | number _ _ | symbol _ | member _ _ _ => rfl
  | paren inner _ => by rw [moved, phrase, phrase_moved n inner, phrase]
  | call name args _ _ => by rw [moved, phrase, phrases_allMoved n args, phrase]; rfl
  | neg operand _ _ => by rw [moved, phrase, phrase_moved n operand, phrase]
  | binary lhs op rhs _ => by
      rw [moved, phrase, phrase_moved n lhs, phrase_moved n rhs, phrase]
      rfl

theorem phrases_allMoved (n : Nat) : ∀ fs : List Formula, phrases (allMoved n fs) = phrases fs
  | [] => rfl
  | f :: fs => by rw [allMoved, phrases, phrase_moved n f, phrases_allMoved n fs, phrases]

end

/-- Tokens that are moved write the formulas, moved. -/
theorem Written.moved {fs : List Formula} {ts : List Token} (h : Written fs ts) (n : Nat) :
    Written (allMoved n fs) (ts.map (Token.moved n)) := by
  induction h with
  | number token => exact .number (token.moved n)
  | symbol token => exact .symbol (token.moved n)
  | member object dot index => exact .member (object.moved n) (dot.moved n) (index.moved n)
  | paren opening closing _ ih =>
      rw [List.map_cons, List.map_append]
      exact .paren (opening.moved n) (closing.moved n) ih
  | callEmpty name opening closing =>
      exact .callEmpty (name.moved n) (opening.moved n) (closing.moved n)
  | call name opening closing _ ih =>
      rw [List.map_cons, List.map_cons, List.map_append]
      exact .call (name.moved n) (opening.moved n) (closing.moved n) ih
  | neg sign _ ih =>
      have hneg := Written.neg (sign.moved n) ih
      rwa [span_moved] at hneg
  | binary kind sign _ _ ihl ihr =>
      have hbinary := Written.binary kind (sign.moved n) ihl ihr
      rw [span_moved, span_moved] at hbinary
      rwa [List.map_append]
  | juxtaposed _ _ ihl ihr =>
      have hproduct := Written.juxtaposed ihl ihr
      rw [span_moved, span_moved] at hproduct
      rwa [List.map_append]
  | more comma _ _ ih ihs =>
      rw [List.map_append]
      exact .more (comma.moved n) ih ihs

end Formula

/-! ### Tokens in order -/

namespace Token

/-- A text further on is cut into the same tokens further on. -/
theorem Cuts.moved {offset : Nat} {text : List Char} {tokens : List Token}
    (h : Cuts offset text tokens) (n : Nat) :
    Cuts (n + offset) text (tokens.map (Token.moved n)) := by
  induction h with
  | done offset => exact .done (n + offset)
  | token hmatch _ ih =>
      rw [← Nat.add_assoc] at ih
      have hcuts := Cuts.token hmatch ih
      rwa [Nat.add_assoc] at hcuts

theorem scanFrom_eq_map (n : Nat) (text : List Char) :
    scanFrom n text = (scanFrom 0 text).map (Token.moved n) :=
  (cuts_iff.mp ((cuts_scanFrom 0 text).moved n)).symm

/-- The tokens are not empty and stand one behind the other. -/
structure InOrder (ts : List Token) : Prop where
  nonempty : ∀ t ∈ ts, t.span.start < t.span.stop
  inOrder : ts.Pairwise fun t u => t.span.stop ≤ u.span.start

variable {ts us : List Token} {start stop : Nat}

theorem InOrder.sublist (h : InOrder us) (hts : ts.Sublist us) : InOrder ts :=
  ⟨fun t ht => h.nonempty t (hts.subset ht), h.inOrder.sublist hts⟩

theorem InOrder.start_le (h : InOrder ts) {first : Token} (hfirst : first ∈ ts.head?) :
    ∀ t ∈ ts, first.span.start ≤ t.span.start := by
  obtain ⟨others, rfl⟩ := List.head?_eq_some_iff.mp hfirst
  refine List.forall_mem_cons.mpr ⟨Nat.le_refl _, fun t ht => ?_⟩
  have hlt := h.nonempty first (.head _)
  have hle := (List.pairwise_cons.mp h.inOrder).1 t ht
  omega

theorem InOrder.le_stop (h : InOrder ts) {last : Token} (hlast : last ∈ ts.getLast?) :
    ∀ t ∈ ts, t.span.stop ≤ last.span.stop := by
  obtain ⟨others, rfl⟩ := List.getLast?_eq_some_iff.mp hlast
  intro t ht
  rcases List.mem_append.mp ht with hother | hsame
  · have hlt := h.nonempty last (List.mem_append_right _ (.head _))
    have hle := (List.pairwise_append.mp h.inOrder).2.2 t hother last (.head _)
    omega
  · rw [List.mem_singleton.mp hsame]

theorem Consecutive.le_start (h : Consecutive start (ts.map Token.span) stop) :
    ∀ t ∈ ts, start ≤ t.span.start := by
  induction ts generalizing start with
  | nil => simp
  | cons t ts ih =>
      obtain ⟨rfl, hlt, hrest⟩ := h
      refine List.forall_mem_cons.mpr ⟨Nat.le_refl _, fun u hu => ?_⟩
      exact Nat.le_trans (Nat.le_of_lt hlt) (ih hrest u hu)

theorem Consecutive.inOrder (h : Consecutive start (ts.map Token.span) stop) : InOrder ts := by
  induction ts generalizing start with
  | nil => exact ⟨by simp, .nil⟩
  | cons t ts ih =>
      obtain ⟨rfl, hlt, hrest⟩ := h
      obtain ⟨hnonempty, hpairwise⟩ := ih hrest
      exact ⟨List.forall_mem_cons.mpr ⟨hlt, hnonempty⟩, .cons hrest.le_start hpairwise⟩

theorem Consecutive.start_eq (h : Consecutive start (ts.map Token.span) stop) :
    ∀ t ∈ ts.head?, t.span.start = start := by
  cases ts with
  | nil => simp
  | cons t ts =>
      rintro _ ⟨⟩
      exact h.1

theorem Consecutive.stop_eq (h : Consecutive start (ts.map Token.span) stop) :
    ∀ t ∈ ts.getLast?, t.span.stop = stop := by
  induction ts generalizing start with
  | nil => simp
  | cons t ts ih =>
      obtain ⟨-, -, hrest⟩ := h
      cases ts with
      | nil =>
          rintro _ ⟨⟩
          exact hrest
      | cons u us =>
          rw [List.getLast?_cons_cons]
          exact ih hrest

theorem inOrder_tokens (text : String) : InOrder (Cursor.ofText text).tokens :=
  (cuts_scanFrom 0 text.toList).consecutive.inOrder.sublist (List.filter_sublist ..)

end Token

/-! ### Parts of a text -/

/-- The text in the place, which begins and ends between characters. -/
def IsSlice (text : String) (span : Span) (inside : String) : Prop :=
  ∃ front back, text = front ++ inside ++ back ∧ span.start = front.utf8ByteSize ∧
    span.stop = front.utf8ByteSize + inside.utf8ByteSize

/-- What is kept of a list comes from a part of the list that begins and ends with it. -/
theorem exists_part {α : Type} {test : α → Bool} {all before kept after : List α}
    (h : all.filter test = before ++ kept ++ after) (hkept : kept ≠ []) :
    ∃ front part back, all = front ++ part ++ back ∧ part.filter test = kept ∧
      part.head? = kept.head? ∧ part.getLast? = kept.getLast? := by
  obtain ⟨first, others, rfl⟩ := List.exists_cons_of_ne_nil hkept
  obtain ⟨most, back, rfl, hmost, -⟩ := List.filter_eq_append_iff.mp h
  obtain ⟨front, part, rfl, -, hpart⟩ := List.filter_eq_append_iff.mp hmost
  obtain ⟨gap, rest, rfl, -, hfirst, hrest⟩ := List.filter_eq_cons_iff.mp hpart
  rcases List.eq_nil_or_concat others with rfl | ⟨middle, last, rfl⟩
  · exact ⟨front ++ gap, [first], rest ++ back, by simp, by simp [hfirst], rfl, rfl⟩
  · rw [List.concat_eq_append] at hrest ⊢
    obtain ⟨inner, tail, rfl, hinner, htail⟩ := List.filter_eq_append_iff.mp hrest
    obtain ⟨gap', rest', rfl, hgap', hlast, -⟩ := List.filter_eq_cons_iff.mp htail
    refine ⟨front ++ gap, first :: (inner ++ gap' ++ [last]), rest' ++ back, by simp, ?_, rfl, ?_⟩
    · have hnone : gap'.filter test = [] := List.filter_eq_nil_iff.mpr hgap'
      simp [hfirst, hlast, hinner, hnone]
    · rw [List.getLast?_cons, List.getLast?_cons, List.getLast?_concat, List.getLast?_concat]

/-! ### Places in order -/

namespace Formula

open Token

variable {f g : Formula} {fs : List Formula} {ts us before after : List Token} {text : String}

theorem Written.exists_first (h : Written [f] ts) :
    ∃ t ∈ ts.head?, t.span.start = f.span.start := by
  simpa using h.head?_eq

theorem Written.exists_last (h : Written [f] ts) :
    ∃ t ∈ ts.getLast?, t.span.stop = f.span.stop := by
  simpa using h.getLast?_eq

theorem Written.le_start (h : Written [f] ts) {n : Nat} (hts : ∀ t ∈ ts, n ≤ t.span.start) :
    n ≤ f.span.start := by
  obtain ⟨first, hfirst, hstart⟩ := h.exists_first
  rw [← hstart]
  exact hts first (List.mem_of_mem_head? hfirst)

theorem Written.stop_le (h : Written [f] ts) {n : Nat} (hts : ∀ t ∈ ts, t.span.stop ≤ n) :
    f.span.stop ≤ n := by
  obtain ⟨last, hlast, hstop⟩ := h.exists_last
  rw [← hstop]
  exact hts last (List.mem_of_getLast? hlast)

theorem Written.stop_le_of_append (h : Written [f] ts) (hts : InOrder (ts ++ us)) :
    ∀ t ∈ us, f.span.stop ≤ t.span.start := fun t ht =>
  h.stop_le fun s hs => (List.pairwise_append.mp hts.inOrder).2.2 s hs t ht

/-- A formula begins with its first token and ends with its last one. -/
theorem Written.encloses (h : Written [f] ts) (hts : InOrder ts) :
    ∀ t ∈ ts, f.span.start ≤ t.span.start ∧ t.span.stop ≤ f.span.stop := by
  intro t ht
  obtain ⟨first, hfirst, hstart⟩ := h.exists_first
  obtain ⟨last, hlast, hstop⟩ := h.exists_last
  rw [← hstart, ← hstop]
  exact ⟨hts.start_le hfirst t ht, hts.le_stop hlast t ht⟩

theorem Written.start_lt_stop (h : Written [f] ts) (hts : InOrder ts) :
    f.span.start < f.span.stop := by
  obtain ⟨first, hfirst, hstart⟩ := h.exists_first
  have hmem := List.mem_of_mem_head? hfirst
  have hlt := hts.nonempty first hmem
  have hle := (h.encloses hts first hmem).2
  omega

/-- What is laid out in tokens lies within what the tokens write. -/
theorem Written.within (h : Written [f] ts) (hts : InOrder ts) (hfs : LaidOut fs ts) :
    ∀ g ∈ fs, f.span.start ≤ g.span.start ∧ g.span.stop ≤ f.span.stop := by
  intro g hg
  obtain ⟨before, us, after, rfl, hus⟩ := hfs.of_mem hg
  have hmem {t : Token} (ht : t ∈ us) : t ∈ before ++ us ++ after :=
    List.mem_append_left _ (List.mem_append_right _ ht)
  exact ⟨hus.written.le_start fun t ht => (h.encloses hts t (hmem ht)).1,
    hus.written.stop_le fun t ht => (h.encloses hts t (hmem ht)).2⟩

/-- What is laid out in tokens stands one behind the other. -/
theorem LaidOut.inOrder (h : LaidOut fs ts) (hts : InOrder ts) :
    fs.Pairwise fun f g => f.span.stop ≤ g.span.start := by
  induction h with
  | nothing => exact .nil
  | @next before f fs ts us hf more ih =>
      refine .cons (fun g hg => ?_) (ih (hts.sublist (List.sublist_append_right _ _)))
      obtain ⟨between, vs, after, rfl, hvs⟩ := more.of_mem hg
      rw [List.append_assoc] at hts
      have hafter := hf.written.stop_le_of_append (hts.sublist (List.sublist_append_right _ _))
      exact hvs.written.le_start fun t ht =>
        hafter t (List.mem_append_left _ (List.mem_append_right _ ht))

/-- An operator stands between its operands. -/
theorem Written.between {lhs rhs : Formula} {op : BinaryOp} {span : Span}
    (h : Written [.binary lhs op rhs span] us) (hus : InOrder us) :
    lhs.span.stop ≤ op.span.start ∧ op.span.start ≤ op.span.stop ∧
      op.span.stop ≤ rhs.span.start := by
  cases h with
  | binary kind sign hlhs hrhs =>
      have hsign := (List.pairwise_append.mp hus.inOrder).2.1
      have hnonempty := hus.nonempty sign (List.mem_append_right _ (.head _))
      exact ⟨hlhs.stop_le_of_append hus sign (.head _), Nat.le_of_lt hnonempty,
        hrhs.le_start (List.pairwise_cons.mp hsign).1⟩
  | juxtaposed hlhs hrhs =>
      exact ⟨Nat.le_refl _, hrhs.le_start (hlhs.stop_le_of_append hus), Nat.le_refl _⟩
  | more comma h others => exact absurd rfl others.ne_nil

/-! ### The text of a formula -/

/-- **The text in the place of a formula has its tokens**, moved to the beginning of the text. -/
theorem Written.exists_slice (h : Written [f] us)
    (htext : (Cursor.ofText text).tokens = before ++ us ++ after) :
    ∃ inside, IsSlice text f.span inside ∧
      us = (Cursor.ofText inside).tokens.map (Token.moved f.span.start) := by
  obtain ⟨first, hfirst, hstart⟩ := h.exists_first
  obtain ⟨last, hlast, hstop⟩ := h.exists_last
  have hne : us ≠ [] := by
    rintro rfl
    cases hfirst
  obtain ⟨front, part, back, hscan, rfl, hpartFirst, hpartLast⟩ := exists_part htext hne
  have hcuts : Cuts 0 text.toList (Cursor.ofText text).ahead := cuts_scanFrom 0 text.toList
  rw [hscan] at hcuts
  obtain ⟨whole, rest, hwhole, hfront, -⟩ := hcuts.of_append
  obtain ⟨start, inside, rfl, -, hinside⟩ := hfront.of_append
  rw [Nat.zero_add] at hinside
  have hplace : f.span.start = (String.ofList start).utf8ByteSize :=
    hstart.symm.trans (hinside.consecutive.start_eq first (hpartFirst ▸ hfirst))
  refine ⟨String.ofList inside, ⟨String.ofList start, String.ofList rest, ?_, hplace, ?_⟩, ?_⟩
  · rw [← String.ofList_append, ← String.ofList_append, ← hwhole, String.ofList_toList]
  · exact hstop.symm.trans (hinside.consecutive.stop_eq last (hpartLast ▸ hlast))
  · rw [cuts_iff.mp hinside, scanFrom_eq_map, List.filter_map, hplace, Cursor.tokens,
      Cursor.ofText, scan, String.toList_ofList]
    rfl

/-! ### Formulas that were read -/

/-- A part of a part, and so on, of the formula, or the formula itself. -/
inductive IsNode (f : Formula) : Formula → Prop
  | root : IsNode f f
  | part {g p : Formula} (h : IsNode f g) (hp : p ∈ g.parts) : IsNode f p

/-- The formula is spelled by tokens of the text. -/
def IsIn (text : String) (f : Formula) : Prop :=
  ∃ before us after, (Cursor.ofText text).tokens = before ++ us ++ after ∧ Spelled f us

/-- With a formula everything in it is spelled by tokens of the text. -/
theorem IsIn.node (hf : f.IsIn text) (h : f.IsNode g) : g.IsIn text := by
  induction h with
  | root => exact hf
  | part _ hp ih =>
      obtain ⟨before, us, after, htext, hg⟩ := ih
      obtain ⟨before', vs, after', rfl, hpart⟩ := hg.parts_laidOut.of_mem hp
      exact ⟨before ++ before', vs, after' ++ after, by rw [htext]; simp, hpart⟩

theorem spelled_of_parse (h : parse text = .ok f) : Spelled f (Cursor.ofText text).tokens := by
  obtain ⟨next, hread, hnext⟩ := Outcome.result_whole_eq_ok.mp h
  obtain ⟨ts, hts, hwritten⟩ := readExpr_continues hread
  have hderives := derives_of_readExpr hread hnext
  rw [Cursor.lexemes_eq_map_tokens, List.map_eq_nil_iff] at hnext
  rw [hnext, List.append_nil] at hts
  rw [List.nil_append] at hwritten
  rw [Cursor.lexemes_eq_map_tokens, hts] at hderives
  exact hts ▸ ⟨hwritten, hderives⟩

theorem isIn_of_parse (h : parse text = .ok f) : f.IsIn text :=
  ⟨[], _, [], by simp, spelled_of_parse h⟩

/-- **A text is read as the formula that its tokens spell**, if there is one. -/
theorem parse_eq_ok_iff : parse text = .ok f ↔ Spelled f (Cursor.ofText text).tokens := by
  refine ⟨spelled_of_parse, fun h => ?_⟩
  obtain ⟨g, hg, hphrase⟩ := parse_of_derives h.derives
  have hsame : [g] = [f] :=
    (spelled_of_parse hg).written.unique h.written (by simp only [phrases, hphrase])
  rw [hg, List.singleton_injective hsame]

/-- A text of which the tokens, further on, spell a formula is read as the formula, but that its
places are where the tokens of the text are. -/
theorem Spelled.exists_parse {inside : String} {n : Nat}
    (h : Spelled f ((Cursor.ofText inside).tokens.map (Token.moved n))) :
    ∃ g, parse inside = .ok g ∧ g.moved n = f := by
  have hlexemes : ((Cursor.ofText inside).tokens.map (Token.moved n)).map Token.lexed =
      Token.lexemes inside.toList := by
    rw [List.map_map]
    rfl
  obtain ⟨g, hg, hphrase⟩ := parse_of_derives (hlexemes ▸ h.derives)
  have hmoved := (spelled_of_parse hg).written.moved n
  refine ⟨g, hg, List.singleton_injective (hmoved.unique h.written ?_)⟩
  simp only [allMoved, phrases, phrase_moved, hphrase]

/-! ### Exact places -/

/-- The place of the formula is not empty, it encloses what the formula is made of, in order, and
the text in it is read as the formula, with all places moved to the beginning. -/
structure IsExact (text : String) (f : Formula) : Prop where
  nonempty : f.span.start < f.span.stop
  reads : ∃ inside, IsSlice text f.span inside ∧
    ∃ g, parse inside = .ok g ∧ g.moved f.span.start = f
  within : ∀ p ∈ f.parts, f.span.start ≤ p.span.start ∧ p.span.stop ≤ f.span.stop
  inOrder : f.parts.Pairwise fun p q => p.span.stop ≤ q.span.start
  between : ∀ lhs op rhs span, f = .binary lhs op rhs span →
    lhs.span.stop ≤ op.span.start ∧ op.span.start ≤ op.span.stop ∧ op.span.stop ≤ rhs.span.start

theorem IsIn.isExact (h : f.IsIn text) : f.IsExact text := by
  obtain ⟨before, us, after, htext, hf⟩ := h
  have hus : InOrder us := (inOrder_tokens text).sublist (by
    rw [htext]
    exact (List.sublist_append_right _ _).trans (List.sublist_append_left _ _))
  obtain ⟨inside, hslice, htokens⟩ := hf.written.exists_slice htext
  refine ⟨hf.written.start_lt_stop hus, ⟨inside, hslice, (htokens ▸ hf).exists_parse⟩,
    hf.written.within hus hf.parts_laidOut, hf.parts_laidOut.inOrder hus, ?_⟩
  rintro lhs op rhs span rfl
  exact hf.written.between hus

end Formula

/-- Both sides of an equation that was read are spelled by tokens of the text. -/
theorem Equation.isIn_of_parse {text : String} {e : Equation} (h : parse text = .ok e) :
    e.lhs.IsIn text ∧ e.rhs.IsIn text := by
  obtain ⟨next, hread, hnext⟩ := Outcome.result_whole_eq_ok.mp h
  obtain ⟨c₁, token, c₂, hlhs, htoken, hrhs⟩ := read_cases hread
  obtain ⟨ts, hts, hleft⟩ := Formula.readExpr_continues hlhs
  obtain ⟨us, hus, hright⟩ := Formula.readExpr_continues hrhs
  obtain ⟨hderives, -⟩ := (Formula.readExpr_made hlhs).derives_of_expect htoken (by decide)
  have hderives' := Formula.derives_of_readExpr hrhs hnext
  rw [List.nil_append] at hleft hright
  rw [Cursor.lexemes_eq_map_tokens, List.map_eq_nil_iff] at hnext
  rw [hnext, List.append_nil] at hus
  rw [Cursor.lexemes_eq_map_tokens, hts] at hderives
  rw [Cursor.lexemes_eq_map_tokens, hus] at hderives'
  have hsides := Cursor.tokens_of_next (Cursor.next_of_expect htoken).1
  refine ⟨⟨[], ts, c₁.tokens, hts, (Formula.Spelled.of_derives hleft hderives).1⟩,
    ⟨ts ++ [token], us, [], ?_, hright, hderives'⟩⟩
  rw [hts, hsides, hus]
  simp

/-- **Places are exact.**  Every formula in what was read, an expression or a side of an equation,
has a place that is not empty and begins and ends between characters of the text.  What it is made
of stands within it, one behind the other, and the operator between its operands.  The text in its
place, read by itself, is the formula again, but that its places begin at zero. -/
theorem Formula.parse_isExact (text : String) :
    (∀ f, Formula.parse text = .ok f → ∀ g, f.IsNode g → g.IsExact text) ∧
    ∀ e, Equation.parse text = .ok e → ∀ g, e.lhs.IsNode g ∨ e.rhs.IsNode g →
      g.IsExact text := by
  refine ⟨fun f hf g hg => ((isIn_of_parse hf).node hg).isExact, fun e he g hg => ?_⟩
  obtain ⟨hlhs, hrhs⟩ := Equation.isIn_of_parse he
  rcases hg with hg | hg
  · exact (hlhs.node hg).isExact
  · exact (hrhs.node hg).isExact

/-- In `1 + 2 x = 3` the product begins behind the sum sign and takes the blank in it along, but not
the ones around it. -/
theorem Formula.parse_isExact_product :
    let product : Formula := .binary (.number "2" ⟨4, 5⟩) ⟨.mul, true, ⟨5, 6⟩⟩
      (.symbol ⟨"x", ⟨6, 7⟩⟩) ⟨4, 7⟩
    let sum : Formula := .binary (.number "1" ⟨0, 1⟩) ⟨.add, false, ⟨2, 3⟩⟩ product ⟨0, 7⟩
    (Formula.parse "1 + 2 x" = .ok sum ∧ sum.IsNode product ∧ product.IsExact "1 + 2 x") ∧
    ∃ e, Equation.parse "1 + 2 x = 3" = .ok e ∧ e.lhs.IsNode e.lhs ∧
      e.lhs.IsExact "1 + 2 x = 3" := by
  intro product sum
  have htokens : (Cursor.ofText "1 + 2 x").tokens = [⟨.int, "1", ⟨0, 1⟩⟩, ⟨.add, "+", ⟨2, 3⟩⟩,
      ⟨.int, "2", ⟨4, 5⟩⟩, ⟨.name, "x", ⟨6, 7⟩⟩] := by cbv
  have hwritten : Written [sum] (Cursor.ofText "1 + 2 x").tokens := by
    rw [htokens]
    exact .binary .add ⟨.add, "+", ⟨2, 3⟩⟩ (.number ⟨.int, "1", ⟨0, 1⟩⟩)
      (.juxtaposed (.number ⟨.int, "2", ⟨4, 5⟩⟩) (.symbol ⟨.name, "x", ⟨6, 7⟩⟩))
  have hparse : Formula.parse "1 + 2 x" = .ok sum := by
    refine parse_eq_ok_iff.mpr ⟨hwritten, ?_⟩
    rw [htokens]
    exact Production.derives_of_phrase? 10 rfl
  have hnode : sum.IsNode product := .part .root (.tail _ (.head _))
  have hlexemes : Token.lexemes "1 + 2 x = 3".toList = [⟨.int, "1"⟩, ⟨.add, "+"⟩, ⟨.int, "2"⟩,
      ⟨.name, "x"⟩, ⟨.assign, "="⟩, ⟨.int, "3"⟩] := by cbv
  have hlhs : Derives .expr (Token.lexemes "1 + 2 x = 3".toList) sum.phrase
      [⟨.assign, "="⟩, ⟨.int, "3"⟩] := hlexemes ▸ Production.derives_of_phrase? 10 rfl
  have hrhs : Derives .expr [⟨.int, "3"⟩] (.number "3") [] := Production.derives_of_phrase? 10 rfl
  obtain ⟨e, he, -⟩ := Equation.exists_parse_iff.mpr ⟨⟨.assign, "="⟩, [⟨.int, "3"⟩], rfl, hlhs, hrhs⟩
  exact ⟨⟨hparse, hnode, (parse_isExact "1 + 2 x").1 sum hparse product hnode⟩,
    e, he, .root, (parse_isExact "1 + 2 x = 3").2 e he e.lhs (.inl .root)⟩

end AlgebraTutor
