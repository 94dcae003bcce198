/-
Every token is the longest piece that a pattern matches.

The kinds of token are given by patterns, which are regular expressions, and a text is cut from the
left: of all beginnings of the rest of the text that some pattern matches, the longest is the next
token.  `munch` does not try the patterns one after the other.  It decides by the first character
and takes what can follow it, looking beyond digits for a point with more digits behind it.  What
has to be shown is that no other pattern would have reached further, and that a character becomes a
symbol only where none of the other patterns matches anything (`noFurther_munch`).

The pieces are characterized without the function that finds them (`cuts_iff`).  It follows that the
tokens of a part of a text that begins and ends between tokens are the tokens of the whole text in
that part.
-/
import Mathlib.Computability.Language
import AlgebraTutor.Proofs.Lexing

namespace AlgebraTutor

open scoped Computability

namespace TokenKind

/-! ### The patterns -/

/-- The character by itself. -/
def char (c : Char) : Language Char := {[c]}

/-- One of the characters from the first to the last. -/
def range (first last : Char) : Language Char := {w | ∃ c, w = [c] ∧ first ≤ c ∧ c ≤ last}

/-- A space, a tab, a line feed or a carriage return. -/
def blank : Language Char := char ' ' + char '\t' + char '\n' + char '\r'

/-- A letter of the alphabet or an underscore. -/
def letter : Language Char := range 'a' 'z' + range 'A' 'Z' + char '_'

/-- A decimal digit. -/
def digit : Language Char := range '0' '9'

/-- The texts that a token of each kind can have.  A symbol can be any character that ends no
line. -/
def pattern : TokenKind → Language Char
  | whitespace => blank * blank∗
  | add => char '+'
  | sub => char '-'
  | mul => char '*'
  | div => char '/'
  | exp => char '^'
  | assign => char '='
  | name => letter * (letter + digit)∗
  | comma => char ','
  | openParen => char '('
  | closeParen => char ')'
  | int => digit * digit∗
  | float => digit∗ * char '.' * (digit * digit∗)
  | dot => char '.'
  | symbol => {w | ∃ c, w = [c] ∧ c ≠ '\n'}

/-- The texts of the language are the single characters that pass the test. -/
def IsClass (l : Language Char) (test : Char → Bool) : Prop :=
  ∀ w, w ∈ l ↔ ∃ c, w = [c] ∧ test c = true

section Classes

variable {l m : Language Char} {test next : Char → Bool} {w : List Char}

theorem IsClass.mem_kstar (h : IsClass l test) : w ∈ l∗ ↔ ∀ c ∈ w, test c = true := by
  rw [Language.mem_kstar]
  constructor
  · rintro ⟨pieces, rfl, hpieces⟩ c hc
    obtain ⟨piece, hpiece, hc⟩ := List.mem_flatten.mp hc
    obtain ⟨d, rfl, hd⟩ := (h piece).mp (hpieces piece hpiece)
    rwa [List.mem_singleton.mp hc]
  · intro hw
    refine ⟨w.map fun c => [c], ?_, fun piece hpiece => ?_⟩
    · rw [← List.flatMap_def, List.flatMap_singleton']
    · obtain ⟨c, hc, rfl⟩ := List.mem_map.mp hpiece
      exact (h [c]).mpr ⟨c, rfl, hw c hc⟩

theorem IsClass.mem_mul_kstar (hl : IsClass l test) (hm : IsClass m next) :
    w ∈ l * m∗ ↔ ∃ c rest, w = c :: rest ∧ test c = true ∧ ∀ d ∈ rest, next d = true := by
  rw [Language.mem_mul]
  constructor
  · rintro ⟨first, hfirst, rest, hrest, rfl⟩
    obtain ⟨c, rfl, hc⟩ := (hl first).mp hfirst
    exact ⟨c, rest, rfl, hc, hm.mem_kstar.mp hrest⟩
  · rintro ⟨c, rest, rfl, hc, hrest⟩
    exact ⟨[c], (hl [c]).mpr ⟨c, rfl, hc⟩, rest, hm.mem_kstar.mpr hrest, rfl⟩

theorem isClass_char (c : Char) : IsClass (char c) (· == c) := by
  intro w
  simp only [char, beq_iff_eq]
  exact ⟨fun h => ⟨c, h, rfl⟩, by rintro ⟨_, rfl, rfl⟩; rfl⟩

theorem isClass_range (first last : Char) :
    IsClass (range first last) fun c => decide (first ≤ c) && decide (c ≤ last) := by
  intro w
  simp only [Bool.and_eq_true, decide_eq_true_eq]
  exact Iff.rfl

theorem IsClass.add (hl : IsClass l test) (hm : IsClass m next) :
    IsClass (l + m) fun c => test c || next c := by
  intro w
  rw [Language.mem_add, hl w, hm w, ← exists_or]
  simp only [← and_or_left, Bool.or_eq_true]

theorem isClass_blank : IsClass blank Token.isSpacing :=
  (((isClass_char ' ').add (isClass_char '\t')).add (isClass_char '\n')).add (isClass_char '\r')

theorem isClass_digit : IsClass digit Char.isDigit := isClass_range '0' '9'

theorem isClass_letter : IsClass letter Token.isNameStart := by
  have h := ((isClass_range 'a' 'z').add (isClass_range 'A' 'Z')).add (isClass_char '_')
  intro w
  rw [letter, h w]
  have hsame (c : Char) : (decide ('a' ≤ c) && decide (c ≤ 'z') ||
      (decide ('A' ≤ c) && decide (c ≤ 'Z')) || c == '_') = Token.isNameStart c := by
    rw [Token.isNameStart, Char.isAlpha, Char.isUpper, Bool.decide_and, Bool.or_comm (_ && _)]
    rfl
  simp only [hsame]

theorem isClass_nameRest : IsClass (letter + digit) Token.isNameRest := by
  intro w
  rw [isClass_letter.add isClass_digit w]
  have hsame (c : Char) : (Token.isNameStart c || c.isDigit) = Token.isNameRest c := by
    rw [Token.isNameStart, Token.isNameRest, Char.isAlphanum, Bool.or_right_comm]
  simp only [hsame]

end Classes

theorem mem_pattern_float {w : List Char} : w ∈ pattern .float ↔
    ∃ whole c places, w = whole ++ '.' :: c :: places ∧ (∀ d ∈ whole, d.isDigit = true) ∧
      c.isDigit = true ∧ ∀ d ∈ places, d.isDigit = true := by
  rw [pattern, mul_assoc, Language.mem_mul]
  constructor
  · rintro ⟨whole, hwhole, rest, hrest, rfl⟩
    obtain ⟨point, hpoint, digits, hdigits, rfl⟩ := Language.mem_mul.mp hrest
    obtain ⟨c, places, rfl, hc, hplaces⟩ := (isClass_digit.mem_mul_kstar isClass_digit).mp hdigits
    rw [show point = ['.'] from hpoint]
    exact ⟨whole, c, places, rfl, isClass_digit.mem_kstar.mp hwhole, hc, hplaces⟩
  · rintro ⟨whole, c, places, rfl, hwhole, hc, hplaces⟩
    refine ⟨whole, isClass_digit.mem_kstar.mpr hwhole, _, ?_, rfl⟩
    exact Language.mem_mul.mpr ⟨['.'], rfl, _,
      (isClass_digit.mem_mul_kstar isClass_digit).mpr ⟨c, places, rfl, hc, hplaces⟩, rfl⟩

end TokenKind

/-- The text of the token is one that tokens of its kind can have. -/
def Lexeme.Fits (l : Lexeme) : Prop := l.text.toList ∈ l.kind.pattern

namespace Token

variable {c x : Char} {rest w : List Char} {kind : TokenKind}

/-! ### What is munched -/

/-- Where a point with digits behind it stands, `fractionLength` counts them all. -/
theorem fractionLength_cases (cs : List Char) : fractionLength cs = 0 ∨
    ∃ d places back, cs = '.' :: d :: (places ++ back) ∧ d.isDigit = true ∧
      (∀ p ∈ places, p.isDigit = true) ∧ fractionLength cs = places.length + 2 := by
  unfold fractionLength
  split
  · next rest =>
      dsimp only
      split
      · exact .inl rfl
      · next hlength =>
          right
          cases hdigits : rest.takeWhile Char.isDigit with
          | nil => exact absurd (by rw [hdigits]; rfl) hlength
          | cons d places =>
              have hall : ∀ p ∈ d :: places, p.isDigit = true := fun p hp =>
                List.mem_takeWhile_imp (hdigits ▸ hp)
              obtain ⟨hd, hplaces⟩ := List.forall_mem_cons.mp hall
              refine ⟨d, places, rest.dropWhile Char.isDigit, ?_, hd, hplaces, rfl⟩
              rw [← List.cons_append, ← hdigits, List.takeWhile_append_dropWhile]
  · exact .inl rfl

theorem le_fractionLength {d : Char} {places : List Char} (back : List Char) (hd : d.isDigit = true)
    (hplaces : ∀ p ∈ places, p.isDigit = true) :
    places.length + 2 ≤ fractionLength ('.' :: d :: (places ++ back)) := by
  have htake : (d :: (places ++ back)).takeWhile Char.isDigit =
      d :: (places ++ back.takeWhile Char.isDigit) := by
    rw [List.takeWhile_cons_of_pos hd, List.takeWhile_append_of_pos hplaces]
  rw [fractionLength, htake]
  simp

theorem take_takeWhile (test : Char → Bool) (cs : List Char) :
    cs.take (cs.takeWhile test).length = cs.takeWhile test :=
  (List.prefix_iff_eq_take.mp (List.takeWhile_prefix test)).symm

theorem singleKind_fits (h : isSpacing c = false) : [c] ∈ (singleKind c).pattern := by
  unfold singleKind
  split
  case h_11 =>
    refine ⟨c, rfl, ?_⟩
    rintro rfl
    cases h
  all_goals rfl

/-- **What is munched matches the pattern of its kind.** -/
theorem munch_fits (c : Char) (rest : List Char) :
    c :: rest.take (munch c rest).2 ∈ (munch c rest).1.pattern ∧
      (munch c rest).2 ≤ rest.length := by
  have htake (test : Char → Bool) : (rest.takeWhile test).length ≤ rest.length :=
    (List.takeWhile_prefix test).length_le
  have hall (test : Char → Bool) : ∀ d ∈ rest.takeWhile test, test d = true := fun _ =>
    List.mem_takeWhile_imp
  by_cases hspacing : isSpacing c = true
  · rw [munch_of_isSpacing hspacing, take_takeWhile]
    exact ⟨(TokenKind.isClass_blank.mem_mul_kstar TokenKind.isClass_blank).mpr
      ⟨c, _, rfl, hspacing, hall _⟩, htake _⟩
  by_cases hname : isNameStart c = true
  · rw [munch_of_isNameStart hname, take_takeWhile]
    exact ⟨(TokenKind.isClass_letter.mem_mul_kstar TokenKind.isClass_nameRest).mpr
      ⟨c, _, rfl, hname, hall _⟩, htake _⟩
  rw [Bool.not_eq_true] at hspacing hname
  by_cases hdigit : c.isDigit = true
  · rw [munch_of_isDigit hdigit]
    rcases fractionLength_cases (rest.drop (rest.takeWhile Char.isDigit).length) with
      hnone | ⟨d, places, back, hrest, hd, hplaces, hlength⟩
    · rw [if_pos hnone, take_takeWhile]
      exact ⟨(TokenKind.isClass_digit.mem_mul_kstar TokenKind.isClass_digit).mpr
        ⟨c, _, rfl, hdigit, hall _⟩, htake _⟩
    · rw [if_neg (by omega), hlength]
      have hsplit : rest = rest.takeWhile Char.isDigit ++ '.' :: d :: places ++ back := by
        conv_lhs => rw [← List.take_append_drop (rest.takeWhile Char.isDigit).length rest, hrest,
          take_takeWhile]
        simp
      have hfront : rest.take ((rest.takeWhile Char.isDigit).length + (places.length + 2)) =
          rest.takeWhile Char.isDigit ++ '.' :: d :: places := by
        conv_lhs => arg 2; rw [hsplit]
        exact List.take_left' (by simp)
      refine ⟨TokenKind.mem_pattern_float.mpr ⟨c :: rest.takeWhile Char.isDigit, d, places, ?_,
        List.forall_mem_cons.mpr ⟨hdigit, hall _⟩, hd, hplaces⟩, ?_⟩
      · rw [hfront]
        rfl
      · have hle := congrArg List.length hsplit
        simp only [List.length_append, List.length_cons] at hle ⊢
        omega
  · rw [Bool.not_eq_true] at hdigit
    rw [munch_of_other hspacing hname hdigit]
    rcases fractionLength_cases (c :: rest) with
      hnone | ⟨d, places, back, hrest, hd, hplaces, hlength⟩
    · rw [if_pos hnone]
      exact ⟨singleKind_fits hspacing, Nat.zero_le _⟩
    · rw [if_neg (by omega), hlength]
      obtain ⟨rfl, rfl⟩ := List.cons.inj hrest
      refine ⟨TokenKind.mem_pattern_float.mpr ⟨[], d, places, ?_, by simp, hd, hplaces⟩, by simp⟩
      show '.' :: (d :: (places ++ back)).take (places.length + 1) = _
      rw [List.take_succ_cons, List.take_left]
      rfl

/-! ### No pattern reaches further -/

theorem ne_nil_of_mem_pattern (hw : w ∈ kind.pattern) : w ≠ [] := by
  rintro rfl
  have hclass {l m : Language Char} {first test : Char → Bool} (hfirst : TokenKind.IsClass l first)
      (hm : TokenKind.IsClass m test) : [] ∉ l * m∗ := by
    intro h
    obtain ⟨_, _, heq, -⟩ := (hfirst.mem_mul_kstar hm).mp h
    cases heq
  cases kind with
  | whitespace => exact hclass TokenKind.isClass_blank TokenKind.isClass_blank hw
  | name => exact hclass TokenKind.isClass_letter TokenKind.isClass_nameRest hw
  | int => exact hclass TokenKind.isClass_digit TokenKind.isClass_digit hw
  | float =>
      obtain ⟨whole, _, _, heq, -⟩ := TokenKind.mem_pattern_float.mp hw
      exact absurd heq.symm (by simp)
  | symbol =>
      obtain ⟨_, heq, -⟩ := hw
      cases heq
  | _ => cases hw

/-- The text, of the given kind, is no longer than what was found, and if it is no symbol it is of
the kind that was found or shorter. -/
structure NoFurther (kind : TokenKind) (w : List Char) (found : TokenKind × Nat) : Prop where
  length : w.length ≤ found.2 + 1
  kind : kind ≠ .symbol → found.1 ≠ .symbol ∧ (w.length = found.2 + 1 → kind = found.1)

theorem NoFurther.same {n : Nat} (h : w.length ≤ n + 1) : NoFurther kind w (kind, n) :=
  ⟨h, fun hkind => ⟨hkind, fun _ => rfl⟩⟩

theorem NoFurther.shorter {found : TokenKind} {n : Nat} (h : w.length < n + 1)
    (hfound : found ≠ .symbol) : NoFurther kind w (found, n) :=
  ⟨Nat.le_of_lt h, fun _ => ⟨hfound, fun heq => absurd heq (Nat.ne_of_lt h)⟩⟩

theorem length_le_takeWhile {test : Char → Bool} {front : List Char} (hfront : front <+: rest)
    (hall : ∀ d ∈ front, test d = true) : front.length ≤ (rest.takeWhile test).length := by
  obtain ⟨back, rfl⟩ := hfront
  rw [List.takeWhile_append_of_pos hall, List.length_append]
  exact Nat.le_add_right _ _

theorem noFurther_digits (hc : c.isDigit = true) (hw : w <+: rest)
    (hall : ∀ d ∈ w, d.isDigit = true) : NoFurther .int (c :: w) (munch c rest) := by
  have hlength := length_le_takeWhile hw hall
  rw [munch_of_isDigit hc]
  split
  · exact .same (by simpa using hlength)
  · exact .shorter (by rw [List.length_cons]; omega) (by decide)

/-- Digits in front of a point are all that there are. -/
theorem noFurther_decimal {whole places : List Char} {d : Char}
    (hwhole : ∀ p ∈ whole, p.isDigit = true) (hd : d.isDigit = true)
    (hplaces : ∀ p ∈ places, p.isDigit = true)
    (hw : whole ++ '.' :: d :: places <+: c :: rest) :
    NoFurther .float (whole ++ '.' :: d :: places) (munch c rest) := by
  obtain ⟨back, hback⟩ := hw
  cases whole with
  | nil =>
      obtain ⟨rfl, rfl⟩ := List.cons.inj hback
      have hle := le_fractionLength back hd hplaces
      show NoFurther .float ('.' :: d :: places) (munch '.' (d :: (places ++ back)))
      rw [munch_of_other rfl rfl rfl, if_neg (by omega)]
      refine .same ?_
      rw [List.length_cons, List.length_cons]
      omega
  | cons first whole =>
      obtain ⟨hfirst, hwhole⟩ := List.forall_mem_cons.mp hwhole
      obtain ⟨rfl, rfl⟩ := List.cons.inj hback
      have hle := le_fractionLength back hd hplaces
      have htake : (whole ++ '.' :: d :: places ++ back).takeWhile Char.isDigit = whole := by
        rw [List.append_assoc]
        exact takeWhile_append hwhole (by rintro _ ⟨⟩; rfl)
      have hdrop : (whole ++ '.' :: d :: places ++ back).drop whole.length =
          '.' :: d :: (places ++ back) := by
        rw [List.append_assoc, List.drop_left]
        rfl
      show NoFurther .float (first :: whole ++ '.' :: d :: places)
        (munch first (whole ++ '.' :: d :: places ++ back))
      rw [munch_of_isDigit hfirst, htake, hdrop, if_neg (by omega)]
      refine .same ?_
      simp only [List.length_append, List.length_cons]
      omega

theorem noFurther_char (hw : w ∈ TokenKind.char x) (hbegins : w <+: c :: rest)
    (h : munch x rest = (kind, 0)) : NoFurther kind w (munch c rest) := by
  obtain rfl : w = [x] := hw
  obtain ⟨rfl, -⟩ := List.cons_prefix_cons.mp hbegins
  rw [h]
  exact .same (Nat.le_refl _)

/-- **No pattern matches a longer beginning of the text than what is munched**, and none but the
pattern of its kind matches all of it; a symbol is munched only where no other pattern matches. -/
theorem noFurther_munch (hw : w ∈ kind.pattern) (hbegins : w <+: c :: rest) :
    NoFurther kind w (munch c rest) := by
  have hclass {l : Language Char} {first test : Char → Bool} (hfirst : TokenKind.IsClass l first)
      {m : Language Char} (hm : TokenKind.IsClass m test) (hw : w ∈ l * m∗) :
      ∃ more, w = c :: more ∧ first c = true ∧ more <+: rest ∧ ∀ d ∈ more, test d = true := by
    obtain ⟨d, more, rfl, hd, hall⟩ := (hfirst.mem_mul_kstar hm).mp hw
    obtain ⟨rfl, hmore⟩ := List.cons_prefix_cons.mp hbegins
    exact ⟨more, rfl, hd, hmore, hall⟩
  cases kind with
  | whitespace =>
      obtain ⟨more, rfl, hc, hmore, hall⟩ :=
        hclass TokenKind.isClass_blank TokenKind.isClass_blank hw
      rw [munch_of_isSpacing hc]
      exact .same (Nat.succ_le_succ (length_le_takeWhile hmore hall))
  | name =>
      obtain ⟨more, rfl, hc, hmore, hall⟩ :=
        hclass TokenKind.isClass_letter TokenKind.isClass_nameRest hw
      rw [munch_of_isNameStart hc]
      exact .same (Nat.succ_le_succ (length_le_takeWhile hmore hall))
  | int =>
      obtain ⟨more, rfl, hc, hmore, hall⟩ :=
        hclass TokenKind.isClass_digit TokenKind.isClass_digit hw
      exact noFurther_digits hc hmore hall
  | float =>
      obtain ⟨whole, d, places, rfl, hwhole, hd, hplaces⟩ := TokenKind.mem_pattern_float.mp hw
      exact noFurther_decimal hwhole hd hplaces hbegins
  | dot =>
      obtain rfl : w = ['.'] := hw
      obtain ⟨rfl, -⟩ := List.cons_prefix_cons.mp hbegins
      rw [munch_of_other rfl rfl rfl]
      split
      · exact .same (Nat.le_refl _)
      · rcases fractionLength_cases ('.' :: rest) with hnone | ⟨_, _, _, _, _, _, hlength⟩
        · exact absurd hnone ‹_›
        · exact .shorter (by rw [hlength, List.length_singleton]; omega) (by decide)
  | symbol =>
      obtain ⟨_, rfl, -⟩ := hw
      exact ⟨Nat.le_add_left _ _, fun h => absurd rfl h⟩
  | _ => exact noFurther_char hw hbegins rfl

/-! ### Cutting a text into tokens -/

/-- Of all beginnings of the text that some pattern matches, this one is the longest, and it is of
the only kind that matches it.  It is a symbol only where nothing else matches. -/
structure IsLongestMatch (kind : TokenKind) (lexeme text : List Char) : Prop where
  begins : lexeme <+: text
  fits : lexeme ∈ kind.pattern
  longest : ∀ other : TokenKind, ∀ w ∈ other.pattern, w <+: text → w.length ≤ lexeme.length
  only : ∀ other : TokenKind, other ≠ .symbol → lexeme ∈ other.pattern → other = kind
  symbol : kind = .symbol → ∀ other : TokenKind, other ≠ .symbol → ∀ w ∈ other.pattern,
    ¬w <+: text

theorem isLongestMatch_munch (c : Char) (rest : List Char) :
    IsLongestMatch (munch c rest).1 (c :: rest.take (munch c rest).2) (c :: rest) := by
  obtain ⟨hfits, hle⟩ := munch_fits c rest
  have hbegins : c :: rest.take (munch c rest).2 <+: c :: rest :=
    List.cons_prefix_cons.mpr ⟨rfl, List.take_prefix _ _⟩
  have hlength : (c :: rest.take (munch c rest).2).length = (munch c rest).2 + 1 := by
    rw [List.length_cons, List.length_take, Nat.min_eq_left hle]
  refine ⟨hbegins, hfits, fun other w hw hwbegins => ?_, fun other hother hw => ?_,
    fun hsymbol other hother w hw hwbegins => ?_⟩
  · rw [hlength]
    exact (noFurther_munch hw hwbegins).length
  · exact ((noFurther_munch hw hbegins).kind hother).2 hlength
  · exact ((noFurther_munch hw hwbegins).kind hother).1 hsymbol

/-- Nothing but what is munched is the longest match. -/
theorem IsLongestMatch.munch_eq {more : List Char}
    (h : IsLongestMatch kind (c :: more) (c :: rest)) : munch c rest = (kind, more.length) := by
  obtain ⟨hfits, hle⟩ := munch_fits c rest
  have hmunch := isLongestMatch_munch c rest
  have hkept := hmunch.longest kind _ h.fits h.begins
  have hfound := h.longest _ _ hfits hmunch.begins
  rw [List.length_cons, List.length_cons, List.length_take, Nat.min_eq_left hle] at hkept hfound
  refine Prod.ext ?_ (by omega)
  by_cases hkind : kind = .symbol
  · by_contra hne
    exact h.symbol hkind _ (fun hsymbol => hne (hsymbol.trans hkind.symm)) _ hfits hmunch.begins
  · refine (((noFurther_munch h.fits h.begins).kind hkind).2 ?_).symm
    rw [List.length_cons]
    omega

/-- Wherever a text goes on there is a longest match, and only one. -/
theorem existsUnique_isLongestMatch {text : List Char} (h : text ≠ []) :
    ∃! found : TokenKind × List Char, IsLongestMatch found.1 found.2 text := by
  obtain ⟨c, rest, rfl⟩ := List.exists_cons_of_ne_nil h
  refine ⟨(_, _), isLongestMatch_munch c rest, ?_⟩
  rintro ⟨kind, lexeme⟩ (hmatch : IsLongestMatch kind lexeme (c :: rest))
  obtain ⟨d, more, rfl⟩ := List.exists_cons_of_ne_nil (ne_nil_of_mem_pattern hmatch.fits)
  obtain ⟨rfl, hmore⟩ := List.cons_prefix_cons.mp hmatch.begins
  rw [hmatch.munch_eq, ← List.prefix_iff_eq_take.mp hmore]

/-- What is the longest match of a text is the longest match of its beginning. -/
theorem IsLongestMatch.of_append {lexeme rest back : List Char}
    (h : IsLongestMatch kind lexeme (lexeme ++ rest ++ back)) :
    IsLongestMatch kind lexeme (lexeme ++ rest) where
  begins := List.prefix_append _ _
  fits := h.fits
  longest other w hw hbegins := h.longest other w hw (hbegins.trans (List.prefix_append _ _))
  only := h.only
  symbol hkind other hother w hw hbegins :=
    h.symbol hkind other hother w hw (hbegins.trans (List.prefix_append _ _))

/-- The text, which starts at the byte `offset`, is cut into these tokens from the left, each the
longest match of what is left of the text. -/
inductive Cuts : Nat → List Char → List Token → Prop
  | done (offset : Nat) : Cuts offset [] []
  | token {offset : Nat} {kind : TokenKind} {lexeme rest : List Char} {tokens : List Token}
      (h : IsLongestMatch kind lexeme (lexeme ++ rest))
      (more : Cuts (offset + (String.ofList lexeme).utf8ByteSize) rest tokens) :
      Cuts offset (lexeme ++ rest) (⟨kind, String.ofList lexeme,
        ⟨offset, offset + (String.ofList lexeme).utf8ByteSize⟩⟩ :: tokens)

/-- The text is cut to its end. -/
theorem cuts_scanFrom (offset : Nat) (text : List Char) :
    Cuts offset text (scanFrom offset text) := by
  cases text with
  | nil =>
      rw [scanFrom]
      exact .done offset
  | cons c rest =>
      have hmatch := isLongestMatch_munch c rest
      have hmore := cuts_scanFrom
        (offset + (String.ofList (c :: rest.take (munch c rest).2)).utf8ByteSize)
        (rest.drop (munch c rest).2)
      have hsplit : c :: rest.take (munch c rest).2 ++ rest.drop (munch c rest).2 = c :: rest := by
        rw [List.cons_append, List.take_append_drop]
      have hcuts := Cuts.token (hsplit.symm ▸ hmatch) hmore
      rw [hsplit] at hcuts
      rw [scanFrom]
      exact hcuts
termination_by text.length
decreasing_by simp only [List.length_drop, List.length_cons]; omega

/-- **The tokens are the only ones that a text is cut into.** -/
theorem cuts_iff {offset : Nat} {text : List Char} {tokens : List Token} :
    Cuts offset text tokens ↔ tokens = scanFrom offset text := by
  refine ⟨fun h => ?_, fun h => h ▸ cuts_scanFrom offset text⟩
  induction h with
  | done => rw [scanFrom]
  | @token offset kind lexeme rest tokens h more ih =>
      cases lexeme with
      | nil => exact absurd rfl (ne_nil_of_mem_pattern h.fits)
      | cons c lexeme =>
          have hmunch : munch c (lexeme ++ rest) = (kind, lexeme.length) := h.munch_eq
          rw [List.cons_append, scanFrom, hmunch]
          simp only [List.take_left, List.drop_left]
          rw [← ih]

/-- Where a row of tokens is divided, the text is divided. -/
theorem Cuts.of_append {offset : Nat} {text : List Char} {before after : List Token}
    (h : Cuts offset text (before ++ after)) :
    ∃ front back, text = front ++ back ∧ Cuts offset front before ∧
      Cuts (offset + (String.ofList front).utf8ByteSize) back after := by
  induction before generalizing offset text with
  | nil => exact ⟨[], text, rfl, .done offset, h⟩
  | cons first before ih =>
      cases h with
      | @token _ kind lexeme rest _ hmatch more =>
          obtain ⟨front, back, rfl, hbefore, hafter⟩ := ih more
          rw [← List.append_assoc] at hmatch
          refine ⟨lexeme ++ front, back, by rw [List.append_assoc],
            .token hmatch.of_append hbefore, ?_⟩
          rwa [String.ofList_append, String.utf8ByteSize_append, ← Nat.add_assoc]

/-! ### The tokens of a text -/

/-- Ranges that are not empty and follow one another without a gap, from `start` to `stop`. -/
def Consecutive (start : Nat) : (spans : List Span) → (stop : Nat) → Prop
  | [], stop => start = stop
  | span :: spans, stop =>
      span.start = start ∧ start < span.stop ∧ Consecutive span.stop spans stop

theorem Cuts.fits {offset : Nat} {text : List Char} {tokens : List Token}
    (h : Cuts offset text tokens) : ∀ token ∈ tokens, token.lexed.Fits := by
  induction h with
  | done => simp
  | token hmatch _ ih =>
      refine List.forall_mem_cons.mpr ⟨?_, ih⟩
      show (String.ofList _).toList ∈ _
      rw [String.toList_ofList]
      exact hmatch.fits

/-- Every token of a text has the pattern of its kind. -/
theorem fits_lexemes (text : String) : ∀ l ∈ lexemes text.toList, l.Fits := by
  intro l hl
  obtain ⟨token, htoken, rfl⟩ := List.mem_map.mp hl
  exact (cuts_scanFrom 0 text.toList).fits token (List.mem_of_mem_filter htoken)

theorem Cuts.join_eq {offset : Nat} {text : List Char} {tokens : List Token}
    (h : Cuts offset text tokens) : String.join (tokens.map Token.lexeme) = String.ofList text := by
  induction h with
  | done => rfl
  | token _ _ ih => rw [List.map_cons, String.join_cons, ih, String.ofList_append]

theorem Cuts.consecutive {offset : Nat} {text : List Char} {tokens : List Token}
    (h : Cuts offset text tokens) : Consecutive offset (tokens.map Token.span)
      (offset + (String.ofList text).utf8ByteSize) := by
  induction h with
  | done => rfl
  | @token offset kind lexeme rest tokens hmatch _ ih =>
      refine ⟨rfl, Nat.lt_add_of_pos_right (Nat.pos_of_ne_zero fun hzero => ?_), ?_⟩
      · rw [String.utf8ByteSize_eq_zero_iff] at hzero
        exact ne_nil_of_mem_pattern hmatch.fits (String.ofList_eq_empty_iff.mp hzero)
      · rwa [String.ofList_append, String.utf8ByteSize_append, ← Nat.add_assoc]

/-- **The tokens of a text are the text, cut into the longest pieces that the patterns match.**
Their lexemes make up the text, and their places follow one another without a gap from its first
byte to its last.  Each token is the longest beginning of what is left of the text that any pattern
matches, and a symbol only where no other pattern matches.  As long as anything is left, there is
one such piece, so that cutting never stops before the end. -/
theorem scan_isMaximalMunch (text : String) :
    String.join ((scan text).map Token.lexeme) = text ∧
    Consecutive 0 ((scan text).map Token.span) text.utf8ByteSize ∧
    (∀ before token after, scan text = before ++ token :: after →
      token.span.stop = token.span.start + token.lexeme.utf8ByteSize ∧
      IsLongestMatch token.kind token.lexeme.toList
        (String.join ((token :: after).map Token.lexeme)).toList) ∧
    ∀ rest : List Char, rest ≠ [] →
      ∃! found : TokenKind × List Char, IsLongestMatch found.1 found.2 rest := by
  have hcuts := cuts_scanFrom 0 text.toList
  refine ⟨?_, ?_, fun before token after hsplit => ?_, fun _ => existsUnique_isLongestMatch⟩
  · rw [scan, hcuts.join_eq, String.ofList_toList]
  · have hconsecutive := hcuts.consecutive
    rwa [Nat.zero_add, String.ofList_toList] at hconsecutive
  · rw [← scan, hsplit] at hcuts
    obtain ⟨front, back, -, -, hback⟩ := hcuts.of_append
    rw [hback.join_eq, String.toList_ofList]
    cases hback with
    | token hmatch _ =>
        rw [String.toList_ofList]
        exact ⟨rfl, hmatch⟩

/-- A point that no digit follows belongs to no number: in `1..2.3` the first point is a token, and
it is the longest match of what is left there, though what is left goes on with a number. -/
theorem scan_isMaximalMunch_points :
    ∃ first second after, scan "1..2.3" = [first] ++ second :: after ∧
      (second.kind, second.lexeme) = (.dot, ".") ∧
      IsLongestMatch second.kind second.lexeme.toList
        (String.join ((second :: after).map Token.lexeme)).toList ∧
      ['.', '.', '2'] ≠ [] ∧
      ∃! found : TokenKind × List Char, IsLongestMatch found.1 found.2 ['.', '.', '2'] := by
  obtain ⟨-, -, htokens, hnext⟩ := scan_isMaximalMunch "1..2.3"
  have hscan : scan "1..2.3" = [⟨.int, "1", ⟨0, 1⟩⟩] ++ ⟨.dot, ".", ⟨1, 2⟩⟩ ::
      [⟨.float, ".2", ⟨2, 4⟩⟩, ⟨.float, ".3", ⟨4, 6⟩⟩] := by cbv
  have hrest : ['.', '.', '2'] ≠ [] := by decide
  exact ⟨_, _, _, hscan, rfl, (htokens _ _ _ hscan).2, hrest, hnext _ hrest⟩

end Token

end AlgebraTutor
