/-
The tokens of a text, piece by piece.

A text is cut into tokens from the left, each as long as it can be.  So a text that begins with a
whole token has that token and the tokens of the rest, provided that the rest does not begin with a
character that would have made the token longer.  Blanks separate tokens and are left out.
-/
import AlgebraTutor.Proofs.Decimal
import AlgebraTutor.Proofs.Readers

namespace AlgebraTutor

namespace Token

/-- Tokens without blanks and places. -/
def bare (tokens : List Token) : List Lexeme :=
  (tokens.filter fun token => !token.isBlank).map Token.lexed

theorem bare_cons (token : Token) (tokens : List Token) :
    bare (token :: tokens) =
      if token.kind = .whitespace then bare tokens else token.lexed :: bare tokens := by
  unfold bare
  rw [List.filter_cons]
  by_cases h : token.kind = .whitespace
  · rw [if_pos h, if_neg (by simp [isBlank, h])]
  · rw [if_neg h, if_pos (by simpa [isBlank] using h), List.map_cons]

/-- The tokens of a text, without blanks and places. -/
def lexemes (text : List Char) : List Lexeme := bare (scanFrom 0 text)

/-- It does not matter where the text starts. -/
theorem bare_scanFrom (offset : Nat) (text : List Char) :
    bare (scanFrom offset text) = lexemes text := by
  suffices h : ∀ (n : Nat) (text : List Char), text.length ≤ n → ∀ offset offset',
      bare (scanFrom offset text) = bare (scanFrom offset' text) from
    h text.length text (Nat.le_refl _) offset 0
  intro n
  induction n with
  | zero =>
      intro text hn offset offset'
      obtain rfl : text = [] := List.eq_nil_of_length_eq_zero (Nat.le_zero.mp hn)
      rw [scanFrom, scanFrom]
  | succ n ih =>
      intro text hn offset offset'
      cases text with
      | nil => rw [scanFrom, scanFrom]
      | cons c rest =>
          have hlength : (rest.drop (munch c rest).2).length ≤ n := by
            rw [List.length_drop]
            rw [List.length_cons] at hn
            omega
          rw [scanFrom, scanFrom, bare_cons, bare_cons, ih _ hlength _ offset]
          rw [ih _ hlength (offset' + _) offset]
          rfl

@[simp] theorem lexemes_nil : lexemes [] = [] := by
  rw [lexemes, scanFrom]
  rfl

theorem lexemes_cons (c : Char) (rest : List Char) :
    lexemes (c :: rest) =
      if (munch c rest).1 = .whitespace then lexemes (rest.drop (munch c rest).2)
      else ⟨(munch c rest).1, String.ofList (c :: rest.take (munch c rest).2)⟩ ::
        lexemes (rest.drop (munch c rest).2) := by
  rw [lexemes, scanFrom, bare_cons, bare_scanFrom]
  rfl

/-- A text whose first token ends before `rest`. -/
theorem lexemes_append {c : Char} {more rest : List Char} {kind : TokenKind}
    (hmunch : munch c (more ++ rest) = (kind, more.length)) (hkind : kind ≠ .whitespace) :
    lexemes (c :: more ++ rest) = ⟨kind, String.ofList (c :: more)⟩ :: lexemes rest := by
  rw [List.cons_append, lexemes_cons, hmunch, if_neg hkind, List.take_left, List.drop_left]

/-- The cursor before a text has the tokens of the text ahead. -/
theorem lexemes_ofText (text : String) : (Cursor.ofText text).lexemes = lexemes text.toList := rfl

/-! ### Kinds of characters -/

/-- A blank begins neither a name nor a number. -/
theorem not_isNameStart_of_isSpacing {c : Char} (h : isSpacing c = true) :
    isNameStart c = false ∧ c.isDigit = false := by
  simp only [isSpacing, Bool.or_eq_true, beq_iff_eq] at h
  rcases h with ((rfl | rfl) | rfl) | rfl <;> exact ⟨rfl, rfl⟩

theorem isSpacing_of_isNameStart {c : Char} (h : isNameStart c = true) : isSpacing c = false := by
  by_contra hspacing
  rw [(not_isNameStart_of_isSpacing (by simpa using hspacing)).1] at h
  cases h

theorem not_isNameStart_of_isDigit {c : Char} (h : c.isDigit = true) :
    isSpacing c = false ∧ isNameStart c = false := by
  constructor
  · by_contra hspacing
    rw [(not_isNameStart_of_isSpacing (by simpa using hspacing)).2] at h
    cases h
  · by_contra hname
    simp only [Char.isDigit, Bool.and_eq_true, decide_eq_true_eq, ge_iff_le,
      UInt32.le_iff_toNat_le] at h
    simp only [isNameStart, Char.isAlpha, Char.isUpper, Char.isLower, ge_iff_le,
      UInt32.le_iff_toNat_le, Bool.not_eq_false, Bool.or_eq_true, Bool.and_eq_true,
      decide_eq_true_eq, beq_iff_eq] at hname
    have hnine : '9'.val.toNat = 57 := rfl
    have hupper : 'A'.val.toNat = 65 := rfl
    have hlower : 'a'.val.toNat = 97 := rfl
    rcases hname with (hname | hname) | rfl
    · omega
    · omega
    · exact absurd h.2 (by decide)

theorem isDigit_of_isNameStart {c : Char} (h : isNameStart c = true) : c.isDigit = false := by
  by_contra hdigit
  rw [(not_isNameStart_of_isDigit (by simpa using hdigit)).2] at h
  cases h

/-! ### What is munched

The equations of `munch` for the kinds of first character. -/

section Munch

variable {c : Char} {rest : List Char}

theorem munch_of_isSpacing (h : isSpacing c = true) :
    munch c rest = (.whitespace, (rest.takeWhile isSpacing).length) := by
  rw [munch, if_pos h]

theorem munch_of_isNameStart (h : isNameStart c = true) :
    munch c rest = (.name, (rest.takeWhile isNameRest).length) := by
  rw [munch, if_neg (by simp [isSpacing_of_isNameStart h]), if_pos h]

/-- Digits go on behind a point if there are more of them. -/
theorem munch_of_isDigit (h : c.isDigit = true) : munch c rest =
    if fractionLength (rest.drop (rest.takeWhile Char.isDigit).length) = 0 then
      (.int, (rest.takeWhile Char.isDigit).length)
    else (.float, (rest.takeWhile Char.isDigit).length +
      fractionLength (rest.drop (rest.takeWhile Char.isDigit).length)) := by
  obtain ⟨hspacing, hname⟩ := not_isNameStart_of_isDigit h
  rw [munch, if_neg (by simp [hspacing]), if_neg (by simp [hname]), if_pos h]

theorem munch_of_other (hspacing : isSpacing c = false) (hname : isNameStart c = false)
    (hdigit : c.isDigit = false) : munch c rest =
    if fractionLength (c :: rest) = 0 then (singleKind c, 0)
    else (.float, fractionLength (c :: rest) - 1) := by
  rw [munch, if_neg (by simp [hspacing]), if_neg (by simp [hname]), if_neg (by simp [hdigit])]

end Munch

/-! ### Blanks and single characters -/

theorem lexemes_spacing {c : Char} (h : isSpacing c = true) (rest : List Char) :
    lexemes (c :: rest) = lexemes rest := by
  have hdrop (c : Char) (h : isSpacing c = true) (rest : List Char) :
      lexemes (c :: rest) = lexemes (rest.dropWhile isSpacing) := by
    rw [lexemes_cons, munch_of_isSpacing h, if_pos rfl]
    have hrest : rest.drop (rest.takeWhile isSpacing).length = rest.dropWhile isSpacing := by
      conv_lhs => arg 2; rw [← List.takeWhile_append_dropWhile (p := isSpacing) (l := rest)]
      exact List.drop_left
    exact congrArg lexemes hrest
  rw [hdrop c h]
  cases rest with
  | nil => rfl
  | cons d rest =>
      by_cases hd : isSpacing d = true
      · rw [List.dropWhile_cons_of_pos hd, hdrop d hd]
      · rw [List.dropWhile_cons_of_neg hd]

@[simp] theorem lexemes_space (rest : List Char) : lexemes (' ' :: rest) = lexemes rest :=
  lexemes_spacing rfl rest

/-- A character that is a token of its own. -/
theorem lexemes_single {c : Char} (hspacing : isSpacing c = false)
    (hname : isNameStart c = false) (hdigit : c.isDigit = false) {rest : List Char}
    (hfraction : fractionLength (c :: rest) = 0) (hkind : singleKind c ≠ .whitespace) :
    lexemes (c :: rest) = ⟨singleKind c, String.ofList [c]⟩ :: lexemes rest := by
  have hmunch : munch c ([] ++ rest) = (singleKind c, 0) := by
    rw [List.nil_append, munch_of_other hspacing hname hdigit, if_pos hfraction]
  exact lexemes_append hmunch hkind

@[simp] theorem lexemes_plus (rest : List Char) :
    lexemes ('+' :: rest) = ⟨.add, "+"⟩ :: lexemes rest :=
  lexemes_single rfl rfl rfl rfl (by decide)

@[simp] theorem lexemes_minus (rest : List Char) :
    lexemes ('-' :: rest) = ⟨.sub, "-"⟩ :: lexemes rest :=
  lexemes_single rfl rfl rfl rfl (by decide)

@[simp] theorem lexemes_times (rest : List Char) :
    lexemes ('*' :: rest) = ⟨.mul, "*"⟩ :: lexemes rest :=
  lexemes_single rfl rfl rfl rfl (by decide)

@[simp] theorem lexemes_slash (rest : List Char) :
    lexemes ('/' :: rest) = ⟨.div, "/"⟩ :: lexemes rest :=
  lexemes_single rfl rfl rfl rfl (by decide)

@[simp] theorem lexemes_caret (rest : List Char) :
    lexemes ('^' :: rest) = ⟨.exp, "^"⟩ :: lexemes rest :=
  lexemes_single rfl rfl rfl rfl (by decide)

@[simp] theorem lexemes_open (rest : List Char) :
    lexemes ('(' :: rest) = ⟨.openParen, "("⟩ :: lexemes rest :=
  lexemes_single rfl rfl rfl rfl (by decide)

@[simp] theorem lexemes_close (rest : List Char) :
    lexemes (')' :: rest) = ⟨.closeParen, ")"⟩ :: lexemes rest :=
  lexemes_single rfl rfl rfl rfl (by decide)

@[simp] theorem lexemes_comma (rest : List Char) :
    lexemes (',' :: rest) = ⟨.comma, ","⟩ :: lexemes rest :=
  lexemes_single rfl rfl rfl rfl (by decide)

/-! ### Names and numbers -/

/-- The text does not begin with a character that fails the test. -/
def Starts (test : Char → Bool) (rest : List Char) : Prop := ∀ c ∈ rest.head?, test c = true

theorem takeWhile_append {test : Char → Bool} {front rest : List Char}
    (hfront : ∀ c ∈ front, test c = true) (hrest : Starts (fun c => !test c) rest) :
    (front ++ rest).takeWhile test = front := by
  rw [List.takeWhile_append_of_pos hfront]
  cases rest with
  | nil => simp
  | cons c rest =>
      have hc : ¬test c = true := by simpa using hrest c rfl
      rw [List.takeWhile_cons_of_neg hc, List.append_nil]

/-- The characters of an identifier. -/
def isIdentifier : List Char → Bool
  | [] => false
  | c :: rest => isNameStart c && rest.all isNameRest

theorem lexemes_name {name rest : List Char} (hname : isIdentifier name = true)
    (hrest : Starts (fun c => !isNameRest c) rest) :
    lexemes (name ++ rest) = ⟨.name, String.ofList name⟩ :: lexemes rest := by
  cases name with
  | nil => cases hname
  | cons c more =>
      obtain ⟨hc, hmore⟩ := Bool.and_eq_true_iff.mp hname
      refine lexemes_append ?_ (by decide)
      rw [munch_of_isNameStart hc, takeWhile_append (List.all_eq_true.mp hmore) hrest]

/-- A point in front of a name. -/
theorem lexemes_point {rest : List Char} (h : Starts (fun c => !c.isDigit) rest) :
    lexemes ('.' :: rest) = ⟨.dot, "."⟩ :: lexemes rest := by
  have hfraction : fractionLength ('.' :: rest) = 0 := by
    rw [fractionLength]
    cases rest with
    | nil => rfl
    | cons c rest =>
        have hc : ¬c.isDigit = true := by simpa using h c rfl
        rw [List.takeWhile_cons_of_neg hc]
        rfl
  exact lexemes_single rfl rfl rfl hfraction (by decide)

/-- A numeral is a token, unless digits or a point come right after it. -/
theorem lexemes_numeral {numeral rest : List Char} (h : IsNumeral numeral)
    (hrest : Starts (fun c => !c.isDigit && c != '.') rest) :
    ∃ kind, (kind = .int ∨ kind = .float) ∧
      lexemes (numeral ++ rest) = ⟨kind, String.ofList numeral⟩ :: lexemes rest := by
  have hdigit : Starts (fun c => !c.isDigit) rest :=
    fun c hc => (Bool.and_eq_true_iff.mp (hrest c hc)).1
  cases h with
  | whole hne hdigits =>
      cases numeral with
      | nil => exact absurd rfl hne
      | cons c more =>
          obtain ⟨hc, hmore⟩ := List.forall_mem_cons.mp hdigits
          refine ⟨.int, .inl rfl, lexemes_append ?_ (by decide)⟩
          have hfraction : fractionLength rest = 0 := by
            unfold fractionLength
            split
            · have := hrest '.' rfl
              cases this
            · rfl
          rw [munch_of_isDigit hc, takeWhile_append hmore hdigit, List.drop_left,
            if_pos hfraction]
  | @pointed whole places hwhole hplaces hwholeDigits hplacesDigits =>
      cases whole with
      | nil => exact absurd rfl hwhole
      | cons c more =>
          obtain ⟨hc, hmore⟩ := List.forall_mem_cons.mp hwholeDigits
          refine ⟨.float, .inr rfl, lexemes_append ?_ (by decide)⟩
          have hfraction : fractionLength ('.' :: (places ++ rest)) = places.length + 1 := by
            rw [fractionLength, takeWhile_append hplacesDigits hdigit]
            exact if_neg fun h => hplaces (List.eq_nil_of_length_eq_zero h)
          have htake : (more ++ '.' :: (places ++ rest)).takeWhile Char.isDigit = more :=
            takeWhile_append hmore (by rintro _ ⟨⟩; rfl)
          show munch c (more ++ '.' :: places ++ rest) = (.float, (more ++ '.' :: places).length)
          rw [List.append_assoc, List.cons_append, munch_of_isDigit hc, htake, List.drop_left,
            hfraction]
          simp

end Token

end AlgebraTutor
