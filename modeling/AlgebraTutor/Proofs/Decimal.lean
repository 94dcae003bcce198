/-
Decimal numbers survive being written and read.

A number with a decimal expansion that ends is written with just as many places as it needs, after
its numerator has been scaled by a power of ten.  The denominator divides that power, because it is
made of twos and fives and the power has enough of both, so the scaling is exact and reading the
digits gives the number back.
-/
import Mathlib
import AlgebraTutor.Number.Decimal

namespace AlgebraTutor

/-! ### Digits -/

theorem digitsValue_eq (digits : List Char) :
    digitsValue digits = Nat.ofDigitChars 10 digits 0 := rfl

theorem digitsValue_natText (n : Nat) : digitsValue (natText n) = n := by
  rw [digitsValue_eq, natText, Nat.ofDigitChars_ten_toDigits]

theorem isDigit_of_mem_natText {n : Nat} {c : Char} (h : c ∈ natText n) : c.isDigit = true :=
  Nat.isDigit_of_mem_toDigits (by decide) (by decide) h

theorem natText_ne_nil (n : Nat) : natText n ≠ [] := Nat.toDigits_ne_nil

theorem digitsValue_replicate_zero (k : Nat) (digits : List Char) :
    digitsValue (List.replicate k '0' ++ digits) = digitsValue digits := by
  rw [digitsValue_eq, digitsValue_eq, Nat.ofDigitChars_append, Nat.ofDigitChars_replicate_zero,
    Nat.mul_zero]

/-- Digits with at most one point among them, which has digits on both sides. -/
inductive IsNumeral : List Char → Prop
  | whole {digits : List Char} (hne : digits ≠ []) (hdigits : ∀ c ∈ digits, c.isDigit = true) :
      IsNumeral digits
  | pointed {whole places : List Char} (hwhole : whole ≠ []) (hplaces : places ≠ [])
      (hwholeDigits : ∀ c ∈ whole, c.isDigit = true)
      (hplacesDigits : ∀ c ∈ places, c.isDigit = true) : IsNumeral (whole ++ '.' :: places)

theorem takeWhile_ne_point {digits : List Char} (h : ∀ c ∈ digits, c.isDigit = true)
    (rest : List Char) :
    (digits ++ '.' :: rest).takeWhile (· != '.') = digits ∧
      (digits ++ '.' :: rest).dropWhile (· != '.') = '.' :: rest := by
  have hne : ∀ c ∈ digits, (c != '.') = true := by
    rintro c hc
    have := h c hc
    simp only [bne_iff_ne, ne_eq]
    rintro rfl
    cases this
  constructor
  · rw [List.takeWhile_append_of_pos hne]
    simp
  · rw [List.dropWhile_append_of_pos hne]
    simp

/-- Digits before and after a point are read as a decimal fraction. -/
theorem decimal?_pointed {whole places : List Char} (hwhole : whole ≠ [])
    (hwholeDigits : ∀ c ∈ whole, c.isDigit = true)
    (hplacesDigits : ∀ c ∈ places, c.isDigit = true) :
    decimal? (whole ++ '.' :: places) =
      some (mkRat (digitsValue (whole ++ places)) (10 ^ places.length)) := by
  obtain ⟨htake, hdrop⟩ := takeWhile_ne_point hwholeDigits places
  unfold decimal?
  rw [htake, hdrop]
  simp [hwhole, List.all_eq_true.mpr hwholeDigits, List.all_eq_true.mpr hplacesDigits]

theorem decimal?_digits {digits : List Char} (hne : digits ≠ [])
    (hdigits : ∀ c ∈ digits, c.isDigit = true) :
    decimal? digits = some (digitsValue digits : Rat) := by
  have hpoint : ∀ c ∈ digits, (c != '.') = true := by
    rintro c hc
    have := hdigits c hc
    simp only [bne_iff_ne, ne_eq]
    rintro rfl
    cases this
  have htake : digits.takeWhile (· != '.') = digits := List.takeWhile_eq_self_iff.mpr hpoint
  have hdrop : digits.dropWhile (· != '.') = [] := List.dropWhile_eq_nil_iff.mpr hpoint
  unfold decimal?
  rw [htake, hdrop]
  simp [hne, List.all_eq_true.mpr hdigits, Rat.mkRat_one]

theorem decimal?_natText (n : Nat) : decimal? (natText n) = some (n : Rat) := by
  rw [decimal?_digits (natText_ne_nil n) fun c => isDigit_of_mem_natText, digitsValue_natText]

/-! ### The number of places -/

theorem factorOut_eq (p n : Nat) : p ^ (factorOut p n).1 * (factorOut p n).2 = n := by
  fun_induction factorOut p n with
  | case1 n h count rest heq ih =>
      rw [heq] at ih
      show p ^ (count + 1) * rest = n
      have hdvd : p ∣ n := Nat.dvd_of_mod_eq_zero h.2.2
      rw [Nat.pow_succ, Nat.mul_comm _ p, Nat.mul_assoc, ih, Nat.mul_div_cancel' hdvd]
  | case2 n h => simp

/-- The denominators of numbers whose expansion ends, and the places they need. -/
theorem eq_of_decimalPlaces? {denominator places : Nat}
    (h : decimalPlaces? denominator = some places) :
    ∃ twos fives, denominator = 2 ^ twos * 5 ^ fives ∧ places = max twos fives := by
  unfold decimalPlaces? at h
  have htwos := factorOut_eq 2 denominator
  have hfives := factorOut_eq 5 (factorOut 2 denominator).2
  simp only at h
  split at h
  · next hrest =>
      cases h
      rw [hrest, Nat.mul_one] at hfives
      exact ⟨_, _, by rw [hfives, htwos], rfl⟩
  · cases h

/-- With that many places there is a power of ten that the denominator divides. -/
theorem dvd_of_decimalPlaces? {denominator places : Nat}
    (h : decimalPlaces? denominator = some places) : denominator ∣ 10 ^ places := by
  obtain ⟨twos, fives, rfl, rfl⟩ := eq_of_decimalPlaces? h
  rw [show 10 = 2 * 5 from rfl, Nat.mul_pow]
  exact Nat.mul_dvd_mul (Nat.pow_dvd_pow 2 (Nat.le_max_left ..))
    (Nat.pow_dvd_pow 5 (Nat.le_max_right ..))

theorem decimalPlaces?_pos {denominator places : Nat}
    (h : decimalPlaces? denominator = some places) (hne : denominator ≠ 1) : 0 < places := by
  rcases Nat.eq_zero_or_pos places with rfl | hpos
  · exact absurd (Nat.dvd_one.mp (dvd_of_decimalPlaces? h)) hne
  · exact hpos

/-! ### Writing and reading -/

/-- The digits with a point among them make a numeral with the value of the digits, scaled. -/
theorem pointedText_numeral {digits : List Char} {places : Nat} (hplaces : 0 < places)
    (hdigits : ∀ c ∈ digits, c.isDigit = true) :
    IsNumeral (pointedText digits places) ∧
      decimal? (pointedText digits places) = some (mkRat (digitsValue digits) (10 ^ places)) := by
  unfold pointedText
  generalize hpadded : List.replicate (places + 1 - digits.length) '0' ++ digits = padded
  have hlength : places < padded.length := by
    rw [← hpadded, List.length_append, List.length_replicate]
    omega
  have hall : ∀ c ∈ padded, c.isDigit = true := by
    rw [← hpadded]
    intro c hc
    rcases List.mem_append.mp hc with hc | hc
    · rw [List.eq_of_mem_replicate hc]
      rfl
    · exact hdigits c hc
  have hwhole : padded.take (padded.length - places) ≠ [] := by
    rw [ne_eq, List.take_eq_nil_iff]
    rintro (h | h)
    · omega
    · rw [h] at hlength
      cases hlength
  have hafter : (padded.drop (padded.length - places)).length = places := by
    rw [List.length_drop]
    omega
  have htake : ∀ c ∈ padded.take (padded.length - places), c.isDigit = true :=
    fun c hc => hall c (List.mem_of_mem_take hc)
  have hdrop : ∀ c ∈ padded.drop (padded.length - places), c.isDigit = true :=
    fun c hc => hall c (List.mem_of_mem_drop hc)
  refine ⟨.pointed hwhole ?_ htake hdrop, ?_⟩
  · intro h
    rw [h] at hafter
    exact absurd hafter hplaces.ne
  · rw [decimal?_pointed hwhole htake hdrop, List.take_append_drop, hafter, ← hpadded,
      digitsValue_replicate_zero]

/-- A text for a number: a numeral for its magnitude, after a minus sign if it is negative. -/
structure Writes (text : List Char) (q : Rat) (numeral : List Char) : Prop where
  text : text = if q < 0 then '-' :: numeral else numeral
  isNumeral : IsNumeral numeral
  reads : decimal? numeral = some |q|

theorem intText_writes (k : Int) : Writes (intText k) k (natText k.natAbs) where
  text := by
    cases k with
    | ofNat n =>
        have : ¬((n : Int) : Rat) < 0 := by push_cast; exact not_lt.mpr (Nat.cast_nonneg n)
        exact (if_neg this).symm
    | negSucc n =>
        have : ((Int.negSucc n : Int) : Rat) < 0 := by exact_mod_cast Int.negSucc_lt_zero n
        exact (if_pos this).symm
  isNumeral := .whole (natText_ne_nil _) fun c => isDigit_of_mem_natText
  reads := by
    rw [decimal?_natText, Nat.cast_natAbs]
    push_cast
    rfl

/-- **A number that is written in decimal is read back.** -/
theorem decimalText?_writes {q : Rat} {text : List Char} (h : decimalText? q = some text) :
    ∃ numeral, Writes text q numeral := by
  unfold decimalText? at h
  split at h
  · next hden =>
      cases h
      have hq : ((q.num : Int) : Rat) = q := (Rat.den_eq_one_iff q).mp hden
      have hwrites := intText_writes q.num
      rw [hq] at hwrites
      exact ⟨_, hwrites⟩
  · next hden =>
      obtain ⟨places, hplaces, rfl⟩ := Option.map_eq_some_iff.mp h
      have hdigits : ∀ c ∈ natText (q.num.natAbs * Nat.pow 10 places / q.den),
          c.isDigit = true := fun c => isDigit_of_mem_natText
      obtain ⟨hnumeral, hreads⟩ :=
        pointedText_numeral (decimalPlaces?_pos hplaces hden) hdigits
      refine ⟨_, ?_, hnumeral, ?_⟩
      · by_cases hneg : q < 0
        · rw [if_pos hneg]
          exact if_pos (Rat.num_neg.mpr hneg)
        · rw [if_neg hneg]
          exact if_neg (fun hnum => hneg (Rat.num_neg.mp hnum))
      · rw [hreads, digitsValue_natText]
        obtain ⟨factor, hfactor⟩ := dvd_of_decimalPlaces? hplaces
        have hpow : (10 : Rat) ^ places = q.den * factor := by exact_mod_cast hfactor
        have hden0 : (q.den : Rat) ≠ 0 := by exact_mod_cast q.den_nz
        have hfactor0 : (factor : Rat) ≠ 0 := by
          intro h0
          rw [h0, mul_zero] at hpow
          exact absurd hpow (pow_ne_zero _ (by norm_num))
        have hdiv : q.num.natAbs * Nat.pow 10 places / q.den = q.num.natAbs * factor := by
          show q.num.natAbs * 10 ^ places / q.den = _
          rw [hfactor, Nat.mul_left_comm, Nat.mul_div_cancel_left _ q.den_pos]
        rw [hdiv, Rat.mkRat_eq_div]
        push_cast
        rw [hpow, mul_div_mul_right _ _ hfactor0]
        conv_rhs => rw [← Rat.num_div_den q, abs_div, Nat.abs_cast]

end AlgebraTutor
