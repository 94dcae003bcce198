/-
Decimal expansions are the least texts that are exact.

A number has an expansion that ends if no prime but 2 and 5 divides its denominator in lowest terms.
Such a denominator is `2 ^ a * 5 ^ b`, and the number is scaled by `10 ^ max a b`.  A smaller power
of ten would not do: if the scaled numerator could still be divided by ten, then whichever of 2 and
5 sets the exponent would divide the numerator and the denominator.  So the last place is not a
zero.

Reading goes the other way and is not confined to what is written: any digits with at most one
point among them are read, such as `007.50` or `.5`.  What they mean is said here by the weights of
the digits, without regard to how they are read.
-/
import AlgebraTutor.Proofs.Decimal

namespace AlgebraTutor

/-! ### What digits mean -/

/-- The number that a digit stands for. -/
def digitValue (c : Char) : ℕ := c.toNat - '0'.toNat

/-- The number that digits before and behind a point mean.  Those before it weigh the powers of
ten, counted from the point, and those behind it the powers of a tenth. -/
def positionalValue (whole places : List Char) : ℚ :=
  Nat.ofDigits 10 (whole.reverse.map digitValue) +
    Nat.ofDigits (1 / 10) (0 :: places.map digitValue)

/-- Digits, with a point in front of some of them or without, mean a number.  There has to be a
digit on one side of the point. -/
inductive Denotes : List Char → ℚ → Prop
  | whole {digits : List Char} (hne : digits ≠ []) (hdigits : ∀ c ∈ digits, c.isDigit = true) :
      Denotes digits (positionalValue digits [])
  | pointed {whole places : List Char} (hne : whole ++ places ≠ [])
      (hdigits : ∀ c ∈ whole ++ places, c.isDigit = true) :
      Denotes (whole ++ '.' :: places) (positionalValue whole places)

theorem digitsValue_concat (digits : List Char) (c : Char) :
    digitsValue (digits ++ [c]) = 10 * digitsValue digits + digitValue c := by
  rw [digitsValue, List.foldl_concat]
  rfl

theorem digitsValue_cons (c : Char) (digits : List Char) :
    digitsValue (c :: digits) = 10 ^ digits.length * digitValue c + digitsValue digits := by
  rw [digitsValue_eq, digitsValue_eq, Nat.ofDigitChars_cons, Nat.mul_zero, Nat.zero_add,
    Nat.ofDigitChars_eq_ofDigitChars_zero]
  rfl

theorem ofDigits_whole (whole : List Char) :
    Nat.ofDigits (10 : ℚ) (whole.reverse.map digitValue) = digitsValue whole := by
  induction whole using List.reverseRecOn with
  | nil => rfl
  | append_singleton whole c ih =>
      rw [List.reverse_concat, List.map_cons, Nat.ofDigits, ih, digitsValue_concat]
      push_cast
      ring

theorem ofDigits_places (places : List Char) :
    Nat.ofDigits (1 / 10 : ℚ) (0 :: places.map digitValue) =
      digitsValue places / 10 ^ places.length := by
  induction places with
  | nil => simp [digitsValue, Nat.ofDigits]
  | cons c places ih =>
      simp only [Nat.ofDigits, List.map_cons] at ih ⊢
      rw [Nat.cast_zero, zero_add] at ih ⊢
      rw [ih, digitsValue_cons, List.length_cons, pow_succ]
      push_cast
      field_simp

theorem positionalValue_eq (whole places : List Char) :
    positionalValue whole places =
      mkRat (digitsValue (whole ++ places)) (Nat.pow 10 places.length) := by
  have happend : digitsValue (whole ++ places) =
      10 ^ places.length * digitsValue whole + digitsValue places := by
    rw [digitsValue_eq, Nat.ofDigitChars_append, Nat.ofDigitChars_eq_ofDigitChars_zero,
      digitsValue_eq, digitsValue_eq]
  rw [positionalValue, ofDigits_whole, ofDigits_places, happend, Rat.mkRat_eq_div]
  show _ = _ / ((10 ^ places.length : ℕ) : ℚ)
  push_cast
  field_simp

/-! ### What is read -/

/-- The text is divided at the first point in it, if there is one. -/
inductive Divided : List Char → List Char → List Char → Prop
  | unpointed {whole : List Char} (hwhole : '.' ∉ whole) : Divided whole whole []
  | pointed {whole places : List Char} (hwhole : '.' ∉ whole) :
      Divided (whole ++ '.' :: places) whole places

theorem exists_divided (s : List Char) : ∃ whole places, Divided s whole places := by
  by_cases h : '.' ∈ s
  · obtain ⟨whole, places, rfl, hwhole⟩ := List.eq_append_cons_of_mem h
    exact ⟨whole, places, .pointed hwhole⟩
  · exact ⟨s, [], .unpointed h⟩

/-- A text is read if there are digits before and behind the point, and at least one. -/
theorem Divided.decimal? {s whole places : List Char} (h : Divided s whole places) :
    decimal? s = if whole ++ places ≠ [] ∧ ∀ c ∈ whole ++ places, c.isDigit = true then
      some (positionalValue whole places) else none := by
  have hne {digits : List Char} (hpoint : '.' ∉ digits) : ∀ c ∈ digits, (c != '.') = true :=
    fun c hc => bne_iff_ne.mpr fun heq => hpoint (heq ▸ hc)
  have hparts : s.takeWhile (· != '.') = whole ∧ (s.dropWhile (· != '.')).drop 1 = places := by
    cases h with
    | unpointed hs =>
        rw [List.takeWhile_eq_self_iff.mpr (hne hs), List.dropWhile_eq_nil_iff.mpr (hne hs)]
        exact ⟨rfl, rfl⟩
    | pointed hwhole =>
        rw [List.takeWhile_append_of_pos (hne hwhole), List.dropWhile_append_of_pos (hne hwhole)]
        simp
  rw [AlgebraTutor.decimal?, positionalValue_eq, hparts.1, hparts.2]
  by_cases hnil : whole ++ places = []
  · obtain ⟨rfl, rfl⟩ := List.append_eq_nil_iff.mp hnil
    rfl
  · have hempty : (whole.isEmpty && places.isEmpty) = false := by
      simpa [Bool.and_eq_false_iff] using hnil
    simp only [hempty, ne_eq, hnil, not_false_eq_true, true_and, List.forall_mem_append,
      Bool.and_eq_true, List.all_eq_true, Bool.false_eq_true, if_false]

theorem point_not_mem {digits : List Char} (h : ∀ c ∈ digits, c.isDigit = true) :
    '.' ∉ digits := fun hmem => Bool.false_ne_true (h '.' hmem)

/-- **What is read is what the digits mean.** -/
theorem decimal?_eq_some_iff {s : List Char} {q : ℚ} : decimal? s = some q ↔ Denotes s q := by
  constructor
  · intro h
    obtain ⟨whole, places, hdivided⟩ := exists_divided s
    rw [hdivided.decimal?] at h
    split at h
    · next hdigits =>
        cases h
        cases hdivided with
        | unpointed _ =>
            rw [List.append_nil] at hdigits
            exact .whole hdigits.1 hdigits.2
        | pointed _ => exact .pointed hdigits.1 hdigits.2
    · cases h
  · intro h
    cases h with
    | whole hne hdigits =>
        rw [(Divided.unpointed (point_not_mem hdigits)).decimal?, if_pos]
        rw [List.append_nil]
        exact ⟨hne, hdigits⟩
    | pointed hne hdigits =>
        have hwhole := (List.forall_mem_append.mp hdigits).1
        rw [(Divided.pointed (point_not_mem hwhole)).decimal?, if_pos ⟨hne, hdigits⟩]

/-- A text is read if it is made of digits and at most one point, and has a digit in it. -/
theorem exists_decimal?_iff {s : List Char} : (∃ q, decimal? s = some q) ↔
    (∀ c ∈ s, c.isDigit = true ∨ c = '.') ∧ s.count '.' ≤ 1 ∧ ∃ c ∈ s, c.isDigit = true := by
  obtain ⟨whole, places, hdivided⟩ := exists_divided s
  rw [hdivided.decimal?]
  simp only [Option.ite_none_right_eq_some, exists_and_left, Option.some.injEq, exists_eq',
    and_true]
  have hdigit {digits : List Char} (hpoint : '.' ∉ digits)
      (h : ∀ c ∈ digits, c.isDigit = true ∨ c = '.') : ∀ c ∈ digits, c.isDigit = true :=
    fun c hc => (h c hc).resolve_right fun heq => hpoint (heq ▸ hc)
  cases hdivided with
  | unpointed hs =>
      rw [List.append_nil, List.count_eq_zero.mpr hs]
      constructor
      · rintro ⟨hne, h⟩
        obtain ⟨c, hc⟩ := List.exists_mem_of_ne_nil s hne
        exact ⟨fun c hc => .inl (h c hc), Nat.zero_le 1, c, hc, h c hc⟩
      · rintro ⟨h, -, c, hc, -⟩
        exact ⟨List.ne_nil_of_mem hc, hdigit hs h⟩
  | pointed hwhole =>
      have hcount : (whole ++ '.' :: places).count '.' ≤ 1 ↔ '.' ∉ places := by
        rw [List.count_append, List.count_eq_zero.mpr hwhole, List.count_cons_self,
          ← List.count_eq_zero]
        omega
      have hmem {c : Char} : c ∈ whole ++ '.' :: places ↔ c = '.' ∨ c ∈ whole ++ places := by
        simp only [List.mem_append, List.mem_cons]
        exact or_left_comm
      rw [hcount]
      constructor
      · rintro ⟨hne, h⟩
        obtain ⟨c, hc⟩ := List.exists_mem_of_ne_nil _ hne
        exact ⟨fun c hc => (hmem.mp hc).symm.imp_left (h c),
          point_not_mem (List.forall_mem_append.mp h).2, c, hmem.mpr (.inr hc), h c hc⟩
      · rintro ⟨h, hplaces, c, hc, hcdigit⟩
        have hpoint : '.' ∉ whole ++ places := by simp [hwhole, hplaces]
        refine ⟨?_, hdigit hpoint fun c hc => h c (hmem.mpr (.inr hc))⟩
        rcases hmem.mp hc with rfl | hc
        · cases hcdigit
        · exact List.ne_nil_of_mem hc

/-! ### What is written -/

theorem not_dvd_factorOut {p n : ℕ} (hp : 1 < p) (hn : 0 < n) : ¬p ∣ (factorOut p n).2 := by
  fun_induction factorOut p n with
  | case1 n h count rest heq ih =>
      rw [heq] at ih
      have hle : p ≤ n := Nat.le_of_dvd hn (Nat.dvd_of_mod_eq_zero h.2.2)
      exact ih (Nat.div_pos hle (Nat.zero_lt_of_lt hp))
  | case2 n h => exact fun hdvd => h ⟨hp, hn, Nat.mod_eq_zero_of_dvd hdvd⟩

/-- A number of places is found exactly if no prime but 2 and 5 divides the denominator. -/
theorem exists_decimalPlaces?_iff {denominator : ℕ} (hpos : 0 < denominator) :
    (∃ places, decimalPlaces? denominator = some places) ↔
      ∀ p, p.Prime → p ∣ denominator → p = 2 ∨ p = 5 := by
  constructor
  · rintro ⟨places, h⟩ p hp hdvd
    have hten : p ∣ 2 * 5 := hp.dvd_of_dvd_pow (hdvd.trans (dvd_of_decimalPlaces? h))
    exact (hp.dvd_mul.mp hten).imp (Nat.prime_dvd_prime_iff_eq hp Nat.prime_two).mp
      (Nat.prime_dvd_prime_iff_eq hp Nat.prime_five).mp
  · intro h
    have htwos := factorOut_eq 2 denominator
    have hfives := factorOut_eq 5 (factorOut 2 denominator).2
    have hodd := not_dvd_factorOut (p := 2) (by decide) hpos
    have hposOdd : 0 < (factorOut 2 denominator).2 :=
      Nat.pos_of_ne_zero fun hzero => hodd (hzero ▸ dvd_zero 2)
    have hrest := not_dvd_factorOut (p := 5) (by decide) hposOdd
    have hone : (factorOut 5 (factorOut 2 denominator).2).2 = 1 := by
      rw [Nat.eq_one_iff_not_exists_prime_dvd]
      intro p hp hdvd
      have hdvdOdd : p ∣ (factorOut 2 denominator).2 := hfives ▸ hdvd.mul_left _
      rcases h p hp (htwos ▸ hdvdOdd.mul_left _) with rfl | rfl
      · exact hodd hdvdOdd
      · exact hrest hdvd
    exact ⟨_, by rw [decimalPlaces?]; exact if_pos hone⟩

/-! ### Zeros -/

theorem getLast?_natText (n : ℕ) : (natText n).getLast? = some (n % 10).digitChar := by
  rw [natText, Nat.toDigits_eq_if (by decide)]
  split
  · next h => rw [Nat.mod_eq_of_lt h]; rfl
  · exact List.getLast?_concat ..

theorem digitChar_eq_zero {d : ℕ} (h : d < 10) (hzero : d.digitChar = '0') : d = 0 := by
  interval_cases d <;> simp_all [Nat.digitChar]

/-- No number but zero is written with a zero in front. -/
theorem natText_head? (n : ℕ) : n = 0 ∨ (natText n).head? ≠ some '0' := by
  induction n using Nat.strongRecOn with
  | ind n ih =>
      rw [natText, Nat.toDigits_eq_if (by decide)]
      split
      · next h =>
          refine or_iff_not_imp_right.mpr fun hhead => digitChar_eq_zero h ?_
          simpa using hhead
      · next h =>
          right
          rw [List.head?_append_of_ne_nil _ Nat.toDigits_ne_nil]
          exact (ih (n / 10) (by omega)).resolve_left (by omega)

/-- Digits with no zero in front of another one. -/
structure IsTidy (digits : List Char) : Prop where
  nonempty : digits ≠ []
  isDigit : ∀ c ∈ digits, c.isDigit = true
  head : digits = ['0'] ∨ digits.head? ≠ some '0'

theorem isTidy_natText (n : ℕ) : IsTidy (natText n) where
  nonempty := natText_ne_nil n
  isDigit _ := isDigit_of_mem_natText
  head := (natText_head? n).imp_left fun h => by rw [h]; rfl

/-- Places behind a point that do not end with a zero. -/
structure ArePlaces (digits : List Char) : Prop where
  nonempty : digits ≠ []
  isDigit : ∀ c ∈ digits, c.isDigit = true
  last : digits.getLast? ≠ some '0'

/-- An expansion of the number with no more zeros than are needed, and with a point only if the
number is not an integer. -/
inductive IsExpansion (q : ℚ) : List Char → Prop
  | whole {digits : List Char} (hq : q.den = 1) (hdigits : IsTidy digits) : IsExpansion q digits
  | pointed {whole places : List Char} (hq : q.den ≠ 1) (hwhole : IsTidy whole)
      (hplaces : ArePlaces places) : IsExpansion q (whole ++ '.' :: places)

theorem pointedText_eq (digits : List Char) (places : ℕ) : pointedText digits places =
    if digits.length ≤ places then
      ['0'] ++ '.' :: (List.replicate (places - digits.length) '0' ++ digits)
    else digits.take (digits.length - places) ++ '.' :: digits.drop (digits.length - places) := by
  unfold pointedText
  split
  · next h =>
      rw [Nat.succ_sub h, List.replicate_succ, List.cons_append]
      have hlength : ('0' :: (List.replicate (places - digits.length) '0' ++ digits)).length -
          places = 1 := by
        simp only [List.length_cons, List.length_append, List.length_replicate]
        omega
      simp only [hlength]
      rfl
  · next h => rw [Nat.sub_eq_zero_of_le (by omega), List.replicate_zero, List.nil_append]

/-- A point among the digits of a number that ten does not divide leaves no superfluous zero. -/
theorem exists_pointedText {n places : ℕ} (hplaces : 0 < places) (hn : ¬10 ∣ n) :
    ∃ before after, pointedText (natText n) places = before ++ '.' :: after ∧ IsTidy before ∧
      ArePlaces after := by
  have htidy := isTidy_natText n
  have hhead : (natText n).head? ≠ some '0' := (natText_head? n).resolve_left (by omega)
  have hlast : (natText n).getLast? ≠ some '0' := by
    rw [getLast?_natText]
    intro h
    have hzero := digitChar_eq_zero (Nat.mod_lt n (by decide)) (Option.some.inj h)
    exact hn (Nat.dvd_of_mod_eq_zero hzero)
  generalize natText n = digits at *
  rw [pointedText_eq]
  split
  · refine ⟨_, _, rfl, ⟨by simp, by simp, .inl rfl⟩, by simp [htidy.nonempty], ?_, ?_⟩
    · intro c hc
      rcases List.mem_append.mp hc with hc | hc
      · rw [List.eq_of_mem_replicate hc]
        rfl
      · exact htidy.isDigit c hc
    · rwa [List.getLast?_append_of_ne_nil _ htidy.nonempty]
  · next h =>
      refine ⟨_, _, rfl, ⟨?_, fun c hc => htidy.isDigit c (List.mem_of_mem_take hc), .inr ?_⟩, ?_,
        fun c hc => htidy.isDigit c (List.mem_of_mem_drop hc), ?_⟩
      · rw [ne_eq, List.take_eq_nil_iff]
        simp only [htidy.nonempty, or_false]
        omega
      · rwa [List.head?_take, if_neg (by omega)]
      · rw [ne_eq, List.drop_eq_nil_iff]
        omega
      · rwa [List.getLast?_drop, if_neg (by omega)]

/-- What is scaled by the power of a product, and is divisible by the product and by as high a power
of its first factor, was divisible by this factor before. -/
theorem dvd_of_scaled {p r m k l t : ℕ} (hp : 0 < p) (hcoprime : p.Coprime r)
    (h : m * (p ^ k * r ^ k) = p ^ k * r ^ l * (p * r * t)) : p ∣ m := by
  rw [Nat.mul_left_comm, Nat.mul_assoc] at h
  have heq : m * r ^ k = r ^ l * (p * r * t) := Nat.eq_of_mul_eq_mul_left (Nat.pow_pos hp) h
  have hdvd : p ∣ m * r ^ k := ⟨r ^ l * (r * t), by rw [heq]; ring⟩
  exact (hcoprime.pow_right k).dvd_of_dvd_mul_right hdvd

/-- No smaller power of ten would have done: ten does not divide the scaled numerator. -/
theorem not_ten_dvd_scaled {q : ℚ} {places : ℕ} (hden : q.den ≠ 1)
    (hplaces : decimalPlaces? q.den = some places) :
    ¬10 ∣ q.num.natAbs * Nat.pow 10 places / q.den := by
  obtain ⟨twos, fives, hfactors, rfl⟩ := eq_of_decimalPlaces? hplaces
  rintro ⟨tenth, htenth⟩
  have hscaled : q.num.natAbs * 10 ^ max twos fives = q.den * (10 * tenth) := by
    rw [← htenth]
    exact (Nat.mul_div_cancel' ((dvd_of_decimalPlaces? hplaces).mul_left _)).symm
  have hreduced {p : ℕ} (hp : p.Prime) (hpden : p ∣ q.den) (hpnum : p ∣ q.num.natAbs) : False :=
    hp.one_lt.ne' (Nat.eq_one_of_dvd_coprimes q.reduced hpnum hpden)
  rw [hfactors, show 10 = 2 * 5 from rfl, Nat.mul_pow] at hscaled
  rcases Nat.le_total fives twos with hle | hle
  · have htwos : twos ≠ 0 := by
      rintro rfl
      rw [Nat.le_zero.mp hle] at hfactors
      exact hden hfactors
    rw [max_eq_left hle] at hscaled
    exact hreduced Nat.prime_two (hfactors ▸ (dvd_pow_self 2 htwos).mul_right _)
      (dvd_of_scaled (by decide) (by decide) hscaled)
  · have hfives : fives ≠ 0 := by
      rintro rfl
      rw [Nat.le_zero.mp hle] at hfactors
      exact hden hfactors
    rw [max_eq_right hle, Nat.mul_comm (2 ^ fives), Nat.mul_comm (2 ^ twos), Nat.mul_comm 2 5]
      at hscaled
    exact hreduced Nat.prime_five (hfactors ▸ (dvd_pow_self 5 hfives).mul_left _)
      (dvd_of_scaled (by decide) (by decide) hscaled)

/-! ### Writing and reading -/

/-- What is written is an expansion, after a minus sign if the number is negative. -/
theorem exists_expansion {q : ℚ} {text : List Char} (h : decimalText? q = some text) :
    ∃ u, text = (if q < 0 then '-' :: u else u) ∧ IsExpansion q u := by
  unfold decimalText? at h
  split at h
  · next hden =>
      cases h
      have hq : ((q.num : ℤ) : ℚ) = q := (Rat.den_eq_one_iff q).mp hden
      have hwrites := (intText_writes q.num).text
      rw [hq] at hwrites
      exact ⟨_, hwrites, .whole hden (isTidy_natText _)⟩
  · next hden =>
      obtain ⟨places, hplaces, rfl⟩ := Option.map_eq_some_iff.mp h
      obtain ⟨before, after, htext, hbefore, hafter⟩ := exists_pointedText
        (decimalPlaces?_pos hplaces hden) (not_ten_dvd_scaled hden hplaces)
      refine ⟨_, ?_, .pointed hden hbefore hafter⟩
      rw [← htext]
      simp only [Rat.num_neg]

/-- **Decimals are exact both ways.**  A number has an expansion exactly if no prime but 2 and 5
divides its denominator in lowest terms.  The expansion has a minus sign if the number is negative,
and no superfluous zero or point, and without its sign it is read back as the magnitude of the
number.  Every text made of digits and at most one point, with a digit in it, is read, and as what
its digits mean; no other text is. -/
theorem decimals_areExact :
    (∀ q : ℚ, ((∃ text, decimalText? q = some text) ↔
        ∀ p, p.Prime → p ∣ q.den → p = 2 ∨ p = 5) ∧
      ∀ text, decimalText? q = some text → ∃ u, text = (if q < 0 then '-' :: u else u) ∧
        IsExpansion q u ∧ decimal? u = some |q|) ∧
    ∀ s : List Char, ((∃ q, decimal? s = some q) ↔
        (∀ c ∈ s, c.isDigit = true ∨ c = '.') ∧ s.count '.' ≤ 1 ∧ ∃ c ∈ s, c.isDigit = true) ∧
      ∀ q, decimal? s = some q ↔ Denotes s q := by
  refine ⟨fun q => ⟨?_, fun text h => ?_⟩, fun s => ⟨exists_decimal?_iff, fun q =>
    decimal?_eq_some_iff⟩⟩
  · rw [← exists_decimalPlaces?_iff q.den_pos, decimalText?]
    split
    · next hden =>
        rw [hden]
        exact iff_of_true ⟨_, rfl⟩ ⟨0, by cbv⟩
    · simp only [Option.map_eq_some_iff]
      constructor
      · rintro ⟨_, places, hplaces, -⟩
        exact ⟨places, hplaces⟩
      · rintro ⟨places, hplaces⟩
        exact ⟨_, places, hplaces, rfl⟩
  · obtain ⟨u, htext, hu⟩ := exists_expansion h
    obtain ⟨numeral, hwrites⟩ := decimalText?_writes h
    have hsame : numeral = u := by
      have hboth := hwrites.text.symm.trans htext
      split at hboth
      · exact List.tail_eq_of_cons_eq hboth
      · exact hboth
    exact ⟨u, htext, hu, hsame ▸ hwrites.reads⟩

/-- The expansion of `-1/20` has a zero in front of the point and another one behind it.  The text
`.50` is no expansion, but it is read. -/
theorem decimals_areExact_twentieth :
    (decimalText? (-1 / 20) = some "-0.05".toList ∧
      ∃ u, "-0.05".toList = (if (-1 / 20 : ℚ) < 0 then '-' :: u else u) ∧
        IsExpansion (-1 / 20) u ∧ decimal? u = some |(-1 / 20 : ℚ)|) ∧
    (∀ p, p.Prime → p ∣ (-1 / 20 : ℚ).den → p = 2 ∨ p = 5) ∧
    decimal? ".50".toList = some (1 / 2) ∧ Denotes ".50".toList (1 / 2) := by
  obtain ⟨hwritten, hread⟩ := decimals_areExact
  have htext : decimalText? (-1 / 20) = some "-0.05".toList := by cbv
  have hhalf : decimal? ".50".toList = some (1 / 2) := by cbv
  exact ⟨⟨htext, (hwritten _).2 _ htext⟩, (hwritten _).1.mp ⟨_, htext⟩, hhalf,
    ((hread _).2 _).mp hhalf⟩

end AlgebraTutor
