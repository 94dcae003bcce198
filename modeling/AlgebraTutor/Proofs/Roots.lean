/-
What is taken out of the root of a constant.

A root that is an integer is found, and from any other root is taken out all that can be: what
stays under it has no power of a prime with the root's index as a factor.  Whether a prime can be
taken out is decided by its exponent in the radicand.  So everything about the two products comes
down to which powers of a prime divide a product of powers of different primes
(`pow_dvd_productOf_iff`).

That the factors found by trial division are primes is nothing the loop checks.  A divisor is a
prime when it is taken out because every smaller one was taken out before, and so is what is left
at the end because its divisors are too large for two of them to fit in.
-/
import AlgebraTutor.Proofs.DecimalExpansions
import AlgebraTutor.Rule.Functions
import Mathlib.Algebra.Order.Ring.Int
import Mathlib.Data.Nat.Prime.Basic

namespace AlgebraTutor

/-! ### Exact roots -/

section ExactRoots

variable {n k : ℕ}

/-- The bits that are still to be chosen reach up to a number whose power is too large. -/
theorem rootBits_spec {bits root : ℕ} (hlow : root ^ k ≤ n) (hhigh : n < (root + 2 ^ bits) ^ k) :
    rootBits n k bits root ^ k ≤ n ∧ n < (rootBits n k bits root + 1) ^ k := by
  induction bits generalizing root with
  | zero => exact ⟨hlow, hhigh⟩
  | succ bits ih =>
      by_cases h : (root + 2 ^ bits) ^ k ≤ n
      · have hstep : rootBits n k (bits + 1) root = rootBits n k bits (root + 2 ^ bits) :=
          congrArg (rootBits n k bits) (if_pos h)
        have htwice : root + 2 ^ bits + 2 ^ bits = root + 2 ^ (bits + 1) := by
          rw [pow_succ]
          omega
        rw [hstep]
        exact ih h (htwice ▸ hhigh)
      · have hstep : rootBits n k (bits + 1) root = rootBits n k bits root :=
          congrArg (rootBits n k bits) (if_neg h)
        rw [hstep]
        exact ih hlow (not_le.mp h)

theorem floorRoot_spec (n : ℕ) (hk : 0 < k) :
    floorRoot n k ^ k ≤ n ∧ n < (floorRoot n k + 1) ^ k := by
  refine rootBits_spec ?_ ?_
  · rw [zero_pow hk.ne']
    exact Nat.zero_le n
  · have hbits : n.log2 + 1 ≤ (n.log2 / k + 1) * k := by
      rw [mul_comm]
      exact Nat.lt_mul_div_succ n.log2 hk
    rw [zero_add, ← pow_mul]
    exact Nat.lt_log2_self.trans_le (Nat.pow_le_pow_right (by omega) hbits)

theorem floorRoot_pow (r : ℕ) (hk : 0 < k) : floorRoot (r ^ k) k = r := by
  obtain ⟨hlow, hhigh⟩ := floorRoot_spec (r ^ k) hk
  have hle : floorRoot (r ^ k) k ≤ r := (Nat.pow_le_pow_iff_left hk.ne').mp hlow
  have hlt : r < floorRoot (r ^ k) k + 1 := (Nat.pow_lt_pow_iff_left hk.ne').mp hhigh
  omega

/-- What is found is a root.  Of the two even roots it is the positive one. -/
theorem pow_of_exactRoot? {n r : ℤ} (h : exactRoot? n k = some r) :
    r ^ k = n ∧ (Even k → 0 ≤ r) := by
  rw [exactRoot?] at h
  split at h
  · cases h
  · next hreal =>
    have hodd : n < 0 → Odd k := fun hn => Nat.odd_iff.mpr (by omega)
    dsimp only at h
    split at h
    · next hroot =>
      have hpow : ((floorRoot n.natAbs k : ℕ) : ℤ) ^ k = n.natAbs := by exact_mod_cast hroot
      obtain rfl := Option.some.inj h
      by_cases hn : n < 0
      · rw [if_pos hn]
        refine ⟨?_, fun heven => absurd (hodd hn) (Nat.not_odd_iff_even.mpr heven)⟩
        rw [(hodd hn).neg_pow, hpow]
        omega
      · rw [if_neg hn]
        refine ⟨?_, fun _ => Int.natCast_nonneg _⟩
        rw [hpow]
        omega
    · cases h

theorem exactRoot?_of_pow {n r : ℤ} (hk : 0 < k) (hpow : r ^ k = n) (hsign : Even k → 0 ≤ r) :
    exactRoot? n k = some r := by
  have habs : r.natAbs ^ k = n.natAbs := by rw [← hpow, Int.natAbs_pow]
  have hroot : floorRoot n.natAbs k = r.natAbs := by rw [← habs, floorRoot_pow _ hk]
  have hreal : ¬(k = 0 ∨ n < 0 ∧ k % 2 = 0) := by
    intro h
    have hnonneg := (Nat.even_iff.mpr (by omega : k % 2 = 0)).pow_nonneg r
    omega
  have hsame : 0 ≤ r ↔ 0 ≤ n := by
    constructor
    · intro hr
      exact hpow ▸ pow_nonneg hr k
    · intro hn
      rcases Nat.even_or_odd k with heven | hodd
      · exact hsign heven
      · exact hodd.pow_nonneg_iff.mp (hpow.symm ▸ hn)
  rw [exactRoot?, if_neg hreal]
  show (if floorRoot n.natAbs k ^ k = n.natAbs then
    some (if n < 0 then -(floorRoot n.natAbs k : ℤ) else floorRoot n.natAbs k) else none) = some r
  rw [hroot, if_pos habs]
  congr 1
  split
  · omega
  · omega

theorem exists_exactRoot?_iff {n : ℤ} (hk : 0 < k) :
    (∃ r, exactRoot? n k = some r) ↔ ∃ r : ℤ, r ^ k = n := by
  constructor
  · rintro ⟨r, hr⟩
    exact ⟨r, (pow_of_exactRoot? hr).1⟩
  · rintro ⟨r, hr⟩
    rcases Nat.even_or_odd k with heven | hodd
    · exact ⟨|r|, exactRoot?_of_pow hk (heven.pow_abs r ▸ hr) fun _ => abs_nonneg r⟩
    · exact ⟨r, exactRoot?_of_pow hk hr
        fun heven => absurd hodd (Nat.not_odd_iff_even.mpr heven)⟩

theorem exactRoot?_eq_none {n : ℤ} (hk : 0 < k) (hroot : ¬∃ r : ℤ, r ^ k = n) :
    exactRoot? n k = none :=
  Option.eq_none_iff_forall_ne_some.mpr fun r hr => hroot ((exists_exactRoot?_iff hk).mp ⟨r, hr⟩)

end ExactRoots

/-! ### Products of powers of primes -/

namespace Roots

theorem productOf_cons (p count : ℕ) (primes : List (ℕ × ℕ)) (share : ℕ → ℕ) :
    productOf ((p, count) :: primes) share = p ^ share count * productOf primes share := by
  have hprod (l : List (ℕ × ℕ)) :
      productOf l share = (l.map fun entry => entry.1 ^ share entry.2).prod := by
    rw [List.prod_eq_foldl, List.foldl_map]
    rfl
  rw [hprod, hprod, List.map_cons, List.prod_cons]

/-- What is taken out of the exponents and what stays of them are the exponents together. -/
theorem productOf_div_mod (primes : List (ℕ × ℕ)) (k : ℕ) :
    productOf primes (· / k) ^ k * productOf primes (· % k) = productOf primes id := by
  induction primes with
  | nil => exact (mul_one _).trans (one_pow k)
  | cons entry primes ih =>
      obtain ⟨p, count⟩ := entry
      have hcount : (p ^ (count / k)) ^ k * p ^ (count % k) = p ^ count := by
        rw [← pow_mul, ← pow_add, Nat.div_add_mod']
      rw [productOf_cons, productOf_cons, productOf_cons, mul_pow, mul_mul_mul_comm, ih, hcount]
      rfl

theorem coprime_productOf {q : ℕ} (hq : q.Prime) {primes : List (ℕ × ℕ)} {share : ℕ → ℕ}
    (hprime : ∀ entry ∈ primes, entry.1.Prime ∧ q ≠ entry.1) :
    q.Coprime (productOf primes share) := by
  induction primes with
  | nil => exact Nat.coprime_one_right q
  | cons entry primes ih =>
      obtain ⟨p, count⟩ := entry
      obtain ⟨hp, hne⟩ := hprime _ (List.mem_cons_self ..)
      rw [productOf_cons]
      exact (((Nat.coprime_primes hq hp).mpr hne).pow_right _).mul_right
        (ih fun entry hentry => hprime entry (List.mem_cons_of_mem _ hentry))

/-- A power of a prime divides the product of powers of different primes if and only if the prime is
one of them and has an exponent that is large enough. -/
theorem pow_dvd_productOf_iff {q k : ℕ} (hq : q.Prime) (hk : 0 < k) (share : ℕ → ℕ)
    {primes : List (ℕ × ℕ)} (hprime : ∀ entry ∈ primes, entry.1.Prime)
    (hascending : primes.Pairwise (·.1 < ·.1)) :
    q ^ k ∣ productOf primes share ↔ ∃ count, (q, count) ∈ primes ∧ k ≤ share count := by
  induction primes with
  | nil =>
      have hone : ¬q ^ k ∣ productOf [] share :=
        fun h => (Nat.one_lt_pow hk.ne' hq.one_lt).ne' (Nat.dvd_one.mp h)
      simp [hone]
  | cons entry primes ih =>
      obtain ⟨p, count⟩ := entry
      obtain ⟨hfirst, hrest⟩ := List.pairwise_cons.mp hascending
      have hothers : ∀ entry ∈ primes, entry.1.Prime :=
        fun entry hentry => hprime entry (List.mem_cons_of_mem _ hentry)
      have hp : p.Prime := hprime _ (List.mem_cons_self ..)
      rw [productOf_cons]
      by_cases hqp : q = p
      · subst hqp
        have hcoprime : (q ^ k).Coprime (productOf primes share) :=
          (coprime_productOf hq fun entry hentry =>
            ⟨hothers entry hentry, (hfirst entry hentry).ne⟩).pow_left k
        have honly (other : ℕ) : (q, other) ∉ primes := fun hmem => lt_irrefl q (hfirst _ hmem)
        rw [hcoprime.dvd_mul_right, Nat.pow_dvd_pow_iff_le_right hq.one_lt]
        simp [honly]
      · have hcoprime : (q ^ k).Coprime (p ^ share count) :=
          Nat.Coprime.pow k _ ((Nat.coprime_primes hq hp).mpr hqp)
        rw [hcoprime.dvd_mul_left, ih hothers hrest]
        simp [hqp]

end Roots

/-! ### Trial division -/

/-- The primes that divide a number, none of them less than `least`, with their exponents. -/
structure IsFactorization (least n : ℕ) (primes : List (ℕ × ℕ)) : Prop where
  isPrime : ∀ entry ∈ primes, entry.1.Prime
  isPositive : ∀ entry ∈ primes, 0 < entry.2
  isLeast : ∀ entry ∈ primes, least ≤ entry.1
  ascending : primes.Pairwise (·.1 < ·.1)
  product : Roots.productOf primes id = n

/-- The number has no divisor between 1 and `least`. -/
def HasNoneBelow (least n : ℕ) : Prop := ∀ d, 1 < d → d ∣ n → least ≤ d

namespace HasNoneBelow

variable {d n : ℕ}

theorem of_dvd {m : ℕ} (h : HasNoneBelow d n) (hdvd : m ∣ n) : HasNoneBelow d m :=
  fun e he hem => h e he (hem.trans hdvd)

theorem succ (h : HasNoneBelow d n) (hdvd : ¬d ∣ n) : HasNoneBelow (d + 1) n := by
  intro e he hen
  have hne : d ≠ e := fun heq => hdvd (heq ▸ hen)
  have hle := h e he hen
  omega

/-- When a divisor has been taken out, the next one is the least that can be left. -/
theorem split (h : HasNoneBelow d n) (hd : 1 < d) (hn : 0 < n) :
    0 < (factorOut d n).2 ∧ HasNoneBelow (d + 1) (factorOut d n).2 := by
  have hdvd : (factorOut d n).2 ∣ n := Dvd.intro_left _ (factorOut_eq d n)
  exact ⟨Nat.pos_of_dvd_of_pos hdvd hn, (h.of_dvd hdvd).succ (not_dvd_factorOut hd hn)⟩

/-- The least divisor above one is a prime. -/
theorem prime_of_dvd (h : HasNoneBelow d n) (hd : 1 < d) (hdvd : d ∣ n) : d.Prime := by
  have hmin : d ≤ d.minFac :=
    h _ (Nat.minFac_prime hd.ne').one_lt ((Nat.minFac_dvd d).trans hdvd)
  exact Nat.prime_def_minFac.mpr ⟨hd, le_antisymm (Nat.minFac_le (by omega)) hmin⟩

/-- A number that has no room for two of its divisors is a prime. -/
theorem prime_of_lt (h : HasNoneBelow d n) (hn : 1 < n) (hlt : n < d * d) : n.Prime := by
  by_contra hprime
  have hmin : d ≤ n.minFac := h _ (Nat.minFac_prime hn.ne').one_lt (Nat.minFac_dvd n)
  have hsquare : n.minFac ^ 2 ≤ n := Nat.minFac_sq_le_self (by omega) hprime
  have hle := Nat.mul_le_mul hmin hmin
  rw [pow_two] at hsquare
  omega

end HasNoneBelow

namespace IsFactorization

variable {least n : ℕ} {primes : List (ℕ × ℕ)}

theorem mono {least' : ℕ} (h : IsFactorization least n primes) (hle : least' ≤ least) :
    IsFactorization least' n primes :=
  { h with isLeast := fun entry hentry => hle.trans (h.isLeast entry hentry) }

theorem cons {p count : ℕ} (h : IsFactorization (p + 1) n primes) (hp : p.Prime)
    (hcount : 0 < count) : IsFactorization p (p ^ count * n) ((p, count) :: primes) where
  isPrime := List.forall_mem_cons.mpr ⟨hp, h.isPrime⟩
  isPositive := List.forall_mem_cons.mpr ⟨hcount, h.isPositive⟩
  isLeast := List.forall_mem_cons.mpr ⟨le_rfl, (h.mono (Nat.le_succ p)).isLeast⟩
  ascending := List.pairwise_cons.mpr ⟨h.isLeast, h.ascending⟩
  product := by rw [Roots.productOf_cons, h.product, id]

theorem one (least : ℕ) : IsFactorization least 1 [] where
  isPrime := List.forall_mem_nil _
  isPositive := List.forall_mem_nil _
  isLeast := List.forall_mem_nil _
  ascending := .nil
  product := rfl

end IsFactorization

theorem isFactorization_primePowersFrom {divisor n : ℕ} (hdivisor : 1 < divisor) (hn : 0 < n)
    (hnone : HasNoneBelow divisor n) : IsFactorization divisor n (primePowersFrom divisor n) := by
  fun_induction primePowersFrom divisor n with
  | case1 divisor n h split hcount ih =>
      obtain ⟨hpos, hnext⟩ := hnone.split h.1 hn
      have heq : split.2 = n := by
        rw [← factorOut_eq divisor n, hcount, pow_zero, one_mul]
      have hrest := (ih (Nat.lt_succ_of_lt hdivisor) hpos hnext).mono (Nat.le_succ divisor)
      rwa [heq] at hrest ⊢
  | case2 divisor n h split hcount ih =>
      obtain ⟨hpos, hnext⟩ := hnone.split h.1 hn
      have heq : divisor ^ split.1 * split.2 = n := factorOut_eq divisor n
      have hdvd : divisor ∣ n := heq ▸ (dvd_pow_self divisor hcount).mul_right split.2
      have hrest := (ih (Nat.lt_succ_of_lt hdivisor) hpos hnext).cons
        (hnone.prime_of_dvd hdivisor hdvd) (Nat.pos_of_ne_zero hcount)
      rwa [heq] at hrest
  | case3 divisor n h hlarge =>
      have hprime : n.Prime := hnone.prime_of_lt hlarge (by omega)
      have hsingle := (IsFactorization.one (n + 1)).cons hprime one_pos
      rw [pow_one, mul_one] at hsingle
      exact hsingle.mono (hnone n hlarge dvd_rfl)
  | case4 divisor n h hsmall =>
      obtain rfl : n = 1 := by omega
      exact .one divisor

/-- Trial division finds the primes that divide a positive number. -/
theorem isFactorization_primePowers {n : ℕ} (hn : 0 < n) :
    IsFactorization 2 n (primePowers n) :=
  isFactorization_primePowersFrom one_lt_two hn fun _ hd _ => hd

example : primePowers 360 = [(2, 3), (3, 2), (5, 1)] := by cbv

/-! ### What is taken out of a root -/

namespace Roots

variable {n : ℤ} {k : ℕ}

/-- A factor in front of the root, and what stays under it: nothing more can be taken out. -/
structure Extracts (n : ℤ) (k : ℕ) (factor rest : ℤ) : Prop where
  recombines : factor ^ k * rest = n
  isFactor : 2 ≤ |factor|
  isRest : 2 ≤ rest
  isComplete : ∀ p : ℕ, p.Prime → ¬(p : ℤ) ^ k ∣ rest

/-- The root is real, the radicand is not too large to be taken apart, and a prime can be taken
out. -/
structure IsReducible (n : ℤ) (k : ℕ) : Prop where
  isReal : 0 ≤ n ∨ Odd k
  isSmall : |n| ≤ 10 ^ 12
  hasPower : ∃ p : ℕ, p.Prime ∧ (p : ℤ) ^ k ∣ n

/-- What is taken out of the magnitude of a radicand. -/
def outside (n : ℤ) (k : ℕ) : ℕ := productOf (primePowers n.natAbs) (· / k)

/-- What stays of the magnitude of a radicand. -/
def inside (n : ℤ) (k : ℕ) : ℕ := productOf (primePowers n.natAbs) (· % k)

/-- The factor in front of the root has the sign of the radicand. -/
def signedOutside (n : ℤ) (k : ℕ) : ℤ := if n < 0 then -(outside n k : ℤ) else outside n k

theorem outside_pow_mul_inside (hn : n ≠ 0) (k : ℕ) : outside n k ^ k * inside n k = n.natAbs := by
  rw [outside, inside, productOf_div_mod]
  exact (isFactorization_primePowers (Int.natAbs_pos.mpr hn)).product

/-- Nothing is taken out if and only if no prime can be. -/
theorem outside_ne_one_iff (hn : n ≠ 0) (hk : 0 < k) :
    outside n k ≠ 1 ↔ ∃ p : ℕ, p.Prime ∧ (p : ℤ) ^ k ∣ n := by
  have hprimes := isFactorization_primePowers (Int.natAbs_pos.mpr hn)
  have hdvd {p : ℕ} (hp : p.Prime) :
      p ∣ outside n k ↔ (p : ℤ) ^ k ∣ n := by
    have hone := pow_dvd_productOf_iff hp one_pos (· / k) hprimes.isPrime hprimes.ascending
    have hall := pow_dvd_productOf_iff hp hk id hprimes.isPrime hprimes.ascending
    rw [pow_one] at hone
    rw [hprimes.product] at hall
    rw [outside, hone, ← Nat.cast_pow, Int.natCast_dvd, hall]
    simp only [Nat.one_le_div_iff hk, id]
  rw [Nat.ne_one_iff_exists_prime_dvd]
  exact exists_congr fun p => and_congr_right hdvd

theorem not_pow_dvd_inside (hn : n ≠ 0) (hk : 0 < k) {p : ℕ} (hp : p.Prime) :
    ¬(p : ℤ) ^ k ∣ inside n k := by
  have hprimes := isFactorization_primePowers (Int.natAbs_pos.mpr hn)
  rw [← Nat.cast_pow, Int.natCast_dvd_natCast, inside,
    pow_dvd_productOf_iff hp hk _ hprimes.isPrime hprimes.ascending]
  rintro ⟨count, -, hle⟩
  exact (Nat.mod_lt count hk).not_ge hle

theorem signedOutside_pow_mul_inside (hn : n ≠ 0) (hreal : 0 ≤ n ∨ Odd k) :
    signedOutside n k ^ k * inside n k = n := by
  have hpow : (outside n k : ℤ) ^ k * inside n k = n.natAbs := by
    exact_mod_cast outside_pow_mul_inside hn k
  rw [signedOutside]
  by_cases hneg : n < 0
  · have hodd : Odd k := hreal.resolve_left hneg.not_ge
    rw [if_pos hneg, hodd.neg_pow, neg_mul, hpow]
    omega
  · rw [if_neg hneg, hpow]
    omega

theorem ne_zero_of_no_root (hk : 0 < k) (hroot : ¬∃ r : ℤ, r ^ k = n) : n ≠ 0 :=
  fun hzero => hroot ⟨0, by rw [hzero, zero_pow hk.ne']⟩

theorem extracts (hk : 0 < k) (hroot : ¬∃ r : ℤ, r ^ k = n) (hreducible : IsReducible n k) :
    Extracts n k (signedOutside n k) (inside n k) := by
  have hn := ne_zero_of_no_root hk hroot
  have hpow := signedOutside_pow_mul_inside hn hreducible.isReal
  have hone := (outside_ne_one_iff hn hk).mpr hreducible.hasPower
  have habs : |signedOutside n k| = outside n k := by
    rw [signedOutside]
    split
    · rw [abs_neg, Nat.abs_cast]
    · rw [Nat.abs_cast]
  have houtside : outside n k ≠ 0 := by
    intro hzero
    have hmagnitude := outside_pow_mul_inside hn k
    rw [hzero, zero_pow hk.ne', zero_mul] at hmagnitude
    omega
  have hinside : inside n k ≠ 0 := by
    intro hzero
    rw [hzero, Nat.cast_zero, mul_zero] at hpow
    exact hn hpow.symm
  -- With one under the root, the factor in front would be the root itself.
  have hmore : inside n k ≠ 1 := by
    intro heq
    rw [heq, Nat.cast_one, mul_one] at hpow
    exact hroot ⟨_, hpow⟩
  refine ⟨hpow, ?_, ?_, fun p hp => not_pow_dvd_inside hn hk hp⟩
  · rw [habs]
    omega
  · omega

/-- A factor times a root. -/
def rootTimes (factor rest : ℤ) (k : ℕ) : Expr :=
  .product [.const (factor : ℚ), .call "nthRoot" [.const (rest : ℚ), .const (k : ℚ)]]

section Bound

variable {node : Expr} {b : Bindings} (hradicand : b.integer? "c1" = some n)
  (hindex : b.integer? "c2" = some (k : ℤ)) (hpos : 1 ≤ k) (hle : k ≤ 64)
include hradicand hindex hpos hle

theorem ofConstant_eq : ofConstant node b =
    match exactRoot? n k with
    | some root => some (.const (root : ℚ))
    | none =>
      if (n < 0 ∧ k % 2 = 0) ∨ 10 ^ 12 < n.natAbs ∨ n.natAbs < 2 then none
      else if outside n k = 1 then none
      else some (rootTimes (signedOutside n k) (inside n k) k) := by
  have hbound : index? "c2" b = some k := by
    rw [index?, hindex]
    show (if 1 ≤ (k : ℤ) ∧ (k : ℤ) ≤ maxIndex then some (k : ℤ).natAbs else none) = some k
    rw [if_pos ⟨by omega, by exact_mod_cast hle⟩, Int.natAbs_natCast]
  rw [ofConstant, hradicand, hbound]
  rfl

theorem ofConstant_of_root (hroot : ∃ r : ℤ, r ^ k = n) :
    ∃ r : ℤ, r ^ k = n ∧ (Even k → 0 ≤ r) ∧ ofConstant node b = some (.const (r : ℚ)) := by
  obtain ⟨r, hr⟩ := (exists_exactRoot?_iff hpos).mpr hroot
  obtain ⟨hpow, hsign⟩ := pow_of_exactRoot? hr
  refine ⟨r, hpow, hsign, ?_⟩
  rw [ofConstant_eq hradicand hindex hpos hle, hr]

theorem ofConstant_of_reducible (hroot : ¬∃ r : ℤ, r ^ k = n) (hreducible : IsReducible n k) :
    ofConstant node b = some (rootTimes (signedOutside n k) (inside n k) k) := by
  have hn := ne_zero_of_no_root hpos hroot
  obtain ⟨hreal, hsmall, p, hp, hdvd⟩ := hreducible
  have hlarge : 2 ≤ n.natAbs := by
    have hmagnitude : p ^ k ∣ n.natAbs := by rwa [← Int.natCast_dvd, Nat.cast_pow]
    calc
      2 ≤ p := hp.two_le
      _ ≤ p ^ k := Nat.le_self_pow (by omega) p
      _ ≤ n.natAbs := Nat.le_of_dvd (Int.natAbs_pos.mpr hn) hmagnitude
  have htried : ¬((n < 0 ∧ k % 2 = 0) ∨ 10 ^ 12 < n.natAbs ∨ n.natAbs < 2) := by
    rw [Nat.odd_iff] at hreal
    rw [Int.abs_eq_natAbs] at hsmall
    omega
  rw [ofConstant_eq hradicand hindex hpos hle, exactRoot?_eq_none hpos hroot]
  show (if _ then none else _) = _
  rw [if_neg htried, if_neg ((outside_ne_one_iff hn hpos).mpr ⟨p, hp, hdvd⟩)]

theorem ofConstant_of_irreducible (hroot : ¬∃ r : ℤ, r ^ k = n) (hreducible : ¬IsReducible n k) :
    ofConstant node b = none := by
  have hn := ne_zero_of_no_root hpos hroot
  rw [ofConstant_eq hradicand hindex hpos hle, exactRoot?_eq_none hpos hroot]
  show (if (n < 0 ∧ k % 2 = 0) ∨ 10 ^ 12 < n.natAbs ∨ n.natAbs < 2 then none else _) = none
  by_cases hrefused : (n < 0 ∧ k % 2 = 0) ∨ 10 ^ 12 < n.natAbs ∨ n.natAbs < 2
  · rw [if_pos hrefused]
  · have hreal : 0 ≤ n ∨ Odd k := by
      rw [Nat.odd_iff]
      omega
    have hsmall : |n| ≤ 10 ^ 12 := by
      rw [Int.abs_eq_natAbs]
      omega
    have hone : outside n k = 1 := by
      by_contra hone
      exact hreducible ⟨hreal, hsmall, (outside_ne_one_iff hn hpos).mp hone⟩
    rw [if_neg hrefused, if_pos hone]

end Bound

/-- **Roots of constants are worked out completely.** With an integer as radicand and an index up
to 64, the root is replaced by the integer that it is, if it is one, and otherwise all that can be
taken out of it is.  The root stays only if nothing can be taken out of it or if it is not tried:
because it is not real, or because the radicand is too large.  This rests on trial division, which
finds the primes that divide a positive number, with their exponents. -/
theorem ofConstant_isComplete (node : Expr) (b : Bindings) (n : ℤ) (k : ℕ)
    (hradicand : b.integer? "c1" = some n) (hindex : b.integer? "c2" = some (k : ℤ))
    (hpos : 1 ≤ k) (hle : k ≤ 64) :
    ((∃ r : ℤ, r ^ k = n) →
      ∃ r : ℤ, r ^ k = n ∧ (Even k → 0 ≤ r) ∧ ofConstant node b = some (.const (r : ℚ))) ∧
    ((¬∃ r : ℤ, r ^ k = n) → IsReducible n k →
      ∃ factor rest, Extracts n k factor rest ∧
        ofConstant node b = some (rootTimes factor rest k)) ∧
    ((¬∃ r : ℤ, r ^ k = n) → ¬IsReducible n k → ofConstant node b = none) ∧
    ∀ m, 1 ≤ m → IsFactorization 2 m (primePowers m) :=
  ⟨ofConstant_of_root hradicand hindex hpos hle,
    fun hroot hreducible => ⟨_, _, extracts hpos hroot hreducible,
      ofConstant_of_reducible hradicand hindex hpos hle hroot hreducible⟩,
    ofConstant_of_irreducible hradicand hindex hpos hle,
    fun _ hm => isFactorization_primePowers hm⟩

/-- Two is taken out of the cube root of `-24`. -/
theorem ofConstant_isComplete_minusTwentyFour :
    ∃ b : Bindings, b.integer? "c1" = some (-24) ∧ b.integer? "c2" = some ((3 : ℕ) : ℤ) ∧
      ∃ factor rest, Extracts (-24) 3 factor rest ∧
        ofConstant (.call "nthRoot" [.const (-24), .const 3]) b =
          some (rootTimes factor rest 3) := by
  have hradicand : (Bindings.ofList [("c1", .const (-24)), ("c2", .const 3)]).integer? "c1" =
      some (-24) := by cbv
  have hindex : (Bindings.ofList [("c1", .const (-24)), ("c2", .const 3)]).integer? "c2" =
      some ((3 : ℕ) : ℤ) := by cbv
  have hroot : ¬∃ r : ℤ, r ^ 3 = -24 := by
    intro h
    obtain ⟨r, hr⟩ := (exists_exactRoot?_iff (by omega : 0 < 3)).mpr h
    have hnone : exactRoot? (-24) 3 = none := by decide
    rw [hnone] at hr
    cases hr
  have hreducible : IsReducible (-24) 3 :=
    ⟨.inr (by decide), by decide, 2, Nat.prime_two, by decide⟩
  exact ⟨_, hradicand, hindex,
    (ofConstant_isComplete _ _ (-24) 3 hradicand hindex (by omega) (by omega)).2.1 hroot
      hreducible⟩

end Roots

end AlgebraTutor
