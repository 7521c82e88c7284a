import Mathlib.Tactic.Linarith
import ScriptMachine.Number.Literal
import ScriptMachine.Proofs.Exact
/-!
# The nearest double

Rounding is specified by distance: no finite double is closer, and of two that are equally close the
one with the even significand is taken. What comes out is the number itself, cut to fifty-three
significant bits.

* `Double.Nearest`: the nearest double of a number;
* `Double.value_ofNat`, `Double.nearest_ofNat`: **natural numbers are rounded to the nearest
  double**.
-/

namespace ScriptMachine

namespace Double

variable {n : Nat}

/-- No finite double is closer to a number, and of two that are equally close this one is even. -/
structure Nearest (q : ℚ) (x : Double) : Prop where
  finite : x.isFinite = true
  closest (y : Double) (h : y.isFinite = true) : |x.value - q| ≤ |y.value - q|
  even (y : Double) (h : y.isFinite = true) (tie : |x.value - q| = |y.value - q|) :
    y.value = x.value ∨ Even x.significand

/-- The greatest finite double that is less than a number. -/
structure Preceding (q : ℚ) (x : Double) : Prop where
  finite : x.isFinite = true
  less : x.value < q
  greatest (y : Double) (h : y.isFinite = true) (less : y.value < q) : y.value ≤ x.value

/-! ## Quotients -/

/-- A quotient is rounded to one of its two neighbours, and a tie to the even one. -/
theorem divRoundEven_cases (num den : Nat) :
    (divRoundEven num den = num / den ∧ 2 * (num % den) ≤ den ∨
      divRoundEven num den = num / den + 1 ∧ den ≤ 2 * (num % den)) ∧
    (2 * (num % den) = den → divRoundEven num den % 2 = 0) := by
  unfold divRoundEven
  dsimp only
  split
  · omega
  · split
    · omega
    · split <;> omega

@[simp] theorem divRoundEven_one (num : Nat) : divRoundEven num 1 = num := by
  simp [divRoundEven, Nat.mod_one]

/-- The quotient of a number that is given with its remainder. -/
theorem divRoundEven_mul_add {q den a : Nat} (h : a < den) : divRoundEven (q * den + a) den =
    if 2 * a < den then q else if den < 2 * a then q + 1 else if q % 2 = 0 then q else q + 1 := by
  have hdiv : (q * den + a) / den = q := by
    rw [Nat.mul_comm, Nat.mul_add_div (by omega), Nat.div_eq_of_lt h, Nat.add_zero]
  have hmod : (q * den + a) % den = a := by rw [Nat.mul_comm, Nat.mul_add_mod, Nat.mod_eq_of_lt h]
  simp only [divRoundEven, hdiv, hmod]

theorem divRoundEven_of_lt {q den a : Nat} (h : 2 * a < den) :
    divRoundEven (q * den + a) den = q := by
  rw [divRoundEven_mul_add (by omega), if_pos h]

/-- The rounded quotient is off by at most half a unit, and by half a unit only if it is even. -/
theorem abs_divRoundEven_le (num : Nat) {den : Nat} (h : 0 < den) :
    2 * |(divRoundEven num den * den : Int) - num| ≤ den ∧
      (2 * |(divRoundEven num den * den : Int) - num| = den → Even (divRoundEven num den)) := by
  obtain ⟨hcases, heven⟩ := divRoundEven_cases num den
  have hsplit : num = num / den * den + num % den := (Nat.div_add_mod' num den).symm
  have hlt : num % den < den := Nat.mod_lt num h
  rw [Nat.even_iff]
  generalize divRoundEven num den = q at hcases heven ⊢
  generalize num / den = a at hcases hsplit
  generalize num % den = r at hcases heven hsplit hlt
  rcases hcases with ⟨rfl, hr⟩ | ⟨rfl, hr⟩
  · have hoff : (q * den : Int) - num = -r := by
      rw [hsplit]
      push_cast
      ring
    rw [hoff, abs_neg, Nat.abs_cast]
    omega
  · have hoff : ((a + 1 : Nat) * den : Int) - num = (den - r : Nat) := by
      rw [hsplit, Nat.cast_sub hlt.le]
      push_cast
      ring
    rw [hoff, Nat.abs_cast]
    omega

/-- Among the multiples of a unit, the rounded one is the closest. -/
theorem divRoundEven_closest (num : Nat) {den : Nat} (h : 0 < den) (k : Int) :
    |(divRoundEven num den * den : Int) - num| ≤ |k * den - num| ∧
      (|(divRoundEven num den * den : Int) - num| = |k * den - num| →
        k = divRoundEven num den ∨ Even (divRoundEven num den)) := by
  obtain ⟨hle, heven⟩ := abs_divRoundEven_le num h
  by_cases hk : k = divRoundEven num den
  · subst hk
    exact ⟨le_rfl, fun _ => .inl rfl⟩
  · -- Another multiple is at least a whole unit away from this one.
    have hunit : (den : Int) ≤ |k * den - divRoundEven num den * den| := by
      rw [← sub_mul, abs_mul, Nat.abs_cast]
      exact le_mul_of_one_le_left (Int.natCast_nonneg den) (Int.one_le_abs (sub_ne_zero.2 hk))
    have htriangle := abs_sub_le (k * den : Int) num (divRoundEven num den * den)
    rw [abs_sub_comm (num : Int)] at htriangle
    exact ⟨by omega, fun heq => .inr (heven (by omega))⟩

/-! ## Words -/

/-- The fields of a word without a sign. -/
theorem fields_ofMagnitude (h : n < 2 ^ 63) :
    (ofMagnitude false n).exponentField = n / 2 ^ 52 ∧
      (ofMagnitude false n).fractionField = n % 2 ^ 52 ∧
      (ofMagnitude false n).isNegative = false := by
  have hlt : n < 2 ^ 64 := by omega
  have hword : (ofMagnitude false n).bits.toNat = n := by
    simpa [ofMagnitude, UInt64.toNat_ofNat'] using hlt
  refine ⟨?_, ?_, ?_⟩
  · rw [exponentField, UInt64.toNat_and, UInt64.toNat_shiftRight, hword,
      show UInt64.toNat 0x7ff = 2 ^ 11 - 1 from rfl, Nat.and_two_pow_sub_one_eq_mod,
        Nat.shiftRight_eq_div_pow]
    exact Nat.mod_eq_of_lt (Nat.div_lt_of_lt_mul h)
  · rw [fractionField, UInt64.toNat_and, hword, show UInt64.toNat 0xfffffffffffff = 2 ^ 52 - 1
      from rfl, Nat.and_two_pow_sub_one_eq_mod]
  · rw [isNegative, beq_eq_false_iff_ne, ne_eq, ← UInt64.toNat_inj, UInt64.toNat_shiftRight, hword,
      Nat.shiftRight_eq_div_pow, show UInt64.toNat 63 % 64 = 63 from rfl, Nat.div_eq_of_lt h]
    decide

/-- A word that is put together from an exponent and a significand of fifty-three bits, or the next
power of two. -/
theorem value_ofMagnitude {e m : Nat} (he : e < 2045) (hlow : 2 ^ 52 ≤ m) (hhigh : m ≤ 2 ^ 53) :
    (ofMagnitude false (e * 2 ^ 52 + m)).isFinite = true ∧
      (ofMagnitude false (e * 2 ^ 52 + m)).value = m * 2 ^ ((e : Int) - 1074) ∧
      (Even m → Even (ofMagnitude false (e * 2 ^ 52 + m)).significand) := by
  obtain ⟨hexponent, hfraction, hsign⟩ := fields_ofMagnitude (n := e * 2 ^ 52 + m) (by omega)
  simp only [isFinite, value, signed, significand, scale, hexponent, hfraction, hsign,
    Bool.false_eq_true, if_false]
  rcases Nat.lt_or_eq_of_le hhigh with hlt | rfl
  · have hdiv : (e * 2 ^ 52 + m) / 2 ^ 52 = e + 1 := by omega
    have hmod : (e * 2 ^ 52 + m) % 2 ^ 52 = m - 2 ^ 52 := by omega
    rw [hdiv, hmod, if_neg (by omega), if_neg (by omega), Nat.pow_eq, Nat.sub_add_cancel hlow]
    refine ⟨by simp; omega, ?_, id⟩
    push_cast
    congr 2
    ring
  · have hdiv : (e * 2 ^ 52 + 2 ^ 53) / 2 ^ 52 = e + 2 := by omega
    have hmod : (e * 2 ^ 52 + 2 ^ 53) % 2 ^ 52 = 0 := by omega
    rw [hdiv, hmod, if_neg (by omega), if_neg (by omega), Nat.pow_eq]
    refine ⟨by simp; omega, ?_, fun _ => by decide⟩
    rw [show ((e + 2 : Nat) : Int) - 1075 = (e - 1074) + 1 by push_cast; ring,
      zpow_add_one₀ two_ne_zero]
    push_cast
    ring

/-! ## Natural numbers -/

/-- The leading fifty-three bits of a number, rounded. Rounding may carry into the next power of
two. -/
def leading (n : Nat) : Nat := divRoundEven (n * 2 ^ (52 - n.log2)) (2 ^ (n.log2 - 52))

theorem log2_lt_of_lt {k : Nat} (hk : 0 < k) (h : n < 2 ^ k) : n.log2 < k := by
  rcases Nat.eq_zero_or_pos n with rfl | hpos
  · exact hk
  · exact (Nat.log2_lt hpos.ne').2 h

theorem lt_log2_of_le (h : 2 ^ 53 ≤ n) : 52 < n.log2 :=
  (Nat.le_log2 (Nat.ne_of_gt (Nat.lt_of_lt_of_le (by decide) h))).2 h

theorem leading_of_lt (h : n < 2 ^ 53) : leading n = n * 2 ^ (52 - n.log2) := by
  have hlog := log2_lt_of_lt (by decide) h
  rw [leading, show n.log2 - 52 = 0 by omega, pow_zero, divRoundEven_one]

theorem leading_of_le (h : 2 ^ 53 ≤ n) : leading n = divRoundEven n (2 ^ (n.log2 - 52)) := by
  have hlog := lt_log2_of_le h
  rw [leading, show 52 - n.log2 = 0 by omega, pow_zero, mul_one]

/-- One of the two powers is `1`. -/
theorem two_pow_log2_mul (n : Nat) :
    2 ^ n.log2 * 2 ^ (52 - n.log2) = 2 ^ 52 * 2 ^ (n.log2 - 52) := by
  rw [← pow_add, ← pow_add]
  congr 1
  omega

theorem leading_bounds (h : n ≠ 0) : 2 ^ 52 ≤ leading n ∧ leading n ≤ 2 ^ 53 := by
  have hlow : 2 ^ 52 * 2 ^ (n.log2 - 52) ≤ n * 2 ^ (52 - n.log2) := by
    rw [← two_pow_log2_mul]
    exact Nat.mul_le_mul_right _ (Nat.log2_self_le h)
  have hhigh : n * 2 ^ (52 - n.log2) < 2 ^ 53 * 2 ^ (n.log2 - 52) := by
    rw [show (2 : Nat) ^ 53 = 2 * 2 ^ 52 by rfl, mul_assoc, ← two_pow_log2_mul,
      ← mul_assoc, ← pow_succ']
    exact Nat.mul_lt_mul_of_pos_right Nat.lt_log2_self (Nat.two_pow_pos _)
  have hunit : 0 < 2 ^ (n.log2 - 52) := Nat.two_pow_pos _
  rw [← Nat.le_div_iff_mul_le hunit] at hlow
  rw [← Nat.div_lt_iff_lt_mul hunit] at hhigh
  have hcases := (divRoundEven_cases (n * 2 ^ (52 - n.log2)) (2 ^ (n.log2 - 52))).1
  unfold leading
  omega

theorem roundTo53_of_lt (h : n < 2 ^ 53) : roundTo53 n = n := if_pos h

theorem roundTo53_of_le (h : 2 ^ 53 ≤ n) : roundTo53 n = leading n * 2 ^ (n.log2 - 52) := by
  rw [leading_of_le h]
  exact if_neg (Nat.not_lt.2 h)

/-- The leading bits in their place are the number, cut to fifty-three significant bits. -/
theorem roundTo53_eq_leading (n : Nat) :
    (roundTo53 n : ℚ) = leading n * 2 ^ ((n.log2 : Int) - 52) := by
  rcases Nat.lt_or_ge n (2 ^ 53) with h | h
  · have hlog := log2_lt_of_lt (by decide) h
    have hpow : (2 : ℚ) ^ (52 - n.log2) * 2 ^ ((n.log2 : Int) - 52) = 1 := by
      rw [← zpow_natCast, ← zpow_add₀ two_ne_zero, Nat.cast_sub (by omega)]
      simp
    rw [roundTo53_of_lt h, leading_of_lt h, Nat.cast_mul, Nat.cast_pow, Nat.cast_ofNat, mul_assoc,
      hpow, mul_one]
  · have hlog := lt_log2_of_le h
    have hpow : (2 : ℚ) ^ ((n.log2 : Int) - 52) = 2 ^ (n.log2 - 52) := by
      rw [← zpow_natCast, Nat.cast_sub (by omega)]
      rfl
    rw [roundTo53_of_le h, hpow]
    push_cast
    rfl

/-- The word of a number is made from its leading bits. -/
theorem ofNat_eq (h : n ≠ 0) :
    ofNat n = ofMagnitude false (min ((n.log2 + 1022) * 2 ^ 52 + leading n) infinityMagnitude) := by
  have hup : (-((n.log2 : Int) - 52)).toNat = 52 - n.log2 := by omega
  have hdown : ((n.log2 : Int) - 52).toNat = n.log2 - 52 := by omega
  have hexact : ¬ n * 2 ^ (52 - n.log2) < 2 ^ (52 + (n.log2 - 52)) := by
    rw [pow_add, ← two_pow_log2_mul, Nat.not_lt]
    exact Nat.mul_le_mul_right _ (Nat.log2_self_le h)
  have hmax : max ((n.log2 : Int) - 52) (-1074) = n.log2 - 52 := by omega
  have hbiased : ((n.log2 : Int) - 52 + 1074).toNat = n.log2 + 1022 := by omega
  simp only [ofNat, ofRatio, if_neg h, Nat.pow_eq, show Nat.log2 1 = 0 from rfl, Nat.cast_zero,
    sub_zero, one_mul, hup, hdown, if_neg hexact, hmax, hbiased, leading]

/-- A number in the range becomes the double that is the number, cut to fifty-three significant
bits. -/
theorem value_ofNat (h : n < 2 ^ 1023) :
    (ofNat n).isFinite = true ∧ (ofNat n).value = roundTo53 n ∧
    (Even (leading n) → Even (ofNat n).significand) := by
  rcases Nat.eq_zero_or_pos n with rfl | hpos
  · refine ⟨by decide, ?_, fun _ => by decide⟩
    simp [value, signed, show (ofNat 0).isNegative = false by decide,
      show (ofNat 0).significand = 0 by decide, roundTo53]
  · have hn := hpos.ne'
    have hlog := log2_lt_of_lt (k := 1023) (by decide) h
    obtain ⟨hlow, hhigh⟩ := leading_bounds hn
    have hmin : min ((n.log2 + 1022) * 2 ^ 52 + leading n) infinityMagnitude =
        (n.log2 + 1022) * 2 ^ 52 + leading n := by
      simp only [infinityMagnitude, Nat.pow_eq]
      omega
    obtain ⟨hfinite, hvalue, heven⟩ := value_ofMagnitude (e := n.log2 + 1022) (by omega) hlow hhigh
    rw [ofNat_eq hn, hmin, roundTo53_eq_leading n]
    have hscale : ((n.log2 + 1022 : Nat) : Int) - 1074 = n.log2 - 52 := by
      push_cast
      ring
    rw [hscale] at hvalue
    exact ⟨hfinite, hvalue, heven⟩

/-! ## Rounding -/

theorem significand_lt (x : Double) : x.significand < 2 ^ 53 := by
  have hfraction : x.fractionField < 2 ^ 52 := by
    rw [fractionField, UInt64.toNat_and, show UInt64.toNat 0xfffffffffffff = 2 ^ 52 - 1 from rfl,
      Nat.and_two_pow_sub_one_eq_mod]
    exact Nat.mod_lt _ (by decide)
  rw [significand, Nat.pow_eq]
  split <;> omega

/-- A double is a multiple of a unit, or less than any number whose last place, of fifty-three, is
the unit. -/
theorem value_cases (x : Double) (u : Nat) :
    (∃ k : Int, x.value = (k * (2 ^ u : Nat) : Int)) ∨ x.value < (2 ^ (52 + u) : Nat) := by
  rcases le_or_gt (u : Int) x.scale with hle | hlt
  · obtain ⟨s, hs⟩ := Int.le.dest hle
    refine .inl ⟨x.signed * 2 ^ s, ?_⟩
    rw [value, ← hs, zpow_add₀ two_ne_zero, zpow_natCast, zpow_natCast]
    push_cast
    ring
  · right
    have hsigned : (x.signed : ℚ) < 2 ^ 53 := by
      have hlt := x.significand_lt
      have hint : x.signed < 2 ^ 53 := by
        unfold signed
        split <;> omega
      exact_mod_cast hint
    calc x.value < 2 ^ 53 * 2 ^ x.scale := by
          rw [value]
          exact mul_lt_mul_of_pos_right hsigned (zpow_pos two_pos _)
      _ ≤ 2 ^ 53 * 2 ^ ((u : Int) - 1) := by
          gcongr
          · norm_num
          · omega
      _ = (2 ^ (52 + u) : Nat) := by
          rw [zpow_sub_one₀ two_ne_zero, zpow_natCast]
          push_cast
          ring

/-- **Natural numbers are rounded to the nearest double.** -/
theorem nearest_ofNat (h : n < 2 ^ 1023) : (ofNat n).Nearest n := by
  obtain ⟨hfinite, hvalue, heven⟩ := value_ofNat h
  rcases Nat.lt_or_ge n (2 ^ 53) with hexact | hle
  · -- There are fifty-three bits or less, and the number is a double.
    rw [roundTo53_of_lt hexact] at hvalue
    refine ⟨hfinite, fun y _ => ?_, fun y _ htie => .inl ?_⟩
    · simp [hvalue]
    · rw [hvalue, sub_self, abs_zero, eq_comm, abs_eq_zero, sub_eq_zero] at htie
      exact htie.trans hvalue.symm
  · have hunit : 0 < 2 ^ (n.log2 - 52) := Nat.two_pow_pos _
    have hclosest (k : Int) := divRoundEven_closest n hunit k
    rw [← leading_of_le hle] at hclosest
    rw [roundTo53_of_le hle] at hvalue
    -- A double that is no multiple of the unit is further away than the power of two below the
    -- number.
    have hcases (y : Double) : (∃ k : Int, y.value = (k * (2 ^ (n.log2 - 52) : Nat) : Int)) ∨
        |(ofNat n).value - n| < |y.value - n| := by
      refine (y.value_cases (n.log2 - 52)).imp_right fun hlt => ?_
      have hlow : 2 ^ (52 + (n.log2 - 52)) ≤ n := by
        have hlog := lt_log2_of_le hle
        rw [show 52 + (n.log2 - 52) = n.log2 by omega]
        exact Nat.log2_self_le (by omega)
      have hpower := (hclosest (2 ^ 52)).1
      rw [show (2 ^ 52 * (2 ^ (n.log2 - 52) : Nat) : Int) =
        (2 ^ (52 + (n.log2 - 52)) : Nat) by push_cast; ring] at hpower
      generalize 2 ^ (52 + (n.log2 - 52)) = low at hlt hlow hpower
      have hlow' : (low : ℚ) ≤ n := by exact_mod_cast hlow
      calc |(ofNat n).value - n| ≤ |(low : ℚ) - n| := by
            rw [hvalue]
            exact_mod_cast hpower
        _ = n - low := by rw [abs_sub_comm, abs_of_nonneg (by linarith)]
        _ < n - y.value := by linarith
        _ ≤ |y.value - n| := by
            rw [abs_sub_comm]
            exact le_abs_self _
    refine ⟨hfinite, fun y _ => ?_, fun y _ htie => ?_⟩
    · rcases hcases y with ⟨k, hk⟩ | hlt
      · rw [hvalue, hk]
        exact_mod_cast (hclosest k).1
      · exact hlt.le
    · rcases hcases y with ⟨k, hk⟩ | hlt
      · rw [hvalue, hk] at htie
        refine ((hclosest k).2 (by exact_mod_cast htie)).imp (fun heq => ?_) heven
        rw [hvalue, hk, heq]
        push_cast
        rfl
      · exact absurd htie hlt.ne

/-! ## Numbers of fifty-three bits -/

/-- The first fifty-three bits of a number, the place of the last of them, and the bits behind. -/
theorem exists_eq_mul_add (h : 2 ^ 53 ≤ n) :
    ∃ m s a, n = m * 2 ^ s + a ∧ 2 ^ 52 ≤ m ∧ m < 2 ^ 53 ∧ a < 2 ^ s ∧ n.log2 = 52 + s := by
  have hlog := lt_log2_of_le h
  obtain ⟨s, hs⟩ : ∃ s, n.log2 = 52 + s := ⟨n.log2 - 52, by omega⟩
  have hunit : 0 < 2 ^ s := Nat.two_pow_pos s
  refine ⟨n / 2 ^ s, s, n % 2 ^ s, (Nat.div_add_mod' n (2 ^ s)).symm, ?_, ?_,
    Nat.mod_lt n hunit, hs⟩
  · rw [Nat.le_div_iff_mul_le hunit, ← pow_add, ← hs]
    exact Nat.log2_self_le (by omega)
  · rw [Nat.div_lt_iff_lt_mul hunit, ← pow_add, show 53 + s = n.log2 + 1 by omega]
    exact Nat.lt_log2_self

section Scaled

variable {m s a : Nat} (hlow : 2 ^ 52 ≤ m)

include hlow

theorem log2_mul_add (hhigh : m < 2 ^ 53) (ha : a < 2 ^ s) : (m * 2 ^ s + a).log2 = 52 + s := by
  have hpos : 0 < 2 ^ s := Nat.two_pow_pos s
  have hle : 2 ^ (52 + s) ≤ m * 2 ^ s := by
    rw [pow_add]
    exact Nat.mul_le_mul_right _ hlow
  have hlt : (m + 1) * 2 ^ s ≤ 2 ^ (52 + s + 1) := by
    rw [show 52 + s + 1 = 53 + s by omega, pow_add]
    exact Nat.mul_le_mul_right _ hhigh
  rw [add_mul, one_mul] at hlt
  exact (Nat.log2_eq_iff (by omega)).2 ⟨by omega, by omega⟩

/-- A number with more than fifty-three bits is rounded in the place of the last of the first
fifty-three. -/
theorem roundTo53_mul_add (hhigh : m < 2 ^ 53) (ha : a < 2 ^ s) (hs : s ≠ 0) :
    roundTo53 (m * 2 ^ s + a) = divRoundEven (m * 2 ^ s + a) (2 ^ s) * 2 ^ s := by
  have htwo : 2 ≤ 2 ^ s := Nat.le_self_pow hs 2
  have hle : 2 ^ 52 * 2 ≤ m * 2 ^ s := Nat.mul_le_mul hlow htwo
  have hlarge : 2 ^ 53 ≤ m * 2 ^ s + a := by omega
  rw [roundTo53_of_le hlarge, leading_of_le hlarge, log2_mul_add hlow hhigh ha,
    Nat.add_sub_cancel_left]

/-- What is less than half of the last place is rounded away. -/
theorem roundTo53_of_two_mul_lt (hhigh : m ≤ 2 ^ 53) (ha : 2 * a < 2 ^ s) :
    roundTo53 (m * 2 ^ s + a) = m * 2 ^ s := by
  have hstrict {m s : Nat} (hlow : 2 ^ 52 ≤ m) (hhigh : m < 2 ^ 53) (ha : 2 * a < 2 ^ s) :
      roundTo53 (m * 2 ^ s + a) = m * 2 ^ s := by
    rcases Nat.eq_zero_or_pos s with rfl | hs
    · rw [show a = 0 by omega]
      exact roundTo53_of_lt (by omega)
    · rw [roundTo53_mul_add hlow hhigh (by omega) hs.ne', divRoundEven_of_lt ha]
  rcases Nat.lt_or_eq_of_le hhigh with hlt | rfl
  · exact hstrict hlow hlt ha
  · -- The carry leaves a power of two, whose last place is the next one.
    have hcarry : 2 ^ 53 * 2 ^ s = 2 ^ 52 * 2 ^ (s + 1) := by ring
    rw [hcarry]
    exact hstrict le_rfl (by decide) (by rw [pow_succ]; omega)

theorem ofNat_mul_two_pow (hhigh : m ≤ 2 ^ 53) :
    ofNat (m * 2 ^ s) = ofMagnitude false (min ((s + 1074) * 2 ^ 52 + m) infinityMagnitude) := by
  have hstrict {m s : Nat} (hlow : 2 ^ 52 ≤ m) (hhigh : m < 2 ^ 53) :
      ofNat (m * 2 ^ s) = ofMagnitude false (min ((s + 1074) * 2 ^ 52 + m) infinityMagnitude) := by
    have hpos : 0 < 2 ^ s := Nat.two_pow_pos s
    have hlog : (m * 2 ^ s).log2 = 52 + s := log2_mul_add hlow hhigh hpos
    have hleading : leading (m * 2 ^ s) = m := by
      rw [leading, hlog, show 52 - (52 + s) = 0 by omega, pow_zero, mul_one,
        Nat.add_sub_cancel_left]
      exact divRoundEven_of_lt (a := 0) hpos
    rw [ofNat_eq (Nat.mul_ne_zero (by omega) hpos.ne'), hlog, hleading,
      show 52 + s + 1022 = s + 1074 by omega]
  rcases Nat.lt_or_eq_of_le hhigh with hlt | rfl
  · exact hstrict hlow hlt
  · have hcarry : 2 ^ 53 * 2 ^ s = 2 ^ 52 * 2 ^ (s + 1) := by ring
    have hplace : (s + 1 + 1074) * 2 ^ 52 + 2 ^ 52 = (s + 1074) * 2 ^ 52 + 2 ^ 53 := by ring
    rw [hcarry, hstrict le_rfl (by decide), hplace]

end Scaled

/-- A number and what is left of it after rounding become the same double. -/
theorem ofNat_roundTo53 (n : Nat) : ofNat (roundTo53 n) = ofNat n := by
  rcases Nat.lt_or_ge n (2 ^ 53) with h | h
  · rw [roundTo53_of_lt h]
  · have hlog := lt_log2_of_le h
    have hn : n ≠ 0 := by omega
    obtain ⟨hlow, hhigh⟩ := leading_bounds hn
    rw [roundTo53_of_le h, ofNat_mul_two_pow hlow hhigh, ofNat_eq hn,
      show n.log2 - 52 + 1074 = n.log2 + 1022 by omega]

end Double

end ScriptMachine
