import ScriptMachine.Proofs.Nearest
import ScriptMachine.Proofs.Numerals
/-!
# Hexadecimal and decimal numbers

A decimal number is rounded once. A hexadecimal one is rounded after every digit, but only once with
effect: by the first digit that exceeds fifty-three bits. The result is the nearest double, unless
the digits up to there look like a tie that goes down while the digits behind tell that it should go
up.

* `Double.Misread`: numbers that are rounded the wrong way;
* `Double.hexadecimal_nearest`: **all other numbers become the nearest double**, as their decimal
  digits do.
-/

namespace ScriptMachine

namespace Double

variable {n : Nat}

/-! ## Digits -/

/-- Digits spell a number in a base, the highest digit first. -/
inductive Spells (base : Nat) : Nat → List Char → Prop
  | digit {c : Char} {d : Nat} (value : hexDigit? c = some d) (below : d < base) : Spells base d [c]
  | more {n : Nat} {cs : List Char} {c : Char} {d : Nat} (front : Spells base n cs)
    (value : hexDigit? c = some d) (below : d < base) : Spells base (base * n + d) (cs ++ [c])

theorem isDigit_of_hexDigit? {c : Char} {d : Nat} (h : hexDigit? c = some d) (hd : d < 10) :
    c.isDigit = true ∧ c.toNat - '0'.toNat = d := by
  unfold hexDigit? at h
  split at h
  case isTrue hdecimal =>
    cases h
    exact ⟨isDigit_iff.2 hdecimal, rfl⟩
  case isFalse =>
    split at h
    · cases h
      omega
    · split at h
      · cases h
        omega
      · contradiction

variable {cs : List Char}

/-- Digits below ten are those of decimal numbers. -/
theorem Spells.digits (h : Spells 10 n cs) : Digits Char.isDigit cs ∧ digitsToNat cs = n := by
  induction h with
  | @digit c d value below =>
    obtain ⟨hc, hd⟩ := isDigit_of_hexDigit? value below
    refine ⟨⟨by simp, by simpa using hc⟩, ?_⟩
    simpa [digitsToNat] using hd
  | @more n cs c d _ value below ih =>
    obtain ⟨hc, hd⟩ := isDigit_of_hexDigit? value below
    refine ⟨⟨by simp, fun e he => ?_⟩, ?_⟩
    · rcases List.mem_append.1 he with he | he
      · exact ih.1.all e he
      · rwa [List.mem_singleton.1 he]
    · rw [← ih.2, ← hd]
      simp [digitsToNat]

/-- Every number can be spelled. -/
theorem spells_toDigits {base : Nat} (hbase : 1 < base) (hle : base ≤ 16) (n : Nat) :
    Spells base n (Nat.toDigits base n) := by
  have hdigit (d : Nat) (hd : d < base) : hexDigit? (Nat.digitChar d) = some d := by
    have hall : ∀ d < 16, hexDigit? (Nat.digitChar d) = some d := by decide
    exact hall d (by omega)
  induction n using Nat.strong_induction_on with
  | _ n ih =>
    rcases Nat.lt_or_ge n base with hlt | hge
    · rw [Nat.toDigits_of_lt_base hlt]
      exact .digit (hdigit n hlt) hlt
    · have hlast : n % base < base := Nat.mod_lt n (by omega)
      have hmore :=
        Spells.more (ih (n / base) (Nat.div_lt_self (by omega) hbase)) (hdigit _ hlast) hlast
      rwa [← Nat.toDigits_of_lt_base hlast,
        Nat.toDigits_append_toDigits hbase (Nat.div_pos hge (by omega)) hlast,
        Nat.div_add_mod] at hmore

theorem spells_of_toDigits {base : Nat} (hbase : 1 < base) (hle : base ≤ 16)
    (h : Nat.toDigits base n = cs) : Spells base n cs := h ▸ spells_toDigits hbase hle n

/-! ## Decimal numbers -/

/-- A natural number in the range is no case for the shortcuts. -/
theorem ofDecimal_natural (h : n < 2 ^ 1023) : ofDecimal false n 0 = ofNat n := by
  have hlength : (Nat.toDigits 10 n).length ≤ 310 :=
    (Nat.length_toDigits_le_iff (by decide) (by decide)).2 (Nat.lt_trans h (by decide +kernel))
  unfold ofDecimal
  dsimp only
  split
  case isTrue hzero =>
    subst hzero
    rfl
  case isFalse =>
    rw [if_neg (by omega), if_neg (by omega)]
    simp [ofNat]

theorem ofLiteral?_natural (h : n < 2 ^ 1023) (hcs : Spells 10 n cs) :
    ofLiteral? (String.ofList cs) = some (ofNat n) := by
  obtain ⟨hdigits, hvalue⟩ := hcs.digits
  obtain ⟨e, he, hread⟩ := exists_unsignedDecimal? false hdigits .missing .missing
  have hliteral := (ofLiteral?_decimal hdigits .missing .missing).trans hread
  simpa [he rfl, hvalue, ofDecimal_natural h] using hliteral

/-! ## Hexadecimal numbers -/

/-- What is left of a number when its digits are taken one by one: the whole number up to
fifty-three bits, and else the leading digits, up to the first that exceeds them, after rounding. -/
inductive Folded : Nat → Nat → Prop
  | exact {n : Nat} (h : n < 2 ^ 53) : Folded n n
  | cut {p t r : Nat} (low : 2 ^ 53 ≤ p) (high : p < 2 ^ 57) (behind : r < 16 ^ t) :
    Folded (p * 16 ^ t + r) (roundTo53 p * 16 ^ t)

theorem sixteen_pow (t : Nat) : 16 ^ t = 2 ^ (4 * t) := by
  rw [pow_mul]
  rfl

/-- One more digit rounds if it is the first that exceeds fifty-three bits, and is lost behind that
one. -/
theorem Folded.more {f d : Nat} (h : Folded n f) (hd : d < 16) :
    Folded (16 * n + d) (roundTo53 (16 * f + d)) := by
  cases h with
  | exact h =>
    rcases Nat.lt_or_ge (16 * n + d) (2 ^ 53) with hlt | hge
    · rw [roundTo53_of_lt hlt]
      exact .exact hlt
    · have hcut := Folded.cut (t := 0) hge (by omega) (by decide : 0 < 16 ^ 0)
      simpa using hcut
  | @cut p t r low high behind =>
    -- The leading digits have a last place above the new digit.
    obtain ⟨hlow, hhigh⟩ := leading_bounds (n := p) (by omega)
    have hlog := lt_log2_of_le low
    have hscale : 16 * (roundTo53 p * 16 ^ t) = leading p * 2 ^ (p.log2 - 52 + 4 * t + 4) := by
      rw [roundTo53_of_le low, sixteen_pow]
      ring
    have hplace : 2 * d < 2 ^ (p.log2 - 52 + 4 * t + 4) := by
      calc 2 * d < 2 ^ 5 := by omega
        _ ≤ 2 ^ (p.log2 - 52 + 4 * t + 4) := Nat.pow_le_pow_right two_pos (by omega)
    rw [hscale, roundTo53_of_two_mul_lt hlow hhigh hplace, ← hscale]
    have hcut : Folded (p * 16 ^ (t + 1) + (16 * r + d)) (roundTo53 p * 16 ^ (t + 1)) :=
      .cut low high (by rw [pow_succ]; omega)
    rw [show p * 16 ^ (t + 1) + (16 * r + d) = 16 * (p * 16 ^ t + r) + d by ring,
      show roundTo53 p * 16 ^ (t + 1) = 16 * (roundTo53 p * 16 ^ t) by ring] at hcut
    exact hcut

theorem hexFold?_append (acc : Nat) (cs ds : List Char) :
    hexFold? acc (cs ++ ds) = (hexFold? acc cs).bind fun f => hexFold? f ds := by
  induction cs generalizing acc with
  | nil => rfl
  | cons c cs ih =>
    simp only [List.cons_append, hexFold?]
    cases hexDigit? c with
    | none => rfl
    | some d => exact ih _

/-- **The digits of a number are folded.** -/
theorem folded_hexFold? {ds : List Char} (h : Spells 16 n ds) :
    ∃ f, hexFold? 0 ds = some f ∧ Folded n f := by
  induction h with
  | @digit c d value below =>
    have hexact : Folded d d := .exact (by omega)
    exact ⟨d, by simp [hexFold?, value, roundTo53_of_lt (show d < 2 ^ 53 by omega)], hexact⟩
  | @more n cs c d _ value below ih =>
    obtain ⟨f, hfold, hf⟩ := ih
    exact ⟨_, by simp [hexFold?_append, hfold, hexFold?, value], hf.more below⟩

/-! ## Two roundings -/

/-- Rounding some more digits makes no difference, unless there is a tie without them that goes
down. -/
theorem divRoundEven_behind {q u w a r : Nat} (heven : u % 2 = 0) (ha : a < u) (hr : r < w) :
    divRoundEven ((q * u + a) * w + r) (u * w) = divRoundEven (q * u + a) u ∨ 2 * a = u ∧
    q % 2 = 0 ∧ r ≠ 0 := by
  have hall : a * w + r < u * w := by
    calc a * w + r < (a + 1) * w := by rw [add_mul, one_mul]; omega
      _ ≤ u * w := Nat.mul_le_mul_right w ha
  have hsplit : (q * u + a) * w + r = q * (u * w) + (a * w + r) := by ring
  rw [hsplit, divRoundEven_mul_add hall, divRoundEven_mul_add ha]
  rcases Nat.lt_trichotomy (2 * a) u with hlt | heq | hgt
  · have hless : 2 * (a * w + r) < u * w := by
      calc 2 * (a * w + r) < (2 * a + 2) * w := by
            rw [add_mul, mul_assoc]
            omega
        _ ≤ u * w := Nat.mul_le_mul_right w (by omega)
    exact .inl (by rw [if_pos hless, if_pos hlt])
  · have htwice : 2 * (a * w) = u * w := by rw [← mul_assoc, heq]
    split_ifs <;> omega
  · have hmore : u * w < 2 * (a * w + r) := by
      calc u * w < 2 * a * w := Nat.mul_lt_mul_of_pos_right hgt (by omega)
        _ ≤ 2 * (a * w + r) := by
            rw [mul_assoc]
            omega
    exact .inl (by rw [if_neg (by omega), if_pos hmore, if_neg (by omega), if_pos hgt])

/-- Numbers that are rounded the wrong way: the leading digits, up to the first that exceeds
fifty-three bits, are halfway between an even number of fifty-three bits and the next one, and the
digits behind do not vanish. -/
inductive Misread : Nat → Prop
  | intro {m k t r : Nat} (even : m % 2 = 0) (low : 2 ^ 52 ≤ m) (high : m < 2 ^ 53) (place : k < 4)
    (behind : 0 < r) (less : r < 16 ^ t) : Misread ((2 * m + 1) * 2 ^ k * 16 ^ t + r)

/-- All other numbers are rounded as if at once. -/
theorem Folded.eq_roundTo53 {f : Nat} (h : Folded n f) (hn : ¬ Misread n) : f = roundTo53 n := by
  cases h with
  | exact h => exact (roundTo53_of_lt h).symm
  | @cut p t r low high behind =>
    obtain ⟨m, s, a, rfl, hlow, hhigh, ha, hlog⟩ := exists_eq_mul_add low
    have hs : s ≠ 0 ∧ s < 5 := by
      have hless := log2_lt_of_lt (by decide) high
      have hmore := lt_log2_of_le low
      omega
    have heven : 2 ^ s % 2 = 0 := by
      rw [← Nat.sub_one_add_one hs.1, pow_succ, Nat.mul_mod_left]
    have hunit : 2 ^ (s + 4 * t) = 2 ^ s * 16 ^ t := by rw [pow_add, sixteen_pow]
    have hwhole : (m * 2 ^ s + a) * 16 ^ t + r = m * 2 ^ (s + 4 * t) + (a * 16 ^ t + r) := by
      rw [hunit]
      ring
    have hbehind : a * 16 ^ t + r < 2 ^ (s + 4 * t) := by
      rw [hunit]
      calc a * 16 ^ t + r < (a + 1) * 16 ^ t := by rw [add_mul, one_mul]; omega
        _ ≤ 2 ^ s * 16 ^ t := Nat.mul_le_mul_right _ ha
    have hround : roundTo53 ((m * 2 ^ s + a) * 16 ^ t + r) =
        divRoundEven ((m * 2 ^ s + a) * 16 ^ t + r) (2 ^ s * 16 ^ t) * (2 ^ s * 16 ^ t) := by
      rw [hwhole, roundTo53_mul_add hlow hhigh hbehind (by omega), hunit]
    rcases divRoundEven_behind (q := m) heven ha behind with hsame | ⟨hhalf, hm, hr⟩
    · rw [hround, hsame, roundTo53_mul_add hlow hhigh ha hs.1, mul_assoc]
    · -- The tie without the digits behind is what makes a number misread.
      obtain ⟨k, rfl⟩ := Nat.exists_eq_succ_of_ne_zero hs.1
      have hmisread :=
        Misread.intro hm hlow hhigh (show k < 4 by omega) (Nat.pos_of_ne_zero hr) behind
      have hk : 2 ^ (k + 1) = 2 * 2 ^ k := pow_succ' 2 k
      have hp : (2 * m + 1) * 2 ^ k = m * 2 ^ (k + 1) + a := by
        rw [Nat.succ_eq_add_one] at hhalf
        rw [show a = 2 ^ k by omega, hk]
        ring
      rw [hp] at hmisread
      exact absurd hmisread hn

/-- Leading digits are cut in one place only. -/
theorem le_of_cut {p p' t t' r r' : Nat} (low : 2 ^ 53 ≤ p) (high : p' < 2 ^ 57)
    (behind : r' < 16 ^ t') (h : p * 16 ^ t + r = p' * 16 ^ t' + r') : t ≤ t' := by
  by_contra hlt
  obtain ⟨e, rfl⟩ := Nat.exists_eq_add_of_lt (Nat.not_le.1 hlt)
  have hpos : 0 < 16 ^ e := Nat.pow_pos (by decide)
  have hlarge : 2 ^ 57 * 16 ^ t' ≤ p * 16 ^ (t' + e + 1) := by
    calc 2 ^ 57 * 16 ^ t' ≤ 2 ^ 57 * 16 ^ t' * 16 ^ e := Nat.le_mul_of_pos_right _ hpos
      _ = 2 ^ 53 * 16 ^ (t' + e + 1) := by ring
      _ ≤ p * 16 ^ (t' + e + 1) := Nat.mul_le_mul_right _ low
  have hsmall : p' * 16 ^ t' + r' < 2 ^ 57 * 16 ^ t' := by
    calc p' * 16 ^ t' + r' < (p' + 1) * 16 ^ t' := by rw [add_mul, one_mul]; omega
      _ ≤ 2 ^ 57 * 16 ^ t' := Nat.mul_le_mul_right _ high
  omega

theorem Folded.eq_of_cut {p t r f : Nat} (low : 2 ^ 53 ≤ p) (high : p < 2 ^ 57)
    (behind : r < 16 ^ t) (h : Folded (p * 16 ^ t + r) f) : f = roundTo53 p * 16 ^ t := by
  have hpos : 0 < 16 ^ t := Nat.pow_pos (by decide)
  generalize hn : p * 16 ^ t + r = n at h
  cases h with
  | exact h =>
    have hle : p ≤ p * 16 ^ t := Nat.le_mul_of_pos_right p hpos
    omega
  | @cut p' t' r' low' high' behind' =>
    obtain rfl : t = t' :=
      Nat.le_antisymm (le_of_cut low high' behind' hn) (le_of_cut low' high behind hn.symm)
    have hp : p = p' := by
      have hdiv := congrArg (· / 16 ^ t) hn
      simpa [Nat.add_comm _ r, Nat.add_comm _ r', Nat.add_mul_div_right _ _ hpos,
        Nat.div_eq_of_lt behind, Nat.div_eq_of_lt behind'] using hdiv
    rw [hp]

/-- A number that is misread is cut off, though it is more than halfway to the next number of
fifty-three bits. -/
theorem Misread.exists_eq {f : Nat} (h : Misread n) (hf : Folded n f) :
    ∃ m s a, 2 ^ 52 ≤ m ∧ m < 2 ^ 53 ∧
    a < 2 ^ s ∧ 2 ^ s < 2 * a ∧ n = m * 2 ^ s + a ∧ f = m * 2 ^ s := by
  cases h with
  | @intro m k t r even low high place behind less =>
    have hk : 2 ^ (k + 1) = 2 * 2 ^ k := pow_succ' 2 k
    have hpos : 0 < 2 ^ k := Nat.two_pow_pos k
    have hp : (2 * m + 1) * 2 ^ k = m * 2 ^ (k + 1) + 2 ^ k := by
      rw [hk]
      ring
    have hunit : 2 ^ (k + 1 + 4 * t) = 2 * (2 ^ k * 16 ^ t) := by
      rw [pow_add, sixteen_pow, hk]
      ring
    have hlow : 2 ^ 53 ≤ (2 * m + 1) * 2 ^ k := by
      calc 2 ^ 53 ≤ (2 * m + 1) * 1 := by omega
        _ ≤ (2 * m + 1) * 2 ^ k := Nat.mul_le_mul_left _ hpos
    have hhigh : (2 * m + 1) * 2 ^ k < 2 ^ 57 := by
      calc (2 * m + 1) * 2 ^ k < 2 ^ 54 * 2 ^ k := Nat.mul_lt_mul_of_pos_right (by omega) hpos
        _ ≤ 2 ^ 54 * 2 ^ 3 := Nat.mul_le_mul_left _ (Nat.pow_le_pow_right two_pos (by omega))
        _ = 2 ^ 57 := by decide
    have htie : roundTo53 ((2 * m + 1) * 2 ^ k) = m * 2 ^ (k + 1) := by
      rw [hp, roundTo53_mul_add low high (by omega) (by omega), divRoundEven_mul_add (by omega),
        if_neg (by omega), if_neg (by omega), if_pos even]
    have hless : r < 2 ^ k * 16 ^ t := Nat.lt_of_lt_of_le less (Nat.le_mul_of_pos_left _ hpos)
    refine ⟨m, k + 1 + 4 * t, 2 ^ k * 16 ^ t + r, low, high, by omega, by omega, ?_, ?_⟩
    · rw [hp, hunit, hk]
      ring
    · rw [hf.eq_of_cut hlow hhigh less, htie, hunit, hk]
      ring

/-! ## The nearest double -/

/-- A number that is misread becomes the double before it, and the next one would be closer. -/
theorem Misread.preceding {f : Nat} (h : Misread n) (hf : Folded n f) (hn : n < 2 ^ 1023) :
    (ofNat f).Preceding n ∧ ¬ (ofNat f).Nearest n := by
  obtain ⟨m, s, a, hlow, hhigh, ha, hhalf, rfl, rfl⟩ := h.exists_eq hf
  have hs : s ≠ 0 := by
    rintro rfl
    omega
  have hexact : roundTo53 (m * 2 ^ s) = m * 2 ^ s :=
    roundTo53_of_two_mul_lt (a := 0) hlow hhigh.le (Nat.two_pow_pos s)
  have hnext : roundTo53 (m * 2 ^ s + a) = (m + 1) * 2 ^ s := by
    rw [roundTo53_mul_add hlow hhigh ha hs, divRoundEven_mul_add ha, if_neg (by omega),
      if_pos hhalf]
  obtain ⟨hfinite, hvalue, -⟩ := value_ofNat (lt_of_le_of_lt (Nat.le_add_right (m * 2 ^ s) a) hn)
  obtain ⟨hfinite', hvalue', -⟩ := value_ofNat hn
  rw [hexact] at hvalue
  rw [hnext] at hvalue'
  refine ⟨⟨hfinite, ?_, fun y _ hless => ?_⟩, fun hnearest => ?_⟩
  · rw [hvalue]
    exact_mod_cast Nat.lt_add_of_pos_right (by omega)
  · rw [hvalue]
    rcases y.value_cases s with ⟨k, hk⟩ | hsmall
    · -- No multiple of the last place lies between.
      rw [hk] at hless ⊢
      have hk' : k * (2 ^ s : Nat) < (m * 2 ^ s + a : Nat) := by exact_mod_cast hless
      have hlt : k * (2 ^ s : Nat) < (m + 1 : Int) * (2 ^ s : Nat) := by
        rw [add_mul, one_mul]
        push_cast at hk' ⊢
        have ha' : (a : Int) < 2 ^ s := by exact_mod_cast ha
        omega
      have hle : k ≤ m := Int.lt_add_one_iff.1 (lt_of_mul_lt_mul_right hlt (Int.natCast_nonneg _))
      exact_mod_cast mul_le_mul_of_nonneg_right hle (Int.natCast_nonneg (2 ^ s))
    · have hle : 2 ^ (52 + s) ≤ m * 2 ^ s := by
        rw [pow_add]
        exact Nat.mul_le_mul_right _ hlow
      exact hsmall.le.trans (by exact_mod_cast hle)
  · -- The distances are those to the two ends of the last place.
    have hclosest := hnearest.closest _ hfinite'
    have hbelow : ((m * 2 ^ s : Nat) : ℚ) - (m * 2 ^ s + a : Nat) = -a := by
      push_cast
      ring
    have habove : (((m + 1) * 2 ^ s : Nat) : ℚ) - (m * 2 ^ s + a : Nat) = (2 ^ s - a : Nat) := by
      rw [Nat.cast_sub ha.le]
      push_cast
      ring
    rw [hvalue, hvalue', hbelow, habove, abs_neg, Nat.abs_cast, Nat.abs_cast,
      Nat.cast_le] at hclosest
    omega

/-- **Hexadecimal numbers.** The digits of a number in the range denote the same double in both
bases, which is the nearest one, unless the number is misread. Then the hexadecimal digits denote
the double before it. -/
theorem hexadecimal_nearest {x : Char} {ds cs : List Char} (hn : n < 2 ^ 1023)
    (hx : x = 'x' ∨ x = 'X') (hds : Spells 16 n ds) (hcs : Spells 10 n cs) :
    ∃ y z, ofLiteral? (String.ofList ('0' :: x :: ds)) = some y ∧
      ofLiteral? (String.ofList cs) = some z ∧
      z.Nearest n ∧ (¬ Misread n → y = z) ∧ (Misread n → y.Preceding n ∧ ¬ y.Nearest n) := by
  obtain ⟨f, hfold, hf⟩ := folded_hexFold? hds
  refine ⟨ofNat f, ofNat n, ?_, ofLiteral?_natural hn hcs, nearest_ofNat hn, fun hread => ?_,
    fun hread => ?_⟩
  · rw [ofLiteral?_hexadecimal hx, hfold]
    rfl
  · rw [hf.eq_roundTo53 hread, ofNat_roundTo53]
  · exact hread.preceding hf hn

/-- The first fourteen digits are odd, and they are halfway between two doubles. -/
theorem hexadecimal_nearest_halfway : Misread 0x3ffffffffffffd01 ∧
    ∃ y z, ofLiteral? (String.ofList ('0' :: 'X' :: "3ffffffffffffd01".toList)) = some y ∧
      ofLiteral? (String.ofList "4611686018427387137".toList) = some z ∧
      z.Nearest 0x3ffffffffffffd01 ∧
      y.Preceding 0x3ffffffffffffd01 ∧ ¬ y.Nearest 0x3ffffffffffffd01 := by
  have hmisread : Misread 0x3ffffffffffffd01 :=
    @Misread.intro (2 ^ 53 - 2) 0 2 1 (by decide) (by decide) (by decide) (by decide)
      (by decide) (by decide)
  have hds : Spells 16 0x3ffffffffffffd01 "3ffffffffffffd01".toList :=
    spells_of_toDigits (by decide) (by decide) (by decide +kernel)
  have hcs : Spells 10 0x3ffffffffffffd01 "4611686018427387137".toList :=
    spells_of_toDigits (by decide) (by decide) (by decide +kernel)
  obtain ⟨y, z, hy, hz, hnearest, -, hmisread'⟩ :=
    hexadecimal_nearest (by decide +kernel) (.inr rfl) hds hcs
  exact ⟨hmisread, y, z, hy, hz, by exact_mod_cast hnearest, by exact_mod_cast hmisread' hmisread⟩

/-- One more than halfway between two doubles, of which the decimal number is the upper one and the
hexadecimal number the lower one. -/
theorem hexadecimal_ne_decimal :
    Spells 16 1152921504606847105 "1000000000000081".toList ∧
    Spells 10 1152921504606847105 "1152921504606847105".toList ∧
    ofLiteral? "0x1000000000000081" = some ⟨0x43b0000000000000⟩ ∧
    ofLiteral? "1152921504606847105" = some ⟨0x43b0000000000001⟩ ∧
    ¬ (⟨0x43b0000000000000⟩ : Double).Nearest 1152921504606847105 := by
  refine ⟨spells_of_toDigits (by decide) (by decide) (by decide +kernel),
    spells_of_toDigits (by decide) (by decide)
      (by decide +kernel), by decide +kernel, by decide +kernel,
    fun hnearest => ?_⟩
  have hbelow : (⟨0x43b0000000000000⟩ : Double).value = 1152921504606846976 := by
    rw [value, show signed ⟨0x43b0000000000000⟩ = 2 ^ 52 by decide,
      show scale ⟨0x43b0000000000000⟩ = 8 by decide]
    norm_num
  have habove : (⟨0x43b0000000000001⟩ : Double).value = 1152921504606847232 := by
    rw [value, show signed ⟨0x43b0000000000001⟩ = 2 ^ 52 + 1 by decide,
      show scale ⟨0x43b0000000000001⟩ = 8 by decide]
    norm_num
  have hclosest := hnearest.closest ⟨0x43b0000000000001⟩ (by decide)
  rw [hbelow, habove] at hclosest
  norm_num at hclosest

end Double

end ScriptMachine
