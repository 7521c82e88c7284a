import Mathlib.Algebra.Order.Field.Rat
import Mathlib.Algebra.Order.Field.Power
import Mathlib.Tactic.Ring
import ScriptMachine.Number.Double
/-!
# The numbers that doubles are

A finite double is a rational number: its significand, taken with its sign, times a power of two.

* `Double.value`: that number;
* `Double.toInt?_eq_some_iff`: **a double is read as an integer exactly if it is finite and its
  value is that integer**.
-/

namespace ScriptMachine

namespace Double

variable {x : Double} {n : Int}

/-- The significand with the sign of the double. -/
def signed (x : Double) : Int := if x.isNegative then -x.significand else x.significand

/-- The number that a finite double is. -/
def value (x : Double) : ℚ := x.signed * 2 ^ x.scale

/-- A power of two is a quotient of two whole ones, and one of these is `1`. -/
theorem two_zpow_eq_div (e : Int) : (2 : ℚ) ^ e = 2 ^ e.toNat / 2 ^ (-e).toNat := by
  rw [← zpow_natCast, ← zpow_natCast, ← zpow_sub₀ two_ne_zero]
  congr 1
  omega

theorem value_eq_iff : x.value = n ↔ x.signed * 2 ^ x.scale.toNat = n * 2 ^ (-x.scale).toNat := by
  have hpos : (2 : ℚ) ^ (-x.scale).toNat ≠ 0 := pow_ne_zero _ two_ne_zero
  rw [value, two_zpow_eq_div, ← mul_div_assoc, div_eq_iff hpos]
  exact_mod_cast Iff.rfl

theorem unit_dvd_signed_iff (unit : Nat) : (unit : Int) ∣ x.signed ↔ x.significand % unit = 0 := by
  unfold signed
  split <;> simp [Int.natCast_dvd_natCast, Nat.dvd_iff_mod_eq_zero]

/-- The quotient keeps the sign. -/
theorem signed_eq_mul {unit : Nat} (h : x.significand % unit = 0) :
    x.signed = (if x.isNegative then -(x.significand / unit : Nat)
      else (x.significand / unit : Nat) : Int) * unit := by
  have hmul : x.significand / unit * unit = x.significand :=
    Nat.div_mul_cancel (Nat.dvd_of_mod_eq_zero h)
  have hcast : ((x.significand / unit : Nat) : Int) * unit = x.significand := by exact_mod_cast hmul
  unfold signed
  split
  · rw [neg_mul, hcast]
  · rw [hcast]

/-- A double that is an integer has no fraction to cut off. -/
theorem unit_dvd_of_value_eq (h : x.value = n) : x.significand % 2 ^ (-x.scale).toNat = 0 := by
  rw [← unit_dvd_signed_iff]
  rw [value_eq_iff] at h
  obtain hscale | hscale := Int.le_total 0 x.scale
  · rw [Int.toNat_of_nonpos (by omega)]
    simp
  · rw [Int.toNat_of_nonpos hscale, pow_zero, mul_one] at h
    exact ⟨n, by rw [h, mul_comm]; norm_cast⟩

/-- A double is read as an integer exactly if it is finite and its value is that integer. -/
theorem toInt?_eq_some_iff : x.toInt? = some n ↔ x.isFinite = true ∧ x.value = n := by
  unfold toInt?
  cases hfinite : x.isFinite with
  | false => simp
  | true =>
    simp only [Nat.pow_eq, Bool.not_true, Bool.false_eq_true, if_false, true_and]
    split
    · rename_i hmod
      have hunit : (2 : Int) ^ (-x.scale).toNat ≠ 0 := pow_ne_zero _ two_ne_zero
      rw [value_eq_iff, signed_eq_mul hmod, Option.some_inj]
      push_cast
      rw [mul_right_comm, mul_left_inj' hunit]
      split <;> simp
    · rename_i hmod
      simp only [reduceCtorEq, false_iff]
      exact fun hvalue => hmod (unit_dvd_of_value_eq hvalue)

end Double

end ScriptMachine
