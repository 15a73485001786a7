import Mathlib.Data.Int.Log
import Mathlib.Data.Rat.Floor
import Mathlib.Tactic.Linarith

/-!
# Machinery/Binary32 — rounding to single precision

The value of a single-precision number is a rational.  An operation rounds its exact result to a
multiple of the unit in the last place, 24 binary digits down from the leading one but not below
`2 ^ (-149)`; of two equally near multiples it takes the even one.  Results too large for the format
are not treated.

A number of at most 24 binary digits is its own rounding (`round_eq_self`).
-/

namespace Binary32

/-- The exponent of the last place. -/
def lastPlace (q : ℚ) : ℤ := max (-149) (Int.log 2 |q| - 23)

/-- The nearest integer; of two, the even one. -/
def nearest (q : ℚ) : ℤ :=
  if q - ⌊q⌋ < 1 / 2 then ⌊q⌋
  else if 1 / 2 < q - ⌊q⌋ then ⌊q⌋ + 1
  else if ⌊q⌋ % 2 = 0 then ⌊q⌋ else ⌊q⌋ + 1

/-- Rounding to nearest, ties to even. -/
def round (q : ℚ) : ℚ := nearest (q / 2 ^ lastPlace q) * 2 ^ lastPlace q

/-- Conversion of an integer. -/
def ofInt (z : ℤ) : ℚ := round z

/-- Division. -/
def div (x y : ℚ) : ℚ := round (x / y)

theorem nearest_intCast (z : ℤ) : nearest z = z := by
  rw [nearest, Int.floor_intCast, sub_self, if_pos (by norm_num)]

/-- A multiple of the unit in its last place stays as it is. -/
theorem round_eq_self_of_dvd {q : ℚ} {z : ℤ} (h : q = z * 2 ^ lastPlace q) : round q = q := by
  have hunit : (2 : ℚ) ^ lastPlace q ≠ 0 := zpow_ne_zero _ two_ne_zero
  have hquot : q / 2 ^ lastPlace q = z := (div_eq_iff hunit).mpr h
  rw [round, hquot, nearest_intCast, ← h]

/-- **Numbers of 24 digits are exact.** -/
theorem round_eq_self {m e : ℤ} (hm : |m| < 2 ^ 24) (he : -149 ≤ e) :
    round (m * 2 ^ e) = m * 2 ^ e := by
  rcases eq_or_ne m 0 with rfl | h0
  · exact round_eq_self_of_dvd (z := 0) (by simp)
  have hpos : (0 : ℚ) < |(m * 2 ^ e : ℚ)| :=
    abs_pos.mpr (mul_ne_zero (Int.cast_ne_zero.mpr h0) (zpow_ne_zero _ two_ne_zero))
  have hlog : Int.log 2 |(m * 2 ^ e : ℚ)| < 24 + e := by
    have hunit : |(2 : ℚ) ^ e| = 2 ^ e := abs_of_pos (zpow_pos two_pos e)
    rw [← Int.lt_zpow_iff_log_lt one_lt_two hpos, abs_mul, hunit, Nat.cast_ofNat,
      zpow_add₀ two_ne_zero]
    refine mul_lt_mul_of_pos_right ?_ (zpow_pos two_pos e)
    exact_mod_cast hm
  have hle : lastPlace (m * 2 ^ e) ≤ e := max_le he (by omega)
  refine round_eq_self_of_dvd (z := m * 2 ^ (e - lastPlace (m * 2 ^ e)).toNat) ?_
  have hexp : ((e - lastPlace (m * 2 ^ e)).toNat : ℤ) = e - lastPlace (m * 2 ^ e) :=
    Int.toNat_of_nonneg (by omega)
  rw [Int.cast_mul, Int.cast_pow, Int.cast_ofNat, mul_assoc, ← zpow_natCast, hexp,
    ← zpow_add₀ two_ne_zero, sub_add_cancel]

/-- Powers of two are exact. -/
theorem round_zpow {e : ℤ} (he : -149 ≤ e) : round (2 ^ e) = 2 ^ e := by
  have h := round_eq_self (m := 1) (by norm_num) he
  rwa [Int.cast_one, one_mul] at h

theorem div_ofInt_two_pow {k : ℕ} (hk : k ≤ 149) : div 1 (ofInt (2 ^ k)) = 1 / 2 ^ k := by
  have hpow : ofInt (2 ^ k) = 2 ^ k := by
    have h := round_zpow (e := k) (by omega)
    rw [zpow_natCast] at h
    rw [ofInt, Int.cast_pow, Int.cast_ofNat, h]
  have hinv := round_zpow (e := -k) (by omega)
  rw [zpow_neg, zpow_natCast] at hinv
  rw [hpow, div, one_div, hinv]

end Binary32
