import Mathlib.Data.Int.Log
import Mathlib.Data.Rat.Floor

/-! Rounding to binary floating-point numbers.

A format has a precision and a least exponent. A rational is rounded to the nearest
multiple of the quantum of its binade, and to the even one of two that are equally near.
There is no greatest exponent: results that overflow are not rounded to infinity.
-/

set_option autoImplicit false

namespace Rounding

/-! ## Integers -/

/-- The nearest integer, and the even one of two. -/
def nearestEven (x : ℚ) : ℤ :=
  if Int.fract x < 1 / 2 then ⌊x⌋
  else if 1 / 2 < Int.fract x then ⌊x⌋ + 1
  else if 2 ∣ ⌊x⌋ then ⌊x⌋
  else ⌊x⌋ + 1

theorem nearestEven_intCast (z : ℤ) : nearestEven z = z := by
  simp [nearestEven]

theorem floor_le_nearestEven (x : ℚ) : ⌊x⌋ ≤ nearestEven x := by
  unfold nearestEven
  split_ifs <;> omega

theorem nearestEven_le_succ_floor (x : ℚ) : nearestEven x ≤ ⌊x⌋ + 1 := by
  unfold nearestEven
  split_ifs <;> omega

theorem nearestEven_mono {x y : ℚ} (less : x ≤ y) : nearestEven x ≤ nearestEven y := by
  have floors := Int.floor_le_floor less
  rcases floors.lt_or_eq with below | same
  · exact (nearestEven_le_succ_floor x).trans (le_trans below (floor_le_nearestEven y))
  · -- between two integers the fractions decide
    have fracts : Int.fract x ≤ Int.fract y := by
      unfold Int.fract
      rw [same]
      exact sub_le_sub_right less _
    unfold nearestEven
    rw [same]
    split_ifs <;> first | omega | linarith

theorem sub_half_le_nearestEven (x : ℚ) : x - 1 / 2 ≤ nearestEven x := by
  have parts := Int.floor_add_fract x
  have below := Int.fract_lt_one x
  unfold nearestEven
  split_ifs <;> push_cast <;> linarith

/-! ## Formats -/

structure Format where
  /-- The digits of a significand. -/
  precision : ℕ
  minExponent : ℤ
  positive : 0 < precision

namespace Format
variable (f : Format) {x y : ℚ}

def exponent (x : ℚ) : ℤ := max (Int.log 2 |x|) f.minExponent

/-- The distance of neighbouring numbers around `x`. -/
def quantum (x : ℚ) : ℚ := 2 ^ (f.exponent x - (f.precision - 1))

def round (x : ℚ) : ℚ := nearestEven (x / f.quantum x) * f.quantum x

theorem quantum_pos (x : ℚ) : 0 < f.quantum x := zpow_pos (by norm_num) _

/-- A power of two that is not below the quantum is a multiple of it. -/
theorem two_zpow_div_quantum {e : ℤ} (large : f.exponent x - (f.precision - 1) ≤ e) :
    ∃ z : ℤ, (2 : ℚ) ^ e / f.quantum x = z := by
  obtain ⟨n, eq⟩ := Int.le.dest large
  refine ⟨2 ^ n, ?_⟩
  rw [quantum, ← zpow_sub₀ (by norm_num), ← eq]
  push_cast
  rw [add_sub_cancel_left, zpow_natCast]

theorem round_le_two_zpow {e : ℤ} (large : f.exponent x - (f.precision - 1) ≤ e) (bound : x ≤ 2 ^ e) : f.round x ≤ 2 ^ e := by
  obtain ⟨z, eq⟩ := f.two_zpow_div_quantum large
  have scaled : x / f.quantum x ≤ z := eq ▸ div_le_div_of_nonneg_right bound (f.quantum_pos x).le
  have rounded : nearestEven (x / f.quantum x) ≤ z := nearestEven_intCast z ▸ nearestEven_mono scaled
  rw [div_eq_iff (f.quantum_pos x).ne'] at eq
  rw [round, eq]
  exact mul_le_mul_of_nonneg_right (by exact_mod_cast rounded) (f.quantum_pos x).le

theorem two_zpow_le_round {e : ℤ} (large : f.exponent x - (f.precision - 1) ≤ e) (bound : 2 ^ e ≤ x) : 2 ^ e ≤ f.round x := by
  obtain ⟨z, eq⟩ := f.two_zpow_div_quantum large
  have scaled : z ≤ x / f.quantum x := eq ▸ div_le_div_of_nonneg_right bound (f.quantum_pos x).le
  have rounded : z ≤ nearestEven (x / f.quantum x) := nearestEven_intCast z ▸ nearestEven_mono scaled
  rw [div_eq_iff (f.quantum_pos x).ne'] at eq
  rw [round, eq]
  exact mul_le_mul_of_nonneg_right (by exact_mod_cast rounded) (f.quantum_pos x).le

theorem round_nonneg (sign : 0 ≤ x) : 0 ≤ f.round x := by
  have scaled : ((0 : ℤ) : ℚ) ≤ x / f.quantum x := by
    rw [Int.cast_zero]
    exact div_nonneg sign (f.quantum_pos x).le
  have rounded : 0 ≤ nearestEven (x / f.quantum x) := nearestEven_intCast 0 ▸ nearestEven_mono scaled
  exact mul_nonneg (by exact_mod_cast rounded) (f.quantum_pos x).le

theorem round_zero : f.round 0 = 0 := by
  rw [round, zero_div, show nearestEven 0 = 0 from nearestEven_intCast 0, Int.cast_zero, zero_mul]

/-- Rounding loses at most half a quantum, which is a small part of the number itself. -/
theorem sub_le_round (normal : (2 : ℚ) ^ f.minExponent ≤ x) : x - x / 2 ^ f.precision ≤ f.round x := by
  have positive : 0 < x := lt_of_lt_of_le (zpow_pos (by norm_num) _) normal
  have log : f.minExponent ≤ Int.log 2 x := by
    have powers := Int.log_mono_right (b := 2) (zpow_pos (by norm_num) _) normal
    rwa [show (2 : ℚ) = ((2 : ℕ) : ℚ) from rfl, Int.log_zpow (by norm_num)] at powers
  have quantum : f.quantum x ≤ 2 * (x / 2 ^ f.precision) := by
    have binade : (2 : ℚ) ^ Int.log 2 x ≤ x := by exact_mod_cast Int.zpow_log_le_self (by norm_num : 1 < 2) positive
    have exponent : f.exponent x = Int.log 2 x := by
      rw [Format.exponent, abs_of_pos positive, max_eq_left log]
    have split : f.quantum x = 2 * (2 ^ Int.log 2 x / 2 ^ f.precision) := by
      rw [Format.quantum, exponent, ← zpow_natCast, ← zpow_sub₀ (by norm_num), ← zpow_one_add₀ (by norm_num)]
      congr 1
      ring
    rw [split]
    gcongr
  have rounded := mul_le_mul_of_nonneg_right (sub_half_le_nearestEven (x / f.quantum x)) (f.quantum_pos x).le
  rw [sub_mul, div_mul_cancel₀ _ (f.quantum_pos x).ne'] at rounded
  unfold round
  linarith

theorem round_mono (sign : 0 ≤ x) (less : x ≤ y) : f.round x ≤ f.round y := by
  -- rounding keeps the order
  rcases sign.eq_or_lt with rfl | positive
  · rw [round_zero]
    exact f.round_nonneg less
  have digits := f.positive
  have logs : Int.log 2 |x| ≤ Int.log 2 |y| := by
    rw [abs_of_pos positive, abs_of_pos (positive.trans_le less)]
    exact Int.log_mono_right positive less
  have exponents : f.exponent x ≤ f.exponent y := max_le_max logs le_rfl
  rcases exponents.lt_or_eq with below | same
  · -- the power of two at the bottom of the binade of `y` lies between them
    have binade : f.exponent y = Int.log 2 |y| := by
      unfold exponent at below ⊢
      omega
    have low : x ≤ 2 ^ f.exponent y := by
      have next : Int.log 2 |x| + 1 ≤ f.exponent y := lt_of_le_of_lt (le_max_left _ _) below
      have inside := Int.lt_zpow_succ_log_self (by norm_num : 1 < 2) |x|
      rw [abs_of_pos positive] at inside next
      exact inside.le.trans (zpow_le_zpow_right₀ (by norm_num) next)
    have high : 2 ^ f.exponent y ≤ y := by
      rw [binade, abs_of_pos (positive.trans_le less)]
      exact_mod_cast Int.zpow_log_le_self (by norm_num : 1 < 2) (positive.trans_le less)
    exact (f.round_le_two_zpow (by omega) low).trans (f.two_zpow_le_round (by omega) high)
  · unfold round quantum
    rw [same]
    have quantum : (0 : ℚ) < 2 ^ (f.exponent y - (f.precision - 1)) := zpow_pos (by norm_num) _
    have rounded := nearestEven_mono (div_le_div_of_nonneg_right less quantum.le)
    exact mul_le_mul_of_nonneg_right (by exact_mod_cast rounded) quantum.le

theorem round_one (normal : f.minExponent ≤ 0) : f.round 1 = 1 := by
  have digits := f.positive
  have exponent : f.exponent 1 = 0 := by
    rw [Format.exponent, abs_one, Int.log_one_right]
    exact max_eq_left normal
  have large : f.exponent 1 - (f.precision - 1) ≤ 0 := by omega
  apply le_antisymm
  · simpa using f.round_le_two_zpow large (by norm_num)
  · simpa using f.two_zpow_le_round large (by norm_num)

/-- An integer that is not longer than a significand is a number of the format. -/
theorem round_natCast {n : ℕ} (normal : f.minExponent ≤ 0) (short : n < 2 ^ f.precision) : f.round n = n := by
  have digits := f.positive
  have log : Int.log 2 |(n : ℚ)| < f.precision := by
    rw [Nat.abs_cast, Int.log_natCast]
    exact_mod_cast Nat.log_lt_of_lt_pow' (by omega) short
  have large : f.exponent (n : ℚ) - (f.precision - 1) ≤ 0 := by
    unfold exponent
    omega
  obtain ⟨z, eq⟩ := f.two_zpow_div_quantum large
  rw [zpow_zero] at eq
  have whole : (n : ℚ) / f.quantum n = (n * z : ℤ) := by
    push_cast
    rw [← eq]
    ring
  rw [round, whole, nearestEven_intCast, ← whole, div_mul_cancel₀ _ (f.quantum_pos _).ne']

/-- A quotient of rounded numbers, the greater below, is rounded into the unit interval. -/
theorem round_div_mem (normal : f.minExponent ≤ 0) (sign : 0 ≤ x) (less : x ≤ y) :
    0 ≤ f.round (f.round x / f.round y) ∧ f.round (f.round x / f.round y) ≤ 1 := by
  have quotient : 0 ≤ f.round x / f.round y := div_nonneg (f.round_nonneg sign) (f.round_nonneg (sign.trans less))
  refine ⟨f.round_nonneg quotient, ?_⟩
  calc f.round (f.round x / f.round y) ≤ f.round 1 :=
        f.round_mono quotient (div_le_one_of_le₀ (f.round_mono sign less) (f.round_nonneg (sign.trans less)))
    _ = 1 := f.round_one normal

end Format

/-- Numbers of 53 digits. -/
def binary64 : Format := ⟨53, -1022, by decide⟩

/-- The nearest `double`. -/
def double (x : ℚ) : ℚ := binary64.round x

theorem double_natCast {n : ℕ} (short : n < 2 ^ 53) : double n = n := binary64.round_natCast (by decide) short

theorem sub_le_double {x : ℚ} (normal : 2 ^ (-1022 : ℤ) ≤ x) : x - x / 2 ^ 53 ≤ double x := binary64.sub_le_round normal

-- a third and its triple
example : double (1 / 3) < 1 / 3 ∧ double (double (1 / 3) * 3) = 1 := by decide +kernel

end Rounding
