import Mathlib.Algebra.Order.Field.Power
import Mathlib.Data.Int.Log
import Mathlib.Data.Rat.Floor
import Mathlib.Tactic.FieldSimp
import Mathlib.Tactic.Positivity

/-!
# Binary64

Magnitudes of binary64 numbers as words of 63 bits, the number a word stands
for, and the word nearest to a rational, ties to even. Words from `infinity` on
are not finite.
-/
namespace Binary64

/-- The word of the infinite magnitude; those above are not numbers. -/
def infinity : ℕ := 0x7FF * 2 ^ 52

/-- The mantissa with its hidden bit. -/
def mantissa (w : ℕ) : ℕ := w % 2 ^ 52 + if w / 2 ^ 52 = 0 then 0 else 2 ^ 52

/-- The exponent of the last bit of the mantissa; subnormal words have that of the least normal ones. -/
def scale (w : ℕ) : ℤ := max (w / 2 ^ 52 : ℕ) 1 - 1075

def value (w : ℕ) : ℚ := mantissa w * 2 ^ scale w

/-- The nearest integer, the even one of two. -/
def roundEven (x : ℚ) : ℤ :=
  if 1 / 2 < x - ⌊x⌋ ∨ x - ⌊x⌋ = 1 / 2 ∧ ⌊x⌋ % 2 = 1 then ⌊x⌋ + 1 else ⌊x⌋

/-- The word nearest to a magnitude; from half an ulp above the largest finite number on it is
`infinity`. A mantissa that is rounded up to the next power of two carries into the exponent. -/
def nearest (x : ℚ) : ℕ :=
  if x = 0 then 0 else
    let p := max (Int.log 2 x) (-1022) - 52
    min infinity ((p + 1074).toNat * 2 ^ 52 + (roundEven (x / 2 ^ p)).toNat)

@[simp] theorem roundEven_natCast (n : ℕ) : roundEven n = n := by
  simp [roundEven]

variable {w : ℕ}

theorem mantissa_eq_zero (hm : mantissa w = 0) : w = 0 := by
  have hsum := Nat.add_eq_zero_iff.mp hm
  by_cases hw : w / 2 ^ 52 = 0
  · omega
  · rw [if_neg hw] at hsum
    exact absurd hsum.2 (by norm_num)

theorem mantissa_lt (w : ℕ) : mantissa w < 2 ^ 53 := by
  unfold mantissa
  split_ifs <;> omega

/-- The finite numbers but zero lie between these powers of two. -/
theorem value_bounds (h0 : 0 < w) (hw : w < infinity) :
    (2 : ℚ) ^ (-1074 : ℤ) ≤ value w ∧ value w < 2 ^ (1024 : ℤ) := by
  have hm : 1 ≤ mantissa w := Nat.pos_of_ne_zero fun h => h0.ne' (mantissa_eq_zero h)
  have hscale : -1074 ≤ scale w ∧ scale w ≤ 971 := by
    unfold scale
    unfold infinity at hw
    omega
  constructor
  · calc (2 : ℚ) ^ (-1074 : ℤ) ≤ 2 ^ scale w := zpow_le_zpow_right₀ (by norm_num) hscale.1
      _ ≤ value w := le_mul_of_one_le_left (by positivity) (by exact_mod_cast hm)
  · calc value w < 2 ^ (53 : ℤ) * 2 ^ scale w :=
          mul_lt_mul_of_pos_right (by exact_mod_cast mantissa_lt w) (by positivity)
      _ = 2 ^ (53 + scale w) := (zpow_add₀ (by norm_num) _ _).symm
      _ ≤ 2 ^ (1024 : ℤ) := zpow_le_zpow_right₀ (by norm_num) (by omega)

/-- The exponent that `nearest` rounds at is the one of the word. -/
theorem log_value (hw : w ≠ 0) : max (Int.log 2 (value w)) (-1022) - 52 = scale w := by
  have hpos : 0 < value w := by
    have hm : 0 < mantissa w := Nat.pos_of_ne_zero fun h => hw (mantissa_eq_zero h)
    unfold value
    positivity
  have hupper : value w < (2 : ℕ) ^ (scale w + 53) := by
    rw [zpow_add₀ (by norm_num), value, mul_comm]
    exact mul_lt_mul_of_pos_left (by exact_mod_cast mantissa_lt w) (by positivity)
  have hlog : Int.log 2 (value w) < scale w + 53 :=
    (Int.lt_zpow_iff_log_lt (by norm_num) hpos).mp hupper
  by_cases hsub : w / 2 ^ 52 = 0
  · have hmant : mantissa w < 2 ^ 52 := by
      rw [mantissa, if_pos hsub]
      omega
    have hscale : scale w = -1074 := by
      rw [scale, hsub]
      rfl
    have hsmall : value w < (2 : ℕ) ^ (-1022 : ℤ) := by
      rw [value, hscale, show (-1022 : ℤ) = 52 + -1074 by norm_num, zpow_add₀ (by norm_num)]
      exact mul_lt_mul_of_pos_right (by exact_mod_cast hmant) (by positivity)
    have hlow := (Int.lt_zpow_iff_log_lt (by norm_num) hpos).mp hsmall
    omega
  · have hmant : 2 ^ 52 ≤ mantissa w := by
      rw [mantissa, if_neg hsub]
      omega
    have hlower : ((2 : ℕ) : ℚ) ^ (scale w + 52) ≤ value w := by
      rw [zpow_add₀ (by norm_num), value, mul_comm]
      exact mul_le_mul_of_nonneg_right (by exact_mod_cast hmant) (by positivity)
    have hlow := (Int.zpow_le_iff_le_log (by norm_num) hpos).mp hlower
    have hscale : -1074 ≤ scale w := by
      unfold scale
      omega
    omega

/-- A finite word is nearest to the number it stands for. -/
theorem nearest_value (hw : w < infinity) : nearest (value w) = w := by
  by_cases h : w = 0
  · subst h
    simp [nearest, value, mantissa]
  have hne : value w ≠ 0 := by
    have hm : mantissa w ≠ 0 := fun hm => h (mantissa_eq_zero hm)
    exact mul_ne_zero (by exact_mod_cast hm) (by positivity)
  have hdiv : value w / 2 ^ scale w = (mantissa w : ℕ) := by
    rw [value, mul_div_assoc, div_self (by positivity), mul_one]
  simp only [nearest, if_neg hne, log_value h, hdiv, roundEven_natCast, Int.toNat_natCast]
  have hword : (scale w + 1074).toNat * 2 ^ 52 + mantissa w = w := by
    unfold scale mantissa
    split_ifs <;> omega
  rw [hword]
  exact min_eq_right hw.le

end Binary64
