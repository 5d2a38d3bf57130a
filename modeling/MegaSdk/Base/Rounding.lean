/-
  File:      MegaSdk/Base/Rounding.lean
  Subject:   ARITHMETIC THAT IS ROUNDED TO A NUMBER OF BITS. No program fact.

  * `Format` -- a rounding that is exact on numbers of `prec` bits, with a bounded relative error;
  * `Format.nearest` -- to the nearest number of `p` bits, a half to an even one;
  * `rnd_div_injective` -- rounded quotients of small integers tell them apart.
-/
import Mathlib

namespace Base

structure Format where
  prec : ℕ
  rnd : ℚ → ℚ
  exact : ∀ (n : ℤ) (k : ℕ), |n| < 2 ^ prec → rnd (n / 2 ^ k) = n / 2 ^ k
  error : ∀ x, |rnd x - x| ≤ |x| / 2 ^ prec

namespace Format

/-! ## 1. To the nearest -/

def roundEven (x : ℚ) : ℤ := if Int.fract x = 1 / 2 then 2 * ((⌊x⌋ + 1) / 2) else round x

theorem abs_roundEven_sub (x : ℚ) : |roundEven x - x| ≤ 1 / 2 := by
  unfold roundEven
  split_ifs with h
  · have hx : x = ⌊x⌋ + 1 / 2 := by rw [← h, Int.floor_add_fract]
    rcases Int.even_or_odd' ⌊x⌋ with ⟨k, hk | hk⟩
    · have hdiv : (⌊x⌋ + 1) / 2 = k := by omega
      rw [hdiv, hx, hk]
      push_cast
      rw [abs_le]
      constructor <;> linarith
    · have hdiv : (⌊x⌋ + 1) / 2 = k + 1 := by omega
      rw [hdiv, hx, hk]
      push_cast
      rw [abs_le]
      constructor <;> linarith
  · rw [abs_sub_comm]
    exact abs_sub_round x

theorem roundEven_intCast (n : ℤ) : roundEven n = n := by
  simp [roundEven]

/-- What the last of `p` bits of `x` is worth. -/
def ulp (p : ℕ) (x : ℚ) : ℚ := 2 ^ (Int.log 2 |x| + 1 - p)

theorem ulp_pos (p : ℕ) (x : ℚ) : 0 < ulp p x := by
  unfold ulp
  positivity

/-- A number of `p` bits is a multiple of what its last bit is worth. -/
theorem div_ulp_eq_intCast {p : ℕ} {n : ℤ} (k : ℕ) (hn : |n| < 2 ^ p) :
    ∃ m : ℤ, (n / 2 ^ k : ℚ) / ulp p (n / 2 ^ k) = m := by
  rcases eq_or_ne n 0 with rfl | h0
  · exact ⟨0, by simp⟩
  have habs : |(n / 2 ^ k : ℚ)| = |n| / 2 ^ k := by
    rw [abs_div, abs_of_pos (by positivity : (0 : ℚ) < 2 ^ k), Int.cast_abs]
  -- the first bit of `n / 2 ^ k` is the one of `n`, moved by `k`
  have hlog : Int.log 2 |(n / 2 ^ k : ℚ)| + k < p := by
    have hle := Int.zpow_log_le_self (b := 2) (by norm_num)
      (abs_pos.2 (by positivity : (n / 2 ^ k : ℚ) ≠ 0))
    rw [Nat.cast_ofNat, habs, le_div_iff₀ (by positivity)] at hle
    have hlt : (2 : ℚ) ^ (Int.log 2 |(n / 2 ^ k : ℚ)| + k) < 2 ^ (p : ℤ) := by
      rw [zpow_add₀ two_ne_zero, habs]
      exact lt_of_le_of_lt (by exact_mod_cast hle) (by exact_mod_cast hn)
    exact (zpow_lt_zpow_iff_right₀ one_lt_two).1 hlt
  obtain ⟨j, hj⟩ := Int.le.dest (Int.add_one_le_iff.2 hlog)
  refine ⟨n * 2 ^ j, ?_⟩
  have hu : Int.log 2 |(n / 2 ^ k : ℚ)| + 1 - p = -(k + j : ℕ) := by
    push_cast
    omega
  rw [ulp, hu, zpow_neg, zpow_natCast, pow_add]
  push_cast
  field_simp

/-- The nearest number of `p` bits. -/
def nearest (p : ℕ) : Format where
  prec := p
  rnd x := ulp p x * roundEven (x / ulp p x)
  exact n k hn := by
    obtain ⟨m, hm⟩ := div_ulp_eq_intCast k hn
    rw [hm, roundEven_intCast, ← hm, mul_div_cancel₀ _ (ulp_pos p _).ne']
  error x := by
    have hu := ulp_pos p x
    have hle : ulp p x ≤ 2 * |x| / 2 ^ p ∨ x = 0 := by
      rcases eq_or_ne x 0 with h0 | h0
      · exact .inr h0
      have hlog := Int.zpow_log_le_self (b := 2) (by norm_num) (abs_pos.2 h0)
      left
      rw [ulp, zpow_sub₀ two_ne_zero, zpow_add_one₀ two_ne_zero, zpow_natCast, mul_comm]
      gcongr
      exact_mod_cast hlog
    rcases hle with hle | rfl
    · calc |ulp p x * roundEven (x / ulp p x) - x|
          = ulp p x * |roundEven (x / ulp p x) - x / ulp p x| := by
            rw [← abs_of_pos hu, ← abs_mul, abs_of_pos hu, mul_sub, mul_div_cancel₀ _ hu.ne']
        _ ≤ ulp p x * (1 / 2) := mul_le_mul_of_nonneg_left (abs_roundEven_sub _) hu.le
        _ ≤ 2 * |x| / 2 ^ p * (1 / 2) := mul_le_mul_of_nonneg_right hle (by norm_num)
        _ = |x| / 2 ^ p := by ring
    · have h0 : roundEven 0 = 0 := roundEven_intCast 0
      simp [h0]

/-! ## 2. Integers -/

variable (f : Format)

theorem rnd_intCast {n : ℤ} (h : |n| < 2 ^ f.prec) : f.rnd n = n := by
  simpa using f.exact n 0 h

variable {a b t : ℤ} (ht : 0 < t)
include ht

theorem abs_rnd_div_sub (ha : 0 ≤ a) : |f.rnd (a / t) - a / t| ≤ a / t / 2 ^ f.prec := by
  have h := f.error (a / t)
  have hpos : (0 : ℚ) ≤ a / t := by positivity
  rwa [abs_of_nonneg hpos] at h

/-- **A rounded quotient tells the numerators apart.** -/
theorem rnd_div_injective (ha : 0 ≤ a) (hb : 0 ≤ b) (h : a + b < 2 ^ f.prec)
    (he : f.rnd (a / t) = f.rnd (b / t)) : a = b := by
  have ht' : (0 : ℚ) < t := by exact_mod_cast ht
  have h1 := f.abs_rnd_div_sub ht ha
  have h2 := f.abs_rnd_div_sub ht hb
  have hdist : |(a : ℚ) / t - b / t| < 1 / t := by
    calc |(a : ℚ) / t - b / t|
        ≤ |f.rnd (a / t) - a / t| + |f.rnd (b / t) - b / t| := by
          rw [he, abs_sub_comm _ ((a : ℚ) / t)]
          exact abs_sub_le _ _ _
      _ ≤ (a + b : ℤ) / t / 2 ^ f.prec := by
          push_cast
          rw [add_div, add_div]
          exact add_le_add h1 h2
      _ < 1 / t := by
          rw [div_div, div_lt_div_iff₀ (by positivity) ht', one_mul, mul_comm]
          gcongr
          exact_mod_cast h
  rw [← sub_div, abs_div, abs_of_pos ht', div_lt_div_iff_of_pos_right ht'] at hdist
  have hlt : |a - b| < 1 := by exact_mod_cast hdist
  exact sub_eq_zero.1 (Int.abs_lt_one_iff.1 hlt)

end Format

end Base
