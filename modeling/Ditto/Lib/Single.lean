-- Rounding to the nearest float of single precision, with ties to even, for
-- numbers in the range of the normal floats. A natural number of at most 24
-- bits is such a float.
import Ditto.Lib.Double

/-- The weight of the last bit of a float of this size. -/
def lastBitSingle (q : ℚ) : ℚ := 2 ^ (Int.log 2 |q| - 23)

/-- The nearest float. -/
def toSingle (q : ℚ) : ℚ :=
  if q = 0 then 0 else roundEven (q / lastBitSingle q) * lastBitSingle q

theorem lastBitSingle_pos (q : ℚ) : 0 < lastBitSingle q := zpow_pos (by norm_num) _

theorem toSingle_of_multiple {q : ℚ} {z : ℤ} (h : q = z * lastBitSingle q) : toSingle q = q := by
  unfold toSingle
  split
  · rename_i hq
    exact hq.symm
  · have hdiv : q / lastBitSingle q = z := by
      rw [div_eq_iff (lastBitSingle_pos q).ne']
      exact h
    rw [hdiv, roundEven_intCast]
    exact h.symm

theorem toSingle_of_lt {n : ℕ} (h : n < 2 ^ 24) : toSingle (n : ℚ) = n := by
  rcases Nat.eq_zero_or_pos n with rfl | hn
  · simp [toSingle]
  have hq : (0 : ℚ) < n := by exact_mod_cast hn
  have hlog : Int.log 2 |(n : ℚ)| < 24 := by
    rw [abs_of_pos hq, ← Int.lt_zpow_iff_log_lt (by norm_num) hq]
    exact_mod_cast h
  obtain ⟨m, hm⟩ : ∃ m : ℕ, Int.log 2 |(n : ℚ)| - 23 = -(m : ℤ) :=
    ⟨(23 - Int.log 2 |(n : ℚ)|).toNat, by omega⟩
  have hbit : lastBitSingle n * 2 ^ m = 1 := by
    rw [lastBitSingle, hm, zpow_neg, zpow_natCast, inv_mul_cancel₀ (by positivity)]
  refine toSingle_of_multiple (z := n * 2 ^ m) ?_
  push_cast
  calc (n : ℚ) = n * (lastBitSingle n * 2 ^ m) := by rw [hbit, mul_one]
    _ = n * 2 ^ m * lastBitSingle n := by ring

/-- A natural number of at most 24 bits, or the next one, is a float. -/
theorem toSingle_natCast {n : ℕ} (h : n ≤ 2 ^ 24) : toSingle (n : ℚ) = n := by
  rcases Nat.lt_or_eq_of_le h with hlt | rfl
  · exact toSingle_of_lt hlt
  · decide +kernel

example : toSingle (2 ^ 24 + 1) = 2 ^ 24 := by decide +kernel
