-- Rounding to the nearest double, with ties to even, for numbers in the
-- range of the normal doubles. A number with few bits is a double, and any
-- other one moves by at most its own size over `2 ^ 53`. A double with few
-- bits takes the numbers up to half a last bit away from it.
import Ditto.Lib.Rounding
import Mathlib.Data.Int.Log
import Mathlib.Tactic.FieldSimp
import Mathlib.Tactic.Positivity
import Mathlib.Tactic.Ring

/-! ## Rounding to integers -/

theorem roundEven_intCast (z : ℤ) : roundEven (z : ℚ) = z := by
  simp [roundEven]

/-- The rounded number is no larger than an integer above the number. -/
theorem roundEven_le {z : ℤ} {q : ℚ} (h : q ≤ z) : roundEven q ≤ z := by
  by_contra hlt
  have hz : (z : ℚ) + 1 ≤ roundEven q := by exact_mod_cast not_le.mp hlt
  have hle := abs_le.mp (abs_roundEven_sub_le q)
  linarith

/-- A number halfway below an even integer is rounded up to it. -/
theorem le_roundEven_iff {z : ℤ} (hz : Even z) {q : ℚ} :
    z ≤ roundEven q ↔ (z : ℚ) - 1 / 2 ≤ q := by
  constructor
  · intro h
    have hle := (abs_le.mp (abs_roundEven_sub_le q)).2
    have hzq : (z : ℚ) ≤ roundEven q := by exact_mod_cast h
    linarith
  · intro h
    have hfloor := Int.lt_floor_add_one q
    unfold roundEven
    split_ifs with hlow hhigh heven
    · have hlt : (z : ℚ) < ⌊q⌋ + 1 := by linarith
      have : z < ⌊q⌋ + 1 := by exact_mod_cast hlt
      omega
    · have hlt : (z : ℚ) < ⌊q⌋ + 2 := by linarith
      have : z < ⌊q⌋ + 2 := by exact_mod_cast hlt
      omega
    · have hle : (z : ℚ) ≤ ⌊q⌋ + 1 := by linarith
      have : z ≤ ⌊q⌋ + 1 := by exact_mod_cast hle
      obtain ⟨k, rfl⟩ := hz
      omega
    · have hlt : (z : ℚ) < ⌊q⌋ + 2 := by linarith
      have : z < ⌊q⌋ + 2 := by exact_mod_cast hlt
      omega

/-- A number halfway above an even integer is rounded down to it. -/
theorem roundEven_le_iff {z : ℤ} (hz : Even z) {q : ℚ} :
    roundEven q ≤ z ↔ q ≤ (z : ℚ) + 1 / 2 := by
  constructor
  · intro h
    have hle := (abs_le.mp (abs_roundEven_sub_le q)).1
    have hzq : (roundEven q : ℚ) ≤ z := by exact_mod_cast h
    linarith
  · intro h
    have hfloor := Int.floor_le q
    have hle : (⌊q⌋ : ℚ) ≤ z + 1 / 2 := hfloor.trans h
    have hz' : ⌊q⌋ ≤ z := by
      by_contra hlt
      have : (z : ℚ) + 1 ≤ ⌊q⌋ := by exact_mod_cast not_le.mp hlt
      linarith
    have hup : 1 / 2 < q - ⌊q⌋ → ⌊q⌋ + 1 ≤ z := by
      intro hhigh
      have hlt : (⌊q⌋ : ℚ) < z := by linarith
      exact_mod_cast hlt
    unfold roundEven
    split_ifs with hlow hhigh heven
    · exact hz'
    · exact hup hhigh
    · exact hz'
    · obtain ⟨k, rfl⟩ := hz
      omega

/-- An odd integer takes the numbers less than one half away from it, and no other ones. -/
theorem le_roundEven_iff_of_odd {z : ℤ} (hz : Odd z) {q : ℚ} :
    z ≤ roundEven q ↔ (z : ℚ) - 1 / 2 < q := by
  have heven : Even (z - 1) := hz.sub_odd odd_one
  have h := roundEven_le_iff heven (q := q)
  push_cast at h
  rw [show z ≤ roundEven q ↔ ¬ roundEven q ≤ z - 1 by omega, h, not_le]
  constructor <;> intro h <;> linarith

theorem roundEven_le_iff_of_odd {z : ℤ} (hz : Odd z) {q : ℚ} :
    roundEven q ≤ z ↔ q < (z : ℚ) + 1 / 2 := by
  have heven : Even (z + 1) := hz.add_odd odd_one
  have h := le_roundEven_iff heven (q := q)
  push_cast at h
  rw [show roundEven q ≤ z ↔ ¬ z + 1 ≤ roundEven q by omega, h, not_le]
  constructor <;> intro h <;> linarith

/-! ## Rounding to doubles -/

/-- The weight of the last bit of a double of this size. -/
def lastBit (q : ℚ) : ℚ := 2 ^ (Int.log 2 |q| - 52)

/-- The nearest double. -/
def toDouble (q : ℚ) : ℚ := if q = 0 then 0 else roundEven (q / lastBit q) * lastBit q

theorem lastBit_pos (q : ℚ) : 0 < lastBit q := zpow_pos (by norm_num) _

/-- A multiple of the last bit is a double. -/
theorem toDouble_of_multiple {q : ℚ} {z : ℤ} (h : q = z * lastBit q) : toDouble q = q := by
  unfold toDouble
  split
  · rename_i hq
    exact hq.symm
  · have hdiv : q / lastBit q = z := by
      rw [div_eq_iff (lastBit_pos q).ne']
      exact h
    rw [hdiv, roundEven_intCast]
    exact h.symm

/-- A positive number with at most `k` bits behind the point and `53 - k` in front of it is a
double. -/
theorem toDouble_eq_self {q : ℚ} (hq : 0 < q) {k : ℕ} {z : ℤ} (hz : q * 2 ^ k = z)
    (hlt : q < 2 ^ (53 - k : ℤ)) : toDouble q = q := by
  have hlog : Int.log 2 |q| < 53 - k := by
    rw [abs_of_pos hq, ← Int.lt_zpow_iff_log_lt (by norm_num) hq]
    exact_mod_cast hlt
  obtain ⟨m, hm⟩ : ∃ m : ℕ, Int.log 2 |q| - 52 = -(k + m : ℕ) :=
    ⟨(52 - k - Int.log 2 |q|).toNat, by push_cast; omega⟩
  have hbit : lastBit q * 2 ^ (k + m) = 1 := by
    rw [lastBit, hm, zpow_neg, zpow_natCast, inv_mul_cancel₀ (by positivity)]
  refine toDouble_of_multiple (z := z * 2 ^ m) ?_
  push_cast
  rw [← hz]
  calc q = q * (lastBit q * 2 ^ (k + m)) := by rw [hbit, mul_one]
    _ = q * 2 ^ k * 2 ^ m * lastBit q := by ring

theorem toDouble_intCast {z : ℤ} (hz : 0 < z) (hlt : z < 2 ^ 53) : toDouble (z : ℚ) = z := by
  refine toDouble_eq_self (k := 0) (z := z) (by exact_mod_cast hz) (by simp) ?_
  have : (z : ℚ) < 2 ^ 53 := by exact_mod_cast hlt
  simpa using this

theorem toDouble_natCast {n : ℕ} (hn : 0 < n) (hlt : n < 2 ^ 53) : toDouble (n : ℚ) = n := by
  have := toDouble_intCast (z := n) (by omega) (by omega)
  exact_mod_cast this

theorem lastBit_le {x : ℚ} (hx : 0 < x) : lastBit x * 2 ^ 52 ≤ x := by
  have hlog : (2 : ℚ) ^ Int.log 2 |x| ≤ |x| :=
    Int.zpow_log_le_self (by norm_num) (by simpa using hx.ne')
  rw [lastBit, ← zpow_natCast, ← zpow_add₀ (by norm_num)]
  simpa [abs_of_pos hx] using hlog

/-- The rounding moves a positive number by at most its size over `2 ^ 53`. -/
theorem abs_toDouble_sub_le {q : ℚ} (hq : 0 < q) : |toDouble q - q| ≤ q / 2 ^ 53 := by
  have hbit := lastBit_pos q
  have hsize := lastBit_le hq
  have hround := abs_roundEven_sub_le (q / lastBit q)
  have hsplit : toDouble q - q = (roundEven (q / lastBit q) - q / lastBit q) * lastBit q := by
    rw [toDouble, if_neg hq.ne', sub_mul, div_mul_cancel₀ _ hbit.ne']
  rw [hsplit, abs_mul, abs_of_pos hbit]
  calc |(roundEven (q / lastBit q) : ℚ) - q / lastBit q| * lastBit q
      ≤ 1 / 2 * lastBit q := by gcongr
    _ ≤ q / 2 ^ 53 := by linarith

example : toDouble (2 ^ 53 + 1) = 2 ^ 53 ∧ toDouble (1 / 2) = 1 / 2 := by decide +kernel

/-- The double of a positive integer is an integer. -/
theorem exists_intCast_toDouble {z : ℤ} (hz : 0 < z) : ∃ m : ℤ, toDouble (z : ℚ) = m := by
  have hzq : (0 : ℚ) < z := by exact_mod_cast hz
  by_cases hlt : z < 2 ^ 53
  · exact ⟨z, toDouble_intCast hz hlt⟩
  · have hlog : 53 ≤ Int.log 2 |(z : ℚ)| := by
      rw [abs_of_pos hzq, ← Int.zpow_le_iff_le_log (by norm_num) hzq]
      exact_mod_cast not_lt.mp hlt
    obtain ⟨k, hk⟩ : ∃ k : ℕ, Int.log 2 |(z : ℚ)| - 52 = k :=
      ⟨(Int.log 2 |(z : ℚ)| - 52).toNat, by omega⟩
    refine ⟨roundEven (z / lastBit z) * 2 ^ k, ?_⟩
    rw [toDouble, if_neg hzq.ne', lastBit, hk, zpow_natCast]
    push_cast
    rfl

/-! ## Where a number goes to a double -/

/-- A double whose last bit is 0 takes the numbers up to half a last bit away from it. -/
theorem le_toDouble_iff {x h : ℚ} (hx : 0 < x) {z : ℤ} (hz : Even z) (hh : h = z * lastBit x) :
    h ≤ toDouble x ↔ h - lastBit x / 2 ≤ x := by
  have hbit := lastBit_pos x
  rw [toDouble, if_neg hx.ne', hh, mul_le_mul_iff_left₀ hbit, Int.cast_le, le_roundEven_iff hz,
    le_div_iff₀ hbit, sub_mul, one_div_mul_eq_div]

theorem toDouble_le_iff {x h : ℚ} (hx : 0 < x) {z : ℤ} (hz : Even z) (hh : h = z * lastBit x) :
    toDouble x ≤ h ↔ x ≤ h + lastBit x / 2 := by
  have hbit := lastBit_pos x
  rw [toDouble, if_neg hx.ne', hh, mul_le_mul_iff_left₀ hbit, Int.cast_le, roundEven_le_iff hz,
    div_le_iff₀ hbit, add_mul, one_div_mul_eq_div]

/-- In the range of the numbers below `2 ^ 32` the halves are such doubles. -/
theorem exists_even_bits {x h : ℚ} (hx : 1 ≤ x) (hlt : x < 2 ^ 32) {m : ℤ} (hm : h * 2 = m) :
    ∃ z : ℤ, Even z ∧ h = z * lastBit x := by
  have hpos : 0 < x := lt_of_lt_of_le one_pos hx
  have hlow : 0 ≤ Int.log 2 |x| := by
    rw [abs_of_pos hpos, ← Int.zpow_le_iff_le_log (by norm_num) hpos]
    simpa using hx
  have hhigh : Int.log 2 |x| < 32 := by
    rw [abs_of_pos hpos, ← Int.lt_zpow_iff_log_lt (by norm_num) hpos]
    exact_mod_cast hlt
  obtain ⟨k, hk⟩ : ∃ k : ℕ, Int.log 2 |x| - 52 = -((k + 2 : ℕ) : ℤ) :=
    ⟨(50 - Int.log 2 |x|).toNat, by push_cast; omega⟩
  refine ⟨m * 2 ^ (k + 1), ⟨m * 2 ^ k, by ring⟩, ?_⟩
  rw [lastBit, hk, zpow_neg, zpow_natCast]
  push_cast
  rw [← hm]
  field_simp
  ring
