-- Rounding of a rational number to the nearest integer. A number halfway
-- between two integers goes to the even one. A quotient by zero is an error.
import Ditto.Lib.PyDict
import Mathlib.Algebra.Order.Round
import Mathlib.Data.Rat.Floor
import Mathlib.Tactic.Linarith

/-- The nearest integer, with ties to even. -/
def roundEven (q : ℚ) : ℤ :=
  if q - ⌊q⌋ < 1 / 2 then ⌊q⌋
  else if 1 / 2 < q - ⌊q⌋ then ⌊q⌋ + 1
  else if ⌊q⌋ % 2 = 0 then ⌊q⌋ else ⌊q⌋ + 1

/-- A rounded number is no further than one half from the number. -/
theorem abs_roundEven_sub_le (q : ℚ) : |(roundEven q : ℚ) - q| ≤ 1 / 2 := by
  have h0 := Int.floor_le q
  have h1 := Int.lt_floor_add_one q
  unfold roundEven
  rw [abs_le]
  split
  · constructor <;> linarith
  · split
    · push_cast
      constructor <;> linarith
    · split
      · constructor <;> linarith
      · push_cast
        constructor <;> linarith

/-- An integer below the number is no larger than the rounded number. -/
theorem le_roundEven {z : ℤ} {q : ℚ} (h : (z : ℚ) ≤ q) : z ≤ roundEven q := by
  have hz : z ≤ ⌊q⌋ := Int.le_floor.mpr h
  unfold roundEven
  split_ifs <;> omega

/-- The quotient of two numbers, which is an error for a zero. -/
def PyError.div (a b : ℚ) : Except PyError ℚ :=
  if b = 0 then .error .zeroDivisionError else .ok (a / b)

theorem PyError.div_eq_ok {a b q : ℚ} : div a b = .ok q ↔ b ≠ 0 ∧ q = a / b := by
  unfold div
  split
  · rename_i hb
    simp [hb]
  · rename_i hb
    simp [hb, eq_comm]

/-- The integer part, as Python's `int` takes it: toward zero. -/
def truncate (q : ℚ) : ℤ := q.num.tdiv q.den

theorem truncate_intCast (z : ℤ) : truncate (z : ℚ) = z := by
  simp [truncate]

theorem truncate_eq {z : ℤ} {q : ℚ} (hz : 0 ≤ z) (hle : (z : ℚ) ≤ q) (hlt : q < z + 1) :
    truncate q = z := by
  have hq : 0 ≤ q.num := Rat.num_nonneg.mpr (le_trans (by exact_mod_cast hz) hle)
  rw [truncate, Int.tdiv_eq_ediv_of_nonneg hq, ← Rat.floor_def]
  exact Int.floor_eq_iff.mpr ⟨hle, hlt⟩

example : roundEven (5 / 2) = 2 ∧ roundEven (7 / 2) = 4 ∧ roundEven (-5 / 2) = -2 := by decide +kernel
