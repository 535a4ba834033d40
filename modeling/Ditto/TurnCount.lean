-- The turns of a block for one request. The counter starts at the number of
-- the request, goes up before the body and is compared behind it, so the body
-- runs as often as the printed number says. That number is computed with
-- doubles, which for fewer than `2 ^ 52` instructions give the right one, and
-- the assembler takes it when it is below `2 ^ 31`.
import Ditto.LineSweep

open LabelMachine
open ditto.data_dependency_analyzer (GpReg)

namespace ditto.assembly_generator

/-! ## The printed number of turns -/

/-- The static instructions of a block, as `generate_asm` caps them. -/
def static_insts (num_dynamic_insts : ℤ) (icache_size : ℕ) : ℤ :=
  let num_static_insts : ℕ := icache_size / mean_inst_size
  if num_dynamic_insts < num_static_insts then num_dynamic_insts else num_static_insts

theorem plan_row_static_insts {d : ℤ} {reps : PyDict ℕ ℤ} {merged : PyDict ℤ (ℕ × ℕ)}
    {e : ℤ × ℕ × ℕ} {row : Row} (h : plan_row d reps merged e = .ok row) :
    row.num_static_insts = static_insts d e.2.2 := by
  unfold plan_row at h
  simp only at h
  unfold static_insts
  dsimp only
  split at h
  · cases h
  · split at h
    · rename_i hlt
      split at h
      · cases h
      · cases h
        rw [if_pos hlt]
    · rename_i hlt
      cases h
      rw [if_neg hlt]

section rounding

variable {d s r : ℤ}

/-- The turns that come from a rounded quotient. -/
def scaled_turns (num_static_insts rounded : ℤ) : ℤ :=
  let num_dynamic_insts : ℤ :=
    if rounded ≤ 1 then num_static_insts
    else truncate (toDouble (toDouble num_static_insts * rounded))
  truncate (toDouble (num_dynamic_insts / num_static_insts))

theorem num_turns_eq (d s : ℤ) : num_turns d s = scaled_turns s (roundEven (toDouble (d / s))) := rfl

/-- The product of doubles is short of `s * r` by no more than the rounding of its quotient by
`s` makes up for. -/
def ProductKeeps (s r : ℤ) : Prop :=
  r ≤ 1 ∨ s * r - toDouble (toDouble s * r) ≤
    s * (lastBit (toDouble (toDouble s * r) / s) / 2)

instance (s r : ℤ) : Decidable (ProductKeeps s r) := inferInstanceAs (Decidable (_ ∨ _))

/-- The product of doubles is an integer near the product. -/
theorem exists_product (hs : 0 < s) (hr : 0 < r) : ∃ m : ℤ, toDouble (toDouble s * r) = m ∧
    |(m : ℚ) - s * r| ≤ 3 * (s * r) / 2 ^ 53 := by
  have hsq : (0 : ℚ) < s := by exact_mod_cast hs
  have hrq : (0 : ℚ) < r := by exact_mod_cast hr
  have hsr : (0 : ℚ) < s * r := mul_pos hsq hrq
  obtain ⟨t, ht⟩ := exists_intCast_toDouble hs
  have hfirst := abs_toDouble_sub_le hsq
  rw [ht, abs_le] at hfirst
  have hpos : (0 : ℚ) < t := by
    have : (s : ℚ) / 2 ^ 53 < s := div_lt_self hsq (by norm_num)
    linarith
  have htr : (0 : ℚ) < (t * r : ℤ) := by
    push_cast
    exact mul_pos hpos hrq
  obtain ⟨m, hm⟩ := exists_intCast_toDouble (by exact_mod_cast htr : 0 < t * r)
  have hsecond := abs_toDouble_sub_le htr
  rw [hm] at hsecond
  refine ⟨m, by rw [ht, ← hm]; push_cast; rfl, ?_⟩
  push_cast at hsecond
  have hdiff : |(t * r - s * r : ℚ)| ≤ s * r / 2 ^ 53 := by
    rw [← sub_mul, abs_mul, abs_of_pos hrq, mul_div_right_comm]
    exact mul_le_mul_of_nonneg_right (abs_le.mpr hfirst) hrq.le
  have hdouble : (t * r : ℚ) ≤ 2 * (s * r) := by
    have := (abs_le.mp hdiff).2
    have : (s * r : ℚ) / 2 ^ 53 ≤ s * r := div_le_self hsr.le (by norm_num)
    linarith
  calc |(m : ℚ) - s * r| ≤ |(m : ℚ) - t * r| + |(t * r - s * r : ℚ)| := abs_sub_le ..
    _ ≤ t * r / 2 ^ 53 + s * r / 2 ^ 53 := add_le_add hsecond hdiff
    _ ≤ 2 * (s * r) / 2 ^ 53 + s * r / 2 ^ 53 := by gcongr
    _ = 3 * (s * r) / 2 ^ 53 := by ring

/-- A short product loses one turn. -/
theorem scaled_turns_eq (hs : 0 < s) (hr : 1 ≤ r) (hlt : r ≤ 2 ^ 31) :
    scaled_turns s r = if ProductKeeps s r then r else r - 1 := by
  have hsq : (0 : ℚ) < s := by exact_mod_cast hs
  unfold scaled_turns
  by_cases hone : r ≤ 1
  · have hr1 : r = 1 := le_antisymm hone hr
    have hquot : toDouble ((s : ℚ) / s) = (1 : ℤ) := by
      rw [div_self hsq.ne']
      exact_mod_cast toDouble_intCast (z := 1) (by norm_num) (by norm_num)
    have hkeeps : ProductKeeps s r := Or.inl hone
    simp only [hone, hkeeps, if_true]
    rw [hquot, truncate_intCast, hr1]
  · obtain ⟨m, hm, hnear⟩ := exists_product hs (by omega : 0 < r)
    have hrq : (2 : ℚ) ≤ r := by exact_mod_cast (by omega : 2 ≤ r)
    have hrq' : (r : ℚ) ≤ 2 ^ 31 := by exact_mod_cast hlt
    simp only [hone, if_false, ProductKeeps, false_or, hm, truncate_intCast]
    generalize hy : (m : ℚ) / s = y
    have hmul : (m : ℚ) = s * y := by rw [← hy, mul_div_cancel₀ _ hsq.ne']
    -- The quotient is near `r`, and its double too.
    have hquot : |y - r| ≤ 3 * r / 2 ^ 53 := by
      rw [hmul, ← mul_sub, abs_mul, abs_of_pos hsq] at hnear
      refine le_of_mul_le_mul_left (hnear.trans_eq ?_) hsq
      ring
    rw [abs_le] at hquot
    have hy1 : 1 ≤ y := by linarith
    have hdouble := abs_toDouble_sub_le (lt_of_lt_of_le one_pos hy1)
    rw [abs_le] at hdouble
    obtain ⟨z, hz, hbits⟩ := exists_even_bits hy1 (by linarith) (by push_cast; rfl :
      (r : ℚ) * 2 = (r * 2 : ℤ))
    have hiff := le_toDouble_iff (lt_of_lt_of_le one_pos hy1) hz hbits
    have hkeeps : s * r - m ≤ s * (lastBit y / 2) ↔ (r : ℚ) - lastBit y / 2 ≤ y := by
      rw [hmul, ← mul_sub, mul_le_mul_iff_right₀ hsq]
      constructor <;> intro h <;> linarith
    split_ifs with hprod
    · exact truncate_eq (by omega) (hiff.mpr (hkeeps.mp hprod)) (by linarith)
    · have hshort : toDouble y < r := not_le.mp fun h => hprod (hkeeps.mpr (hiff.mp h))
      refine truncate_eq (by omega) ?_ ?_
      · push_cast
        linarith
      · push_cast
        linarith

/-- The doubles print the right number. A quotient near a half of which the even neighbour is not
the nearest integer is taken for the half. The number is then one turn off, and right only if
the product loses the turn that is too much. -/
def DoublesKeep (d s : ℤ) : Prop :=
  let quotient : ℚ := d / s
  let K := roundEven quotient
  if Odd K ∧ K + 1 / 2 - lastBit quotient / 2 ≤ quotient then ¬ ProductKeeps s (K + 1)
  else ¬ (Odd K ∧ quotient ≤ K - 1 / 2 + lastBit quotient / 2) ∧ ProductKeeps s K

instance (d s : ℤ) : Decidable (DoublesKeep d s) := by
  unfold DoublesKeep
  infer_instance

theorem one_le_roundEven_div (hs : 0 < s) (hle : s ≤ d) : 1 ≤ roundEven (d / s : ℚ) := by
  apply le_roundEven
  rw [Int.cast_one, one_le_div (by exact_mod_cast hs)]
  exact_mod_cast hle

theorem roundEven_div_le (hs : 0 < s) (hle : s ≤ d) : roundEven (d / s : ℚ) ≤ d := by
  apply roundEven_le
  have hd : (0 : ℚ) ≤ d := by exact_mod_cast (hs.le.trans hle)
  exact div_le_self hd (by exact_mod_cast hs)

/-- The work of the rounded number of turns is off by half a turn at most. -/
theorem abs_work_sub_le (hs : 0 < s) : |(roundEven (d / s : ℚ) * s - d : ℚ)| ≤ s / 2 := by
  have hsq : (0 : ℚ) < s := by exact_mod_cast hs
  have hsplit : (roundEven (d / s : ℚ) * s - d : ℚ) = (roundEven (d / s : ℚ) - d / s) * s := by
    rw [sub_mul, div_mul_cancel₀ _ hsq.ne']
  rw [hsplit, abs_mul, abs_of_pos hsq]
  calc |(roundEven (d / s : ℚ) : ℚ) - d / s| * s ≤ 1 / 2 * s := by
        gcongr
        exact abs_roundEven_sub_le _
    _ = s / 2 := by ring

/-- The double of a quotient is between the same halves, and rounds to the same integer unless
it is one of them. -/
theorem roundEven_toDouble {x : ℚ} (hx : 1 ≤ x) (hlt : roundEven x < 2 ^ 31) :
    roundEven (toDouble x) =
      if Odd (roundEven x) ∧ roundEven x + 1 / 2 - lastBit x / 2 ≤ x then roundEven x + 1
      else if Odd (roundEven x) ∧ x ≤ roundEven x - 1 / 2 + lastBit x / 2 then roundEven x - 1
      else roundEven x := by
  have hnear := abs_le.mp (abs_roundEven_sub_le x)
  generalize hk : roundEven x = k at *
  have hkq : (k : ℚ) + 1 ≤ 2 ^ 31 := by exact_mod_cast (by omega : k + 1 ≤ 2 ^ 31)
  have hpos : 0 < x := lt_of_lt_of_le one_pos hx
  have hbit := lastBit_pos x
  have hup : ∃ z : ℤ, Even z ∧ (k : ℚ) + 1 / 2 = z * lastBit x :=
    exists_even_bits hx (by linarith) (m := 2 * k + 1) (by push_cast; ring)
  have hdown : ∃ z : ℤ, Even z ∧ (k : ℚ) - 1 / 2 = z * lastBit x :=
    exists_even_bits hx (by linarith) (m := 2 * k - 1) (by push_cast; ring)
  obtain ⟨zu, hzu, hup⟩ := hup
  obtain ⟨zd, hzd, hdown⟩ := hdown
  have hle_up : toDouble x ≤ k + 1 / 2 := (toDouble_le_iff hpos hzu hup).mpr (by linarith)
  have hdown_le : (k : ℚ) - 1 / 2 ≤ toDouble x := (le_toDouble_iff hpos hzd hdown).mpr (by linarith)
  split_ifs with hhigh hlow
  · obtain ⟨hodd, hhigh⟩ := hhigh
    have heven : Even (k + 1) := hodd.add_odd odd_one
    have hhalf := (le_toDouble_iff hpos hzu hup).mpr hhigh
    apply le_antisymm
    · rw [roundEven_le_iff heven]
      push_cast
      linarith
    · rw [le_roundEven_iff heven]
      push_cast
      linarith
  · obtain ⟨hodd, hlow⟩ := hlow
    have heven : Even (k - 1) := hodd.sub_odd odd_one
    have hhalf := (toDouble_le_iff hpos hzd hdown).mpr hlow
    apply le_antisymm
    · rw [roundEven_le_iff heven]
      push_cast
      linarith
    · rw [le_roundEven_iff heven]
      push_cast
      linarith
  · rcases Int.even_or_odd k with heven | hodd
    · exact le_antisymm ((roundEven_le_iff heven).mpr hle_up) ((le_roundEven_iff heven).mpr hdown_le)
    · rw [not_and] at hhigh hlow
      have hlt_up := mt (le_toDouble_iff hpos hzu hup).mp (hhigh hodd)
      have hdown_lt := mt (toDouble_le_iff hpos hzd hdown).mp (hlow hodd)
      exact le_antisymm ((roundEven_le_iff_of_odd hodd).mpr (not_le.mp hlt_up))
        ((le_roundEven_iff_of_odd hodd).mpr (not_le.mp hdown_lt))

theorem one_le_div_cast (hs : 0 < s) (hle : s ≤ d) : (1 : ℚ) ≤ d / s := by
  rw [one_le_div (by exact_mod_cast hs)]
  exact_mod_cast hle

/-- A number that fits an immediate is printed right just if the doubles keep it. -/
theorem num_turns_eq_iff (hs : 0 < s) (hle : s ≤ d) (hlt : roundEven (d / s : ℚ) < 2 ^ 31) :
    num_turns d s = roundEven (d / s : ℚ) ↔ DoublesKeep d s := by
  have hx := one_le_div_cast hs hle
  have hk := one_le_roundEven_div hs hle
  rw [num_turns_eq, roundEven_toDouble hx hlt]
  unfold DoublesKeep
  simp only
  generalize hx' : (d / s : ℚ) = x at *
  split_ifs with hhigh hlow
  · rw [scaled_turns_eq hs (by omega) (by omega)]
    split_ifs with hprod
    · simp only [hprod, not_true, iff_false]
      omega
    · simp [hprod]
  · simp only [hlow, not_true, and_self, false_and, iff_false]
    -- The quotient is 1 or more, so the lower half is not that of 1.
    have htwo : 2 ≤ roundEven x := by
      by_contra hone
      have hone : roundEven x = 1 := by omega
      have hbit := lastBit_le (lt_of_lt_of_le one_pos hx)
      have hhalf := hlow.2
      rw [hone] at hhalf
      push_cast at hhalf
      linarith
    rw [scaled_turns_eq hs (by omega) (by omega)]
    split_ifs <;> omega
  · rw [scaled_turns_eq hs hk hlt.le]
    simp only [hlow, not_false_eq_true, true_and]
    split_ifs with hprod
    · simp [hprod]
    · simp only [hprod, iff_false]
      omega

/-- A quotient of small integers that is no half is farther from it than half its last bit. -/
theorem lastBit_lt_gap (hs : 0 < s) (hle : s ≤ d) (hlt : d < 2 ^ 52) {z : ℤ}
    (hne : (d / s : ℚ) ≠ z / 2) : lastBit (d / s : ℚ) / 2 < |(d / s : ℚ) - z / 2| := by
  have hsq : (0 : ℚ) < s := by exact_mod_cast hs
  have hdq : (d : ℚ) < 2 ^ 52 := by exact_mod_cast hlt
  have hbit := lastBit_le (lt_of_lt_of_le one_pos (one_le_div_cast hs hle))
  have hgap : |(d / s : ℚ) - z / 2| * (2 * s) = |((2 * d - z * s : ℤ) : ℚ)| := by
    rw [← abs_of_pos (by linarith : (0 : ℚ) < 2 * s), ← abs_mul, sub_mul, mul_left_comm,
      div_mul_cancel₀ _ hsq.ne']
    push_cast
    ring_nf
  have hint : (2 * d - z * s : ℤ) ≠ 0 := by
    intro hzero
    rw [hzero, Int.cast_zero, abs_zero, mul_eq_zero, abs_eq_zero, sub_eq_zero] at hgap
    exact hgap.elim hne (by linarith : (0 : ℚ) < 2 * s).ne'
  have hone : (1 : ℚ) ≤ |((2 * d - z * s : ℤ) : ℚ)| := by exact_mod_cast Int.one_le_abs hint
  rw [← hgap] at hone
  have hsmall : lastBit (d / s : ℚ) * s < 1 := by
    have := mul_le_mul_of_nonneg_right hbit hsq.le
    rw [div_mul_cancel₀ _ hsq.ne'] at this
    linarith
  refine lt_of_mul_lt_mul_right ?_ (by linarith : (0 : ℚ) ≤ 2 * s)
  linarith

theorem productKeeps_of_lt (hs : 0 < s) (hr : 0 < r) (hlt : s * r < 2 ^ 53) (hle : s < 2 ^ 53) :
    ProductKeeps s r := by
  right
  have hsq : (0 : ℚ) < s := by exact_mod_cast hs
  have hexact : toDouble (toDouble s * r) = s * r := by
    rw [toDouble_intCast hs hle]
    exact_mod_cast toDouble_intCast (Int.mul_pos hs hr) hlt
  rw [hexact, sub_self]
  exact mul_nonneg hsq.le (div_nonneg (lastBit_pos _).le (by norm_num))

/-- Below `2 ^ 52` instructions the doubles keep every number. -/
theorem doublesKeep_of_lt (hs : 0 < s) (hle : s ≤ d) (hlt : d < 2 ^ 52) : DoublesKeep d s := by
  have hwork := (abs_le.mp (@abs_work_sub_le d s hs)).2
  have hk := one_le_roundEven_div hs hle
  have hgap := fun z => @lastBit_lt_gap d s hs hle hlt z
  unfold DoublesKeep
  simp only
  rw [if_neg]
  · refine ⟨?_, productKeeps_of_lt hs (by omega) ?_ (by omega)⟩
    · rintro ⟨hodd, hlow⟩
      have hstrict := (le_roundEven_iff_of_odd hodd (q := (d / s : ℚ))).mp le_rfl
      generalize roundEven (d / s : ℚ) = k at *
      have hfar := hgap (2 * k - 1) (by push_cast; linarith)
      rw [abs_of_pos (by push_cast; linarith)] at hfar
      push_cast at hfar
      linarith
    · generalize roundEven (d / s : ℚ) = k at *
      have hsd : (s : ℚ) ≤ d := by exact_mod_cast hle
      have hdq : (d : ℚ) < 2 ^ 52 := by exact_mod_cast hlt
      have hq : ((s * k : ℤ) : ℚ) < 2 ^ 53 := by
        push_cast
        linarith
      exact_mod_cast hq
  · rintro ⟨hodd, hhigh⟩
    have hstrict := (roundEven_le_iff_of_odd hodd (q := (d / s : ℚ))).mp le_rfl
    generalize roundEven (d / s : ℚ) = k at *
    have hfar := hgap (2 * k + 1) (by push_cast; linarith)
    rw [abs_of_neg (by push_cast; linarith)] at hfar
    push_cast at hfar
    linarith

theorem roundEven_div_lt_iff (hs : 0 < s) :
    roundEven (d / s : ℚ) < 2 ^ 31 ↔ 2 * d < (2 ^ 32 - 1) * s := by
  have hsq : (0 : ℚ) < s := by exact_mod_cast hs
  have heven : Even ((2 : ℤ) ^ 31) := by decide
  rw [← not_le, le_roundEven_iff heven, not_le, div_lt_iff₀ hsq]
  push_cast
  constructor
  · intro h
    have : (2 * d : ℚ) < (2 ^ 32 - 1) * s := by linarith
    exact_mod_cast this
  · intro h
    have : (2 * d : ℚ) < (2 ^ 32 - 1) * s := by exact_mod_cast h
    linarith

end rounding

theorem static_insts_bounds {d : ℤ} {c : ℕ} (hd : 1 ≤ d) (hc : 4 ≤ c) :
    0 < static_insts d c ∧ static_insts d c ≤ d := by
  have hpos : 1 ≤ c / mean_inst_size := Nat.div_pos hc (by decide)
  unfold static_insts
  dsimp only
  split <;> omega

/-! ## The run of a block -/

/-- The body leaves the counter and the operand `%5` alone. -/
structure Body.KeepsCount (body : Body) : Prop where
  idx : ∀ n c, (body.run n c).regs LOOP_IDX_REG = c.regs LOOP_IDX_REG
  req_id : ∀ n c, (body.run n c).args 5 = c.args 5

section run

variable {tsc : BitVec 64} {body : Body} {offsets : List ℕ} {b : BlockId}
  {mem_size shift turns : ℕ}

/-- The start of a turn counts it. -/
theorem placed_count (s : RunState) :
    (placed tsc body offsets mem_size shift s).cpu.regs LOOP_IDX_REG =
        s.cpu.regs LOOP_IDX_REG + 1 ∧
      (placed tsc body offsets mem_size shift s).cpu.args 5 = s.cpu.args 5 ∧
      (placed tsc body offsets mem_size shift s).turn = s.turn := by
  unfold placed
  dsimp only
  split <;>
    simp [actAll, turnHead, resetAddr, ADDR_OFFSET_REG, TOP_ADDR_REG, BASE_ADDR_REG, LOOP_IDX_REG,
      RAND_REG]

/-- The rest of a turn runs the body once and compares. -/
theorem turnTail_count (hbody : body.KeepsCount) (s : RunState) :
    (actAll tsc body offsets (turnTail shift turns) s).cpu.regs LOOP_IDX_REG =
        s.cpu.regs LOOP_IDX_REG ∧
      (actAll tsc body offsets (turnTail shift turns) s).cpu.args 5 = s.cpu.args 5 ∧
      (actAll tsc body offsets (turnTail shift turns) s).turn = s.turn + 1 ∧
      (actAll tsc body offsets (turnTail shift turns) s).cpu.less =
        (s.cpu.regs LOOP_IDX_REG).slt (s.cpu.args 5 + BitVec.ofNat 64 turns) := by
  have hidx := hbody.idx s.turn s.cpu
  have hreq := hbody.req_id s.turn s.cpu
  simp only [LOOP_IDX_REG] at hidx ⊢
  simp [actAll, turnTail, machine, ADDR_OFFSET_REG, LOOP_IDX_REG, hidx, hreq]

/-- The state behind a turn. -/
def turnEnd (tsc : BitVec 64) (body : Body) (offsets : List ℕ) (mem_size shift turns : ℕ)
    (s : RunState) : RunState :=
  actAll tsc body offsets (turnTail shift turns) (placed tsc body offsets mem_size shift s)

theorem reaches_turnEnd (s : RunState) :
    Reaches (machine tsc body offsets) (blockCode b mem_size shift turns)
      (turnCode b mem_size shift turns, s)
      (behindTurn b, turnEnd tsc body offsets mem_size shift turns s) := by
  have hhead := reaches_insts (machine tsc body offsets) (blockCode b mem_size shift turns)
    (turnHead mem_size shift) (.jcc .le (b.label .bypass_reset) :: .inst resetAddr ::
      .label (b.label .bypass_reset) :: bypassCode b shift turns) s
  have htail (s : RunState) := reaches_insts (machine tsc body offsets)
    (blockCode b mem_size shift turns) (turnTail shift turns) (behindTurn b) s
  refine hhead.trans ?_
  unfold turnEnd placed
  dsimp only
  rw [← actAll]
  generalize actAll tsc body offsets (turnHead mem_size shift) s = s₁
  by_cases hle : (machine tsc body offsets).holds .le s₁ = true
  · rw [if_pos hle]
    refine (htail s₁).head ?_
    simp only [step, hle, if_true, after_bypass_reset]
    rfl
  · rw [if_neg hle]
    have hreset := reaches_insts (machine tsc body offsets) (blockCode b mem_size shift turns)
      [resetAddr] (.label (b.label .bypass_reset) :: bypassCode b shift turns) s₁
    have hlabel (s : RunState) : Reaches (machine tsc body offsets)
        (blockCode b mem_size shift turns)
        (.label (b.label .bypass_reset) :: bypassCode b shift turns, s)
        (bypassCode b shift turns, s) := .single rfl
    refine (hreset.trans ((hlabel _).trans (htail _))).head ?_
    simp only [step, hle, if_false, Bool.false_eq_true]
    rfl

/-- A turn that is not the last one goes back to the start. -/
theorem reaches_next_turn {s : RunState} (h : s.cpu.less = true) :
    Reaches (machine tsc body offsets) (blockCode b mem_size shift turns) (behindTurn b, s)
      (turnCode b mem_size shift turns, s) := by
  refine .single ?_
  have hholds : (machine tsc body offsets).holds .l s = true := h
  simp only [behindTurn, step, hholds, if_true, after_loop_start]
  rfl

theorem after_end_func :
    after (b.label .end_func) (blockCode b mem_size shift turns) = some [] := by
  simp [blockCode, init_stmts, rand_stmts, loop_stmts, tail_stmts, LabelMachine.Stmt.mapInst, after,
    LabelMachine.Stmt.defines?, BlockId.label]

/-- The last turn goes to the end of the code. -/
theorem reaches_end {s : RunState} (h : s.cpu.less = false) : ∃ s',
    Reaches (machine tsc body offsets) (blockCode b mem_size shift turns) (behindTurn b, s)
      ([], s') ∧ s'.turn = s.turn := by
  have hholds : (machine tsc body offsets).holds .l s = false := h
  have hjmp (s : RunState) (c : List (LabelMachine.Stmt Label Cond BlockInst)) :
      step (machine tsc body offsets) (blockCode b mem_size shift turns)
        (.jmp (b.label .end_func) :: c, s) = some ([], s) := by
    simp only [step, after_end_func]
    rfl
  have hmovs := reaches_insts (machine tsc body offsets) (blockCode b mem_size shift turns)
    [.asm ⟨.mov, [.arg 0, gp ADDR_OFFSET_REG]⟩, .asm ⟨.mov, [.arg 1, gp POINTER_CHASE_REG]⟩]
    (.jmp (b.label .end_func) :: .label (b.label .dummy_call) :: .inst (.asm ⟨.ret, []⟩) ::
      [.label (b.label .end_func)]) s
  refine ⟨_, (hmovs.trans (.single (hjmp _ _))).head ?_, rfl⟩
  simp only [behindTurn, step, hholds, Bool.false_eq_true, if_false]
  rfl

/-- The comparison finds whether turns are left. -/
theorem slt_count {req_id j turns : ℕ} (hlt : req_id + turns < 2 ^ 63) (hj : j ≤ turns) :
    (BitVec.ofNat 64 (req_id + j)).slt (BitVec.ofNat 64 req_id + BitVec.ofNat 64 turns) =
      decide (j < turns) := by
  have hsum : BitVec.ofNat 64 req_id + BitVec.ofNat 64 turns =
      BitVec.ofNat 64 (req_id + turns) := BitVec.ofNat_add_ofNat _ _
  have htoNat {n : ℕ} (hn : n < 2 ^ 63) : (BitVec.ofNat 64 n).toInt = n := by
    rw [BitVec.toInt_eq_toNat_of_lt (by rw [BitVec.toNat_ofNat]; omega), BitVec.toNat_ofNat]
    omega
  rw [hsum, BitVec.slt_eq_decide, htoNat (by omega), htoNat hlt]
  exact decide_eq_decide.mpr (by omega)

/-- A turn behind `j` others moves the counter on by one, and finds whether it was the last. -/
theorem turnEnd_count (hbody : body.KeepsCount) {req_id j : ℕ} (hlt : req_id + turns < 2 ^ 63)
    (hj : j + 1 ≤ turns) {s : RunState}
    (hidx : s.cpu.regs LOOP_IDX_REG = BitVec.ofNat 64 (req_id + j))
    (hreq : s.cpu.args 5 = BitVec.ofNat 64 req_id) {s' : RunState}
    (h : turnEnd tsc body offsets mem_size shift turns s = s') :
    s'.cpu.regs LOOP_IDX_REG = BitVec.ofNat 64 (req_id + (j + 1)) ∧
      s'.cpu.args 5 = BitVec.ofNat 64 req_id ∧ s'.turn = s.turn + 1 ∧
      s'.cpu.less = decide (j + 1 < turns) := by
  obtain ⟨hpidx, hpreq, hpturn⟩ := @placed_count tsc body offsets mem_size shift s
  obtain ⟨htidx, htreq, htturn, htless⟩ := @turnTail_count tsc body offsets shift turns hbody
    (placed tsc body offsets mem_size shift s)
  have hcount : s.cpu.regs LOOP_IDX_REG + 1 = BitVec.ofNat 64 (req_id + (j + 1)) := by
    rw [hidx, ← Nat.add_assoc]
    exact BitVec.ofNat_add_ofNat (req_id + j) 1
  rw [hpidx, hcount] at htidx htless
  rw [hpreq, hreq] at htreq htless
  rw [slt_count hlt hj] at htless
  rw [hpturn] at htturn
  rw [turnEnd] at h
  rw [h] at htidx htreq htturn htless
  exact ⟨htidx, htreq, htturn, htless⟩

/-- From the start of a turn with `k + 1` turns left, the body runs `k + 1` times. The induction
is on the turns left, with the counter at the request and the turns done. -/
theorem reaches_after_turns (hbody : body.KeepsCount) {req_id : ℕ}
    (hlt : req_id + turns < 2 ^ 63) (k : ℕ) {j : ℕ} (hjk : j + (k + 1) = turns) {s : RunState}
    (hidx : s.cpu.regs LOOP_IDX_REG = BitVec.ofNat 64 (req_id + j))
    (hreq : s.cpu.args 5 = BitVec.ofNat 64 req_id) : ∃ s',
    Reaches (machine tsc body offsets) (blockCode b mem_size shift turns)
      (turnCode b mem_size shift turns, s) ([], s') ∧ s'.turn = s.turn + (k + 1) := by
  induction k generalizing j s with
  | zero =>
    have hturn := @reaches_turnEnd tsc body offsets b mem_size shift turns s
    obtain ⟨-, -, hcount, hless⟩ := @turnEnd_count tsc body offsets mem_size shift turns hbody
      req_id j hlt (by omega) s hidx hreq _ rfl
    obtain ⟨s', hend, hs'⟩ := @reaches_end tsc body offsets b mem_size shift turns _
      (by rw [hless, decide_eq_false_iff_not]; omega)
    exact ⟨s', hturn.trans hend, hs'.trans hcount⟩
  | succ k ih =>
    have hturn := @reaches_turnEnd tsc body offsets b mem_size shift turns s
    obtain ⟨hidx', hreq', hcount, hless⟩ := @turnEnd_count tsc body offsets mem_size shift turns
      hbody req_id j hlt (by omega) s hidx hreq _ rfl
    have hnext := @reaches_next_turn tsc body offsets b mem_size shift turns _
      (by rw [hless, decide_eq_true_eq]; omega)
    obtain ⟨s', hrest, hs'⟩ := ih (by omega) hidx' hreq'
    exact ⟨s', hturn.trans (hnext.trans hrest), by omega⟩

/-- The instructions in front of the loop. -/
def startInsts : List BlockInst :=
  [.asm ⟨.mov, [gp LOOP_IDX_REG, .arg 5]⟩, .asm ⟨.mov, [gp ADDR_OFFSET_REG, .arg 3]⟩,
   .asm ⟨.mov, [gp POINTER_CHASE_REG, .arg 4]⟩, .asm ⟨.rdtsc, []⟩,
   .asm ⟨.mov, [gp RAND_REG, gp .a]⟩]

theorem startInsts_count {s s' : RunState} (h : actAll tsc body offsets startInsts s = s') :
    s'.cpu.regs LOOP_IDX_REG = s.cpu.args 5 ∧ s'.cpu.args 5 = s.cpu.args 5 ∧ s'.turn = s.turn := by
  rw [← h]
  simp [actAll, startInsts, LOOP_IDX_REG, ADDR_OFFSET_REG, POINTER_CHASE_REG, RAND_REG]

/-- A block runs its body as often as its text says. -/
theorem reaches_after_block (hbody : body.KeepsCount) {req_id : ℕ} (hpos : 0 < turns)
    (hlt : req_id + turns < 2 ^ 63) {s : RunState}
    (hreq : s.cpu.args 5 = BitVec.ofNat 64 req_id) : ∃ s',
    Reaches (machine tsc body offsets) (blockCode b mem_size shift turns)
      (blockCode b mem_size shift turns, s) ([], s') ∧ s'.turn = s.turn + turns := by
  have hstart : Reaches (machine tsc body offsets) (blockCode b mem_size shift turns)
      (blockCode b mem_size shift turns, s)
      (.label (b.label .loop_start) :: turnCode b mem_size shift turns,
        actAll tsc body offsets startInsts s) :=
    reaches_insts (machine tsc body offsets) (blockCode b mem_size shift turns) startInsts _ s
  have hlabel (s : RunState) : Reaches (machine tsc body offsets)
      (blockCode b mem_size shift turns)
      (.label (b.label .loop_start) :: turnCode b mem_size shift turns, s)
      (turnCode b mem_size shift turns, s) := .single rfl
  obtain ⟨hidx, hargs, hcount⟩ := @startInsts_count tsc body offsets s _ rfl
  obtain ⟨s', hrest, hs'⟩ := @reaches_after_turns tsc body offsets b mem_size shift turns hbody
    req_id hlt (turns - 1) 0 (by omega) (actAll tsc body offsets startInsts s)
    (hidx.trans hreq) (hargs.trans hreq)
  exact ⟨s', hstart.trans ((hlabel _).trans hrest), by omega⟩

end run

/-! ## The assembler -/

/-- The operands that the assembler takes: a displacement has 32 bits with the sign, and so has an
immediate of a 64-bit instruction other than `mov`. -/
def Operand.fits (op : Op) : Operand → Bool
  | .imm n => op = .mov ∨ n < 2 ^ 31
  | .mem _ offset | .argMem _ offset => offset < 2 ^ 31
  | _ => true

def fits : LabelMachine.Stmt Label Cond BlockInst → Bool
  | .inst (.asm i) => i.operands.all (Operand.fits i.op)
  | _ => true

/-- The code around a body assembles. -/
def Assembles (code : List (LabelMachine.Stmt Label Cond BlockInst)) : Prop :=
  ∀ st ∈ code, fits st = true

theorem assembles_blockCode_iff {b : BlockId} {mem_size shift turns : ℕ} :
    Assembles (blockCode b mem_size shift turns) ↔
      mem_size - shift < 2 ^ 31 ∧ shift < 2 ^ 31 ∧ turns < 2 ^ 31 := by
  simp [Assembles, fits, Operand.fits, blockCode, init_stmts, rand_stmts, loop_stmts, tail_stmts,
    LabelMachine.Stmt.mapInst, gp, RAND_C]

/-- With data of 256 MiB only the number of turns can be too large for the assembler. -/
theorem assembles_block_text_iff {g : Generator} {sub : Submission} (n : ℕ)
    (lines : List (List Stmt)) (hmem : sub.mem_size ≤ DATA_SIZE) :
    Assembles (block_text g sub n lines).program ↔
      (num_turns g.num_dynamic_insts sub.num_static_insts).toNat < 2 ^ 31 := by
  have hshift : shift_size g.page_multiplier sub.mem_size n ≤ sub.mem_size := shift_size_le
  have hdata : DATA_SIZE < 2 ^ 31 := by decide
  rw [program_block_text, assembles_blockCode_iff]
  exact ⟨fun h => h.2.2, fun h => ⟨by omega, by omega, h⟩⟩

/-! ## The laws -/

/-- What a block of the plan takes from its range. -/
theorem submission_of_row {d : ℤ} {reps : PyDict ℕ ℤ} {merged : PyDict ℤ (ℕ × ℕ)}
    {e : ℤ × ℕ × ℕ} {row : Row} (hrow : plan_row d reps merged e = .ok row)
    {function_id block_id : ℕ} {lower : ℤ} {sub : Submission}
    (hsub : sub ∈ submit_row function_id block_id lower row) :
    sub.num_static_insts = static_insts d e.2.2 ∧ sub.mem_size = e.2.1 := by
  obtain ⟨replica_id, -, rfl⟩ := List.mem_map.mp hsub
  refine ⟨plan_row_static_insts hrow, ?_⟩
  rw [← (plan_row_spec hrow).1]
  rfl

/-- A block has the rounded number of turns in its text, does work that is off by half a turn at
most, and runs its body that often, just if the number fits the immediate of `add` and the doubles
keep it. Below `2 ^ 52` instructions they do. -/
theorem block_runs_the_requested_work_iff (g : Generator) (hdyn : 1 ≤ g.num_dynamic_insts)
    {reps : PyDict ℕ ℤ} {merged : PyDict ℤ (ℕ × ℕ)} {e : ℤ × ℕ × ℕ} {row : Row}
    (hrow : plan_row g.num_dynamic_insts reps merged e = .ok row) (hicache : 4 ≤ e.2.2)
    (hdcache : e.2.1 ≤ DATA_SIZE) {function_id block_id : ℕ} {lower : ℤ} {sub : Submission}
    (hsub : sub ∈ submit_row function_id block_id lower row) {d : BlockDraws} {blk : AsmBlock}
    (hblk : generate_asm_block g sub d = .ok (some blk)) (req_id : ℕ)
    (hreq : req_id + g.num_dynamic_insts < 2 ^ 63) (tsc : BitVec 64) (body : Body)
    (hbody : body.KeepsCount) (s : RunState) (hs : s.cpu.args 5 = BitVec.ofNat 64 req_id) :
    let D := g.num_dynamic_insts
    let S := sub.num_static_insts
    let K := max 1 (roundEven (D / S : ℚ))
    ((num_turns D S = K ∧ |(K * S - D : ℚ)| ≤ S / 2 ∧ Assembles blk.program ∧
        ∃ s', Reaches (machine tsc body blk.offsets) blk.program (blk.program, s) ([], s') ∧
          s'.turn = s.turn + K.toNat) ↔
      2 * D < (2 ^ 32 - 1) * S ∧ DoublesKeep D S) ∧
    (D < 2 ^ 52 → DoublesKeep D S) := by
  intro D S K
  obtain ⟨hstatic, hmem⟩ := submission_of_row hrow hsub
  have hbounds := static_insts_bounds hdyn hicache
  rw [← hstatic] at hbounds
  obtain ⟨hpos, hle⟩ : 0 < S ∧ S ≤ D := hbounds
  have hone := one_le_roundEven_div hpos hle
  have hkd := roundEven_div_le hpos hle
  have hK : K = roundEven (D / S : ℚ) := max_eq_right hone
  change req_id + D < 2 ^ 63 at hreq
  obtain ⟨lines, lines', -, -, -, rfl⟩ := (generate_asm_block_spec hblk).lines
  refine ⟨?_, fun hlt => doublesKeep_of_lt hpos hle hlt⟩
  rw [hK, assembles_block_text_iff _ _ (by rw [hmem]; exact hdcache), ← roundEven_div_lt_iff hpos]
  constructor
  · rintro ⟨hturns, -, hfits, -⟩
    have hlt : roundEven (D / S : ℚ) < 2 ^ 31 := by
      rw [hturns] at hfits
      omega
    exact ⟨hlt, (num_turns_eq_iff hpos hle hlt).mp hturns⟩
  · rintro ⟨hlt, hkeep⟩
    have hturns : num_turns D S = roundEven (D / S : ℚ) := (num_turns_eq_iff hpos hle hlt).mpr hkeep
    refine ⟨hturns, abs_work_sub_le hpos, by rw [hturns]; omega, ?_⟩
    rw [program_block_text, hturns]
    exact reaches_after_block hbody (by omega) (by omega) hs

/-- A generator for one range, with instructions of 8 bytes. -/
def eightBytes (num_dynamic_insts : ℤ) : Generator :=
  { oneLine with num_dynamic_insts := num_dynamic_insts }

theorem loadBlock_of_plan (num_dynamic_insts : ℤ) (h : 2 ≤ num_dynamic_insts) : ∃ row,
    plan_row num_dynamic_insts (.single 8 1) (.single 1024 (64, 8)) (1024, 64, 8) = .ok row ∧
      loadBlock ∈ submit_row 0 0 0 row := by
  refine ⟨⟨1024, 64, 8, 2, 1⟩, ?_, by decide⟩
  have hnot : ¬ num_dynamic_insts < ((8 / mean_inst_size : ℕ) : ℤ) := by
    change ¬ num_dynamic_insts < 2
    omega
  unfold plan_row
  simp only [hnot, if_false]
  decide +kernel

/-- Seven loads in turns of two are four turns. -/
theorem seven_loads_take_four_turns : ∃ blk,
    generate_asm_block (eightBytes 7) loadBlock loadDraws = .ok (some blk) ∧
      Assembles blk.program ∧
      ∃ s', Reaches (machine 0 ⟨fun _ c => c, by simp, by simp⟩ blk.offsets) blk.program
          (blk.program, ⟨⟨fun _ => 0, fun _ => 5, false, false⟩, 0, []⟩) ([], s') ∧
        s'.turn = 4 := by
  obtain ⟨blk, hblk⟩ : ∃ blk, generate_asm_block (eightBytes 7) loadBlock loadDraws =
      .ok (some blk) := exists_block (by decide +kernel)
  obtain ⟨row, hrow, hsub⟩ := loadBlock_of_plan 7 (by decide)
  have hlaw := block_runs_the_requested_work_iff (eightBytes 7) (by decide) hrow (by decide)
    (by decide) hsub hblk 5 (by decide) 0 ⟨fun _ c => c, by simp, by simp⟩
    ⟨fun _ _ => rfl, fun _ _ => rfl⟩ ⟨⟨fun _ => 0, fun _ => 5, false, false⟩, 0, []⟩ rfl
  obtain ⟨-, -, hfits, s', hrun, hturn⟩ := hlaw.1.mpr ⟨by decide, hlaw.2 (by decide)⟩
  refine ⟨blk, hblk, hfits, s', hrun, hturn.trans ?_⟩
  decide +kernel

/-- For `2 ^ 32` instructions in turns of two, the number of turns is too large for an immediate.
For `2 ^ 53 + 1` instructions in three turns, the product of doubles is less than three turns. -/
theorem large_counts_do_not_assemble_or_lose_a_turn :
    (∃ blk, generate_asm_block (eightBytes (2 ^ 32)) loadBlock loadDraws = .ok (some blk) ∧
      ¬ Assembles blk.program) ∧
    (let D : ℤ := 2 ^ 53 + 1
    let S := static_insts D (4 * ((2 ^ 53 + 1) / 3))
    S * 3 = D ∧ 0 + D < 2 ^ 63 ∧ num_turns D S = 2 ∧ ¬ |(num_turns D S * S - D : ℚ)| ≤ S / 2) := by
  refine ⟨?_, by decide +kernel⟩
  obtain ⟨blk, hblk⟩ : ∃ blk, generate_asm_block (eightBytes (2 ^ 32)) loadBlock loadDraws =
      .ok (some blk) := exists_block (by decide +kernel)
  refine ⟨blk, hblk, ?_⟩
  obtain ⟨lines, lines', -, -, -, rfl⟩ := (generate_asm_block_spec hblk).lines
  rw [assembles_block_text_iff _ _ (by decide)]
  decide +kernel

end ditto.assembly_generator
