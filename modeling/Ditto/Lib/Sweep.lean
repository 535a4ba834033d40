-- A sweep through a region of lines. Each turn works on some lines from its
-- offset on and moves the offset behind them, and an offset above the top
-- goes back to zero. A sweep that does not divide the region misses its end
-- for ever.
import Mathlib.Algebra.Order.Ring.Nat
import Mathlib.Tactic.Linarith
import Mathlib.Tactic.Ring

namespace Sweep

variable {top shift t j o p : ℕ}

/-- Where a turn starts that finds the offset `o`. -/
def place (top o : ℕ) : ℕ := if o ≤ top then o else 0

/-- The starts of the next `t` turns. -/
def starts (top shift : ℕ) : ℕ → ℕ → List ℕ
  | 0, _ => []
  | t + 1, o => place top o :: starts top shift t (place top o + shift)

@[simp] theorem place_of_le (h : o ≤ top) : place top o = o := if_pos h

@[simp] theorem place_of_lt (h : top < o) : place top o = 0 := if_neg (Nat.not_le.mpr h)

theorem place_le (top o : ℕ) : place top o ≤ top := by
  unfold place
  split <;> omega

theorem place_le_self (top o : ℕ) : place top o ≤ o := by
  unfold place
  split <;> omega

/-- An offset above the top is as good as zero. -/
theorem starts_of_lt (h : top < o) (t : ℕ) : starts top shift t o = starts top shift t 0 := by
  cases t with
  | zero => rfl
  | succ t => rw [starts, starts, place_of_lt h, place_of_le (Nat.zero_le top)]

/-- Below the top the offset only moves on. -/
theorem mem_starts_add (h : ∀ i < j, o + i * shift ≤ top) :
    p ∈ starts top shift (j + t) o ↔
      (∃ i < j, p = o + i * shift) ∨ p ∈ starts top shift t (o + j * shift) := by
  induction j generalizing o with
  | zero => simp
  | succ j ih =>
    have hfirst : place top o = o := place_of_le (by simpa using h 0 (Nat.succ_pos j))
    have hrest : ∀ i < j, o + shift + i * shift ≤ top := by
      intro i hi
      have := h (i + 1) (Nat.succ_lt_succ hi)
      rw [Nat.succ_mul] at this
      omega
    rw [Nat.succ_add, starts, List.mem_cons, hfirst, ih hrest,
      show o + shift + j * shift = o + (j + 1) * shift by ring]
    constructor
    · rintro (rfl | ⟨i, hi, rfl⟩ | hp)
      · exact .inl ⟨0, Nat.succ_pos j, by simp⟩
      · exact .inl ⟨i + 1, Nat.succ_lt_succ hi, by ring⟩
      · exact .inr hp
    · rintro (⟨i, hi, rfl⟩ | hp)
      · rcases i with _ | i
        · exact .inl (by simp)
        · exact .inr (.inl ⟨i, Nat.lt_of_succ_lt_succ hi, by ring⟩)
      · exact .inr (.inr hp)

theorem mem_starts_of_le (h : o + j * shift ≤ top) (hj : j < t) :
    o + j * shift ∈ starts top shift t o := by
  obtain ⟨t, rfl⟩ := Nat.exists_eq_add_of_le (Nat.succ_le_of_lt hj)
  apply (mem_starts_add ?_).mpr
  · exact .inl ⟨j, Nat.lt_succ_self j, rfl⟩
  · intro i hi
    have := Nat.mul_le_mul_right shift (Nat.le_of_lt_succ hi)
    omega

/-- The first turns after which the offset is above the top give way to a sweep from zero. -/
theorem mem_starts_of_reset (h : ∀ i < j, o + i * shift ≤ top) (hj : top < o + j * shift)
    (hp : p ∈ starts top shift t 0) : p ∈ starts top shift (j + t) o := by
  rw [mem_starts_add h, starts_of_lt hj]
  exact .inr hp

/-- A sweep from a multiple of the shift stays on the multiples of the shift. -/
theorem dvd_of_mem_starts (ho : shift ∣ o) (hp : p ∈ starts top shift t o) : shift ∣ p := by
  induction t generalizing o with
  | zero => cases hp
  | succ t ih =>
    have hplace : shift ∣ place top o := by
      unfold place
      split
      · exact ho
      · exact dvd_zero shift
    rcases List.mem_cons.mp hp with rfl | hp
    · exact hplace
    · exact ih (Nat.dvd_add hplace (dvd_refl shift)) hp

theorem le_of_mem_starts (hp : p ∈ starts top shift t o) : p ≤ top := by
  induction t generalizing o with
  | zero => cases hp
  | succ t ih =>
    rcases List.mem_cons.mp hp with rfl | hp
    · exact place_le top o
    · exact ih hp

/-! ## The lines of a region -/

/-- The region has `L` lines of `c` bytes, and a turn works on `n` of them. -/
def Covered (c n : ℕ) (ps : List ℕ) (i : ℕ) : Prop := ∃ p ∈ ps, p / c ≤ i ∧ i < p / c + n

section lines

variable {c n L i : ℕ}

/-- From zero, a turn that divides the region gets to every line in its own order. -/
theorem covered_of_dvd (hc : 0 < c) (hn : 0 < n) (hdvd : n ∣ L) (hi : i < L) (ht : L / n ≤ t) :
    Covered c n (starts ((L - n) * c) (n * c) t 0) i := by
  obtain ⟨m, rfl⟩ := hdvd
  rw [Nat.mul_div_cancel_left m hn] at ht
  have hturn : i / n < m := Nat.div_lt_of_lt_mul hi
  have hle : i / n * n ≤ i := Nat.div_mul_le_self i n
  have hlt : i < i / n * n + n := Nat.lt_div_mul_add hn
  have hend : i / n * n + n ≤ n * m := by
    have := Nat.mul_le_mul_right n (Nat.succ_le_of_lt hturn)
    rw [Nat.succ_mul] at this
    linarith [Nat.mul_comm n m]
  have hbytes : 0 + i / n * (n * c) = i / n * n * c := by ring
  have hmem : 0 + i / n * (n * c) ∈ starts ((n * m - n) * c) (n * c) t 0 := by
    apply mem_starts_of_le _ (by omega)
    rw [hbytes]
    exact Nat.mul_le_mul_right c (by omega)
  refine ⟨_, hmem, ?_⟩
  rw [hbytes, Nat.mul_div_cancel _ hc]
  exact ⟨hle, hlt⟩

/-- The turns until the offset is above the top. -/
def resetAfter (top shift o : ℕ) : ℕ := if o ≤ top then (top - o) / shift + 1 else 0

theorem lt_resetAfter (hi : i < resetAfter top shift o) : o + i * shift ≤ top := by
  unfold resetAfter at hi
  split at hi
  · have hle := Nat.mul_le_mul_right shift (Nat.le_of_lt_succ hi)
    have := Nat.div_mul_le_self (top - o) shift
    omega
  · cases hi

theorem resetAfter_lt (hshift : 0 < shift) : top < o + resetAfter top shift o * shift := by
  unfold resetAfter
  split
  · have := @Nat.lt_div_mul_add (top - o) _ hshift
    rw [Nat.succ_mul]
    omega
  · omega

/-- A sweep that starts above zero is back at zero one turn early. -/
theorem resetAfter_le {m : ℕ} (ho : 0 < o) :
    resetAfter ((n * m - n) * c) (n * c) o ≤ m - 1 := by
  unfold resetAfter
  split
  · rename_i hle
    have htop : (n * m - n) * c = n * c * (m - 1) := by
      rw [show n * m - n = n * (m - 1) by rw [Nat.mul_sub, Nat.mul_one]]
      ring
    have hlt : ((n * m - n) * c - o) / (n * c) < m - 1 := by
      apply Nat.div_lt_of_lt_mul
      omega
    omega
  · exact Nat.zero_le _

/-- From any offset, enough turns for the way back to zero and one sweep get to every line. -/
theorem covered_of_reset (hc : 0 < c) (hn : 0 < n) (hdvd : n ∣ L) (hi : i < L) (ho : 0 < o)
    (ht : 2 * (L / n) ≤ t + 1) : Covered c n (starts ((L - n) * c) (n * c) t o) i := by
  obtain ⟨m, rfl⟩ := hdvd
  rw [Nat.mul_div_cancel_left m hn] at ht
  have hreset := @resetAfter_le o c n m ho
  have hm : 0 < m := Nat.pos_of_ne_zero (by rintro rfl; simp at hi)
  obtain ⟨r, rfl⟩ : ∃ r, t = resetAfter ((n * m - n) * c) (n * c) o + r :=
    Nat.exists_eq_add_of_le (by omega)
  obtain ⟨p, hp, hcover⟩ := @covered_of_dvd r _ _ _ _ hc hn (Dvd.intro m rfl) hi
    (by rw [Nat.mul_div_cancel_left m hn]; omega)
  exact ⟨p, mem_starts_of_reset (fun i hi => lt_resetAfter hi)
    (resetAfter_lt (Nat.mul_pos hn hc)) hp, hcover⟩

/-- One line for each turn: from the start of a line the sweep goes round once. -/
theorem covered_of_one {q : ℕ} (hc : 0 < c) (hq : q ≤ L) (hi : i < L) :
    Covered c 1 (starts ((L - 1) * c) (1 * c) (L + 1) (q * c)) i := by
  rw [Nat.one_mul]
  have hline : i * c / c = i := Nat.mul_div_cancel i hc
  refine ⟨i * c, ?_, by rw [hline], by rw [hline]; omega⟩
  rcases Nat.lt_or_ge i q with hlt | hge
  · -- The line is before the start, so the sweep gets there from zero.
    have hbelow : ∀ k < L - q, q * c + k * c ≤ (L - 1) * c := by
      intro k hk
      rw [← Nat.add_mul]
      exact Nat.mul_le_mul_right c (by omega)
    have habove : (L - 1) * c < q * c + (L - q) * c := by
      rw [← Nat.add_mul]
      exact Nat.mul_lt_mul_of_pos_right (by omega) hc
    have hmem : 0 + i * c ∈ starts ((L - 1) * c) c (q + 1) 0 := by
      apply mem_starts_of_le _ (by omega)
      rw [Nat.zero_add]
      exact Nat.mul_le_mul_right c (by omega)
    rw [Nat.zero_add] at hmem
    have hturns : L + 1 = L - q + (q + 1) := by omega
    rw [hturns]
    exact mem_starts_of_reset hbelow habove hmem
  · have hbytes : q * c + (i - q) * c = i * c := by
      rw [← Nat.add_mul]
      congr 1
      omega
    rw [← hbytes]
    apply mem_starts_of_le _ (by omega)
    rw [hbytes]
    exact Nat.mul_le_mul_right c (by omega)

/-- A sweep from zero that gets to the last line divides the region. -/
theorem dvd_of_covered (hc : 0 < c) (hn : 0 < n) (hL : n ≤ L)
    (h : Covered c n (starts ((L - n) * c) (n * c) t 0) (L - 1)) : n ∣ L := by
  obtain ⟨p, hp, -, hlast⟩ := h
  obtain ⟨m, rfl⟩ := dvd_of_mem_starts (dvd_zero _) hp
  have hline : n * c * m = n * m * c := by ring
  have htop := le_of_mem_starts hp
  rw [hline] at htop
  rw [hline, Nat.mul_div_cancel _ hc] at hlast
  have hle := Nat.le_of_mul_le_mul_right htop hc
  exact ⟨m + 1, by rw [Nat.mul_succ]; omega⟩

/-- One line for each turn, from one byte behind the start of a line: the sweep goes back
to zero in front of the last line. -/
theorem not_covered_of_one (hc : 2 ≤ c) (hL : 3 ≤ L) :
    ¬ Covered c 1 (starts ((L - 1) * c) (1 * c) (L + 1) 1) (L - 1) := by
  rw [Nat.one_mul]
  rintro ⟨p, hp, hle, hlt⟩
  have hpline : p / c = L - 1 := by omega
  have hbelow : ∀ k < L - 1, 1 + k * c ≤ (L - 1) * c := by
    intro k hk
    have := Nat.mul_le_mul_right c (Nat.succ_le_of_lt hk)
    rw [Nat.succ_mul] at this
    omega
  rw [show L + 1 = L - 1 + 2 by omega, mem_starts_add hbelow] at hp
  rcases hp with ⟨k, hk, rfl⟩ | hp
  · rw [Nat.add_mul_div_right 1 k (by omega), Nat.div_eq_of_lt (by omega)] at hpline
    omega
  · rw [starts_of_lt (by omega)] at hp
    simp only [starts, List.mem_cons, List.not_mem_nil, or_false] at hp
    have hzero := place_le_self ((L - 1) * c) 0
    have hnext := place_le_self ((L - 1) * c) (place ((L - 1) * c) 0 + c)
    have hshort : p ≤ c := by omega
    have := @Nat.div_le_div_right p c c hshort
    rw [Nat.div_self (by omega)] at this
    omega

/-! ## When a sweep gets to every line -/

theorem two_mul_div_le (hn : 0 < n) (hdvd : n ∣ L) (h : 2 ≤ n ∨ L ≤ 2) : 2 * (L / n) ≤ L + 1 + 1 := by
  obtain ⟨m, rfl⟩ := hdvd
  rw [Nat.mul_div_cancel_left m hn]
  rcases h with h | h
  · have := Nat.mul_le_mul_right m h
    omega
  · have := Nat.le_mul_of_pos_left m hn
    omega

/-- From every offset, `L + 1` turns get to every line exactly when a turn divides the region
and is more than one line, or the region is at most two lines. -/
theorem covered_iff (hc : 2 ≤ c) (hn : 0 < n) (hL : n ≤ L) :
    (∀ o ≤ L * c, ∀ i < L, Covered c n (starts ((L - n) * c) (n * c) (L + 1) o) i) ↔
      n ∣ L ∧ (2 ≤ n ∨ L ≤ 2) := by
  have hc' : 0 < c := by omega
  constructor
  · intro h
    refine ⟨dvd_of_covered hc' hn hL (h 0 (Nat.zero_le _) (L - 1) (by omega)), ?_⟩
    by_contra hnot
    obtain rfl : n = 1 := by omega
    have hbound : 1 ≤ L * c := Nat.mul_pos (by omega) hc'
    exact not_covered_of_one hc (by omega) (h 1 hbound (L - 1) (by omega))
  · rintro ⟨hdvd, hwide⟩ o _ i hi
    rcases Nat.eq_zero_or_pos o with rfl | ho
    · apply covered_of_dvd hc' hn hdvd hi
      exact Nat.le_trans (Nat.div_le_self L n) (Nat.le_succ L)
    · exact covered_of_reset hc' hn hdvd hi ho (two_mul_div_le hn hdvd hwide)

/-- From the start of every line it is enough that a turn divides the region. -/
theorem covered_iff_of_aligned (hc : 0 < c) (hn : 0 < n) (hL : n ≤ L) :
    (∀ o ≤ L * c, c ∣ o → ∀ i < L, Covered c n (starts ((L - n) * c) (n * c) (L + 1) o) i) ↔
      n ∣ L := by
  constructor
  · intro h
    exact dvd_of_covered hc hn hL (h 0 (Nat.zero_le _) (dvd_zero c) (L - 1) (by omega))
  · rintro hdvd o ho ⟨q, rfl⟩ i hi
    rcases Nat.eq_zero_or_pos (c * q) with hzero | hpos
    · rw [hzero]
      apply covered_of_dvd hc hn hdvd hi
      exact Nat.le_trans (Nat.div_le_self L n) (Nat.le_succ L)
    · by_cases hone : n = 1
      · rw [hone, Nat.mul_comm c q] at *
        exact covered_of_one hc (Nat.le_of_mul_le_mul_right ho hc) hi
      · exact covered_of_reset hc hn hdvd hi hpos (two_mul_div_le hn hdvd (.inl (by omega)))

end lines
end Sweep
