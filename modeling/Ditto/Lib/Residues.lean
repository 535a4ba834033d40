-- Remainders by two moduli at once: which pairs of remainders a number
-- below a bound can have, and which remainders a window of consecutive
-- numbers holds.
import Mathlib.Data.Nat.ModEq
import Mathlib.Data.Int.ModEq

namespace Residues

variable {n m g a b bound : ℕ}

/-- Every number with both remainders is the Chinese remainder or comes after it. -/
theorem chineseRemainder_le (hn : 0 < n) (hm : 0 < m) (h : a ≡ b [MOD n.gcd m]) {x : ℕ}
    (ha : x ≡ a [MOD n]) (hb : x ≡ b [MOD m]) : (Nat.chineseRemainder' h : ℕ) ≤ x := by
  have hlt := Nat.chineseRemainder'_lt_lcm h hn.ne' hm.ne'
  obtain ⟨hca, hcb⟩ := (Nat.chineseRemainder' h).prop
  have hmod : x ≡ Nat.chineseRemainder' h [MOD n.lcm m] :=
    Nat.mod_lcm (ha.trans hca.symm) (hb.trans hcb.symm)
  rw [← Nat.mod_eq_of_lt hlt, ← hmod]
  exact Nat.mod_le _ _

/-- A number below the bound has both remainders exactly when they agree modulo the
greatest common divisor and their Chinese remainder is below the bound. -/
theorem exists_lt_iff (hn : 0 < n) (hm : 0 < m) (ha : a < n) (hb : b < m) :
    (∃ x < bound, x % n = a ∧ x % m = b) ↔
      ∃ h : a ≡ b [MOD n.gcd m], (Nat.chineseRemainder' h : ℕ) < bound := by
  constructor
  · rintro ⟨x, hx, rfl, rfl⟩
    have hleft : x ≡ x % n [MOD n] := (Nat.mod_modEq x n).symm
    have hright : x ≡ x % m [MOD m] := (Nat.mod_modEq x m).symm
    have hagree : x % n ≡ x % m [MOD n.gcd m] :=
      (hleft.of_dvd (Nat.gcd_dvd_left n m)).symm.trans (hright.of_dvd (Nat.gcd_dvd_right n m))
    exact ⟨hagree, lt_of_le_of_lt (chineseRemainder_le hn hm hagree hleft hright) hx⟩
  · rintro ⟨h, hlt⟩
    obtain ⟨hca, hcb⟩ := (Nat.chineseRemainder' h).prop
    refine ⟨Nat.chineseRemainder' h, hlt, ?_, ?_⟩
    · rw [hca, Nat.mod_eq_of_lt ha]
    · rw [hcb, Nat.mod_eq_of_lt hb]

/-- A window holds every remainder exactly when it is as wide as the modulus. -/
theorem forall_residue_iff {lo hi : ℤ} (hg : 0 < g) (hgm : g ≤ m) (hlo : 0 ≤ lo) (hlt : lo < hi) :
    (∀ j < m, ∃ r : ℕ, lo ≤ r ∧ (r : ℤ) < hi ∧ r ≡ j [MOD g]) ↔ (g : ℤ) ≤ hi - lo := by
  constructor
  · intro h
    -- The remainder of `hi` comes back only `g` numbers before `hi`.
    have hj : hi.toNat % g < m := lt_of_lt_of_le (Nat.mod_lt _ hg) hgm
    obtain ⟨r, hlor, hrhi, hr⟩ := h _ hj
    have hmod : r ≡ hi.toNat [MOD g] := hr.trans (Nat.mod_modEq _ _)
    have hdvd : (g : ℤ) ∣ (hi.toNat : ℤ) - r := Nat.modEq_iff_dvd.mp hmod
    rw [Int.toNat_of_nonneg (by omega)] at hdvd
    have := Int.le_of_dvd (by omega) hdvd
    omega
  · intro hwide j _
    have hpos : (0 : ℤ) < g := by exact_mod_cast hg
    have hnonneg := Int.emod_nonneg (j - lo) hpos.ne'
    have hless := Int.emod_lt_of_pos (j - lo) hpos
    refine ⟨(lo + (j - lo) % g).toNat, by omega, by omega, ?_⟩
    rw [← Int.natCast_modEq_iff, Int.toNat_of_nonneg (by omega)]
    have hmod : lo + (j - lo) % g ≡ lo + (j - lo) [ZMOD g] := (Int.mod_modEq _ _).add_left lo
    rwa [add_sub_cancel] at hmod

end Residues
