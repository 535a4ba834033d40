-- The shares of the working sets. A data size gets its weight of the
-- requests, up to half a request for each size. An instruction size can
-- lose its share when its bound falls on a data bound.
import Ditto.Dispatch

open Cuts

namespace ditto.assembly_generator

/-! ## The shares before the dictionaries drop any bound -/

theorem mem_rawCuts {N : ℤ} (es : List (ℕ × ℚ)) (idx : ℤ) (c : ℤ × ℕ)
    (hc : c ∈ rawCuts N es idx) : c.2 ∈ es.map Prod.fst := by
  match es with
  | [] => simp [rawCuts] at hc
  | [(s, w)] =>
    simp only [rawCuts, List.mem_singleton] at hc
    simp [hc]
  | (s, w) :: e :: rest =>
    simp only [rawCuts] at hc
    rw [List.map_cons, List.mem_cons]
    split at hc
    · simp only [List.mem_singleton] at hc
      simp [hc]
    · rcases List.mem_cons.mp hc with rfl | hc
      · exact Or.inl rfl
      · exact Or.inr (mem_rawCuts (e :: rest) _ c hc)
termination_by es.length

variable {N : ℤ} {es : List (ℕ × ℚ)}

theorem rawCuts_ne {s : ℕ} (idx : ℤ) (hs : s ∉ es.map Prod.fst) : ∀ c ∈ rawCuts N es idx, c.2 ≠ s :=
  fun c hc hcs => hs (hcs ▸ mem_rawCuts es idx c hc)

theorem ne_size_of_mem {s : ℕ} {e : ℕ × ℚ} (hs : s ∉ es.map Prod.fst) (he : e ∈ es) :
    s ≠ e.1 := fun h => hs (h ▸ List.mem_map_of_mem he)

/-- All the requests from `start` on go to one size. -/
theorem tally_single {start : ℤ} (s : ℕ) (h : start ≤ N) :
    (tally [(N, s)] start N s : ℚ) = N - start := by
  have hself : (tally [(N, s)] start N s : ℤ) = N - start := tally_cons_self h (le_refl N) (by simp)
  exact_mod_cast hself

/-- The drift: what the running sum `idx` and the weights that are left have over `N`. -/
def drift (N idx : ℤ) (es : List (ℕ × ℚ)) : ℚ := idx + N * (es.map Prod.snd).sum - N

theorem weights_nonneg (hw : ∀ e ∈ es, (0 : ℚ) ≤ e.2) : ∀ x ∈ es.map Prod.snd, 0 ≤ x := by
  intro x hx
  obtain ⟨e, he, rfl⟩ := List.mem_map.mp hx
  exact hw e he

theorem weight_le_sum (hw : ∀ e ∈ es, (0 : ℚ) ≤ e.2) {e : ℕ × ℚ} (he : e ∈ es) :
    e.2 ≤ (es.map Prod.snd).sum :=
  List.single_le_sum (weights_nonneg hw) _ (List.mem_map_of_mem he)

theorem sum_nonneg (hw : ∀ e ∈ es, (0 : ℚ) ≤ e.2) :
    0 ≤ (es.map Prod.snd).sum := List.sum_nonneg (weights_nonneg hw)

/-- A rounding moves the drift by at most one half. -/
theorem abs_drift_next_le (N idx : ℤ) (s : ℕ) (w : ℚ) (es : List (ℕ × ℚ)) :
    |drift N (roundEven (idx + w * N)) es| ≤ |drift N idx ((s, w) :: es)| + 1 / 2 := by
  have hround := abs_roundEven_sub_le (idx + w * N)
  have hsplit : drift N (roundEven (idx + w * N)) es =
      drift N idx ((s, w) :: es) + (roundEven (idx + w * N) - (idx + w * N)) := by
    simp only [drift, List.map_cons, List.sum_cons]
    ring
  rw [hsplit]
  exact le_trans (abs_add_le _ _) (by linarith)

/-- The size that ends the iteration cannot lose more than the drift. -/
theorem neg_drift_le_last {idx start : ℤ} {s : ℕ} {w : ℚ} (hN : 0 ≤ N)
    (hw : ∀ e ∈ es, (0 : ℚ) ≤ e.2) (hstart : start ≤ idx) :
    -|drift N idx ((s, w) :: es)| ≤ (N : ℚ) - start - w * N := by
  have hrest : (0 : ℚ) ≤ N * (es.map Prod.snd).sum :=
    mul_nonneg (by exact_mod_cast hN) (sum_nonneg hw)
  have hstart' : (start : ℚ) ≤ idx := by exact_mod_cast hstart
  have hself := le_abs_self (drift N idx ((s, w) :: es))
  have hdrift : (N : ℚ) - idx - w * N =
      N * (es.map Prod.snd).sum - drift N idx ((s, w) :: es) := by
    simp only [drift, List.map_cons, List.sum_cons]
    ring
  linarith

/-- The size that runs past the end of the iteration gains at most one half from `idx` on. -/
theorem last_le_of_stop {idx : ℤ} {w : ℚ} (hstop : N ≤ roundEven (idx + w * N)) :
    (N : ℚ) - idx - w * N ≤ 1 / 2 := by
  have hround := (abs_le.mp (abs_roundEven_sub_le (idx + w * N))).2
  have hstop' : (N : ℚ) ≤ roundEven (idx + w * N) := by exact_mod_cast hstop
  linarith

/-- When a size runs past the end of the iteration, the drift bounds all that the sizes
after it can lose. -/
theorem abs_tally_after_stop_le {idx : ℤ} {s : ℕ} {w : ℚ} {e : ℕ × ℚ} (start : ℤ) (hN : 0 ≤ N)
    (hw : ∀ e ∈ es, (0 : ℚ) ≤ e.2) (hs : s ∉ es.map Prod.fst) (hstop : N ≤ roundEven (idx + w * N))
    (he : e ∈ es) :
    |(tally [(N, s)] start N e.1 : ℚ) - e.2 * N| ≤ |drift N idx ((s, w) :: es)| + 1 / 2 := by
  have hN' : (0 : ℚ) ≤ N := by exact_mod_cast hN
  have hne : s ≠ e.1 := ne_size_of_mem hs he
  have hsum : e.2 * N ≤ (es.map Prod.snd).sum * N :=
    mul_le_mul_of_nonneg_right (weight_le_sum hw he) hN'
  have hdrift : e.2 * N ≤ drift N idx ((s, w) :: es) + 1 / 2 := by
    have hlast := last_le_of_stop hstop
    simp only [drift, List.map_cons, List.sum_cons]
    linarith
  rw [tally_eq_zero start N (by simpa using hne), Nat.cast_zero, zero_sub, abs_neg,
    abs_of_nonneg (mul_nonneg (hw e he) hN')]
  linarith [le_abs_self (drift N idx ((s, w) :: es))]

theorem rawCuts_of_stop {idx : ℤ} {s : ℕ} {w : ℚ} {e : ℕ × ℚ} {rest : List (ℕ × ℚ)}
    (h : N ≤ roundEven (idx + w * N)) : rawCuts N ((s, w) :: e :: rest) idx = [(N, s)] := by
  rw [rawCuts, if_pos h]

theorem rawCuts_of_lt {idx : ℤ} {s : ℕ} {w : ℚ} {e : ℕ × ℚ} {rest : List (ℕ × ℚ)}
    (h : roundEven (idx + w * N) < N) : rawCuts N ((s, w) :: e :: rest) idx =
      (roundEven (idx + w * N), s) :: rawCuts N (e :: rest) (roundEven (idx + w * N)) := by
  rw [rawCuts, if_neg (not_le.mpr h)]

/-- Each size is off its weight by no more than the drift and half a request for each
size that is left. -/
theorem abs_tally_rawCuts_le {N : ℤ} (es : List (ℕ × ℚ)) (idx : ℤ) (hN : 0 ≤ N) (hidx : idx ≤ N)
    (hnd : (es.map Prod.fst).Nodup) (hw : ∀ e ∈ es, (0 : ℚ) ≤ e.2) (e : ℕ × ℚ) (he : e ∈ es) :
    |(tally (rawCuts N es idx) idx N e.1 : ℚ) - e.2 * N| ≤ |drift N idx es| + es.length / 2 := by
  match es with
  | [] => simp at he
  | [(s, w)] =>
    obtain rfl := List.mem_singleton.mp he
    have hdrift : (N : ℚ) - idx - w * N = -drift N idx [(s, w)] := by
      simp only [drift, List.map_cons, List.map_nil, List.sum_cons, List.sum_nil]
      ring
    rw [rawCuts, tally_single s hidx, hdrift, abs_neg]
    simp
  | (s, w) :: e' :: rest =>
    have hw' : ∀ x ∈ e' :: rest, (0 : ℚ) ≤ x.2 := fun x hx => hw x (List.mem_cons_of_mem _ hx)
    have hle : idx ≤ roundEven (idx + w * N) := le_round_next hN (hw (s, w) List.mem_cons_self)
    have hlen0 : (0 : ℚ) ≤ (e' :: rest).length := by positivity
    have habs := abs_nonneg (drift N idx ((s, w) :: e' :: rest))
    rw [List.map_cons, List.nodup_cons] at hnd
    rw [List.length_cons, Nat.cast_add, Nat.cast_one]
    by_cases hstop : N ≤ roundEven (idx + w * N)
    · rw [rawCuts_of_stop hstop]
      rcases List.mem_cons.mp he with rfl | he
      · have hlow := neg_drift_le_last (s := s) (w := w) hN hw' (le_refl idx)
        have hhigh := last_le_of_stop hstop
        rw [tally_single s hidx, abs_le]
        refine ⟨?_, ?_⟩
        · linarith
        · linarith
      · have hlost := abs_tally_after_stop_le idx hN hw' hnd.1 hstop he
        linarith
    · have hlt : roundEven (idx + w * N) < N := not_le.mp hstop
      rw [rawCuts_of_lt hlt]
      rcases List.mem_cons.mp he with rfl | he
      · have hself := tally_cons_self hle (le_of_lt hlt)
          (rawCuts_ne (N := N) (roundEven (idx + w * N)) hnd.1)
        have hround := abs_roundEven_sub_le (idx + w * N)
        rw [← Int.cast_natCast, hself, Int.cast_sub, sub_sub]
        linarith
      · have hne : s ≠ e.1 := ne_size_of_mem hnd.1 he
        have ih := abs_tally_rawCuts_le (e' :: rest) (roundEven (idx + w * N)) hN (le_of_lt hlt)
          hnd.2 hw' e he
        have hd := abs_drift_next_le N idx s w (e' :: rest)
        rw [tally_cons_of_ne hle (le_of_lt hlt) hne]
        linarith
termination_by es.length

/-! ## The shares of the instruction sizes -/

/-- The rounded running sums of the data weights. -/
def dataBounds (N : ℤ) (dcache_stats : PyDict ℕ ℚ) : List ℤ :=
  (rawCuts N dcache_stats.entries 0).map Prod.fst

/-- The rounded running sum of the first `j` weights, from `idx` on. -/
def bound (N : ℤ) (es : List (ℕ × ℚ)) (idx : ℤ) (j : ℕ) : ℤ :=
  (es.take j).foldl (fun idx e => roundEven (idx + e.2 * N)) idx

/-- Where the size `j` ends. The last size takes everything that is left. -/
def edge (N : ℤ) (es : List (ℕ × ℚ)) (idx : ℤ) (j : ℕ) : ℤ :=
  if j + 1 = es.length then N else min N (bound N es idx (j + 1))

/-- The size `j` ends at a bound of `D`, or where the next size ends too. -/
def Lost (D : List ℤ) (N : ℤ) (es : List (ℕ × ℚ)) (idx : ℤ) (j : ℕ) : Prop :=
  j + 1 < es.length ∧ bound N es idx (j + 1) < N ∧
    (bound N es idx (j + 1) ∈ D ∨
      j + 2 < es.length ∧ bound N es idx (j + 2) = bound N es idx (j + 1))

instance (D : List ℤ) (N : ℤ) (es : List (ℕ × ℚ)) (idx : ℤ) (j : ℕ) :
    Decidable (Lost D N es idx j) := inferInstanceAs (Decidable (_ ∧ _ ∧ (_ ∨ _ ∧ _)))

/-- The sizes that lose their bound are light. Each of them has a weight of `K / 2` requests at
most, and those in a row in front of a size `k` span as much at most, less what the rounding
gives to `k`. -/
structure LostAreLight (D : List ℤ) (N : ℤ) (es : List (ℕ × ℚ)) : Prop where
  each : ∀ j, (hj : j < es.length) → Lost D N es 0 j → es[j].2 * N ≤ es.length / 2
  row : ∀ k, (hk : k < es.length) → ∀ i < k, (∀ j < k, i ≤ j → Lost D N es 0 j) →
    ¬ Lost D N es 0 k →
    (bound N es 0 k - bound N es 0 i : ℚ) ≤
      es.length / 2 - (edge N es 0 k - bound N es 0 k - es[k].2 * N)

theorem lostAreLight_iff {D : List ℤ} : LostAreLight D N es ↔
    (∀ j, (hj : j < es.length) → Lost D N es 0 j → es[j].2 * N ≤ es.length / 2) ∧
      ∀ k, (hk : k < es.length) → ∀ i < k, (∀ j < k, i ≤ j → Lost D N es 0 j) →
        ¬ Lost D N es 0 k → (bound N es 0 k - bound N es 0 i : ℚ) ≤
          es.length / 2 - (edge N es 0 k - bound N es 0 k - es[k].2 * N) :=
  ⟨fun h => ⟨h.each, h.row⟩, fun h => ⟨h.1, h.2⟩⟩

instance (D : List ℤ) (N : ℤ) (es : List (ℕ × ℚ)) : Decidable (LostAreLight D N es) :=
  decidable_of_iff' _ lostAreLight_iff

section Light

variable {D : List ℤ} {N idx start : ℤ} {K : ℕ} {e : ℕ × ℚ} {es : List (ℕ × ℚ)} {j : ℕ}

@[simp] theorem bound_zero : bound N es idx 0 = idx := rfl

@[simp] theorem bound_cons_succ :
    bound N (e :: es) idx (j + 1) = bound N es (roundEven (idx + e.2 * N)) j := rfl

theorem edge_cons_succ :
    edge N (e :: es) idx (j + 1) = edge N es (roundEven (idx + e.2 * N)) j := by
  simp [edge]

theorem lost_cons_succ :
    Lost D N (e :: es) idx (j + 1) ↔ Lost D N es (roundEven (idx + e.2 * N)) j := by
  have hlen : j + 1 + 2 ≤ es.length ↔ j + 2 < es.length := by omega
  simp [Lost, hlen]

theorem lost_cons_zero {e' : ℕ × ℚ} :
    Lost D N (e :: e' :: es) idx 0 ↔ roundEven (idx + e.2 * N) < N ∧
      Dropped D N (roundEven (idx + e.2 * N)) (e' :: es) := by
  cases es with
  | nil => simp [Lost, Dropped, Overwritten]
  | cons e'' es => simp [Lost, Dropped, Overwritten]

theorem le_bound (hN : 0 ≤ N) (hw : ∀ e ∈ es, (0 : ℚ) ≤ e.2) : idx ≤ bound N es idx j := by
  induction es generalizing idx j with
  | nil => simp [bound]
  | cons e es ih =>
    cases j with
    | zero => exact le_refl idx
    | succ j =>
      rw [List.forall_mem_cons] at hw
      exact (le_round_next hN hw.1).trans (ih hw.2)

/-- The laws of `LostAreLight` in the middle of the loop, where the requests from `start` on have
no size yet and the running sum is `idx`. -/
structure Light (D : List ℤ) (N : ℤ) (K : ℕ) (es : List (ℕ × ℚ)) (start idx : ℤ) : Prop where
  each : ∀ j, (hj : j < es.length) → Lost D N es idx j → es[j].2 * N ≤ K / 2
  row : ∀ k, (hk : k < es.length) → bound N es idx k < N → ∀ i ≤ k,
    (∀ j < k, i ≤ j → Lost D N es idx j) → ¬ Lost D N es idx k →
    (edge N es idx k : ℚ) - (if i = 0 then start else bound N es idx i) - es[k].2 * N ≤ K / 2

/-- Where the row that goes on behind the first size begins. -/
def restStart (D : List ℤ) (N : ℤ) (e : ℕ × ℚ) (es : List (ℕ × ℚ)) (start idx : ℤ) : ℤ :=
  if Lost D N (e :: es) idx 0 then start else roundEven (idx + e.2 * N)

theorem Light.tail (h : Light D N K (e :: es) start idx) :
    Light D N K es (restStart D N e es start idx) (roundEven (idx + e.2 * N)) := by
  refine ⟨fun j hj hjl => h.each (j + 1) (Nat.succ_lt_succ hj) (lost_cons_succ.mpr hjl), ?_⟩
  intro k hk hkN i hik hrow hkl
  have hrow' : ∀ j < k, i + 1 ≤ j + 1 → Lost D N (e :: es) idx (j + 1) := fun j hj hij =>
    lost_cons_succ.mpr (hrow j hj (Nat.le_of_succ_le_succ hij))
  have hlong := h.row (k + 1) (Nat.succ_lt_succ hk) hkN
  simp only [edge_cons_succ, lost_cons_succ, List.getElem_cons_succ] at hlong
  unfold restStart
  by_cases hi : i = 0 ∧ Lost D N (e :: es) idx 0
  · -- The row begins one size earlier in the longer list.
    have := hlong 0 (Nat.zero_le _) (fun j hj _ => by
      cases j with
      | zero => exact hi.2
      | succ j => exact hrow' j (by omega) (by omega)) hkl
    simpa [hi.1, hi.2] using this
  · have := hlong (i + 1) (by omega) (fun j hj hij => by
      cases j with
      | zero => omega
      | succ j => exact hrow' j (by omega) hij) hkl
    rcases Nat.eq_zero_or_pos i with rfl | hpos
    · simpa [show ¬ Lost D N (e :: es) idx 0 from fun hlost => hi ⟨rfl, hlost⟩] using this
    · simpa [hpos.ne'] using this

/-- The laws for a list are those for its first size and for the rest of it, where the requests of a
lost size go to the next one. -/
theorem light_cons (hN : 0 ≤ N) (hw : 0 ≤ e.2) (hstart : start ≤ idx) :
    Light D N K (e :: es) start idx ↔
      (if Lost D N (e :: es) idx 0 then e.2 * N ≤ K / 2
        else idx < N → (edge N (e :: es) idx 0 : ℚ) - start - e.2 * N ≤ K / 2) ∧
      Light D N K es (restStart D N e es start idx) (roundEven (idx + e.2 * N)) := by
  constructor
  · intro h
    refine ⟨?_, h.tail⟩
    split
    · rename_i hlost
      exact h.each 0 (Nat.succ_pos _) hlost
    · rename_i hlost
      intro hidx
      simpa using h.row 0 (Nat.succ_pos _) hidx 0 le_rfl (by simp) hlost
  · rintro ⟨hfirst, h⟩
    refine ⟨?_, ?_⟩
    · intro j hj hjl
      cases j with
      | zero => rwa [if_pos hjl] at hfirst
      | succ j => exact h.each j (Nat.lt_of_succ_lt_succ hj) (lost_cons_succ.mp hjl)
    · intro k hk hkN i hik hrow hkl
      cases k with
      | zero =>
        obtain rfl : i = 0 := Nat.le_zero.mp hik
        rw [if_neg hkl] at hfirst
        exact hfirst hkN
      | succ k =>
        have hshort := h.row k (Nat.lt_of_succ_lt_succ hk) hkN (i - 1) (by omega)
          (fun j hj hij => lost_cons_succ.mp (hrow (j + 1) (by omega) (by omega)))
          (mt lost_cons_succ.mpr hkl)
        unfold restStart at hshort
        rw [edge_cons_succ, List.getElem_cons_succ]
        match i with
        | 0 => simpa [hrow 0 (Nat.succ_pos k) le_rfl] using hshort
        | 1 =>
          -- The row that begins here is a part of the one that begins at `start`.
          have hle : (if Lost D N (e :: es) idx 0 then start else roundEven (idx + e.2 * N)) ≤
              roundEven (idx + e.2 * N) := by
            split
            · exact hstart.trans (le_round_next hN hw)
            · exact le_rfl
          have hle' := (Int.cast_le (R := ℚ)).mpr hle
          simp only [Nat.sub_self, if_true, one_ne_zero, if_false, bound_cons_succ,
            bound_zero] at hshort ⊢
          linarith
        | i + 2 => simpa using hshort

/-- Behind the end of the iteration there is no law. -/
theorem light_of_le (hN : 0 ≤ N) (hw : ∀ e ∈ es, (0 : ℚ) ≤ e.2) (h : N ≤ idx) :
    Light D N K es start idx where
  each _ _ hj := absurd (h.trans (le_bound hN hw)) (not_le.mpr hj.2.1)
  row _ _ hk := absurd (h.trans (le_bound hN hw)) (not_le.mpr hk)

/-- The size that ends the iteration is the last one with a law. -/
theorem light_cons_of_last (hN : 0 ≤ N) (hw : ∀ x ∈ e :: es, (0 : ℚ) ≤ x.2) (hstart : start ≤ idx)
    (hidx : idx < N) (hlast : es = [] ∨ N ≤ roundEven (idx + e.2 * N)) :
    Light D N K (e :: es) start idx ↔ (N : ℚ) - start - e.2 * N ≤ K / 2 := by
  have hedge : edge N (e :: es) idx 0 = N := by
    rcases hlast with rfl | hstop
    · simp [edge]
    · simpa [edge] using fun _ => hstop
  have hlost : ¬ Lost D N (e :: es) idx 0 := by
    rintro ⟨hlen, hlt, -⟩
    rcases hlast with rfl | hstop
    · simp at hlen
    · exact absurd hstop (not_le.mpr hlt)
  have hrest : Light D N K es (roundEven (idx + e.2 * N)) (roundEven (idx + e.2 * N)) := by
    rcases hlast with rfl | hstop
    · exact ⟨by simp, by simp⟩
    · exact light_of_le hN (List.forall_mem_cons.mp hw).2 hstop
  rw [light_cons hN (hw e List.mem_cons_self) hstart, restStart, if_neg hlost, if_neg hlost, hedge]
  exact ⟨fun h => h.1 hidx, fun h => ⟨fun _ => h, hrest⟩⟩

variable {s : ℕ} {w : ℚ} {e' : ℕ × ℚ} {rest : List (ℕ × ℚ)}

theorem light_cons_of_dropped (hN : 0 ≤ N) (hw : 0 ≤ w) (hstart : start ≤ idx)
    (hlt : roundEven (idx + w * N) < N) (hdrop : Dropped D N (roundEven (idx + w * N)) (e' :: rest)) :
    Light D N K ((s, w) :: e' :: rest) start idx ↔
      w * N ≤ K / 2 ∧ Light D N K (e' :: rest) start (roundEven (idx + w * N)) := by
  have hlost : Lost D N ((s, w) :: e' :: rest) idx 0 := lost_cons_zero.mpr ⟨hlt, hdrop⟩
  rw [light_cons hN hw hstart, restStart, if_pos hlost, if_pos hlost]

theorem light_cons_of_kept (hN : 0 ≤ N) (hw : 0 ≤ w) (hstart : start ≤ idx)
    (hlt : roundEven (idx + w * N) < N) (hidx : idx < N)
    (hkept : ¬ Dropped D N (roundEven (idx + w * N)) (e' :: rest)) :
    Light D N K ((s, w) :: e' :: rest) start idx ↔
      (roundEven (idx + w * N) : ℚ) - start - w * N ≤ K / 2 ∧
        Light D N K (e' :: rest) (roundEven (idx + w * N)) (roundEven (idx + w * N)) := by
  have hlost : ¬ Lost D N ((s, w) :: e' :: rest) idx 0 := fun h => hkept (lost_cons_zero.mp h).2
  have hedge : edge N ((s, w) :: e' :: rest) idx 0 = roundEven (idx + w * N) := by
    simpa [edge] using hlt.le
  rw [light_cons hN hw hstart, restStart, if_neg hlost, if_neg hlost, hedge, imp_iff_right hidx]

/-- The drift behind `k` sizes. -/
theorem abs_drift_drop_le (es : List (ℕ × ℚ)) (idx : ℤ) (k : ℕ) (hk : k ≤ es.length) :
    |drift N (bound N es idx k) (es.drop k)| ≤ |drift N idx es| + k / 2 := by
  induction es generalizing idx k with
  | nil =>
    obtain rfl : k = 0 := by simpa using hk
    simp
  | cons e es ih =>
    cases k with
    | zero => simp
    | succ k =>
      have hrest := ih (roundEven (idx + e.2 * N)) k (by simpa using hk)
      have hnext := abs_drift_next_le N idx e.1 e.2 es
      rw [bound_cons_succ, List.drop_succ_cons]
      push_cast
      linarith

/-- What the rounding gives to one size is within the bound of all of them. -/
theorem edge_sub_le (hdrift : drift N 0 es = 0) {k : ℕ}
    (hk : k < es.length) :
    (edge N es 0 k : ℚ) - bound N es 0 k - es[k].2 * N ≤ es.length / 2 := by
  have hdrop := abs_drift_drop_le (N := N) es 0 k hk.le
  have hlen : (k : ℚ) + 1 ≤ es.length := by exact_mod_cast hk
  rw [hdrift, abs_zero, zero_add] at hdrop
  unfold edge
  split
  · rename_i hlast
    have hone : es.drop k = [es[k]] := by
      rw [List.drop_eq_getElem_cons hk, List.drop_of_length_le (by omega)]
    have hneg := neg_le_of_abs_le hdrop
    rw [hone] at hneg
    simp only [drift, List.map_cons, List.map_nil, List.sum_cons, List.sum_nil, add_zero] at hneg
    linarith
  · have hstep : bound N es 0 (k + 1) = roundEven (bound N es 0 k + es[k].2 * N) := by
      unfold bound
      rw [List.take_succ_eq_append_getElem hk, List.foldl_append]
      rfl
    have hround := (abs_le.mp (abs_roundEven_sub_le (bound N es 0 k + es[k].2 * N))).2
    have hmin : ((min N (bound N es 0 (k + 1)) : ℤ) : ℚ) ≤ bound N es 0 (k + 1) := by
      exact_mod_cast min_le_right _ _
    rw [hstep] at hmin ⊢
    linarith

theorem light_iff_lostAreLight (hdrift : drift N 0 es = 0) :
    Light D N es.length es 0 0 ↔ LostAreLight D N es := by
  have hfrom : ∀ i, ((if i = 0 then 0 else bound N es 0 i : ℤ) : ℚ) = bound N es 0 i := by
    intro i
    split
    · rename_i hi
      rw [hi]
      rfl
    · rfl
  constructor
  · intro h
    refine ⟨h.each, ?_⟩
    intro k hk i hi hrow hkl
    have hlast := (hrow (k - 1) (by omega) (by omega)).2.1
    rw [Nat.sub_add_cancel (by omega)] at hlast
    have := h.row k hk hlast i hi.le hrow hkl
    rw [hfrom] at this
    linarith
  · intro h
    refine ⟨h.each, ?_⟩
    intro k hk _ i hi hrow hkl
    rw [hfrom]
    rcases hi.lt_or_eq with hi | rfl
    · have := h.row k hk i hi hrow hkl
      linarith
    · exact edge_sub_le hdrift hk

end Light

theorem mem_keptCuts {D : List ℤ} {N : ℤ} (es : List (ℕ × ℚ)) (idx : ℤ) (c : ℤ × ℕ)
    (hc : c ∈ keptCuts D N es idx) : c.2 ∈ es.map Prod.fst := by
  match es with
  | [] => simp [keptCuts] at hc
  | [(s, w)] =>
    simp only [keptCuts, List.mem_singleton] at hc
    simp [hc]
  | (s, w) :: e :: rest =>
    simp only [keptCuts] at hc
    rw [List.map_cons, List.mem_cons]
    split at hc
    · simp only [List.mem_singleton] at hc
      simp [hc]
    · split at hc
      · exact Or.inr (mem_keptCuts (e :: rest) _ c hc)
      · rcases List.mem_cons.mp hc with rfl | hc
        · exact Or.inl rfl
        · exact Or.inr (mem_keptCuts (e :: rest) _ c hc)
termination_by es.length

theorem keptCuts_congr {D D' : List ℤ} {N : ℤ} (h : ∀ x, x ∈ D ↔ x ∈ D') (es : List (ℕ × ℚ))
    (idx : ℤ) : keptCuts D N es idx = keptCuts D' N es idx := by
  match es with
  | [] => rfl
  | [(s, w)] => rfl
  | (s, w) :: e :: rest =>
    have hd : ∀ next, Dropped D N next (e :: rest) ↔ Dropped D' N next (e :: rest) := fun next =>
      or_congr (h next) Iff.rfl
    simp only [keptCuts, hd, keptCuts_congr h (e :: rest)]
termination_by es.length

theorem keptCuts_ne {D : List ℤ} {s : ℕ} (idx : ℤ) (hs : s ∉ es.map Prod.fst) :
    ∀ c ∈ keptCuts D N es idx, c.2 ≠ s :=
  fun c hc hcs => hs (hcs ▸ mem_keptCuts es idx c hc)

section

variable {D : List ℤ} {N idx : ℤ} {s : ℕ} {w : ℚ} {e : ℕ × ℚ} {rest : List (ℕ × ℚ)}

theorem keptCuts_of_stop (h : N ≤ roundEven (idx + w * N)) :
    keptCuts D N ((s, w) :: e :: rest) idx = [(N, s)] := by
  simp only [keptCuts, if_pos h]

theorem keptCuts_of_dropped (h : ¬ N ≤ roundEven (idx + w * N))
    (hd : Dropped D N (roundEven (idx + w * N)) (e :: rest)) :
    keptCuts D N ((s, w) :: e :: rest) idx =
      keptCuts D N (e :: rest) (roundEven (idx + w * N)) := by
  simp only [keptCuts, if_neg h, if_pos hd]

theorem keptCuts_of_kept (h : ¬ N ≤ roundEven (idx + w * N))
    (hd : ¬ Dropped D N (roundEven (idx + w * N)) (e :: rest)) :
    keptCuts D N ((s, w) :: e :: rest) idx = (roundEven (idx + w * N), s) ::
      keptCuts D N (e :: rest) (roundEven (idx + w * N)) := by
  simp only [keptCuts, if_neg h, if_neg hd]

end

theorem abs_le_iff_of_neg_le {a b : ℚ} (h : -b ≤ a) : |a| ≤ b ↔ a ≤ b := by
  rw [abs_le]
  exact ⟨fun h => h.2, fun h' => ⟨h, h'⟩⟩

/-- The shares of the sizes that are left hold exactly when those that lose their bound are
light. -/
theorem tally_keptCuts_iff {D : List ℤ} {N : ℤ} {K : ℕ} (es : List (ℕ × ℚ)) (start idx : ℤ)
    (hN : 0 ≤ N) (hstart : start ≤ idx) (hidx : idx < N) (hnd : (es.map Prod.fst).Nodup)
    (hw : ∀ e ∈ es, (0 : ℚ) ≤ e.2) (hK : |drift N idx es| + es.length / 2 ≤ (K : ℚ) / 2) :
    (∀ e ∈ es, |(tally (keptCuts D N es idx) start N e.1 : ℚ) - e.2 * N| ≤ K / 2) ↔
      Light D N K es start idx := by
  match es with
  | [] => exact ⟨fun _ => ⟨by simp, by simp⟩, fun _ => by simp⟩
  | [(s, w)] =>
    have hlow := neg_drift_le_last (s := s) (w := w) hN (List.forall_mem_nil _) hstart
    rw [List.length_singleton, Nat.cast_one] at hK
    rw [light_cons_of_last hN hw hstart hidx (.inl rfl)]
    simp only [List.mem_singleton, forall_eq, keptCuts, tally_single s (hstart.trans hidx.le)]
    exact abs_le_iff_of_neg_le (by linarith)
  | (s, w) :: e' :: rest =>
    have hw' : ∀ x ∈ e' :: rest, (0 : ℚ) ≤ x.2 := fun x hx => hw x (List.mem_cons_of_mem _ hx)
    have hws : 0 ≤ w := hw (s, w) List.mem_cons_self
    have hle : idx ≤ roundEven (idx + w * N) := le_round_next hN hws
    have hlen1 : (1 : ℚ) ≤ (e' :: rest).length := by simp
    have habs := abs_nonneg (drift N idx ((s, w) :: e' :: rest))
    have hd := abs_drift_next_le N idx s w (e' :: rest)
    rw [List.map_cons, List.nodup_cons] at hnd
    rw [List.length_cons, Nat.cast_add, Nat.cast_one] at hK
    rw [List.forall_mem_cons]
    by_cases hstop : N ≤ roundEven (idx + w * N)
    · have hlow := neg_drift_le_last (s := s) (w := w) hN hw' hstart
      rw [keptCuts_of_stop hstop, light_cons_of_last hN hw hstart hidx (.inr hstop),
        tally_single s (hstart.trans hidx.le), abs_le_iff_of_neg_le (by linarith)]
      refine ⟨fun h => h.1, fun h => ⟨h, ?_⟩⟩
      intro e he
      have hlost := abs_tally_after_stop_le start hN hw' hnd.1 hstop he
      linarith
    · have hlt : roundEven (idx + w * N) < N := not_le.mp hstop
      by_cases hdrop : Dropped D N (roundEven (idx + w * N)) (e' :: rest)
      · have hpos : 0 ≤ w * N := mul_nonneg hws (by exact_mod_cast hN)
        rw [keptCuts_of_dropped hstop hdrop, light_cons_of_dropped hN hws hstart hlt hdrop,
          tally_keptCuts_iff (e' :: rest) start _ hN (hstart.trans hle) hlt hnd.2 hw'
            (by linarith), tally_eq_zero start N (keptCuts_ne _ hnd.1), Nat.cast_zero, zero_sub,
          abs_neg, abs_of_nonneg hpos]
      · have hself := tally_cons_self (hstart.trans hle) hlt.le
          (keptCuts_ne (D := D) (N := N) (roundEven (idx + w * N)) hnd.1)
        have hround := (abs_le.mp (abs_roundEven_sub_le (idx + w * N))).1
        have hstart' : (start : ℚ) ≤ idx := by exact_mod_cast hstart
        rw [keptCuts_of_kept hstop hdrop, light_cons_of_kept hN hws hstart hlt hidx hdrop,
          ← tally_keptCuts_iff (e' :: rest) (roundEven (idx + w * N)) _ hN (le_refl _) hlt hnd.2 hw'
            (by linarith)]
        refine and_congr ?_ ?_
        · rw [← Int.cast_natCast, hself, Int.cast_sub]
          exact abs_le_iff_of_neg_le (by linarith)
        · refine forall_congr' fun e => imp_congr_right fun he => ?_
          have hne : s ≠ e.1 := ne_size_of_mem hnd.1 he
          rw [tally_cons_of_ne (hstart.trans hle) hlt.le hne]
termination_by es.length

/-! ## The requests and the residues of a size -/

/-- The request runs a block of data size `s`. -/
def falls_in (N : ℕ) (calls : List Submission) (req_id s : ℕ) : Bool :=
  calls.any (fun c => guard N c req_id && c.mem_size == s)

/-- The requests of a window of `N` that run a block of data size `s`. `ids` gives the
request id of each request of the window. -/
def windowCount (N : ℕ) (calls : List Submission) (ids : ℕ → ℕ) (s : ℕ) : ℕ :=
  ((Finset.range N).filter (fun i => falls_in N calls (ids i) s = true)).card

/-- The residues whose block has instruction size `s`. -/
def residueCount (N : ℤ) (merged : PyDict ℤ (ℕ × ℕ)) (s : ℕ) : ℕ :=
  ((numbers 0 N).filter (fun r =>
    (blocks 0 merged.entries).any (fun t => inBlock r t && t.2.2.2 == s) = true)).card

/-- The count is off the weight `w` of `N` by at most half of `K`. -/
def Near (N K : ℕ) (w : ℚ) (count : ℕ) : Prop := |(count : ℚ) - w * N| ≤ (K : ℚ) / 2

variable {dcache_stats icache_stats : PyDict ℕ ℚ} {merged : PyDict ℤ (ℕ × ℕ)}

/-- The block of a residue has the data size and the instruction size of the residue. -/
theorem sizes_of_block {r : ℤ} {t : ℤ × ℤ × ℕ × ℕ} (hN : 0 < N) (hd : Weighted dcache_stats)
    (hi : Weighted icache_stats)
    (hok : dcache_icache_req_range N dcache_stats icache_stats = .ok merged) (hr : r < N)
    (ht : t ∈ blocks 0 merged.entries) (hin : inBlock r t = true) :
    pick (dcache_req_range N dcache_stats).entries r = some t.2.2.1 ∧
      pick (icache_req_range N (dcache_req_range N dcache_stats) icache_stats).entries r =
        some t.2.2.2 := by
  obtain ⟨m, hok', htiles, hpair⟩ := dcache_icache_req_range_spec hN hd hi
  rw [hok] at hok'
  cases hok'
  obtain ⟨x, hx⟩ := (dcache_req_range_spec hN hd).1.pick_isSome hr
  obtain ⟨y, hy⟩ := (icache_req_range_tiles (dcache_req_range N dcache_stats) hN hi).pick_isSome hr
  have hxy := hpair r x y hx hy
  rw [htiles.pick_of_mem_blocks (le_refl 0) ht hin, Option.some.injEq] at hxy
  rw [hxy]
  exact ⟨hx, hy⟩

theorem falls_in_iff {k f req_id s : ℕ} {rows : List Row} (hd : Weighted dcache_stats)
    (hi : Weighted icache_stats)
    (hok : dcache_icache_req_range (2 ^ k) dcache_stats icache_stats = .ok merged)
    (hrows : rows.map Row.entry = merged.entries)
    (hpos : ∀ row ∈ rows, 0 < row.final_num_block_replicas) :
    falls_in (2 ^ k) (submit_blocks f 0 0 rows) req_id s = true ↔
      pick (rawCuts (2 ^ k) dcache_stats.entries 0) ((req_id % 2 ^ k : ℕ) : ℤ) = some s := by
  have hN : (0 : ℤ) < 2 ^ k := by positivity
  obtain ⟨hlow, hhigh⟩ := slotOf_mem k req_id
  have hsize : ∀ c ∈ submit_blocks f 0 0 rows, guard (2 ^ k) c req_id = true →
      pick (rawCuts (2 ^ k) dcache_stats.entries 0) ((req_id % 2 ^ k : ℕ) : ℤ) =
        some c.mem_size := by
    intro c hc hg
    obtain ⟨t, ht, hin, hmem⟩ := exists_block_of_submission hc hg
    rw [hrows] at ht
    have := (sizes_of_block hN hd hi hok hhigh ht hin).1
    rw [(dcache_req_range_spec hN hd).2.1 _ hlow, slotOf_two_pow, hmem] at this
    exact this
  unfold falls_in
  rw [List.any_eq_true]
  constructor
  · rintro ⟨c, hc, hcg⟩
    simp only [Bool.and_eq_true, beq_iff_eq] at hcg
    rw [hsize c hc hcg.1, hcg.2]
  · intro hp
    obtain ⟨m, hok', htiles, _⟩ := dcache_icache_req_range_spec hN hd hi
    rw [hok] at hok'
    cases hok'
    have hcount := countP_submit_blocks (2 ^ k) f req_id rows 0 0 hpos
    rw [hrows, htiles.countP_blocks (le_refl 0) hlow hhigh] at hcount
    obtain ⟨c, hc, hg⟩ := List.countP_pos_iff.mp (by omega :
      0 < (submit_blocks f 0 0 rows).countP (fun s => guard (2 ^ k) s req_id))
    refine ⟨c, hc, ?_⟩
    have hcs := hsize c hc hg
    rw [hp] at hcs
    cases hcs
    simp [hg]

/-- A window whose ids have the residues of `N` consecutive numbers holds as many requests
of a data size as the data ranges give it. -/
theorem windowCount_eq {k f s first : ℕ} {rows : List Row} (ids : ℕ → ℕ)
    (hd : Weighted dcache_stats) (hi : Weighted icache_stats)
    (hok : dcache_icache_req_range (2 ^ k) dcache_stats icache_stats = .ok merged)
    (hrows : rows.map Row.entry = merged.entries)
    (hpos : ∀ row ∈ rows, 0 < row.final_num_block_replicas)
    (hids : ∀ i, ids i % 2 ^ k = (first + i) % 2 ^ k) :
    windowCount (2 ^ k) (submit_blocks f 0 0 rows) ids s =
      tally (rawCuts (2 ^ k) dcache_stats.entries 0) 0 (2 ^ k) s := by
  unfold windowCount
  have hcongr : (Finset.range (2 ^ k)).filter (fun i =>
      falls_in (2 ^ k) (submit_blocks f 0 0 rows) (ids i) s = true) =
      (Finset.range (2 ^ k)).filter (fun i => (fun r : ℕ =>
        pick (rawCuts (2 ^ k) dcache_stats.entries 0) r = some s) ((first + i) % 2 ^ k)) := by
    apply Finset.filter_congr
    intro i _
    rw [falls_in_iff hd hi hok hrows hpos, hids i]
  have hwindow := card_window (2 ^ k) first (fun r : ℕ =>
    pick (rawCuts (2 ^ k) dcache_stats.entries 0) r = some s)
  rw [card_range_pick] at hwindow
  rw [hcongr, hwindow]
  push_cast
  rfl

theorem residueCount_eq (hN : 0 < N) (hd : Weighted dcache_stats) (hi : Weighted icache_stats)
    (hok : dcache_icache_req_range N dcache_stats icache_stats = .ok merged) (s : ℕ) :
    residueCount N merged s =
      tally (keptCuts (dataBounds N dcache_stats) N icache_stats.entries.reverse 0) 0 N s := by
  have hkept : keptCuts (dataBounds N dcache_stats) N icache_stats.entries.reverse 0 =
      (icache_req_range N (dcache_req_range N dcache_stats) icache_stats).entries := by
    rw [icache_req_range_entries _ hN hi]
    exact (keptCuts_congr (dcache_req_range_spec hN hd).2.2 _ _).symm
  rw [hkept]
  unfold residueCount tally
  congr 1
  apply Finset.filter_congr
  intro r hr
  rw [mem_numbers] at hr
  rw [List.any_eq_true]
  constructor
  · rintro ⟨t, ht, htb⟩
    simp only [Bool.and_eq_true, beq_iff_eq] at htb
    rw [(sizes_of_block hN hd hi hok hr.2 ht htb.1).2, htb.2]
  · intro hp
    obtain ⟨m, hok', htiles, _⟩ := dcache_icache_req_range_spec hN hd hi
    rw [hok] at hok'
    cases hok'
    have hcount := htiles.countP_blocks (le_refl 0) hr.1 hr.2
    obtain ⟨t, ht, hin⟩ := List.countP_pos_iff.mp (by omega :
      0 < (blocks 0 merged.entries).countP (inBlock r))
    have hts := (sizes_of_block hN hd hi hok hr.2 ht hin).2
    rw [hp] at hts
    cases hts
    exact ⟨t, ht, by rw [hin]; simp⟩

/-! ## The laws -/

/-- Two data sizes with a half each, so that a data bound falls in the middle. -/
def halfData : PyDict ℕ ℚ := ⟨[(64, 1 / 2), (128, 1 / 2)], by decide⟩

/-- The instruction sizes that the generator sets for memcached. -/
def memcachedInsts : PyDict ℕ ℚ := ⟨[(8192, 1 / 2), (16384, 1 / 2)], by decide⟩

theorem weighted_halfData : Weighted halfData := ⟨by decide, by decide +kernel⟩

theorem weighted_memcachedInsts : Weighted memcachedInsts := ⟨by decide, by decide +kernel⟩

/-- Every window of `N` consecutive request ids gives each of the `K` data sizes its weight
of the requests, up to `K / 2` requests. It holds for ids that never wrap, and for the
64-bit ids of a server thread. -/
theorem data_shares_are_honoured (dcache_stats icache_stats : PyDict ℕ ℚ) (k f : ℕ)
    (hd : Weighted dcache_stats) (hi : Weighted icache_stats)
    (hsum : (dcache_stats.entries.map Prod.snd).sum = 1) :
    ∃ merged, dcache_icache_req_range (2 ^ k) dcache_stats icache_stats = .ok merged ∧
      ∀ rows : List Row, rows.map Row.entry = merged.entries →
        (∀ row ∈ rows, 0 < row.final_num_block_replicas) → ∀ e ∈ dcache_stats.entries,
          (∀ first : ℕ, Near (2 ^ k) dcache_stats.entries.length e.2
            (windowCount (2 ^ k) (submit_blocks f 0 0 rows) (fun i => first + i) e.1)) ∧
          (k ≤ 64 → ∀ first : BitVec 64, Near (2 ^ k) dcache_stats.entries.length e.2
            (windowCount (2 ^ k) (submit_blocks f 0 0 rows)
              (fun i => (first + BitVec.ofNat 64 i).toNat) e.1)) := by
  have hN : (0 : ℤ) < 2 ^ k := by positivity
  obtain ⟨merged, hok, _, _⟩ := dcache_icache_req_range_spec hN hd hi
  refine ⟨merged, hok, ?_⟩
  intro rows hrows hpos e he
  have hzero : drift (2 ^ k) 0 dcache_stats.entries = 0 := by simp [drift, hsum]
  have hbound := abs_tally_rawCuts_le dcache_stats.entries 0 (le_of_lt hN) (le_of_lt hN)
    dcache_stats.nodup hd.nonneg e he
  rw [hzero, abs_zero, zero_add] at hbound
  have hnear : Near (2 ^ k) dcache_stats.entries.length e.2
      (tally (rawCuts (2 ^ k) dcache_stats.entries 0) 0 (2 ^ k) e.1) := by
    unfold Near
    push_cast at hbound ⊢
    exact hbound
  refine ⟨?_, ?_⟩
  · intro first
    rw [windowCount_eq _ hd hi hok hrows hpos (fun _ => rfl)]
    exact hnear
  · intro hk first
    have hids : ∀ i, (first + BitVec.ofNat 64 i).toNat % 2 ^ k = (first.toNat + i) % 2 ^ k := by
      intro i
      rw [BitVec.toNat_add, BitVec.toNat_ofNat, Nat.add_mod_mod,
        Nat.mod_mod_of_dvd _ (Nat.pow_dvd_pow 2 hk)]
    rw [windowCount_eq _ hd hi hok hrows hpos hids]
    exact hnear

/-- The law on two data sizes with a half each. -/
theorem data_shares_are_honoured_on_halves :
    ∃ merged, dcache_icache_req_range (2 ^ 10) halfData memcachedInsts = .ok merged ∧
      ∀ rows : List Row, rows.map Row.entry = merged.entries →
        (∀ row ∈ rows, 0 < row.final_num_block_replicas) → ∀ e ∈ halfData.entries,
          (∀ first : ℕ, Near (2 ^ 10) halfData.entries.length e.2
            (windowCount (2 ^ 10) (submit_blocks 0 0 0 rows) (fun i => first + i) e.1)) ∧
          (10 ≤ 64 → ∀ first : BitVec 64, Near (2 ^ 10) halfData.entries.length e.2
            (windowCount (2 ^ 10) (submit_blocks 0 0 0 rows)
              (fun i => (first + BitVec.ofNat 64 i).toNat) e.1)) :=
  data_shares_are_honoured halfData memcachedInsts 10 0 weighted_halfData weighted_memcachedInsts
    (by decide +kernel)

theorem residueCount_iff {k : ℕ} (hd : Weighted dcache_stats) (hi : Weighted icache_stats)
    (hsum : (icache_stats.entries.map Prod.snd).sum = 1)
    (hok : dcache_icache_req_range (2 ^ k) dcache_stats icache_stats = .ok merged) :
    (∀ e ∈ icache_stats.entries, Near (2 ^ k) icache_stats.entries.length e.2
        (residueCount (2 ^ k) merged e.1)) ↔
      LostAreLight (dataBounds (2 ^ k) dcache_stats) (2 ^ k) icache_stats.entries.reverse := by
  have hN : (0 : ℤ) < 2 ^ k := by positivity
  have hzero : drift (2 ^ k) 0 icache_stats.entries.reverse = 0 := by
    simp [drift, List.map_reverse, List.sum_reverse, hsum]
  have hnd : (icache_stats.entries.reverse.map Prod.fst).Nodup := by
    rw [List.map_reverse, List.nodup_reverse]
    exact icache_stats.nodup
  rw [← light_iff_lostAreLight hzero, ← tally_keptCuts_iff icache_stats.entries.reverse 0 0 hN.le
    (le_refl 0) hN hnd (by simpa using hi.nonneg) (by rw [hzero]; simp)]
  simp only [List.mem_reverse, List.length_reverse, residueCount_eq hN hd hi hok, Near]
  push_cast
  rfl

/-- Three instruction sizes. The middle one has one residue of 1024, and it ends at the data bound
512. -/
def lightInsts : PyDict ℕ ℚ :=
  ⟨[(8192, 1 / 2), (16384, 1 / 1024), (32768, 511 / 1024)], by decide⟩

end ditto.assembly_generator
