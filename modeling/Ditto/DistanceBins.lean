-- The binning of the distances. The binning law: each bin gets the share of
-- the mass that is nearest to it, nothing is lost, and the bins of two merged
-- tables are the sums of theirs.
import Ditto.Dependencies
import Ditto.Lib.NearestBin

namespace ditto.data_dependency_analyzer

/-! ## The closest bin -/

/-- The bin of a distance is the first one with the least distance to it. -/
theorem closest_eq {bins : List ℤ} {k b : ℤ} (h : nearest? bins k = some b) :
    closest bins k = .ok b := by
  cases bins with
  | nil => cases h
  | cons b₀ bins =>
    rw [nearest?_cons] at h
    unfold closest
    rw [← Option.some.inj h]
    -- the source takes the distances as `abs(bins[i] - K)`
    have hlt (b c : ℤ) : (b - k).natAbs < (c - k).natAbs ↔ |k - b| < |k - c| := by
      rw [abs_sub_comm k b, abs_sub_comm k c, Int.abs_eq_natAbs, Int.abs_eq_natAbs, Int.ofNat_lt]
    simp only [hlt]

/-- With some bins each distance has one. -/
theorem exists_bin_of {bins : List ℤ} (hne : bins ≠ []) :
    ∃ bin_of : ℤ → ℤ, ∀ k, nearest? bins k = some (bin_of k) := by
  choose bin_of hbin_of using exists_nearest? hne
  exact ⟨bin_of, hbin_of⟩

/-! ## The bins before they are normalised -/

/-- The dictionary `{k: 0 for k in bins}`. -/
def no_counts (bins : List ℤ) : Table := bins.foldl (fun ret k => ret.set k 0) .empty

theorem mem_keys_no_counts {bins : List ℤ} {b : ℤ} : b ∈ (no_counts bins).keys ↔ b ∈ bins := by
  unfold no_counts
  rw [PyDict.mem_keys_foldl_set fun _ => 0]
  simp

@[simp] theorem val_no_counts (bins : List ℤ) (b : ℤ) : (no_counts bins).val b = 0 := by
  unfold no_counts
  rw [PyDict.val_foldl_set fun _ => 0]
  simp

@[simp] theorem total_no_counts (bins : List ℤ) : (no_counts bins).total = 0 := by
  have hval (b : ℤ) : (no_counts bins).val b = (.empty : Table).val b := by simp
  exact PyDict.total_congr hval

/-- The counts of the bins, before `bin_distribution` divides them. -/
def bin_counts (dist : Table) (bins : List ℤ) : Except PyError Table :=
  dist.entries.foldlM (fun (ret : Table) e => do
    let binned_k ← closest bins e.1
    return ret.set binned_k (ret.val binned_k + e.2)) (no_counts bins)

theorem bin_distribution_eq (dist : Table) (bins : List ℤ) :
    bin_distribution dist bins = (do
      let ret ← bin_counts dist bins
      if ret.entries ≠ [] ∧ ret.total = 0 then .error .zeroDivisionError
      else return ret.mapVal fun _ v => v / ret.total) := rfl

/-- The shares of the bins, for the bin that each distance has. -/
def bin_shares (dist : Table) (bins : List ℤ) (bin_of : ℤ → ℤ) : Table :=
  (dist.pour bin_of (no_counts bins)).mapVal fun _ v => v / dist.total

theorem total_bin_shares {dist : Table} (hdist : dist.total ≠ 0) (bins : List ℤ) (bin_of : ℤ → ℤ) :
    (bin_shares dist bins bin_of).total = 1 := by
  unfold bin_shares
  rw [PyDict.total_mapVal_div, PyDict.total_pour, total_no_counts, zero_add, div_self hdist]

/-- The table has the bins as its keys, and at each of them the share of the mass that is nearest to
it. -/
structure IsBinned (dist : Table) (bins : List ℤ) (ret : Table) : Prop where
  keys : ret.keys = bins
  nonneg : ∀ w ∈ ret.values, 0 ≤ w
  total : ret.total = 1
  share : ∀ b ∈ bins, ret.val b = (dist.filter fun k _ => NearestBin bins k b).total / dist.total

section bin_of

variable {bins : List ℤ} {bin_of : ℤ → ℤ} (hbin_of : ∀ k, nearest? bins k = some (bin_of k))
include hbin_of

/-- The loop moves each weight to the bin of its distance. -/
theorem bin_counts_eq (dist : Table) :
    bin_counts dist bins = .ok (dist.pour bin_of (no_counts bins)) := by
  unfold bin_counts PyDict.pour
  apply PyError.foldlM_eq_ok
  intro e _ ret
  rw [closest_eq (hbin_of e.1)]
  rfl

theorem bin_of_mem (k : ℤ) : bin_of k ∈ (no_counts bins).keys :=
  mem_keys_no_counts.mpr (mem_of_nearest? (hbin_of k))

theorem bin_of_eq_iff (hrise : bins.Pairwise (· < ·)) (k b : ℤ) :
    bin_of k = b ↔ NearestBin bins k b := by
  have hnear : NearestBin bins k (bin_of k) := .of_nearest? hrise (hbin_of k)
  constructor
  · rintro rfl
    exact hnear
  · exact hnear.unique

/-- The division fails for a table without mass, and for no other. -/
theorem bin_distribution_spec (dist : Table) : bin_distribution dist bins =
    if dist.total = 0 then .error .zeroDivisionError else .ok (bin_shares dist bins bin_of) := by
  have htotal : (dist.pour bin_of (no_counts bins)).total = dist.total := by
    rw [PyDict.total_pour, total_no_counts, zero_add]
  have hsome : (dist.pour bin_of (no_counts bins)).entries ≠ [] := by
    intro hnil
    have hmem := bin_of_mem hbin_of 0
    rw [← PyDict.keys_pour (bin_of_mem hbin_of) dist, PyDict.keys, hnil] at hmem
    cases hmem
  rw [bin_distribution_eq, bin_counts_eq hbin_of]
  change (if _ ∧ _ then _ else _) = _
  simp only [htotal, hsome, ne_eq, not_false_eq_true, true_and]
  rfl

theorem val_bin_shares (hrise : bins.Pairwise (· < ·)) (dist : Table) (b : ℤ) :
    (bin_shares dist bins bin_of).val b =
      (dist.filter fun k _ => NearestBin bins k b).total / dist.total := by
  unfold bin_shares
  rw [PyDict.val_mapVal_div, PyDict.val_pour, val_no_counts, zero_add]
  simp only [bin_of_eq_iff hbin_of hrise]

theorem isBinned_bin_shares {dist : Table} (hnonneg : ∀ w ∈ dist.values, 0 ≤ w)
    (hpos : 0 < dist.total) (hrise : bins.Pairwise (· < ·)) :
    IsBinned dist bins (bin_shares dist bins bin_of) where
  keys := by
    unfold bin_shares
    rw [PyDict.keys_mapVal, PyDict.keys_pour (bin_of_mem hbin_of)]
    exact PyDict.keys_foldl_set _ hrise.nodup
  nonneg := by
    intro w hw
    obtain ⟨e, he, rfl⟩ := List.mem_map.mp hw
    rw [← PyDict.val_of_mem he, val_bin_shares hbin_of hrise]
    apply div_nonneg _ hpos.le
    apply List.sum_nonneg
    intro v hv
    obtain ⟨e', he', rfl⟩ := List.mem_map.mp hv
    exact hnonneg _ (List.mem_map_of_mem (List.mem_filter.mp he').1)
  total := total_bin_shares hpos.ne' bins bin_of
  share b _ := val_bin_shares hbin_of hrise dist b

end bin_of

/-! ## The binning law -/

/-- The bins share out the mass of every table that has some, each distance to the bin nearest to
it, and the counts of two merged tables are the sums of theirs, in whatever order the keys were
merged. -/
theorem binning_conserves_mass :
    (∀ (dist : Table) (bins : List ℤ), (∀ w ∈ dist.values, 0 ≤ w) → 0 < dist.total →
      bins ≠ [] → bins.Pairwise (· < ·) →
      ∃ ret, bin_distribution dist bins = .ok ret ∧ IsBinned dist bins ret) ∧
    ∀ (dist0 dist1 : Table) (bins : List ℤ), bins ≠ [] →
      ∀ merged : Table, merged.entries.Perm (merge_distribution dist0 dist1).entries →
      ∃ ret0 ret1 ret, bin_counts dist0 bins = .ok ret0 ∧ bin_counts dist1 bins = .ok ret1 ∧
        bin_counts merged bins = .ok ret ∧ ret.IsSum ret0 ret1 := by
  constructor
  · intro dist bins hnonneg hpos hne hrise
    obtain ⟨bin_of, hbin_of⟩ := exists_bin_of hne
    refine ⟨_, ?_, isBinned_bin_shares hbin_of hnonneg hpos hrise⟩
    rw [bin_distribution_spec hbin_of, if_neg hpos.ne']
  · intro dist0 dist1 bins hne merged hmerged
    obtain ⟨bin_of, hbin_of⟩ := exists_bin_of hne
    refine ⟨_, _, _, bin_counts_eq hbin_of dist0, bin_counts_eq hbin_of dist1,
      bin_counts_eq hbin_of merged, ?_⟩
    apply PyDict.isSum_pour (bin_of_mem hbin_of) (val_no_counts bins)
    intro k
    rw [PyDict.val_of_perm hmerged, val_merge]

/-- The distance 3 is as near to bin 2 as to bin 4. -/
theorem binning_conserves_mass_at_a_tie :
    (∃ ret, bin_distribution ⟨[(1, 1), (3, 2), (4294967296, 1)], by decide⟩ [1, 2, 4] = .ok ret ∧
      ret.val 2 = 1 / 2 ∧ ret.total = 1) ∧
    ∃ ret0 ret1 ret, bin_counts ⟨[(1, 1), (3, 2)], by decide⟩ [1, 2, 4] = .ok ret0 ∧
      bin_counts ⟨[(3, 1), (9, 5)], by decide⟩ [1, 2, 4] = .ok ret1 ∧
      bin_counts (merge_distribution ⟨[(1, 1), (3, 2)], by decide⟩ ⟨[(3, 1), (9, 5)], by decide⟩)
        [1, 2, 4] = .ok ret ∧ ret.IsSum ret0 ret1 := by
  obtain ⟨hbins, hmerge⟩ := binning_conserves_mass
  constructor
  · obtain ⟨ret, hret, hbinned⟩ := hbins ⟨[(1, 1), (3, 2), (4294967296, 1)], by decide⟩ [1, 2, 4]
      (by decide) (by decide +kernel) (by decide) (by decide)
    refine ⟨ret, hret, ?_, hbinned.total⟩
    rw [hbinned.share 2 (by decide)]
    decide +kernel
  · exact hmerge _ _ _ (by decide) _ (List.Perm.refl _)

/-! ## The analysis -/

variable {bins : List ℤ}

theorem exists_bin_distribution_iff (hne : bins ≠ []) (dist : Table) :
    (∃ ret, bin_distribution dist bins = .ok ret) ↔ dist.total ≠ 0 := by
  obtain ⟨bin_of, hbin_of⟩ := exists_bin_of hne
  rw [bin_distribution_spec hbin_of]
  by_cases hzero : dist.total = 0
  · simp [hzero]
  · simp [hzero]

theorem total_of_bin_distribution (hne : bins ≠ []) {dist ret : Table}
    (h : bin_distribution dist bins = .ok ret) : ret.total = 1 := by
  have hdist := (exists_bin_distribution_iff hne dist).mp ⟨ret, h⟩
  obtain ⟨bin_of, hbin_of⟩ := exists_bin_of hne
  rw [bin_distribution_spec hbin_of, if_neg hdist] at h
  cases h
  exact total_bin_shares hdist bins bin_of

theorem run_analysis_eq_ok_iff {p : Profile} {raw war waw : Table} :
    run_analysis p = .ok (raw, war, waw) ↔
      ∃ ds, dependencies p = .ok ds ∧ bin_distribution (ds .raw) p.bins = .ok raw ∧
        bin_distribution (ds .war) p.bins = .ok war ∧ bin_distribution (ds .waw) p.bins = .ok waw := by
  constructor
  · intro h
    obtain ⟨ds, hds, h⟩ := PyError.ok_of_bind h
    obtain ⟨raw', hraw, h⟩ := PyError.ok_of_bind h
    obtain ⟨war', hwar, h⟩ := PyError.ok_of_bind h
    obtain ⟨waw', hwaw, h⟩ := PyError.ok_of_bind h
    cases h
    exact ⟨ds, hds, hraw, hwar, hwaw⟩
  · rintro ⟨ds, hds, hraw, hwar, hwaw⟩
    unfold run_analysis
    simp only [hds, hraw, hwar, hwaw, bind, Except.bind]
    rfl

/-- The analysis returns when there is some mass in each of the three tables. An application without
one of the three kinds of dependencies makes it fail. -/
theorem run_analysis_returns_iff {p : Profile} (hne : p.bins ≠ []) :
    (∃ ret, run_analysis p = .ok ret) ↔
      ∃ ds, dependencies p = .ok ds ∧ ∀ dep, (ds dep).total ≠ 0 := by
  constructor
  · rintro ⟨⟨raw, war, waw⟩, h⟩
    obtain ⟨ds, hds, hraw, hwar, hwaw⟩ := run_analysis_eq_ok_iff.mp h
    refine ⟨ds, hds, ?_⟩
    intro dep
    apply (exists_bin_distribution_iff hne (ds dep)).mp
    cases dep with
    | raw => exact ⟨raw, hraw⟩
    | war => exact ⟨war, hwar⟩
    | waw => exact ⟨waw, hwaw⟩
  · rintro ⟨ds, hds, hmass⟩
    have hbinned (dep : Dep) := (exists_bin_distribution_iff hne (ds dep)).mpr (hmass dep)
    obtain ⟨raw, hraw⟩ := hbinned .raw
    obtain ⟨war, hwar⟩ := hbinned .war
    obtain ⟨waw, hwaw⟩ := hbinned .waw
    exact ⟨(raw, war, waw), run_analysis_eq_ok_iff.mpr ⟨ds, hds, hraw, hwar, hwaw⟩⟩

/-- Whatever the analysis returns is normalised. -/
theorem run_analysis_totals {p : Profile} (hne : p.bins ≠ []) {raw war waw : Table}
    (h : run_analysis p = .ok (raw, war, waw)) :
    raw.total = 1 ∧ war.total = 1 ∧ waw.total = 1 := by
  obtain ⟨ds, -, hraw, hwar, hwaw⟩ := run_analysis_eq_ok_iff.mp h
  exact ⟨total_of_bin_distribution hne hraw, total_of_bin_distribution hne hwar,
    total_of_bin_distribution hne hwaw⟩

end ditto.data_dependency_analyzer
