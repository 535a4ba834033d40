-- The statistics of the two caches as distributions over the sizes. Both
-- analyzers divide the access counts of the sizes by the sum of the positive
-- ones, and clamp the sizes to their bounds.
import Ditto.DCache
import Ditto.Lib.Mass
import Mathlib.Algebra.BigOperators.Ring.Finset

namespace ditto.icache_analyzer

open ditto.dcache_analyzer (div int_mean DCacheAnalyzer clamp)

/-! ## The instruction cache -/

def CACHELINE_SIZE : ℕ := 64

def INST_SIZE : ℕ := 4

/-- What one simulated cache counts. -/
structure Counts where
  refs : ℤ
  misses : ℤ
deriving DecidableEq

/-- The counts of each cache, by its size and its associativity. -/
abbrev Table := PyDict (ℕ × ℕ) Counts

structure Hits where
  hits : ℤ
  misses : ℤ
  refs : ℤ
deriving DecidableEq

/-- The attributes of the analyzer. It has an associativity, so only the size of a key counts. -/
structure ICacheAnalyzer where
  exclude : Bool
  min_size : ℕ
  max_size : ℕ

/-- The instructions that hit in each size but in none before it. -/
def later_accesses : ℤ → List (ℕ × Hits) → List (ℕ × ℚ)
  | _, [] => []
  | hits, e :: rest =>
    (e.1, (CACHELINE_SIZE : ℚ) / INST_SIZE * (e.2.hits - hits)) :: later_accesses e.2.hits rest

/-- The first size gets what the later ones leave of the references. -/
def access_counts : List (ℕ × Hits) → Except PyError (List (ℕ × ℚ))
  | [] => .error .indexError
  | e :: rest =>
    let later := later_accesses e.2.hits rest
    .ok (later ++ [(e.1, max 0 (e.2.refs - (later.map Prod.snd).sum))])

def calculate_icache_stats (icache_stats : PyDict ℕ Hits) : Except PyError (PyDict ℕ ℚ) := do
  let access_stats ← access_counts icache_stats.sortKeys.entries
  let s := (access_stats.map fun e => max 0 e.2).sum
  (PyDict.ofList access_stats).mapM fun _ v => return max 0 (← div v s)

/-- The hits of a size, without those of the skeleton when it is excluded. -/
def size_hits (exclude : Bool) (skeleton_data : Table) (app_refs skeleton_refs : ℤ)
    (ret : PyDict ℕ Hits) (e : (ℕ × ℕ) × Counts) : Except PyError (PyDict ℕ Hits) :=
  if exclude then
    match skeleton_data.get? e.1 with
    | none => .error .keyError
    | some value =>
      .ok (ret.set e.1.1
        { hits := app_refs - skeleton_refs - (e.2.misses - value.misses)
          misses := e.2.misses - value.misses
          refs := app_refs - skeleton_refs })
  else
    .ok (ret.set e.1.1 { hits := app_refs - e.2.misses, misses := e.2.misses, refs := app_refs })

/-- The hits of all sizes. -/
def size_table (a : ICacheAnalyzer) (valgrind_data skeleton_data : Table) :
    Except PyError (PyDict ℕ Hits) := do
  let app_refs ← int_mean (valgrind_data.values.map Counts.refs)
  let skeleton_refs ← int_mean (skeleton_data.values.map Counts.refs)
  valgrind_data.entries.foldlM (size_hits a.exclude skeleton_data app_refs skeleton_refs) .empty

def run_analysis_from_valgrind (a : ICacheAnalyzer) (valgrind_data skeleton_data : Table) :
    Except PyError (PyDict ℕ ℚ) := do
  let ret ← size_table a valgrind_data skeleton_data
  calculate_icache_stats ret

/-- The clamp of the sizes and the second division are those of the other analyzer. -/
def run_analysis (a : ICacheAnalyzer) (valgrind_data skeleton_data : Table) :
    Except PyError (PyDict ℕ ℚ) := do
  let tmp_icache_stats ← run_analysis_from_valgrind a valgrind_data skeleton_data
  let icache_stats := (PyDict.empty.set a.max_size 0).set a.min_size 0
  let icache_stats := tmp_icache_stats.entries.foldl
    (clamp ⟨a.exclude, a.min_size, a.max_size⟩) icache_stats
  let s := icache_stats.values.sum
  let icache_stats ← icache_stats.mapM fun _ v => div v s
  return icache_stats.sortKeys

end ditto.icache_analyzer

variable {valgrind_data skeleton_data : Table}

namespace ditto.dcache_analyzer

/-! ## Counts divided by the positive ones -/

variable {α : Type}

/-- Counts with a positive one among them become masses that add up to one. -/
theorem mapM_shares (c : α → ℚ) {l : List (ℕ × α)} {s : ℚ}
    (hs : s = (l.map fun e => max 0 (c e.2)).sum) (hnodup : (l.map Prod.fst).Nodup)
    (hpos : ∃ e ∈ l, 0 < c e.2) :
    ∃ masses : PyDict ℕ ℚ,
      (PyDict.ofList l).mapM (fun _ v => do return max 0 (← div (c v) s)) = .ok masses ∧
      masses.entries = l.map (fun e => (e.1, max 0 (c e.2) / s)) ∧
      (∀ v ∈ masses.values, 0 ≤ v) ∧ masses.total = 1 := by
  have hspos : 0 < s := by
    obtain ⟨e, he, hc⟩ := hpos
    rw [hs]
    have hnonneg : ∀ x ∈ l.map fun e => max 0 (c e.2), (0 : ℚ) ≤ x := by
      rintro _ hx
      obtain ⟨e, -, rfl⟩ := List.mem_map.mp hx
      exact le_max_left _ _
    have hle := List.single_le_sum hnonneg _ (List.mem_map_of_mem he)
    exact lt_of_lt_of_le (lt_of_lt_of_le hc (le_max_right _ _)) hle
  have hmap : (PyDict.ofList l).mapM (fun _ v => do return max 0 (← div (c v) s)) =
      .ok ((PyDict.ofList l).mapVal fun _ v => max 0 (c v / s)) := by
    apply PyDict.mapM_eq_ok
    intro e _
    unfold div
    rw [if_neg (ne_of_gt hspos)]
    rfl
  have hmax : ∀ v, max 0 (c v / s) = max 0 (c v) / s := by
    intro v
    rw [← max_div_div_right (le_of_lt hspos), zero_div]
  have hentries : ((PyDict.ofList l).mapVal fun _ v => max 0 (c v / s)).entries =
      l.map fun e => (e.1, max 0 (c e.2) / s) := by
    change (PyDict.ofList l).entries.map _ = _
    rw [PyDict.entries_ofList hnodup]
    simp only [hmax]
  refine ⟨_, hmap, hentries, ?_, ?_⟩
  · intro v hv
    unfold PyDict.values at hv
    rw [hentries, List.map_map] at hv
    obtain ⟨e, -, rfl⟩ := List.mem_map.mp hv
    exact div_nonneg (le_max_left _ _) (le_of_lt hspos)
  · unfold PyDict.total PyDict.values
    rw [hentries, List.map_map]
    simp only [Function.comp_def, div_eq_mul_inv]
    rw [List.sum_map_mul_right, ← hs]
    exact mul_inv_cancel₀ (ne_of_gt hspos)

/-! ## The clamp of the sizes -/

/-- The size that a size is counted for. -/
def bucket (a : DCacheAnalyzer) (k : ℕ) : ℕ :=
  if k ≤ a.min_size then a.min_size else if a.max_size ≤ k then a.max_size else k

/-- The loop that clamps the sizes. -/
def clamped (a : DCacheAnalyzer) (tmp_stats : PyDict ℕ ℚ) : PyDict ℕ ℚ :=
  tmp_stats.entries.foldl (clamp a) ((PyDict.empty.set a.max_size 0).set a.min_size 0)

/-- The clamp and the second division, which both analyzers make. -/
def rebucket (a : DCacheAnalyzer) (tmp_stats : PyDict ℕ ℚ) : Except PyError (PyDict ℕ ℚ) := do
  let stats := clamped a tmp_stats
  let s := stats.values.sum
  let stats ← stats.mapM fun _ v => div v s
  return stats.sortKeys

theorem val_clamp {a : DCacheAnalyzer} {d : PyDict ℕ ℚ} {e : ℕ × ℚ}
    (hnew : a.min_size < e.1 → e.1 < a.max_size → d.val e.1 = 0) (x : ℕ) :
    (clamp a d e).val x = d.val x + if bucket a e.1 = x then e.2 else 0 := by
  have hadd : ∀ k, (add_to d k e.2).val x = d.val x + if k = x then e.2 else 0 := by
    intro k
    unfold add_to
    rw [PyDict.val_set]
    by_cases hx : x = k
    · rw [if_pos hx, if_pos hx.symm, hx]
      rfl
    · rw [if_neg hx, if_neg (Ne.symm hx), add_zero]
  unfold clamp bucket
  split
  · exact hadd _
  · split
    · exact hadd _
    · rename_i hmin hmax
      rw [PyDict.val_set]
      by_cases hx : x = e.1
      · rw [if_pos hx, if_pos hx.symm, hx, hnew (by omega) (by omega), zero_add]
      · rw [if_neg hx, if_neg (Ne.symm hx), add_zero]

/-- A size between the bounds is written once, so nothing is there before. -/
theorem val_clamp_of_later {a : DCacheAnalyzer} {d : PyDict ℕ ℚ} {e : ℕ × ℚ} {l : List (ℕ × ℚ)}
    (hnodup : ((e :: l).map Prod.fst).Nodup)
    (hnew : ∀ k ∈ (e :: l).map Prod.fst, a.min_size < k → k < a.max_size → d.val k = 0) :
    ∀ k ∈ l.map Prod.fst, a.min_size < k → k < a.max_size → (clamp a d e).val k = 0 := by
  rw [List.map_cons, List.nodup_cons] at hnodup
  rw [List.map_cons, List.forall_mem_cons] at hnew
  intro k hk hmin hmax
  have hne : bucket a e.1 ≠ k := by
    unfold bucket
    split
    · omega
    · split
      · omega
      · rintro rfl
        exact hnodup.1 hk
  rw [val_clamp hnew.1, hnew.2 k hk hmin hmax, if_neg hne, add_zero]

/-- Each size of the result gets the masses of the sizes that are counted for it. -/
theorem val_clamps (a : DCacheAnalyzer) {l : List (ℕ × ℚ)} (hnodup : (l.map Prod.fst).Nodup)
    {d : PyDict ℕ ℚ} (hnew : ∀ k ∈ l.map Prod.fst, a.min_size < k → k < a.max_size → d.val k = 0)
    (x : ℕ) :
    (l.foldl (clamp a) d).val x =
      d.val x + (l.map fun e => if bucket a e.1 = x then e.2 else 0).sum := by
  induction l generalizing d with
  | nil => simp
  | cons e l ih =>
    have hlater := val_clamp_of_later hnodup hnew
    rw [List.foldl_cons, ih (List.nodup_cons.mp hnodup).2 hlater, val_clamp (hnew e.1 (by simp)),
      List.map_cons, List.sum_cons, add_assoc]

/-- The mass is counted in full. -/
theorem total_clamps (a : DCacheAnalyzer) {l : List (ℕ × ℚ)} (hnodup : (l.map Prod.fst).Nodup)
    {d : PyDict ℕ ℚ} (hnew : ∀ k ∈ l.map Prod.fst, a.min_size < k → k < a.max_size → d.val k = 0) :
    (l.foldl (clamp a) d).total = d.total + (l.map Prod.snd).sum := by
  induction l generalizing d with
  | nil => simp
  | cons e l ih =>
    have hlater := val_clamp_of_later hnodup hnew
    have hturn : (clamp a d e).total = d.total + e.2 := by
      rw [← PyDict.total_single (bucket a e.1) e.2]
      apply PyDict.total_add
      intro x
      rw [val_clamp (hnew e.1 (by simp)), PyDict.val_single]
      simp only [eq_comm]
    rw [List.foldl_cons, ih (List.nodup_cons.mp hnodup).2 hlater, hturn, List.map_cons,
      List.sum_cons, add_assoc]

/-- The sizes are sorted and between the bounds, their weights add up to one, each bound has the
masses of the sizes beyond it, and each size between them has its own mass. -/
structure IsDistribution (min_size max_size : ℕ) (masses stats : PyDict ℕ ℚ) : Prop where
  nonneg : ∀ v ∈ stats.values, 0 ≤ v
  total : stats.total = 1
  sorted : stats.keys.Pairwise (· < ·)
  between : ∀ k ∈ stats.keys, min_size ≤ k ∧ k ≤ max_size
  ends : min_size ∈ stats.keys ∧ max_size ∈ stats.keys
  lower : min_size < max_size →
    stats.val min_size = ((masses.entries.filter fun e => e.1 ≤ min_size).map Prod.snd).sum
  upper : min_size < max_size →
    stats.val max_size = ((masses.entries.filter fun e => max_size ≤ e.1).map Prod.snd).sum
  inner : ∀ k, min_size < k → k < max_size → stats.val k = masses.val k

theorem sum_ite_eq_sum_filter {ι : Type} (p : ι → Prop) [DecidablePred p] (f : ι → ℚ)
    (l : List ι) : (l.map fun x => if p x then f x else 0).sum = ((l.filter p).map f).sum := by
  induction l with
  | nil => rfl
  | cons x l ih =>
    by_cases hx : p x <;> simp [hx, ih]

theorem val_clamped_start (a : DCacheAnalyzer) (x : ℕ) :
    ((PyDict.empty.set a.max_size (0 : ℚ)).set a.min_size 0).val x = 0 := by
  rw [PyDict.val_set, PyDict.val_set]
  simp

theorem val_clamped (a : DCacheAnalyzer) (masses : PyDict ℕ ℚ) (x : ℕ) :
    (clamped a masses).val x =
      ((masses.entries.filter fun e => bucket a e.1 = x).map Prod.snd).sum := by
  unfold clamped
  rw [val_clamps a masses.nodup (fun k _ _ _ => val_clamped_start a k), val_clamped_start, zero_add,
    sum_ite_eq_sum_filter]

theorem total_clamped (a : DCacheAnalyzer) (masses : PyDict ℕ ℚ) :
    (clamped a masses).total = masses.total := by
  have hstart : ((PyDict.empty.set a.max_size (0 : ℚ)).set a.min_size 0).total = 0 := by
    rw [PyDict.total_eq_sum]
    exact Finset.sum_eq_zero fun k _ => val_clamped_start a k
  unfold clamped
  rw [total_clamps a masses.nodup (fun k _ _ _ => val_clamped_start a k), hstart, zero_add]
  rfl

theorem mem_keys_clamped (a : DCacheAnalyzer) (masses : PyDict ℕ ℚ) (x : ℕ) :
    x ∈ (clamped a masses).keys ↔ x = a.min_size ∨ x = a.max_size ∨
      (x ∈ masses.keys ∧ a.min_size < x ∧ x < a.max_size) := by
  unfold clamped
  rw [mem_keys_clamp _ _ _ (by simp [PyDict.mem_keys_set]) (by simp [PyDict.mem_keys_set]),
    ← PyDict.keys, PyDict.mem_keys_set, PyDict.mem_keys_set]
  simp [or_assoc]

/-- Masses that add up to one need no second division. -/
theorem rebucket_eq (a : DCacheAnalyzer) {masses : PyDict ℕ ℚ} (htotal : masses.total = 1) :
    rebucket a masses = .ok (clamped a masses).sortKeys := by
  have hs : (clamped a masses).values.sum = 1 := (total_clamped a masses).trans htotal
  have hmap : (clamped a masses).mapM (fun _ v => div v (clamped a masses).values.sum) =
      .ok (clamped a masses) := by
    rw [hs, PyDict.mapM_eq_ok (g := fun _ v => v)]
    · simp [PyDict.mapVal]
    · intro e _
      unfold div
      rw [if_neg one_ne_zero, div_one]
  change ((clamped a masses).mapM (fun _ v => div v (clamped a masses).values.sum) >>= _) = _
  rw [hmap]
  rfl

theorem bucket_eq_min_iff {a : DCacheAnalyzer} (hlt : a.min_size < a.max_size) (k : ℕ) :
    bucket a k = a.min_size ↔ k ≤ a.min_size := by
  unfold bucket
  split_ifs <;> omega

theorem bucket_eq_max_iff {a : DCacheAnalyzer} (hlt : a.min_size < a.max_size) (k : ℕ) :
    bucket a k = a.max_size ↔ a.max_size ≤ k := by
  unfold bucket
  split_ifs <;> omega

theorem bucket_eq_iff_of_between {a : DCacheAnalyzer} {x : ℕ} (hmin : a.min_size < x)
    (hmax : x < a.max_size) (k : ℕ) : bucket a k = x ↔ k = x := by
  unfold bucket
  split_ifs <;> omega

theorem isDistribution_rebucket (a : DCacheAnalyzer) (hle : a.min_size ≤ a.max_size)
    {masses : PyDict ℕ ℚ} (hnonneg : ∀ v ∈ masses.values, 0 ≤ v) (htotal : masses.total = 1) :
    ∃ stats, rebucket a masses = .ok stats ∧
      IsDistribution a.min_size a.max_size masses stats := by
  refine ⟨_, rebucket_eq a htotal, ?_⟩
  have hval : ∀ x, (clamped a masses).sortKeys.val x =
      ((masses.entries.filter fun e => bucket a e.1 = x).map Prod.snd).sum := by
    intro x
    rw [← val_clamped]
    unfold PyDict.val
    rw [PyDict.get?_sortKeys]
  have hkeys : ∀ x, x ∈ (clamped a masses).sortKeys.keys ↔ x = a.min_size ∨ x = a.max_size ∨
      (x ∈ masses.keys ∧ a.min_size < x ∧ x < a.max_size) := by
    intro x
    rw [(clamped a masses).perm_keys_sortKeys.mem_iff, mem_keys_clamped]
  refine ⟨?_, ?_, PyDict.strictly_sorted_sortKeys _, ?_, ?_, ?_, ?_, ?_⟩
  · intro v hv
    obtain ⟨e, he, rfl⟩ := List.mem_map.mp hv
    rw [← PyDict.val_of_mem he, hval]
    apply List.sum_nonneg
    intro w hw
    obtain ⟨e', he', rfl⟩ := List.mem_map.mp hw
    exact hnonneg _ (List.mem_map_of_mem (List.mem_of_mem_filter he'))
  · rw [← htotal, ← total_clamped a masses]
    exact ((clamped a masses).perm_entries_sortKeys.map Prod.snd).sum_eq
  · intro k hk
    rcases (hkeys k).mp hk with rfl | rfl | hk <;> omega
  · exact ⟨(hkeys _).mpr (Or.inl rfl), (hkeys _).mpr (Or.inr (Or.inl rfl))⟩
  · intro hlt
    rw [hval]
    simp only [bucket_eq_min_iff hlt]
  · intro hlt
    rw [hval]
    simp only [bucket_eq_max_iff hlt]
  · intro k hmin hmax
    rw [hval]
    simp only [bucket_eq_iff_of_between hmin hmax]
    exact PyDict.sum_filter_key masses k

/-! ## The tables of the sizes -/

/-- A table for the sizes, and a table of the skeleton with the same keys. -/
structure Comparable {α : Type} (valgrind_data skeleton_data : PyDict (ℕ × ℕ) α) : Prop where
  one_entry : (valgrind_data.keys.map Prod.fst).Nodup
  two_sizes : 2 ≤ valgrind_data.keys.length
  same_keys : ∀ k, k ∈ skeleton_data.keys ↔ k ∈ valgrind_data.keys

theorem int_mean_ok {l : List ℤ} (h : l ≠ []) : ∃ n, int_mean l = .ok n := by
  unfold int_mean
  rw [if_neg h]
  exact ⟨_, rfl⟩

theorem Comparable.values_ne_nil {valgrind_data skeleton_data : PyDict (ℕ × ℕ) α}
    (h : Comparable valgrind_data skeleton_data) :
    valgrind_data.values ≠ [] ∧ skeleton_data.values ≠ [] := by
  have hne : valgrind_data.keys ≠ [] := by
    intro hnil
    have htwo := h.two_sizes
    rw [hnil] at htwo
    exact absurd htwo (by decide)
  obtain ⟨k, hk⟩ := List.exists_mem_of_ne_nil _ hne
  have hk' := (h.same_keys k).mpr hk
  unfold PyDict.keys at hk hk'
  unfold PyDict.values
  constructor
  · rintro hnil
    rw [List.map_eq_nil_iff.mp hnil] at hk
    cases hk
  · rintro hnil
    rw [List.map_eq_nil_iff.mp hnil] at hk'
    cases hk'

theorem Comparable.get?_skeleton {α : Type} {valgrind_data skeleton_data : PyDict (ℕ × ℕ) α}
    (h : Comparable valgrind_data skeleton_data) {e : (ℕ × ℕ) × α} (he : e ∈ valgrind_data.entries) :
    ∃ value, skeleton_data.get? e.1 = some value := by
  apply PyDict.exists_get?_of_mem_keys
  rw [h.same_keys]
  exact List.mem_map_of_mem he

theorem run_analysis_eq (a : DCacheAnalyzer) (valgrind_data skeleton_data : Table) :
    run_analysis a valgrind_data skeleton_data =
      run_analysis_from_valgrind a valgrind_data skeleton_data >>= rebucket a := rfl

theorem mean_refs_ok {κ : Type} {data : PyDict κ Counts} (h : data.values ≠ []) : ∃ c, mean_refs data = .ok c := by
  obtain ⟨refs, hrefs⟩ := int_mean_ok (l := data.values.map Counts.refs) (by simpa using h)
  obtain ⟨rd_refs, hrd_refs⟩ := int_mean_ok (l := data.values.map Counts.rd_refs) (by simpa using h)
  obtain ⟨wr_refs, hwr_refs⟩ := int_mean_ok (l := data.values.map Counts.wr_refs) (by simpa using h)
  unfold mean_refs
  rw [hrefs, hrd_refs, hwr_refs]
  exact ⟨_, rfl⟩

theorem size_table_ok (a : DCacheAnalyzer) (h : Comparable valgrind_data skeleton_data) :
    ∃ table, size_table a valgrind_data skeleton_data = .ok table := by
  obtain ⟨app, happ⟩ := mean_refs_ok h.values_ne_nil.1
  obtain ⟨skeleton, hskeleton⟩ := mean_refs_ok h.values_ne_nil.2
  unfold size_table table_by
  rw [happ, hskeleton]
  apply PyError.exists_foldlM
  intro e he ret
  obtain ⟨value, hvalue⟩ := h.get?_skeleton he
  unfold counts_by
  split
  · rw [hvalue]
    exact ⟨_, rfl⟩
  · exact ⟨_, rfl⟩

variable {table : PyDict ℕ Counts}

/-- The table has the sizes of the data, each once. -/
theorem length_size_table {a : DCacheAnalyzer} (h : Comparable valgrind_data skeleton_data)
    (htable : size_table a valgrind_data skeleton_data = .ok table) :
    table.sortKeys.entries.length = valgrind_data.keys.length := by
  unfold size_table table_by at htable
  obtain ⟨app, -, htable⟩ := PyError.ok_of_bind htable
  obtain ⟨skeleton, -, htable⟩ := PyError.ok_of_bind htable
  have hkeys : table.keys.Perm (valgrind_data.keys.map Prod.fst) := by
    refine (List.perm_ext_iff_of_nodup table.nodup h.one_entry).mpr fun x => ?_
    rw [← PyDict.keys, mem_keys_table htable]
    simp [PyDict.keys]
  have hlength := hkeys.length_eq
  unfold PyDict.keys at hlength ⊢
  rw [List.length_map, List.length_map] at hlength
  rw [table.perm_entries_sortKeys.length_eq, hlength]

/-! ## The masses of the sizes -/

/-- The masses of positive counts add up to one, and the analysis spreads them over the sizes
between the bounds. -/
def Distributes (min_size max_size : ℕ) (counts : List (ℕ × ℚ))
    (tmp_stats stats : Except PyError (PyDict ℕ ℚ)) : Prop :=
  (∃ e ∈ counts, 0 < e.2) → ∃ masses result, tmp_stats = .ok masses ∧ stats = .ok result ∧
    masses.entries =
      counts.map (fun e => (e.1, max 0 e.2 / (counts.map fun e => max 0 e.2).sum)) ∧
    IsDistribution min_size max_size masses result

/-- The access counts of a table of sizes. -/
def counts_of (table : PyDict ℕ Counts) : List (ℕ × ℚ) :=
  (access_counts table.sortKeys.entries).map fun e => (e.1, (e.2 : ℚ))

theorem calculate_dcache_stats_eq (table : PyDict ℕ Counts)
    (hpos : ∃ e ∈ counts_of table, 0 < e.2) :
    ∃ masses, calculate_dcache_stats table = .ok masses ∧
      masses.entries = (counts_of table).map
        (fun e => (e.1, max 0 e.2 / ((counts_of table).map fun e => max 0 e.2).sum)) ∧
      (∀ v ∈ masses.values, 0 ≤ v) ∧ masses.total = 1 := by
  have hnodup : ((access_counts table.sortKeys.entries).map Prod.fst).Nodup := by
    rw [map_fst_access_counts]
    exact table.sortKeys.nodup
  obtain ⟨e, he, hlt⟩ := hpos
  obtain ⟨x, hx, rfl⟩ := List.mem_map.mp he
  obtain ⟨masses, hmasses, hentries, hrest⟩ :=
    mapM_shares (fun v : ℤ => (v : ℚ)) rfl hnodup ⟨x, hx, hlt⟩
  refine ⟨masses, hmasses, ?_, hrest⟩
  unfold counts_of
  rw [hentries, List.map_map, List.map_map]
  rfl

/-- The misses of the size before, which are the references for the first size. -/
def misses_before (l : List (ℕ × Counts)) : ℕ → ℤ
  | 0 => (l.head?.map fun e => e.2.refs).getD 0
  | i + 1 => (l[i]?.map fun e => e.2.misses).getD 0

theorem getElem?_later_accesses (misses : ℤ) (l : List (ℕ × Counts)) (i : ℕ) :
    (later_accesses misses l)[i]? = l[i]?.map fun e =>
      (e.1, (if i = 0 then misses else misses_before l i) -
        if i + 1 < l.length then e.2.misses else 0) := by
  induction l generalizing misses i with
  | nil => rfl
  | cons e rest ih =>
    cases rest with
    | nil => cases i <;> simp [later_accesses]
    | cons e' rest =>
      rw [later_accesses_cons_cons]
      cases i with
      | zero => simp
      | succ i =>
        rw [List.getElem?_cons_succ, ih, List.getElem?_cons_succ]
        cases i with
        | zero => simp [misses_before]
        | succ i => simp [misses_before]

/-- Each access count is the difference of the misses of two sizes. -/
theorem getElem?_access_counts {l : List (ℕ × Counts)} (h : 2 ≤ l.length) (i : ℕ) :
    (access_counts l)[i]? = l[i]?.map fun e =>
      (e.1, misses_before l i - if i + 1 < l.length then e.2.misses else 0) := by
  cases l with
  | nil => rfl
  | cons e rest =>
    rw [access_counts]
    cases i with
    | zero =>
      have hlt : 0 + 1 < (e :: rest).length := h
      simp only [List.getElem?_cons_zero, Option.map_some, if_pos hlt]
      rfl
    | succ i =>
      rw [List.getElem?_cons_succ, getElem?_later_accesses, List.getElem?_cons_succ,
        List.length_cons]
      cases i with
      | zero => simp [misses_before, Nat.lt_iff_add_one_le]
      | succ i => simp [misses_before]

theorem distributes (a : DCacheAnalyzer) (hle : a.min_size ≤ a.max_size)
    (htable : size_table a valgrind_data skeleton_data = .ok table) :
    Distributes a.min_size a.max_size (counts_of table)
      (run_analysis_from_valgrind a valgrind_data skeleton_data)
      (run_analysis a valgrind_data skeleton_data) := by
  intro hpos
  obtain ⟨masses, hmasses, hentries, hnonneg, htotal⟩ := calculate_dcache_stats_eq table hpos
  obtain ⟨stats, hstats, hdistribution⟩ := isDistribution_rebucket a hle hnonneg htotal
  have hvalgrind : run_analysis_from_valgrind a valgrind_data skeleton_data = .ok masses := by
    rw [run_analysis_from_valgrind, htable]
    exact hmasses
  refine ⟨masses, stats, hvalgrind, ?_, hentries, hdistribution⟩
  rw [run_analysis_eq, hvalgrind]
  exact hstats

/-- With misses that fall from size to size, each mass is the difference of two neighbouring
numbers of misses, divided by the references. -/
def Telescopes (l : List (ℕ × Counts)) (tmp_stats : Except PyError (PyDict ℕ ℚ)) : Prop :=
  Falling l → (∀ e ∈ l, e.2.misses ≤ e.2.refs) → (∀ e ∈ l.dropLast, 0 ≤ e.2.misses) →
    (∃ e ∈ access_counts l, 0 < e.2) → ∃ masses, tmp_stats = .ok masses ∧
      ∀ i e, l[i]? = some e → masses.get? e.1 = some
        (((misses_before l i - if i + 1 < l.length then e.2.misses else 0 : ℤ) : ℚ) / e.2.refs)

/-- All sizes have the same references. -/
theorem refs_size_table {a : DCacheAnalyzer}
    (htable : size_table a valgrind_data skeleton_data = .ok table) :
    ∃ refs, ∀ e ∈ table.sortKeys.entries, e.2.refs = refs := by
  unfold size_table table_by at htable
  obtain ⟨app, -, htable⟩ := PyError.ok_of_bind htable
  obtain ⟨skeleton, -, htable⟩ := PyError.ok_of_bind htable
  refine ⟨if a.exclude then app.refs - skeleton.refs else app.refs, fun e he => ?_⟩
  refine PyError.foldlM_inv (P := fun ret : PyDict ℕ Counts => ∀ e ∈ ret.entries,
    e.2.refs = if a.exclude then app.refs - skeleton.refs else app.refs) ?_ (by simp) htable e
    (table.perm_entries_sortKeys.mem_iff.mp he)
  intro ret x _ ret' hret hx e he
  unfold counts_by at hx
  split at hx
  · rename_i hexclude
    split at hx
    · cases hx
    · cases hx
      rcases PyDict.mem_entries_set he with ⟨-, hval⟩ | he
      · rw [hval, if_pos hexclude]
        rfl
      · exact hret e he
  · rename_i hexclude
    cases hx
    rcases PyDict.mem_entries_set he with ⟨-, hval⟩ | he
    · rw [hval, if_neg hexclude]
    · exact hret e he

/-- Counts that are not negative add up to the references. -/
theorem sum_counts_of (htwo : 2 ≤ table.sortKeys.entries.length)
    (hnonneg : ∀ x ∈ access_counts table.sortKeys.entries, 0 ≤ x.2) {refs : ℤ}
    (hrefs : ∀ e ∈ table.sortKeys.entries, e.2.refs = refs) :
    ((counts_of table).map fun e => max 0 e.2).sum = refs := by
  have hsum : ((access_counts table.sortKeys.entries).map Prod.snd).sum = refs := by
    generalize table.sortKeys.entries = l at htwo hrefs
    rcases l with _ | ⟨e, _ | ⟨e', rest⟩⟩
    · exact absurd htwo (by simp)
    · exact absurd htwo (by simp)
    · rw [sum_access_counts e (List.cons_ne_nil _ _), hrefs e List.mem_cons_self]
  rw [← hsum, Int.cast_list_sum, List.map_map]
  unfold counts_of
  rw [List.map_map]
  congr 1
  apply List.map_congr_left
  intro x hx
  exact max_eq_right (Int.cast_nonneg (hnonneg x hx))

theorem telescopes (a : DCacheAnalyzer) {valgrind_data skeleton_data : Table}
    (h : Comparable valgrind_data skeleton_data) {table : PyDict ℕ Counts}
    (htable : size_table a valgrind_data skeleton_data = .ok table) :
    Telescopes table.sortKeys.entries (run_analysis_from_valgrind a valgrind_data skeleton_data) := by
  rintro hfalling hle hnonneg ⟨x, hx, hpos⟩
  have htwo : 2 ≤ table.sortKeys.entries.length := by
    rw [length_size_table h htable]
    exact h.two_sizes
  obtain ⟨refs, hrefs⟩ := refs_size_table htable
  have hcounts := access_counts_nonneg hnonneg hle hfalling
  obtain ⟨masses, hmasses, hentries, -, -⟩ := calculate_dcache_stats_eq table
    ⟨(x.1, (x.2 : ℚ)), List.mem_map.mpr ⟨x, hx, rfl⟩, Int.cast_pos.mpr hpos⟩
  refine ⟨masses, ?_, fun i e he => ?_⟩
  · rw [run_analysis_from_valgrind, htable]
    exact hmasses
  · have hcount := getElem?_access_counts htwo i
    rw [he, Option.map_some] at hcount
    have hmem := List.mem_of_getElem? hcount
    rw [sum_counts_of htwo hcounts hrefs] at hentries
    rw [PyDict.get?_eq_some_iff, hentries, hrefs e (List.mem_of_getElem? he)]
    refine List.mem_map.mpr ⟨_, List.mem_map_of_mem hmem, ?_⟩
    rw [max_eq_right (Int.cast_nonneg (hcounts _ hmem))]

end ditto.dcache_analyzer

namespace ditto.icache_analyzer

open ditto.dcache_analyzer

theorem size_table_ok (a : ICacheAnalyzer) (h : Comparable valgrind_data skeleton_data) :
    ∃ table, size_table a valgrind_data skeleton_data = .ok table := by
  obtain ⟨app_refs, happ⟩ := int_mean_ok (l := valgrind_data.values.map Counts.refs)
    (by simpa using h.values_ne_nil.1)
  obtain ⟨skeleton_refs, hskeleton⟩ := int_mean_ok (l := skeleton_data.values.map Counts.refs)
    (by simpa using h.values_ne_nil.2)
  unfold size_table
  rw [happ, hskeleton]
  apply PyError.exists_foldlM
  intro e he ret
  obtain ⟨value, hvalue⟩ := h.get?_skeleton he
  unfold size_hits
  split
  · rw [hvalue]
    exact ⟨_, rfl⟩
  · exact ⟨_, rfl⟩

theorem size_hits_set {exclude : Bool} {app_refs skeleton_refs : ℤ} (ret : PyDict ℕ Hits)
    (e : (ℕ × ℕ) × Counts) (ret' : PyDict ℕ Hits)
    (h : size_hits exclude skeleton_data app_refs skeleton_refs ret e = .ok ret') :
    ∃ hits, ret' = ret.set e.1.1 hits := by
  unfold size_hits at h
  split at h
  · split at h
    · cases h
    · cases h
      exact ⟨_, rfl⟩
  · cases h
    exact ⟨_, rfl⟩

theorem map_fst_later_accesses (hits : ℤ) (l : List (ℕ × Hits)) :
    (later_accesses hits l).map Prod.fst = l.map Prod.fst := by
  induction l generalizing hits with
  | nil => rfl
  | cons e rest ih => rw [later_accesses, List.map_cons, ih, List.map_cons]

/-- The table is not empty, so there are counts for each of its sizes. -/
theorem access_counts_ok {a : ICacheAnalyzer} (h : Comparable valgrind_data skeleton_data)
    {table : PyDict ℕ Hits} (htable : size_table a valgrind_data skeleton_data = .ok table) :
    ∃ counts, access_counts table.sortKeys.entries = .ok counts ∧
      (counts.map Prod.fst).Nodup := by
  unfold size_table at htable
  obtain ⟨app_refs, -, htable⟩ := PyError.ok_of_bind htable
  obtain ⟨skeleton_refs, -, htable⟩ := PyError.ok_of_bind htable
  have hkeys := PyDict.mem_keys_foldlM size_hits_set htable
  have hnodup := table.sortKeys.nodup
  rcases hentries : table.sortKeys.entries with _ | ⟨e, rest⟩
  · -- Any size of the data would be a key of the table.
    obtain ⟨v, hv⟩ := List.exists_mem_of_ne_nil _ h.values_ne_nil.1
    obtain ⟨x, hx, -⟩ := List.mem_map.mp hv
    have hmem := (hkeys x.1.1).mpr (Or.inl (List.mem_map_of_mem (f := fun e => e.1.1) hx))
    rw [← table.perm_keys_sortKeys.mem_iff] at hmem
    unfold PyDict.keys at hmem
    rw [hentries] at hmem
    cases hmem
  · rw [hentries, List.map_cons, List.nodup_cons] at hnodup
    refine ⟨_, rfl, ?_⟩
    rw [List.map_append, map_fst_later_accesses, List.map_singleton, List.nodup_append]
    refine ⟨hnodup.2, List.nodup_singleton _, ?_⟩
    rintro x hx y hy rfl
    rw [List.mem_singleton.mp hy] at hx
    exact hnodup.1 hx

theorem distributes (a : ICacheAnalyzer) (hle : a.min_size ≤ a.max_size) {table : PyDict ℕ Hits}
    (htable : size_table a valgrind_data skeleton_data = .ok table) {counts : List (ℕ × ℚ)}
    (hcounts : access_counts table.sortKeys.entries = .ok counts)
    (hnodup : (counts.map Prod.fst).Nodup) :
    Distributes a.min_size a.max_size counts
      (run_analysis_from_valgrind a valgrind_data skeleton_data)
      (run_analysis a valgrind_data skeleton_data) := by
  intro hpos
  obtain ⟨masses, hmasses, hentries, hnonneg, htotal⟩ :=
    mapM_shares (fun v : ℚ => v) rfl hnodup hpos
  obtain ⟨stats, hstats, hdistribution⟩ :=
    isDistribution_rebucket ⟨a.exclude, a.min_size, a.max_size⟩ hle hnonneg htotal
  have hvalgrind : run_analysis_from_valgrind a valgrind_data skeleton_data = .ok masses := by
    unfold run_analysis_from_valgrind calculate_icache_stats
    rw [htable]
    change (access_counts table.sortKeys.entries >>= _) = _
    rw [hcounts]
    exact hmasses
  refine ⟨masses, stats, hvalgrind, ?_, hentries, hdistribution⟩
  unfold run_analysis
  rw [hvalgrind]
  exact hstats

end ditto.icache_analyzer

namespace ditto.dcache_analyzer

/-! ## The laws -/

/-- Both analyzers give a distribution over the sizes between their bounds as soon as one access
count is positive. The masses of the data cache are differences of misses when the misses fall. -/
theorem cache_stats_are_distributions (a : DCacheAnalyzer) (valgrind_data skeleton_data : Table)
    (h : Comparable valgrind_data skeleton_data) (hle : a.min_size ≤ a.max_size)
    (a' : icache_analyzer.ICacheAnalyzer) (valgrind_data' skeleton_data' : icache_analyzer.Table)
    (h' : Comparable valgrind_data' skeleton_data') (hle' : a'.min_size ≤ a'.max_size) :
    (∃ table, size_table a valgrind_data skeleton_data = .ok table ∧
      Distributes a.min_size a.max_size (counts_of table)
        (run_analysis_from_valgrind a valgrind_data skeleton_data)
        (run_analysis a valgrind_data skeleton_data) ∧
      Telescopes table.sortKeys.entries
        (run_analysis_from_valgrind a valgrind_data skeleton_data)) ∧
    ∃ table counts, icache_analyzer.size_table a' valgrind_data' skeleton_data' = .ok table ∧
      icache_analyzer.access_counts table.sortKeys.entries = .ok counts ∧
      Distributes a'.min_size a'.max_size counts
        (icache_analyzer.run_analysis_from_valgrind a' valgrind_data' skeleton_data')
        (icache_analyzer.run_analysis a' valgrind_data' skeleton_data') := by
  constructor
  · obtain ⟨table, htable⟩ := size_table_ok a h
    exact ⟨table, htable, distributes a hle htable, telescopes a h htable⟩
  · obtain ⟨table, htable⟩ := icache_analyzer.size_table_ok a' h'
    obtain ⟨counts, hcounts, hnodup⟩ := icache_analyzer.access_counts_ok h' htable
    exact ⟨table, counts, htable, hcounts,
      icache_analyzer.distributes a' hle' htable hcounts hnodup⟩

/-- Two sizes with the given misses, and the references of both. -/
def twoSizes (refs misses misses' : ℤ) : Table :=
  (PyDict.empty.set (64, 8) ⟨refs, refs, 0, misses, misses, 0⟩).set (128, 8)
    ⟨refs, refs, 0, misses', misses', 0⟩

def twoInstSizes (refs misses misses' : ℤ) : icache_analyzer.Table :=
  (PyDict.empty.set (64, 8) ⟨refs, misses⟩).set (128, 8) ⟨refs, misses'⟩

/-- Ten references, of which six miss in the smaller cache: two fifths and three fifths. -/
theorem cache_stats_are_distributions_over_two_sizes :
    run_analysis ⟨false, 64, 128⟩ (twoSizes 10 6 2) (twoSizes 10 6 2) =
      .ok ((PyDict.empty.set 64 (2 / 5)).set 128 (3 / 5)) ∧
    ∃ table, size_table ⟨false, 64, 128⟩ (twoSizes 10 6 2) (twoSizes 10 6 2) = .ok table ∧
      Distributes 64 128 (counts_of table)
        (run_analysis_from_valgrind ⟨false, 64, 128⟩ (twoSizes 10 6 2) (twoSizes 10 6 2))
        (run_analysis ⟨false, 64, 128⟩ (twoSizes 10 6 2) (twoSizes 10 6 2)) := by
  have h : Comparable (twoSizes 10 6 2) (twoSizes 10 6 2) := ⟨by decide, by decide, fun _ => Iff.rfl⟩
  have h' : Comparable (twoInstSizes 10 6 2) (twoInstSizes 10 6 2) :=
    ⟨by decide, by decide, fun _ => Iff.rfl⟩
  obtain ⟨table, htable, hdistributes, -⟩ :=
    (cache_stats_are_distributions ⟨false, 64, 128⟩ _ _ h (by decide)
      ⟨false, 64, 128⟩ _ _ h' (by decide)).1
  exact ⟨by decide +kernel, table, htable, hdistributes⟩

/-- Two bounds that meet hold the masses of all sizes, and not only of those up to the bound. A
skeleton with more misses than the application gives a mass that is no difference of misses: the
mass of size 64 is 1, and the difference is 8 of 6 references. -/
theorem meeting_bounds_and_negative_misses_break_the_masses :
    (run_analysis_from_valgrind ⟨false, 64, 64⟩ (twoSizes 10 6 2) (twoSizes 10 6 2) =
        .ok ((PyDict.empty.set 64 (2 / 5)).set 128 (3 / 5)) ∧
      run_analysis ⟨false, 64, 64⟩ (twoSizes 10 6 2) (twoSizes 10 6 2) =
        .ok (PyDict.empty.set 64 1)) ∧
    size_table ⟨true, 64, 128⟩ (twoSizes 10 1 0) (twoSizes 4 3 3) =
      .ok ((PyDict.empty.set 64 ⟨6, 6, 0, -2, -2, 0⟩).set 128 ⟨6, 6, 0, -3, -3, 0⟩) ∧
    run_analysis_from_valgrind ⟨true, 64, 128⟩ (twoSizes 10 1 0) (twoSizes 4 3 3) =
      .ok ((PyDict.empty.set 64 1).set 128 0) := by
  decide +kernel

end ditto.dcache_analyzer
