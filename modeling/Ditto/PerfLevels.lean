-- The hardware counters as a source of the data sizes. The analyzer derives
-- the misses of three cache levels from them, and its hybrid mode spreads the
-- weight of each level over the simulated sizes up to the level.
import Ditto.CacheStats

namespace ditto.dcache_analyzer

/-! ## The counters -/

/-- The metrics that the analyzer looks for in the files of perf. -/
inductive Metric
  | l1_dcache_loads | l1_dcache_stores | l1_dcache_load_misses
  | l2_references | l2_miss | l2_code_rd_hit | l2_code_rd_miss
  | llc_loads | llc_load_misses | llc_stores | llc_store_misses
deriving DecidableEq

/-- What `__parse_perf_file` gives for one file. A metric that the file lacks is no key. -/
abbrev PerfResults := PyDict Metric ℕ

/-- The four files of a run. -/
structure PerfFiles where
  l1 : PerfResults
  l2 : PerfResults
  llc_load : PerfResults
  llc_store : PerfResults

/-- The counters that the analysis takes from the files. -/
structure Counters where
  l1_loads : ℤ
  l1_stores : ℤ
  l1_load_misses : ℤ
  l2_references : ℤ
  l2_miss : ℤ
  l2_code_rd_hit : ℤ
  l2_code_rd_miss : ℤ
  llc_load_misses : ℤ
  llc_store_misses : ℤ
deriving DecidableEq

def counter (results : PerfResults) (metric : Metric) : Except PyError ℤ :=
  match results.get? metric with
  | none => .error .keyError
  | some n => .ok n

/-- All reads of counters come before the only division, and they fail in the same way. -/
def PerfFiles.counters (files : PerfFiles) : Except PyError Counters := do
  return {
    l1_loads := ← counter files.l1 .l1_dcache_loads
    l1_stores := ← counter files.l1 .l1_dcache_stores
    l1_load_misses := ← counter files.l1 .l1_dcache_load_misses
    l2_references := ← counter files.l2 .l2_references
    l2_miss := ← counter files.l2 .l2_miss
    l2_code_rd_hit := ← counter files.l2 .l2_code_rd_hit
    l2_code_rd_miss := ← counter files.l2 .l2_code_rd_miss
    llc_load_misses := ← counter files.llc_load .llc_load_misses
    llc_store_misses := ← counter files.llc_store .llc_store_misses }

/-! ## The levels -/

structure LevelSizes where
  l1_size : ℕ
  l2_size : ℕ
  llc_size : ℕ

/-- The entry of a level. It has no counts of reads and writes, and nothing reads them. -/
def level (misses refs : ℤ) : Counts := ⟨refs, 0, 0, misses, 0, 0⟩

/-- The dictionary `mem_stats`. Levels of one size share an entry, and the last one has it. -/
def mem_stats (sizes : LevelSizes) (refs l1_misses l2_misses l3_misses : ℤ) : PyDict ℕ Counts :=
  ((PyDict.empty.set sizes.l1_size (level l1_misses refs)).set sizes.l2_size
    (level l2_misses refs)).set sizes.llc_size (level l3_misses refs)

/-- The branch that leaves out the skeleton. The misses of data behind the last level are
computed and not used. -/
def excluded_mem_stats (sizes : LevelSizes) (app skeleton : Counters) :
    Except PyError (PyDict ℕ Counts) := do
  let l1_loads := app.l1_loads - skeleton.l1_loads
  let l1_stores := app.l1_stores - skeleton.l1_stores
  let l1_refs := l1_loads + l1_stores
  let l1_load_misses := app.l1_load_misses - skeleton.l1_load_misses
  let l2_code_loads := app.l2_code_rd_hit + app.l2_code_rd_miss - skeleton.l2_code_rd_hit -
    skeleton.l2_code_rd_miss
  let l2_code_load_misses := app.l2_code_rd_miss - skeleton.l2_code_rd_miss
  let l2_refs := app.l2_references - skeleton.l2_references
  let l2_misses := app.l2_miss - skeleton.l2_miss
  let l2_data_refs := l2_refs - l2_code_loads
  let l2_data_misses := l2_misses - l2_code_load_misses
  let l1_store_misses := l2_data_refs - l1_load_misses
  let l3_misses := app.llc_load_misses + app.llc_store_misses - skeleton.llc_load_misses -
    skeleton.llc_store_misses
  let _l3_data_misses ← div (l3_misses * l2_data_misses) l2_misses
  return mem_stats sizes l1_refs (l1_load_misses + l1_store_misses) l2_data_misses l3_misses

/-- The branch that keeps all counts. Its misses of stores come from the misses of the second
level, where the other branch takes its references. -/
def plain_mem_stats (sizes : LevelSizes) (app : Counters) : Except PyError (PyDict ℕ Counts) := do
  let l1_loads := app.l1_loads
  let l1_stores := app.l1_stores
  let l1_refs := l1_loads + l1_stores
  let l1_load_misses := app.l1_load_misses
  let l2_code_loads := app.l2_code_rd_hit + app.l2_code_rd_miss
  let l2_code_load_misses := app.l2_code_rd_miss
  let l2_refs := app.l2_references
  let l2_misses := app.l2_miss
  let _l2_data_refs := l2_refs - l2_code_loads
  let l2_data_misses := l2_misses - l2_code_load_misses
  let l1_store_misses := l2_data_misses - l1_load_misses
  let l3_misses := app.llc_load_misses + app.llc_store_misses
  let _l3_data_misses ← div (l3_misses * l2_data_misses) l2_misses
  return mem_stats sizes l1_refs (l1_load_misses + l1_store_misses) l2_data_misses l3_misses

def perf_mem_stats (exclude : Bool) (sizes : LevelSizes) (app skeleton : PerfFiles) :
    Except PyError (PyDict ℕ Counts) := do
  let app ← app.counters
  if exclude then
    let skeleton ← skeleton.counters
    excluded_mem_stats sizes app skeleton
  else plain_mem_stats sizes app

def run_analysis_from_perf (exclude : Bool) (sizes : LevelSizes) (app skeleton : PerfFiles) :
    Except PyError (PyDict ℕ ℚ) := do
  let mem_stats ← perf_mem_stats exclude sizes app skeleton
  calculate_dcache_stats mem_stats

/-! ## The simulated caches without an associativity -/

/-- Without an associativity the whole key of an entry is kept. -/
def key_table {κ : Type} [DecidableEq κ] (exclude : Bool)
    (valgrind_data skeleton_data : PyDict κ Counts) : Except PyError (PyDict κ Counts) :=
  table_by id exclude valgrind_data skeleton_data

/-- The statistics of tables whose keys are the sizes. -/
def run_analysis_from_valgrind_by_key (exclude : Bool)
    (valgrind_data skeleton_data : PyDict ℕ Counts) : Except PyError (PyDict ℕ ℚ) := do
  let ret ← key_table exclude valgrind_data skeleton_data
  calculate_dcache_stats ret

/-! ## A skeleton without counts -/

def Counters.none : Counters := ⟨0, 0, 0, 0, 0, 0, 0, 0, 0⟩

def Counts.none : Counts := ⟨0, 0, 0, 0, 0, 0⟩

/-- A table with the same keys that counts nothing. -/
structure IsEmptySkeleton {κ : Type} (valgrind_data skeleton_data : PyDict κ Counts) : Prop where
  same_keys : ∀ k, k ∈ skeleton_data.keys ↔ k ∈ valgrind_data.keys
  zero : ∀ value ∈ skeleton_data.values, value = Counts.none

theorem div_ok {a b : ℚ} (h : b ≠ 0) : div a b = .ok (a / b) := if_neg h

theorem excluded_mem_stats_none (sizes : LevelSizes) {app : Counters} (h : app.l2_miss ≠ 0) :
    excluded_mem_stats sizes app Counters.none =
      .ok (mem_stats sizes (app.l1_loads + app.l1_stores)
        (app.l2_references - (app.l2_code_rd_hit + app.l2_code_rd_miss))
        (app.l2_miss - app.l2_code_rd_miss) (app.llc_load_misses + app.llc_store_misses)) := by
  have hmiss : (app.l2_miss : ℚ) ≠ 0 := by exact_mod_cast h
  simp only [excluded_mem_stats, Counters.none, sub_zero, div_ok hmiss, add_sub_cancel]
  rfl

theorem plain_mem_stats_eq (sizes : LevelSizes) {app : Counters} (h : app.l2_miss ≠ 0) :
    plain_mem_stats sizes app =
      .ok (mem_stats sizes (app.l1_loads + app.l1_stores) (app.l2_miss - app.l2_code_rd_miss)
        (app.l2_miss - app.l2_code_rd_miss) (app.llc_load_misses + app.llc_store_misses)) := by
  have hmiss : (app.l2_miss : ℚ) ≠ 0 := by exact_mod_cast h
  simp only [plain_mem_stats, div_ok hmiss, add_sub_cancel]
  rfl

/-- The first level has an entry of its own. -/
def LevelSizes.FirstIsApart (sizes : LevelSizes) : Prop :=
  sizes.l1_size ≠ sizes.l2_size ∧ sizes.l1_size ≠ sizes.llc_size

theorem get?_mem_stats_first {sizes : LevelSizes} (h : sizes.FirstIsApart)
    (refs l1 l2 l3 : ℤ) :
    (mem_stats sizes refs l1 l2 l3).get? sizes.l1_size = some (level l1 refs) := by
  unfold mem_stats
  rw [PyDict.get?_set_of_ne _ _ h.2, PyDict.get?_set_of_ne _ _ h.1, PyDict.get?_set_self]

/-- The misses of the first level show exactly where it has an entry of its own. -/
theorem mem_stats_eq_iff (sizes : LevelSizes) (refs l1 l1' l2 l3 : ℤ) :
    mem_stats sizes refs l1 l2 l3 = mem_stats sizes refs l1' l2 l3 ↔
      (sizes.FirstIsApart → l1 = l1') := by
  constructor
  · intro heq hapart
    have hfirst := get?_mem_stats_first hapart refs l1 l2 l3
    rw [heq, get?_mem_stats_first hapart] at hfirst
    exact (congrArg Counts.misses (Option.some.inj hfirst)).symm
  · intro h
    by_cases hapart : sizes.FirstIsApart
    · rw [h hapart]
    · have hshared : sizes.l1_size = sizes.l2_size ∨ sizes.l1_size = sizes.llc_size := by
        unfold LevelSizes.FirstIsApart at hapart
        omega
      obtain ⟨l1_size, l2_size, llc_size⟩ := sizes
      simp only at hshared
      rcases hshared with rfl | rfl
      · simp [mem_stats, PyDict.set, PyDict.setEntries]
      · by_cases hne : l1_size = l2_size
        · simp [mem_stats, PyDict.set, PyDict.setEntries, hne]
        · simp [mem_stats, PyDict.set, PyDict.setEntries, hne]

theorem perf_mem_stats_eq_iff (sizes : LevelSizes) {app skeleton : PerfFiles} {c : Counters}
    (happ : app.counters = .ok c) (hmiss : c.l2_miss ≠ 0)
    (hskeleton : skeleton.counters = .ok Counters.none) :
    perf_mem_stats true sizes app skeleton = perf_mem_stats false sizes app skeleton ↔
      (sizes.FirstIsApart → c.l2_references - c.l2_code_rd_hit = c.l2_miss) := by
  have hexcluded : perf_mem_stats true sizes app skeleton =
      excluded_mem_stats sizes c Counters.none := by
    unfold perf_mem_stats
    rw [happ, hskeleton]
    rfl
  have hplain : perf_mem_stats false sizes app skeleton = plain_mem_stats sizes c := by
    unfold perf_mem_stats
    rw [happ]
    rfl
  rw [hexcluded, hplain, excluded_mem_stats_none sizes hmiss, plain_mem_stats_eq sizes hmiss,
    Except.ok.injEq, mem_stats_eq_iff]
  refine imp_congr_right fun _ => ?_
  omega

variable {κ : Type}

theorem mean_refs_of_zero {data : PyDict κ Counts} (hne : data.values ≠ [])
    (h : ∀ c ∈ data.values, c = Counts.none) : mean_refs data = .ok Counts.none := by
  have hmean : ∀ f : Counts → ℤ, f Counts.none = 0 → int_mean (data.values.map f) = .ok 0 := by
    intro f hf
    obtain ⟨n, hn⟩ := int_mean_ok (l := data.values.map f) (by simpa using hne)
    have hzero : ∀ x ∈ data.values.map f, x = 0 := by
      intro x hx
      obtain ⟨c, hc, rfl⟩ := List.mem_map.mp hx
      rw [h c hc, hf]
    rw [hn, int_mean_of_forall hzero hn]
  unfold mean_refs
  rw [hmean _ rfl, hmean _ rfl, hmean _ rfl]
  rfl

theorem less_none (app value : Counts) :
    less app Counts.none value Counts.none =
      { value with refs := app.refs, rd_refs := app.rd_refs, wr_refs := app.wr_refs } := by
  simp [less, Counts.none]

variable {valgrind_data skeleton_data : PyDict κ Counts}

theorem IsEmptySkeleton.get? [DecidableEq κ] (h : IsEmptySkeleton valgrind_data skeleton_data)
    {e : κ × Counts} (he : e ∈ valgrind_data.entries) :
    skeleton_data.get? e.1 = some Counts.none := by
  have hkey : e.1 ∈ skeleton_data.keys := (h.same_keys e.1).mpr (List.mem_map_of_mem he)
  obtain ⟨value, hget⟩ := PyDict.exists_get?_of_mem_keys hkey
  have hmem := List.mem_map_of_mem (f := Prod.snd) (PyDict.get?_eq_some_iff.mp hget)
  rw [hget, h.zero value hmem]

theorem IsEmptySkeleton.values_ne_nil (h : IsEmptySkeleton valgrind_data skeleton_data)
    (hne : valgrind_data.values ≠ []) : skeleton_data.values ≠ [] := by
  obtain ⟨v, hv⟩ := List.exists_mem_of_ne_nil _ hne
  obtain ⟨e, he, -⟩ := List.mem_map.mp hv
  obtain ⟨e', he', -⟩ := List.mem_map.mp ((h.same_keys e.1).mpr (List.mem_map_of_mem he))
  exact List.ne_nil_of_mem (List.mem_map_of_mem (f := Prod.snd) he')

theorem table_by_of_empty_skeleton {ι : Type} [DecidableEq κ] [DecidableEq ι] (key : κ → ι)
    (h : IsEmptySkeleton valgrind_data skeleton_data) :
    table_by key true valgrind_data skeleton_data =
      table_by key false valgrind_data skeleton_data := by
  unfold table_by
  -- A table without entries has no mean, whichever branch is taken.
  by_cases hne : valgrind_data.values = []
  · have hmean : mean_refs valgrind_data = .error .valueError := by
      unfold mean_refs
      rw [hne]
      rfl
    rw [hmean]
    rfl
  · rw [mean_refs_of_zero (h.values_ne_nil hne) h.zero]
    refine congrArg _ (funext fun app => PyError.foldlM_congr (fun e he ret => ?_) _)
    simp only [counts_by, h.get? he, less_none]
    rfl

/-! ## Rebalancing -/

/-- The sizes behind one level, up to the next. -/
def inside (lo hi : ℕ) (size : ℕ) : Bool := lo < size && size ≤ hi

/-- One turn of the loop of `__hybrid_rebalance` over the levels. -/
def rebalance_level (valgrind_mem_stats : PyDict ℕ ℚ) (lo : ℕ) (level : ℕ × ℚ)
    (mem_stats : PyDict ℕ ℚ) : Except PyError (PyDict ℕ ℚ) :=
  let sizes := valgrind_mem_stats.entries.filter fun e => inside lo level.1 e.1
  let weights := (sizes.map Prod.snd).sum
  sizes.foldlM (fun mem_stats e => do
    let share ← div e.2 weights
    return mem_stats.set e.1 (share * level.2)) mem_stats

/-- The loop over the levels. Each interval starts at the level before. -/
def rebalance_levels (valgrind_mem_stats : PyDict ℕ ℚ) :
    ℕ → List (ℕ × ℚ) → PyDict ℕ ℚ → Except PyError (PyDict ℕ ℚ)
  | _, [], mem_stats => .ok mem_stats
  | lo, level :: levels, mem_stats => do
    let mem_stats ← rebalance_level valgrind_mem_stats lo level mem_stats
    rebalance_levels valgrind_mem_stats level.1 levels mem_stats

def hybrid_rebalance (valgrind_mem_stats perf_mem_stats : PyDict ℕ ℚ) :
    Except PyError (PyDict ℕ ℚ) :=
  rebalance_levels valgrind_mem_stats 0 perf_mem_stats.entries .empty

/-- The sizes of a level, and the weight that they share. -/
structure Interval where
  lo : ℕ
  hi : ℕ
  weight : ℚ

def intervals : ℕ → List (ℕ × ℚ) → List Interval
  | _, [] => []
  | lo, level :: levels => ⟨lo, level.1, level.2⟩ :: intervals level.1 levels

/-- The entries of an interval. -/
def Interval.restrict (I : Interval) (stats : PyDict ℕ ℚ) : PyDict ℕ ℚ :=
  stats.filter fun size _ => inside I.lo I.hi size

variable {I : Interval} {stats : PyDict ℕ ℚ}

theorem Interval.mem_keys_restrict {x : ℕ} :
    x ∈ (I.restrict stats).keys ↔ x ∈ stats.keys ∧ inside I.lo I.hi x = true := by
  unfold Interval.restrict PyDict.filter PyDict.keys
  simp only [List.mem_map, List.mem_filter]
  constructor
  · rintro ⟨e, ⟨he, hin⟩, rfl⟩
    exact ⟨⟨e, he, rfl⟩, hin⟩
  · rintro ⟨⟨e, he, rfl⟩, hin⟩
    exact ⟨e, ⟨he, hin⟩, rfl⟩

theorem Interval.val_restrict {x : ℕ} (h : inside I.lo I.hi x = true) :
    (I.restrict stats).val x = stats.val x := by
  unfold Interval.restrict PyDict.val
  rw [PyDict.get?_filter]
  cases stats.get? x <;> simp [Option.filter, h]

theorem inside_iff {lo hi x : ℕ} : inside lo hi x = true ↔ lo < x ∧ x ≤ hi := by
  simp [inside]

/-- What a size of an interval gets. -/
def Interval.share (I : Interval) (stats : PyDict ℕ ℚ) (x : ℕ) : ℚ :=
  stats.val x / (I.restrict stats).total * I.weight

/-- With a weight to divide by, a turn writes the shares of the sizes of its interval. -/
theorem rebalance_level_ok {lo : ℕ} {level : ℕ × ℚ}
    (h : (Interval.restrict ⟨lo, level.1, level.2⟩ stats).total ≠ 0) (mem_stats : PyDict ℕ ℚ) :
    rebalance_level stats lo level mem_stats =
      .ok ((Interval.restrict ⟨lo, level.1, level.2⟩ stats).keys.foldl
        (fun d k => d.set k (Interval.share ⟨lo, level.1, level.2⟩ stats k)) mem_stats) := by
  set I : Interval := ⟨lo, level.1, level.2⟩ with hI
  have hturn : ∀ e ∈ (I.restrict stats).entries, ∀ d : PyDict ℕ ℚ,
      (do let share ← div e.2 (I.restrict stats).total; return d.set e.1 (share * level.2)) =
        (.ok (d.set e.1 (I.share stats e.1)) : Except PyError (PyDict ℕ ℚ)) := by
    intro e he d
    rw [div_ok h, Interval.share, PyDict.val_of_mem (List.mem_of_mem_filter he)]
    rfl
  refine (PyError.foldlM_eq_ok hturn mem_stats).trans ?_
  rw [PyDict.keys, List.foldl_map]

/-- A turn over an interval with a size and no weight divides by zero. -/
theorem total_ne_zero_of_rebalance_level {lo : ℕ} {level : ℕ × ℚ} {mem_stats result : PyDict ℕ ℚ}
    (h : rebalance_level stats lo level mem_stats = .ok result)
    (hne : (Interval.restrict ⟨lo, level.1, level.2⟩ stats).entries ≠ []) :
    (Interval.restrict ⟨lo, level.1, level.2⟩ stats).total ≠ 0 := by
  intro hzero
  have hsum : ((stats.entries.filter fun e => inside lo level.1 e.1).map Prod.snd).sum = 0 := hzero
  unfold rebalance_level at h
  obtain ⟨e, rest, hsizes⟩ := List.exists_cons_of_ne_nil hne
  have hsizes : (stats.entries.filter fun e => inside lo level.1 e.1) = e :: rest := hsizes
  simp only [hsum, div, if_true] at h
  rw [hsizes, List.foldlM_cons] at h
  cases h

theorem total_ne_zero_of_rebalance_levels {lo : ℕ} {levels : List (ℕ × ℚ)}
    {mem_stats result : PyDict ℕ ℚ} (h : rebalance_levels stats lo levels mem_stats = .ok result) :
    ∀ I ∈ intervals lo levels, (I.restrict stats).entries ≠ [] → (I.restrict stats).total ≠ 0 := by
  induction levels generalizing lo mem_stats with
  | nil => simp [intervals]
  | cons level levels ih =>
    obtain ⟨mid, hmid, h⟩ := PyError.ok_of_bind h
    rw [intervals, List.forall_mem_cons]
    exact ⟨total_ne_zero_of_rebalance_level hmid, ih h⟩

/-- The levels behind `lo` leave the sizes up to `lo` alone, and each size of an interval gets its
share. -/
theorem rebalance_levels_ok {lo : ℕ} {levels : List (ℕ × ℚ)}
    (hsorted : (lo :: levels.map Prod.fst).Pairwise (· ≤ ·))
    (h : ∀ I ∈ intervals lo levels, (I.restrict stats).total ≠ 0) (mem_stats : PyDict ℕ ℚ) :
    ∃ result, rebalance_levels stats lo levels mem_stats = .ok result ∧
      (∀ x ≤ lo, result.val x = mem_stats.val x) ∧
      (∀ I ∈ intervals lo levels, ∀ x ∈ (I.restrict stats).keys, result.val x = I.share stats x) ∧
      ∀ x ∈ result.keys, x ∈ mem_stats.keys ∨ x ∈ stats.keys := by
  induction levels generalizing lo mem_stats with
  | nil => exact ⟨mem_stats, rfl, fun _ _ => rfl, by simp [intervals], fun x hx => .inl hx⟩
  | cons level levels ih =>
    rw [intervals, List.forall_mem_cons] at h
    rw [List.map_cons, List.pairwise_cons] at hsorted
    have hlo : lo ≤ level.1 := hsorted.1 level.1 List.mem_cons_self
    set I : Interval := ⟨lo, level.1, level.2⟩
    set mid := (I.restrict stats).keys.foldl (fun d k => d.set k (I.share stats k)) mem_stats
      with hmid
    obtain ⟨result, hresult, hbelow, hshares, hkeys⟩ := ih hsorted.2 h.2 mid
    refine ⟨result, ?_, fun x hx => ?_, ?_, fun x hx => ?_⟩
    · rw [rebalance_levels, rebalance_level_ok h.1 mem_stats]
      exact hresult
    · have hout : x ∉ (I.restrict stats).keys := by
        intro hmem
        have := inside_iff.mp (Interval.mem_keys_restrict.mp hmem).2
        exact absurd this.1 (not_lt.mpr hx)
      rw [hbelow x (le_trans hx hlo), hmid, PyDict.val_foldl_set, if_neg hout]
    · rw [intervals, List.forall_mem_cons]
      refine ⟨fun x hx => ?_, hshares⟩
      have hle := (inside_iff.mp (Interval.mem_keys_restrict.mp hx).2).2
      rw [hbelow x hle, hmid, PyDict.val_foldl_set, if_pos hx]
    · rcases hkeys x hx with hx | hx
      · rw [hmid, PyDict.mem_keys_foldl_set] at hx
        exact hx.symm.imp_right fun hx => (Interval.mem_keys_restrict.mp hx).1
      · exact .inr hx

/-- Each interval has the weight of its level in total, and the ratios of the simulated weights. -/
structure Rebalanced (valgrind_mem_stats perf_mem_stats mem_stats : PyDict ℕ ℚ) : Prop where
  total : ∀ I ∈ intervals 0 perf_mem_stats.entries, (I.restrict mem_stats).total = I.weight
  ratio : ∀ I ∈ intervals 0 perf_mem_stats.entries, ∀ a ∈ (I.restrict valgrind_mem_stats).keys,
    ∀ b ∈ (I.restrict valgrind_mem_stats).keys,
      mem_stats.val a * valgrind_mem_stats.val b = mem_stats.val b * valgrind_mem_stats.val a

theorem sum_share (h : (I.restrict stats).total ≠ 0) :
    ∑ x ∈ (I.restrict stats).keys.toFinset, I.share stats x = I.weight := by
  have hval : ∀ x ∈ (I.restrict stats).keys.toFinset,
      I.share stats x = (I.restrict stats).val x * (I.weight / (I.restrict stats).total) := by
    intro x hx
    rw [List.mem_toFinset, Interval.mem_keys_restrict] at hx
    rw [Interval.share, Interval.val_restrict hx.2, div_mul_eq_mul_div, mul_div_assoc]
  rw [Finset.sum_congr rfl hval, ← Finset.sum_mul, ← PyDict.total_eq_sum]
  exact mul_div_cancel₀ _ h

theorem hybrid_rebalance_ok {valgrind_mem_stats perf_mem_stats : PyDict ℕ ℚ}
    (hsorted : perf_mem_stats.keys.Pairwise (· < ·))
    (h : ∀ I ∈ intervals 0 perf_mem_stats.entries, (I.restrict valgrind_mem_stats).total ≠ 0) :
    ∃ result, hybrid_rebalance valgrind_mem_stats perf_mem_stats = .ok result ∧
      Rebalanced valgrind_mem_stats perf_mem_stats result := by
  have hchain : (0 :: perf_mem_stats.entries.map Prod.fst).Pairwise (· ≤ ·) :=
    List.pairwise_cons.mpr ⟨fun x _ => Nat.zero_le x, hsorted.imp le_of_lt⟩
  obtain ⟨result, hresult, -, hshares, hkeys⟩ := rebalance_levels_ok hchain h .empty
  refine ⟨result, hresult, fun I hI => ?_, fun I hI a ha b hb => ?_⟩
  · have hsub : ∀ x ∈ (I.restrict result).keys, x ∈ (I.restrict valgrind_mem_stats).keys.toFinset := by
      intro x hx
      obtain ⟨hx, hin⟩ := Interval.mem_keys_restrict.mp hx
      have hmem : x ∈ valgrind_mem_stats.keys := by simpa using hkeys x hx
      exact List.mem_toFinset.mpr (Interval.mem_keys_restrict.mpr ⟨hmem, hin⟩)
    rw [PyDict.total_eq_sum_of_subset hsub, ← sum_share (h I hI)]
    refine Finset.sum_congr rfl fun x hx => ?_
    rw [List.mem_toFinset] at hx
    rw [Interval.val_restrict (Interval.mem_keys_restrict.mp hx).2, hshares I hI x hx]
  · rw [hshares I hI a ha, hshares I hI b hb, Interval.share, Interval.share]
    ring

/-- Weights that are not negative add up to a positive number as soon as one of them is
positive. -/
theorem total_ne_zero_iff (h : ∀ w ∈ stats.values, 0 ≤ w) :
    stats.total ≠ 0 ↔ ∃ e ∈ stats.entries, 0 < e.2 := by
  constructor
  · intro hne
    by_contra hall
    refine hne (List.sum_eq_zero fun w hw => le_antisymm ?_ (h w hw))
    obtain ⟨e, he, rfl⟩ := List.mem_map.mp hw
    exact not_lt.mp fun hpos => hall ⟨e, he, hpos⟩
  · rintro ⟨e, he, hpos⟩
    have hle := List.single_le_sum h _ (List.mem_map_of_mem (f := Prod.snd) he)
    exact ne_of_gt (lt_of_lt_of_le hpos hle)

theorem Interval.values_restrict_nonneg (h : ∀ w ∈ stats.values, 0 ≤ w) (I : Interval) :
    ∀ w ∈ (I.restrict stats).values, 0 ≤ w := by
  intro w hw
  obtain ⟨e, he, rfl⟩ := List.mem_map.mp hw
  exact h e.2 (List.mem_map_of_mem (List.mem_of_mem_filter he))

/-! ## The laws -/

/-- Without counts in the skeleton both branches give the same levels exactly when the misses of
the second level are its references without the code that it has, or the first level has no entry
of its own. The simulated caches give the same statistics in any case. -/
theorem an_empty_skeleton_changes_nothing_iff (sizes : LevelSizes) (app skeleton : PerfFiles)
    (c : Counters) (happ : app.counters = .ok c) (hmiss : c.l2_miss ≠ 0)
    (hskeleton : skeleton.counters = .ok Counters.none) :
    (perf_mem_stats true sizes app skeleton = perf_mem_stats false sizes app skeleton ∧
        run_analysis_from_perf true sizes app skeleton =
          run_analysis_from_perf false sizes app skeleton ↔
      (sizes.FirstIsApart → c.l2_references - c.l2_code_rd_hit = c.l2_miss)) ∧
    (∀ (min_size max_size : ℕ) (valgrind_data skeleton_data : Table),
      IsEmptySkeleton valgrind_data skeleton_data →
        size_table ⟨true, min_size, max_size⟩ valgrind_data skeleton_data =
          size_table ⟨false, min_size, max_size⟩ valgrind_data skeleton_data ∧
        run_analysis_from_valgrind ⟨true, min_size, max_size⟩ valgrind_data skeleton_data =
          run_analysis_from_valgrind ⟨false, min_size, max_size⟩ valgrind_data skeleton_data) ∧
    (∀ (κ : Type) [DecidableEq κ] (valgrind_data skeleton_data : PyDict κ Counts),
      IsEmptySkeleton valgrind_data skeleton_data →
        key_table true valgrind_data skeleton_data = key_table false valgrind_data skeleton_data) ∧
    ∀ valgrind_data skeleton_data : PyDict ℕ Counts, IsEmptySkeleton valgrind_data skeleton_data →
      run_analysis_from_valgrind_by_key true valgrind_data skeleton_data =
        run_analysis_from_valgrind_by_key false valgrind_data skeleton_data := by
  refine ⟨?_, fun min_size max_size v s h => ?_, fun κ _ v s h => table_by_of_empty_skeleton id h,
    fun v s h => ?_⟩
  · rw [← perf_mem_stats_eq_iff sizes happ hmiss hskeleton, and_iff_left_iff_imp]
    intro heq
    unfold run_analysis_from_perf
    rw [heq]
  · have htable : size_table ⟨true, min_size, max_size⟩ v s = size_table ⟨false, min_size, max_size⟩ v s :=
      table_by_of_empty_skeleton Prod.fst h
    refine ⟨htable, ?_⟩
    unfold run_analysis_from_valgrind
    rw [htable]
  · unfold run_analysis_from_valgrind_by_key key_table
    rw [table_by_of_empty_skeleton id h]

/-- The files of a run with the given counters. -/
def perfFiles (l1_loads l1_stores l1_load_misses references miss code_rd_hit code_rd_miss
    llc_load_misses llc_store_misses : ℕ) : PerfFiles where
  l1 := ((PyDict.empty.set .l1_dcache_loads l1_loads).set .l1_dcache_stores l1_stores).set
    .l1_dcache_load_misses l1_load_misses
  l2 := (((PyDict.empty.set .l2_references references).set .l2_miss miss).set .l2_code_rd_hit
    code_rd_hit).set .l2_code_rd_miss code_rd_miss
  llc_load := PyDict.empty.set .llc_load_misses llc_load_misses
  llc_store := PyDict.empty.set .llc_store_misses llc_store_misses

def serverSizes : LevelSizes := ⟨32768, 1048576, 33554432⟩

/-- All six references of data behind the first level miss in the second one. -/
theorem an_empty_skeleton_changes_nothing_if_all_data_misses :
    let app := perfFiles 70 30 4 9 6 3 1 2 1
    let skeleton := perfFiles 0 0 0 0 0 0 0 0 0
    perf_mem_stats true serverSizes app skeleton = perf_mem_stats false serverSizes app skeleton ∧
      run_analysis_from_perf true serverSizes app skeleton =
        run_analysis_from_perf false serverSizes app skeleton := by
  intro app skeleton
  exact (an_empty_skeleton_changes_nothing_iff serverSizes app skeleton ⟨70, 30, 4, 9, 6, 3, 1, 2, 1⟩
    (by decide) (by decide) (by decide)).1.mpr fun _ => by decide

/-- With 40 references and 6 misses in the second level, of which 3 and 1 are for code, the first
level misses 36 of 100 accesses of data, or 5 without the exclusion of nothing. -/
theorem an_empty_skeleton_adds_misses :
    let app := perfFiles 70 30 4 40 6 3 1 2 1
    let skeleton := perfFiles 0 0 0 0 0 0 0 0 0
    run_analysis_from_perf true serverSizes app skeleton =
        .ok (((PyDict.empty.set 32768 (16 / 25)).set 1048576 (31 / 100)).set 33554432 (1 / 20)) ∧
      run_analysis_from_perf false serverSizes app skeleton =
        .ok (((PyDict.empty.set 32768 (19 / 20)).set 1048576 0).set 33554432 (1 / 20)) := by
  decide +kernel

/-- The weights of the levels are kept exactly when each interval has a simulated size with a
positive weight. -/
theorem rebalancing_keeps_the_levels_iff (valgrind_mem_stats perf_mem_stats : PyDict ℕ ℚ)
    (hnonneg : ∀ w ∈ valgrind_mem_stats.values, 0 ≤ w)
    (hsorted : perf_mem_stats.keys.Pairwise (· < ·))
    (hsizes : ∀ I ∈ intervals 0 perf_mem_stats.entries,
      (I.restrict valgrind_mem_stats).entries ≠ []) :
    (∃ result, hybrid_rebalance valgrind_mem_stats perf_mem_stats = .ok result ∧
      Rebalanced valgrind_mem_stats perf_mem_stats result) ↔
    ∀ I ∈ intervals 0 perf_mem_stats.entries, ∃ e ∈ (I.restrict valgrind_mem_stats).entries,
      0 < e.2 := by
  have hpos : ∀ I : Interval, (I.restrict valgrind_mem_stats).total ≠ 0 ↔
      ∃ e ∈ (I.restrict valgrind_mem_stats).entries, 0 < e.2 :=
    fun I => total_ne_zero_iff (I.values_restrict_nonneg hnonneg)
  constructor
  · rintro ⟨result, hresult, -⟩ I hI
    exact (hpos I).mp (total_ne_zero_of_rebalance_levels hresult I hI (hsizes I hI))
  · intro h
    exact hybrid_rebalance_ok hsorted fun I hI => (hpos I).mpr (h I hI)

def twoWeights (w w' : ℚ) : PyDict ℕ ℚ := (PyDict.empty.set 64 w).set 128 w'

theorem rebalancing_keeps_two_levels :
    ∃ result, hybrid_rebalance (twoWeights (1 / 4) (3 / 4)) (twoWeights (1 / 3) (2 / 3)) =
        .ok result ∧
      Rebalanced (twoWeights (1 / 4) (3 / 4)) (twoWeights (1 / 3) (2 / 3)) result :=
  (rebalancing_keeps_the_levels_iff (twoWeights (1 / 4) (3 / 4)) (twoWeights (1 / 3) (2 / 3))
    (by decide +kernel) (by decide) (by decide +kernel)).mpr (by decide +kernel)

/-- A simulated cache that never misses leaves no weight for the larger size, and the hybrid mode
divides by it. -/
theorem a_size_without_weight_divides_by_zero :
    run_analysis_from_valgrind ⟨false, 64, 128⟩ (twoSizes 10 0 0) (twoSizes 10 0 0) =
        .ok (twoWeights 1 0) ∧
      (∀ I ∈ intervals 0 (twoWeights (1 / 2) (1 / 2)).entries,
        (I.restrict (twoWeights 1 0)).entries ≠ []) ∧
      hybrid_rebalance (twoWeights 1 0) (twoWeights (1 / 2) (1 / 2)) =
        .error .zeroDivisionError := by
  decide +kernel

end ditto.dcache_analyzer
